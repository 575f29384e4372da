import TsxProject.HyperThreads.CheckFrequencies
import TsxProject.Queues.SectionProgress

/-!
# The test of `SectionQueue`

`TestSectionQueue_Producer` and `TestSectionQueue_Consumer` of `FirstTestHyperThreads.c`. They
differ from the test of `SimpleQueue` in the queue that they call, so the registers of their loops
are those of that test, and the registers of the current call come with them.

* `producer`, `consumer` — the threads
* `Inv` — the loops are right, and the calls are a run of the queue
-/

namespace TsxProject

open Infra Infra.Ring

namespace SectionQueueTest

open SimpleQueueTest (Checked total calls)
open SectionQueue (CallEvent)

variable {K S : Nat}

/-- `call` is the current call of `SectionQueue_Enqueue`. -/
structure Producer (K S : Nat) where
  loops : SimpleQueueTest.Producer 1
  call : SectionQueue.Caller K S

/-- `call` is the current call of `SectionQueue_Dequeue`. -/
structure Consumer (K S : Nat) where
  loops : SimpleQueueTest.Consumer 1
  call : SectionQueue.Caller K S

section Threads

variable [NeZero K] [NeZero S]

/-- `TestSectionQueue_Producer`. In the state `enqueue v _` of the loops the thread is inside
`SectionQueue_Enqueue(&sectionQueue, v)`. -/
def producer (n M : Nat) (freq : CheckFrequency) (p : Nat → Long) (s : Producer K S) :
    Instr (SectionQueue K S) (Producer K S) (CallEvent K S) :=
  let l := s.loops
  match l.pc with
  | .loop =>
    if l.i < n then .skip { s with loops := l.iteration M freq p } []
    else .skip { s with loops := { l with pc := .finish } } []
  | .inner =>
    if l.j < M then .skip { s with loops := { l with pc := .enqueue (l.auxValues l.j) .next } } []
    else .skip { s with loops := { l with residue := 0, i := l.i + 1, pc := .loop } } []
  | .enqueue v _ =>
    (SectionQueue.enqueue v.toInt s.call).map fun call =>
      ⟨if call.pc = .idle then l.afterEnqueue freq else l, call⟩
  | .finish => .skip { s with loops := { l with producerResult := l.result, pc := .done } } []
  | .done => .halt

/-- `TestSectionQueue_Consumer`. In the state `dequeue _` of the loops the thread is inside
`SectionQueue_Dequeue(&sectionQueue)`. -/
def consumer (n M : Nat) (freq : CheckFrequency) (c : Nat → Long) (s : Consumer K S) :
    Instr (SectionQueue K S) (Consumer K S) (CallEvent K S) :=
  let l := s.loops
  match l.pc with
  | .loop =>
    if l.i < n then .skip { s with loops := l.iteration M freq c } []
    else .skip { s with loops := { l with pc := .finish } } []
  | .inner =>
    if l.j < M then .skip { s with loops := { l with pc := .dequeue .awaitDeq } } []
    else .skip { s with loops := { l with i := l.i + 1, pc := .loop } } []
  | .dequeue _ =>
    (SectionQueue.dequeuer s.call).map fun call =>
      ⟨if call.pc = .idle then
          { l with taken := l.taken + 1, pc := .compare (BitVec.ofInt 64 call.value) }
        else l, call⟩
  | .compare v =>
    if v ≠ l.expected freq then .skip { s with loops := { l with pc := .error } } []
    else .skip { s with loops := l.afterMatch freq v } []
  | .finish => .skip { s with loops := { l with consumerResult := l.result, pc := .done } } []
  | .done => .halt
  | .error => .exit

end Threads

/-- What a run is about. -/
structure Setup (K S : Nat) where
  n : Nat
  M : Nat
  freq : CheckFrequency
  p : Nat → Long
  c : Nat → Long
  content : Fin K → Fin S → Int
  auxValue : Long
  auxValues : Nat → Long

abbrev State (K S : Nat) : Type := Conf (SectionQueue K S) (Producer K S) (Consumer K S)

variable [NeZero K] [NeZero S]

def Setup.program (x : Setup K S) :
    Program (SectionQueue K S) (Producer K S) (Consumer K S) (CallEvent K S) :=
  ⟨producer x.n x.M x.freq x.p, consumer x.n x.M x.freq x.c⟩

/-- Both threads, from `SectionQueue_Init` on. -/
def Setup.system (x : Setup K S) : System Side (State K S) (CallEvent K S) :=
  x.program.system
    ⟨SectionQueue.init x.content, ⟨.start 1 x.auxValues, ⟨.idle, 0, 0⟩⟩,
      ⟨.start 1 x.auxValue x.auxValues, ⟨.idle, 0, 0⟩⟩⟩

variable {n M : Nat} {freq : CheckFrequency} {p c : Nat → Long} {x : Setup K S}
  {q q' : SectionQueue K S} {tr evs : List (CallEvent K S)}

/-! ## Steps -/

/-- Memory that the loops do not use. -/
def nowhere : SimpleQueue 1 := SimpleQueue.init fun _ => 0

/-- A step outside the queue is one of the other test. -/
theorem producer_skip {s s' : Producer K S} (hpc : ∀ v e, s.loops.pc ≠ .enqueue v e)
    (hs : (producer n M freq p s).exec q = some (q', s', evs)) :
    q' = q ∧ evs = [] ∧ s'.call = s.call ∧
      (SimpleQueueTest.producer n M freq p s.loops).exec nowhere =
        some (nowhere, s'.loops, []) := by
  unfold producer at hs
  unfold SimpleQueueTest.producer
  cases hl : s.loops.pc with
  | enqueue v e => exact absurd hl (hpc v e)
  | loop | inner =>
    simp only [hl] at hs ⊢
    split at hs <;> cases hs
    · next hlt => exact ⟨rfl, rfl, rfl, by rw [if_pos hlt]; rfl⟩
    · next hge => exact ⟨rfl, rfl, rfl, by rw [if_neg hge]; rfl⟩
  | finish =>
    simp only [hl] at hs ⊢
    cases hs
    exact ⟨rfl, rfl, rfl, rfl⟩
  | done =>
    simp only [hl] at hs
    cases hs

theorem consumer_skip {s s' : Consumer K S} (hpc : ∀ e, s.loops.pc ≠ .dequeue e)
    (hs : (consumer n M freq c s).exec q = some (q', s', evs)) :
    q' = q ∧ evs = [] ∧ s'.call = s.call ∧
      (SimpleQueueTest.consumer n M freq c s.loops).exec nowhere =
        some (nowhere, s'.loops, []) := by
  unfold consumer at hs
  unfold SimpleQueueTest.consumer
  cases hl : s.loops.pc with
  | dequeue e => exact absurd hl (hpc e)
  | loop | inner =>
    simp only [hl] at hs ⊢
    split at hs <;> cases hs
    · next hlt => exact ⟨rfl, rfl, rfl, by rw [if_pos hlt]; rfl⟩
    · next hge => exact ⟨rfl, rfl, rfl, by rw [if_neg hge]; rfl⟩
  | compare v =>
    simp only [hl] at hs ⊢
    split at hs <;> cases hs
    · next hne => exact ⟨rfl, rfl, rfl, by rw [if_pos hne]; rfl⟩
    · next heq => exact ⟨rfl, rfl, rfl, by rw [if_neg heq]; rfl⟩
  | finish =>
    simp only [hl] at hs ⊢
    cases hs
    exact ⟨rfl, rfl, rfl, rfl⟩
  | done | error =>
    simp only [hl] at hs
    cases hs

/-- A step inside `SectionQueue_Enqueue`. -/
theorem producer_call {s s' : Producer K S} {v : Long} {e : SimpleQueue.EnqueuePc 1}
    (hpc : s.loops.pc = .enqueue v e)
    (hs : (producer n M freq p s).exec q = some (q', s', evs)) :
    (SectionQueue.enqueue v.toInt s.call).exec q = some (q', s'.call, evs) ∧
      s'.loops = if s'.call.pc = .idle then s.loops.afterEnqueue freq else s.loops := by
  unfold producer at hs
  simp only [hpc] at hs
  obtain ⟨call, hx, rfl⟩ := Instr.map_cases hs
  exact ⟨hx, rfl⟩

/-- A step inside `SectionQueue_Dequeue`. -/
theorem consumer_call {s s' : Consumer K S} {e : SimpleQueue.DequeuePc 1}
    (hpc : s.loops.pc = .dequeue e)
    (hs : (consumer n M freq c s).exec q = some (q', s', evs)) :
    (SectionQueue.dequeuer s.call).exec q = some (q', s'.call, evs) ∧
      s'.loops = if s'.call.pc = .idle then
          { s.loops with
            taken := s.loops.taken + 1, pc := .compare (BitVec.ofInt 64 s'.call.value) }
        else s.loops := by
  unfold consumer at hs
  simp only [hpc] at hs
  obtain ⟨call, hx, rfl⟩ := Instr.map_cases hs
  exact ⟨hx, rfl⟩

/-! ## The threads -/

/-- The values of all the producer's calls. -/
def values (n M : Nat) (freq : CheckFrequency) (p : Nat → Long) : List Int :=
  (List.range (total n M freq)).map fun m => (calls M freq p m).toInt

theorem length_values : (values n M freq p).length = total n M freq := by
  rw [values, List.length_map, List.length_range]

theorem getElem?_values {m : Nat} (hm : m < total n M freq) :
    (values n M freq p)[m]? = some (calls M freq p m).toInt := by
  rw [values, List.getElem?_map, List.getElem?_range hm]
  rfl

/-- The loops are right, and the call is the one they make. -/
structure Producer.Ok (n M : Nat) (freq : CheckFrequency) (p : Nat → Long) (s : Producer K S) :
    Prop where
  loops : s.loops.Ok n M freq p
  sent : s.call.n = s.loops.sent
  idle : (∀ v e, s.loops.pc ≠ .enqueue v e) → s.call.pc = .idle

structure Consumer.Ok (n M : Nat) (freq : CheckFrequency) (p c : Nat → Long) (s : Consumer K S) :
    Prop where
  loops : s.loops.Ok n M freq p c
  taken : s.call.n = s.loops.taken
  idle : (∀ e, s.loops.pc ≠ .dequeue e) → s.call.pc = .idle

omit [NeZero K] [NeZero S] in
theorem sent_of_local {l l' : SimpleQueueTest.Producer 1}
    (h : SimpleQueueTest.Producer.Local l l') : l'.sent = l.sent := by
  cases h with
  | quiet hcaller => exact congrArg SimpleQueue.Enqueuer.n hcaller
  | begin v _ _ hsent => exact hsent

omit [NeZero K] [NeZero S] in
theorem taken_of_local {l l' : SimpleQueueTest.Consumer 1}
    (h : SimpleQueueTest.Consumer.Local l l') : l'.taken = l.taken := by
  cases h with
  | quiet hcaller => exact congrArg SimpleQueue.Dequeuer.m hcaller
  | begin _ hbegin => exact congrArg SimpleQueue.Dequeuer.m hbegin

theorem Producer.Ok.skip {s s' : Producer K S} (hM : 0 < M) (hdvd : M ∣ n) (hfreq : Checked freq)
    (hpc : ∀ v e, s.loops.pc ≠ .enqueue v e) (h : s.Ok n M freq p)
    (hs : (producer n M freq p s).exec q = some (q', s', evs)) :
    q' = q ∧ evs = [] ∧ s'.call = s.call ∧ s'.Ok n M freq p := by
  obtain ⟨rfl, rfl, hcall, hx⟩ := producer_skip hpc hs
  obtain ⟨-, -, hloops, hlocal⟩ := h.loops.skip hM hdvd hfreq hpc hx
  refine ⟨rfl, rfl, hcall, hloops, ?_, fun _ => ?_⟩
  · rw [hcall, sent_of_local hlocal]
    exact h.sent
  · rw [hcall]
    exact h.idle hpc

/-- A step inside the queue is a step of a caller with all the values. -/
theorem Producer.Ok.call {s s' : Producer K S} {d : SectionQueue.Caller K S} {v : Long}
    {e : SimpleQueue.EnqueuePc 1} (hM : 0 < M) (hfreq : Checked freq)
    (hpc : s.loops.pc = .enqueue v e) (h : s.Ok n M freq p)
    (hinv : SectionQueue.Inv (values n M freq p) ⟨q, s.call, d⟩)
    (hs : (producer n M freq p s).exec q = some (q', s', evs)) :
    (SectionQueue.enqueuer (values n M freq p) s.call).exec q = some (q', s'.call, evs) ∧
      s'.Ok n M freq p := by
  obtain ⟨hloops, hsent, -⟩ := h
  obtain ⟨hx, hl⟩ := producer_call hpc hs
  have hval : (values n M freq p)[s.call.n]? = some v.toInt := by
    have hok := hloops
    simp only [SimpleQueueTest.Producer.Ok, hpc] at hok
    obtain ⟨hi, hj, hcall, rfl, -⟩ := hok
    rw [hsent]
    exact getElem?_values (hcall.lt_total hi hj)
  rw [← SectionQueue.enqueuer_eq hval] at hx
  refine ⟨hx, ?_⟩
  obtain ⟨hrun, hn⟩ | ⟨hret, hn⟩ := hinv.enqueuer_returns hx
  · rw [if_neg hrun] at hl
    refine ⟨by rwa [hl], by rw [hl, hn, hsent], ?_⟩
    intro hne
    rw [hl] at hne
    exact absurd hpc (hne v e)
  · rw [if_pos hret] at hl
    refine ⟨?_, ?_, fun _ => hret⟩
    · rw [hl]
      exact hloops.afterEnqueue hM hfreq hpc
    · rw [hl, hn, hsent]
      unfold SimpleQueueTest.Producer.afterEnqueue
      dsimp only
      split <;> rfl

theorem Consumer.Ok.skip {s s' : Consumer K S} (hM : 0 < M) (hdvd : M ∣ n) (hfreq : Checked freq)
    (hpc : ∀ e, s.loops.pc ≠ .dequeue e) (h : s.Ok n M freq p c)
    (hs : (consumer n M freq c s).exec q = some (q', s', evs)) :
    q' = q ∧ evs = [] ∧ s'.call = s.call ∧ s'.Ok n M freq p c := by
  obtain ⟨rfl, rfl, hcall, hx⟩ := consumer_skip hpc hs
  obtain ⟨-, -, hloops, hlocal⟩ := h.loops.skip hM hdvd hfreq hpc hx
  refine ⟨rfl, rfl, hcall, hloops, ?_, fun _ => ?_⟩
  · rw [hcall, taken_of_local hlocal]
    exact h.taken
  · rw [hcall]
    exact h.idle hpc

/-- A step inside the queue, which returns the values in their order. -/
theorem Consumer.Ok.call {s s' : Consumer K S} {vals : List Int} {d : SectionQueue.Caller K S}
    {e : SimpleQueue.DequeuePc 1} (hpc : s.loops.pc = .dequeue e) (h : s.Ok n M freq p c)
    (hinv : SectionQueue.Inv vals ⟨q, d, s.call⟩)
    (hs : (consumer n M freq c s).exec q = some (q', s', evs)) :
    (SectionQueue.dequeuer s.call).exec q = some (q', s'.call, evs) ∧
      ((∀ v, evs = [.returned .snd v] → v = (calls M freq p s.call.n).toInt) →
        s'.Ok n M freq p c) := by
  obtain ⟨hloops, htaken, -⟩ := h
  obtain ⟨hx, hl⟩ := consumer_call hpc hs
  refine ⟨hx, ?_⟩
  intro hv
  obtain ⟨hrun, hn⟩ | ⟨hret, hn, hev⟩ := hinv.dequeuer_returns hx
  · rw [if_neg hrun] at hl
    refine ⟨by rwa [hl], by rw [hl, hn, htaken], ?_⟩
    intro hne
    rw [hl] at hne
    exact absurd hpc (hne e)
  · rw [if_pos hret] at hl
    refine ⟨?_, by rw [hl, hn, htaken], fun _ => hret⟩
    have hok := hloops
    simp only [SimpleQueueTest.Consumer.Ok, hpc] at hok
    rw [hl]
    refine ⟨s.loops.taken, rfl, hok.goto _ _, ?_⟩
    rw [hv _ hev, BitVec.ofInt_toInt, htaken]

/-! ## Both threads -/

/-- The two threads as callers of the queue. -/
def embed (s : State K S) : SectionQueue.Calls K S := ⟨s.mem, s.fst.call, s.snd.call⟩

def Setup.vals (x : Setup K S) : List Int := values x.n x.M x.freq x.p

structure Inv (x : Setup K S) (tr : List (CallEvent K S)) (s : State K S) : Prop where
  run : (SectionQueue.calls x.content x.vals).Runs tr (embed s)
  fst : s.fst.Ok x.n x.M x.freq x.p
  snd : s.snd.Ok x.n x.M x.freq x.p x.c

theorem Inv.queue {s : State K S} (h : Inv x tr s) : SectionQueue.Inv x.vals (embed s) :=
  (SectionQueue.refines_fifo h.run).1

/-- What is dequeued is what the producer has sent. -/
theorem Setup.returned_eq {t : SectionQueue.Calls K S} {v : Int}
    (h : (SectionQueue.calls x.content x.vals).Runs (tr ++ [.returned .snd v]) t) {m : Nat}
    (hlen : (SectionQueue.returned tr).length = m) : v = (calls x.M x.freq x.p m).toInt := by
  have hpre : SectionQueue.returned tr ++ [v] <+: x.vals := by
    have hsnoc : SectionQueue.returned (tr ++ [.returned .snd v]) =
        SectionQueue.returned tr ++ [v] := SectionQueue.returned_append tr _
    rw [← hsnoc]
    exact (SectionQueue.returned_in_order h).trans (SectionQueue.enqueued_in_order h)
  obtain ⟨rest, hrest⟩ := hpre
  have hget : x.vals[m]? = some v := by
    rw [← hrest, ← hlen]
    simp
  have hm : m < total x.n x.M x.freq := by
    obtain ⟨hlt, -⟩ := List.getElem?_eq_some_iff.mp hget
    rwa [Setup.vals, length_values] at hlt
  rw [Setup.vals, getElem?_values hm] at hget
  exact (Option.some.inj hget).symm

theorem Inv.init (hM : 0 < x.M) : Inv x [] x.system.init where
  run := .init
  fst := ⟨⟨Nat.zero_le _, SimpleQueueTest.Collected.start hM _ _ _, rfl⟩, rfl, fun _ => rfl⟩
  snd := by
    refine ⟨⟨0, Nat.zero_le _, SimpleQueueTest.Collected.start hM _ _ _, fun _ => rfl, ?_,
      fun k hk => absurd hk (Nat.not_lt_zero k)⟩, rfl, fun _ => rfl⟩
    show (0 : Long) = SimpleQueueTest.sumTo x.c (SimpleQueueTest.summed x.freq 0 0)
    unfold SimpleQueueTest.summed
    split <;> rfl

theorem dequeuer_isExit (d : SectionQueue.Caller K S) :
    (SectionQueue.dequeuer d).isExit = false := by
  obtain ⟨pc, value, n⟩ := d
  cases pc <;> rfl

theorem enqueuer_isExit (vals : List Int) (d : SectionQueue.Caller K S) :
    (SectionQueue.enqueuer vals d).isExit = false := by
  by_cases hidle : d.pc = .idle
  · exact SectionQueue.enqueuer_isExit vals d hidle
  · obtain ⟨pc, value, n⟩ := d
    cases pc with
    | idle => exact absurd rfl hidle
    | _ => rfl

theorem Inv.step (hM : 0 < x.M) (hdvd : x.M ∣ x.n) (hfreq : Checked x.freq) {i : Side}
    {s s' : State K S} (h : Inv x tr s) (hs : x.system.step i s = some (s', evs)) :
    Inv x (tr ++ evs) s' := by
  have hqueue := h.queue
  obtain ⟨q, p, c⟩ := s
  obtain ⟨hrun, hp, hc⟩ := h
  obtain ⟨q', p', rfl, rfl, hx⟩ | ⟨q', c', rfl, rfl, hx⟩ := Program.step_cases hs
  · by_cases hpc : ∃ v e, p.loops.pc = .enqueue v e
    · obtain ⟨v, e, hpc⟩ := hpc
      obtain ⟨hcall, hp'⟩ := hp.call hM hfreq hpc hqueue hx
      refine ⟨hrun.step (i := .fst) trivial ?_, hp', hc⟩
      exact Program.step_fst hcall (dequeuer_isExit _)
    · simp only [not_exists] at hpc
      obtain ⟨rfl, rfl, hcall, hp'⟩ := hp.skip hM hdvd hfreq hpc hx
      refine ⟨?_, hp', hc⟩
      rw [List.append_nil, embed, hcall]
      exact hrun
  · by_cases hpc : ∃ e, c.loops.pc = .dequeue e
    · obtain ⟨e, hpc⟩ := hpc
      obtain ⟨hcall, hc'⟩ := hc.call hpc hqueue hx
      have hstep : (SectionQueue.calls x.content x.vals).step .snd (embed ⟨q, p, c⟩) =
          some (embed ⟨q', p, c'⟩, evs) :=
        Program.step_snd hcall (enqueuer_isExit _ _)
      have hrun' := hrun.step trivial hstep
      refine ⟨hrun', hp, hc' ?_⟩
      rintro v rfl
      exact x.returned_eq hrun' (SectionQueue.recorded hrun).returned
    · simp only [not_exists] at hpc
      obtain ⟨rfl, rfl, hcall, hc'⟩ := hc.skip hM hdvd hfreq hpc hx
      refine ⟨?_, hp, hc'⟩
      rw [List.append_nil, embed, hcall]
      exact hrun

theorem inv (hM : 0 < x.M) (hdvd : x.M ∣ x.n) (hfreq : Checked x.freq) {s : State K S}
    (h : x.system.Runs tr s) : Inv x tr s :=
  h.rule (Inv.init hM) fun _ hI _ hs => hI.step hM hdvd hfreq hs

end SectionQueueTest

end TsxProject
