import TsxProject.Infra.Fifo
import TsxProject.Infra.SentinelRing
import TsxProject.Queues.SimpleSyncQueue

/-!
# `SimpleSyncQueue` is a bounded queue

One thread enqueues the values of a list, another polls `SimpleSyncQueue_Dequeue` for ever. The
threads never compare their pointers; all they know of each other is which slots are free.

An entry is enqueued when it is stored in its slot, before `enqPtr` moves on, and dequeued when the
slot is marked free, before `deqPtr` moves on. With these points the queue refines `Fifo` with
capacity `N - 1`.
-/

namespace TsxProject

open Infra Infra.Ring

namespace SimpleSyncQueue

/-! ## The two threads -/

inductive CallEvent (N : Nat) where
  /-- a call of `SimpleSyncQueue_Enqueue` begins -/
  | called (v : Int)
  | stored (k : Fin N) (v : Int)
  | cleared (k : Fin N)
  /-- a call of `SimpleSyncQueue_Dequeue` returns `v` -/
  | returned (v : Int)
  deriving DecidableEq

inductive EnqueuerPc (N : Nat) where
  | idle
  | call (value : Int) (e : EnqueuePc N)
  deriving DecidableEq

/-- The thread that enqueues, `n` calls having returned. -/
structure Enqueuer (N : Nat) where
  pc : EnqueuerPc N
  n : Nat

inductive DequeuerPc (N : Nat) where
  | idle
  | call (e : DequeuePc N)
  deriving DecidableEq

/-- The thread that polls, `m` calls having returned a value. -/
structure Dequeuer (N : Nat) where
  pc : DequeuerPc N
  m : Nat

variable {N : Nat} [NeZero N]

def enqueuer (vals : List Int) (p : Enqueuer N) :
    Instr (SimpleSyncQueue N) (Enqueuer N) (CallEvent N) :=
  match p.pc with
  | .idle =>
    match vals[p.n]? with
    | none => .halt
    | some v => .skip { p with pc := .call v .next } [.called v]
  | .call v e =>
    enqueue v (fun e => { p with pc := .call v e }) ⟨.idle, p.n + 1⟩ (fun k => [.stored k v]) e

def dequeuer (c : Dequeuer N) : Instr (SimpleSyncQueue N) (Dequeuer N) (CallEvent N) :=
  match c.pc with
  | .idle => .skip { c with pc := .call .index } []
  | .call e =>
    dequeue (fun e => { c with pc := .call e })
      (fun v => (⟨.idle, if v = alreadyConsumed then c.m else c.m + 1⟩, [.returned v]))
      (fun k => [.cleared k]) e

abbrev Calls (N : Nat) : Type := Conf (SimpleSyncQueue N) (Enqueuer N) (Dequeuer N)

/-- Both threads, from `SimpleSyncQueue_Init` on. -/
def calls (N : Nat) [NeZero N] (vals : List Int) : System Side (Calls N) (CallEvent N) :=
  Program.system ⟨enqueuer vals, dequeuer⟩ ⟨init, ⟨.idle, 0⟩, ⟨.idle, 0⟩⟩

/-- The enqueuing thread is in its wait loop and the condition of the loop holds. -/
def Enqueuer.Spinning (q : SimpleSyncQueue N) (p : Enqueuer N) : Prop :=
  match p.pc with
  | .call _ (.await n) => q.content n ≠ alreadyConsumed
  | _ => False

/-! ## The trace -/

/-- The values passed to `SimpleSyncQueue_Enqueue`. -/
def called (tr : List (CallEvent N)) : List Int :=
  tr.filterMap fun
    | .called v => some v
    | _ => none

/-- The values stored in the queue. -/
def stored (tr : List (CallEvent N)) : List Int :=
  tr.filterMap fun
    | .stored _ v => some v
    | _ => none

/-- How many entries were cleared. -/
def entriesCleared (tr : List (CallEvent N)) : Nat :=
  tr.countP fun
    | .cleared _ => true
    | _ => false

/-- The results of `SimpleSyncQueue_Dequeue`, without those that say that there is none. -/
def received (tr : List (CallEvent N)) : List Int :=
  tr.filterMap fun
    | .returned v => if v = alreadyConsumed then none else some v
    | _ => none

/-! ## The invariant -/

/-- The values as a stream of entries. -/
def stream (vals : List Int) (x : Nat) : Int := vals.getD x alreadyConsumed

/-- Entries stored. -/
def Enqueuer.written (p : Enqueuer N) : Nat :=
  match p.pc with
  | .call _ (.publish _) => p.n + 1
  | _ => p.n

/-- Calls begun. -/
def Enqueuer.begun (p : Enqueuer N) : Nat :=
  match p.pc with
  | .idle => p.n
  | .call _ _ => p.n + 1

omit [NeZero N] in
theorem Enqueuer.written_le (p : Enqueuer N) : p.written ≤ p.begun := by
  obtain ⟨pc, n⟩ := p
  cases pc with
  | idle => exact Nat.le_refl n
  | call v e => cases e <;> simp [written, begun]

/-- Entries marked free. -/
def Dequeuer.cleared (c : Dequeuer N) : Nat :=
  match c.pc with
  | .call (.moveIndex _) | .call (.move _ _) => c.m + 1
  | _ => c.m

/-- The value a call is about to return. -/
def Dequeuer.hand (c : Dequeuer N) : Option Int :=
  match c.pc with
  | .call (.moveIndex v) | .call (.move v _) => some v
  | _ => none

def Enqueuer.Ok (vals : List Int) (q : SimpleSyncQueue N) (p : Enqueuer N) (cleared : Nat) :
    Prop :=
  q.enqPtr = slot p.n ∧
  match p.pc with
  | .idle => True
  | .call v e =>
    vals[p.n]? = some v ∧
      match e with
      | .next => True
      | .await n | .publish n => n = slot (p.n + 1)
      | .index n => n = slot (p.n + 1) ∧ p.n + 1 < cleared + N
      | .put n k => n = slot (p.n + 1) ∧ p.n + 1 < cleared + N ∧ k = slot p.n

def Dequeuer.Ok (vals : List Int) (q : SimpleSyncQueue N) (c : Dequeuer N) (written : Nat) :
    Prop :=
  q.deqPtr = slot c.m ∧
  match c.pc with
  | .idle | .call .index => True
  | .call (.read k) => k = slot c.m
  | .call (.clearIndex v) => v = stream vals c.m ∧ v ≠ alreadyConsumed ∧ c.m < written
  | .call (.clear v k) =>
    v = stream vals c.m ∧ v ≠ alreadyConsumed ∧ c.m < written ∧ k = slot c.m
  | .call (.moveIndex v) => v ≠ alreadyConsumed
  | .call (.move v k) => v ≠ alreadyConsumed ∧ k = slot c.m

structure Inv (vals : List Int) (s : Calls N) : Prop where
  fst : s.fst.Ok vals s.mem s.snd.cleared
  snd : s.snd.Ok vals s.mem s.fst.written
  queued : SentinelRing.Queued s.mem.content (stream vals) alreadyConsumed s.snd.cleared
    s.fst.written
  /-- one slot stays free -/
  gap : s.fst.written + 1 ≤ s.snd.cleared + N

/-- The abstract queue of a state. -/
def view (vals : List Int) (s : Calls N) : Fifo Int where
  queue := segment (stream vals) s.snd.cleared s.fst.written
  hand := s.snd.hand

/-- What the abstract queue sees of an event. -/
def obs : CallEvent N → Option (Fifo.Op Int)
  | .stored _ v => some (.enqueued v)
  | .returned v => some (.returned (if v = alreadyConsumed then none else some v))
  | .called _ | .cleared _ => none

/-! ## Steps -/

theorem stream_eq {vals : List Int} {n : Nat} {v : Int} (h : vals[n]? = some v) :
    stream vals n = v := by
  rw [stream, List.getD_eq_getElem?_getD, h]
  rfl

/-- The slot the enqueuing thread waits for. -/
theorem Enqueuer.Ok.spinning {vals : List Int} {q : SimpleSyncQueue N} {p : Enqueuer N}
    {cleared : Nat} (h : p.Ok vals q cleared) (hsp : p.Spinning q) :
    p.written < vals.length ∧ q.content (slot (p.written + 1)) ≠ alreadyConsumed := by
  obtain ⟨pc, n⟩ := p
  obtain ⟨-, hpc⟩ := h
  cases pc with
  | idle => exact hsp.elim
  | call v e =>
    obtain ⟨hval, he⟩ := hpc
    cases e with
    | await k =>
      simp only at he
      subst he
      exact ⟨(List.getElem?_eq_some_iff.mp hval).1, hsp⟩
    | _ => exact hsp.elim

/-- The other thread's progress does no harm. -/
theorem Enqueuer.Ok.mono {vals : List Int} {q q' : SimpleSyncQueue N} {p : Enqueuer N}
    {cleared cleared' : Nat} (h : p.Ok vals q cleared) (he : q'.enqPtr = q.enqPtr)
    (hle : cleared ≤ cleared') : p.Ok vals q' cleared' := by
  obtain ⟨pc, n⟩ := p
  obtain ⟨henq, hpc⟩ := h
  refine ⟨he.trans henq, ?_⟩
  cases pc with
  | idle => trivial
  | call v e =>
    obtain ⟨hval, hpc⟩ := hpc
    refine ⟨hval, ?_⟩
    cases e with
    | next | await k | publish k => exact hpc
    | index k => exact ⟨hpc.1, Nat.lt_of_lt_of_le hpc.2 (Nat.add_le_add_right hle N)⟩
    | put k k' => exact ⟨hpc.1, Nat.lt_of_lt_of_le hpc.2.1 (Nat.add_le_add_right hle N), hpc.2.2⟩

theorem Dequeuer.Ok.mono {vals : List Int} {q q' : SimpleSyncQueue N} {c : Dequeuer N}
    {written written' : Nat} (h : c.Ok vals q written) (hd : q'.deqPtr = q.deqPtr)
    (hle : written ≤ written') : c.Ok vals q' written' := by
  obtain ⟨pc, m⟩ := c
  obtain ⟨hdeq, hpc⟩ := h
  refine ⟨hd.trans hdeq, ?_⟩
  cases pc with
  | idle => trivial
  | call e =>
    cases e with
    | index | read k | moveIndex v | move v k => exact hpc
    | clearIndex v => exact ⟨hpc.1, hpc.2.1, Nat.lt_of_lt_of_le hpc.2.2 hle⟩
    | clear v k => exact ⟨hpc.1, hpc.2.1, Nat.lt_of_lt_of_le hpc.2.2.1 hle, hpc.2.2.2⟩

section Steps

variable {vals : List Int} {q q' : SimpleSyncQueue N} {p p' : Enqueuer N} {c c' : Dequeuer N}
  {evs : List (CallEvent N)}

theorem Inv.enqueuer_step (hN : 2 ≤ N) (hv : ∀ v ∈ vals, v ≠ alreadyConsumed)
    (h : Inv vals ⟨q, p, c⟩) (hs : (enqueuer vals p).exec q = some (q', p', evs)) :
    Inv vals ⟨q', p', c⟩ ∧ (Fifo.spec Int (N - 1)).StepOrStutter (view vals ⟨q, p, c⟩)
      (evs.filterMap obs) (view vals ⟨q', p', c⟩) := by
  obtain ⟨⟨henq, hpc⟩, hc, hq, hgap⟩ := h
  obtain ⟨pc, n⟩ := p
  simp only at henq hpc hc hq hgap
  cases pc with
  | idle =>
    simp only [enqueuer] at hs
    split at hs
    · cases hs
    · next v hval =>
      cases hs
      exact ⟨⟨⟨henq, hval, trivial⟩, hc, hq, hgap⟩, .inr ⟨rfl, rfl⟩⟩
  | call v e =>
    obtain ⟨hval, he⟩ := hpc
    cases e with
    | next =>
      cases hs
      refine ⟨⟨⟨henq, hval, ?_⟩, hc, hq, hgap⟩, .inr ⟨rfl, rfl⟩⟩
      simp only [atEnqPtr]
      rw [henq]
      exact next_slot n
    | await k =>
      subst he
      simp only [enqueuer, enqueue, Instr.exec] at hs
      split at hs <;> cases hs
      · exact ⟨⟨⟨henq, hval, rfl⟩, hc, hq, hgap⟩, .inr ⟨rfl, rfl⟩⟩
      · next hfree =>
        -- the next slot is free, so the ring is not full, and one slot stays free after the store
        have hroom := hq.room_of_empty hN (not_not.mp hfree)
        exact ⟨⟨⟨henq, hval, rfl, hroom⟩, hc, hq, hgap⟩, .inr ⟨rfl, rfl⟩⟩
    | index k =>
      cases hs
      exact ⟨⟨⟨henq, hval, he.1, he.2, henq⟩, hc, hq, hgap⟩, .inr ⟨rfl, rfl⟩⟩
    | put k k' =>
      cases hs
      obtain ⟨hk, hroom, rfl⟩ := he
      have hval' := stream_eq hval
      have hq : SentinelRing.Queued q.content (stream vals) alreadyConsumed c.cleared n := hq
      have hwrite := hq.write (Nat.lt_of_succ_lt hroom) (hval' ▸ hv v (List.mem_of_getElem? hval))
      rw [hval'] at hwrite
      refine ⟨⟨⟨henq, hval, hk⟩, hc.mono rfl (Nat.le_succ n), hwrite, hroom⟩, .inl ?_⟩
      have hroom' : n - c.cleared < N - 1 := by
        have hle := hq.le
        omega
      have hpush := Fifo.Step.push_segment (stream vals) c.hand hq.le hroom'
      rw [hval'] at hpush
      exact hpush
    | publish k =>
      cases hs
      exact ⟨⟨⟨he, trivial⟩, hc, hq, hgap⟩, .inr ⟨rfl, rfl⟩⟩

theorem Inv.dequeuer_step (h : Inv vals ⟨q, p, c⟩)
    (hs : (dequeuer c).exec q = some (q', c', evs)) :
    Inv vals ⟨q', p, c'⟩ ∧ (Fifo.spec Int (N - 1)).StepOrStutter (view vals ⟨q, p, c⟩)
      (evs.filterMap obs) (view vals ⟨q', p, c'⟩) := by
  obtain ⟨hp, ⟨hdeq, hpc⟩, hq, hgap⟩ := h
  obtain ⟨pc, m⟩ := c
  simp only at hdeq hpc hp hq hgap
  cases pc with
  | idle =>
    cases hs
    exact ⟨⟨hp, ⟨hdeq, trivial⟩, hq, hgap⟩, .inr ⟨rfl, rfl⟩⟩
  | call e =>
    cases e with
    | index =>
      cases hs
      exact ⟨⟨hp, ⟨hdeq, hdeq⟩, hq, hgap⟩, .inr ⟨rfl, rfl⟩⟩
    | read k =>
      simp only at hpc
      subst hpc
      have hq : SentinelRing.Queued q.content (stream vals) alreadyConsumed m p.written := hq
      simp only [dequeuer, dequeue, Instr.exec] at hs
      split at hs
      · next hne =>
        -- a slot that is not free holds the next entry, published or not
        cases hs
        obtain ⟨hlt, hval⟩ := hq.read hne
        exact ⟨⟨hp, ⟨hdeq, hval, hne, hlt⟩, hq, hgap⟩, .inr ⟨rfl, rfl⟩⟩
      · next heq =>
        -- nothing is stored that is not cleared
        have heq : q.content (slot m) = alreadyConsumed := not_not.mp heq
        have hempty := hq.empty_iff.mp heq
        simp only [atContent, heq, if_true] at hs
        cases hs
        refine ⟨⟨hp, ⟨hdeq, trivial⟩, hq, hgap⟩, .inl ?_⟩
        have hview : view vals ⟨q, p, ⟨.call (.read (slot m)), m⟩⟩ = ⟨[], none⟩ := by
          simp only [view, Dequeuer.cleared, Dequeuer.hand, ← hempty, segment_self]
        have hview' : view vals ⟨q, p, ⟨.idle, m⟩⟩ = ⟨[], none⟩ := by
          simp only [view, Dequeuer.cleared, Dequeuer.hand, ← hempty, segment_self]
        rw [hview]
        exact hview' ▸ Fifo.Step.poll
    | clearIndex v =>
      cases hs
      exact ⟨⟨hp, ⟨hdeq, hpc.1, hpc.2.1, hpc.2.2, hdeq⟩, hq, hgap⟩, .inr ⟨rfl, rfl⟩⟩
    | clear v k =>
      cases hs
      obtain ⟨hval, hne, hlt, rfl⟩ := hpc
      have hq : SentinelRing.Queued q.content (stream vals) alreadyConsumed m p.written := hq
      have hgap : p.written + 1 ≤ m + N := hgap
      refine ⟨⟨hp.mono rfl (Nat.le_succ m), ⟨hdeq, hne⟩, hq.clear hlt, ?_⟩, .inl ?_⟩
      · show p.written + 1 ≤ m + 1 + N
        omega
      · have hpop := Fifo.Step.pop_segment (stream vals) (N - 1) hlt
        rw [← hval] at hpop
        exact hpop
    | moveIndex v =>
      cases hs
      exact ⟨⟨hp, ⟨hdeq, hpc, hdeq⟩, hq, hgap⟩, .inr ⟨rfl, rfl⟩⟩
    | move v k =>
      obtain ⟨hne, rfl⟩ := hpc
      simp only [dequeuer, dequeue, Instr.exec, hne, if_false] at hs
      cases hs
      refine ⟨⟨hp, ⟨next_slot m, trivial⟩, hq, hgap⟩, .inl ?_⟩
      have hgive : Fifo.Step (N - 1) ⟨segment (stream vals) (m + 1) p.written, some v⟩
          [.returned (some v)] ⟨segment (stream vals) (m + 1) p.written, none⟩ :=
        Fifo.Step.giveBack v
      simp only [List.filterMap_cons, List.filterMap_nil, obs, hne, if_false]
      exact hgive

end Steps

theorem Inv.init (vals : List Int) : Inv vals (calls N vals).init where
  fst := ⟨rfl, trivial⟩
  snd := ⟨rfl, trivial⟩
  queued := SentinelRing.Queued.init _ _
  gap := by
    have := Nat.pos_of_neZero N
    show 0 + 1 ≤ 0 + N
    omega

theorem Inv.step (hN : 2 ≤ N) {vals : List Int} (hv : ∀ v ∈ vals, v ≠ alreadyConsumed)
    {i : Side} {s s' : Calls N} {evs : List (CallEvent N)} (h : Inv vals s)
    (hs : (calls N vals).step i s = some (s', evs)) :
    Inv vals s' ∧ (Fifo.spec Int (N - 1)).StepOrStutter (view vals s) (evs.filterMap obs)
      (view vals s') := by
  obtain ⟨q, p, c⟩ := s
  obtain ⟨q', p', rfl, rfl, hx⟩ | ⟨q', c', rfl, rfl, hx⟩ := Program.step_cases hs
  · exact h.enqueuer_step hN hv hx
  · exact h.dequeuer_step hx

/-- **The queue refines a bounded queue of capacity `N - 1`.** -/
theorem refines_fifo (hN : 2 ≤ N) {vals : List Int} (hv : ∀ v ∈ vals, v ≠ alreadyConsumed)
    {tr : List (CallEvent N)} {s : Calls N} (h : (calls N vals).Runs tr s) :
    Inv vals s ∧ (Fifo.spec Int (N - 1)).Runs (tr.filterMap obs) (view vals s) := by
  refine h.refines_obs (Inv.init vals) ?_ fun hI _ hs => hI.step hN hv hs
  show view vals (calls N vals).init = ⟨[], none⟩
  simp [view, calls, Program.system, Enqueuer.written, Dequeuer.cleared, Dequeuer.hand]

/-! ## What the trace records -/

omit [NeZero N] in
theorem enqueued_obs (tr : List (CallEvent N)) : Fifo.enqueued (tr.filterMap obs) = stored tr := by
  rw [Fifo.enqueued, List.filterMap_filterMap, stored]
  congr 1
  funext e
  cases e <;> simp [obs]

omit [NeZero N] in
theorem returned_obs (tr : List (CallEvent N)) :
    Fifo.returned (tr.filterMap obs) = received tr := by
  rw [Fifo.returned, List.filterMap_filterMap, received]
  congr 1
  funext e
  cases e <;> simp [obs]

/-- The counters and the trace say the same. -/
structure Recorded (vals : List Int) (tr : List (CallEvent N)) (s : Calls N) : Prop where
  called : called tr = vals.take s.fst.begun
  stored : stored tr = vals.take s.fst.written
  cleared : entriesCleared tr = s.snd.cleared

omit [NeZero N] in
/-- Steps without an event of these three kinds. -/
theorem Recorded.quiet {vals : List Int} {tr evs : List (CallEvent N)} {s s' : Calls N}
    (h : Recorded vals tr s) (hc : SimpleSyncQueue.called evs = [])
    (hst : SimpleSyncQueue.stored evs = []) (hcl : entriesCleared evs = 0)
    (hb : s'.fst.begun = s.fst.begun) (hw : s'.fst.written = s.fst.written)
    (hm : s'.snd.cleared = s.snd.cleared) : Recorded vals (tr ++ evs) s' where
  called := by
    rw [hb, ← h.called]
    simpa [SimpleSyncQueue.called] using hc
  stored := by
    rw [hw, ← h.stored]
    simpa [SimpleSyncQueue.stored] using hst
  cleared := by
    rw [hm, ← h.cleared]
    simpa [entriesCleared] using hcl

theorem Recorded.enqueuer_step {vals : List Int} {tr evs : List (CallEvent N)}
    {q q' : SimpleSyncQueue N} {p p' : Enqueuer N} {c : Dequeuer N} {cleared : Nat}
    (hok : p.Ok vals q cleared) (h : Recorded vals tr ⟨q, p, c⟩)
    (hs : (enqueuer vals p).exec q = some (q', p', evs)) :
    Recorded vals (tr ++ evs) ⟨q', p', c⟩ := by
  obtain ⟨pc, n⟩ := p
  obtain ⟨-, hpc⟩ := hok
  cases pc with
  | idle =>
    simp only [enqueuer] at hs
    split at hs
    · cases hs
    · next v hval =>
      cases hs
      refine ⟨?_, ?_, ?_⟩
      · have hc := h.called
        simp only [Enqueuer.begun, SimpleSyncQueue.called] at hc ⊢
        simp [hc, List.take_add_one, hval]
      · simpa [SimpleSyncQueue.stored, Enqueuer.written] using h.stored
      · simpa [entriesCleared] using h.cleared
  | call v e =>
    obtain ⟨hval, -⟩ := hpc
    simp only at hval
    cases e with
    | next | index k | publish k =>
      cases hs
      exact h.quiet rfl rfl rfl rfl rfl rfl
    | await k =>
      simp only [enqueuer, enqueue, Instr.exec] at hs
      split at hs <;> cases hs <;> exact h.quiet rfl rfl rfl rfl rfl rfl
    | put k k' =>
      cases hs
      refine ⟨?_, ?_, ?_⟩
      · simpa [SimpleSyncQueue.called, Enqueuer.begun] using h.called
      · have hst := h.stored
        simp only [Enqueuer.written, SimpleSyncQueue.stored] at hst ⊢
        simp [hst, List.take_add_one, hval]
      · simpa [entriesCleared] using h.cleared

theorem Recorded.dequeuer_step {vals : List Int} {tr evs : List (CallEvent N)}
    {q q' : SimpleSyncQueue N} {p : Enqueuer N} {c c' : Dequeuer N} {written : Nat}
    (hok : c.Ok vals q written) (h : Recorded vals tr ⟨q, p, c⟩)
    (hs : (dequeuer c).exec q = some (q', c', evs)) :
    Recorded vals (tr ++ evs) ⟨q', p, c'⟩ := by
  obtain ⟨pc, m⟩ := c
  obtain ⟨-, hpc⟩ := hok
  cases pc with
  | idle =>
    cases hs
    exact h.quiet rfl rfl rfl rfl rfl rfl
  | call e =>
    cases e with
    | index | clearIndex v | moveIndex v =>
      cases hs
      exact h.quiet rfl rfl rfl rfl rfl rfl
    | read k =>
      simp only [dequeuer, dequeue, Instr.exec] at hs
      split at hs
      · cases hs
        exact h.quiet rfl rfl rfl rfl rfl rfl
      · next heq =>
        simp only [not_not.mp heq, if_true] at hs
        cases hs
        exact h.quiet rfl rfl rfl rfl rfl rfl
    | clear v k =>
      cases hs
      refine ⟨?_, ?_, ?_⟩
      · simpa [SimpleSyncQueue.called] using h.called
      · simpa [SimpleSyncQueue.stored] using h.stored
      · have hcl := h.cleared
        simp only [entriesCleared, Dequeuer.cleared, List.countP_append] at hcl ⊢
        simp [hcl]
    | move v k =>
      simp only [dequeuer, dequeue, Instr.exec, hpc.1, if_false] at hs
      cases hs
      exact h.quiet rfl rfl rfl rfl rfl rfl

theorem recorded (hN : 2 ≤ N) {vals : List Int} (hv : ∀ v ∈ vals, v ≠ alreadyConsumed)
    {tr : List (CallEvent N)} {s : Calls N} (h : (calls N vals).Runs tr s) :
    Recorded vals tr s := by
  induction h with
  | init => exact ⟨rfl, rfl, rfl⟩
  | step hr _ hs ih =>
    have hinv := (refines_fifo hN hv hr).1
    obtain ⟨q', p', rfl, rfl, hx⟩ | ⟨q', c', rfl, rfl, hx⟩ := Program.step_cases hs
    · exact Recorded.enqueuer_step hinv.fst ih hx
    · exact Recorded.dequeuer_step hinv.snd ih hx

/--
**`SimpleSyncQueue` is a bounded queue.** For every list of values other than `ALREADY_CONSUMED`
and every interleaving:

* the values received are those enqueued, in order, as far as they have come;
* a call of `SimpleSyncQueue_Dequeue` that finds nothing while no call of
  `SimpleSyncQueue_Enqueue` is open comes after everything enqueued has been received;
* `SimpleSyncQueue_Enqueue` waits only while exactly `N - 1` entries are stored and not cleared.
-/
theorem simpleSyncQueue_fifo (hN : 2 ≤ N) {vals : List Int}
    (hv : ∀ v ∈ vals, v ≠ alreadyConsumed) {tr : List (CallEvent N)} {s : Calls N}
    (h : (calls N vals).Runs tr s) :
    received tr <+: stored tr ∧ stored tr <+: called tr ∧ called tr <+: vals ∧
    (∀ i s' evs, (calls N vals).step i s = some (s', evs) → .returned alreadyConsumed ∈ evs →
      s.fst.pc = .idle → received tr = called tr) ∧
    (s.fst.Spinning s.mem → (stored tr).length = entriesCleared tr + (N - 1)) := by
  obtain ⟨hinv, hfifo⟩ := refines_fifo hN hv h
  have hrec := recorded hN hv h
  have hpre := Fifo.returned_prefix hfifo
  rw [enqueued_obs, returned_obs] at hpre
  refine ⟨hpre, ?_, ?_, ?_, ?_⟩
  · rw [hrec.stored, hrec.called]
    exact List.take_prefix_take_left (Enqueuer.written_le s.fst)
  · rw [hrec.called]
    exact List.take_prefix _ _
  · intro i s' evs hs he hidle
    have hempty : .returned none ∈ evs.filterMap obs :=
      List.mem_filterMap.mpr ⟨_, he, by simp [obs]⟩
    have hall := Fifo.returned_eq_enqueued hfifo (hinv.step hN hv hs).2 hempty
    rw [enqueued_obs, returned_obs, hrec.stored] at hall
    rw [hall, hrec.called]
    simp only [Enqueuer.written, Enqueuer.begun, hidle]
  · intro hsp
    obtain ⟨hn, hfull⟩ := hinv.fst.spinning hsp
    have hle := hinv.queued.full_of_ne hfull
    have hgap := hinv.gap
    rw [hrec.stored, hrec.cleared, List.length_take]
    omega

theorem simpleSyncQueue_fifo_small :
    ∃ tr s, (calls 2 [5, 7]).Runs tr s ∧ received tr = [5, 7] ∧ stored tr = [5, 7] := by
  obtain ⟨tr, s, hr, hrec⟩ := System.exists_runs (calls 2 [5, 7])
    (turns (List.replicate 6 (2, 2) ++ [(0, 5)])) (fun tr _ => received tr = [5, 7])
    (by decide +kernel)
  obtain ⟨hpre, hstored, hcalled, -⟩ := simpleSyncQueue_fifo (by decide) (by decide) hr
  rw [hrec] at hpre
  refine ⟨tr, s, hr, hrec, ?_⟩
  exact (hpre.eq_of_length_le (hstored.trans hcalled).length_le).symm

end SimpleSyncQueue

end TsxProject
