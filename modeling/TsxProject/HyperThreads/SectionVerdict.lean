import TsxProject.HyperThreads.SectionQueueTest
import TsxProject.HyperThreads.Verdict

/-!
# The verdict of the test of `SectionQueue`

Only full sections reach the consumer. Under a fair schedule the first difference in a full section
is reported; without one, the test finishes if the calls fill their sections, and otherwise the
consumer waits for ever for the rest of the last one, whatever is in it.

* `polling` — who does not wait makes progress
* `fair_settled` — the main result
-/

namespace TsxProject

open Infra Infra.Ring

namespace SectionQueueTest

open SimpleQueueTest (Checked total calls sumTo Matched difference difference_eq_none_iff reported)
open SectionQueue (CallEvent)

variable {K S : Nat} [NeZero K] [NeZero S] {n M : Nat} {freq : CheckFrequency}
  {p c : Nat → Long} {x : Setup K S} {q q' : SectionQueue K S} {tr evs : List (CallEvent K S)}

/-! ## What is left to do -/

def Producer.rank (n M : Nat) (q : SectionQueue K S) (s : Producer K S) : Nat :=
  s.loops.rank n M fun _ => s.call.pc.left .fst q

def Consumer.rank (n M : Nat) (q : SectionQueue K S) (s : Consumer K S) : Nat :=
  s.loops.rank n M fun _ => s.call.pc.left .snd q

/-- The thread has ended, or is in its wait loop with the condition of the loop true. -/
def Producer.Waiting (q : SectionQueue K S) (s : Producer K S) : Prop :=
  s.loops.pc = .done ∨ s.call.Spinning .fst q

def Consumer.Waiting (q : SectionQueue K S) (s : Consumer K S) : Prop :=
  s.loops.pc = .done ∨ s.call.Spinning .snd q

omit [NeZero K] [NeZero S] in
theorem Producer.Ok.calling {s : Producer K S} (h : s.Ok n M freq p)
    (hsp : s.call.Spinning .fst q) : ∃ v e, s.loops.pc = .enqueue v e := by
  by_contra hno
  simp only [not_exists] at hno
  have hidle := h.idle hno
  unfold SectionQueue.Caller.Spinning at hsp
  rw [hidle] at hsp
  exact hsp

omit [NeZero K] [NeZero S] in
theorem Consumer.Ok.calling {s : Consumer K S} (h : s.Ok n M freq p c)
    (hsp : s.call.Spinning .snd q) : ∃ e, s.loops.pc = .dequeue e := by
  by_contra hno
  simp only [not_exists] at hno
  have hidle := h.idle hno
  unfold SectionQueue.Caller.Spinning at hsp
  rw [hidle] at hsp
  exact hsp

omit [NeZero K] [NeZero S] in
/-- Outside the calls, the rank does not depend on them. -/
theorem rank_afterEnqueue (l : SimpleQueueTest.Producer 1) (freq : CheckFrequency)
    (call call' : SimpleQueue.EnqueuePc 1 → Nat) :
    (l.afterEnqueue freq).rank n M call = (l.afterEnqueue freq).rank n M call' := by
  unfold SimpleQueueTest.Producer.afterEnqueue
  dsimp only
  split <;> rfl

/-- A step inside `SectionQueue_Enqueue` that does not wait. -/
theorem Producer.Ok.call_lt {s s' : Producer K S} {v : Long} {e : SimpleQueue.EnqueuePc 1}
    {lim : Nat} (hpc : s.loops.pc = .enqueue v e) (hok : s.call.Ok .fst q lim)
    (hsp : ¬ s.call.Spinning .fst q)
    (hs : (producer n M freq p s).exec q = some (q', s', evs)) :
    s'.rank n M q' < s.rank n M q := by
  obtain ⟨hx, hl⟩ := producer_call hpc hs
  have hleft := hok.enqueue_lt hsp hx
  unfold Producer.rank
  by_cases hidle : s'.call.pc = .idle
  · rw [if_pos hidle] at hl
    rw [hl, rank_afterEnqueue s.loops freq _ fun _ => s.call.pc.left .fst q]
    exact SimpleQueueTest.Producer.rank_return _ (s.call.pc.left_pos .fst q) hpc
  · rw [if_neg hidle] at hl
    rw [hl, SimpleQueueTest.Producer.rank, SimpleQueueTest.Producer.rank, hpc]
    exact Nat.add_lt_add_left (hleft.resolve_left hidle) _

/-- A step inside `SectionQueue_Dequeue` that does not wait. -/
theorem Consumer.Ok.call_lt {s s' : Consumer K S} {e : SimpleQueue.DequeuePc 1}
    {lim : Nat} (hpc : s.loops.pc = .dequeue e) (hok : s.call.Ok .snd q lim)
    (hsp : ¬ s.call.Spinning .snd q)
    (hs : (consumer n M freq c s).exec q = some (q', s', evs)) :
    s'.rank n M q' < s.rank n M q := by
  obtain ⟨hx, hl⟩ := consumer_call hpc hs
  have hleft := hok.dequeuer_lt hsp hx
  unfold Consumer.rank
  by_cases hidle : s'.call.pc = .idle
  · rw [if_pos hidle] at hl
    rw [hl]
    exact SimpleQueueTest.Consumer.rank_return (fun _ => s.call.pc.left .snd q)
      (s.call.pc.left_pos .snd q) hpc _ _
  · rw [if_neg hidle] at hl
    rw [hl, SimpleQueueTest.Consumer.rank, SimpleQueueTest.Consumer.rank, hpc]
    exact Nat.add_lt_add_left (hleft.resolve_left hidle) _

omit [NeZero K] [NeZero S] in
theorem Consumer.rank_le {s : Consumer K S} (h : SectionQueue.Keeps .snd q q') :
    s.rank n M q' ≤ s.rank n M q := by
  unfold Consumer.rank SimpleQueueTest.Consumer.rank
  cases s.loops.pc with
  | dequeue e => exact Nat.add_le_add_left (h.left_le _) _
  | loop | inner | compare v | finish | done | error => exact Nat.le_refl _

omit [NeZero K] [NeZero S] in
theorem Producer.rank_le {s : Producer K S} (h : SectionQueue.Keeps .fst q q') :
    s.rank n M q' ≤ s.rank n M q := by
  unfold Producer.rank SimpleQueueTest.Producer.rank
  cases s.loops.pc with
  | enqueue v e => exact Nat.add_le_add_left (h.left_le _) _
  | loop | inner | finish | done => exact Nat.le_refl _

/-- A step inside a call that waits changes neither the queue nor the rank. -/
theorem Producer.spins {s s' : Producer K S} {v : Long} {e : SimpleQueue.EnqueuePc 1} {lim : Nat}
    (hpc : s.loops.pc = .enqueue v e) (hok : s.call.Ok .fst q lim)
    (hsp : s.call.Spinning .fst q) (hs : (producer n M freq p s).exec q = some (q', s', evs)) :
    q' = q ∧ s'.rank n M q = s.rank n M q ∧ s'.call.Spinning .fst q := by
  obtain ⟨hx, hl⟩ := producer_call hpc hs
  obtain ⟨rfl, hsp', hidle, hleft⟩ := hok.spins hsp hx
  rw [if_neg hidle] at hl
  refine ⟨rfl, ?_, hsp'⟩
  unfold Producer.rank
  rw [hl, hleft]

theorem Consumer.spins {s s' : Consumer K S} {e : SimpleQueue.DequeuePc 1} {lim : Nat}
    (hpc : s.loops.pc = .dequeue e) (hok : s.call.Ok .snd q lim)
    (hsp : s.call.Spinning .snd q) (hs : (consumer n M freq c s).exec q = some (q', s', evs)) :
    q' = q ∧ s'.rank n M q = s.rank n M q ∧ s'.call.Spinning .snd q := by
  obtain ⟨hx, hl⟩ := consumer_call hpc hs
  obtain ⟨rfl, hsp', hidle, hleft⟩ := hok.spins hsp hx
  rw [if_neg hidle] at hl
  refine ⟨rfl, ?_, hsp'⟩
  unfold Consumer.rank
  rw [hl, hleft]

theorem producer_isExit (s : Producer K S) : (producer n M freq p s).isExit = false := by
  cases hpc : s.loops.pc with
  | loop | inner =>
    simp only [producer, hpc]
    split <;> rfl
  | enqueue v e =>
    simp only [producer, hpc]
    rw [Instr.isExit_map]
    unfold SectionQueue.enqueue SectionQueue.Caller.call
    cases s.call.pc <;> rfl
  | finish | done =>
    simp only [producer, hpc]
    rfl

theorem consumer_isExit {s : Consumer K S} (h : (consumer n M freq c s).isExit = true) :
    s.loops.pc = .error := by
  cases hpc : s.loops.pc with
  | loop | inner | compare v =>
    simp only [consumer, hpc] at h
    split at h <;> cases h
  | dequeue e =>
    simp only [consumer, hpc] at h
    rw [Instr.isExit_map, dequeuer_isExit] at h
    cases h
  | finish | done =>
    simp only [consumer, hpc] at h
    cases h
  | error => rfl

theorem Producer.exec_ne_none {s : Producer K S} (q : SectionQueue K S)
    (hpc : s.loops.pc ≠ .done) : (producer n M freq p s).exec q ≠ none := by
  intro hnone
  cases hl : s.loops.pc with
  | loop | inner =>
    simp only [producer, hl] at hnone
    split at hnone <;> cases hnone
  | enqueue v e =>
    simp only [producer, hl] at hnone
    rw [Instr.exec_map, Option.map_eq_none_iff] at hnone
    unfold SectionQueue.enqueue SectionQueue.Caller.call at hnone
    cases hcall : s.call.pc <;> rw [hcall] at hnone <;> cases hnone
  | finish =>
    simp only [producer, hl] at hnone
    cases hnone
  | done => exact hpc hl

theorem Consumer.exec_ne_none {s : Consumer K S} (q : SectionQueue K S)
    (hpc : s.loops.pc ≠ .done) (herr : s.loops.pc ≠ .error) :
    (consumer n M freq c s).exec q ≠ none := by
  intro hnone
  cases hl : s.loops.pc with
  | loop | inner | compare v =>
    simp only [consumer, hl] at hnone
    split at hnone <;> cases hnone
  | dequeue e =>
    simp only [consumer, hl] at hnone
    rw [Instr.exec_map, Option.map_eq_none_iff] at hnone
    unfold SectionQueue.dequeuer SectionQueue.Caller.call at hnone
    cases hcall : s.call.pc <;> rw [hcall] at hnone <;> cases hnone
  | finish =>
    simp only [consumer, hl] at hnone
    cases hnone
  | done => exact hpc hl
  | error => exact herr hl

/-- Who does not wait makes progress. -/
theorem polling (hM : 0 < x.M) (hdvd : x.M ∣ x.n) (hfreq : Checked x.freq) :
    x.program.Polling x.system.init (fun q s => s.rank x.n x.M q) (fun q s => s.rank x.n x.M q)
      Producer.Waiting Consumer.Waiting where
  fst_moves := by
    rintro q s c - hw -
    exact Producer.exec_ne_none q fun hdone => hw (.inl hdone)
  fst_work := by
    rintro q s c q' s' evs ⟨tr, hr⟩ hw hs
    have hinv := inv hM hdvd hfreq hr
    by_cases hpc : ∃ v e, s.loops.pc = .enqueue v e
    · obtain ⟨v, e, hpc⟩ := hpc
      obtain ⟨hx, -⟩ := hinv.fst.call hM hfreq hpc hinv.queue hs
      exact ⟨Producer.Ok.call_lt hpc hinv.queue.fst (fun hsp => hw (.inr hsp)) hs,
        Consumer.rank_le (hinv.queue.enqueuer_keeps hx)⟩
    · simp only [not_exists] at hpc
      obtain ⟨rfl, -, hcall, hx⟩ := producer_skip hpc hs
      refine ⟨?_, Nat.le_refl _⟩
      unfold Producer.rank
      rw [hcall]
      have hidle : (fun _ : SimpleQueue.EnqueuePc 1 => s.call.pc.left .fst q') .next ≤ 13 := by
        rw [hinv.fst.idle hpc]
        exact Nat.le_refl 13
      exact SimpleQueueTest.Producer.rank_skip hidle hpc hx
  fst_wait := by
    rintro q s c q' s' evs ⟨tr, hr⟩ hw hs
    have hinv := inv hM hdvd hfreq hr
    rcases hw with hdone | hsp
    · simp only [Setup.program, producer, hdone] at hs
      cases hs
    · obtain ⟨v, e, hpc⟩ := hinv.fst.calling hsp
      obtain ⟨hq, hrank, hsp'⟩ := Producer.spins hpc hinv.queue.fst hsp hs
      exact ⟨hq, hrank, .inr hsp'⟩
  snd_moves := by
    rintro q p s - hw hexit
    refine Consumer.exec_ne_none q (fun hdone => hw (.inl hdone)) fun herr => ?_
    simp only [Setup.program, consumer, herr] at hexit
    cases hexit
  snd_work := by
    rintro q p s q' s' evs ⟨tr, hr⟩ hw hs
    have hinv := inv hM hdvd hfreq hr
    by_cases hpc : ∃ e, s.loops.pc = .dequeue e
    · obtain ⟨e, hpc⟩ := hpc
      obtain ⟨hx, -⟩ := hinv.snd.call hpc hinv.queue hs
      exact ⟨Consumer.Ok.call_lt hpc hinv.queue.snd (fun hsp => hw (.inr hsp)) hs,
        Producer.rank_le (hinv.queue.dequeuer_keeps hx)⟩
    · simp only [not_exists] at hpc
      obtain ⟨rfl, -, hcall, hx⟩ := consumer_skip hpc hs
      refine ⟨?_, Nat.le_refl _⟩
      unfold Consumer.rank
      rw [hcall]
      have hidle : (fun _ : SimpleQueue.DequeuePc 1 => s.call.pc.left .snd q') .awaitDeq ≤ 13 := by
        rw [hinv.snd.idle hpc]
        exact Nat.le_refl 13
      exact SimpleQueueTest.Consumer.rank_skip hidle hpc hx
  snd_wait := by
    rintro q p s q' s' evs ⟨tr, hr⟩ hw hs
    have hinv := inv hM hdvd hfreq hr
    rcases hw with hdone | hsp
    · simp only [Setup.program, consumer, hdone] at hs
      cases hs
    · obtain ⟨e, hpc⟩ := hinv.snd.calling hsp
      obtain ⟨hq, hrank, hsp'⟩ := Consumer.spins hpc hinv.queue.snd hsp hs
      exact ⟨hq, hrank, .inr hsp'⟩

/-! ## The verdict -/

/-- Who has taken the error exit reports the first difference. -/
theorem reports (hM : 0 < x.M) (hdvd : x.M ∣ x.n) (hfreq : Checked x.freq) {s : State K S}
    (h : x.system.Runs tr s) (herr : s.snd.loops.pc = .error) :
    ∃ m, s.snd.loops.Reports x.n x.M x.freq x.p x.c m := by
  induction h with
  | init => cases herr
  | @step i tr evs s s' hr _ hs ih =>
    obtain ⟨q, p, c⟩ := s
    obtain ⟨q', p', rfl, rfl, hx⟩ | ⟨q', c', rfl, rfl, hx⟩ := Program.step_cases hs
    · exact ih herr
    · by_cases hpc : ∃ e, c.loops.pc = .dequeue e
      · obtain ⟨e, hpc⟩ := hpc
        obtain ⟨-, hl⟩ := consumer_call hpc hx
        dsimp only at herr
        rw [hl] at herr
        split at herr
        · cases herr
        · rw [hpc] at herr
          cases herr
      · simp only [not_exists] at hpc
        obtain ⟨-, -, -, hl⟩ := consumer_skip hpc hx
        obtain ⟨v, hpc, hne, heq⟩ := SimpleQueueTest.Consumer.compare_of_error hl herr
        dsimp only
        rw [heq]
        exact (inv hM hdvd hfreq hr).snd.loops.reports hpc hne

/-- The calls whose values fill sections. -/
def Setup.full (x : Setup K S) : Nat := S * (total x.n x.M x.freq / S)

/-- What is to be seen in the end: the message, the results, or a consumer that waits. -/
def Setup.Settled (x : Setup K S) (s : State K S) : Prop :=
  match difference x.M x.freq x.p x.c x.full with
  | some m => s.snd.loops.pc = .error ∧ s.snd.loops.i = reported x.M x.freq m
  | none =>
    s.fst.loops.pc = .done ∧ s.fst.loops.producerResult = sumTo x.p x.n ∧
      if S ∣ total x.n x.M x.freq then
        s.snd.loops.pc = .done ∧ s.snd.loops.consumerResult = sumTo x.c x.n
      else s.snd.call.Spinning .snd s.mem ∧ s.snd.loops.taken = x.full

section Ends

variable {s : State K S}

/-- All that the consumer takes is in full sections. -/
theorem Inv.taken_le (h : Inv x tr s) : s.snd.loops.taken ≤ x.full := by
  have hbound := (SectionQueue.recorded h.run).bound
  have hle : s.snd.call.n ≤ S * (x.vals.length / S) := h.queue.taken_le_full hbound
  rw [← h.snd.taken, Setup.full, ← length_values (p := x.p)]
  exact hle

omit [NeZero K] [NeZero S] in
/-- A call that waits is one of those to be made. -/
theorem Producer.Ok.sent_lt {s : Producer K S} (h : s.Ok n M freq p)
    (hsp : s.call.Spinning .fst q) : s.loops.sent < total n M freq := by
  obtain ⟨v, e, hpc⟩ := h.calling hsp
  have hok := h.loops
  simp only [SimpleQueueTest.Producer.Ok, hpc] at hok
  obtain ⟨hi, hj, hcall, -⟩ := hok
  exact hcall.lt_total hi hj

omit [NeZero K] [NeZero S] in
theorem Consumer.Ok.inCall {s : Consumer K S} (h : s.Ok n M freq p c)
    (hsp : s.call.Spinning .snd q) : s.loops.InCall n M freq p c s.loops.taken := by
  obtain ⟨e, hpc⟩ := h.calling hsp
  have hok := h.loops
  simp only [SimpleQueueTest.Consumer.Ok, hpc] at hok
  exact hok

/-- The producer waits for nobody when the consumer has finished. -/
theorem Inv.producer_done (h : Inv x tr s) (hp : s.fst.Waiting s.mem) (hc : s.snd.Waiting s.mem) :
    s.fst.loops.pc = .done := by
  rcases hp with hp | hp
  · exact hp
  · rcases hc with hc | hc
    · exfalso
      obtain ⟨-, htaken, hhanded, -⟩ := h.queue.taken_le
      obtain ⟨-, hacc, -⟩ := h.queue.fst.spinning hp
      have hlt := h.fst.sent_lt hp
      have hall := (h.snd.loops.taken_done hc).1
      have hsent := h.fst.sent
      have hgot := h.snd.taken
      have hle : s.snd.call.n ≤ s.snd.call.accessed := Nat.le_add_right _ _
      have hacc : s.fst.call.accessed = s.fst.call.n := hacc
      omega
    · exact absurd ⟨hp, hc⟩ h.queue.not_both_spinning

theorem Inv.settled (hM : 0 < x.M) (hdvd : x.M ∣ x.n) (hfreq : Checked x.freq)
    (h : x.system.Runs tr s) (hover : x.program.Over Producer.Waiting Consumer.Waiting s) :
    x.Settled s := by
  have hinv := inv hM hdvd hfreq h
  have hfull : x.full ≤ total x.n x.M x.freq := Nat.mul_div_le _ S
  unfold Setup.Settled
  by_cases herr : s.snd.loops.pc = .error
  · obtain ⟨m, hrep⟩ := reports hM hdvd hfreq h herr
    have htaken := hinv.taken_le
    rw [hrep.taken] at htaken
    rw [hrep.difference_eq htaken]
    exact ⟨herr, hrep.index⟩
  · have hwait : s.fst.Waiting s.mem ∧ s.snd.Waiting s.mem := by
      rcases hover with hexit | hwait
      · rcases Bool.or_eq_true_iff.mp hexit with hexit | hexit
        · rw [Setup.program, producer_isExit] at hexit
          cases hexit
        · exact absurd (consumer_isExit hexit) herr
      · exact hwait
    have hdone := hinv.producer_done hwait.1 hwait.2
    obtain ⟨hsent, hres⟩ := hinv.fst.loops.sent_done hdone
    rcases hwait.2 with hc | hc
    · -- the consumer has taken everything, so everything was in full sections
      obtain ⟨hall, hcres, hmatch⟩ := hinv.snd.loops.taken_done hc
      have hle := hinv.taken_le
      have heq : x.full = total x.n x.M x.freq := by omega
      have hdiv : S ∣ total x.n x.M x.freq := ⟨_, heq.symm⟩
      rw [← heq] at hmatch
      rw [difference_eq_none_iff.mpr hmatch]
      dsimp only
      rw [if_pos hdiv]
      exact ⟨hdone, hres, hc, hcres⟩
    · -- the rest of the last section is missing
      have hidle : s.fst.call.pc = .idle := hinv.fst.idle fun v e hpc => by
        rw [hdone] at hpc
        cases hpc
      have hn : s.snd.call.n = S * (s.fst.call.n / S) := hinv.queue.returned_full hidle hc
      have htaken : s.snd.loops.taken = x.full := by
        rw [← hinv.snd.taken, hn, hinv.fst.sent, hsent]
        rfl
      have hcall := hinv.snd.inCall hc
      have hlt := hcall.calling.lt_total hcall.index hcall.inner
      have hmatch := hcall.matched
      have hndiv : ¬ S ∣ total x.n x.M x.freq := by
        intro hdiv
        have heq : x.full = total x.n x.M x.freq := Nat.mul_div_cancel' hdiv
        omega
      rw [htaken] at hmatch
      rw [difference_eq_none_iff.mpr hmatch]
      dsimp only
      rw [if_neg hndiv]
      exact ⟨hdone, hres, hc, htaken⟩

end Ends

/-- **The test of `SectionQueue` settles.** Under every fair schedule, and for good: the first
difference in a full section is reported; without one the producer finishes, and the consumer
finishes if the calls fill their sections and waits for the rest of the last one otherwise. -/
theorem fair_settled (hM : 0 < x.M) (hdvd : x.M ∣ x.n) (hfreq : Checked x.freq)
    {sched : Nat → Side} (hfair : Fair id sched) :
    ∃ k, ∀ m, k ≤ m → x.Settled (x.system.play sched m).1 := by
  obtain ⟨k, hk⟩ := (polling hM hdvd hfreq).ends hfair
  exact ⟨k, fun m hkm => Inv.settled hM hdvd hfreq (System.runs_play m) (hk m hkm)⟩

/-- Three values in sections of two: the third one is corrupted, and nobody sees it. -/
theorem fair_settled_small : ∃ k, ∀ m, k ≤ m →
    let s := ((Setup.system (K := 2) (S := 2) ⟨3, 1, .everyTime, fun i => BitVec.ofNat 64 i,
      fun i => BitVec.ofNat 64 (i + i / 2), fun _ _ => 0, 0, fun _ => 0⟩).play alternate m).1
    s.fst.loops.pc = .done ∧ s.snd.call.Spinning .snd s.mem ∧ s.snd.loops.taken = 2 := by
  obtain ⟨k, hk⟩ := fair_settled (K := 2) (S := 2) (x := ⟨3, 1, .everyTime,
    fun i => BitVec.ofNat 64 i, fun i => BitVec.ofNat 64 (i + i / 2), fun _ _ => 0, 0,
    fun _ => 0⟩) (by decide) (by decide) (.inl rfl) fair_alternate
  have hdiff : difference 1 .everyTime (fun i => BitVec.ofNat 64 i)
      (fun i => BitVec.ofNat 64 (i + i / 2)) (2 * (total 3 1 .everyTime / 2)) = none := by
    decide +kernel
  refine ⟨k, ?_⟩
  intro m hkm
  have hsettled := hk m hkm
  unfold Setup.Settled Setup.full at hsettled
  rw [hdiff] at hsettled
  obtain ⟨hp, -, hc⟩ := hsettled
  rw [if_neg (by decide)] at hc
  exact ⟨hp, hc⟩

end SectionQueueTest

end TsxProject
