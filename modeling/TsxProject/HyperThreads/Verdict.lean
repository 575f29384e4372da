import TsxProject.HyperThreads.CheckFrequencies
import TsxProject.Infra.Fairness

/-!
# The verdict of the test of `SimpleQueue`

Under a fair schedule the test comes to an end, and which end it is depends on the two streams
alone: both threads finish, or the consumer reports the iteration of the first call that finds a
difference.

* `Producer.rank`, `Consumer.rank` — what is left of the loops, whatever the calls take
* `reported` — the iteration in the message
* `fair_verdict` — the main result
-/

namespace TsxProject

open Infra Infra.Ring

namespace SimpleQueueTest

variable {N n M m j i : Nat} {freq : CheckFrequency} {p c : Nat → Long}

/-! ## What is left of the loops -/

/-- More than the steps of an iteration. -/
def width (M : Nat) : Nat := 20 * M + 20

theorem left_succ (hi : i < n) (w : Nat) : (n - i) * w = (n - (i + 1)) * w + w := by
  rw [← Nat.succ_mul]
  congr 1
  omega

/-- `call` is what is left of the current call. -/
def Producer.rank (n M : Nat) (call : SimpleQueue.EnqueuePc N → Nat) (s : Producer N) : Nat :=
  match s.pc with
  | .loop => (n - s.i) * width M + 2
  | .inner => (n - (s.i + 1)) * width M + (M - s.j) * 20 + 4
  | .enqueue _ e => (n - (s.i + 1)) * width M + (M - (s.j + 1)) * 20 + 4 + call e
  | .finish => 1
  | .done => 0

/-- A step outside the queue. -/
theorem Producer.rank_skip [NeZero N] {s s' : Producer N} {q q' : SimpleQueue N}
    {evs : List (SimpleQueue.CallEvent N)} {call : SimpleQueue.EnqueuePc N → Nat}
    (hcall : call .next ≤ 13) (hpc : ∀ v e, s.pc ≠ .enqueue v e)
    (hs : (producer n M freq p s).exec q = some (q', s', evs)) :
    s'.rank n M call < s.rank n M call := by
  obtain ⟨pc, i, j, residue, result, xorMine, auxValues, sent, producerResult⟩ := s
  cases pc with
  | loop =>
    simp only [producer] at hs
    split at hs <;> cases hs
    · next hi =>
      have hleft := left_succ hi (width M)
      have hwidth : width M = 20 * M + 20 := rfl
      unfold Producer.iteration
      dsimp only
      split
      · simp only [Producer.rank]
        omega
      · split <;> simp only [Producer.rank] <;> omega
      · split <;> simp only [Producer.rank] <;> omega
      · simp only [Producer.rank]
        omega
    · simp only [Producer.rank]
      omega
  | inner =>
    simp only [producer] at hs
    split at hs <;> cases hs <;> simp only [Producer.rank] <;> omega
  | enqueue v e => exact absurd rfl (hpc v e)
  | finish =>
    cases hs
    exact Nat.zero_lt_one
  | done => cases hs

/-- The return of a call. -/
theorem Producer.rank_return {s : Producer N} {v : Long} {e : SimpleQueue.EnqueuePc N}
    (call : SimpleQueue.EnqueuePc N → Nat) (hcall : 0 < call e) (hpc : s.pc = .enqueue v e) :
    (s.afterEnqueue freq).rank n M call < s.rank n M call := by
  obtain ⟨pc, i, j, residue, result, xorMine, auxValues, sent, producerResult⟩ := s
  obtain rfl : pc = .enqueue v e := hpc
  unfold Producer.afterEnqueue
  dsimp only
  split <;> simp only [Producer.rank] <;> omega

def Consumer.rank (n M : Nat) (call : SimpleQueue.DequeuePc N → Nat) (s : Consumer N) : Nat :=
  match s.pc with
  | .loop => (n - s.i) * width M + 2
  | .inner => (n - (s.i + 1)) * width M + (M - s.j) * 20 + 4
  | .dequeue e => (n - (s.i + 1)) * width M + (M - (s.j + 1)) * 20 + 5 + call e
  | .compare _ => (n - (s.i + 1)) * width M + (M - (s.j + 1)) * 20 + 5
  | .finish => 1
  | .done | .error => 0

/-- A step outside the queue. -/
theorem Consumer.rank_skip [NeZero N] {s s' : Consumer N} {q q' : SimpleQueue N}
    {evs : List (SimpleQueue.CallEvent N)} {call : SimpleQueue.DequeuePc N → Nat}
    (hcall : call .awaitDeq ≤ 13) (hpc : ∀ e, s.pc ≠ .dequeue e)
    (hs : (consumer n M freq c s).exec q = some (q', s', evs)) :
    s'.rank n M call < s.rank n M call := by
  obtain ⟨pc, i, j, modulo, auxValue, auxValues, xorResultMine, result, taken, cr⟩ := s
  cases pc with
  | loop =>
    simp only [consumer] at hs
    split at hs <;> cases hs
    · next hi =>
      have hleft := left_succ hi (width M)
      have hwidth : width M = 20 * M + 20 := rfl
      unfold Consumer.iteration
      dsimp only
      split
      · simp only [Consumer.rank]
        omega
      · split <;> simp only [Consumer.rank] <;> omega
      · split <;> simp only [Consumer.rank] <;> omega
      · simp only [Consumer.rank]
        omega
    · simp only [Consumer.rank]
      omega
  | inner =>
    simp only [consumer] at hs
    split at hs <;> cases hs <;> simp only [Consumer.rank] <;> omega
  | dequeue e => exact absurd rfl (hpc e)
  | compare v =>
    simp only [consumer] at hs
    split at hs <;> cases hs
    · simp only [Consumer.rank]
      omega
    · unfold Consumer.afterMatch
      split <;> simp only [Consumer.rank] <;> omega
  | finish =>
    cases hs
    exact Nat.zero_lt_one
  | done | error => cases hs

/-- The return of a call. -/
theorem Consumer.rank_return {s : Consumer N} {e : SimpleQueue.DequeuePc N}
    (call : SimpleQueue.DequeuePc N → Nat) (hcall : 0 < call e) (hpc : s.pc = .dequeue e)
    (taken : Nat) (v : Long) :
    Consumer.rank n M call { s with taken := taken, pc := .compare v } < s.rank n M call := by
  rw [Consumer.rank, Consumer.rank, hpc]
  dsimp only
  omega

end SimpleQueueTest

/-! ## The message -/

namespace SimpleQueueTest

variable {N n M m j i : Nat} {freq : CheckFrequency} {p c f : Nat → Long} {aux : Nat → Long}

/-- The iteration that is reported when call number `m` finds a difference: the last one of the
group, if there are groups. -/
def reported (M : Nat) (freq : CheckFrequency) (m : Nat) : Nat :=
  match freq with
  | .eachModuloTimes => M * (m / M) + (M - 1)
  | .encoding => M * m + (M - 1)
  | _ => m

theorem Calling.index (h : Calling M freq f i m j aux)
    (hj : freq = .eachModuloTimes → j < M) : i = reported M freq m := by
  cases freq with
  | eachModuloTimes =>
    obtain ⟨b, hb, ⟨g, rfl⟩, rfl, -⟩ := h
    have hlt : j < M := hj rfl
    have hdiv : (M * g + j) / M = g := by
      rw [Nat.mul_add_div (Nat.zero_lt_of_lt hlt), Nat.div_eq_of_lt hlt, Nat.add_zero]
    simp only [reported]
    rw [hdiv]
    omega
  | encoding =>
    have hnext : i + 1 = M * (m + 1) := h
    have hpos : 0 < M := by
      refine Nat.pos_of_ne_zero fun hzero => ?_
      rw [hzero, Nat.zero_mul] at hnext
      cases hnext
    rw [Nat.mul_succ] at hnext
    simp only [reported]
    omega
  | _ => exact h

/-- The first of the first `bound` calls whose values differ. -/
def difference (M : Nat) (freq : CheckFrequency) (p c : Nat → Long) (bound : Nat) : Option Nat :=
  (List.range bound).find? fun m => decide (calls M freq p m ≠ calls M freq c m)

theorem difference_eq_none_iff {bound : Nat} :
    difference M freq p c bound = none ↔ Matched M freq p c bound := by
  unfold difference Matched
  rw [List.find?_range_eq_none]
  simp only [ne_eq, decide_not, Bool.not_not, decide_eq_true_eq]

theorem difference_eq_some {bound : Nat} (hm : m < bound) (h : Matched M freq p c m)
    (hne : calls M freq p m ≠ calls M freq c m) : difference M freq p c bound = some m := by
  unfold difference
  rw [List.find?_range_eq_some]
  refine ⟨by simpa using hne, List.mem_range.mpr hm, ?_⟩
  intro k hk
  simp [h k hk]

/-- A consumer that is at its error exit: the comparison of call number `m` has failed. -/
structure Consumer.Reports (n M : Nat) (freq : CheckFrequency) (p c : Nat → Long) (s : Consumer N)
    (m : Nat) : Prop where
  bound : m < total n M freq
  matched : Matched M freq p c m
  differs : calls M freq p m ≠ calls M freq c m
  index : s.i = reported M freq m
  taken : s.taken = m + 1

/-- The error exit is taken from a comparison. -/
theorem Consumer.compare_of_error [NeZero N] {s s' : Consumer N} {q q' : SimpleQueue N}
    {evs : List (SimpleQueue.CallEvent N)}
    (hs : (consumer n M freq c s).exec q = some (q', s', evs)) (herr : s'.pc = .error) :
    ∃ v, s.pc = .compare v ∧ v ≠ s.expected freq ∧ s' = { s with pc := .error } := by
  cases hpc : s.pc with
  | loop =>
    simp only [consumer, hpc] at hs
    split at hs <;> cases hs
    · unfold Consumer.iteration at herr
      dsimp only at herr
      split at herr
      · cases herr
      · split at herr
        · cases herr
        · rw [hpc] at herr
          cases herr
      · split at herr
        · cases herr
        · rw [hpc] at herr
          cases herr
      · cases herr
    · cases herr
  | inner =>
    simp only [consumer, hpc] at hs
    split at hs <;> cases hs <;> cases herr
  | dequeue e =>
    simp only [consumer, hpc] at hs
    obtain ⟨e', rfl, -⟩ | ⟨v, hret, -⟩ := SimpleQueue.dequeue_cases hs
    · cases herr
    · cases hret
      cases herr
  | compare v =>
    simp only [consumer, hpc] at hs
    split at hs <;> cases hs
    · next hne => exact ⟨v, rfl, hne, rfl⟩
    · unfold Consumer.afterMatch at herr
      split at herr <;> cases herr
  | finish =>
    simp only [consumer, hpc] at hs
    cases hs
    cases herr
  | done | error =>
    simp only [consumer, hpc] at hs
    cases hs

theorem Consumer.Ok.reports {s : Consumer N} {v : Long} (h : s.Ok n M freq p c)
    (hpc : s.pc = .compare v) (hne : v ≠ s.expected freq) :
    ∃ m, Consumer.Reports (N := N) n M freq p c { s with pc := .error } m := by
  simp only [Consumer.Ok, hpc] at h
  obtain ⟨m, htaken, hcall, hv⟩ := h
  refine ⟨m, hcall.calling.lt_total hcall.index hcall.inner, hcall.matched, ?_,
    hcall.calling.index hcall.inner, htaken⟩
  rw [← hv, ← hcall.expected]
  exact hne

theorem Consumer.Reports.difference_eq {s : Consumer N} {bound : Nat}
    (h : s.Reports n M freq p c m) (hb : m < bound) :
    difference M freq p c bound = some m :=
  difference_eq_some hb h.matched h.differs

end SimpleQueueTest

/-! ## What is left of a call -/

namespace SimpleQueue

variable {N : Nat} [NeZero N] {vals : List Int} {q q' : SimpleQueue N} {p p' : Enqueuer N}
  {c c' : Dequeuer N} {evs : List (CallEvent N)}

omit [NeZero N] in
def EnqueuePc.rank : EnqueuePc N → Nat
  | .next => 5
  | .await _ => 4
  | .index _ => 3
  | .put _ _ => 2
  | .publish _ => 1

omit [NeZero N] in
/-- An empty queue is polled in two places, which are one to the rank. -/
def DequeuePc.rank (q : SimpleQueue N) : DequeuePc N → Nat
  | .awaitDeq => 6
  | .awaitEnq k => if k = q.enqPtr then 6 else 5
  | .index => 4
  | .read _ => 3
  | .moveIndex _ => 2
  | .move _ _ => 1

/-- A store to `enqPtr` does not bring it round to `deqPtr`. -/
theorem Inv.rank_le {v : Int} {k : Fin N} {n : Nat} {e : DequeuePc N} {m : Nat}
    (h : Inv vals ⟨q, ⟨.call v (.publish k), n⟩, ⟨.call e, m⟩⟩) :
    e.rank { q with enqPtr := k } ≤ e.rank q := by
  cases e with
  | awaitEnq k' =>
    have hk : k = slot (n + 1) ∧ n + 1 < m + N := h.fst.2.2
    have hk' : k' = slot m := h.snd.2
    obtain ⟨rfl, hroom⟩ := hk
    have hne : k' ≠ slot (n + 1) := by
      rw [hk']
      exact slot_ne (Nat.lt_succ_of_le h.le) hroom
    simp only [DequeuePc.rank]
    rw [if_neg hne]
    split <;> omega
  | _ => exact Nat.le_refl _

end SimpleQueue

namespace SimpleQueueTest

variable {N n M : Nat} [NeZero N] {freq : CheckFrequency} {p c : Nat → Long} {x : Setup N}
  {q q' : SimpleQueue N} {tr evs : List (SimpleQueue.CallEvent N)}

/-- A step inside `SimpleQueue_Enqueue`. -/
theorem Producer.call_cases {s s' : Producer N} {v : Long} {e : SimpleQueue.EnqueuePc N}
    (hpc : s.pc = .enqueue v e) (hs : (producer n M freq p s).exec q = some (q', s', evs)) :
    (s.caller.Spinning q ∧ q' = q ∧ s' = s) ∨
    (¬ s.caller.Spinning q ∧
      s'.rank n M SimpleQueue.EnqueuePc.rank < s.rank n M SimpleQueue.EnqueuePc.rank ∧
      (q'.enqPtr = q.enqPtr ∨ ∃ k, e = .publish k ∧ q' = { q with enqPtr := k })) := by
  obtain ⟨pc, i, j, residue, result, xorMine, auxValues, sent, producerResult⟩ := s
  obtain rfl : pc = .enqueue v e := hpc
  cases e with
  | next | index k | put k k' =>
    cases hs
    exact .inr ⟨id, Nat.lt_succ_self _, .inl rfl⟩
  | await k =>
    simp only [producer, SimpleQueue.enqueue, Instr.exec] at hs
    split at hs <;> cases hs
    · next heq => exact .inl ⟨heq, rfl, rfl⟩
    · next hne => exact .inr ⟨hne, Nat.lt_succ_self _, .inl rfl⟩
  | publish k =>
    cases hs
    exact .inr ⟨id, Producer.rank_return (e := .publish k) _ Nat.zero_lt_one rfl,
      .inr ⟨k, rfl, rfl⟩⟩

/-- A step inside `SimpleQueue_Dequeue`. -/
theorem Consumer.call_cases {s s' : Consumer N} {e : SimpleQueue.DequeuePc N}
    (hpc : s.pc = .dequeue e) (hdeq : ∀ k, e = .awaitEnq k → k = q.deqPtr)
    (hs : (consumer n M freq c s).exec q = some (q', s', evs)) :
    (s.caller.Spinning q ∧ q' = q ∧ s'.caller.Spinning q ∧
      s'.rank n M (SimpleQueue.DequeuePc.rank q) = s.rank n M (SimpleQueue.DequeuePc.rank q)) ∨
    (¬ s.caller.Spinning q ∧
      s'.rank n M (SimpleQueue.DequeuePc.rank q') < s.rank n M (SimpleQueue.DequeuePc.rank q)) := by
  obtain ⟨pc, i, j, modulo, auxValue, auxValues, xorResultMine, result, taken, cr⟩ := s
  obtain rfl : pc = .dequeue e := hpc
  cases e with
  | awaitDeq =>
    cases hs
    by_cases hempty : q.deqPtr = q.enqPtr
    · have hrank : (SimpleQueue.DequeuePc.awaitEnq q.deqPtr).rank q = 6 := if_pos hempty
      refine .inl ⟨hempty, rfl, hempty, ?_⟩
      exact congrArg ((n - (i + 1)) * width M + (M - (j + 1)) * 20 + 5 + ·) hrank
    · have hrank : (SimpleQueue.DequeuePc.awaitEnq q.deqPtr).rank q < 6 := by
        rw [SimpleQueue.DequeuePc.rank, if_neg hempty]
        decide
      exact .inr ⟨hempty, Nat.add_lt_add_left hrank _⟩
  | awaitEnq k =>
    obtain rfl : k = q.deqPtr := hdeq k rfl
    simp only [consumer, SimpleQueue.dequeue, Instr.exec] at hs
    split at hs <;> cases hs
    · next heq =>
      have hempty : q.deqPtr = q.enqPtr := heq
      refine .inl ⟨hempty, rfl, hempty, ?_⟩
      simp only [Consumer.rank, SimpleQueue.DequeuePc.rank, if_pos hempty]
    · next hne =>
      have hempty : ¬ q.deqPtr = q.enqPtr := hne
      refine .inr ⟨hempty, ?_⟩
      simp only [Consumer.rank, SimpleQueue.DequeuePc.rank, if_neg hempty]
      exact Nat.lt_succ_self _
  | index | read k | moveIndex v =>
    cases hs
    exact .inr ⟨id, Nat.lt_succ_self _⟩
  | move v k =>
    cases hs
    exact .inr ⟨id, Consumer.rank_return (e := .move v k) _ Nat.zero_lt_one rfl _ _⟩

theorem Inv.deqPtr_eq {s : State N} (h : Inv x tr s) {e : SimpleQueue.DequeuePc N}
    (hpc : s.snd.pc = .dequeue e) (k : Fin N) (he : e = .awaitEnq k) : k = s.mem.deqPtr := by
  subst he
  obtain ⟨hdeq, hk⟩ := (SimpleQueue.refines_fifo h.run).1.snd
  simp only [embed, Consumer.caller, hpc] at hdeq hk
  rw [hdeq, hk]

theorem Inv.rank_le {s : State N} (h : Inv x tr s) {v : Long} {e : SimpleQueue.EnqueuePc N}
    (hpc : s.fst.pc = .enqueue v e)
    (hq : q'.enqPtr = s.mem.enqPtr ∨ ∃ k, e = .publish k ∧ q' = { s.mem with enqPtr := k }) :
    s.snd.rank x.n x.M (SimpleQueue.DequeuePc.rank q') ≤
      s.snd.rank x.n x.M (SimpleQueue.DequeuePc.rank s.mem) := by
  unfold Consumer.rank
  cases hc : s.snd.pc with
  | dequeue e' =>
    refine Nat.add_le_add_left ?_ _
    rcases hq with heq | ⟨k, rfl, rfl⟩
    · unfold SimpleQueue.DequeuePc.rank
      rw [heq]
    · have hrun := (SimpleQueue.refines_fifo h.run).1
      simp only [embed, Producer.caller, Consumer.caller, hpc, hc] at hrun
      exact hrun.rank_le
  | loop | inner | compare v | finish | done | error => exact Nat.le_refl _

omit [NeZero N] in
theorem Producer.spinning {s : Producer N} (hsp : s.caller.Spinning q) :
    ∃ v e, s.pc = .enqueue v e := by
  cases hpc : s.pc with
  | enqueue v e => exact ⟨v, e, rfl⟩
  | loop | inner | finish | done =>
    simp only [Producer.caller, hpc] at hsp
    exact hsp.elim

omit [NeZero N] in
theorem Consumer.spinning {s : Consumer N} (hsp : s.caller.Spinning q) :
    ∃ e, s.pc = .dequeue e := by
  cases hpc : s.pc with
  | dequeue e => exact ⟨e, rfl⟩
  | loop | inner | compare v | finish | done | error =>
    simp only [Consumer.caller, hpc] at hsp
    exact hsp.elim

theorem Producer.exec_ne_none {s : Producer N} (q : SimpleQueue N) (hpc : s.pc ≠ .done) :
    (producer n M freq p s).exec q ≠ none := by
  intro hnone
  cases hs : s.pc with
  | loop | inner =>
    simp only [producer, hs] at hnone
    split at hnone <;> cases hnone
  | enqueue v e =>
    simp only [producer, hs] at hnone
    cases e <;> cases hnone
  | finish =>
    simp only [producer, hs] at hnone
    cases hnone
  | done => exact hpc hs

theorem Consumer.exec_ne_none {s : Consumer N} (q : SimpleQueue N) (hpc : s.pc ≠ .done)
    (herr : s.pc ≠ .error) : (consumer n M freq c s).exec q ≠ none := by
  intro hnone
  cases hs : s.pc with
  | loop | inner | compare v =>
    simp only [consumer, hs] at hnone
    split at hnone <;> cases hnone
  | dequeue e =>
    simp only [consumer, hs] at hnone
    cases e <;> cases hnone
  | finish =>
    simp only [consumer, hs] at hnone
    cases hnone
  | done => exact hpc hs
  | error => exact herr hs

/-- Who does not wait makes progress. -/
theorem polling (hM : 0 < x.M) (hdvd : x.M ∣ x.n) (hfreq : Checked x.freq) :
    x.program.Polling x.system.init (fun _ s => s.rank x.n x.M SimpleQueue.EnqueuePc.rank)
      (fun q s => s.rank x.n x.M (SimpleQueue.DequeuePc.rank q)) Producer.Waiting
      Consumer.Waiting where
  fst_moves := by
    rintro q s c - hw -
    exact Producer.exec_ne_none q fun hdone => hw (.inl hdone)
  fst_work := by
    rintro q s c q' s' evs ⟨tr, hr⟩ hw hs
    have hinv := inv hM hdvd hfreq hr
    by_cases hpc : ∃ v e, s.pc = .enqueue v e
    · obtain ⟨v, e, hpc⟩ := hpc
      obtain ⟨hsp, -⟩ | ⟨-, hlt, hq⟩ := Producer.call_cases hpc hs
      · exact absurd (.inr hsp) hw
      · exact ⟨hlt, hinv.rank_le hpc hq⟩
    · simp only [not_exists] at hpc
      obtain ⟨rfl, -⟩ := hinv.fst.skip hM hdvd hfreq hpc hs
      exact ⟨Producer.rank_skip (Nat.le_add_right 5 8) hpc hs, Nat.le_refl _⟩
  fst_wait := by
    rintro q s c q' s' evs - hw hs
    rcases hw with hdone | hsp
    · simp only [Setup.program, producer, hdone] at hs
      cases hs
    · obtain ⟨v, e, hpc⟩ := Producer.spinning hsp
      obtain ⟨-, rfl, rfl⟩ | ⟨hnot, -⟩ := Producer.call_cases hpc hs
      · exact ⟨rfl, rfl, .inr hsp⟩
      · exact absurd hsp hnot
  snd_moves := by
    rintro q p s - hw hexit
    refine Consumer.exec_ne_none q (fun hdone => hw (.inl hdone)) fun herr => ?_
    simp only [Setup.program, consumer, herr] at hexit
    cases hexit
  snd_work := by
    rintro q p s q' s' evs ⟨tr, hr⟩ hw hs
    have hinv := inv hM hdvd hfreq hr
    by_cases hpc : ∃ e, s.pc = .dequeue e
    · obtain ⟨e, hpc⟩ := hpc
      obtain ⟨hsp, -⟩ | ⟨-, hlt⟩ := Consumer.call_cases hpc (hinv.deqPtr_eq hpc) hs
      · exact absurd (.inr hsp) hw
      · exact ⟨hlt, Nat.le_refl _⟩
    · simp only [not_exists] at hpc
      obtain ⟨rfl, -⟩ := hinv.snd.skip hM hdvd hfreq hpc hs
      exact ⟨Consumer.rank_skip (Nat.le_add_right 6 7) hpc hs, Nat.le_refl _⟩
  snd_wait := by
    rintro q p s q' s' evs ⟨tr, hr⟩ hw hs
    have hinv := inv hM hdvd hfreq hr
    rcases hw with hdone | hsp
    · simp only [Setup.program, consumer, hdone] at hs
      cases hs
    · obtain ⟨e, hpc⟩ := Consumer.spinning hsp
      obtain ⟨-, rfl, hsp', hrank⟩ | ⟨hnot, -⟩ :=
        Consumer.call_cases hpc (hinv.deqPtr_eq hpc) hs
      · exact ⟨rfl, hrank, .inr hsp'⟩
      · exact absurd hsp hnot

/-- Who has taken the error exit reports the first difference. -/
theorem reports (hM : 0 < x.M) (hdvd : x.M ∣ x.n) (hfreq : Checked x.freq) {s : State N}
    (h : x.system.Runs tr s) (herr : s.snd.pc = .error) :
    ∃ m, s.snd.Reports x.n x.M x.freq x.p x.c m := by
  induction h with
  | init => cases herr
  | @step i tr evs s s' hr _ hs ih =>
    obtain ⟨q, p, c⟩ := s
    obtain ⟨q', p', rfl, rfl, hx⟩ | ⟨q', c', rfl, rfl, hx⟩ := Program.step_cases hs
    · exact ih herr
    · obtain ⟨v, hpc, hne, rfl⟩ := Consumer.compare_of_error hx herr
      exact (inv hM hdvd hfreq hr).snd.reports hpc hne

theorem producer_isExit (s : Producer N) : (producer n M freq p s).isExit = false := by
  unfold producer
  cases s.pc with
  | loop | inner =>
    dsimp only
    split <;> rfl
  | enqueue v e => cases e <;> rfl
  | finish | done => rfl

theorem consumer_isExit {s : Consumer N} (h : (consumer n M freq c s).isExit = true) :
    s.pc = .error := by
  cases hpc : s.pc with
  | loop | inner | compare v =>
    simp only [consumer, hpc] at h
    split at h <;> cases h
  | dequeue e =>
    simp only [consumer, hpc] at h
    cases e <;> cases h
  | finish | done =>
    simp only [consumer, hpc] at h
    cases h
  | error => rfl

/-! ## The verdict -/

/-- What is to be seen in the end: the results, or the message. -/
def Setup.Verdict (x : Setup N) (s : State N) : Prop :=
  match difference x.M x.freq x.p x.c (total x.n x.M x.freq) with
  | none =>
    s.fst.pc = .done ∧ s.snd.pc = .done ∧ s.fst.producerResult = sumTo x.p x.n ∧
      s.snd.consumerResult = sumTo x.c x.n
  | some m => s.snd.pc = .error ∧ s.snd.i = reported x.M x.freq m

theorem Inv.verdict (hM : 0 < x.M) (hdvd : x.M ∣ x.n) (hfreq : Checked x.freq) (hN : 2 ≤ N)
    {s : State N} (h : x.system.Runs tr s)
    (hover : x.program.Over Producer.Waiting Consumer.Waiting s) : x.Verdict s := by
  have hinv := inv hM hdvd hfreq h
  unfold Setup.Verdict
  by_cases herr : s.snd.pc = .error
  · obtain ⟨m, hrep⟩ := reports hM hdvd hfreq h herr
    rw [hrep.difference_eq hrep.bound]
    exact ⟨herr, hrep.index⟩
  · have hwait : s.fst.Waiting s.mem ∧ s.snd.Waiting s.mem := by
      rcases hover with hexit | hwait
      · rcases Bool.or_eq_true_iff.mp hexit with hexit | hexit
        · rw [Setup.program, producer_isExit] at hexit
          cases hexit
        · exact absurd (consumer_isExit hexit) herr
      · exact hwait
    -- they do not wait for each other
    obtain ⟨hp, hc⟩ : s.fst.pc = .done ∧ s.snd.pc = .done := by
      by_contra hdone
      exact hinv.not_deadlocked hN ⟨hwait.1, hwait.2, hdone⟩
    obtain ⟨-, hpres⟩ := hinv.fst.sent_done hp
    obtain ⟨-, hcres, hmatch⟩ := hinv.snd.taken_done hc
    rw [difference_eq_none_iff.mpr hmatch]
    exact ⟨hp, hc, hpres, hcres⟩

/-- **The test of `SimpleQueue` has a verdict.** Under every fair schedule, and for good: if the
values of all calls agree, both threads finish with the sums of their streams, and otherwise the
consumer ends the process with the iteration of the first call that differs. -/
theorem fair_verdict (hN : 2 ≤ N) (hM : 0 < x.M) (hdvd : x.M ∣ x.n) (hfreq : Checked x.freq)
    {sched : Nat → Side} (hfair : Fair id sched) :
    ∃ k, ∀ m, k ≤ m → x.Verdict (x.system.play sched m).1 := by
  obtain ⟨k, hk⟩ := (polling hM hdvd hfreq).ends hfair
  exact ⟨k, fun m hkm => Inv.verdict hM hdvd hfreq hN (System.runs_play m) (hk m hkm)⟩

/-- The second group of two values differs. -/
theorem fair_verdict_small : ∃ k, ∀ m, k ≤ m →
    let s := ((Setup.system (N := 2) ⟨4, 2, .encoding, fun i => BitVec.ofNat 64 i,
      fun i => BitVec.ofNat 64 (i - i / 3), fun _ => 0, 0, fun _ => 0⟩).play alternate m).1
    s.snd.pc = .error ∧ s.snd.i = 3 := by
  obtain ⟨k, hk⟩ := fair_verdict (x := ⟨4, 2, .encoding, fun i => BitVec.ofNat 64 i,
    fun i => BitVec.ofNat 64 (i - i / 3), fun _ => 0, 0, fun _ => 0⟩) (Nat.le_refl 2) (by decide)
    (by decide) (.inr (.inr rfl)) fair_alternate
  have hdiff : difference 2 .encoding (fun i => BitVec.ofNat 64 i)
      (fun i => BitVec.ofNat 64 (i - i / 3)) (total 4 2 .encoding) = some 1 := by decide +kernel
  refine ⟨k, ?_⟩
  intro m hkm
  have hverdict := hk m hkm
  unfold Setup.Verdict at hverdict
  rw [hdiff] at hverdict
  exact hverdict

end SimpleQueueTest

end TsxProject
