import Mathlib.Algebra.BigOperators.Group.Finset.Basic
import TsxProject.HyperThreads.SimpleQueueTest

/-!
# What the check frequencies detect

Both threads of the test of `SimpleQueue` collect the values of their stream into groups, each with
counters of its own, and make one call of the queue for each value or each group.

* `Collected`, `Calling` — where a loop stands, in terms of calls made; the same for both threads
* `embed` — the two threads are callers of the queue, so that `SimpleQueue.refines_fifo` says what
  is dequeued
* `checkFrequencies_detect` — the main result
-/

namespace TsxProject

namespace SimpleQueueTest

open Infra

variable {n M : Nat} {freq : CheckFrequency} {f : Nat → Long} {i m r j : Nat}
  {aux : Nat → Long} {xor : Long}

/-! ## Collecting a group -/

/-- The three modes of the test. -/
def Checked (freq : CheckFrequency) : Prop :=
  freq = .everyTime ∨ freq = .eachModuloTimes ∨ freq = .encoding

/-- Before index `i`, with `m` calls made and `r` values of the current group collected. -/
def Collected (M : Nat) (freq : CheckFrequency) (f : Nat → Long) (i m r : Nat)
    (aux : Nat → Long) (xor : Long) : Prop :=
  match freq with
  | .eachModuloTimes => r < M ∧ M ∣ m ∧ i = m + r ∧ ∀ k < r, aux k = f (m + k)
  | .encoding => r < M ∧ i = M * m + r ∧ xor = xorRange f (M * m) r
  | _ => i = m

/-- At index `i`, before the next call, the `j`-th one of a group of `eachModuloTimes`. -/
def Calling (M : Nat) (freq : CheckFrequency) (f : Nat → Long) (i m j : Nat)
    (aux : Nat → Long) : Prop :=
  match freq with
  | .eachModuloTimes => ∃ b, i + 1 = b + M ∧ M ∣ b ∧ m = b + j ∧ ∀ k < M, aux k = f (b + k)
  | .encoding => i + 1 = M * (m + 1)
  | _ => i = m

theorem Collected.start (hM : 0 < M) (freq : CheckFrequency) (f aux : Nat → Long) :
    Collected M freq f 0 0 0 aux 0 := by
  unfold Collected
  split
  · exact ⟨hM, Nat.dvd_zero M, rfl, fun k hk => absurd hk (Nat.not_lt_zero k)⟩
  · exact ⟨hM, by simp, rfl⟩
  · rfl

/-- All calls have been made when the stream is over. -/
theorem Collected.finish (hM : M ∣ n) (h : Collected M freq f n m r aux xor) :
    m = total n M freq := by
  unfold Collected at h
  split at h
  · obtain ⟨hr, hm, hn, -⟩ := h
    -- the rest of a division is less than a group, and divisible
    have hdvd : M ∣ r := (Nat.dvd_add_right hm).mp (hn ▸ hM)
    have hzero : r = 0 := Nat.eq_zero_of_dvd_of_lt hdvd hr
    simp only [total, reduceCtorEq, if_false]
    omega
  · obtain ⟨hr, hn, -⟩ := h
    have hpos : 0 < M := Nat.lt_of_le_of_lt (Nat.zero_le r) hr
    rw [total, if_pos rfl, hn, Nat.mul_add_div hpos, Nat.div_eq_of_lt hr, Nat.add_zero]
  · next hne =>
    rw [total, if_neg hne, h]

/-- Index `i` is collected, and the group goes on. -/
theorem Collected.push (h : Collected M .eachModuloTimes f i m r aux xor) (hr : r ≠ M - 1) :
    Collected M .eachModuloTimes f (i + 1) m (r + 1) (Function.update aux r (f i)) xor := by
  obtain ⟨hlt, hm, rfl, haux⟩ := h
  refine ⟨by omega, hm, by omega, ?_⟩
  intro k hk
  by_cases hkr : k = r
  · rw [hkr, Function.update_self]
  · rw [Function.update_of_ne hkr]
    exact haux k (by omega)

/-- Index `i` completes a group. -/
theorem Collected.fill (h : Collected M .eachModuloTimes f i m r aux xor) (hr : r = M - 1) :
    Calling M .eachModuloTimes f i m 0 (Function.update aux r (f i)) := by
  obtain ⟨hlt, hm, rfl, haux⟩ := h
  refine ⟨m, by omega, hm, rfl, ?_⟩
  intro k hk
  by_cases hkr : k = r
  · rw [hkr, Function.update_self]
  · rw [Function.update_of_ne hkr]
    exact haux k (by omega)

theorem Collected.push_xor (h : Collected M .encoding f i m r aux xor) (hr : r ≠ M - 1) :
    Collected M .encoding f (i + 1) m (r + 1) aux (xor ^^^ f i) := by
  obtain ⟨hlt, rfl, rfl⟩ := h
  exact ⟨by omega, by omega, rfl⟩

theorem Collected.fill_xor (h : Collected M .encoding f i m r aux xor) (hr : r = M - 1) :
    Calling M .encoding f i m j aux ∧ xor ^^^ f i = calls M .encoding f m := by
  obtain ⟨hlt, rfl, rfl⟩ := h
  have hM : M = r + 1 := by omega
  refine ⟨?_, ?_⟩
  · show M * m + r + 1 = M * (m + 1)
    rw [Nat.mul_succ]
    omega
  · rw [calls, if_pos rfl]
    conv_rhs => rw [hM]
    rw [xorRange, ← hM]

/-- A call is one of those to be made. -/
theorem Calling.lt_total (h : Calling M freq f i m j aux) (hi : i < n)
    (hj : freq = .eachModuloTimes → j < M) : m < total n M freq := by
  unfold Calling at h
  split at h
  · obtain ⟨b, hb, -, rfl, -⟩ := h
    have := hj rfl
    simp only [total, reduceCtorEq, if_false]
    omega
  · rw [total, if_pos rfl]
    have hpos : 0 < M := by
      by_contra hzero
      simp only [Nat.not_lt, Nat.le_zero] at hzero
      rw [hzero, Nat.zero_mul] at h
      cases h
    rw [Nat.lt_iff_add_one_le, Nat.le_div_iff_mul_le hpos, Nat.mul_comm, ← h]
    exact hi
  · next hne =>
    rw [total, if_neg hne, ← h]
    exact hi

/-- The values of a group go through the queue one by one. -/
theorem Calling.value (h : Calling M .eachModuloTimes f i m j aux) (hj : j < M) :
    aux j = calls M .eachModuloTimes f m := by
  obtain ⟨b, -, -, rfl, haux⟩ := h
  exact haux j hj

theorem Calling.succ (h : Calling M .eachModuloTimes f i m j aux) :
    Calling M .eachModuloTimes f i (m + 1) (j + 1) aux := by
  obtain ⟨b, hb, hM, rfl, haux⟩ := h
  exact ⟨b, hb, hM, rfl, haux⟩

/-- The next group begins. -/
theorem Calling.next (h : Calling M .eachModuloTimes f i m M aux) (hM : 0 < M) :
    Collected M .eachModuloTimes f (i + 1) m 0 aux xor := by
  obtain ⟨b, hb, hdvd, rfl, -⟩ := h
  exact ⟨hM, (Nat.dvd_add_right hdvd).mpr (Nat.dvd_refl M), hb,
    fun k hk => absurd hk (Nat.not_lt_zero k)⟩

theorem Calling.next_xor (h : Calling M .encoding f i m j aux) (hM : 0 < M) :
    Collected M .encoding f (i + 1) (m + 1) 0 aux 0 :=
  ⟨hM, h, rfl⟩

/-! ## The producer -/

variable {N : Nat} {p c : Nat → Long}

/-- The values before index `k` added up. -/
def sumTo (f : Nat → Long) (k : Nat) : Long := ∑ i ∈ Finset.range k, f i

theorem sumTo_succ (f : Nat → Long) (k : Nat) : sumTo f (k + 1) = sumTo f k + f k :=
  Finset.sum_range_succ f k

def Producer.Ok (n M : Nat) (freq : CheckFrequency) (p : Nat → Long) (s : Producer N) : Prop :=
  match s.pc with
  | .loop =>
    s.i ≤ n ∧ Collected M freq p s.i s.sent s.residue s.auxValues s.xorMine ∧
      s.result = sumTo p s.i
  | .inner =>
    freq = .eachModuloTimes ∧ s.i < n ∧ s.j ≤ M ∧ Calling M freq p s.i s.sent s.j s.auxValues ∧
      s.result = sumTo p (s.i + 1)
  | .enqueue v _ =>
    s.i < n ∧ (freq = .eachModuloTimes → s.j < M) ∧
      Calling M freq p s.i s.sent s.j s.auxValues ∧ v = calls M freq p s.sent ∧
      s.result = sumTo p (s.i + 1)
  | .finish => s.sent = total n M freq ∧ s.result = sumTo p n
  | .done => s.sent = total n M freq ∧ s.producerResult = sumTo p n

theorem Producer.Ok.iteration {s : Producer N} (hfreq : Checked freq) (hpc : s.pc = .loop)
    (h : s.Ok n M freq p) (hi : s.i < n) : (s.iteration M freq p).Ok n M freq p := by
  obtain ⟨pc, i, j, residue, result, xorMine, auxValues, sent, producerResult⟩ := s
  obtain rfl : pc = .loop := hpc
  obtain ⟨-, hcol, hres⟩ := h
  have hsum : result + p i = sumTo p (i + 1) := by
    rw [sumTo_succ]
    exact congrArg (· + p i) hres
  rcases hfreq with rfl | rfl | rfl
  · obtain rfl : i = sent := hcol
    exact ⟨hi, by simp, rfl, rfl, hsum⟩
  · by_cases hr : residue = M - 1
    · have hrun := hcol.fill hr
      simp only [Producer.iteration, if_pos hr]
      exact ⟨rfl, hi, Nat.zero_le M, hrun, hsum⟩
    · have hrun := hcol.push hr
      simp only [Producer.iteration, if_neg hr]
      exact ⟨hi, hrun, hsum⟩
  · by_cases hr : residue = M - 1
    · obtain ⟨hrun, hval⟩ := hcol.fill_xor hr (j := j)
      simp only [Producer.iteration, if_pos hr]
      exact ⟨hi, by simp, hrun, hval, hsum⟩
    · have hrun := hcol.push_xor hr
      simp only [Producer.iteration, if_neg hr]
      exact ⟨hi, hrun, hsum⟩

theorem Producer.Ok.afterEnqueue {s : Producer N} {v : Long} {e : SimpleQueue.EnqueuePc N}
    (hM : 0 < M) (hfreq : Checked freq) (hpc : s.pc = .enqueue v e) (h : s.Ok n M freq p) :
    (s.afterEnqueue freq).Ok n M freq p := by
  obtain ⟨pc, i, j, residue, result, xorMine, auxValues, sent, producerResult⟩ := s
  obtain rfl : pc = .enqueue v e := hpc
  obtain ⟨hi, hj, hcall, -, hsum⟩ := h
  rcases hfreq with rfl | rfl | rfl
  · obtain rfl : i = sent := hcall
    exact ⟨hi, rfl, hsum⟩
  · exact ⟨rfl, hi, hj rfl, hcall.succ, hsum⟩
  · exact ⟨hi, hcall.next_xor hM, hsum⟩

/-- The thread as a caller of the queue. -/
def Producer.caller (s : Producer N) : SimpleQueue.Enqueuer N where
  pc :=
    match s.pc with
    | .enqueue v e => .call v.toInt e
    | _ => .idle
  n := s.sent

/-- The thread goes on with its loops, or begins a call. -/
inductive Producer.Local (s s' : Producer N) : Prop where
  | quiet : s'.caller = s.caller → Local s s'
  | begin (v : Long) : s.caller = ⟨.idle, s.sent⟩ → s'.pc = .enqueue v .next →
      s'.sent = s.sent → Local s s'

theorem Producer.local_iteration (M : Nat) (freq : CheckFrequency) (p : Nat → Long)
    {s : Producer N} (hpc : s.pc = .loop) : Producer.Local s (s.iteration M freq p) := by
  have hidle : s.caller = ⟨.idle, s.sent⟩ := by
    rw [Producer.caller, hpc]
  unfold Producer.iteration
  split
  · exact .begin _ hidle rfl rfl
  · split
    · exact .quiet hidle.symm
    · exact .quiet (by rw [hidle, Producer.caller, hpc])
  · split
    · exact .begin _ hidle rfl rfl
    · exact .quiet (by rw [hidle, Producer.caller, hpc])
  · exact .quiet hidle.symm

/-- A step outside the queue. -/
theorem Producer.Ok.skip [NeZero N] {s s' : Producer N} {q q' : SimpleQueue N}
    {evs : List (SimpleQueue.CallEvent N)} (hM : 0 < M) (hdvd : M ∣ n) (hfreq : Checked freq)
    (hpc : ∀ v e, s.pc ≠ .enqueue v e) (h : s.Ok n M freq p)
    (hs : (producer n M freq p s).exec q = some (q', s', evs)) :
    q' = q ∧ evs = [] ∧ s'.Ok n M freq p ∧ Producer.Local s s' := by
  cases hs' : s.pc with
  | loop =>
    simp only [producer, hs'] at hs
    split at hs <;> cases hs
    · next hi => exact ⟨rfl, rfl, h.iteration hfreq hs' hi, Producer.local_iteration M freq p hs'⟩
    · next hi =>
      simp only [Producer.Ok, hs'] at h
      obtain ⟨hle, hcol, hsum⟩ := h
      have hin : s.i = n := Nat.le_antisymm hle (Nat.not_lt.mp hi)
      rw [hin] at hcol hsum
      exact ⟨rfl, rfl, ⟨hcol.finish hdvd, hsum⟩, .quiet (by simp [Producer.caller, hs'])⟩
  | inner =>
    simp only [producer, hs'] at hs
    simp only [Producer.Ok, hs'] at h
    obtain ⟨rfl, hi, hj, hcall, hsum⟩ := h
    split at hs <;> cases hs
    · next hlt =>
      exact ⟨rfl, rfl, ⟨hi, fun _ => hlt, hcall, hcall.value hlt, hsum⟩,
        .begin _ (by simp [Producer.caller, hs']) rfl rfl⟩
    · next hge =>
      have hjM : s.j = M := Nat.le_antisymm hj (Nat.not_lt.mp hge)
      rw [hjM] at hcall
      exact ⟨rfl, rfl, ⟨hi, hcall.next hM, hsum⟩, .quiet (by simp [Producer.caller, hs'])⟩
  | enqueue v e => exact absurd hs' (hpc v e)
  | finish =>
    simp only [producer, hs'] at hs
    simp only [Producer.Ok, hs'] at h
    cases hs
    exact ⟨rfl, rfl, h, .quiet (by simp [Producer.caller, hs'])⟩
  | done =>
    simp only [producer, hs'] at hs
    cases hs

/-- A step inside the queue is a step of the caller. -/
theorem Producer.Ok.call [NeZero N] {s s' : Producer N} {q q' : SimpleQueue N}
    {evs : List (SimpleQueue.CallEvent N)} {v : Long} {e : SimpleQueue.EnqueuePc N}
    (vals : List Int) (hM : 0 < M) (hfreq : Checked freq) (hpc : s.pc = .enqueue v e)
    (h : s.Ok n M freq p) (hs : (producer n M freq p s).exec q = some (q', s', evs)) :
    s'.Ok n M freq p ∧
      (SimpleQueue.enqueuer vals s.caller).exec q = some (q', s'.caller, evs) := by
  simp only [producer, hpc] at hs
  simp only [Producer.caller, hpc, SimpleQueue.enqueuer]
  obtain ⟨e', rfl, hx⟩ | ⟨hret, hx⟩ := SimpleQueue.enqueue_cases hs
  · refine ⟨?_, hx _ _⟩
    simp only [Producer.Ok, hpc] at h ⊢
    exact h
  · cases hret
    refine ⟨h.afterEnqueue hM hfreq hpc, ?_⟩
    rw [hx]
    rcases hfreq with rfl | rfl | rfl <;> rfl

/-! ## The consumer -/

/-- How many values have been added to the consumer's `result`. -/
def summed (freq : CheckFrequency) (i m : Nat) : Nat := if freq = .encoding then i else m

/-- The first `m` comparisons found no difference. -/
def Matched (M : Nat) (freq : CheckFrequency) (p c : Nat → Long) (m : Nat) : Prop :=
  ∀ k < m, calls M freq p k = calls M freq c k

theorem Matched.succ (h : Matched M freq p c m)
    (hm : calls M freq p m = calls M freq c m) : Matched M freq p c (m + 1) := by
  intro k hk
  by_cases hkm : k = m
  · rwa [hkm]
  · exact h k (by omega)

/-- The consumer in or right after its call number `m`. -/
structure Consumer.InCall (n M : Nat) (freq : CheckFrequency) (p c : Nat → Long) (s : Consumer N)
    (m : Nat) : Prop where
  index : s.i < n
  inner : freq = .eachModuloTimes → s.j < M
  calling : Calling M freq c s.i m s.j s.auxValues
  expected : s.expected freq = calls M freq c m
  result : s.result = sumTo c (summed freq (s.i + 1) m)
  matched : Matched M freq p c m

theorem Consumer.InCall.goto {s : Consumer N} (h : s.InCall n M freq p c m) (pc : ConsumerPc N)
    (taken : Nat) : Consumer.InCall n M freq p c { s with pc := pc, taken := taken } m :=
  ⟨h.index, h.inner, h.calling, h.expected, h.result, h.matched⟩

def Consumer.Ok (n M : Nat) (freq : CheckFrequency) (p c : Nat → Long) (s : Consumer N) : Prop :=
  match s.pc with
  | .loop =>
    ∃ r, s.i ≤ n ∧ Collected M freq c s.i s.taken r s.auxValues s.xorResultMine ∧
      (freq = .encoding → s.modulo = r) ∧ s.result = sumTo c (summed freq s.i s.taken) ∧
      Matched M freq p c s.taken
  | .inner =>
    freq = .eachModuloTimes ∧ s.i < n ∧ s.j ≤ M ∧ Calling M freq c s.i s.taken s.j s.auxValues ∧
      s.result = sumTo c s.taken ∧ Matched M freq p c s.taken
  | .dequeue _ => s.InCall n M freq p c s.taken
  | .compare v => ∃ m, s.taken = m + 1 ∧ s.InCall n M freq p c m ∧ v = calls M freq p m
  | .finish =>
    s.taken = total n M freq ∧ s.result = sumTo c n ∧ Matched M freq p c (total n M freq)
  | .done =>
    s.taken = total n M freq ∧ s.consumerResult = sumTo c n ∧ Matched M freq p c (total n M freq)
  | .error => ∃ m < total n M freq, calls M freq p m ≠ calls M freq c m

theorem Consumer.Ok.iteration {s : Consumer N} (hfreq : Checked freq) (hpc : s.pc = .loop)
    (h : s.Ok n M freq p c) (hi : s.i < n) : (s.iteration M freq c).Ok n M freq p c := by
  obtain ⟨pc, i, j, modulo, auxValue, auxValues, xorResultMine, result, taken, cr⟩ := s
  obtain rfl : pc = .loop := hpc
  obtain ⟨r, -, hcol, hmod, hres, hmatch⟩ := h
  simp only at hcol hmod hres hmatch hi
  rcases hfreq with rfl | rfl | rfl
  · obtain rfl : i = taken := hcol
    exact ⟨hi, by simp, rfl, rfl, hres, hmatch⟩
  · have hr : i % M = r := by
      obtain ⟨hlt, hdvd, rfl, -⟩ := hcol
      rw [Nat.add_mod, Nat.mod_eq_zero_of_dvd hdvd, Nat.zero_add, Nat.mod_mod,
        Nat.mod_eq_of_lt hlt]
    by_cases hfull : i % M = M - 1
    · have hrun := hcol.fill (hr.symm.trans hfull)
      simp only [Consumer.iteration, if_pos hfull]
      rw [hr]
      exact ⟨rfl, hi, Nat.zero_le M, hrun, hres, hmatch⟩
    · have hrun := hcol.push (fun heq => hfull (hr.trans heq))
      simp only [Consumer.iteration, if_neg hfull]
      rw [hr]
      exact ⟨r + 1, hi, hrun, by simp, hres, hmatch⟩
  · obtain rfl : modulo = r := hmod rfl
    have hsum : result + c i = sumTo c (i + 1) := by
      rw [sumTo_succ]
      exact congrArg (· + c i) hres
    by_cases hfull : modulo = M - 1
    · obtain ⟨hrun, hval⟩ := hcol.fill_xor hfull (j := j)
      simp only [Consumer.iteration, if_pos hfull]
      exact ⟨hi, by simp, hrun, hval, hsum, hmatch⟩
    · have hrun := hcol.push_xor hfull
      simp only [Consumer.iteration, if_neg hfull]
      exact ⟨modulo + 1, hi, hrun, fun _ => rfl, hsum, hmatch⟩

/-- A comparison without a difference. -/
theorem Consumer.InCall.afterMatch {s : Consumer N} {v : Long} (hM : 0 < M)
    (hfreq : Checked freq) (htaken : s.taken = m + 1) (h : s.InCall n M freq p c m)
    (hp : v = calls M freq p m) (hv : v = s.expected freq) :
    (s.afterMatch freq v).Ok n M freq p c := by
  obtain ⟨hi, hj, hcall, hexp, hres, hmatch⟩ := h
  have hvc : v = calls M freq c m := hv.trans hexp
  have hmatch' : Matched M freq p c s.taken := by
    rw [htaken]
    exact hmatch.succ (hp.symm.trans hvc)
  rcases hfreq with rfl | rfl | rfl
  · obtain rfl : s.i = m := hcall
    have hsum : s.result + v = sumTo c (s.i + 1) := by
      rw [sumTo_succ, hvc]
      exact congrArg (· + c s.i) hres
    refine ⟨0, hi, htaken.symm, by simp, ?_, hmatch'⟩
    rw [summed, if_neg (by simp)]
    simp only [Consumer.afterMatch]
    rw [htaken]
    exact hsum
  · have hsum : s.result + v = sumTo c (m + 1) := by
      rw [sumTo_succ, hvc]
      exact congrArg (· + c m) hres
    refine ⟨rfl, hi, hj rfl, ?_, ?_, hmatch'⟩
    · simp only [Consumer.afterMatch]
      rw [htaken]
      exact hcall.succ
    · simp only [Consumer.afterMatch]
      rw [htaken]
      exact hsum
  · refine ⟨0, hi, ?_, fun _ => rfl, hres, hmatch'⟩
    simp only [Consumer.afterMatch]
    rw [htaken]
    exact hcall.next_xor hM

/-- The thread as a caller of the queue. -/
def Consumer.caller (s : Consumer N) : SimpleQueue.Dequeuer N where
  pc :=
    match s.pc with
    | .dequeue e => .call e
    | _ => .idle
  m := s.taken

/-- The thread goes on with its loops, or begins a call. -/
inductive Consumer.Local (s s' : Consumer N) : Prop where
  | quiet : s'.caller = s.caller → Local s s'
  | begin : s.caller = ⟨.idle, s.taken⟩ → s'.caller = ⟨.call .awaitDeq, s.taken⟩ → Local s s'

theorem Consumer.local_iteration (M : Nat) (freq : CheckFrequency) (c : Nat → Long)
    {s : Consumer N} (hpc : s.pc = .loop) : Consumer.Local s (s.iteration M freq c) := by
  have hidle : s.caller = ⟨.idle, s.taken⟩ := by
    rw [Consumer.caller, hpc]
  unfold Consumer.iteration
  split
  · exact .begin hidle rfl
  · dsimp only
    split
    · exact .quiet hidle.symm
    · exact .quiet (by rw [hidle, Consumer.caller, hpc])
  · split
    · exact .begin hidle rfl
    · exact .quiet (by rw [hidle, Consumer.caller, hpc])
  · exact .quiet hidle.symm

theorem Consumer.caller_afterMatch {s : Consumer N} {v w : Long} (freq : CheckFrequency)
    (hpc : s.pc = .compare w) : (s.afterMatch freq v).caller = s.caller := by
  unfold Consumer.afterMatch
  split <;> simp [Consumer.caller, hpc]

/-- A step outside the queue. -/
theorem Consumer.Ok.skip [NeZero N] {s s' : Consumer N} {q q' : SimpleQueue N}
    {evs : List (SimpleQueue.CallEvent N)} (hM : 0 < M) (hdvd : M ∣ n) (hfreq : Checked freq)
    (hpc : ∀ e, s.pc ≠ .dequeue e) (h : s.Ok n M freq p c)
    (hs : (consumer n M freq c s).exec q = some (q', s', evs)) :
    q' = q ∧ evs = [] ∧ s'.Ok n M freq p c ∧ Consumer.Local s s' := by
  cases hs' : s.pc with
  | loop =>
    simp only [consumer, hs'] at hs
    split at hs <;> cases hs
    · next hi => exact ⟨rfl, rfl, h.iteration hfreq hs' hi, Consumer.local_iteration M freq c hs'⟩
    · next hi =>
      simp only [Consumer.Ok, hs'] at h
      obtain ⟨r, hle, hcol, -, hres, hmatch⟩ := h
      have hin : s.i = n := Nat.le_antisymm hle (Nat.not_lt.mp hi)
      rw [hin] at hcol hres
      have htotal : s.taken = total n M freq := hcol.finish hdvd
      refine ⟨rfl, rfl, ⟨htotal, ?_, ?_⟩, .quiet (by simp [Consumer.caller, hs'])⟩
      · show s.result = sumTo c n
        rw [hres, htotal]
        unfold summed total
        split <;> rfl
      · rw [← htotal]
        exact hmatch
  | inner =>
    simp only [consumer, hs'] at hs
    simp only [Consumer.Ok, hs'] at h
    obtain ⟨rfl, hi, hj, hcall, hres, hmatch⟩ := h
    split at hs <;> cases hs
    · next hlt =>
      exact ⟨rfl, rfl, ⟨hi, fun _ => hlt, hcall, hcall.value hlt, hres, hmatch⟩,
        .begin (by simp [Consumer.caller, hs']) rfl⟩
    · next hge =>
      have hjM : s.j = M := Nat.le_antisymm hj (Nat.not_lt.mp hge)
      rw [hjM] at hcall
      exact ⟨rfl, rfl, ⟨0, hi, hcall.next hM, by simp, hres, hmatch⟩,
        .quiet (by simp [Consumer.caller, hs'])⟩
  | dequeue e => exact absurd hs' (hpc e)
  | compare v =>
    simp only [consumer, hs'] at hs
    simp only [Consumer.Ok, hs'] at h
    obtain ⟨m, htaken, hcall, hv⟩ := h
    split at hs <;> cases hs
    · next hne =>
      refine ⟨rfl, rfl, ⟨m, hcall.calling.lt_total hcall.index hcall.inner, ?_⟩,
        .quiet (by simp [Consumer.caller, hs'])⟩
      rw [← hv, ← hcall.expected]
      exact hne
    · next heq =>
      exact ⟨rfl, rfl, hcall.afterMatch hM hfreq htaken hv (not_not.mp heq),
        .quiet (Consumer.caller_afterMatch freq hs')⟩
  | finish =>
    simp only [consumer, hs'] at hs
    simp only [Consumer.Ok, hs'] at h
    cases hs
    exact ⟨rfl, rfl, h, .quiet (by simp [Consumer.caller, hs'])⟩
  | done | error =>
    simp only [consumer, hs'] at hs
    cases hs

/-- A step inside the queue is a step of the caller. -/
theorem Consumer.Ok.call [NeZero N] {s s' : Consumer N} {q q' : SimpleQueue N}
    {evs : List (SimpleQueue.CallEvent N)} {e : SimpleQueue.DequeuePc N} (hpc : s.pc = .dequeue e)
    (h : s.Ok n M freq p c) (hs : (consumer n M freq c s).exec q = some (q', s', evs)) :
    (SimpleQueue.dequeuer s.caller).exec q = some (q', s'.caller, evs) ∧
      ((∀ v, .returned v ∈ evs → v = (calls M freq p s.taken).toInt) → s'.Ok n M freq p c) := by
  simp only [consumer, hpc] at hs
  simp only [Consumer.caller, hpc, SimpleQueue.dequeuer]
  simp only [Consumer.Ok, hpc] at h
  obtain ⟨e', rfl, hx⟩ | ⟨v, hret, hx⟩ := SimpleQueue.dequeue_cases hs
  · exact ⟨hx _ _, fun _ => h.goto _ _⟩
  · cases hret
    refine ⟨hx _ _, fun hv => ⟨s.taken, rfl, h.goto _ _, ?_⟩⟩
    rw [hv v (List.mem_singleton_self _), BitVec.ofInt_toInt]

/-! ## Both threads -/

/-- The two threads as callers of the queue. -/
def embed (s : State N) : SimpleQueue.Calls N := ⟨s.mem, s.fst.caller, s.snd.caller⟩

/-- The values of all the producer's calls. -/
def Setup.vals (x : Setup N) : List Int :=
  (List.range (total x.n x.M x.freq)).map fun m => (calls x.M x.freq x.p m).toInt

theorem Setup.getElem?_vals (x : Setup N) {m : Nat} (hm : m < total x.n x.M x.freq) :
    x.vals[m]? = some (calls x.M x.freq x.p m).toInt := by
  rw [Setup.vals, List.getElem?_map, List.getElem?_range hm]
  rfl

section Runs

variable [NeZero N] {x : Setup N} {tr evs : List (SimpleQueue.CallEvent N)} {s s' : State N}

/-- What is dequeued is what the producer has sent. -/
theorem Setup.returned_eq {t : SimpleQueue.Calls N} {v : Int}
    (h : (SimpleQueue.calls x.content x.vals).Runs (tr ++ [.returned v]) t) {m : Nat}
    (hlen : (SimpleQueue.returned tr).length = m) :
    v = (calls x.M x.freq x.p m).toInt := by
  obtain ⟨hret, henq⟩ := SimpleQueue.returned_in_order h
  have hpre : SimpleQueue.returned tr ++ [v] <+: x.vals := by
    have hsnoc : SimpleQueue.returned (tr ++ [.returned v]) = SimpleQueue.returned tr ++ [v] :=
      List.filterMap_append
    rw [← hsnoc]
    exact hret.trans henq
  obtain ⟨rest, hrest⟩ := hpre
  have hget : x.vals[m]? = some v := by
    rw [← hrest, ← hlen]
    simp
  have hm : m < total x.n x.M x.freq := by
    obtain ⟨hlt, -⟩ := List.getElem?_eq_some_iff.mp hget
    simpa [Setup.vals] using hlt
  rw [x.getElem?_vals hm] at hget
  exact (Option.some.inj hget).symm

structure Inv (x : Setup N) (tr : List (SimpleQueue.CallEvent N)) (s : State N) : Prop where
  run : (SimpleQueue.calls x.content x.vals).Runs tr (embed s)
  fst : s.fst.Ok x.n x.M x.freq x.p
  snd : s.snd.Ok x.n x.M x.freq x.p x.c

theorem Inv.init (hM : 0 < x.M) : Inv x [] x.system.init where
  run := .init
  fst := ⟨Nat.zero_le _, Collected.start hM _ _ _, rfl⟩
  snd := ⟨0, Nat.zero_le _, Collected.start hM _ _ _, fun _ => rfl, by
    show (0 : Long) = sumTo x.c (summed x.freq 0 0)
    unfold summed
    split <;> rfl, fun k hk => absurd hk (Nat.not_lt_zero k)⟩

theorem Inv.step (hM : 0 < x.M) (hdvd : x.M ∣ x.n) (hfreq : Checked x.freq) {i : Side}
    (h : Inv x tr s) (hs : x.system.step i s = some (s', evs)) : Inv x (tr ++ evs) s' := by
  obtain ⟨q, p, c⟩ := s
  obtain ⟨hrun, hp, hc⟩ := h
  obtain ⟨q', p', rfl, rfl, hx⟩ | ⟨q', c', rfl, rfl, hx⟩ := Program.step_cases hs
  · by_cases hpc : ∃ v e, p.pc = .enqueue v e
    · obtain ⟨v, e, hpc⟩ := hpc
      obtain ⟨hp', hcall⟩ := hp.call x.vals hM hfreq hpc hx
      refine ⟨hrun.step (i := .fst) trivial ?_, hp', hc⟩
      exact Program.step_fst hcall (SimpleQueue.dequeuer_isExit _)
    · simp only [not_exists] at hpc
      obtain ⟨rfl, rfl, hp', hlocal⟩ := hp.skip hM hdvd hfreq hpc hx
      cases hlocal with
      | quiet hcaller =>
        refine ⟨?_, hp', hc⟩
        rw [List.append_nil, embed, hcaller]
        exact hrun
      | begin v hidle hbegin hsent =>
        refine ⟨hrun.step (i := .fst) trivial ?_, hp', hc⟩
        -- the value of the call is the next one of the list
        have hval : x.vals[p.sent]? = some v.toInt := by
          simp only [Producer.Ok, hbegin, hsent] at hp'
          obtain ⟨hi, hj, hcall, rfl, -⟩ := hp'
          exact x.getElem?_vals (hcall.lt_total hi hj)
        have hcaller : p'.caller = ⟨.call v.toInt .next, p.sent⟩ := by
          rw [Producer.caller, hbegin, hsent]
        simp only [embed, hidle, hcaller]
        refine Program.step_fst ?_ (SimpleQueue.dequeuer_isExit _)
        simp only [SimpleQueue.enqueuer, hval]
        rfl
  · by_cases hpc : ∃ e, c.pc = .dequeue e
    · obtain ⟨e, hpc⟩ := hpc
      obtain ⟨hcall, hc'⟩ := hc.call hpc hx
      have hstep : (SimpleQueue.calls x.content x.vals).step .snd (embed ⟨q, p, c⟩) =
          some (embed ⟨q', p, c'⟩, evs) :=
        Program.step_snd hcall (SimpleQueue.enqueuer_isExit _ _)
      have hrun' := hrun.step trivial hstep
      refine ⟨hrun', hp, hc' fun v hv => ?_⟩
      have hlen := SimpleQueue.length_returned hrun
      obtain ⟨w, rfl, -⟩ | ⟨hno, -⟩ := (SimpleQueue.dequeuer_cases hcall).returns
      · obtain rfl : v = w := by simpa using hv
        exact x.returned_eq hrun' hlen
      · exact absurd hv (hno v)
    · simp only [not_exists] at hpc
      obtain ⟨rfl, rfl, hc', hlocal⟩ := hc.skip hM hdvd hfreq hpc hx
      cases hlocal with
      | quiet hcaller =>
        refine ⟨?_, hp, hc'⟩
        rw [List.append_nil, embed, hcaller]
        exact hrun
      | begin hidle hbegin =>
        refine ⟨hrun.step (i := .snd) trivial ?_, hp, hc'⟩
        simp only [embed, hidle, hbegin]
        exact Program.step_snd rfl (SimpleQueue.enqueuer_isExit _ _)

theorem inv (hM : 0 < x.M) (hdvd : x.M ∣ x.n) (hfreq : Checked x.freq)
    (h : x.system.Runs tr s) : Inv x tr s :=
  h.rule (Inv.init hM) fun _ hI _ hs => hI.step hM hdvd hfreq hs

/-! ## Waiting -/

/-- The thread has ended, or is in its wait loop with the condition of the loop true. -/
def Producer.Waiting (q : SimpleQueue N) (s : Producer N) : Prop :=
  s.pc = .done ∨ s.caller.Spinning q

def Consumer.Waiting (q : SimpleQueue N) (s : Consumer N) : Prop :=
  s.pc = .done ∨ s.caller.Spinning q

/-- Both threads wait, and the run is not over. -/
def Deadlocked (s : State N) : Prop :=
  s.fst.Waiting s.mem ∧ s.snd.Waiting s.mem ∧ ¬ (s.fst.pc = .done ∧ s.snd.pc = .done)

omit [NeZero N] in
/-- A call that waits is one of those to be made. -/
theorem Producer.Ok.sent_lt {q : SimpleQueue N} {s : Producer N} (h : s.Ok n M freq p)
    (hs : s.caller.Spinning q) : s.sent < total n M freq := by
  cases hpc : s.pc with
  | enqueue v e =>
    simp only [Producer.Ok, hpc] at h
    obtain ⟨hi, hj, hcall, -⟩ := h
    exact hcall.lt_total hi hj
  | _ =>
    simp only [Producer.caller, hpc] at hs
    exact hs.elim

omit [NeZero N] in
theorem Consumer.Ok.taken_lt {q : SimpleQueue N} {s : Consumer N} (h : s.Ok n M freq p c)
    (hs : s.caller.Spinning q) : s.taken < total n M freq := by
  cases hpc : s.pc with
  | dequeue e =>
    simp only [Consumer.Ok, hpc] at h
    exact h.calling.lt_total h.index h.inner
  | _ =>
    simp only [Consumer.caller, hpc] at hs
    exact hs.elim

omit [NeZero N] in
theorem Producer.Ok.sent_done {s : Producer N} (h : s.Ok n M freq p) (hpc : s.pc = .done) :
    s.sent = total n M freq ∧ s.producerResult = sumTo p n := by
  simpa only [Producer.Ok, hpc] using h

omit [NeZero N] in
theorem Consumer.Ok.taken_done {s : Consumer N} (h : s.Ok n M freq p c) (hpc : s.pc = .done) :
    s.taken = total n M freq ∧ s.consumerResult = sumTo c n ∧
      Matched M freq p c (total n M freq) := by
  simpa only [Consumer.Ok, hpc] using h

theorem Inv.not_deadlocked (hN : 2 ≤ N) (h : Inv x tr s) : ¬ Deadlocked s := by
  rintro ⟨hp, hc, hdone⟩
  have hinv := (SimpleQueue.refines_fifo h.run).1
  rcases hp with hp | hp <;> rcases hc with hc | hc
  · exact hdone ⟨hp, hc⟩
  · have hempty : s.snd.taken = s.fst.sent := hinv.empty_of_spinning hc
    have hsent := (h.fst.sent_done hp).1
    have htaken := h.snd.taken_lt hc
    omega
  · have hfull : s.fst.sent + 1 = s.snd.taken + N := hinv.full_of_spinning hp
    have hsent := h.fst.sent_lt hp
    have htaken := (h.snd.taken_done hc).1
    omega
  · have hfull : s.fst.sent + 1 = s.snd.taken + N := hinv.full_of_spinning hp
    have hempty : s.snd.taken = s.fst.sent := hinv.empty_of_spinning hc
    omega

end Runs

/-! ## Detection -/

theorem matched_total : Matched M freq p c (total n M freq) ↔ Agree n M freq p c := by
  unfold Matched total Agree calls
  split <;> rfl

/-- The XOR of two ranges is the XOR of the pointwise differences. -/
theorem xorRange_xor (f g : Nat → Long) (lo k : Nat) :
    xorRange f lo k ^^^ xorRange g lo k = xorRange (fun i => f i ^^^ g i) lo k := by
  induction k with
  | zero => exact BitVec.xor_self
  | succ k ih =>
    simp only [xorRange]
    rw [← ih]
    ac_rfl

theorem xorRange_eq_zero {d : Nat → Long} {lo k : Nat} (h : ∀ i < k, d (lo + i) = 0) :
    xorRange d lo k = 0 := by
  induction k with
  | zero => rfl
  | succ k ih =>
    rw [xorRange, ih fun i hi => h i (by omega), h k (Nat.lt_succ_self k)]
    rfl

/-- A single difference shows in the XOR. -/
theorem xorRange_single {d : Nat → Long} {lo k : Nat} (hj : j < k)
    (h : ∀ i < k, i ≠ j → d (lo + i) = 0) : xorRange d lo k = d (lo + j) := by
  induction k with
  | zero => cases hj
  | succ k ih =>
    by_cases hjk : j = k
    · subst hjk
      rw [xorRange, xorRange_eq_zero fun i hi => h i (by omega) (by omega)]
      exact BitVec.zero_xor
    · rw [xorRange, ih (by omega) fun i hi => h i (by omega), h k (Nat.lt_succ_self k) (by omega)]
      exact BitVec.xor_zero

/-- A corruption of one value of a group is visible in the XOR of the group. -/
theorem xorRange_ne {lo k : Nat} (hj : j < k) (hne : p (lo + j) ≠ c (lo + j))
    (h : ∀ i < k, i ≠ j → p (lo + i) = c (lo + i)) : xorRange p lo k ≠ xorRange c lo k := by
  intro heq
  have hsingle : xorRange (fun i => p i ^^^ c i) lo k = p (lo + j) ^^^ c (lo + j) :=
    xorRange_single hj fun i hi hij => by
      show p (lo + i) ^^^ c (lo + i) = 0
      rw [h i hi hij]
      exact BitVec.xor_self
  rw [← xorRange_xor, heq, BitVec.xor_self] at hsingle
  exact hne (BitVec.xor_eq_zero_iff.mp hsingle.symm)

/--
**What the check frequencies detect.** For all streams `p` and `c` of `NUM_VALUES` values, this
number a multiple of `MODULO`, and every interleaving:

* the consumer finishes only if the streams agree as far as the mode can tell, and takes its error
  exit only if they do not;
* with `CheckFrequency_Encoding` it does not finish if one value of a group is corrupted;
* the threads never wait for each other;
* when both finish with equal streams, both results are the wrapping sum of the values.
-/
theorem checkFrequencies_detect [NeZero N] (hN : 2 ≤ N) {x : Setup N} (hM : 0 < x.M)
    (hdvd : x.M ∣ x.n) (hfreq : Checked x.freq) {tr : List (SimpleQueue.CallEvent N)}
    {s : State N} (h : x.system.Runs tr s) :
    (s.snd.pc = .done → Agree x.n x.M x.freq x.p x.c) ∧
    (s.snd.pc = .error → ¬ Agree x.n x.M x.freq x.p x.c) ∧
    (x.freq = .encoding → (∃ g < x.n / x.M, ∃ j < x.M, x.p (x.M * g + j) ≠ x.c (x.M * g + j) ∧
      ∀ k < x.M, k ≠ j → x.p (x.M * g + k) = x.c (x.M * g + k)) → s.snd.pc ≠ .done) ∧
    ¬ Deadlocked s ∧
    (s.fst.pc = .done → s.snd.pc = .done → (∀ i < x.n, x.p i = x.c i) →
      s.fst.producerResult = ∑ i ∈ Finset.range x.n, x.c i ∧
      s.snd.consumerResult = ∑ i ∈ Finset.range x.n, x.c i) := by
  have hinv := inv hM hdvd hfreq h
  have hdone : s.snd.pc = .done → Agree x.n x.M x.freq x.p x.c := fun hpc =>
    matched_total.mp (hinv.snd.taken_done hpc).2.2
  refine ⟨hdone, ?_, ?_, hinv.not_deadlocked hN, ?_⟩
  · intro hpc hagree
    have hsnd := hinv.snd
    simp only [Consumer.Ok, hpc] at hsnd
    obtain ⟨m, hm, hne⟩ := hsnd
    exact hne (matched_total.mpr hagree m hm)
  · rintro henc ⟨g, hg, j, hj, hne, heq⟩ hpc
    have hagree := hdone hpc
    rw [Agree, if_pos henc] at hagree
    exact xorRange_ne hj hne heq (hagree g hg)
  · intro hp hc heq
    have hsum : sumTo x.p x.n = sumTo x.c x.n :=
      Finset.sum_congr rfl fun i hi => heq i (Finset.mem_range.mp hi)
    refine ⟨?_, (hinv.snd.taken_done hc).2.1⟩
    rw [(hinv.fst.sent_done hp).2]
    exact hsum

/-- Two values a group. First the second value of the only group is corrupted, and then none. -/
theorem checkFrequencies_detect_small :
    (∃ tr s, (Setup.system (N := 2) ⟨2, 2, .encoding, fun i => BitVec.ofNat 64 (i + 1),
        fun i => BitVec.ofNat 64 (2 * i + 1), fun _ => 0, 0, fun _ => 0⟩).Runs tr s ∧
      s.snd.pc = .error ∧ ¬ Agree 2 2 .encoding (fun i => BitVec.ofNat 64 (i + 1))
        (fun i => BitVec.ofNat 64 (2 * i + 1))) ∧
    ∃ tr s, (Setup.system (N := 2) ⟨2, 2, .encoding, fun i => BitVec.ofNat 64 (i + 1),
        fun i => BitVec.ofNat 64 (i + 1), fun _ => 0, 0, fun _ => 0⟩).Runs tr s ∧
      s.fst.pc = .done ∧ s.snd.pc = .done ∧
      s.fst.producerResult = 3 ∧ s.snd.consumerResult = 3 := by
  constructor
  · obtain ⟨tr, s, hr, herr⟩ := System.exists_runs
      (Setup.system (N := 2) ⟨2, 2, .encoding, fun i => BitVec.ofNat 64 (i + 1),
        fun i => BitVec.ofNat 64 (2 * i + 1), fun _ => 0, 0, fun _ => 0⟩)
      (turns [(7, 9)]) (fun _ s => s.snd.pc = .error) (by decide +kernel)
    have hdetect := checkFrequencies_detect (Nat.le_refl 2) (by decide) (Nat.dvd_refl 2)
      (.inr (.inr rfl)) hr
    exact ⟨tr, s, hr, herr, hdetect.2.1 herr⟩
  · obtain ⟨tr, s, hr, hp, hc⟩ := System.exists_runs
      (Setup.system (N := 2) ⟨2, 2, .encoding, fun i => BitVec.ofNat 64 (i + 1),
        fun i => BitVec.ofNat 64 (i + 1), fun _ => 0, 0, fun _ => 0⟩)
      (turns [(9, 11)]) (fun _ s => s.fst.pc = .done ∧ s.snd.pc = .done) (by decide +kernel)
    have hdetect := checkFrequencies_detect (Nat.le_refl 2) (by decide) (Nat.dvd_refl 2)
      (.inr (.inr rfl)) hr
    obtain ⟨hfst, hsnd⟩ := hdetect.2.2.2.2 hp hc fun _ _ => rfl
    exact ⟨tr, s, hr, hp, hc, hfst, hsnd⟩

end SimpleQueueTest

end TsxProject
