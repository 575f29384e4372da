import TsxProject.Infra.Parallel
import TsxProject.Infra.TrialDivision
import TsxProject.ThreadUtils

/-!
# The test of core affinity

`thread_affinity_test` of `TestCoreAffinity.c`: each thread searches for divisors of the values of
its range, and counts. `values` is only read, `results` has a place for each thread. The comparison
`j < sqrt(values[i])` is exact. Pinning a thread to its core is left out, but not what is done to
`__thread_id` for it.

The flag `isPrime` is set where a divisor is found, and the search stops before the square root: the
test counts the composite numbers without the squares of primes.

* `results_eq` — what the test stores
* `affinity_iff` — when this is the number of primes
-/

namespace TsxProject

open Infra

namespace CoreAffinity

inductive Pc where
  /-- `i < endIndex` -/
  | loop
  /-- `j < sqrt(values[i])` -/
  | search
  /-- `values[i] % j == 0` -/
  | divide
  /-- `if(isPrime)`, and `i++` -/
  | count
  /-- `results[__thread_id] = localResult` -/
  | store
  | done
  deriving DecidableEq

/-- A thread. -/
structure Worker where
  pc : Pc
  threadId : Nat
  i : Nat
  endIndex : Nat
  j : Nat
  isPrime : Bool
  localResult : Nat

/-- `__thread_id` while the thread is being pinned to a core. -/
def coreId (useHyperThread : Bool) (arg : Nat) : Nat :=
  if useHyperThread ∧ arg = 1 then 2 else arg

/-- `__thread_id` after that. -/
def threadId (useHyperThread : Bool) (arg : Nat) : Nat :=
  if useHyperThread ∧ coreId useHyperThread arg = 2 then 1 else coreId useHyperThread arg

def Worker.start (useHyperThread : Bool) (n T : Nat) (t : Fin T) : Worker where
  pc := .loop
  threadId := CoreAffinity.threadId useHyperThread t
  i := rangeStart n T (CoreAffinity.threadId useHyperThread t)
  endIndex := rangeEnd n T (CoreAffinity.threadId useHyperThread t)
  j := 0
  isPrime := false
  localResult := 0

/-- `thread_affinity_test`; the shared memory is the array of results -/
def threadAffinityTest (values : Nat → Nat) (T : Nat) :
    Parallel (Fin T) Unit (Nat → Nat) Worker Empty where
  next _ _ results s :=
    match s.pc with
    | .loop =>
      if s.i < s.endIndex then
        some (results, { s with isPrime := false, j := 2, pc := .search }, [])
      else some (results, { s with pc := .store }, [])
    | .search =>
      if s.j * s.j < values s.i then some (results, { s with pc := .divide }, [])
      else some (results, { s with pc := .count }, [])
    | .divide =>
      if values s.i % s.j = 0 then some (results, { s with isPrime := true, pc := .count }, [])
      else some (results, { s with j := s.j + 1, pc := .search }, [])
    | .count =>
      let localResult := if s.isPrime then s.localResult + 1 else s.localResult
      some (results, { s with localResult := localResult, i := s.i + 1, pc := .loop }, [])
    | .store =>
      some (Function.update results s.threadId s.localResult, { s with pc := .done }, [])
    | .done => none

abbrev State (T : Nat) : Type := Threads (Fin T) (Nat → Nat) Worker

/-- The threads of the test, started with the identifiers `0 .. T - 1`. -/
def system (values : Nat → Nat) (useHyperThread : Bool) (n T : Nat) (results₀ : Nat → Nat) :
    System (Fin T × Unit) (State T) Empty :=
  (threadAffinityTest values T).system ⟨results₀, Worker.start useHyperThread n T⟩

/-- All threads have been joined. -/
def Finished {T : Nat} (st : State T) : Prop := ∀ t, (st.regs t).pc = .done

/-- The number of primes among `values[startIndex .. endIndex - 1]`. -/
def primes (values : Nat → Nat) (startIndex endIndex : Nat) : Nat :=
  ((Finset.Ico startIndex endIndex).filter fun i => (values i).Prime).card

/-- The number of composite numbers other than the squares of primes. -/
def composites (values : Nat → Nat) (startIndex endIndex : Nat) : Nat :=
  ((Finset.Ico startIndex endIndex).filter fun i => ProperlyComposite (values i)).card

/-- The results are the numbers of primes, for each thread and together. -/
def CountsPrimes (values : Nat → Nat) (n T : Nat) (results : Nat → Nat) : Prop :=
  (∀ t, t < T → results t = primes values (rangeStart n T t) (rangeEnd n T t)) ∧
    ∑ t ∈ Finset.range T, results t = primes values 0 n

variable {values results results' results₀ : Nat → Nat} {useHyperThread : Bool} {n T : Nat}
  {t u : Fin T} {s s' : Worker} {evs tr : List Empty} {st : State T} {w : Unit}

/-! ## One thread -/

/-- What a step can do. -/
inductive Step (values : Nat → Nat) (results : Nat → Nat) (s : Worker) :
    (Nat → Nat) → Worker → Prop where
  | enter : s.pc = .loop → s.i < s.endIndex →
      Step values results s results { s with isPrime := false, j := 2, pc := .search }
  | exit : s.pc = .loop → s.endIndex ≤ s.i → Step values results s results { s with pc := .store }
  | below : s.pc = .search → s.j * s.j < values s.i →
      Step values results s results { s with pc := .divide }
  | stop : s.pc = .search → values s.i ≤ s.j * s.j →
      Step values results s results { s with pc := .count }
  | found : s.pc = .divide → s.j ∣ values s.i →
      Step values results s results { s with isPrime := true, pc := .count }
  | next : s.pc = .divide → ¬ s.j ∣ values s.i →
      Step values results s results { s with j := s.j + 1, pc := .search }
  | count : s.pc = .count →
      Step values results s results
        { s with
          localResult := if s.isPrime then s.localResult + 1 else s.localResult,
          i := s.i + 1, pc := .loop }
  | store : s.pc = .store →
      Step values results s (Function.update results s.threadId s.localResult)
        { s with pc := .done }

theorem step_cases
    (hs : (threadAffinityTest values T).next t w results s = some (results', s', evs)) :
    Step values results s results' s' := by
  cases hpc : s.pc with
  | loop =>
    simp only [threadAffinityTest, hpc] at hs
    split at hs <;> cases hs
    · next hlt => exact .enter hpc hlt
    · next hge => exact .exit hpc (Nat.le_of_not_lt hge)
  | search =>
    simp only [threadAffinityTest, hpc] at hs
    split at hs <;> cases hs
    · next hlt => exact .below hpc hlt
    · next hge => exact .stop hpc (Nat.le_of_not_lt hge)
  | divide =>
    simp only [threadAffinityTest, hpc] at hs
    split at hs <;> cases hs
    · next hdvd => exact .found hpc (Nat.dvd_of_mod_eq_zero hdvd)
    · next hdvd => exact .next hpc fun h => hdvd (Nat.mod_eq_zero_of_dvd h)
  | count =>
    simp only [threadAffinityTest, hpc] at hs
    cases hs
    exact .count hpc
  | store =>
    simp only [threadAffinityTest, hpc] at hs
    cases hs
    exact .store hpc
  | done =>
    simp only [threadAffinityTest, hpc] at hs
    cases hs

theorem composites_self (values : Nat → Nat) (i : Nat) : composites values i i = 0 := by
  unfold composites
  rw [Finset.Ico_self, Finset.filter_empty, Finset.card_empty]

theorem composites_succ {i k : Nat} (h : i ≤ k) :
    composites values i (k + 1) =
      if ProperlyComposite (values k) then composites values i k + 1
      else composites values i k := by
  unfold composites
  rw [← Finset.insert_Ico_right_eq_Ico_add_one h, Finset.filter_insert]
  split
  · exact Finset.card_insert_of_notMem (by simp)
  · rfl

/-- Where a thread is: what it knows of the value it is at. -/
def Worker.Place (values : Nat → Nat) (s : Worker) : Prop :=
  match s.pc with
  | .loop => True
  | .search => s.i < s.endIndex ∧ s.isPrime = false ∧ 2 ≤ s.j ∧ NoDivisorBelow s.j (values s.i)
  | .divide =>
    s.i < s.endIndex ∧ s.isPrime = false ∧ 2 ≤ s.j ∧ NoDivisorBelow s.j (values s.i) ∧
      s.j * s.j < values s.i
  | .count => s.i < s.endIndex ∧ (s.isPrime = true ↔ ProperlyComposite (values s.i))
  | .store | .done => s.i = s.endIndex

/-- Before the value it is at, a thread has counted the composite ones of its range. -/
structure Counted (values : Nat → Nat) (n T k : Nat) (s : Worker) : Prop where
  threadId : s.threadId = k
  endIndex : s.endIndex = rangeEnd n T k
  start_le : rangeStart n T k ≤ s.i
  le_end : s.i ≤ s.endIndex
  localResult : s.localResult = composites values (rangeStart n T k) s.i
  place : s.Place values

theorem Counted.start (values : Nat → Nat) (useHyperThread : Bool) (n T : Nat) (t : Fin T) :
    Counted values n T (CoreAffinity.threadId useHyperThread t)
      (Worker.start useHyperThread n T t) where
  threadId := rfl
  endIndex := rfl
  start_le := Nat.le_refl _
  le_end := rangeStart_le_end
  localResult := (composites_self values _).symm
  place := trivial

theorem Counted.step {k : Nat} (h : Counted values n T k s)
    (hs : Step values results s results' s') : Counted values n T k s' := by
  obtain ⟨hid, hend, hstart, hle, hlocal, hplace⟩ := h
  unfold Worker.Place at hplace
  cases hs with
  | enter hpc hlt => exact ⟨hid, hend, hstart, hle, hlocal, hlt, rfl, Nat.le_refl 2, .two _⟩
  | exit hpc hge => exact ⟨hid, hend, hstart, hle, hlocal, Nat.le_antisymm hle hge⟩
  | below hpc hlt =>
    rw [hpc] at hplace
    obtain ⟨hi, hflag, hj, hnone⟩ := hplace
    exact ⟨hid, hend, hstart, hle, hlocal, hi, hflag, hj, hnone, hlt⟩
  | stop hpc hge =>
    rw [hpc] at hplace
    obtain ⟨hi, hflag, -, hnone⟩ := hplace
    refine ⟨hid, hend, hstart, hle, hlocal, hi, ?_⟩
    dsimp only
    rw [hflag]
    simpa using hnone.not_properlyComposite hge
  | found hpc hdvd =>
    rw [hpc] at hplace
    obtain ⟨hi, -, hj, -, hlt⟩ := hplace
    refine ⟨hid, hend, hstart, hle, hlocal, hi, ?_⟩
    simpa using properlyComposite_of_dvd hj hlt hdvd
  | next hpc hdvd =>
    rw [hpc] at hplace
    obtain ⟨hi, hflag, hj, hnone, -⟩ := hplace
    exact ⟨hid, hend, hstart, hle, hlocal, hi, hflag, Nat.le_succ_of_le hj, hnone.succ hdvd⟩
  | count hpc =>
    rw [hpc] at hplace
    obtain ⟨hi, hflag⟩ := hplace
    refine ⟨hid, hend, Nat.le_succ_of_le hstart, hi, ?_, trivial⟩
    rw [composites_succ hstart, ← hlocal]
    simp only [hflag]
  | store hpc =>
    rw [hpc] at hplace
    exact ⟨hid, hend, hstart, hle, hlocal, hplace⟩

/-- What a thread stores at the end. -/
theorem Counted.stored {k : Nat} (h : Counted values n T k s) (hpc : s.pc = .store) :
    s.localResult = composites values (rangeStart n T k) (rangeEnd n T k) := by
  have hplace := h.place
  unfold Worker.Place at hplace
  rw [hpc] at hplace
  rw [h.localResult, hplace, h.endIndex]

/-! ## All threads -/

theorem counted (h : (system values useHyperThread n T results₀).Runs tr st) (t : Fin T) :
    Counted values n T (threadId useHyperThread t) (st.regs t) := by
  refine Parallel.rule (P := threadAffinityTest values T)
    (I := fun t _ _ s => Counted values n T (threadId useHyperThread t) s) ?_ ?_ ?_ h t
  · exact fun t => Counted.start values useHyperThread n T t
  · intro t w tr st results s evs _ hI _ hs
    exact (hI t).step (step_cases hs)
  · intro t u w tr st results s evs _ hI _ _
    exact hI u

/-- Threads with the same identifier store the same. -/
theorem stored (h : (system values useHyperThread n T results₀).Runs tr st) (t : Fin T)
    (hdone : (st.regs t).pc = .done) :
    st.shared (threadId useHyperThread t) =
      composites values (rangeStart n T (threadId useHyperThread t))
        (rangeEnd n T (threadId useHyperThread t)) := by
  revert hdone
  refine Parallel.rule (P := threadAffinityTest values T)
    (I := fun t _ results s => s.pc = .done → results (threadId useHyperThread t) =
      composites values (rangeStart n T (threadId useHyperThread t))
        (rangeEnd n T (threadId useHyperThread t))) ?_ ?_ ?_ h t
  · intro t hdone
    cases hdone
  · intro t w tr st results s evs hr _ _ hs hdone
    have hcounted := counted hr t
    cases step_cases hs with
    | store hpc =>
      rw [hcounted.threadId, Function.update_self]
      exact hcounted.stored hpc
    | _ => cases hdone
  · intro t u w tr st results s evs hr hI _ hs hdone
    have hcounted := counted hr t
    cases step_cases hs with
    | store hpc =>
      rw [hcounted.threadId]
      by_cases heq : threadId useHyperThread u = threadId useHyperThread t
      · rw [heq, Function.update_self]
        exact hcounted.stored hpc
      · rw [Function.update_of_ne heq]
        exact hI u hdone
    | _ => exact hI u hdone

/-- A place that is no thread's is left alone. -/
theorem untouched {k : Nat} (hk : ∀ t : Fin T, threadId useHyperThread t ≠ k)
    (h : (system values useHyperThread n T results₀).Runs tr st) : st.shared k = results₀ k := by
  refine h.rule (I := fun _ st => st.shared k = results₀ k) rfl ?_
  intro l tr st st' evs hr ih _ hs
  obtain ⟨results, s, hx, rfl⟩ := Parallel.step_cases (P := threadAffinityTest values T) hs
  have hcounted := counted hr l.1
  cases step_cases hx with
  | store hpc =>
    dsimp only
    rw [hcounted.threadId, Function.update_of_ne (hk l.1).symm]
    exact ih
  | _ => exact ih

/-! ## The threads finish -/

/-- The steps that are left for the values from index `i` on, at most. -/
def Worker.remaining (values : Nat → Nat) (s : Worker) (i : Nat) : Nat :=
  ∑ k ∈ Finset.Ico i s.endIndex, (2 * values k + 4)

def Worker.rank (values : Nat → Nat) (s : Worker) : Nat :=
  match s.pc with
  | .loop => s.remaining values s.i + 2
  | .search => s.remaining values (s.i + 1) + 2 * (values s.i + 1 - s.j) + 4
  | .divide => s.remaining values (s.i + 1) + 2 * (values s.i + 1 - s.j) + 3
  | .count => s.remaining values (s.i + 1) + 3
  | .store => 1
  | .done => 0

theorem Worker.Place.divisor_le (h : s.Place values) (hpc : s.pc = .divide) :
    s.j ≤ values s.i := by
  unfold Worker.Place at h
  rw [hpc] at h
  exact Nat.le_trans (Nat.le_mul_self s.j) (Nat.le_of_lt h.2.2.2.2)

theorem Step.rank_lt (hs : Step values results s results' s') (hplace : s.Place values) :
    s'.rank values < s.rank values := by
  unfold Worker.rank
  cases hs with
  | enter hpc hlt =>
    have hfirst : s.remaining values s.i =
        (2 * values s.i + 4) + s.remaining values (s.i + 1) :=
      Finset.sum_eq_sum_Ico_succ_bot hlt _
    rw [hpc]
    show s.remaining values (s.i + 1) + 2 * (values s.i + 1 - 2) + 4 < s.remaining values s.i + 2
    omega
  | exit hpc hge =>
    rw [hpc]
    show 1 < s.remaining values s.i + 2
    omega
  | below hpc hlt =>
    rw [hpc]
    exact Nat.lt_succ_self _
  | stop hpc hge =>
    rw [hpc]
    show s.remaining values (s.i + 1) + 3 <
      s.remaining values (s.i + 1) + 2 * (values s.i + 1 - s.j) + 4
    omega
  | found hpc hdvd =>
    rw [hpc]
    show s.remaining values (s.i + 1) + 3 <
      s.remaining values (s.i + 1) + 2 * (values s.i + 1 - s.j) + 3
    have hle := hplace.divisor_le hpc
    omega
  | next hpc hdvd =>
    rw [hpc]
    show s.remaining values (s.i + 1) + 2 * (values s.i + 1 - (s.j + 1)) + 4 <
      s.remaining values (s.i + 1) + 2 * (values s.i + 1 - s.j) + 3
    have hle := hplace.divisor_le hpc
    omega
  | count hpc =>
    rw [hpc]
    exact Nat.lt_succ_self _
  | store hpc =>
    rw [hpc]
    exact Nat.zero_lt_one

/-- A thread that is not done has a step. -/
theorem exists_next (values results : Nat → Nat) (t : Fin T) (hpc : s.pc ≠ .done) :
    ∃ results' s' evs,
      (threadAffinityTest values T).next t () results s = some (results', s', evs) := by
  cases hs : s.pc with
  | loop | search | divide =>
    simp only [threadAffinityTest, hs]
    split
    · exact ⟨_, _, _, rfl⟩
    · exact ⟨_, _, _, rfl⟩
  | count | store =>
    simp only [threadAffinityTest, hs]
    exact ⟨_, _, _, rfl⟩
  | done => exact absurd hs hpc

theorem exists_finished (h : (system values useHyperThread n T results₀).Runs tr st) :
    ∃ tr' st', ((system values useHyperThread n T results₀).startingIn st).Runs tr' st' ∧
      Finished st' := by
  refine Parallel.exists_done (P := threadAffinityTest values T) (fun s => s.pc = .done)
    (Worker.rank values) ?_ h
  intro tr st t hr ht
  obtain ⟨results', s', evs, hs⟩ := exists_next values st.shared t ht
  exact ⟨(), results', s', evs, trivial, hs, (step_cases hs).rank_lt (counted hr t).place⟩

/-! ## The main result -/

/-- With hyper-threads, thread 2 takes itself for thread 1. -/
theorem threadId_eq (useHyperThread : Bool) (arg : Nat) :
    threadId useHyperThread arg = if useHyperThread ∧ arg = 2 then 1 else arg := by
  unfold threadId coreId
  split_ifs <;> simp_all

/-- What the test leaves at the place of thread `t`. -/
theorem results_eq (h : (system values useHyperThread n T results₀).Runs tr st)
    (hdone : Finished st) {t : Nat} (ht : t < T) :
    st.shared t = if useHyperThread ∧ t = 2 then results₀ t
      else composites values (rangeStart n T t) (rangeEnd n T t) := by
  split
  · next hhyper =>
    refine untouched (fun u => ?_) h
    rw [threadId_eq]
    split
    · omega
    · next hu => exact fun heq => hu ⟨hhyper.1, heq.trans hhyper.2⟩
  · next hhyper =>
    have hid : threadId useHyperThread t = t := by rw [threadId_eq, if_neg hhyper]
    have hstored := stored h ⟨t, ht⟩ (hdone _)
    rwa [hid] at hstored

theorem sum_primes (values : Nat → Nat) (n : Nat) (hT : 0 < T) :
    ∑ t ∈ Finset.range T, primes values (rangeStart n T t) (rangeEnd n T t) =
      primes values 0 n := by
  unfold primes
  simp only [Finset.card_filter]
  rw [sum_range_lengths hT, Finset.range_eq_Ico]

/-- Each thread has as many primes in its range as composite numbers other than the squares of
primes. Where a thread stores nothing at its place, the number of primes is there already. -/
def Balanced (values : Nat → Nat) (useHyperThread : Bool) (n T : Nat) (results₀ : Nat → Nat) :
    Prop :=
  ∀ t, t < T → primes values (rangeStart n T t) (rangeEnd n T t) =
    if useHyperThread ∧ t = 2 then results₀ t
    else composites values (rangeStart n T t) (rangeEnd n T t)

instance (values : Nat → Nat) (useHyperThread : Bool) (n T : Nat) (results₀ : Nat → Nat) :
    Decidable (Balanced values useHyperThread n T results₀) :=
  inferInstanceAs (Decidable (∀ t, t < T → _))

/--
**When the test of core affinity counts primes.** For every array of values, every number of
threads and every order of their steps, the threads can always finish, and then the result of each
thread is the number of primes in its range, and the sum of the results the number of primes in the
array, if and only if the range of each thread has as many primes as composite numbers other than
the squares of primes. With hyper-threads nothing is stored for thread 2.
-/
theorem affinity_iff (values : Nat → Nat) (useHyperThread : Bool) (n : Nat) (hT : 1 ≤ T)
    (results₀ : Nat → Nat) :
    ∀ tr st, (system values useHyperThread n T results₀).Runs tr st →
      (∃ tr' st', ((system values useHyperThread n T results₀).startingIn st).Runs tr' st' ∧
        Finished st') ∧
      (Finished st →
        (CountsPrimes values n T st.shared ↔ Balanced values useHyperThread n T results₀)) := by
  intro tr st h
  refine ⟨exists_finished h, ?_⟩
  intro hdone
  constructor
  · rintro ⟨hresults, -⟩ t ht
    rw [← hresults t ht]
    exact results_eq h hdone ht
  · intro hbalanced
    have hresults : ∀ t, t < T →
        st.shared t = primes values (rangeStart n T t) (rangeEnd n T t) := by
      intro t ht
      rw [hbalanced t ht]
      exact results_eq h hdone ht
    refine ⟨hresults, ?_⟩
    rw [Finset.sum_congr rfl fun t ht => hresults t (Finset.mem_range.mp ht)]
    exact sum_primes values n hT

/-- A prime and a composite number: one of them is counted. -/
theorem affinity_iff_small :
    ∃ tr st, (system (fun i => 7 - i) false 2 1 fun _ => 0).Runs tr st ∧ Finished st ∧
      CountsPrimes (fun i => 7 - i) 2 1 st.shared := by
  have haffinity := affinity_iff (T := 1) (fun i => 7 - i) false 2 (by decide) fun _ => 0
  obtain ⟨tr, st, hr, hdone⟩ := (haffinity [] _ .init).1
  exact ⟨tr, st, hr, hdone, ((haffinity tr st hr).2 hdone).mpr (by decide)⟩

/-- The only value is a prime, and none is counted. -/
theorem prime_not_counted :
    ∃ tr st, (system (fun _ => 7) false 1 1 fun _ => 0).Runs tr st ∧ Finished st ∧
      st.shared 0 = 0 ∧ ¬ CountsPrimes (fun _ => 7) 1 1 st.shared := by
  obtain ⟨tr, st, hr, hdone, hresult⟩ := System.exists_runs
    (system (fun _ => 7) false 1 1 fun _ => 0) (List.replicate 7 (0, ()))
    (fun _ st => (∀ t, (st.regs t).pc = .done) ∧ st.shared 0 = 0) (by decide)
  refine ⟨tr, st, hr, hdone, hresult, ?_⟩
  intro hcounts
  have hprime : primes (fun _ => 7) (rangeStart 1 1 0) (rangeEnd 1 1 0) = 1 := by decide
  rw [hcounts.1 0 Nat.zero_lt_one, hprime] at hresult
  exact absurd hresult (by decide)

end CoreAffinity

end TsxProject
