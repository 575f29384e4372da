import Mathlib.Algebra.BigOperators.Fin
import Mathlib.Data.Finsupp.Weight
import TsxProject.Tsx.Atomicity

/-!
# The test of atomicity without transactions

`Atomicity_Test(nTimes, 0)` of `TestTSX.c`: the fifteen threads run `Atomicity_incrementCounter`,
and `globalCount++` is a load and a store. The accesses are interleaved, each of them atomic. The
counts are below `2 ^ 35`, so that neither the `unsigned long` index nor the `long` total overflows.

* `globalCount_eq_iff` — the total is right exactly when no store separates a load from its store
* `totals_iff` — which totals are possible: from 2 on, all of them
* `atomicity_any` — the test can pass any number of times
-/

namespace TsxProject

open Infra

namespace IncrementCounter

open Atomicity (numThreads finalResult)

inductive Pc where
  /-- `i < NUM_VALUES` -/
  | loop
  /-- `globalCount++`: the load -/
  | load
  /-- and the store -/
  | store (v : Nat)
  /-- `i++` -/
  | next
  | done
  deriving DecidableEq

structure Worker where
  pc : Pc
  i : Nat

inductive Event where
  | loaded (t : Fin numThreads)
  | stored (t : Fin numThreads)
  deriving DecidableEq

/-- `Atomicity_incrementCounter` -/
def incrementCounter (numValues : Nat) : Parallel (Fin numThreads) Unit Nat Worker Event where
  next t _ globalCount s :=
    match s.pc with
    | .loop => some (globalCount, { s with pc := if s.i < numValues then .load else .done }, [])
    | .load => some (globalCount, { s with pc := .store globalCount }, [.loaded t])
    | .store v => some (v + 1, { s with pc := .next }, [.stored t])
    | .next => some (globalCount, { pc := .loop, i := s.i + 1 }, [])
    | .done => none

abbrev State : Type := Threads (Fin numThreads) Nat Worker

/-- One iteration of `Atomicity_Test`, after `globalCount = 0`. -/
def system (numValues : Nat) : System (Fin numThreads × Unit) State Event :=
  (incrementCounter numValues).system ⟨0, fun _ => ⟨.loop, 0⟩⟩

/-- `THREAD_UTILS_StartThreads` returns. -/
def Finished (st : State) : Prop := ∀ t, (st.regs t).pc = .done

/-- `Atomicity_Test(nTimes, 0)` can return `passedTests`. -/
inductive Test (numValues : Nat) : Nat → Nat → Prop where
  | start : Test numValues 0 0
  | iteration {i passedTests : Nat} {tr : List Event} {st : State} :
      Test numValues i passedTests → (system numValues).Runs tr st → Finished st →
      Test numValues (i + 1)
        (if finalResult numValues = BitVec.ofNat 64 st.shared then passedTests + 1
          else passedTests)

variable {numValues : Nat} {t u : Fin numThreads} {tr evs : List Event} {m m' : Nat}
  {s s' : Worker} {w : Unit} {st : State}

/-- What a step can do. -/
inductive Step (numValues : Nat) (t : Fin numThreads) (m : Nat) (s : Worker) :
    Nat → Worker → List Event → Prop where
  | enter : s.pc = .loop → s.i < numValues → Step numValues t m s m { s with pc := .load } []
  | exit : s.pc = .loop → numValues ≤ s.i → Step numValues t m s m { s with pc := .done } []
  | load : s.pc = .load → Step numValues t m s m { s with pc := .store m } [.loaded t]
  | store (v : Nat) : s.pc = .store v →
      Step numValues t m s (v + 1) { s with pc := .next } [.stored t]
  | next : s.pc = .next → Step numValues t m s m { pc := .loop, i := s.i + 1 } []

theorem step_cases (hs : (incrementCounter numValues).next t w m s = some (m', s', evs)) :
    Step numValues t m s m' s' evs := by
  cases hpc : s.pc with
  | loop =>
    simp only [incrementCounter, hpc] at hs
    cases hs
    split
    · next hlt => exact .enter hpc hlt
    · next hge => exact .exit hpc (Nat.le_of_not_lt hge)
  | load =>
    simp only [incrementCounter, hpc] at hs
    cases hs
    exact .load hpc
  | store v =>
    simp only [incrementCounter, hpc] at hs
    cases hs
    exact .store v hpc
  | next =>
    simp only [incrementCounter, hpc] at hs
    cases hs
    exact .next hpc
  | done =>
    simp only [incrementCounter, hpc] at hs
    cases hs

/-! ## How often a thread has stored -/

/-- The stores of a thread. -/
def Worker.stored (s : Worker) : Nat :=
  match s.pc with
  | .next => s.i + 1
  | _ => s.i

/-- The stores of all threads. -/
def stores (tr : List Event) : Nat :=
  tr.countP fun
    | .stored _ => true
    | .loaded _ => false

structure Counts (numValues : Nat) (t : Fin numThreads) (tr : List Event) (s : Worker) : Prop where
  count : tr.count (.stored t) = s.stored
  le : s.stored ≤ numValues
  more : s.pc = .load ∨ (∃ v, s.pc = .store v) → s.i < numValues
  all : s.pc = .done → s.i = numValues

theorem Counts.step (h : Counts numValues t tr s) (hs : Step numValues t m s m' s' evs) :
    Counts numValues t (tr ++ evs) s' := by
  obtain ⟨hcount, hle, hmore, hall⟩ := h
  rw [Worker.stored.eq_def] at hcount hle
  cases hs with
  | enter hpc hlt =>
    rw [hpc] at hcount hle
    rw [List.append_nil]
    exact ⟨hcount, hle, fun _ => hlt, by simp⟩
  | exit hpc hge =>
    rw [hpc] at hcount hle
    rw [List.append_nil]
    exact ⟨hcount, hle, by simp, fun _ => Nat.le_antisymm hle hge⟩
  | load hpc =>
    rw [hpc] at hcount hle
    have hlt := hmore (.inl hpc)
    refine ⟨?_, hle, fun _ => hlt, by simp⟩
    rw [List.count_append, hcount]
    simp [Worker.stored]
  | store v hpc =>
    rw [hpc] at hcount hle
    have hlt := hmore (.inr ⟨v, hpc⟩)
    refine ⟨?_, hlt, by simp, by simp⟩
    rw [List.count_append, hcount]
    simp [Worker.stored]
  | next hpc =>
    rw [hpc] at hcount hle
    rw [List.append_nil]
    exact ⟨hcount, hle, by simp, by simp⟩

/-- The events of a step are those of its thread. -/
theorem Step.count_of_ne (hs : Step numValues t m s m' s' evs) (hne : u ≠ t) :
    evs.count (.stored u) = 0 := by
  cases hs with
  | store v hpc => simp [Ne.symm hne]
  | _ => simp

theorem counts (h : (system numValues).Runs tr st) (t : Fin numThreads) :
    Counts numValues t tr (st.regs t) := by
  refine Parallel.rule (I := fun t tr _ s => Counts numValues t tr s) ?_ ?_ ?_ h t
  · exact fun t => ⟨rfl, Nat.zero_le _, by simp, by simp⟩
  · intro t w tr s m r evs _ hI _ hs
    exact (hI t).step (step_cases hs)
  · intro t u w tr s m r evs _ hI hne hs
    obtain ⟨hcount, hle, hmore, hall⟩ := hI u
    refine ⟨?_, hle, hmore, hall⟩
    rw [List.count_append, (step_cases hs).count_of_ne hne, hcount, Nat.add_zero]

/-- The threads that have finished have stored as often as they should. -/
theorem stores_eq (h : (system numValues).Runs tr st) (hdone : Finished st) :
    stores tr = numThreads * numValues := by
  let owner : Event → Fin numThreads := fun
    | .stored t => t
    | .loaded t => t
  have hsum : stores tr = ∑ t : Fin numThreads, tr.count (.stored t) := by
    rw [stores, countP_eq_sum owner]
    refine Finset.sum_congr rfl fun t _ => ?_
    unfold List.count
    congr 1
    funext e
    cases e with
    | loaded u => simp
    | stored u => simp [owner, beq_eq_decide]
  have heach (t : Fin numThreads) : tr.count (.stored t) = numValues := by
    have hcounts := counts h t
    rw [hcounts.count, Worker.stored, hdone t]
    exact hcounts.all (hdone t)
  rw [hsum, Finset.sum_congr rfl fun t _ => heach t]
  simp

/-! ## Lost updates -/

/-- The stores since the last load of thread `t`. -/
def since (t : Fin numThreads) (tr : List Event) : Nat :=
  tr.foldl (fun k e =>
    match e with
    | .loaded u => if u = t then 0 else k
    | .stored _ => k + 1) 0

/-- No store falls between a load of a thread and the store that follows it. -/
def Undisturbed : List Event → Prop :=
  Preceded fun before e => ∀ t, e = .stored t → since t before = 0

theorem since_loaded (t u : Fin numThreads) (tr : List Event) :
    since t (tr ++ [.loaded u]) = if u = t then 0 else since t tr := by
  simp [since]

theorem since_stored (t u : Fin numThreads) (tr : List Event) :
    since t (tr ++ [.stored u]) = since t tr + 1 := by
  simp [since]

theorem stores_loaded (t : Fin numThreads) (tr : List Event) :
    stores (tr ++ [.loaded t]) = stores tr := by
  simp [stores]

theorem stores_stored (t : Fin numThreads) (tr : List Event) :
    stores (tr ++ [.stored t]) = stores tr + 1 := by
  simp [stores]

theorem undisturbed_loaded : Undisturbed (tr ++ [.loaded t]) ↔ Undisturbed tr := by
  unfold Undisturbed
  rw [preceded_snoc_iff]
  simp

theorem undisturbed_stored :
    Undisturbed (tr ++ [.stored t]) ↔ Undisturbed tr ∧ since t tr = 0 := by
  unfold Undisturbed
  rw [preceded_snoc_iff]
  simp

/-- The value that a thread is about to store, plus one. -/
structure Pending (t : Fin numThreads) (tr : List Event) (v : Nat) : Prop where
  le : v + since t tr ≤ stores tr
  exact : since t tr = 0 → (v = stores tr ↔ Undisturbed tr)

/-- What the total is worth. -/
structure Total (tr : List Event) (m : Nat) : Prop where
  le : m ≤ stores tr
  exact : m = stores tr ↔ Undisturbed tr

theorem Pending.other {v : Nat} (h : Pending t tr v) (hne : t ≠ u)
    (hs : Step numValues u m s m' s' evs) : Pending t (tr ++ evs) v := by
  obtain ⟨hle, hexact⟩ := h
  cases hs with
  | enter | exit | next =>
    rw [List.append_nil]
    exact ⟨hle, hexact⟩
  | load =>
    constructor
    · rw [since_loaded, if_neg hne.symm, stores_loaded]
      exact hle
    · rw [since_loaded, if_neg hne.symm, stores_loaded, undisturbed_loaded]
      exact hexact
  | store v =>
    constructor
    · rw [since_stored, stores_stored]
      omega
    · rw [since_stored]
      intro hzero
      cases hzero

theorem Total.step (h : Total tr m) (hp : ∀ v, s.pc = .store v → Pending t tr v)
    (hs : Step numValues t m s m' s' evs) : Total (tr ++ evs) m' := by
  obtain ⟨hle, hexact⟩ := h
  cases hs with
  | enter | exit | next =>
    rw [List.append_nil]
    exact ⟨hle, hexact⟩
  | load =>
    constructor
    · rw [stores_loaded]
      exact hle
    · rw [stores_loaded, undisturbed_loaded]
      exact hexact
  | store v hpc =>
    obtain ⟨hvle, hvexact⟩ := hp v hpc
    constructor
    · rw [stores_stored]
      omega
    · rw [stores_stored, undisturbed_stored, Nat.succ_inj]
      constructor
      · intro heq
        -- nothing was stored since the load, and nothing was lost before
        have hzero : since t tr = 0 := by omega
        exact ⟨(hvexact hzero).mp heq, hzero⟩
      · rintro ⟨hund, hzero⟩
        exact (hvexact hzero).mpr hund

theorem total (h : (system numValues).Runs tr st) :
    Total tr st.shared ∧ ∀ t v, (st.regs t).pc = .store v → Pending t tr v := by
  refine h.rule (I := fun tr st =>
    Total tr st.shared ∧ ∀ t v, (st.regs t).pc = .store v → Pending t tr v) ?_ ?_
  · refine ⟨⟨Nat.le_refl 0, fun _ => Preceded.nil _, fun _ => rfl⟩, ?_⟩
    intro t v hpc
    cases hpc
  · rintro l tr s s' evs _ ⟨htotal, hpending⟩ _ hs
    obtain ⟨m, r, hx, rfl⟩ := Parallel.step_cases hs
    have hstep := step_cases hx
    refine ⟨htotal.step (hpending l.1) hstep, ?_⟩
    intro t v hpc
    dsimp only at hpc
    by_cases ht : t = l.1
    · subst ht
      rw [Function.update_self] at hpc
      cases hstep with
      | load hload =>
        cases hpc
        constructor
        · rw [since_loaded, if_pos rfl, stores_loaded]
          exact htotal.le
        · rw [stores_loaded, undisturbed_loaded]
          exact fun _ => htotal.exact
      | _ => cases hpc
    · rw [Function.update_of_ne ht] at hpc
      exact (hpending t v hpc).other ht hstep

/--
**When no update is lost.** `globalCount` is never more than the number of stores, and it is that
number exactly as long as no store has fallen between a load of a thread and the store that follows
it; an update that is lost is not made up for. So a finished test has the total it expects if and
only if the increments did not overlap.
-/
theorem globalCount_eq_iff (h : (system numValues).Runs tr st) :
    st.shared ≤ stores tr ∧ (st.shared = stores tr ↔ Undisturbed tr) ∧
      (Finished st → (st.shared = numThreads * numValues ↔ Undisturbed tr)) := by
  obtain ⟨hle, hexact⟩ := (total h).1
  refine ⟨hle, hexact, ?_⟩
  intro hdone
  rw [← stores_eq h hdone]
  exact hexact

/-- A thread that moves between the load and the store of another one. -/
theorem globalCount_eq_iff_small :
    ∃ tr st, (system 1).Runs tr st ∧ st.shared = 1 ∧ stores tr = 2 ∧ ¬ Undisturbed tr := by
  obtain ⟨tr, st, hr, hshared, hstores⟩ := System.exists_runs (system 1)
    [(0, ()), (0, ()), (1, ()), (1, ()), (1, ()), (0, ())]
    (fun tr st => st.shared = 1 ∧ stores tr = 2) (by decide +kernel)
  refine ⟨tr, st, hr, hshared, hstores, ?_⟩
  intro hund
  have hexact := (globalCount_eq_iff hr).2.1.mpr hund
  omega

/-! ## The least total -/

/-- The last store was by a thread that has stored; if it was not the first store of this thread,
the thread had loaded what was not zero. -/
structure AtLeast (st : State) : Prop where
  shared : (∀ t, (st.regs t).stored = 0) ∨
    1 ≤ st.shared ∧ ∃ t, 1 ≤ (st.regs t).stored ∧ (2 ≤ (st.regs t).stored → 2 ≤ st.shared)
  pending : ∀ t v, (st.regs t).pc = .store v → 1 ≤ (st.regs t).i → 1 ≤ v

/-- A step that stores nothing. -/
theorem AtLeast.quiet (h : AtLeast st) (hstored : s'.stored = (st.regs t).stored)
    (hpending : ∀ v, s'.pc = .store v → 1 ≤ s'.i → 1 ≤ v) :
    AtLeast ⟨st.shared, Function.update st.regs t s'⟩ := by
  have hsame (u : Fin numThreads) :
      (Function.update st.regs t s' u).stored = (st.regs u).stored := by
    by_cases hu : u = t
    · rw [hu, Function.update_self, hstored]
    · rw [Function.update_of_ne hu]
  constructor
  · dsimp only
    simp only [hsame]
    exact h.shared
  · intro u v hpc hi
    dsimp only at hpc hi
    by_cases hu : u = t
    · subst hu
      rw [Function.update_self] at hpc hi
      exact hpending v hpc hi
    · rw [Function.update_of_ne hu] at hpc hi
      exact h.pending u v hpc hi

theorem AtLeast.step (h : AtLeast st) (hs : Step numValues t st.shared (st.regs t) m' s' evs) :
    AtLeast ⟨m', Function.update st.regs t s'⟩ := by
  cases hs with
  | enter hpc | exit hpc | next hpc =>
    refine h.quiet (by simp [Worker.stored, hpc]) ?_
    intro v hv
    cases hv
  | load hpc =>
    refine h.quiet (by simp [Worker.stored, hpc]) ?_
    intro v hv hi
    cases hv
    rcases h.shared with hnone | ⟨hshared, -⟩
    · -- the thread itself has stored
      have hzero := hnone t
      rw [Worker.stored, hpc] at hzero
      dsimp only at hi hzero
      omega
    · exact hshared
  | store v hpc =>
    constructor
    · refine .inr ⟨Nat.succ_le_succ (Nat.zero_le v), t, ?_, ?_⟩
      · dsimp only
        rw [Function.update_self]
        exact Nat.succ_le_succ (Nat.zero_le _)
      · dsimp only
        rw [Function.update_self]
        intro htwo
        have hv := h.pending t v hpc (Nat.le_of_succ_le_succ htwo)
        omega
    · intro u v' hpc' hi
      dsimp only at hpc' hi
      by_cases hu : u = t
      · subst hu
        rw [Function.update_self] at hpc'
        cases hpc'
      · rw [Function.update_of_ne hu] at hpc' hi
        exact h.pending u v' hpc' hi

theorem atLeast (h : (system numValues).Runs tr st) : AtLeast st := by
  refine h.rule (I := fun _ st => AtLeast st) ?_ ?_
  · refine ⟨.inl fun t => rfl, ?_⟩
    intro t v hpc
    cases hpc
  · intro l tr s s' evs _ ih _ hs
    obtain ⟨m, r, hx, rfl⟩ := Parallel.step_cases hs
    exact ih.step (step_cases hx)

theorem le_total (h : (system numValues).Runs tr st) (hdone : Finished st) :
    min 2 numValues ≤ st.shared := by
  have hstored (t : Fin numThreads) : (st.regs t).stored = numValues := by
    rw [Worker.stored, hdone t]
    exact (counts h t).all (hdone t)
  rcases (atLeast h).shared with hnone | ⟨hone, t, -, htwo⟩
  · have hzero := (hstored 0).symm.trans (hnone 0)
    omega
  · rw [hstored] at htwo
    omega

/-! ## Every other total -/

theorem next_enter (t : Fin numThreads) (m : Nat) {i : Nat} (h : i < numValues) :
    (incrementCounter numValues).next t () m ⟨.loop, i⟩ = some (m, ⟨.load, i⟩, []) := by
  simp only [incrementCounter, if_pos h]

/-- A thread that moves alone loses nothing. -/
theorem alone_increments (t : Fin numThreads) (m i : Nat) {k : Nat} (h : i + k ≤ numValues) :
    ∃ evs, (incrementCounter numValues).Alone t m ⟨.loop, i⟩ evs (m + k) ⟨.loop, i + k⟩ := by
  induction k with
  | zero => exact ⟨[], .refl _ _⟩
  | succ k ih =>
    obtain ⟨evs, halone⟩ := ih (by omega)
    have henter := next_enter t (m + k) (show i + k < numValues by omega)
    exact ⟨_, halone.trans (.silent henter (.emit (w := ()) rfl (.emit (w := ()) rfl
      (.silent (w := ()) rfl (.refl _ _)))))⟩

theorem alone_load (t : Fin numThreads) (m : Nat) {i : Nat} (h : i < numValues) :
    ∃ evs, (incrementCounter numValues).Alone t m ⟨.loop, i⟩ evs m ⟨.store m, i⟩ :=
  ⟨_, .silent (next_enter t m h) (.emit (w := ()) rfl (.refl _ _))⟩

theorem alone_store (t : Fin numThreads) (m v i : Nat) :
    ∃ evs, (incrementCounter numValues).Alone t m ⟨.store v, i⟩ evs (v + 1) ⟨.loop, i + 1⟩ :=
  ⟨_, .emit (w := ()) rfl (.silent (w := ()) rfl (.refl _ _))⟩

/-- What is left is done without a loss. -/
theorem exists_finished_from (d : Fin numThreads → Nat) (hd : ∀ t, d t ≤ numValues)
    (h : (system numValues).Runs tr st) (hregs : ∀ t, st.regs t = ⟨.loop, d t⟩) :
    ∃ tr' st', (system numValues).Runs tr' st' ∧ Finished st' ∧
      st'.shared = st.shared + ∑ t, (numValues - d t) := by
  obtain ⟨tr', st', hr, hshared, hgoal, -⟩ :=
    Parallel.Alone.runs_list (fun _ => ⟨.done, numValues⟩) (fun t => numValues - d t)
      (List.nodup_finRange numThreads) (fun t _ m => by
        obtain ⟨evs, halone⟩ :=
          alone_increments t m (d t) (Nat.le_of_eq (Nat.add_sub_of_le (hd t)))
        rw [Nat.add_sub_of_le (hd t)] at halone
        rw [hregs t]
        have hexit : (incrementCounter numValues).next t () (m + (numValues - d t))
            ⟨.loop, numValues⟩ = some (m + (numValues - d t), ⟨.done, numValues⟩, []) := by
          simp only [incrementCounter, Nat.lt_irrefl, if_false]
        exact ⟨_, halone.trans (.silent hexit (.refl _ _))⟩) h
  refine ⟨tr', st', hr, fun t => ?_, ?_⟩
  · rw [hgoal t (List.mem_finRange t)]
  · rw [hshared, Fin.sum_univ_def]

theorem runs_alone (h : (system numValues).Runs tr st) (hm : st.shared = m)
    (hs : st.regs t = s) (halone : ∃ evs, (incrementCounter numValues).Alone t m s evs m' s') :
    ∃ tr', (system numValues).Runs tr' ⟨m', Function.update st.regs t s'⟩ := by
  subst hm hs
  obtain ⟨evs, halone⟩ := halone
  exact ⟨_, halone.runs h⟩

/-- Thread 0 loads first and stores 1 when the others have done their part. -/
theorem exists_reset (hn : 0 < numValues) (k : Fin numThreads → Nat) (hk : ∀ t, k t ≤ numValues) :
    ∃ tr, (system numValues).Runs tr
      ⟨1, Function.update (fun t => ⟨.loop, k t⟩) 0 ⟨.loop, 1⟩⟩ := by
  have hinit : (system numValues).Runs [] _ := .init
  obtain ⟨tr₁, hr₁⟩ := runs_alone hinit rfl rfl (alone_load (0 : Fin numThreads) 0 hn)
  obtain ⟨tr₂, st, hr₂, -, hgoal, hrest⟩ :=
    Parallel.Alone.runs_list (fun t => ⟨.loop, k t⟩) k
      ((List.nodup_finRange numThreads).erase 0) (fun t ht m => by
        have hne : t ≠ 0 := ((List.nodup_finRange numThreads).mem_erase_iff.mp ht).1
        obtain ⟨evs, halone⟩ := alone_increments t m 0 ((Nat.zero_add (k t)).le.trans (hk t))
        dsimp only
        rw [Function.update_of_ne hne]
        rw [Nat.zero_add] at halone
        exact ⟨evs, halone⟩) hr₁
  have hzero : st.regs 0 = ⟨.store 0, 0⟩ := by
    rw [hrest 0 fun hmem => ((List.nodup_finRange numThreads).mem_erase_iff.mp hmem).1 rfl]
    dsimp only
    rw [Function.update_self]
  obtain ⟨tr₃, hr₃⟩ := runs_alone hr₂ rfl hzero (alone_store 0 _ 0 0)
  have hregs : Function.update st.regs 0 ⟨.loop, 0 + 1⟩ =
      Function.update (fun t => ⟨.loop, k t⟩) 0 ⟨.loop, 1⟩ := by
    funext t
    by_cases ht : t = 0
    · rw [ht, Function.update_self, Function.update_self]
    · rw [Function.update_of_ne ht, Function.update_of_ne ht]
      exact hgoal t
        ((List.nodup_finRange numThreads).mem_erase_iff.mpr ⟨ht, List.mem_finRange t⟩)
  rw [hregs] at hr₃
  exact ⟨tr₃, hr₃⟩

/-- Threads 0 and 1 bring the total back to 2, after all but `e t` increments of each thread. -/
theorem exists_two (e : Fin numThreads → Nat)
    (he' : ∀ t : Fin numThreads, t.val < 2 → e t < numValues) :
    ∃ tr regs, (system numValues).Runs tr ⟨2, regs⟩ ∧
      ∀ t, regs t = ⟨.loop, numValues - e t⟩ := by
  have hzero := he' 0 (by decide)
  have hone := he' 1 (by decide)
  have hn : 0 < numValues := Nat.lt_of_le_of_lt (Nat.zero_le _) hzero
  -- the store of thread 1 is still to come
  obtain ⟨tr₁, hr₁⟩ := exists_reset hn
    (Function.update (fun t => numValues - e t) 1 (numValues - e 1 - 1)) (fun t => by
      by_cases ht : t = 1
      · rw [ht, Function.update_self]
        omega
      · rw [Function.update_of_ne ht]
        omega)
  -- it loads 1, and thread 0 works on in vain
  obtain ⟨tr₂, hr₂⟩ := runs_alone hr₁ rfl
    (show _ = (⟨.loop, numValues - e 1 - 1⟩ : Worker) by
      dsimp only
      rw [Function.update_of_ne (by decide), Function.update_self])
    (alone_load (1 : Fin numThreads) 1 (by omega))
  obtain ⟨tr₃, hr₃⟩ := runs_alone hr₂ rfl
    (show _ = (⟨.loop, 1⟩ : Worker) by
      dsimp only
      rw [Function.update_of_ne (by decide), Function.update_self])
    (alone_increments (0 : Fin numThreads) 1 1 (k := numValues - e 0 - 1) (by omega))
  obtain ⟨tr₄, hr₄⟩ := runs_alone hr₃ rfl
    (show _ = (⟨.store 1, numValues - e 1 - 1⟩ : Worker) by
      dsimp only
      rw [Function.update_of_ne (by decide), Function.update_self])
    (alone_store (1 : Fin numThreads) _ 1 _)
  refine ⟨tr₄, _, hr₄, ?_⟩
  intro t
  dsimp only
  by_cases ht₁ : t = 1
  · rw [ht₁, Function.update_self, Nat.sub_add_cancel (by omega)]
  · rw [Function.update_of_ne ht₁]
    by_cases ht₀ : t = 0
    · rw [ht₀, Function.update_self]
      congr 1
      omega
    · rw [Function.update_of_ne ht₀, Function.update_of_ne ht₁, Function.update_of_ne ht₀,
        Function.update_of_ne ht₁]

/-- The increments that are to count, in shares. -/
theorem exists_shares (hn : 0 < numValues) {v : Nat} (hv : v + 2 ≤ numThreads * numValues) :
    ∃ e : Fin numThreads → Nat, (∀ t, e t ≤ numValues) ∧
      (∀ t : Fin numThreads, t.val < 2 → e t < numValues) ∧ ∑ t, e t = v := by
  let bound : Fin numThreads →₀ Nat :=
    Finsupp.equivFunOnFinite.symm fun t => if t.val < 2 then numValues - 1 else numValues
  have hbound : v ≤ bound.degree := by
    rw [Finsupp.degree_eq_sum]
    simp only [bound, Finsupp.equivFunOnFinite_symm_apply_apply]
    have htail (t : Fin 13) : ¬ t.val + 1 + 1 < 2 := by omega
    have hthreads : numThreads * numValues = 15 * numValues := rfl
    rw [Fin.sum_univ_succ, Fin.sum_univ_succ]
    simp only [Fin.val_zero, Fin.val_succ, htail, if_false, Finset.sum_const, Finset.card_univ,
      Fintype.card_fin, smul_eq_mul]
    simp only [Nat.zero_lt_two, Nat.one_lt_two, Nat.zero_add, if_true]
    omega
  obtain ⟨e, he, hsum⟩ := Finsupp.exists_le_degree_eq bound v hbound
  rw [Finsupp.degree_eq_sum] at hsum
  have hle (t : Fin numThreads) : e t ≤ if t.val < 2 then numValues - 1 else numValues := he t
  refine ⟨e, fun t => ?_, fun t ht => ?_, hsum⟩
  · have h := hle t
    split at h <;> omega
  · have h := hle t
    rw [if_pos ht] at h
    omega

theorem exists_total {v : Nat} (hlo : min 2 numValues ≤ v) (hhi : v ≤ numThreads * numValues) :
    ∃ tr st, (system numValues).Runs tr st ∧ Finished st ∧ st.shared = v := by
  by_cases hn : numValues = 0
  · subst hn
    obtain ⟨tr, st, hr, hdone, hshared⟩ :=
      exists_finished_from (fun _ => 0) (fun _ => Nat.le_refl 0)
        (show (system 0).Runs [] _ from .init) fun _ => rfl
    refine ⟨tr, st, hr, hdone, ?_⟩
    rw [hshared, Nat.le_zero.mp hhi]
    simp only [Nat.sub_self, Finset.sum_const_zero]
    rfl
  by_cases hone : v = 1
  · -- a single value each, and thread 0 stores last what it loaded first
    have hn1 : numValues = 1 := by omega
    subst hone hn1
    obtain ⟨tr, hr⟩ := exists_reset Nat.one_pos (fun _ => 1) fun _ => Nat.le_refl 1
    rw [Function.update_eq_self_iff.mpr rfl] at hr
    obtain ⟨tr', st, hr', hdone, hshared⟩ :=
      exists_finished_from (fun _ => 1) (fun _ => Nat.le_refl 1) hr fun _ => rfl
    refine ⟨tr', st, hr', hdone, ?_⟩
    rw [hshared]
    simp only [Nat.sub_self, Finset.sum_const_zero, Nat.add_zero]
  · obtain ⟨e, he, he', hsum⟩ := exists_shares (v := v - 2) (Nat.pos_of_ne_zero hn) (by omega)
    obtain ⟨tr, regs, hr, hregs⟩ := exists_two e he'
    obtain ⟨tr', st, hr', hdone, hshared⟩ :=
      exists_finished_from _ (fun t => Nat.sub_le numValues (e t)) hr hregs
    refine ⟨tr', st, hr', hdone, ?_⟩
    have hback (t : Fin numThreads) : numValues - (numValues - e t) = e t :=
      Nat.sub_sub_self (he t)
    simp only [hback] at hshared
    omega

/--
**Which totals are possible.** Fifteen threads that add 1 to `globalCount` without transactions,
each `NUM_VALUES` times, can leave every total from 2 up to the expected one, and no other; with one
value each, 1 as well.
-/
theorem totals_iff (v : Nat) :
    (∃ tr st, (system numValues).Runs tr st ∧ Finished st ∧ st.shared = v) ↔
      min 2 numValues ≤ v ∧ v ≤ numThreads * numValues := by
  constructor
  · rintro ⟨tr, st, h, hdone, rfl⟩
    refine ⟨le_total h hdone, ?_⟩
    rw [← stores_eq h hdone]
    exact (total h).1.le
  · rintro ⟨hlo, hhi⟩
    exact exists_total hlo hhi

/-- Without transactions the outcome of the test is open: where the expected total is an `int`, it
can pass any number of times. -/
theorem atomicity_any (hn : 0 < numValues) (hint : numThreads * numValues < 2 ^ 31)
    (nTimes passedTests : Nat) : Test numValues nTimes passedTests ↔ passedTests ≤ nTimes := by
  have hthreads : numThreads * numValues = 15 * numValues := rfl
  have hexpected : finalResult numValues = BitVec.ofNat 64 (numThreads * numValues) :=
    (Atomicity.finalResult_eq_iff (by omega)).mpr hint
  constructor
  · intro h
    induction h with
    | start => exact Nat.le_refl 0
    | iteration _ _ _ ih => split <;> omega
  · intro hle
    induction nTimes generalizing passedTests with
    | zero =>
      obtain rfl := Nat.le_zero.mp hle
      exact .start
    | succ i ih =>
      by_cases hpass : passedTests = 0
      · -- one update is lost
        subst hpass
        have hlo : min 2 numValues ≤ numThreads * numValues - 1 := by omega
        obtain ⟨tr, st, hr, hdone, hshared⟩ := exists_total hlo (Nat.sub_le _ 1)
        have htest := (ih 0 (Nat.zero_le i)).iteration hr hdone
        rw [hexpected, hshared, if_neg] at htest
        · exact htest
        · intro heq
          have hnat := congrArg BitVec.toNat heq
          simp only [BitVec.toNat_ofNat] at hnat
          omega
      · have hlo : min 2 numValues ≤ numThreads * numValues := by omega
        obtain ⟨tr, st, hr, hdone, hshared⟩ := exists_total hlo (Nat.le_refl _)
        have htest := (ih (passedTests - 1) (by omega)).iteration hr hdone
        rw [hexpected, hshared, if_pos rfl, Nat.sub_add_cancel (by omega)] at htest
        exact htest

theorem atomicity_any_small : Test 100 3 1 :=
  (atomicity_any (by decide) (by decide) 3 1).mpr (by decide)

end IncrementCounter

end TsxProject
