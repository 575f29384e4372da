import Mathlib.Algebra.BigOperators.Fin
import TsxProject.Infra.Mutex
import TsxProject.Tsx.Status

/-!
# The sixth test of atomic operations

`AtomicOps_ThreadFunc6` of `TestAtomicOps.c`, run by two threads: each counts its commits in a
variable of its own, by transactions, and the aborts of both are counted under a mutex. Thread `t`
has index `t`. Addresses are not printed.

Both threads clear both counters first, without waiting for each other. In which order
`e0.v1 = e1.v1 = 0` stores is open, and a parameter here. The counts are below `2 ^ 33` and do not
overflow a `long`.

* `threadFunc6_counts` — nothing is lost if and only if no counter is cleared after a commit of its
  thread
-/

namespace TsxProject

open Infra

namespace AtomicCounters

open Tsx

inductive Pc where
  /-- the first store of `e0.v1 = e1.v1 = 0` -/
  | clearFirst
  /-- the second one -/
  | clearSecond
  /-- `i < NUM_VALUES` -/
  | loop
  /-- from `_xbegin` to `_xend` or the abort -/
  | transaction
  /-- `pthread_mutex_lock(&abortMutex)` -/
  | lock
  /-- `numAborts++`: the load -/
  | load
  /-- and the store -/
  | store (v : Int)
  /-- `pthread_mutex_unlock(&abortMutex)` -/
  | unlock
  /-- `i++` -/
  | next
  | done
  deriving DecidableEq

structure Memory where
  /-- `e0.v1` and `e1.v1` -/
  v1 : Fin 2 → Int
  numAborts : Int
  abortMutex : Option (Fin 2)

structure Worker where
  pc : Pc
  i : Nat

inductive Event where
  /-- thread `t` clears the counter of thread `u` -/
  | cleared (t u : Fin 2)
  /-- a transaction of thread `t` commits -/
  | committed (t : Fin 2)
  /-- thread `t` has counted an abort -/
  | counted (t : Fin 2)
  deriving DecidableEq

/-- `AtomicOps_ThreadFunc6` -/
def threadFunc6 (numValues : Nat) (first : Fin 2) :
    Parallel (Fin 2) Outcome Memory Worker Event where
  next t outcome m s :=
    match s.pc with
    | .clearFirst =>
      some ({ m with v1 := Function.update m.v1 first 0 }, { s with pc := .clearSecond },
        [.cleared t first])
    | .clearSecond =>
      some ({ m with v1 := Function.update m.v1 first.rev 0 }, { pc := .loop, i := 0 },
        [.cleared t first.rev])
    | .loop => some (m, { s with pc := if s.i < numValues then .transaction else .done }, [])
    | .transaction =>
      match outcome with
      | .completes =>
        some ({ m with v1 := Function.update m.v1 t (m.v1 t + 1) }, { s with pc := .next },
          [.committed t])
      | .aborts _ => some (m, { s with pc := .lock }, [])
    | .lock =>
      if m.abortMutex = none then
        some ({ m with abortMutex := some t }, { s with pc := .load }, [])
      else none
    | .load => some (m, { s with pc := .store m.numAborts }, [])
    | .store v => some ({ m with numAborts := v + 1 }, { s with pc := .unlock }, [.counted t])
    | .unlock => some ({ m with abortMutex := none }, { s with pc := .next }, [])
    | .next => some (m, { pc := .loop, i := s.i + 1 }, [])
    | .done => none

abbrev State : Type := Threads (Fin 2) Memory Worker

/-- Both threads, from `numAborts = 0` and arbitrary counters on. -/
def system (numValues : Nat) (first : Fin 2) (v1 : Fin 2 → Int) :
    System (Fin 2 × Outcome) State Event :=
  (threadFunc6 numValues first).system ⟨⟨v1, 0, none⟩, fun _ => ⟨.clearFirst, 0⟩⟩

def Finished (st : State) : Prop := ∀ t, (st.regs t).pc = .done

/-- How many transactions thread `t` has committed. -/
def commits (t : Fin 2) (tr : List Event) : Nat := tr.count (.committed t)

/-- How many aborts thread `t` has counted. -/
def aborts (t : Fin 2) (tr : List Event) : Nat := tr.count (.counted t)

/-- No count is lost. -/
def Exact (numValues : Nat) (tr : List Event) (st : State) : Prop :=
  (∀ t, st.shared.v1 t = commits t tr) ∧
    (∑ t, st.shared.v1 t) + st.shared.numAborts = 2 * numValues

instance (numValues : Nat) (tr : List Event) (st : State) : Decidable (Exact numValues tr st) :=
  inferInstanceAs (Decidable (_ ∧ _))

/-- The counter of thread `u` is not cleared any more after a commit of the thread. -/
def Kept (u : Fin 2) : List Event → Prop :=
  Preceded fun before e => ∀ t, e = .cleared t u → .committed u ∉ before

/-- What a step can do. -/
inductive Step (numValues : Nat) (first t : Fin 2) (m : Memory) (s : Worker) :
    Memory → Worker → List Event → Prop where
  | clearFirst : s.pc = .clearFirst →
      Step numValues first t m s { m with v1 := Function.update m.v1 first 0 }
        { s with pc := .clearSecond } [.cleared t first]
  | clearSecond : s.pc = .clearSecond →
      Step numValues first t m s { m with v1 := Function.update m.v1 first.rev 0 }
        { pc := .loop, i := 0 } [.cleared t first.rev]
  | enter : s.pc = .loop → s.i < numValues →
      Step numValues first t m s m { s with pc := .transaction } []
  | exit : s.pc = .loop → numValues ≤ s.i → Step numValues first t m s m { s with pc := .done } []
  | commit : s.pc = .transaction →
      Step numValues first t m s { m with v1 := Function.update m.v1 t (m.v1 t + 1) }
        { s with pc := .next } [.committed t]
  | abort : s.pc = .transaction → Step numValues first t m s m { s with pc := .lock } []
  | lock : s.pc = .lock → m.abortMutex = none →
      Step numValues first t m s { m with abortMutex := some t } { s with pc := .load } []
  | load : s.pc = .load → Step numValues first t m s m { s with pc := .store m.numAborts } []
  | store (v : Int) : s.pc = .store v →
      Step numValues first t m s { m with numAborts := v + 1 } { s with pc := .unlock }
        [.counted t]
  | unlock : s.pc = .unlock →
      Step numValues first t m s { m with abortMutex := none } { s with pc := .next } []
  | next : s.pc = .next → Step numValues first t m s m { pc := .loop, i := s.i + 1 } []

variable {numValues : Nat} {first t u : Fin 2} {v1 : Fin 2 → Int} {m m' : Memory} {s s' : Worker}
  {w : Outcome} {tr evs : List Event} {st : State}

theorem step_cases (hs : (threadFunc6 numValues first).next t w m s = some (m', s', evs)) :
    Step numValues first t m s m' s' evs := by
  cases hpc : s.pc with
  | clearFirst =>
    simp only [threadFunc6, hpc] at hs
    cases hs
    exact .clearFirst hpc
  | clearSecond =>
    simp only [threadFunc6, hpc] at hs
    cases hs
    exact .clearSecond hpc
  | loop =>
    simp only [threadFunc6, hpc] at hs
    cases hs
    split
    · next hlt => exact .enter hpc hlt
    · next hge => exact .exit hpc (Nat.le_of_not_lt hge)
  | transaction =>
    simp only [threadFunc6, hpc] at hs
    split at hs <;> cases hs
    · exact .commit hpc
    · exact .abort hpc
  | lock =>
    simp only [threadFunc6, hpc] at hs
    split at hs <;> cases hs
    next hfree => exact .lock hpc hfree
  | load =>
    simp only [threadFunc6, hpc] at hs
    cases hs
    exact .load hpc
  | store v =>
    simp only [threadFunc6, hpc] at hs
    cases hs
    exact .store v hpc
  | unlock =>
    simp only [threadFunc6, hpc] at hs
    cases hs
    exact .unlock hpc
  | next =>
    simp only [threadFunc6, hpc] at hs
    cases hs
    exact .next hpc
  | done =>
    simp only [threadFunc6, hpc] at hs
    cases hs

/-! ## The iterations of one thread -/

/-- The iterations that are counted. -/
def Worker.settled (s : Worker) : Nat :=
  match s.pc with
  | .unlock | .next => s.i + 1
  | _ => s.i

def Worker.Place (numValues : Nat) (s : Worker) : Prop :=
  match s.pc with
  | .clearFirst | .clearSecond => s.i = 0
  | .loop => s.i ≤ numValues
  | .done => s.i = numValues
  | _ => s.i < numValues

/-- Each iteration is counted as a commit or as an abort. -/
structure Counts (numValues : Nat) (t : Fin 2) (tr : List Event) (s : Worker) : Prop where
  total : commits t tr + aborts t tr = s.settled
  place : s.Place numValues

theorem commits_append (t : Fin 2) (tr evs : List Event) :
    commits t (tr ++ evs) = commits t tr + commits t evs :=
  List.count_append

theorem aborts_append (t : Fin 2) (tr evs : List Event) :
    aborts t (tr ++ evs) = aborts t tr + aborts t evs :=
  List.count_append

@[simp] theorem commits_cleared (t u v : Fin 2) : commits t [.cleared u v] = 0 := by
  simp [commits]

@[simp] theorem commits_counted (t u : Fin 2) : commits t [.counted u] = 0 := by
  simp [commits]

@[simp] theorem aborts_cleared (t u v : Fin 2) : aborts t [.cleared u v] = 0 := by
  simp [aborts]

@[simp] theorem aborts_committed (t u : Fin 2) : aborts t [.committed u] = 0 := by
  simp [aborts]

theorem commits_committed (t u : Fin 2) : commits t [.committed u] = if u = t then 1 else 0 := by
  simp [commits, List.count_singleton]

theorem aborts_counted (t u : Fin 2) : aborts t [.counted u] = if u = t then 1 else 0 := by
  simp [aborts, List.count_singleton]

/-- A step of thread `t` counts nothing for the other thread. -/
theorem Step.counts_other (hs : Step numValues first t m s m' s' evs) (hne : u ≠ t) :
    commits u evs = 0 ∧ aborts u evs = 0 := by
  cases hs <;> simp [commits, aborts, hne.symm]

theorem Counts.step (h : Counts numValues t tr s) (hs : Step numValues first t m s m' s' evs) :
    Counts numValues t (tr ++ evs) s' := by
  obtain ⟨htotal, hplace⟩ := h
  rw [Worker.settled.eq_def] at htotal
  unfold Worker.Place at hplace
  constructor
  · rw [commits_append, aborts_append]
    cases hs with
    | clearSecond hpc =>
      rw [hpc] at htotal hplace
      rw [commits_cleared, aborts_cleared]
      exact htotal.trans hplace
    | commit hpc =>
      rw [hpc] at htotal
      dsimp only at htotal
      rw [commits_committed, aborts_committed, if_pos rfl]
      show commits t tr + 1 + aborts t tr = s.i + 1
      omega
    | store v hpc =>
      rw [hpc] at htotal
      dsimp only at htotal
      rw [commits_counted, aborts_counted, if_pos rfl]
      show commits t tr + (aborts t tr + 1) = s.i + 1
      omega
    | clearFirst hpc =>
      rw [hpc] at htotal
      rw [commits_cleared, aborts_cleared]
      exact htotal
    | enter hpc | exit hpc | abort hpc | lock hpc | load hpc | unlock hpc | next hpc =>
      rw [hpc] at htotal
      exact htotal
  · cases hs with
    | clearSecond hpc => exact Nat.zero_le _
    | enter hpc hlt => exact hlt
    | exit hpc hge =>
      rw [hpc] at hplace
      exact Nat.le_antisymm hplace hge
    | clearFirst hpc | commit hpc | abort hpc | lock hpc | load hpc | store v hpc | unlock hpc
    | next hpc =>
      rw [hpc] at hplace
      exact hplace

theorem counts (h : (system numValues first v1).Runs tr st) (t : Fin 2) :
    Counts numValues t tr (st.regs t) := by
  refine Parallel.rule (P := threadFunc6 numValues first)
    (I := fun t tr _ s => Counts numValues t tr s) ?_ ?_ ?_ h t
  · intro t
    exact ⟨rfl, rfl⟩
  · intro t w tr st m s evs _ hI _ hs
    exact (hI t).step (step_cases hs)
  · intro t u w tr st m s evs _ hI hne hs
    obtain ⟨hcommits, haborts⟩ := (step_cases hs).counts_other hne
    refine ⟨?_, (hI u).place⟩
    rw [commits_append, aborts_append, hcommits, haborts]
    exact (hI u).total

/-! ## The counters -/

/-- The thread has cleared its own counter. -/
def Pc.cleared (first t : Fin 2) : Pc → Bool
  | .clearFirst => false
  | .clearSecond => t = first
  | _ => true

/-- What a step does to the counters of commits. -/
inductive Effect (t : Fin 2) (v1 : Fin 2 → Int) : (Fin 2 → Int) → List Event → Prop where
  | clear (u : Fin 2) : Effect t v1 (Function.update v1 u 0) [.cleared t u]
  | commit : Effect t v1 (Function.update v1 t (v1 t + 1)) [.committed t]
  | count : Effect t v1 v1 [.counted t]
  | silent : Effect t v1 v1 []

theorem Step.effect (hs : Step numValues first t m s m' s' evs) : Effect t m.v1 m'.v1 evs := by
  cases hs with
  | clearFirst | clearSecond => exact .clear _
  | commit => exact .commit
  | store => exact .count
  | enter | exit | abort | lock | load | unlock | next => exact .silent

/-- The counter shows the commits if and only if none has been lost. -/
def Counter (u : Fin 2) (tr : List Event) (m : Memory) : Prop :=
  m.v1 u = commits u tr ↔ Kept u tr

theorem kept_of_no_commit (h : commits u tr = 0) : Kept u tr := by
  intro before e after heq t _ hmem
  refine List.count_eq_zero.mp h ?_
  rw [heq]
  exact List.mem_append_left _ hmem

/-- A counter is cleared in time if and only if there are no commits. -/
theorem counter_clear (tr : List Event) (t : Fin 2) (hv : m.v1 u = 0) :
    Counter u (tr ++ [.cleared t u]) m := by
  unfold Counter Kept
  rw [hv, commits_append, commits_cleared, preceded_snoc_iff]
  constructor
  · intro hzero
    have hnone : commits u tr = 0 := by omega
    exact ⟨kept_of_no_commit hnone, fun _ _ => List.count_eq_zero.mp hnone⟩
  · rintro ⟨-, hlast⟩
    have hnone : commits u tr = 0 := List.count_eq_zero.mpr (hlast t rfl)
    rw [hnone]
    rfl

theorem kept_snoc_iff {e : Event} (he : ∀ t, e ≠ .cleared t u) :
    Kept u (tr ++ [e]) ↔ Kept u tr := by
  unfold Kept
  rw [preceded_snoc_iff]
  constructor
  · exact fun h => h.1
  · exact fun h => ⟨h, fun t heq => absurd heq (he t)⟩

theorem Counter.frame {e : Event} (h : Counter u tr m) (hv : m'.v1 u = m.v1 u)
    (hcommit : e ≠ .committed u) (hclear : ∀ t, e ≠ .cleared t u) : Counter u (tr ++ [e]) m' := by
  have hnone : commits u [e] = 0 := by
    unfold commits
    rw [List.count_eq_zero, List.mem_singleton]
    exact hcommit.symm
  unfold Counter
  rw [hv, commits_append, hnone, Nat.add_zero, kept_snoc_iff hclear]
  exact h

theorem Counter.effect (h : Counter u tr m) (he : Effect t m.v1 m'.v1 evs) :
    Counter u (tr ++ evs) m' := by
  generalize hv : m'.v1 = v1' at he
  cases he with
  | clear k =>
    by_cases hk : u = k
    · subst hk
      exact counter_clear tr t (by rw [hv, Function.update_self])
    · refine h.frame (by rw [hv, Function.update_of_ne hk]) (by simp) ?_
      rintro v heq
      cases heq
      exact hk rfl
  | commit =>
    by_cases ht : u = t
    · subst ht
      unfold Counter
      rw [hv, Function.update_self, commits_append, commits_committed, if_pos rfl,
        kept_snoc_iff (by simp), ← show _ ↔ _ from h, Nat.cast_add, Nat.cast_one]
      exact Int.add_left_inj 1
    · refine h.frame (by rw [hv, Function.update_of_ne ht]) ?_ (by simp)
      rintro heq
      cases heq
      exact ht rfl
  | count => exact h.frame (by rw [hv]) (by simp) (by simp)
  | silent =>
    rw [List.append_nil]
    unfold Counter
    rw [hv]
    exact h

theorem rev_of_ne : ∀ {t first : Fin 2}, t ≠ first → first.rev = t := by
  decide

theorem counter (h : (system numValues first v1).Runs tr st) (t : Fin 2)
    (hcleared : (st.regs t).pc.cleared first t = true) : Counter t tr st.shared := by
  revert hcleared
  refine Parallel.rule (P := threadFunc6 numValues first)
    (I := fun t tr m s => s.pc.cleared first t = true → Counter t tr m) ?_ ?_ ?_ h t
  · intro t hcleared
    cases hcleared
  · intro t w tr st m s evs _ hI _ hs hcleared
    by_cases hbefore : (st.regs t).pc.cleared first t = true
    · exact (hI t hbefore).effect (step_cases hs).effect
    · cases step_cases hs with
      | clearFirst hpc =>
        obtain rfl : t = first := by simpa [Pc.cleared] using hcleared
        exact counter_clear tr t (Function.update_self ..)
      | clearSecond hpc =>
        have hne : t ≠ first := by simpa [Pc.cleared, hpc] using hbefore
        rw [rev_of_ne hne]
        exact counter_clear tr t (Function.update_self ..)
      | enter hpc | exit hpc | commit hpc | abort hpc | lock hpc | load hpc | store v hpc
      | unlock hpc | next hpc =>
        rw [hpc] at hbefore
        exact absurd rfl hbefore
  · intro t u w tr st m s evs _ hI _ hs hcleared
    exact (hI u hcleared).effect (step_cases hs).effect

/-! ## The aborts -/

/-- The thread is where it holds `abortMutex`. -/
def Pc.holds : Pc → Bool
  | .load | .store _ | .unlock => true
  | _ => false

theorem Step.locking (hs : Step numValues first t m s m' s' evs) :
    Locking t m.abortMutex s.pc.holds m'.abortMutex s'.pc.holds := by
  cases hs with
  | lock hpc hfree =>
    rw [hpc, hfree]
    exact .lock
  | unlock hpc =>
    rw [hpc]
    exact .unlock _
  | clearFirst hpc | clearSecond hpc | enter hpc | exit hpc | commit hpc | abort hpc | load hpc
  | store v hpc | next hpc =>
    rw [hpc]
    exact .stay _ _

theorem holds_iff (h : (system numValues first v1).Runs tr st) (t : Fin 2) :
    (st.regs t).pc.holds = true ↔ st.shared.abortMutex = some t :=
  Parallel.holds_iff (P := threadFunc6 numValues first) Memory.abortMutex (fun s => s.pc.holds)
    rfl (fun _ => rfl) (fun hs => (step_cases hs).locking) h t

/-- No abort is lost, and a thread that is about to store has loaded the last value. -/
structure Aborts (tr : List Event) (st : State) : Prop where
  total : st.shared.numAborts = ∑ t, (aborts t tr : Int)
  loaded : ∀ t v, (st.regs t).pc = .store v → v = st.shared.numAborts

theorem sum_aborts_append (tr evs : List Event) :
    ∑ t, (aborts t (tr ++ evs) : Int) = ∑ t, (aborts t tr : Int) + ∑ t, (aborts t evs : Int) := by
  rw [← Finset.sum_add_distrib]
  refine Finset.sum_congr rfl fun t _ => ?_
  rw [aborts_append, Nat.cast_add]

theorem sum_aborts_counted (t : Fin 2) : ∑ u, (aborts u [.counted t] : Int) = 1 := by
  simp only [aborts_counted]
  simp

/-- What a step that counts no abort leaves. -/
theorem Step.numAborts_eq (hs : Step numValues first t m s m' s' evs)
    (hpc : ∀ v, s.pc ≠ .store v) : m'.numAborts = m.numAborts ∧ ∀ u, aborts u evs = 0 := by
  cases hs with
  | store v hstore => exact absurd hstore (hpc v)
  | clearFirst | clearSecond => exact ⟨rfl, fun u => aborts_cleared ..⟩
  | commit => exact ⟨rfl, fun u => aborts_committed ..⟩
  | enter | exit | abort | lock | load | unlock | next => exact ⟨rfl, fun _ => rfl⟩

theorem Step.loaded {v : Int} (hs : Step numValues first t m s m' s' evs) (hpc : s'.pc = .store v) :
    v = m.numAborts := by
  cases hs <;> cases hpc
  rfl

theorem Step.of_store {v : Int} (hs : Step numValues first t m s m' s' evs)
    (hpc : s.pc = .store v) : m'.numAborts = v + 1 ∧ s'.pc = .unlock ∧ evs = [.counted t] := by
  cases hs with
  | store v' hpc' =>
    rw [hpc] at hpc'
    cases hpc'
    exact ⟨rfl, rfl, rfl⟩
  | clearFirst hpc' | clearSecond hpc' | enter hpc' | exit hpc' | commit hpc' | abort hpc'
  | lock hpc' | load hpc' | unlock hpc' | next hpc' =>
    rw [hpc] at hpc'
    cases hpc'

theorem numAborts (h : (system numValues first v1).Runs tr st) : Aborts tr st := by
  refine h.rule (I := fun tr st => Aborts tr st) ⟨rfl, fun _ _ hpc => by cases hpc⟩ ?_
  intro l tr st st' evs hr ih _ hs
  obtain ⟨m, s, hx, rfl⟩ := Parallel.step_cases (P := threadFunc6 numValues first) hs
  have hstep := step_cases hx
  by_cases hstore : ∃ v, (st.regs l.1).pc = .store v
  · obtain ⟨v, hpc⟩ := hstore
    obtain ⟨hadd, hunlock, rfl⟩ := hstep.of_store hpc
    have hv := ih.loaded l.1 v hpc
    constructor
    · show m.numAborts = _
      rw [sum_aborts_append, sum_aborts_counted, hadd, hv, ih.total]
    · intro u v' hpc'
      dsimp only at hpc'
      by_cases hu : u = l.1
      · subst hu
        rw [Function.update_self, hunlock] at hpc'
        cases hpc'
      · rw [Function.update_of_ne hu] at hpc'
        -- two threads would hold the mutex
        have hown := (holds_iff hr l.1).mp (by rw [hpc]; rfl)
        have hother := (holds_iff hr u).mp (by rw [hpc']; rfl)
        rw [hown] at hother
        exact absurd (Option.some.inj hother).symm hu
  · obtain ⟨hsame, hnone⟩ := hstep.numAborts_eq fun v hpc => hstore ⟨v, hpc⟩
    constructor
    · show m.numAborts = _
      rw [sum_aborts_append, hsame, ih.total]
      simp [hnone]
    · intro u v hpc
      show v = m.numAborts
      rw [hsame]
      dsimp only at hpc
      by_cases hu : u = l.1
      · subst hu
        rw [Function.update_self] at hpc
        exact hstep.loaded hpc
      · rw [Function.update_of_ne hu] at hpc
        exact ih.loaded u v hpc

/-! ## Finished threads -/

theorem total_of_finished (h : (system numValues first v1).Runs tr st) (hdone : Finished st)
    (t : Fin 2) : commits t tr + aborts t tr = numValues := by
  obtain ⟨htotal, hplace⟩ := counts h t
  rw [Worker.settled.eq_def, hdone t] at htotal
  unfold Worker.Place at hplace
  rw [hdone t] at hplace
  exact htotal.trans hplace

/-- With all iterations counted, only the order of clearing and committing decides. -/
theorem exact_iff (h : (system numValues first v1).Runs tr st) (hdone : Finished st) :
    Exact numValues tr st ↔ ∀ t, Kept t tr := by
  have hcounter : ∀ t, Counter t tr st.shared := fun t => counter h t (by rw [hdone t]; rfl)
  constructor
  · rintro ⟨hexact, -⟩ t
    exact (hcounter t).mp (hexact t)
  · intro hkept
    have hexact : ∀ t, st.shared.v1 t = commits t tr := fun t => (hcounter t).mpr (hkept t)
    refine ⟨hexact, ?_⟩
    have h0 := total_of_finished h hdone 0
    have h1 := total_of_finished h hdone 1
    rw [(numAborts h).total, Fin.sum_univ_two, Fin.sum_univ_two, hexact, hexact]
    omega

/-! ## The threads finish -/

/-- The steps that are left for a thread at most, if no transaction aborts any more. -/
def Worker.rank (numValues : Nat) (s : Worker) : Nat :=
  match s.pc with
  | .clearFirst => 3 * numValues + 3
  | .clearSecond => 3 * numValues + 2
  | .loop => 3 * (numValues - s.i) + 1
  | .transaction => 3 * (numValues - s.i)
  | .lock => 3 * (numValues - s.i) + 3
  | .load => 3 * (numValues - s.i) + 2
  | .store _ => 3 * (numValues - s.i) + 1
  | .unlock => 3 * (numValues - s.i)
  | .next => 3 * (numValues - s.i) - 1
  | .done => 0

/-- A thread can go on if it is not done and does not wait for the mutex. -/
theorem exists_next (numValues : Nat) (first t : Fin 2) (m : Memory) (hdone : s.pc ≠ .done)
    (hfree : s.pc = .lock → m.abortMutex = none) (hplace : s.Place numValues) :
    ∃ m' s' evs, (threadFunc6 numValues first).next t .completes m s = some (m', s', evs) ∧
      s'.rank numValues < s.rank numValues := by
  unfold Worker.Place at hplace
  unfold Worker.rank
  cases hpc : s.pc with
  | clearFirst =>
    simp only [threadFunc6, hpc]
    exact ⟨_, _, _, rfl, Nat.lt_succ_self _⟩
  | clearSecond =>
    simp only [threadFunc6, hpc]
    exact ⟨_, _, _, rfl, Nat.lt_succ_self _⟩
  | loop =>
    by_cases hlt : s.i < numValues
    · simp only [threadFunc6, hpc, if_pos hlt]
      exact ⟨_, _, _, rfl, Nat.lt_succ_self _⟩
    · simp only [threadFunc6, hpc, if_neg hlt]
      exact ⟨_, _, _, rfl, Nat.succ_pos _⟩
  | transaction =>
    rw [hpc] at hplace
    dsimp only at hplace
    simp only [threadFunc6, hpc]
    refine ⟨_, _, _, rfl, ?_⟩
    dsimp only
    omega
  | lock =>
    simp only [threadFunc6, hpc, hfree hpc, if_true]
    exact ⟨_, _, _, rfl, Nat.lt_succ_self _⟩
  | load =>
    simp only [threadFunc6, hpc]
    exact ⟨_, _, _, rfl, Nat.lt_succ_self _⟩
  | store v =>
    simp only [threadFunc6, hpc]
    exact ⟨_, _, _, rfl, Nat.lt_succ_self _⟩
  | unlock =>
    rw [hpc] at hplace
    dsimp only at hplace
    simp only [threadFunc6, hpc]
    refine ⟨_, _, _, rfl, ?_⟩
    dsimp only
    omega
  | next =>
    rw [hpc] at hplace
    dsimp only at hplace
    simp only [threadFunc6, hpc]
    refine ⟨_, _, _, rfl, ?_⟩
    dsimp only
    omega
  | done => exact absurd hpc hdone

/-- Every run can be continued until both threads have finished. -/
theorem exists_finished (h : (system numValues first v1).Runs tr st) :
    ∃ tr' st', ((system numValues first v1).startingIn st).Runs tr' st' ∧ Finished st' := by
  refine h.exists_final (fun _ _ hok => hok) Finished
    (fun _ st => ∑ t, (st.regs t).rank numValues) fun {tr st} hr hnot => ?_
  have hready : ∃ t, (st.regs t).pc ≠ .done ∧
      ((st.regs t).pc = .lock → st.shared.abortMutex = none) := by
    cases hmutex : st.shared.abortMutex with
    | some t =>
      -- the thread in the critical section can go on
      have hholds := (holds_iff hr t).mpr hmutex
      refine ⟨t, fun hpc => ?_, fun hpc => ?_⟩
      · rw [hpc] at hholds
        cases hholds
      · rw [hpc] at hholds
        cases hholds
    | none =>
      obtain ⟨t, ht⟩ := not_forall.mp hnot
      exact ⟨t, ht, fun _ => rfl⟩
  obtain ⟨t, hdone, hfree⟩ := hready
  obtain ⟨m, s, evs, hs, hlt⟩ :=
    exists_next numValues first t st.shared hdone hfree (counts hr t).place
  exact ⟨(t, .completes), _, evs, trivial, Parallel.step_of_next hs,
    Parallel.sum_rank_lt (Worker.rank numValues) hlt⟩

/-! ## A count that is lost -/

/-- A thread clears both counters. -/
theorem clears_alone (numValues : Nat) (first t : Fin 2) (m : Memory) :
    ∃ m', (threadFunc6 numValues first).Alone t m ⟨.clearFirst, 0⟩
      [.cleared t first, .cleared t first.rev] m' ⟨.loop, 0⟩ :=
  ⟨_, .emit (w := .completes) rfl (.emit (w := .completes) rfl (.refl _ _))⟩

/-- A thread with an iteration to do commits. -/
theorem commits_alone (hn : 0 < numValues) (first t : Fin 2) (m : Memory) :
    ∃ m', (threadFunc6 numValues first).Alone t m ⟨.loop, 0⟩ [.committed t] m' ⟨.next, 0⟩ := by
  have henter : (threadFunc6 numValues first).next t .completes m ⟨.loop, 0⟩ =
      some (m, ⟨.transaction, 0⟩, []) := by
    simp only [threadFunc6, if_pos hn]
  exact ⟨_, .silent henter (.emit (w := .completes) rfl (.refl _ _))⟩

/-- Thread 0 commits before thread 1 clears the counters. -/
theorem exists_lost (first : Fin 2) (v1 : Fin 2 → Int) (hn : 0 < numValues) :
    ∃ tr st, (system numValues first v1).Runs tr st ∧ ¬ Kept 0 tr := by
  obtain ⟨m₁, hclear⟩ := clears_alone numValues first 0 ⟨v1, 0, none⟩
  obtain ⟨m₂, hcommit⟩ := commits_alone hn first 0 m₁
  obtain ⟨m₃, hother⟩ := clears_alone numValues first 1 m₂
  have hinit : (system numValues first v1).Runs [] ⟨⟨v1, 0, none⟩, fun _ => ⟨.clearFirst, 0⟩⟩ :=
    .init
  obtain ⟨st, hr, -⟩ := (hclear.trans hcommit).runs_both Fin.zero_ne_one hother hinit
  refine ⟨_, st, hr, ?_⟩
  intro hkept
  obtain rfl | rfl : first = 0 ∨ first = 1 := by omega
  · exact hkept [.cleared 0 0, .cleared 0 1, .committed 0] (.cleared 1 0) [.cleared 1 1] rfl 1 rfl
      (by simp)
  · exact hkept [.cleared 0 1, .cleared 0 0, .committed 0, .cleared 1 1] (.cleared 1 0) [] rfl 1 rfl
      (by simp)

/-! ## The main result -/

/--
**When the sixth test loses no count.** For every number of values, both orders of the two stores,
every interleaving and every pattern of aborts: the threads can always finish, and when they have,
`e0.v1` and `e1.v1` are the numbers of transactions committed by thread 0 and thread 1 and, with
`numAborts`, make up the number of all iterations, if and only if no thread has cleared the counter
of the other one after a commit of it. All runs are right only where there is nothing to count.
-/
theorem threadFunc6_counts (numValues : Nat) (first : Fin 2) (v1 : Fin 2 → Int) :
    (∀ tr st, (system numValues first v1).Runs tr st →
      (∃ tr' st', ((system numValues first v1).startingIn st).Runs tr' st' ∧ Finished st') ∧
      (Finished st → (Exact numValues tr st ↔ ∀ t, Kept t tr))) ∧
    ((∀ tr st, (system numValues first v1).Runs tr st → Finished st → Exact numValues tr st) ↔
      numValues = 0) := by
  refine ⟨fun tr st h => ⟨exists_finished h, exact_iff h⟩, ?_⟩
  constructor
  · intro hall
    by_contra hn
    obtain ⟨tr, st, hr, hlost⟩ := exists_lost first v1 (Nat.pos_of_ne_zero hn)
    obtain ⟨tr', st', hr', hdone⟩ := exists_finished hr
    have hrun := hr.trans hr'
    have hkept := (exact_iff hrun hdone).mp (hall _ _ hrun hdone) 0
    exact hlost hkept.of_append
  · rintro rfl tr st h hdone
    refine (exact_iff h hdone).mpr fun t => kept_of_no_commit ?_
    have htotal := total_of_finished h hdone t
    omega

/-- Thread 1 clears the counters before thread 0 does, and its only transaction aborts. -/
theorem threadFunc6_counts_small :
    ∃ tr st, (system 1 1 fun _ => 5).Runs tr st ∧ Finished st ∧ Exact 1 tr st ∧
      ∀ t, Kept t tr := by
  obtain ⟨tr, st, hr, hdone, hexact⟩ := (system 1 1 fun _ => 5).exists_runs
    (([1, 1, 0, 0, 1].map fun t => (t, .completes)) ++ [(1, .aborts xabort)] ++
      ([0, 0, 1, 1, 1, 1, 1, 1, 0, 0].map fun t => (t, .completes)))
    (fun tr st => (∀ t, (st.regs t).pc = .done) ∧ Exact 1 tr st) (by decide)
  have hcounts := ((threadFunc6_counts 1 1 fun _ => 5).1 tr st hr).2 hdone
  exact ⟨tr, st, hr, hdone, hexact, hcounts.mp hexact⟩

/-- Thread 1 starts after the commit of thread 0 and clears it away. -/
theorem count_lost :
    ∃ tr st, (system 1 1 fun _ => 0).Runs tr st ∧ Finished st ∧ commits 0 tr = 1 ∧
      st.shared.v1 0 = 0 ∧ ¬ Exact 1 tr st :=
  (system 1 1 fun _ => 0).exists_runs
    ([0, 0, 0, 0, 1, 1, 0, 0, 1, 1, 1, 1].map fun t => (t, .completes))
    (fun tr st => (∀ t, (st.regs t).pc = .done) ∧ commits 0 tr = 1 ∧ st.shared.v1 0 = 0 ∧
      ¬ Exact 1 tr st) (by decide)

end AtomicCounters

end TsxProject
