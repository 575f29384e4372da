import Mathlib.Algebra.BigOperators.Fin
import TsxProject.Infra.Fairness
import TsxProject.Infra.Mutex
import TsxProject.Infra.Signed
import TsxProject.Tsx.Status

/-!
# The first four tests of atomic operations

`AtomicOps_ThreadFunc1` to `AtomicOps_ThreadFunc4` of `TestAtomicOps.c`: transactions that count,
and a fallback path that counts the aborts under a mutex. They differ in what the transactions count
in. In the fourth test the fallback path counts there as well, and thread 0 only waits for the
others.

Thread `t` has index `t`. The counts are exact integers: `globalCount` and `numAborts` are `long`,
a `c1` counts the iterations of one thread, and `sharedVariable`, an `int` for all threads, fits as
long as all iterations do (`sharedVariable_fits`). An atomic addition inside of a transaction is an
addition. Messages are not printed.

* `Totals` — what the counts are made up of, at any moment
* `fair_counts` — the first three tests: no iteration is lost
* `fair_shared` — the fourth one: every iteration counts, and the wait of thread 0 ends
-/

namespace TsxProject

open Infra

namespace AtomicTotals

open Tsx

/-- What the transactions count in. -/
inductive Counter where
  | globalCount
  /-- `c1` of the thread -/
  | c1
  | sharedVariable
  deriving DecidableEq

/-- What the tests differ in. -/
structure Test where
  counter : Counter
  /-- the fallback path counts in `sharedVariable` -/
  fallbackCounts : Bool
  /-- thread 0 only waits for `sharedVariable` -/
  thread0Waits : Bool

inductive Pc where
  /-- `while(sharedVariable < NUM_VALUES -1)` -/
  | spin
  /-- `i < NUM_VALUES` -/
  | loop
  /-- from `_xbegin` to `_xend` or the abort -/
  | transaction
  /-- `pthread_mutex_lock(&abortMutex)` -/
  | lock
  /-- `numAborts++`: the load -/
  | load
  /-- and the store -/
  | store (v : Int)
  /-- `pthread_mutex_unlock(&abortMutex)` -/
  | unlock
  /-- `__sync_fetch_and_add(&sharedVariable, 1)` of the fallback path -/
  | add
  /-- `i++` -/
  | next
  | done
  deriving DecidableEq

structure Memory (T : Nat) where
  globalCount : Int
  sharedVariable : Int
  numAborts : Int
  abortMutex : Option (Fin T)

structure Worker where
  pc : Pc
  i : Nat
  c1 : Int

/-- What becomes of a transaction. -/
inductive Event where
  | committed
  | aborted
  deriving DecidableEq

/-- The body of a transaction. -/
def Counter.count {T : Nat} (c : Counter) (m : Memory T) (s : Worker) : Memory T × Worker :=
  match c with
  | .globalCount => ({ m with globalCount := m.globalCount + 1 }, s)
  | .c1 => (m, { s with c1 := s.c1 + 1 })
  | .sharedVariable => ({ m with sharedVariable := m.sharedVariable + 1 }, s)

/-- The thread functions. -/
def threadFunc (test : Test) {T : Nat} (numValues : Nat) :
    Parallel (Fin T) Outcome (Memory T) Worker Event where
  next t outcome m s :=
    match s.pc with
    | .spin =>
      some (m, if m.sharedVariable < (numValues : Int) - 1 then s else { s with pc := .done }, [])
    | .loop => some (m, { s with pc := if s.i < numValues then .transaction else .done }, [])
    | .transaction =>
      match outcome with
      | .completes =>
        some ((test.counter.count m s).1, { (test.counter.count m s).2 with pc := .next },
          [.committed])
      | .aborts _ => some (m, { s with pc := .lock }, [.aborted])
    | .lock =>
      if m.abortMutex = none then
        some ({ m with abortMutex := some t }, { s with pc := .load }, [])
      else none
    | .load => some (m, { s with pc := .store m.numAborts }, [])
    | .store v => some ({ m with numAborts := v + 1 }, { s with pc := .unlock }, [])
    | .unlock =>
      some ({ m with abortMutex := none },
        { s with pc := if test.fallbackCounts then .add else .next }, [])
    | .add =>
      some ({ m with sharedVariable := m.sharedVariable + 1 }, { s with pc := .next }, [])
    | .next => some (m, { s with pc := .loop, i := s.i + 1 }, [])
    | .done => none

/-- The test with transactions that count in `c`. -/
def counting (c : Counter) : Test := ⟨c, false, false⟩

/-- `AtomicOps_ThreadFunc1`, as a test. -/
def threadFunc1 : Test := counting .globalCount

/-- `AtomicOps_ThreadFunc2`, as a test. -/
def threadFunc2 : Test := counting .c1

/-- `AtomicOps_ThreadFunc3`, as a test. -/
def threadFunc3 : Test := counting .globalCount

/-- `AtomicOps_ThreadFunc4`, as a test. -/
def threadFunc4 : Test := ⟨.sharedVariable, true, true⟩

/-- A thread that does nothing but wait. -/
def Test.waiter (test : Test) {T : Nat} (t : Fin T) : Bool := test.thread0Waits && t.val == 0

def Worker.start (test : Test) {T : Nat} (t : Fin T) : Worker :=
  ⟨if test.waiter t then .spin else .loop, 0, 0⟩

abbrev State (T : Nat) : Type := Threads (Fin T) (Memory T) Worker

def system (test : Test) (T numValues : Nat) : System (Fin T × Outcome) (State T) Event :=
  (threadFunc test numValues).system ⟨⟨0, 0, 0, none⟩, Worker.start test⟩

/-- What a step can do. -/
inductive Step (test : Test) (numValues : Nat) {T : Nat} (t : Fin T) (m : Memory T) (s : Worker) :
    Memory T → Worker → List Event → Prop where
  | spin : s.pc = .spin → m.sharedVariable < (numValues : Int) - 1 →
      Step test numValues t m s m s []
  | leave : s.pc = .spin → ¬ m.sharedVariable < (numValues : Int) - 1 →
      Step test numValues t m s m { s with pc := .done } []
  | enter : s.pc = .loop → s.i < numValues →
      Step test numValues t m s m { s with pc := .transaction } []
  | exit : s.pc = .loop → ¬ s.i < numValues →
      Step test numValues t m s m { s with pc := .done } []
  | commit : s.pc = .transaction →
      Step test numValues t m s (test.counter.count m s).1
        { (test.counter.count m s).2 with pc := .next } [.committed]
  | abort : s.pc = .transaction →
      Step test numValues t m s m { s with pc := .lock } [.aborted]
  | lock : s.pc = .lock → m.abortMutex = none →
      Step test numValues t m s { m with abortMutex := some t } { s with pc := .load } []
  | load : s.pc = .load →
      Step test numValues t m s m { s with pc := .store m.numAborts } []
  | store (v : Int) : s.pc = .store v →
      Step test numValues t m s { m with numAborts := v + 1 } { s with pc := .unlock } []
  | unlock : s.pc = .unlock → test.fallbackCounts = false →
      Step test numValues t m s { m with abortMutex := none } { s with pc := .next } []
  | unlockAdd : s.pc = .unlock → test.fallbackCounts = true →
      Step test numValues t m s { m with abortMutex := none } { s with pc := .add } []
  | add : s.pc = .add →
      Step test numValues t m s { m with sharedVariable := m.sharedVariable + 1 }
        { s with pc := .next } []
  | next : s.pc = .next → Step test numValues t m s m { s with pc := .loop, i := s.i + 1 } []

variable {test : Test} {T numValues : Nat} {t u : Fin T} {m m' : Memory T} {s s' : Worker}
  {w : Outcome} {tr evs : List Event} {st : State T}

theorem step_cases (hs : (threadFunc test numValues).next t w m s = some (m', s', evs)) :
    Step test numValues t m s m' s' evs := by
  cases hpc : s.pc with
  | spin =>
    simp only [threadFunc, hpc] at hs
    cases hs
    split
    · next hlt => exact .spin hpc hlt
    · next hge => exact .leave hpc hge
  | loop =>
    simp only [threadFunc, hpc] at hs
    cases hs
    split
    · next hlt => exact .enter hpc hlt
    · next hge => exact .exit hpc hge
  | transaction =>
    simp only [threadFunc, hpc] at hs
    split at hs <;> cases hs
    · exact .commit hpc
    · exact .abort hpc
  | lock =>
    simp only [threadFunc, hpc] at hs
    split at hs <;> cases hs
    next hfree => exact .lock hpc hfree
  | load =>
    simp only [threadFunc, hpc] at hs
    cases hs
    exact .load hpc
  | store v =>
    simp only [threadFunc, hpc] at hs
    cases hs
    exact .store v hpc
  | unlock =>
    simp only [threadFunc, hpc] at hs
    cases hs
    split
    · next hf => exact .unlockAdd hpc hf
    · next hf => exact .unlock hpc (Bool.eq_false_iff.mpr hf)
  | add =>
    simp only [threadFunc, hpc] at hs
    cases hs
    exact .add hpc
  | next =>
    simp only [threadFunc, hpc] at hs
    cases hs
    exact .next hpc
  | done =>
    simp only [threadFunc, hpc] at hs
    cases hs

theorem Worker.start_cases (test : Test) (t : Fin T) :
    Worker.start test t = ⟨.spin, 0, 0⟩ ∨ Worker.start test t = ⟨.loop, 0, 0⟩ := by
  unfold Worker.start
  split
  · exact .inl rfl
  · exact .inr rfl

/-! ## Counting touches one counter -/

@[simp] theorem count_numAborts (c : Counter) : (c.count m s).1.numAborts = m.numAborts := by
  cases c <;> rfl

@[simp] theorem count_abortMutex (c : Counter) : (c.count m s).1.abortMutex = m.abortMutex := by
  cases c <;> rfl

@[simp] theorem count_i (c : Counter) : (c.count m s).2.i = s.i := by
  cases c <;> rfl

theorem count_globalCount (c : Counter) :
    (c.count m s).1.globalCount = m.globalCount + if c = .globalCount then 1 else 0 := by
  cases c <;> simp [Counter.count]

theorem count_sharedVariable (c : Counter) :
    (c.count m s).1.sharedVariable = m.sharedVariable + if c = .sharedVariable then 1 else 0 := by
  cases c <;> simp [Counter.count]

theorem count_c1 (c : Counter) : (c.count m s).2.c1 = s.c1 + if c = .c1 then 1 else 0 := by
  cases c <;> simp [Counter.count]

/-! ## One thread -/

/-- Where a thread can be. -/
def Place (test : Test) (numValues : Nat) (t : Fin T) (s : Worker) : Prop :=
  match s.pc with
  | .spin => test.waiter t = true ∧ s.i = 0
  | .loop => test.waiter t = false ∧ s.i ≤ numValues
  | .add => test.waiter t = false ∧ s.i < numValues ∧ test.fallbackCounts = true
  | .done => s.i = if test.waiter t then 0 else numValues
  | _ => test.waiter t = false ∧ s.i < numValues

theorem Place.start (test : Test) (numValues : Nat) (t : Fin T) :
    Place test numValues t (Worker.start test t) := by
  unfold Worker.start
  by_cases hw : test.waiter t = true
  · rw [if_pos hw]
    exact ⟨hw, rfl⟩
  · rw [if_neg hw]
    exact ⟨Bool.eq_false_iff.mpr hw, Nat.zero_le _⟩

theorem Place.step (h : Place test numValues t s) (hs : Step test numValues t m s m' s' evs) :
    Place test numValues t s' := by
  have hplace := h
  unfold Place at h
  cases hs with
  | spin => exact hplace
  | leave hpc =>
    rw [hpc] at h
    show s.i = if test.waiter t then 0 else numValues
    rw [if_pos h.1]
    exact h.2
  | enter hpc hlt =>
    rw [hpc] at h
    exact ⟨h.1, hlt⟩
  | exit hpc hge =>
    rw [hpc] at h
    obtain ⟨hw, hle⟩ := h
    show s.i = if test.waiter t then 0 else numValues
    rw [hw]
    exact Nat.le_antisymm hle (Nat.le_of_not_lt hge)
  | commit hpc =>
    rw [hpc] at h
    show test.waiter t = false ∧ (test.counter.count m s).2.i < numValues
    rwa [count_i]
  | abort hpc | lock hpc | load hpc | store v hpc | unlock hpc =>
    rw [hpc] at h
    exact h
  | unlockAdd hpc hf =>
    rw [hpc] at h
    exact ⟨h.1, h.2, hf⟩
  | add hpc =>
    rw [hpc] at h
    exact ⟨h.1, h.2.1⟩
  | next hpc =>
    rw [hpc] at h
    exact ⟨h.1, h.2⟩

theorem place (h : (system test T numValues).Runs tr st) (t : Fin T) :
    Place test numValues t (st.regs t) := by
  refine Parallel.rule (P := threadFunc test numValues)
    (I := fun t _ _ s => Place test numValues t s) (Place.start test numValues) ?_ ?_ h t
  · intro t w tr st m s evs _ hI _ hs
    exact (hI t).step (step_cases hs)
  · intro t u w tr st m s evs _ hI _ _
    exact hI u

/-! ## The mutex -/

/-- The thread is where it holds `abortMutex`. -/
def Pc.holds : Pc → Bool
  | .load | .store _ | .unlock => true
  | _ => false

theorem Step.locking (hs : Step test numValues t m s m' s' evs) :
    Locking t m.abortMutex s.pc.holds m'.abortMutex s'.pc.holds := by
  cases hs with
  | lock hpc hfree =>
    rw [hpc, hfree]
    exact .lock
  | unlock hpc | unlockAdd hpc =>
    rw [hpc]
    exact .unlock _
  | spin => exact .stay _ _
  | commit hpc =>
    rw [hpc, count_abortMutex]
    exact .stay _ _
  | leave hpc | enter hpc | exit hpc | abort hpc | load hpc | store v hpc | add hpc | next hpc =>
    rw [hpc]
    exact .stay _ _

theorem holds_iff (h : (system test T numValues).Runs tr st) (t : Fin T) :
    (st.regs t).pc.holds = true ↔ st.shared.abortMutex = some t := by
  refine Parallel.holds_iff (P := threadFunc test numValues) Memory.abortMutex
    (fun s => s.pc.holds) rfl ?_ (fun hs => (step_cases hs).locking) h t
  intro t
  show (Worker.start test t).pc.holds = false
  rcases Worker.start_cases test t with hs | hs <;> rw [hs] <;> rfl

/-- Only the store of `numAborts++` changes `numAborts`. -/
theorem Step.numAborts_eq (hs : Step test numValues t m s m' s' evs)
    (hpc : s.pc.holds = false) : m'.numAborts = m.numAborts := by
  cases hs with
  | store v hstore =>
    rw [hstore] at hpc
    cases hpc
  | commit => exact count_numAborts _
  | spin | leave | enter | exit | abort | lock | load | unlock | unlockAdd | add | next => rfl

/-- Who is about to store has loaded the last value. -/
theorem loaded (h : (system test T numValues).Runs tr st) {v : Int}
    (hpc : (st.regs t).pc = .store v) : v = st.shared.numAborts := by
  refine Parallel.rule (P := threadFunc test numValues)
    (I := fun _ _ m s => s.pc = .store v → v = m.numAborts) ?_ ?_ ?_ h t hpc
  · intro t hstore
    have hstart : (Worker.start test t).pc = .store v := hstore
    rcases Worker.start_cases test t with hs | hs <;>
    · rw [hs] at hstart
      cases hstart
  · intro t w tr st m s evs _ hI _ hs hstore
    cases step_cases hs with
    | load =>
      cases hstore
      rfl
    | spin => exact hI t hstore
    | leave | enter | exit | commit | abort | lock | store | unlock | unlockAdd | add | next =>
      cases hstore
  · intro t u w tr st m s evs hr hI hne hs hstore
    have hother := (holds_iff hr u).mp (by rw [hstore]; rfl)
    rw [(step_cases hs).numAborts_eq ?_]
    · exact hI u hstore
    · -- else both threads would hold the mutex
      refine Bool.eq_false_iff.mpr fun hholds => hne ?_
      rw [(holds_iff hr t).mp hholds] at hother
      exact (Option.some.inj hother).symm

/-! ## The counts at any moment -/

def commits (tr : List Event) : Nat := tr.count .committed

def aborts (tr : List Event) : Nat := tr.count .aborted

/-- The iterations that have had their transactions. -/
def Worker.begun (s : Worker) : Nat :=
  match s.pc with
  | .lock | .load | .store _ | .unlock | .add | .next => s.i + 1
  | _ => s.i

/-- An abort that `numAborts` does not show yet. -/
def Worker.uncounted (s : Worker) : Nat :=
  match s.pc with
  | .lock | .load | .store _ => 1
  | _ => 0

/-- An abort that `sharedVariable` does not show yet. -/
def Worker.unadded (test : Test) (s : Worker) : Nat :=
  match s.pc with
  | .lock | .load | .store _ | .unlock | .add => if test.fallbackCounts then 1 else 0
  | _ => 0

/-- What the counts are made up of. -/
structure Totals (test : Test) (tr : List Event) (st : State T) : Prop where
  begun : commits tr + aborts tr = ∑ t, (st.regs t).begun
  numAborts : (aborts tr : Int) - st.shared.numAborts = ∑ t, ((st.regs t).uncounted : Int)
  globalCount : st.shared.globalCount =
    if test.counter = .globalCount then (commits tr : Int) else 0
  c1 : (if test.counter = .c1 then (commits tr : Int) else 0) = ∑ t, (st.regs t).c1
  sharedVariable : (if test.counter = .sharedVariable then (commits tr : Int) else 0) +
      (if test.fallbackCounts then (aborts tr : Int) else 0) - st.shared.sharedVariable =
    ∑ t, ((st.regs t).unadded test : Int)

@[simp] theorem commits_append (tr evs : List Event) :
    commits (tr ++ evs) = commits tr + commits evs := List.count_append

@[simp] theorem aborts_append (tr evs : List Event) :
    aborts (tr ++ evs) = aborts tr + aborts evs := List.count_append

@[simp] theorem commits_nil : commits [] = 0 := rfl

@[simp] theorem commits_committed : commits [.committed] = 1 := rfl

@[simp] theorem commits_aborted : commits [.aborted] = 0 := rfl

@[simp] theorem aborts_nil : aborts [] = 0 := rfl

@[simp] theorem aborts_committed : aborts [.committed] = 0 := rfl

@[simp] theorem aborts_aborted : aborts [.aborted] = 1 := rfl

theorem Step.begun (hs : Step test numValues t m s m' s' evs) :
    commits evs + aborts evs + s.begun = s'.begun := by
  unfold Worker.begun
  cases hs with
  | spin => exact Nat.zero_add _
  | commit hpc =>
    rw [hpc, count_i, commits_committed, aborts_committed]
    exact Nat.add_comm 1 s.i
  | abort hpc =>
    rw [hpc, commits_aborted, aborts_aborted]
    exact Nat.add_comm 1 s.i
  | leave hpc | enter hpc | exit hpc | lock hpc | load hpc | store v hpc | unlock hpc
  | unlockAdd hpc | add hpc | next hpc =>
    rw [hpc]
    exact Nat.zero_add _

theorem Step.numAborts (hs : Step test numValues t m s m' s' evs)
    (hv : ∀ v, s.pc = .store v → v = m.numAborts) :
    (aborts evs : Int) + s.uncounted = m'.numAborts - m.numAborts + s'.uncounted := by
  unfold Worker.uncounted
  cases hs with
  | spin => simp
  | store v hpc =>
    rw [hpc, hv v hpc]
    simp
  | commit hpc =>
    rw [hpc, count_numAborts]
    simp
  | leave hpc | enter hpc | exit hpc | abort hpc | lock hpc | load hpc | unlock hpc
  | unlockAdd hpc | add hpc | next hpc =>
    rw [hpc]
    simp

theorem Step.globalCount (hs : Step test numValues t m s m' s' evs) :
    m'.globalCount =
      m.globalCount + if test.counter = .globalCount then (commits evs : Int) else 0 := by
  cases hs with
  | commit => exact count_globalCount _
  | spin | leave | enter | exit | abort | lock | load | store | unlock | unlockAdd | add | next =>
    simp

theorem Step.c1 (hs : Step test numValues t m s m' s' evs) :
    s'.c1 = s.c1 + if test.counter = .c1 then (commits evs : Int) else 0 := by
  cases hs with
  | commit => exact count_c1 _
  | spin | leave | enter | exit | abort | lock | load | store | unlock | unlockAdd | add | next =>
    simp

theorem Step.sharedVariable (hs : Step test numValues t m s m' s' evs)
    (hplace : Place test numValues t s) :
    (if test.counter = .sharedVariable then (commits evs : Int) else 0) +
        (if test.fallbackCounts then (aborts evs : Int) else 0) + s.unadded test =
      m'.sharedVariable - m.sharedVariable + s'.unadded test := by
  unfold Worker.unadded
  unfold Place at hplace
  cases hs with
  | spin => simp
  | commit hpc =>
    rw [hpc, count_sharedVariable]
    simp
  | unlock hpc hf | unlockAdd hpc hf =>
    rw [hpc]
    simp [hf]
  | add hpc =>
    rw [hpc] at hplace ⊢
    simp [hplace.2.2]
  | leave hpc | enter hpc | exit hpc | abort hpc | lock hpc | load hpc | store v hpc | next hpc =>
    rw [hpc]
    by_cases hf : test.fallbackCounts = true <;> simp [hf]

theorem totals (h : (system test T numValues).Runs tr st) : Totals test tr st where
  begun := by
    refine Parallel.sum_eq (P := threadFunc test numValues)
      (fun tr _ => commits tr + aborts tr) Worker.begun ?_ ?_ h
    · refine (Finset.sum_eq_zero fun t _ => ?_).symm
      show (Worker.start test t).begun = 0
      rcases Worker.start_cases test t with hs | hs <;> rw [hs] <;> rfl
    · intro t w tr st m s evs _ hs
      have hstep := (step_cases hs).begun
      rw [commits_append, aborts_append]
      omega
  numAborts := by
    refine Parallel.sum_eq (P := threadFunc test numValues)
      (fun tr m => (aborts tr : Int) - m.numAborts) (fun s => (s.uncounted : Int)) ?_ ?_ h
    · refine (Finset.sum_eq_zero fun t _ => ?_).symm
      show ((Worker.start test t).uncounted : Int) = 0
      rcases Worker.start_cases test t with hs | hs <;> rw [hs] <;> rfl
    · intro t w tr st m s evs hr hs
      have hstep := (step_cases hs).numAborts fun v => loaded hr
      rw [aborts_append]
      omega
  globalCount := by
    refine h.rule (I := fun tr st =>
      st.shared.globalCount = if test.counter = .globalCount then (commits tr : Int) else 0) ?_ ?_
    · simp [system, Parallel.system]
    · intro l tr st st' evs _ ih _ hs
      obtain ⟨m, r, hx, rfl⟩ := Parallel.step_cases (P := threadFunc test numValues) hs
      have hstep := (step_cases hx).globalCount
      rw [commits_append]
      dsimp only
      by_cases hc : test.counter = .globalCount
      · rw [if_pos hc] at ih hstep ⊢
        omega
      · rw [if_neg hc] at ih hstep ⊢
        omega
  c1 := by
    refine Parallel.sum_eq (P := threadFunc test numValues)
      (fun tr _ => if test.counter = .c1 then (commits tr : Int) else 0) Worker.c1 ?_ ?_ h
    · refine Eq.trans ?_ (Finset.sum_eq_zero fun t _ => ?_).symm
      · simp
      · rfl
    · intro t w tr st m s evs _ hs
      have hstep := (step_cases hs).c1
      rw [commits_append]
      split at hstep
      · next hc =>
        rw [if_pos hc, if_pos hc]
        omega
      · next hc =>
        rw [if_neg hc, if_neg hc]
        omega
  sharedVariable := by
    refine Parallel.sum_eq (P := threadFunc test numValues)
      (fun tr m => (if test.counter = .sharedVariable then (commits tr : Int) else 0) +
        (if test.fallbackCounts then (aborts tr : Int) else 0) - m.sharedVariable)
      (fun s => (s.unadded test : Int)) ?_ ?_ h
    · refine Eq.trans ?_ (Finset.sum_eq_zero fun t _ => ?_).symm
      · simp
      · show ((Worker.start test t).unadded test : Int) = 0
        rcases Worker.start_cases test t with hs | hs <;> rw [hs] <;> rfl
    · intro t w tr st m s evs hr hs
      have hstep := (step_cases hs).sharedVariable (place hr t)
      rw [commits_append, aborts_append]
      by_cases hc : test.counter = .sharedVariable <;> cases hf : test.fallbackCounts <;>
      · simp only [hc, hf, if_true, if_false, Bool.false_eq_true] at hstep ⊢
        omega

/-! ## When all threads have finished -/

def Finished (st : State T) : Prop := ∀ t, (st.regs t).pc = .done

/-- The iterations of all threads. -/
def Test.iterations (test : Test) (T numValues : Nat) : Nat :=
  ∑ t : Fin T, if test.waiter t then 0 else numValues

/-- What is left when all threads have finished. -/
structure Settled (test : Test) (T numValues : Nat) (tr : List Event) (st : State T) : Prop where
  finished : Finished st
  iterations : commits tr + aborts tr = test.iterations T numValues
  numAborts : st.shared.numAborts = aborts tr
  globalCount : st.shared.globalCount =
    if test.counter = .globalCount then (commits tr : Int) else 0
  c1 : ∑ t, (st.regs t).c1 = if test.counter = .c1 then (commits tr : Int) else 0
  sharedVariable : st.shared.sharedVariable =
    (if test.counter = .sharedVariable then (commits tr : Int) else 0) +
      if test.fallbackCounts then (aborts tr : Int) else 0

theorem settled (h : (system test T numValues).Runs tr st) (hdone : Finished st) :
    Settled test T numValues tr st := by
  obtain ⟨hbegun, hnum, hglobal, hc1, hshared⟩ := totals h
  have hzero : ∑ t, ((st.regs t).uncounted : Int) = 0 := by
    refine Finset.sum_eq_zero fun t _ => ?_
    unfold Worker.uncounted
    rw [hdone t]
    rfl
  have hzero' : ∑ t, ((st.regs t).unadded test : Int) = 0 := by
    refine Finset.sum_eq_zero fun t _ => ?_
    unfold Worker.unadded
    rw [hdone t]
    rfl
  have hall : ∑ t, (st.regs t).begun = test.iterations T numValues := by
    refine Finset.sum_congr rfl fun t _ => ?_
    have hplace := place h t
    unfold Place at hplace
    unfold Worker.begun
    rw [hdone t] at hplace ⊢
    exact hplace
  rw [hzero] at hnum
  rw [hzero'] at hshared
  exact ⟨hdone, hbegun.trans hall, by omega, hglobal, hc1.symm, by omega⟩

theorem iterations_of_no_waiter (htest : test.thread0Waits = false) :
    test.iterations T numValues = T * numValues := by
  unfold Test.iterations Test.waiter
  simp [htest]

theorem iterations_of_waiter (htest : test.thread0Waits = true) :
    test.iterations (T + 1) numValues = T * numValues := by
  unfold Test.iterations Test.waiter
  rw [Fin.sum_univ_succ]
  simp [htest]

/-! ## All threads finish -/

/-- A thread that cannot go on by itself. -/
def Waits (numValues : Nat) (m : Memory T) (s : Worker) : Prop :=
  s.pc = .done ∨ s.pc = .lock ∧ m.abortMutex ≠ none ∨
    s.pc = .spin ∧ m.sharedVariable < (numValues : Int) - 1

def Pc.offset : Pc → Nat
  | .loop => 8
  | .transaction => 7
  | .lock => 6
  | .load => 5
  | .store _ => 4
  | .unlock => 3
  | .add => 2
  | .next => 1
  | .spin => 1
  | .done => 0

def Worker.rank (numValues : Nat) (s : Worker) : Nat := (numValues - s.i) * 16 + s.pc.offset

theorem exists_next (test : Test) (hw : ¬ Waits numValues m s) (t : Fin T) (w : Outcome) :
    (threadFunc test numValues).next t w m s ≠ none := by
  intro hnone
  unfold threadFunc at hnone
  cases hpc : s.pc with
  | done => exact hw (.inl hpc)
  | lock =>
    simp only [hpc] at hnone
    split at hnone
    · cases hnone
    · next htaken => exact hw (.inr (.inl ⟨hpc, htaken⟩))
  | transaction =>
    simp only [hpc] at hnone
    split at hnone <;> cases hnone
  | spin | loop | load | store v | unlock | add | next =>
    simp only [hpc] at hnone
    cases hnone

theorem Step.rank_lt (hs : Step test numValues t m s m' s' evs)
    (hplace : Place test numValues t s) (hw : ¬ Waits numValues m s) :
    s'.rank numValues < s.rank numValues := by
  unfold Place at hplace
  unfold Worker.rank
  cases hs with
  | spin hpc hlt => exact absurd (.inr (.inr ⟨hpc, hlt⟩)) hw
  | next hpc =>
    rw [hpc] at hplace ⊢
    simp only [Pc.offset]
    omega
  | commit hpc =>
    rw [hpc, count_i]
    simp only [Pc.offset]
    omega
  | leave hpc | enter hpc | exit hpc | abort hpc | lock hpc | load hpc | store v hpc | unlock hpc
  | unlockAdd hpc | add hpc =>
    rw [hpc]
    simp only [Pc.offset]
    omega

theorem Step.of_waits (hs : Step test numValues t m s m' s' evs) (hw : Waits numValues m s) :
    m' = m ∧ s' = s := by
  rcases hw with hpc | ⟨hpc, htaken⟩ | ⟨hpc, hlt⟩
  · cases hs with
    | spin hpc' | leave hpc' | enter hpc' | exit hpc' | commit hpc' | abort hpc' | lock hpc'
    | load hpc' | store v hpc' | unlock hpc' | unlockAdd hpc' | add hpc' | next hpc' =>
      rw [hpc] at hpc'
      cases hpc'
  · cases hs with
    | lock _ hfree => exact absurd hfree htaken
    | spin hpc' | leave hpc' | enter hpc' | exit hpc' | commit hpc' | abort hpc'
    | load hpc' | store v hpc' | unlock hpc' | unlockAdd hpc' | add hpc' | next hpc' =>
      rw [hpc] at hpc'
      cases hpc'
  · cases hs with
    | spin => exact ⟨rfl, rfl⟩
    | leave _ hge => exact absurd hlt hge
    | enter hpc' | exit hpc' | commit hpc' | abort hpc' | lock hpc'
    | load hpc' | store v hpc' | unlock hpc' | unlockAdd hpc' | add hpc' | next hpc' =>
      rw [hpc] at hpc'
      cases hpc'

/-- Who waits for the others waits for something that they do. -/
def Test.Sound (test : Test) (T : Nat) : Prop :=
  test.thread0Waits = true →
    test.counter = .sharedVariable ∧ test.fallbackCounts = true ∧ 2 ≤ T

/-- Nobody holds the mutex if all threads wait. -/
theorem mutex_free (h : (system test T numValues).Runs tr st)
    (hall : ∀ t, Waits numValues st.shared (st.regs t)) : st.shared.abortMutex = none := by
  cases hm : st.shared.abortMutex with
  | none => rfl
  | some u =>
    have hholds := (holds_iff h u).mpr hm
    rcases hall u with hpc | ⟨hpc, -⟩ | ⟨hpc, -⟩ <;>
    · rw [hpc] at hholds
      cases hholds

theorem waiter_unique (ht : test.waiter t = true) (hu : test.waiter u = true) : t = u := by
  unfold Test.waiter at ht hu
  simp only [Bool.and_eq_true, beq_iff_eq] at ht hu
  exact Fin.ext (ht.2.trans hu.2.symm)

/-- A thread that has finished has put all of its iterations into `sharedVariable`. -/
theorem le_sharedVariable (h : (system test T numValues).Runs tr st)
    (hcounter : test.counter = .sharedVariable) (hfallback : test.fallbackCounts = true)
    (hplaces : ∀ t, (st.regs t).pc = .done ∨ (st.regs t).pc = .spin)
    (hu : test.waiter u = false) (hdone : (st.regs u).pc = .done) :
    (numValues : Int) ≤ st.shared.sharedVariable := by
  obtain ⟨hbegun, -, -, -, hshared⟩ := totals h
  have hzero : ∑ t, ((st.regs t).unadded test : Int) = 0 := by
    refine Finset.sum_eq_zero fun t _ => ?_
    unfold Worker.unadded
    rcases hplaces t with hpc | hpc <;>
    · rw [hpc]
      rfl
  rw [if_pos hcounter, if_pos hfallback, hzero] at hshared
  have hle : (st.regs u).begun ≤ ∑ t, (st.regs t).begun :=
    Finset.single_le_sum (f := fun t => (st.regs t).begun) (fun t _ => Nat.zero_le _)
      (Finset.mem_univ u)
  have hown : (st.regs u).begun = numValues := by
    have hplace := place h u
    unfold Place at hplace
    unfold Worker.begun
    rw [hdone] at hplace ⊢
    rw [hu] at hplace
    exact hplace
  omega

theorem finished_of_waits (hsound : test.Sound T) (h : (system test T numValues).Runs tr st)
    (hall : ∀ t, Waits numValues st.shared (st.regs t)) : Finished st := by
  have hfree := mutex_free h hall
  have hplaces : ∀ t, (st.regs t).pc = .done ∨
      (st.regs t).pc = .spin ∧ st.shared.sharedVariable < (numValues : Int) - 1 := by
    intro t
    rcases hall t with hpc | ⟨-, htaken⟩ | hspin
    · exact .inl hpc
    · exact absurd hfree htaken
    · exact .inr hspin
  intro t
  rcases hplaces t with hpc | ⟨hpc, hlt⟩
  · exact hpc
  · -- another thread has finished, so that the wait is over
    have hplace := place h t
    unfold Place at hplace
    rw [hpc] at hplace
    have hwaits : test.thread0Waits = true := by
      have hw := hplace.1
      unfold Test.waiter at hw
      exact (Bool.and_eq_true_iff.mp hw).1
    obtain ⟨hcounter, hfallback, hT⟩ := hsound hwaits
    have hne : ∃ u : Fin T, u ≠ t := by
      have : Nontrivial (Fin T) := Fin.nontrivial_iff_two_le.mpr hT
      exact exists_ne t
    obtain ⟨u, hu⟩ := hne
    have huw : test.waiter u = false :=
      Bool.eq_false_iff.mpr fun hw => hu (waiter_unique hw hplace.1)
    have hudone : (st.regs u).pc = .done := by
      rcases hplaces u with hd | ⟨hs, -⟩
      · exact hd
      · have hplace' := place h u
        unfold Place at hplace'
        rw [hs] at hplace'
        rw [huw] at hplace'
        exact absurd hplace'.1 Bool.false_ne_true
    have hge := le_sharedVariable h hcounter hfallback
      (fun v => (hplaces v).imp_right And.left) huw hudone
    omega

theorem live (numValues : Nat) (hsound : test.Sound T) :
    Live (system test T numValues) Prod.fst Finished
      (fun st => ∑ t, (st.regs t).rank numValues) fun t st => Waits numValues st.shared (st.regs t)
    where
  work := by
    rintro ⟨t, w⟩ - st ⟨tr, hr⟩ - hw
    obtain ⟨⟨m, r, evs⟩, hs⟩ := Option.ne_none_iff_exists'.mp (exists_next test hw t w)
    exact ⟨_, evs, Parallel.step_of_next hs,
      Parallel.sum_rank_lt (Worker.rank numValues) ((step_cases hs).rank_lt (place hr t) hw)⟩
  wait := by
    intro l _ st st' evs _ _ hw hs
    obtain ⟨m, r, hnext, rfl⟩ := Parallel.step_cases (P := threadFunc test numValues) hs
    obtain ⟨rfl, rfl⟩ := (step_cases hnext).of_waits hw
    rw [Function.update_eq_self]
    exact .inr ⟨rfl, fun _ => id⟩
  exists_working := by
    rintro _ _ st ⟨tr, hr⟩ hnot
    by_contra hall
    simp only [not_exists, not_not] at hall
    exact hnot (finished_of_waits hsound hr hall)

theorem Finished.step {l : Fin T × Outcome} {st' : State T} (h : Finished st)
    (hs : (system test T numValues).step l st = some (st', evs)) : Finished st' := by
  obtain ⟨m, r, hnext, rfl⟩ := Parallel.step_cases (P := threadFunc test numValues) hs
  obtain ⟨rfl, rfl⟩ := (step_cases hnext).of_waits (.inl (h l.1))
  rw [Function.update_eq_self]
  exact h

theorem exists_settled (numValues : Nat) (hsound : test.Sound T)
    {sched : Nat → Fin T × Outcome} (hfair : Fair Prod.fst sched) : ∃ n, ∀ m, n ≤ m →
      Settled test T numValues ((system test T numValues).play sched m).2
        ((system test T numValues).play sched m).1 := by
  obtain ⟨n, -, hn⟩ := (live numValues hsound).reaches hfair 0
  exact ⟨n, fun m hnm => settled (System.runs_play m)
    (System.play_keeps (fun _ hdone hs => hdone.step hs) hnm hn)⟩

/-- The count of a test. -/
def State.counted (c : Counter) (st : State T) : Int :=
  match c with
  | .globalCount => st.shared.globalCount
  | .c1 => ∑ t, (st.regs t).c1
  | .sharedVariable => st.shared.sharedVariable

/-- **No iteration is lost.** In the first three tests, whatever transactions abort: every fair
schedule comes to its end, with a count of all commits and a count of all aborts, and both together
are all iterations of all threads. -/
theorem fair_counts (htest : test = threadFunc1 ∨ test = threadFunc2 ∨ test = threadFunc3)
    {sched : Nat → Fin T × Outcome} (hfair : Fair Prod.fst sched) : ∃ n, ∀ m, n ≤ m →
      Finished ((system test T numValues).play sched m).1 ∧
      State.counted test.counter ((system test T numValues).play sched m).1 =
        commits ((system test T numValues).play sched m).2 ∧
      ((system test T numValues).play sched m).1.shared.numAborts =
        aborts ((system test T numValues).play sched m).2 ∧
      State.counted test.counter ((system test T numValues).play sched m).1 +
        ((system test T numValues).play sched m).1.shared.numAborts = T * numValues := by
  obtain ⟨hcounter, hwaits⟩ :
      (test.counter = .globalCount ∨ test.counter = .c1) ∧ test.thread0Waits = false := by
    rcases htest with rfl | rfl | rfl
    · exact ⟨.inl rfl, rfl⟩
    · exact ⟨.inr rfl, rfl⟩
    · exact ⟨.inl rfl, rfl⟩
  have hsound : test.Sound T := fun hw => by
    rw [hwaits] at hw
    cases hw
  obtain ⟨n, hn⟩ := exists_settled numValues hsound hfair
  refine ⟨n, ?_⟩
  intro m hnm
  obtain ⟨hdone, hall, hnum, hglobal, hc1, -⟩ := hn m hnm
  rw [iterations_of_no_waiter hwaits] at hall
  have hcounted : State.counted test.counter ((system test T numValues).play sched m).1 =
      commits ((system test T numValues).play sched m).2 := by
    rcases hcounter with hc | hc <;> rw [hc] at hglobal hc1 ⊢
    · exact hglobal
    · exact hc1
  refine ⟨hdone, hcounted, hnum, ?_⟩
  rw [hcounted, hnum]
  exact_mod_cast hall

/-- Every other transaction of three threads aborts. -/
theorem fair_counts_half : ∃ n, ∀ m, n ≤ m →
    let st := ((system threadFunc2 3 4).play (fun k => ((roundRobin 2 k).1,
      if k % 2 = 0 then .completes else .aborts xabort)) m)
    Finished st.1 ∧ State.counted .c1 st.1 = commits st.2 ∧
      st.1.shared.numAborts = aborts st.2 ∧
      State.counted .c1 st.1 + st.1.shared.numAborts = (3 : Nat) * (4 : Nat) :=
  fair_counts (.inr (.inl rfl)) (fair_roundRobin 2)

/-! ## The fourth test -/

theorem Step.sharedVariable_le (hs : Step test numValues t m s m' s' evs) :
    m.sharedVariable ≤ m'.sharedVariable := by
  cases hs with
  | commit =>
    rw [count_sharedVariable]
    split <;> omega
  | add => exact Int.le_add_of_nonneg_right (by decide)
  | spin | leave | enter | exit | abort | lock | load | store | unlock | unlockAdd | next =>
    exact Int.le_refl _

/-- Who has waited has seen all iterations of one thread but one. -/
theorem waited (h : (system test T numValues).Runs tr st) (hw : test.waiter t = true)
    (hdone : (st.regs t).pc = .done) : (numValues : Int) - 1 ≤ st.shared.sharedVariable := by
  refine Parallel.rule (P := threadFunc test numValues)
    (I := fun t _ m s => test.waiter t = true → s.pc = .done →
      (numValues : Int) - 1 ≤ m.sharedVariable) ?_ ?_ ?_ h t hw hdone
  · intro t _ hpc
    have hstart : (Worker.start test t).pc = .done := hpc
    rcases Worker.start_cases test t with hs | hs <;>
    · rw [hs] at hstart
      cases hstart
  · intro t w tr st m s evs hr hI _ hs hw hpc
    have hplace := place hr t
    unfold Place at hplace
    cases step_cases hs with
    | spin => exact hI t hw hpc
    | leave _ hge => exact Int.not_lt.mp hge
    | exit hloop =>
      rw [hloop, hw] at hplace
      exact absurd hplace.1 (by decide)
    | enter | commit | abort | lock | load | store | unlock | unlockAdd | add | next => cases hpc
  · intro t u w tr st m s evs _ hI _ hs hw hpc
    exact Int.le_trans (hI u hw hpc) (step_cases hs).sharedVariable_le

/-- A thread has begun no more iterations than it has. -/
theorem Place.begun_le (h : Place test numValues t s) :
    s.begun ≤ if test.waiter t then 0 else numValues := by
  unfold Place at h
  unfold Worker.begun
  cases hpc : s.pc with
  | spin =>
    rw [hpc] at h
    rw [if_pos h.1]
    exact Nat.le_of_eq h.2
  | loop =>
    rw [hpc] at h
    rw [h.1]
    exact h.2
  | done =>
    rw [hpc] at h
    exact Nat.le_of_eq h
  | add =>
    rw [hpc] at h
    rw [h.1]
    exact h.2.1
  | transaction =>
    rw [hpc] at h
    rw [h.1]
    exact Nat.le_of_lt h.2
  | lock | load | store v | unlock | next =>
    rw [hpc] at h
    rw [h.1]
    exact h.2

theorem sharedVariable_nonneg (h : (system test T numValues).Runs tr st) :
    0 ≤ st.shared.sharedVariable := by
  refine h.rule (I := fun _ st => 0 ≤ st.shared.sharedVariable) (Int.le_refl 0) ?_
  intro l tr st st' evs _ ih _ hs
  obtain ⟨m, r, hx, rfl⟩ := Parallel.step_cases (P := threadFunc test numValues) hs
  exact Int.le_trans ih (step_cases hx).sharedVariable_le

/-- What has been added never exceeds the iterations. -/
theorem sharedVariable_le (h : (system threadFunc4 T numValues).Runs tr st) :
    st.shared.sharedVariable ≤ threadFunc4.iterations T numValues := by
  obtain ⟨hbegun, -, -, -, hshared⟩ := totals h
  have hunadded : 0 ≤ ∑ t, ((st.regs t).unadded threadFunc4 : Int) :=
    Finset.sum_nonneg fun t _ => Int.natCast_nonneg _
  have hall : ∑ t, (st.regs t).begun ≤ threadFunc4.iterations T numValues :=
    Finset.sum_le_sum fun t _ => (place h t).begun_le
  have hcounter : threadFunc4.counter = .sharedVariable := rfl
  have hfallback : threadFunc4.fallbackCounts = true := rfl
  rw [if_pos hcounter, if_pos hfallback] at hshared
  omega

/-- No addition overflows the `int`. -/
theorem sharedVariable_fits {st : State (T + 1)}
    (h : (system threadFunc4 (T + 1) numValues).Runs tr st) (hint : T * numValues < 2 ^ 31) :
    Fits 32 st.shared.sharedVariable := by
  have hle := sharedVariable_le h
  rw [iterations_of_waiter rfl] at hle
  have hmax : Fits 32 ((T * numValues : Nat) : Int) := by
    unfold Fits
    omega
  exact hmax.of_le (sharedVariable_nonneg h) hle

/-- **Every iteration counts.** In the fourth test, with at least one thread besides thread 0, with
all their iterations in the range of an `int`, and whatever transactions abort. At any moment of any
schedule `sharedVariable` has not overflowed, and thread 0 is held up until at most one iteration of
a single thread is missing. And every fair schedule comes to its end, with all iterations of the
other threads in `sharedVariable` and all aborts in `numAborts`. -/
theorem fair_shared (hT : 0 < T) (hint : T * numValues < 2 ^ 31) :
    (∀ (sched : Nat → Fin (T + 1) × Outcome) (m : Nat),
      Fits 32 ((system threadFunc4 (T + 1) numValues).play sched m).1.shared.sharedVariable ∧
      ((((system threadFunc4 (T + 1) numValues).play sched m).1.regs 0).pc = .done →
        (numValues : Int) - 1 ≤
          ((system threadFunc4 (T + 1) numValues).play sched m).1.shared.sharedVariable)) ∧
    ∀ sched : Nat → Fin (T + 1) × Outcome, Fair Prod.fst sched → ∃ n, ∀ m, n ≤ m →
      Finished ((system threadFunc4 (T + 1) numValues).play sched m).1 ∧
      ((system threadFunc4 (T + 1) numValues).play sched m).1.shared.sharedVariable =
        T * numValues ∧
      ((system threadFunc4 (T + 1) numValues).play sched m).1.shared.numAborts =
        aborts ((system threadFunc4 (T + 1) numValues).play sched m).2 := by
  constructor
  · intro sched m
    have hruns : (system threadFunc4 (T + 1) numValues).Runs
        ((system threadFunc4 (T + 1) numValues).play sched m).2
        ((system threadFunc4 (T + 1) numValues).play sched m).1 := System.runs_play m
    constructor
    · exact sharedVariable_fits hruns hint
    · intro hdone
      exact waited hruns rfl hdone
  · intro sched hfair
    have hsound : threadFunc4.Sound (T + 1) := fun _ => ⟨rfl, rfl, by omega⟩
    obtain ⟨n, hn⟩ := exists_settled numValues hsound hfair
    refine ⟨n, ?_⟩
    intro m hnm
    obtain ⟨hdone, hall, hnum, -, -, hshared⟩ := hn m hnm
    rw [iterations_of_waiter rfl] at hall
    refine ⟨hdone, ?_, hnum⟩
    rw [hshared]
    exact_mod_cast hall

/-- Both threads of `AtomicOps_Test`, with every transaction aborted. -/
theorem fair_shared_two :
    (∀ m, Fits 32 ((system threadFunc4 2 5).play (fun k => ((roundRobin 1 k).1, .aborts xabort))
        m).1.shared.sharedVariable ∧
      ((((system threadFunc4 2 5).play (fun k => ((roundRobin 1 k).1, .aborts xabort))
        m).1.regs 0).pc = .done → ((5 : Nat) : Int) - 1 ≤
      ((system threadFunc4 2 5).play (fun k => ((roundRobin 1 k).1, .aborts xabort))
        m).1.shared.sharedVariable)) ∧
    ∃ n, ∀ m, n ≤ m →
      let st := (system threadFunc4 2 5).play (fun k => ((roundRobin 1 k).1, .aborts xabort)) m
      Finished st.1 ∧ st.1.shared.sharedVariable = (1 : Nat) * (5 : Nat) ∧
        st.1.shared.numAborts = aborts st.2 :=
  have hboth := @fair_shared 1 5 (by decide) (by decide)
  ⟨hboth.1 _, hboth.2 _ (fair_roundRobin 1)⟩

end AtomicTotals

end TsxProject
