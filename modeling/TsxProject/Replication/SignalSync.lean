import TsxProject.Infra.Mutex

/-!
# Replication with condition variables

`ThreadReplicationFunc_SignalSync` of `TestTSX.c`: thread 1 computes a value for each index, and
thread 0 computes it too, compares, and tells the outcome. A mutex and two condition variables
bring them together; wake-ups may be spurious. Thread `t` has index `t`. The value of thread 1 for
index 8 is wrong once, on purpose. `NUM_VALUES` is a parameter, and messages are not printed.

Each step has a choice of the environment: a thread that waits for a signal may wake up without.
-/

namespace TsxProject

open Infra

namespace SignalSync

inductive IterationStatus where
  | started
  | replicationFinished
  | successfull
  | failed
  deriving DecidableEq

/-- The number of an `IterationStatus`. -/
def IterationStatus.toNat : IterationStatus → Nat
  | .started => 0
  | .replicationFinished => 1
  | .successfull => 2
  | .failed => 3

/-- `ThreadReplicationCalcFun`. The sum that it computes is not what it returns. -/
def calcFun (_index : Int) : Int := 1

inductive Pc where
  /-- `i < NUM_VALUES` -/
  | loop
  /-- `v1` or `v2 = ThreadReplicationCalcFun(i)` -/
  | calculate
  /-- the injected fault -/
  | inject
  /-- `pthread_mutex_lock(&syncMutex)` -/
  | lock
  /-- `iterationStatus = replicationFinished` -/
  | publish
  /-- the test of the inner loop -/
  | test
  | signal
  /-- the start of `pthread_cond_wait` -/
  | wait
  /-- in `pthread_cond_wait`, without the mutex -/
  | waiting
  /-- at the end of `pthread_cond_wait` -/
  | reacquire
  | compare
  /-- `pthread_mutex_unlock(&syncMutex)` -/
  | unlock
  /-- `if(iterationStatus == failed)`, which both threads execute -/
  | check
  /-- `result += v1` -/
  | add
  /-- `i++` -/
  | next
  | done
  deriving DecidableEq

/-- The globals. Only thread 0 waits for `t2_calculated` and only thread 1 for `verification_done`;
`blocked t` is whether thread `t` does. -/
structure Memory where
  v1 : Int
  v2 : Int
  iterationStatus : IterationStatus
  firstTime : Bool
  syncMutex : Option (Fin 2)
  blocked : Fin 2 → Bool

/-- A thread. -/
structure Worker where
  pc : Pc
  i : Int
  result : Int

inductive Event where
  /-- thread `t` stores its value for index `i` -/
  | calculated (t : Fin 2) (i : Int)
  /-- thread 0, at index `i`, compares the two values -/
  | compared (i : Int) (fails : Bool)
  /-- thread `t`, at index `i`, tries again or goes on -/
  | decided (t : Fin 2) (i : Int) (again : Bool)
  deriving DecidableEq

/-- `ThreadReplicationFunc_SignalSync` -/
def signalSync (numValues : Nat) : Parallel (Fin 2) Bool Memory Worker Event where
  next t spurious m s :=
    match s.pc with
    | .loop => some (m, { s with pc := if s.i < numValues then .calculate else .done }, [])
    | .calculate =>
      if t = 1 then
        some ({ m with v2 := calcFun s.i }, { s with pc := .inject }, [.calculated t s.i])
      else some ({ m with v1 := calcFun s.i }, { s with pc := .lock }, [.calculated t s.i])
    | .inject =>
      if s.i = 8 ∧ m.firstTime then
        some ({ m with firstTime := false, v2 := 2 }, { s with pc := .lock }, [])
      else some (m, { s with pc := .lock }, [])
    | .lock =>
      if m.syncMutex = none then
        some ({ m with syncMutex := some t }, { s with pc := if t = 1 then .publish else .test },
          [])
      else none
    | .publish =>
      some ({ m with iterationStatus := .replicationFinished }, { s with pc := .test }, [])
    | .test =>
      if t = 1 then
        some (m, { s with pc := if m.iterationStatus.toNat < 2 then .signal else .unlock }, [])
      else
        some (m,
          { s with pc := if m.iterationStatus ≠ .replicationFinished then .wait else .compare }, [])
    | .signal =>
      some ({ m with blocked := Function.update m.blocked (1 - t) false },
        { s with pc := if t = 1 then .wait else .unlock }, [])
    | .wait =>
      some ({ m with syncMutex := none, blocked := Function.update m.blocked t true },
        { s with pc := .waiting }, [])
    | .waiting =>
      if m.blocked t && !spurious then none
      else
        some ({ m with blocked := Function.update m.blocked t false }, { s with pc := .reacquire },
          [])
    | .reacquire =>
      if m.syncMutex = none then some ({ m with syncMutex := some t }, { s with pc := .test }, [])
      else none
    | .compare =>
      some ({ m with iterationStatus := if m.v1 ≠ m.v2 then .failed else .successfull },
        { s with pc := .signal }, [.compared s.i (m.v1 ≠ m.v2)])
    | .unlock => some ({ m with syncMutex := none }, { s with pc := .check }, [])
    | .check =>
      if m.iterationStatus = .failed then
        some (m, { s with i := s.i - 1, pc := .next }, [.decided t s.i true])
      else some (m, { s with pc := .add }, [.decided t s.i false])
    | .add => some (m, { s with result := s.result + m.v1, pc := .next }, [])
    | .next => some (m, { s with i := s.i + 1, pc := .loop }, [])
    | .done => none

/-- What a step can do. -/
inductive Step (numValues : Nat) (t : Fin 2) (w : Bool) (m : Memory) (s : Worker) :
    Memory → Worker → List Event → Prop where
  | enter : s.pc = .loop → s.i < numValues → Step numValues t w m s m { s with pc := .calculate } []
  | exit : s.pc = .loop → ¬ s.i < numValues → Step numValues t w m s m { s with pc := .done } []
  | calculateMain : s.pc = .calculate → t = 0 →
      Step numValues t w m s { m with v1 := calcFun s.i } { s with pc := .lock }
        [.calculated t s.i]
  | calculate : s.pc = .calculate → t = 1 →
      Step numValues t w m s { m with v2 := calcFun s.i } { s with pc := .inject }
        [.calculated t s.i]
  | fault : s.pc = .inject → s.i = 8 ∧ m.firstTime = true →
      Step numValues t w m s { m with firstTime := false, v2 := 2 } { s with pc := .lock } []
  | noFault : s.pc = .inject → ¬ (s.i = 8 ∧ m.firstTime = true) →
      Step numValues t w m s m { s with pc := .lock } []
  | lockMain : s.pc = .lock → t = 0 → m.syncMutex = none →
      Step numValues t w m s { m with syncMutex := some t } { s with pc := .test } []
  | lock : s.pc = .lock → t = 1 → m.syncMutex = none →
      Step numValues t w m s { m with syncMutex := some t } { s with pc := .publish } []
  | publish : s.pc = .publish →
      Step numValues t w m s { m with iterationStatus := .replicationFinished }
        { s with pc := .test } []
  | missing : s.pc = .test → t = 0 → m.iterationStatus ≠ .replicationFinished →
      Step numValues t w m s m { s with pc := .wait } []
  | available : s.pc = .test → t = 0 → m.iterationStatus = .replicationFinished →
      Step numValues t w m s m { s with pc := .compare } []
  | pending : s.pc = .test → t = 1 → m.iterationStatus.toNat < 2 →
      Step numValues t w m s m { s with pc := .signal } []
  | verified : s.pc = .test → t = 1 → ¬ m.iterationStatus.toNat < 2 →
      Step numValues t w m s m { s with pc := .unlock } []
  | signalMain : s.pc = .signal → t = 0 →
      Step numValues t w m s { m with blocked := Function.update m.blocked (1 - t) false }
        { s with pc := .unlock } []
  | signal : s.pc = .signal → t = 1 →
      Step numValues t w m s { m with blocked := Function.update m.blocked (1 - t) false }
        { s with pc := .wait } []
  | wait : s.pc = .wait →
      Step numValues t w m s
        { m with syncMutex := none, blocked := Function.update m.blocked t true }
        { s with pc := .waiting } []
  | wake : s.pc = .waiting → (m.blocked t = true → w = true) →
      Step numValues t w m s { m with blocked := Function.update m.blocked t false }
        { s with pc := .reacquire } []
  | reacquire : s.pc = .reacquire → m.syncMutex = none →
      Step numValues t w m s { m with syncMutex := some t } { s with pc := .test } []
  | compare : s.pc = .compare →
      Step numValues t w m s
        { m with iterationStatus := if m.v1 ≠ m.v2 then .failed else .successfull }
        { s with pc := .signal } [.compared s.i (m.v1 ≠ m.v2)]
  | unlock : s.pc = .unlock →
      Step numValues t w m s { m with syncMutex := none } { s with pc := .check } []
  | retry : s.pc = .check → m.iterationStatus = .failed →
      Step numValues t w m s m { s with i := s.i - 1, pc := .next } [.decided t s.i true]
  | accept : s.pc = .check → m.iterationStatus ≠ .failed →
      Step numValues t w m s m { s with pc := .add } [.decided t s.i false]
  | add : s.pc = .add →
      Step numValues t w m s m { s with result := s.result + m.v1, pc := .next } []
  | next : s.pc = .next → Step numValues t w m s m { s with i := s.i + 1, pc := .loop } []

theorem step_cases {numValues : Nat} {t : Fin 2} {w : Bool} {m m' : Memory} {s s' : Worker}
    {evs : List Event} (hs : (signalSync numValues).next t w m s = some (m', s', evs)) :
    Step numValues t w m s m' s' evs := by
  have hmain : t ≠ 1 → t = 0 := by omega
  cases hpc : s.pc with
  | loop =>
    simp only [signalSync, hpc] at hs
    cases hs
    split
    · next hlt => exact .enter hpc hlt
    · next hge => exact .exit hpc hge
  | calculate =>
    simp only [signalSync, hpc] at hs
    split at hs <;> cases hs
    · next ht => exact .calculate hpc ht
    · next ht => exact .calculateMain hpc (hmain ht)
  | inject =>
    simp only [signalSync, hpc] at hs
    split at hs <;> cases hs
    · next hfault => exact .fault hpc hfault
    · next hfault => exact .noFault hpc hfault
  | lock =>
    simp only [signalSync, hpc] at hs
    split at hs <;> cases hs
    next hfree =>
    split
    · next ht => exact .lock hpc ht hfree
    · next ht => exact .lockMain hpc (hmain ht) hfree
  | test =>
    simp only [signalSync, hpc] at hs
    split at hs <;> cases hs
    · next ht =>
      split
      · next hlt => exact .pending hpc ht hlt
      · next hge => exact .verified hpc ht hge
    · next ht =>
      split
      · next hne => exact .missing hpc (hmain ht) hne
      · next heq => exact .available hpc (hmain ht) (not_not.mp heq)
  | signal =>
    simp only [signalSync, hpc] at hs
    cases hs
    split
    · next ht => exact .signal hpc ht
    · next ht => exact .signalMain hpc (hmain ht)
  | waiting =>
    simp only [signalSync, hpc] at hs
    split at hs <;> cases hs
    next hfree =>
    refine .wake hpc fun hblocked => ?_
    rw [hblocked] at hfree
    simpa using hfree
  | reacquire =>
    simp only [signalSync, hpc] at hs
    split at hs <;> cases hs
    next hfree => exact .reacquire hpc hfree
  | check =>
    simp only [signalSync, hpc] at hs
    split at hs <;> cases hs
    · next hfailed => exact .retry hpc hfailed
    · next hfailed => exact .accept hpc hfailed
  | publish =>
    simp only [signalSync, hpc] at hs
    cases hs
    exact .publish hpc
  | wait =>
    simp only [signalSync, hpc] at hs
    cases hs
    exact .wait hpc
  | compare =>
    simp only [signalSync, hpc] at hs
    cases hs
    exact .compare hpc
  | unlock =>
    simp only [signalSync, hpc] at hs
    cases hs
    exact .unlock hpc
  | add =>
    simp only [signalSync, hpc] at hs
    cases hs
    exact .add hpc
  | next =>
    simp only [signalSync, hpc] at hs
    cases hs
    exact .next hpc
  | done =>
    simp only [signalSync, hpc] at hs
    cases hs

abbrev State : Type := Threads (Fin 2) Memory Worker

def system (numValues : Nat) : System (Fin 2 × Bool) State Event :=
  (signalSync numValues).system
    ⟨⟨-1, -1, .started, true, none, fun _ => false⟩, fun _ => ⟨.loop, 0, 0⟩⟩

def Finished (st : State) : Prop := ∀ t, (st.regs t).pc = .done

/-! ## What is asked of the protocol -/

def Event.comparison : Event → Option (Int × Bool)
  | .compared i fails => some (i, fails)
  | _ => none

def Event.decision (t : Fin 2) : Event → Option (Int × Bool)
  | .decided u i again => if u = t then some (i, again) else none
  | _ => none

def Event.index (t : Fin 2) : Event → Option Int
  | .calculated u i => if u = t then some i else none
  | _ => none

/-- The comparisons so far, by index and outcome. -/
def comparisons (tr : List Event) : List (Int × Bool) := tr.filterMap Event.comparison

/-- The decisions of thread `t` so far. -/
def decisions (t : Fin 2) (tr : List Event) : List (Int × Bool) := tr.filterMap (Event.decision t)

/-- The index that the last value of thread `t` was computed for. -/
def lastIndex (t : Fin 2) (tr : List Event) : Option Int :=
  (tr.filterMap (Event.index t)).getLast?

/-- A comparison is of two values for the same index. -/
def SameIndex (before : List Event) : Event → Prop
  | .compared i _ => lastIndex 0 before = some i ∧ lastIndex 1 before = some i
  | _ => True

/-- Thread `t` is in its inner loop, and the other thread has still to do something for it. -/
def Waits (t : Fin 2) (st : State) : Prop :=
  ((st.regs t).pc = .test ∨ (st.regs t).pc = .wait ∨ (st.regs t).pc = .waiting ∨
    (st.regs t).pc = .reacquire ∨ t = 1 ∧ (st.regs t).pc = .signal) ∧
  if t = 1 then st.shared.iterationStatus.toNat < 2
  else st.shared.iterationStatus ≠ .replicationFinished

/-- Thread 1 is about to store `replicationFinished` over `failed`, which thread 0 has still to
read. -/
def Overtakes (l : Fin 2 × Bool) (st : State) : Prop :=
  l.1 = 1 ∧ (st.regs 1).pc = .publish ∧ (st.regs 0).pc = .check ∧
    st.shared.iterationStatus = .failed

instance (l : Fin 2 × Bool) (st : State) : Decidable (Overtakes l st) :=
  inferInstanceAs (Decidable (_ ∧ _))

end SignalSync

end TsxProject
