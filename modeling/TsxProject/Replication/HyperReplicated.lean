import Mathlib.Data.BitVec
import TsxProject.Infra.Barrier
import TsxProject.Infra.Double
import TsxProject.ThreadUtils

/-!
# Replication on hyper-threads

`thread_task_hyper_replicated` of `TestCoreAffinity.c` with four threads: threads 2 and 3 repeat
the work of threads 0 and 1, which compare the values. `calcFunc t i` is what `Affinity_CalcFunc(i)`
returns in thread `t`; a fault in a thread is a value of its own.

`long long` is `BitVec 64`: a sum that overflows, which the language leaves undefined, wraps around
as the addition of the machine does. The results are doubles, and hold whole numbers.
-/

namespace TsxProject

open Infra

namespace HyperReplicated

abbrev Value : Type := BitVec 64

/-- `Affinity_CalcFunc`, by thread and index. -/
abbrev CalcFunc : Type := Fin 4 → Nat → Value

/-- The calls of `barrierWait(0)`. -/
inductive Site where
  /-- before the loop -/
  | start
  /-- at the end of an iteration -/
  | loop
  deriving DecidableEq

inductive Pc where
  | wait (site : Site)
  /-- in a call of the barrier, until the phase is over -/
  | blocked (site : Site) (phase : Nat)
  /-- `i < endIndex` -/
  | loop
  /-- the call of `Affinity_CalcFunc` -/
  | compute
  /-- `hyperThreadsFinished[__thread_id-2] = 1` -/
  | setFinished
  /-- `while(hyperThreadsFinished[__thread_id] == 0)` -/
  | spin
  | compare
  /-- `hyperThreadsFinished[__thread_id] = 0` -/
  | reset
  /-- `i++` -/
  | next
  /-- `results[__thread_id] = tempResult` -/
  | store
  | done
  deriving DecidableEq

/-- The two shared arrays have an element for each pair of threads. `barriers` are
`barriersCore1[0]` of the threads with even numbers and `barriersCore0[0]` of the others. -/
structure Memory where
  globalTempResults : Fin 2 → Value
  hyperThreadsFinished : Fin 2 → Bool
  barriers : Fin 2 → Barrier
  results : Fin 4 → Int

/-- A thread. -/
structure Worker where
  pc : Pc
  i : Nat
  endIndex : Nat
  tempResult : Value
  localTempResult : Value

inductive Event where
  /-- thread `t` stores its value for index `i` -/
  | calculated (t : Fin 4) (i : Nat)
  /-- thread `t` compares its value `v` for index `i` with `w` -/
  | compared (t : Fin 4) (i : Nat) (v w : Value)
  deriving DecidableEq

def isHyperThread (t : Fin 4) : Bool := t = 2 || t = 3

/-- The pair of a thread: `__thread_id`, less 2 for a hyper-thread. -/
def pair (t : Fin 4) : Fin 2 := ⟨t % 2, Nat.mod_lt _ (by decide)⟩

/-- `THREAD_UTILS_NUM_THREADS / 2` -/
abbrev numPairs : Nat := 2

def Worker.start (numValues : Nat) (t : Fin 4) : Worker where
  pc := .wait .start
  i := rangeStart numValues numPairs (pair t)
  endIndex := rangeEnd numValues numPairs (pair t)
  tempResult := 0
  localTempResult := 0

/-- Where a thread goes on after a call of the barrier. -/
def Site.next : Site → Pc
  | .start => .loop
  | .loop => .next

/-- `thread_task_hyper_replicated` -/
def hyperReplicated (calcFunc : CalcFunc) : Parallel (Fin 4) Unit Memory Worker Event where
  next t _ m s :=
    match s.pc with
    | .wait site =>
      some ({ m with
          barriers := Function.update m.barriers (pair t) ((m.barriers (pair t)).arrive 2) },
        { s with pc := .blocked site (m.barriers (pair t)).phase }, [])
    | .blocked site phase =>
      if (m.barriers (pair t)).phase = phase then none else some (m, { s with pc := site.next }, [])
    | .loop => some (m, { s with pc := if s.i < s.endIndex then .compute else .store }, [])
    | .compute =>
      if isHyperThread t then
        some ({ m with
            globalTempResults := Function.update m.globalTempResults (pair t) (calcFunc t s.i) },
          { s with pc := .setFinished }, [.calculated t s.i])
      else
        some (m, { s with localTempResult := calcFunc t s.i, pc := .spin }, [.calculated t s.i])
    | .setFinished =>
      some ({ m with
          hyperThreadsFinished := Function.update m.hyperThreadsFinished (pair t) true },
        { s with pc := .wait .loop }, [])
    | .spin =>
      some (m, if m.hyperThreadsFinished (pair t) then { s with pc := .compare } else s, [])
    | .compare =>
      some (m,
        if s.localTempResult = m.globalTempResults (pair t) then
          { s with tempResult := s.tempResult + s.localTempResult, pc := .reset }
        else { s with pc := .wait .loop },
        [.compared t s.i s.localTempResult (m.globalTempResults (pair t))])
    | .reset =>
      some ({ m with
          hyperThreadsFinished := Function.update m.hyperThreadsFinished (pair t) false },
        { s with pc := .wait .loop }, [])
    | .next => some (m, { s with i := s.i + 1, pc := .loop }, [])
    | .store =>
      some ({ m with results := Function.update m.results t (toDouble s.tempResult.toInt) },
        { s with pc := .done }, [])
    | .done => none

/-- What a step can do. -/
inductive Step (calcFunc : CalcFunc) (t : Fin 4) (m : Memory) (s : Worker) :
    Memory → Worker → List Event → Prop where
  | wait (site : Site) : s.pc = .wait site →
      Step calcFunc t m s
        { m with barriers := Function.update m.barriers (pair t) ((m.barriers (pair t)).arrive 2) }
        { s with pc := .blocked site (m.barriers (pair t)).phase } []
  | leave (site : Site) (phase : Nat) : s.pc = .blocked site phase →
      (m.barriers (pair t)).phase ≠ phase → Step calcFunc t m s m { s with pc := site.next } []
  | enter : s.pc = .loop → s.i < s.endIndex →
      Step calcFunc t m s m { s with pc := .compute } []
  | exit : s.pc = .loop → ¬ s.i < s.endIndex → Step calcFunc t m s m { s with pc := .store } []
  | share : s.pc = .compute → isHyperThread t = true →
      Step calcFunc t m s
        { m with
          globalTempResults := Function.update m.globalTempResults (pair t) (calcFunc t s.i) }
        { s with pc := .setFinished } [.calculated t s.i]
  | compute : s.pc = .compute → isHyperThread t = false →
      Step calcFunc t m s m { s with localTempResult := calcFunc t s.i, pc := .spin }
        [.calculated t s.i]
  | setFinished : s.pc = .setFinished →
      Step calcFunc t m s
        { m with hyperThreadsFinished := Function.update m.hyperThreadsFinished (pair t) true }
        { s with pc := .wait .loop } []
  | spin : s.pc = .spin → Step calcFunc t m s m s []
  | ready : s.pc = .spin → m.hyperThreadsFinished (pair t) = true →
      Step calcFunc t m s m { s with pc := .compare } []
  | agree : s.pc = .compare → s.localTempResult = m.globalTempResults (pair t) →
      Step calcFunc t m s m
        { s with tempResult := s.tempResult + s.localTempResult, pc := .reset }
        [.compared t s.i s.localTempResult (m.globalTempResults (pair t))]
  | differ : s.pc = .compare → s.localTempResult ≠ m.globalTempResults (pair t) →
      Step calcFunc t m s m { s with pc := .wait .loop }
        [.compared t s.i s.localTempResult (m.globalTempResults (pair t))]
  | reset : s.pc = .reset →
      Step calcFunc t m s
        { m with hyperThreadsFinished := Function.update m.hyperThreadsFinished (pair t) false }
        { s with pc := .wait .loop } []
  | next : s.pc = .next → Step calcFunc t m s m { s with i := s.i + 1, pc := .loop } []
  | store : s.pc = .store →
      Step calcFunc t m s
        { m with results := Function.update m.results t (toDouble s.tempResult.toInt) }
        { s with pc := .done } []

theorem step_cases {calcFunc : CalcFunc} {t : Fin 4} {w : Unit} {m m' : Memory} {s s' : Worker}
    {evs : List Event} (hs : (hyperReplicated calcFunc).next t w m s = some (m', s', evs)) :
    Step calcFunc t m s m' s' evs := by
  cases hpc : s.pc with
  | wait site =>
    simp only [hyperReplicated, hpc] at hs
    cases hs
    exact .wait site hpc
  | blocked site phase =>
    simp only [hyperReplicated, hpc] at hs
    split at hs <;> cases hs
    next hphase => exact .leave site phase hpc hphase
  | loop =>
    simp only [hyperReplicated, hpc] at hs
    cases hs
    split
    · next hlt => exact .enter hpc hlt
    · next hge => exact .exit hpc hge
  | compute =>
    simp only [hyperReplicated, hpc] at hs
    split at hs <;> cases hs
    · next ht => exact .share hpc ht
    · next ht => exact .compute hpc (Bool.eq_false_iff.mpr ht)
  | spin =>
    simp only [hyperReplicated, hpc] at hs
    cases hs
    split
    · next hflag => exact .ready hpc hflag
    · exact .spin hpc
  | compare =>
    simp only [hyperReplicated, hpc] at hs
    cases hs
    split
    · next heq => exact .agree hpc heq
    · next hne => exact .differ hpc hne
  | setFinished =>
    simp only [hyperReplicated, hpc] at hs
    cases hs
    exact .setFinished hpc
  | reset =>
    simp only [hyperReplicated, hpc] at hs
    cases hs
    exact .reset hpc
  | next =>
    simp only [hyperReplicated, hpc] at hs
    cases hs
    exact .next hpc
  | store =>
    simp only [hyperReplicated, hpc] at hs
    cases hs
    exact .store hpc
  | done =>
    simp only [hyperReplicated, hpc] at hs
    cases hs

abbrev State : Type := Threads (Fin 4) Memory Worker

def system (calcFunc : CalcFunc) (numValues : Nat) : System (Fin 4 × Unit) State Event :=
  (hyperReplicated calcFunc).system
    ⟨⟨fun _ => 0, fun _ => false, fun _ => .init, fun _ => 0⟩, Worker.start numValues⟩

/-- The first thread of pair `p`, which compares. -/
def main (p : Fin 2) : Fin 4 := ⟨p, by omega⟩

/-- The hyper-thread of pair `p`. -/
def hyper (p : Fin 2) : Fin 4 := ⟨p + 2, by omega⟩

/-- The indices of a pair at which the values of both threads agree. -/
def agreeing (calcFunc : CalcFunc) (numValues : Nat) (p : Fin 2) : Finset Nat :=
  (Finset.Ico (rangeStart numValues numPairs p) (rangeEnd numValues numPairs p)).filter
    fun i => calcFunc (main p) i = calcFunc (hyper p) i

/-- The index, if the event is that thread `t` stores a value. -/
def Event.index (t : Fin 4) : Event → Option Nat
  | .calculated u i => if u = t then some i else none
  | .compared .. => none

/-- The index that the last value of thread `t` was computed for. -/
def lastIndex (t : Fin 4) (tr : List Event) : Option Nat :=
  (tr.filterMap (Event.index t)).getLast?

/-- A comparison is of two values for the same index. -/
def SameIndex (before : List Event) (e : Event) : Prop :=
  ∀ p i v w, e = .compared (main p) i v w →
    lastIndex (main p) before = some i ∧ lastIndex (hyper p) before = some i

/-- What is asked of the replication. -/
structure Correct (calcFunc : CalcFunc) (numValues : Nat) (tr : List Event) (st : State) :
    Prop where
  /-- each comparison is of the values of both threads for the same index -/
  sameIndex : Preceded SameIndex tr
  values : ∀ p i v w, .compared (main p) i v w ∈ tr →
    v = calcFunc (main p) i ∧ w = calcFunc (hyper p) i
  /-- the results are the sums over the indices at which the values agree, as doubles -/
  results : ∀ p, (st.regs (main p)).pc = .done →
    st.shared.results (main p) =
      toDouble (∑ i ∈ agreeing calcFunc numValues p, calcFunc (main p) i).toInt
  /-- and the sums themselves where these have at most 53 bits -/
  exactResults : ∀ p, (st.regs (main p)).pc = .done →
    (∑ i ∈ agreeing calcFunc numValues p, (calcFunc (main p) i).toInt).natAbs < 2 ^ 53 →
    st.shared.results (main p) =
      ∑ i ∈ agreeing calcFunc numValues p, (calcFunc (main p) i).toInt

end HyperReplicated

end TsxProject
