import TsxProject.Infra.Parallel
import TsxProject.ThreadUtils
import TsxProject.Tsx.Status

/-!
# The test of recovery by transactions

`Transactions_Test` of `TestTSX.c` with both of its thread functions. `double` values are sums of
small integers and exact. The loops with `sqrt` in `Transactions_CalculateValue` have no effect and
are left out, as is the printing of messages.

Each step has a choice of the environment: what becomes of a transaction and what `rand()` returns.
-/

namespace TsxProject

open Infra

namespace Transactions

open Tsx

/-- The globals. Arrays are functions on their indices. -/
structure Memory where
  values : Int → Int
  errors : Int → Bool
  results : Nat → Int
  errorsInjected : Nat

/-- `(rand() % ERROR_PROBABILITY) == 1` -/
def draw (r : Nat) : Bool := r % 6000000 = 1

/-! ## `Transactions_InitValues` -/

/-- The loop over the first `i` values; `rand` are the results of `rand()` one after the other. -/
def initValuesLoop (rand : Nat → Nat) : Nat → Memory → Memory
  | 0, m => m
  | i + 1, m =>
    let m := initValuesLoop rand i m
    { m with
      values := Function.update m.values i i,
      errors := Function.update m.errors i (draw (rand i)),
      errorsInjected := if draw (rand i) then m.errorsInjected + 1 else m.errorsInjected }

/-- `Transactions_InitValues`. The array of results is newly allocated, and cleared. -/
def initValues (n : Nat) (rand : Nat → Nat) (m : Memory) : Memory :=
  { initValuesLoop rand n { m with errorsInjected := 0 } with results := fun _ => 0 }

/-! ## The threads -/

/-- `Transactions_CalculateValue` -/
def calculateValue (errors : Int → Bool) (n : Int) : Int := if errors n then 2 else 1

/-- What the environment chooses in a step. -/
structure Choice where
  outcome : Outcome
  rand : Nat

inductive Pc where
  /-- `i < endIndex` -/
  | loop
  /-- from `_xbegin` to `_xend` or the abort -/
  | transaction
  /-- the tests of the status and the store to `errors[i]` -/
  | fallback (st : AbortStatus)
  /-- `Transactions_CalculateValue(i)` outside of a transaction -/
  | calculate
  /-- `i++` -/
  | next
  /-- `results[threadIndex] = result` -/
  | store
  | done
  deriving DecidableEq

/-- A thread. -/
structure Worker where
  pc : Pc
  i : Int
  endIndex : Int
  retriedTimes : Nat
  result : Int

/-- What thread `t` leaves in the trace. -/
inductive Event (T : Nat) where
  /-- the loop test passes for index `i` -/
  | begun (t : Fin T) (i : Int) (retriedTimes : Nat)
  /-- a transaction commits the value `v` -/
  | committed (t : Fin T) (i v : Int)
  /-- after an abort, index `i` is tried again -/
  | retried (t : Fin T) (i : Int) (st : AbortStatus)
  /-- after an abort, index `i` goes to the non-transactional path, with the flag drawn for it -/
  | fellBack (t : Fin T) (i : Int) (st : AbortStatus) (flag : Bool)
  /-- the value `v` is added outside of a transaction -/
  | calculated (t : Fin T) (i v : Int)

def Worker.start (n T : Nat) (t : Fin T) : Worker where
  pc := .loop
  i := rangeStart n T t
  endIndex := rangeEnd n T t
  retriedTimes := 0
  result := 0

/-- The body of the transaction: `none` when it calls `_xabort`. -/
def Worker.body (m : Memory) (s : Worker) : Option (Worker × Int) :=
  let v1 := calculateValue m.errors s.i
  let v2 := calculateValue m.errors s.i
  if v1 = 2 ∨ v2 = 2 then none
  else some ({ s with result := s.result + v1, retriedTimes := 0, pc := .next }, v1)

/-- The two tests of the status: whether the index is tried again, and `retriedTimes` after them. -/
def Worker.retries (st : AbortStatus) (s : Worker) : Bool × Nat :=
  if wasExplicitAbort st.bits then
    if s.retriedTimes < 5 then (true, s.retriedTimes + 1)
    else (isRetryPossible st.bits, s.retriedTimes + 1)
  else (isRetryPossible st.bits, s.retriedTimes)

/-- `Thread_FuncWithTM` -/
def funcWithTM (T : Nat) : Parallel (Fin T) Choice Memory Worker (Event T) where
  next t w m s :=
    match s.pc with
    | .loop =>
      if s.i < s.endIndex then
        some (m, { s with pc := .transaction }, [.begun t s.i s.retriedTimes])
      else some (m, { s with pc := .store }, [])
    | .transaction =>
      match w.outcome with
      | .aborts st => some (m, { s with pc := .fallback st }, [])
      | .completes =>
        match s.body m with
        | none => some (m, { s with pc := .fallback xabort }, [])
        | some (s', v1) => some (m, s', [.committed t s.i v1])
    | .fallback st =>
      let m' := { m with errors := Function.update m.errors s.i (draw w.rand) }
      let s' := { s with retriedTimes := (s.retries st).2 }
      if (s.retries st).1 then
        some (m', { s' with i := s.i - 1, pc := .next }, [.retried t s.i st])
      else some (m', { s' with pc := .calculate }, [.fellBack t s.i st (draw w.rand)])
    | .calculate =>
      let v1 := calculateValue m.errors s.i
      some (m, { s with result := s.result + v1, retriedTimes := 0, pc := .next },
        [.calculated t s.i v1])
    | .next => some (m, { s with i := s.i + 1, pc := .loop }, [])
    | .store =>
      some ({ m with results := Function.update m.results t s.result }, { s with pc := .done }, [])
    | .done => none

/-- What a step can do. A transaction runs to its end only where the flag is not set. -/
inductive StepWithTM {T : Nat} (t : Fin T) (w : Choice) (m : Memory) (s : Worker) :
    Memory → Worker → List (Event T) → Prop where
  | enter : s.pc = .loop → s.i < s.endIndex →
      StepWithTM t w m s m { s with pc := .transaction } [.begun t s.i s.retriedTimes]
  | exit : s.pc = .loop → ¬ s.i < s.endIndex → StepWithTM t w m s m { s with pc := .store } []
  | abort (st : AbortStatus) : s.pc = .transaction →
      (w.outcome = .aborts st ∨ st = xabort) → StepWithTM t w m s m { s with pc := .fallback st } []
  | commit : s.pc = .transaction → m.errors s.i = false →
      StepWithTM t w m s m { s with result := s.result + 1, retriedTimes := 0, pc := .next }
        [.committed t s.i 1]
  | retry (st : AbortStatus) : s.pc = .fallback st → (s.retries st).1 = true →
      StepWithTM t w m s { m with errors := Function.update m.errors s.i (draw w.rand) }
        { s with i := s.i - 1, retriedTimes := (s.retries st).2, pc := .next } [.retried t s.i st]
  | fallBack (st : AbortStatus) : s.pc = .fallback st → (s.retries st).1 = false →
      StepWithTM t w m s { m with errors := Function.update m.errors s.i (draw w.rand) }
        { s with retriedTimes := (s.retries st).2, pc := .calculate }
        [.fellBack t s.i st (draw w.rand)]
  | calculate : s.pc = .calculate →
      StepWithTM t w m s m
        { s with
          result := s.result + calculateValue m.errors s.i, retriedTimes := 0, pc := .next }
        [.calculated t s.i (calculateValue m.errors s.i)]
  | next : s.pc = .next → StepWithTM t w m s m { s with i := s.i + 1, pc := .loop } []
  | store : s.pc = .store →
      StepWithTM t w m s { m with results := Function.update m.results t s.result }
        { s with pc := .done } []

theorem Worker.body_eq (m : Memory) (s : Worker) :
    s.body m = if m.errors s.i then none
      else some ({ s with result := s.result + 1, retriedTimes := 0, pc := .next }, 1) := by
  unfold Worker.body calculateValue
  cases m.errors s.i <;> rfl

theorem funcWithTM_cases {T : Nat} {t : Fin T} {w : Choice} {m m' : Memory} {s s' : Worker}
    {evs : List (Event T)} (hs : (funcWithTM T).next t w m s = some (m', s', evs)) :
    StepWithTM t w m s m' s' evs := by
  cases hpc : s.pc with
  | loop =>
    simp only [funcWithTM, hpc] at hs
    split at hs <;> cases hs
    · next hlt => exact .enter hpc hlt
    · next hge => exact .exit hpc hge
  | transaction =>
    simp only [funcWithTM, hpc, Worker.body_eq] at hs
    split at hs
    · next st hout =>
      cases hs
      exact .abort st hpc (.inl hout)
    · cases hflag : m.errors s.i with
      | false =>
        simp only [hflag, Bool.false_eq_true, if_false] at hs
        cases hs
        exact .commit hpc hflag
      | true =>
        simp only [hflag, if_true] at hs
        cases hs
        exact .abort xabort hpc (.inr rfl)
  | fallback st =>
    simp only [funcWithTM, hpc] at hs
    split at hs <;> cases hs
    · next hretry => exact .retry st hpc hretry
    · next hretry => exact .fallBack st hpc (Bool.eq_false_iff.mpr hretry)
  | calculate =>
    simp only [funcWithTM, hpc] at hs
    cases hs
    exact .calculate hpc
  | next =>
    simp only [funcWithTM, hpc] at hs
    cases hs
    exact .next hpc
  | store =>
    simp only [funcWithTM, hpc] at hs
    cases hs
    exact .store hpc
  | done =>
    simp only [funcWithTM, hpc] at hs
    cases hs

/-- `Thread_Func` -/
def func (T : Nat) : Parallel (Fin T) Choice Memory Worker (Event T) where
  next t _ m s :=
    match s.pc with
    | .loop =>
      if s.i < s.endIndex then some (m, { s with pc := .calculate }, [])
      else some (m, { s with pc := .store }, [])
    | .calculate =>
      let v := calculateValue m.errors (m.values s.i)
      some (m, { s with result := s.result + v, pc := .next }, [.calculated t s.i v])
    | .next => some (m, { s with i := s.i + 1, pc := .loop }, [])
    | .store =>
      some ({ m with results := Function.update m.results t s.result }, { s with pc := .done }, [])
    | _ => none

/-- What a step of a thread without transactions can do. -/
inductive Step {T : Nat} (t : Fin T) (m : Memory) (s : Worker) :
    Memory → Worker → List (Event T) → Prop where
  | enter : s.pc = .loop → s.i < s.endIndex → Step t m s m { s with pc := .calculate } []
  | exit : s.pc = .loop → ¬ s.i < s.endIndex → Step t m s m { s with pc := .store } []
  | calculate : s.pc = .calculate →
      Step t m s m
        { s with result := s.result + calculateValue m.errors (m.values s.i), pc := .next }
        [.calculated t s.i (calculateValue m.errors (m.values s.i))]
  | next : s.pc = .next → Step t m s m { s with i := s.i + 1, pc := .loop } []
  | store : s.pc = .store →
      Step t m s { m with results := Function.update m.results t s.result }
        { s with pc := .done } []

theorem func_cases {T : Nat} {t : Fin T} {w : Choice} {m m' : Memory} {s s' : Worker}
    {evs : List (Event T)} (hs : (func T).next t w m s = some (m', s', evs)) :
    Step t m s m' s' evs := by
  cases hpc : s.pc with
  | loop =>
    simp only [func, hpc] at hs
    split at hs <;> cases hs
    · next hlt => exact .enter hpc hlt
    · next hge => exact .exit hpc hge
  | calculate =>
    simp only [func, hpc] at hs
    cases hs
    exact .calculate hpc
  | next =>
    simp only [func, hpc] at hs
    cases hs
    exact .next hpc
  | store =>
    simp only [func, hpc] at hs
    cases hs
    exact .store hpc
  | transaction | fallback st | done =>
    simp only [func, hpc] at hs
    cases hs

/-! ## `Transactions_Test` -/

abbrev State (T : Nat) : Type := Threads (Fin T) Memory Worker

/-- The threads of `Transactions_Test(numThreads, usingTM)` after `Transactions_InitValues`. Thread
`t` has index `t`. -/
def system (usingTM : Bool) (n T : Nat) (rand : Nat → Nat) (m : Memory) :
    System (Fin T × Choice) (State T) (Event T) :=
  (if usingTM then funcWithTM T else func T).system ⟨initValues n rand m, Worker.start n T⟩

/-- All threads have been joined. -/
def Finished {T : Nat} (s : State T) : Prop := ∀ t, (s.regs t).pc = .done

/-- The loop that adds up the results of the first `i` threads. -/
def sumResults (results : Nat → Int) : Nat → Int
  | 0 => 0
  | i + 1 => sumResults results i + results i

/-- `finalResult` -/
def finalResult (T : Nat) (m : Memory) : Int := sumResults m.results T

/-- What `Transactions_Test` returns once the threads have been joined. -/
def returned (n T : Nat) (m : Memory) : Int := if finalResult T m = n then 1 else 0

/-! ## The trace -/

/-- The event settles an index, by a commit or outside of a transaction. -/
def Event.settles {T : Nat} : Event T → Option Int
  | .committed _ i _ | .calculated _ i _ => some i
  | _ => none

/-- The indices settled, each as often as it is. -/
def settled {T : Nat} (tr : List (Event T)) : List Int := tr.filterMap Event.settles

/-- An index goes to the non-transactional path with its flag set. -/
def Event.faulty {T : Nat} : Event T → Bool
  | .fellBack _ _ _ flag => flag
  | _ => false

/-- How many indices have gone there so. -/
def faulty {T : Nat} (tr : List (Event T)) : Nat := tr.countP Event.faulty

/-- The thread of an event. -/
def Event.owner {T : Nat} : Event T → Fin T
  | .begun t _ _ | .committed t _ _ | .retried t _ _ | .fellBack t _ _ _ | .calculated t _ _ => t

end Transactions

end TsxProject
