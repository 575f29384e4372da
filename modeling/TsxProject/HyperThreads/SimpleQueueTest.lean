import Mathlib.Data.BitVec
import TsxProject.Queues.SimpleQueue
import TsxProject.VectorMatrix.Threads

/-!
# The test of `SimpleQueue`

`TestSimpleQueue_Producer` and `TestSimpleQueue_Consumer` of `FirstTestHyperThreads.c`, with the
values of `CalcFunction` as a stream of the producer and a stream of the consumer. What happens
between two accesses to the queue is local to a thread, and an iteration of it is one step.

`producerResult` and `consumerResult` are globals that one thread alone uses while both run, so
they are kept with that thread.
-/

namespace TsxProject

open Infra

/-- `long`, with the wrapping `+` and the `^` of the code. -/
abbrev Long : Type := BitVec 64

namespace SimpleQueueTest

open SimpleQueue (EnqueuePc DequeuePc CallEvent)

/-! ## `TestSimpleQueue_Producer` -/

inductive ProducerPc (N : Nat) where
  /-- `i < NUM_VALUES` -/
  | loop
  /-- `j < MODULO` -/
  | inner
  /-- inside `SimpleQueue_Enqueue(&simpleQueue, v)` -/
  | enqueue (v : Long) (e : EnqueuePc N)
  /-- `producerResult = result` -/
  | finish
  | done
  deriving DecidableEq

/-- `sent` counts the calls of `SimpleQueue_Enqueue` that have returned. -/
structure Producer (N : Nat) where
  pc : ProducerPc N
  i : Nat
  j : Nat
  residue : Nat
  result : Long
  xorMine : Long
  auxValues : Nat → Long
  sent : Nat
  producerResult : Long

/-- `auxValues` is not initialised. -/
def Producer.start (N : Nat) (auxValues : Nat → Long) : Producer N where
  pc := .loop
  i := 0
  j := 0
  residue := 0
  result := 0
  xorMine := 0
  auxValues := auxValues
  sent := 0
  producerResult := 0

/-- One iteration of the loop of the mode, up to the call that it makes. -/
def Producer.iteration (M : Nat) (freq : CheckFrequency) (p : Nat → Long) {N : Nat}
    (s : Producer N) : Producer N :=
  match freq with
  | .everyTime =>
    { s with result := s.result + p s.i, pc := .enqueue (p s.i) .next }
  | .eachModuloTimes =>
    let s' := { s with
      auxValues := Function.update s.auxValues s.residue (p s.i),
      result := s.result + p s.i, residue := s.residue + 1 }
    if s.residue = M - 1 then { s' with j := 0, pc := .inner } else { s' with i := s.i + 1 }
  | .encoding =>
    let s' := { s with
      result := s.result + p s.i, xorMine := s.xorMine ^^^ p s.i, residue := s.residue + 1 }
    if s.residue = M - 1 then { s' with pc := .enqueue (s.xorMine ^^^ p s.i) .next }
    else { s' with i := s.i + 1 }
  | _ => { s with pc := .finish }

/-- What follows a call. -/
def Producer.afterEnqueue (freq : CheckFrequency) {N : Nat} (s : Producer N) : Producer N :=
  let s' := { s with sent := s.sent + 1 }
  match freq with
  | .everyTime => { s' with i := s.i + 1, pc := .loop }
  | .eachModuloTimes => { s' with j := s.j + 1, pc := .inner }
  | .encoding => { s' with xorMine := 0, residue := 0, i := s.i + 1, pc := .loop }
  | _ => { s' with pc := .finish }

/-- `n` is `NUM_VALUES` and `M` is `MODULO`. -/
def producer (n M : Nat) (freq : CheckFrequency) (p : Nat → Long) {N : Nat} [NeZero N]
    (s : Producer N) : Instr (SimpleQueue N) (Producer N) (CallEvent N) :=
  match s.pc with
  | .loop =>
    if s.i < n then .skip (s.iteration M freq p) [] else .skip { s with pc := .finish } []
  | .inner =>
    if s.j < M then .skip { s with pc := .enqueue (s.auxValues s.j) .next } []
    else .skip { s with residue := 0, i := s.i + 1, pc := .loop } []
  | .enqueue v e =>
    SimpleQueue.enqueue v.toInt (fun e => { s with pc := .enqueue v e })
      (s.afterEnqueue freq, [.enqueued v.toInt]) (fun k => [.stored k v.toInt]) e
  | .finish => .skip { s with producerResult := s.result, pc := .done } []
  | .done => .halt

/-! ## `TestSimpleQueue_Consumer` -/

inductive ConsumerPc (N : Nat) where
  /-- `i < NUM_VALUES` -/
  | loop
  /-- `j < MODULO` -/
  | inner
  /-- inside `SimpleQueue_Dequeue(&simpleQueue)` -/
  | dequeue (e : DequeuePc N)
  /-- the comparison with the dequeued value -/
  | compare (otherValue : Long)
  /-- `consumerResult = result` -/
  | finish
  | done
  /-- "AN ERROR WAS FOUND in iteration %ld" -/
  | error
  deriving DecidableEq

/-- `taken` counts the calls of `SimpleQueue_Dequeue` that have returned. -/
structure Consumer (N : Nat) where
  pc : ConsumerPc N
  i : Nat
  j : Nat
  modulo : Nat
  auxValue : Long
  auxValues : Nat → Long
  xorResultMine : Long
  result : Long
  taken : Nat
  consumerResult : Long

/-- `auxValue` and `auxValues` are not initialised. -/
def Consumer.start (N : Nat) (auxValue : Long) (auxValues : Nat → Long) : Consumer N where
  pc := .loop
  i := 0
  j := 0
  modulo := 0
  auxValue := auxValue
  auxValues := auxValues
  xorResultMine := 0
  result := 0
  taken := 0
  consumerResult := 0

/-- One iteration of the loop of the mode, up to the call that it makes. -/
def Consumer.iteration (M : Nat) (freq : CheckFrequency) (c : Nat → Long) {N : Nat}
    (s : Consumer N) : Consumer N :=
  match freq with
  | .everyTime => { s with auxValue := c s.i, pc := .dequeue .awaitDeq }
  | .eachModuloTimes =>
    let modulo := s.i % M
    let s' := { s with
      modulo := modulo, auxValues := Function.update s.auxValues modulo (c s.i) }
    if modulo = M - 1 then { s' with j := 0, pc := .inner } else { s' with i := s.i + 1 }
  | .encoding =>
    let s' := { s with
      auxValue := c s.i, xorResultMine := s.xorResultMine ^^^ c s.i,
      result := s.result + c s.i, modulo := s.modulo + 1 }
    if s.modulo = M - 1 then { s' with pc := .dequeue .awaitDeq } else { s' with i := s.i + 1 }
  | _ => { s with pc := .finish }

/-- The value that the dequeued one is compared with. -/
def Consumer.expected (freq : CheckFrequency) {N : Nat} (s : Consumer N) : Long :=
  match freq with
  | .eachModuloTimes => s.auxValues s.j
  | .encoding => s.xorResultMine
  | _ => s.auxValue

/-- What follows a comparison that finds no difference. -/
def Consumer.afterMatch (freq : CheckFrequency) (otherValue : Long) {N : Nat}
    (s : Consumer N) : Consumer N :=
  match freq with
  | .everyTime => { s with result := s.result + otherValue, i := s.i + 1, pc := .loop }
  | .eachModuloTimes => { s with result := s.result + otherValue, j := s.j + 1, pc := .inner }
  | .encoding => { s with xorResultMine := 0, modulo := 0, i := s.i + 1, pc := .loop }
  | _ => { s with pc := .finish }

def consumer (n M : Nat) (freq : CheckFrequency) (c : Nat → Long) {N : Nat} [NeZero N]
    (s : Consumer N) : Instr (SimpleQueue N) (Consumer N) (CallEvent N) :=
  match s.pc with
  | .loop =>
    if s.i < n then .skip (s.iteration M freq c) [] else .skip { s with pc := .finish } []
  | .inner =>
    if s.j < M then .skip { s with pc := .dequeue .awaitDeq } []
    else .skip { s with i := s.i + 1, pc := .loop } []
  | .dequeue e =>
    SimpleQueue.dequeue (fun e => { s with pc := .dequeue e })
      (fun v => ({ s with taken := s.taken + 1, pc := .compare (BitVec.ofInt 64 v) },
        [.returned v]))
      (fun k v => [.read k v]) e
  | .compare v =>
    if v ≠ s.expected freq then .skip { s with pc := .error } []
    else .skip (s.afterMatch freq v) []
  | .finish => .skip { s with consumerResult := s.result, pc := .done } []
  | .done => .halt
  | .error => .exit

/-! ## Both threads -/

/-- What a run is about: the sizes, the mode, the two streams and the memory that nobody
initialises. -/
structure Setup (N : Nat) where
  n : Nat
  M : Nat
  freq : CheckFrequency
  p : Nat → Long
  c : Nat → Long
  content : Fin N → Int
  auxValue : Long
  auxValues : Nat → Long

abbrev State (N : Nat) : Type := Conf (SimpleQueue N) (Producer N) (Consumer N)

variable {N : Nat} [NeZero N]

def Setup.program (x : Setup N) : Program (SimpleQueue N) (Producer N) (Consumer N) (CallEvent N) :=
  ⟨producer x.n x.M x.freq x.p, consumer x.n x.M x.freq x.c⟩

/-- Both threads, from `SimpleQueue_Init` on. -/
def Setup.system (x : Setup N) : System Side (State N) (CallEvent N) :=
  x.program.system
    ⟨SimpleQueue.init x.content, Producer.start N x.auxValues,
      Consumer.start N x.auxValue x.auxValues⟩

/-! ## What the modes promise -/

/-- The XOR of the `k` values from index `lo` on. -/
def xorRange (f : Nat → Long) (lo : Nat) : Nat → Long
  | 0 => 0
  | k + 1 => xorRange f lo k ^^^ f (lo + k)

/-- The values that a thread with stream `f` sends or expects, one a call. -/
def calls (M : Nat) (freq : CheckFrequency) (f : Nat → Long) (m : Nat) : Long :=
  if freq = .encoding then xorRange f (M * m) M else f m

/-- The number of calls. -/
def total (n M : Nat) (freq : CheckFrequency) : Nat := if freq = .encoding then n / M else n

/-- The streams agree as far as the mode can tell: everywhere, or in the XOR of each group of
`MODULO` values. -/
def Agree (n M : Nat) (freq : CheckFrequency) (p c : Nat → Long) : Prop :=
  if freq = .encoding then ∀ g < n / M, xorRange p (M * g) M = xorRange c (M * g) M
  else ∀ i < n, p i = c i

end SimpleQueueTest

end TsxProject
