import TsxProject.VectorMatrix.Basic

/-!
# The producer and the consumer thread

`Vector_Matrix_SimpleSyncQueue_Producer` and `Vector_Matrix_SimpleSyncQueue_Consumer`, one shared
access a step. Registers keep the source's names. A program counter stands before a shared
access, before a loop test or before an assignment to a register.

The result vectors and the two counters are globals that one thread alone uses while both run, so
they are kept with that thread.
-/

namespace TsxProject

open Infra
open SimpleSyncQueue (atDeqPtr atEnqPtr atContent atCheckState atVolatileValue)

/-- `CheckFrequency` of `Queues.h`. -/
inductive CheckFrequency where
  | synchronousOneVar
  | synchronousTwoVars
  | synchronousQueue
  | rhtNoVolatiles
  | volatile
  | rhtVolatiles
  | rhtVolatilesImproved
  | volatileNoSyncNoModulo
  | volatileEncoding
  | everyTime
  | eachModuloTimes
  | encoding
  deriving DecidableEq, Repr

/-- What a run leaves in its trace. `k` is a slot of the queue, `i` a row and `j` a column. -/
inductive Event (N : Nat) where
  /-- the producer stored `v` in `content[k]` -/
  | stored (k : Fin N) (i j : Nat) (v : Int)
  /-- the consumer loaded `v` from `content[k]` and found it equal to its own value -/
  | compared (k : Fin N) (i j : Nat) (v : Int)
  /-- the consumer stored `ALREADY_CONSUMED` in `content[k]` -/
  | cleared (k : Fin N) (i j : Nat)
  /-- the consumer loaded `read` from `volatileValue` and found it equal to its own row value -/
  | verified (i : Nat) (own read : Int)
  /-- `producerVectorResult[i] = v` -/
  | producerResult (i : Nat) (v : Int)
  /-- `consumerVectorResult[i] = v` -/
  | consumerResult (i : Nat) (v : Int)
  deriving DecidableEq

/-! ## The producer -/

/-- The three column loops of the producer. -/
inductive ColumnLoop where
  /-- `for (; j < newLimit; j++)` -/
  | upToLimit
  /-- `for (; j < MATRIX_COLS; j++)`, the iterations left -/
  | left
  /-- `for (j = 0; j < MATRIX_COLS; j++)` of the mode without credits -/
  | all
  deriving DecidableEq

inductive ProducerPc (N : Nat) where
  /-- `i < MATRIX_ROWS` -/
  | row
  | column (l : ColumnLoop)
  /-- `thisValue += vector[j] * matrix[i][j]` -/
  | multiply (l : ColumnLoop)
  /-- the load of `enqPtr` in `content[enqPtr] = thisValue` -/
  | index (l : ColumnLoop)
  | put (l : ColumnLoop) (k : Fin N)
  /-- the load of `enqPtr` in `enqPtr = (enqPtr + 1) % SIMPLE_SYNC_QUEUE_SIZE` -/
  | advanceIndex (l : ColumnLoop)
  | advance (l : ColumnLoop) (k : Fin N)
  | enqueue (e : SimpleSyncQueue.EnqueuePc N)
  /-- `nextEnq = (enqPtr + 1) % SIMPLE_SYNC_QUEUE_SIZE` -/
  | nextEnq
  /-- `while (content[nextEnq] != ALREADY_CONSUMED)` -/
  | awaitSlot
  /-- `if (localDeqPtr == deqPtr)` -/
  | testDeq
  /-- `while (localDeqPtr == deqPtr)` -/
  | awaitDeq
  /-- `localDeqPtr = deqPtr` -/
  | readDeq
  /-- the load of `enqPtr` in the test `enqPtr >= localDeqPtr` -/
  | testLimit
  /-- the load of `enqPtr` in the chosen branch of `newLimit += …` -/
  | growLimit (ge : Bool)
  /-- `while (newLimit < MATRIX_COLS)` -/
  | testCols
  /-- `volatileValue = thisValue` -/
  | volatileStore
  /-- `checkState = 0` -/
  | flagStore
  /-- `while (checkState == 0)` -/
  | awaitCheck
  /-- `producerVectorResult[i] = thisValue` -/
  | resultStore
  /-- `localDeqPtr = enqPtr` at the end of a row -/
  | resetDeq
  | done
  /-- "Something is wrong here!" -/
  | wrong
  deriving DecidableEq

structure Producer (N : Nat) where
  pc : ProducerPc N
  i : Nat
  j : Nat
  thisValue : Int
  newLimit : Nat
  localDeqPtr : Fin N
  nextEnq : Fin N
  producerCount : Nat
  producerVectorResult : Nat → Int

/-- The `switch` of the producer, with what each case does before its row loop. -/
def Producer.start (d : Dims) (freq : CheckFrequency) (result : Nat → Int) :
    Producer d.queueSize :=
  let p : Producer d.queueSize :=
    { pc := .row, i := 0, j := 0, thisValue := 0, newLimit := 0, localDeqPtr := 0, nextEnq := 0,
      producerCount := 0, producerVectorResult := result }
  match freq with
  | .rhtVolatiles => { p with newLimit := d.queueSize }
  | .rhtVolatilesImproved => { p with newLimit := d.queueSize - 1, localDeqPtr := 0 }
  | .volatile => p
  | _ => { p with pc := .wrong }

/-- The bound of a column loop. -/
def Producer.bound (d : Dims) {N : Nat} (p : Producer N) : ColumnLoop → Nat
  | .upToLimit => p.newLimit
  | .left | .all => d.cols

/-- Where the producer goes on when a column loop is over. -/
def afterLoop (freq : CheckFrequency) {N : Nat} : ColumnLoop → ProducerPc N
  | .upToLimit => if freq = .rhtVolatilesImproved then .testDeq else .nextEnq
  | .left | .all => .volatileStore

/--
The next instruction of `Vector_Matrix_SimpleSyncQueue_Producer`.

The three cases of its `switch` share their row loop, their stores and the hand-shake; they differ
in the loops over the columns and in the waits between them.
-/
def producer (d : Dims) (freq : CheckFrequency) (f : Calc) (p : Producer d.queueSize) :
    Instr (SimpleSyncQueue d.queueSize) (Producer d.queueSize) (Event d.queueSize) :=
  match p.pc with
  | .row =>
    if p.i < d.rows then
      .skip { p with thisValue := 0, j := 0,
                     pc := .column (if freq = .volatile then .all else .upToLimit) } []
    else .skip { p with pc := .done } []
  | .column l =>
    if p.j < p.bound d l then .skip { p with pc := .multiply l } []
    else .skip { p with pc := afterLoop freq l } []
  | .multiply l =>
    .skip { p with thisValue := f p.i p.j p.thisValue,
                   pc := if l = .all then .enqueue .next else .index l } []
  -- content[enqPtr] = thisValue; enqPtr = (enqPtr + 1) % SIMPLE_SYNC_QUEUE_SIZE
  | .index l => .load atEnqPtr fun k => ({ p with pc := .put l k }, [])
  | .put l k =>
    .store (atContent k) p.thisValue { p with pc := .advanceIndex l }
      [.stored k p.i p.j p.thisValue]
  | .advanceIndex l => .load atEnqPtr fun k => ({ p with pc := .advance l k }, [])
  | .advance l k =>
    .store atEnqPtr (Ring.next k) { p with j := p.j + 1, pc := .column l } []
  -- SimpleSyncQueue_Enqueue(&simpleSyncQueue, thisValue)
  | .enqueue e =>
    SimpleSyncQueue.enqueue p.thisValue (fun e => { p with pc := .enqueue e })
      { p with j := p.j + 1, pc := .column .all }
      (fun k => [.stored k p.i p.j p.thisValue]) e
  -- the waits of the two RHT modes
  | .nextEnq => .load atEnqPtr fun k => ({ p with nextEnq := Ring.next k, pc := .awaitSlot }, [])
  | .awaitSlot =>
    .load (atContent p.nextEnq) fun v =>
      if v ≠ alreadyConsumed then ({ p with pc := .awaitSlot }, [])
      else ({ p with pc := .readDeq }, [])
  | .testDeq =>
    .load atDeqPtr fun k =>
      if p.localDeqPtr = k then
        ({ p with producerCount := p.producerCount + 1, pc := .awaitDeq }, [])
      else ({ p with pc := .readDeq }, [])
  | .awaitDeq =>
    .load atDeqPtr fun k =>
      if p.localDeqPtr = k then ({ p with pc := .awaitDeq }, [])
      else ({ p with pc := .readDeq }, [])
  | .readDeq => .load atDeqPtr fun k => ({ p with localDeqPtr := k, pc := .testLimit }, [])
  | .testLimit =>
    .load atEnqPtr fun k => ({ p with pc := .growLimit (p.localDeqPtr.val ≤ k.val) }, [])
  | .growLimit ge =>
    -- `enqPtr` is a slot, so none of the differences is negative
    .load atEnqPtr fun k =>
      let free := if ge then (d.queueSize - k.val) + p.localDeqPtr.val
        else p.localDeqPtr.val - k.val
      ({ p with
          newLimit := p.newLimit + (if freq = .rhtVolatilesImproved then free - 1 else free),
          pc := .testCols }, [])
  | .testCols =>
    if p.newLimit < d.cols then .skip { p with pc := .column .upToLimit } []
    else .skip { p with pc := .column .left } []
  -- the hand-shake and the volatile store
  | .volatileStore => .store atVolatileValue p.thisValue { p with pc := .flagStore } []
  | .flagStore => .store atCheckState 0 { p with pc := .awaitCheck } []
  | .awaitCheck =>
    .load atCheckState fun v =>
      if v = 0 then ({ p with pc := .awaitCheck }, []) else ({ p with pc := .resultStore }, [])
  | .resultStore =>
    let p' := { p with
      producerVectorResult := Function.update p.producerVectorResult p.i p.thisValue }
    match freq with
    | .rhtVolatiles =>
      .skip { p' with newLimit := d.queueSize, i := p.i + 1, pc := .row }
        [.producerResult p.i p.thisValue]
    | .rhtVolatilesImproved =>
      .skip { p' with newLimit := d.queueSize - 1, pc := .resetDeq }
        [.producerResult p.i p.thisValue]
    | _ => .skip { p' with i := p.i + 1, pc := .row } [.producerResult p.i p.thisValue]
  | .resetDeq => .load atEnqPtr fun k => ({ p with localDeqPtr := k, i := p.i + 1, pc := .row }, [])
  | .done => .halt
  | .wrong => .exit

/-! ## The consumer -/

/-- The reports with which the consumer ends the process. -/
inductive SoftError where
  /-- "SOFT ERROR DETECTED, %ld vs %ld …" -/
  | detected (currentValue otherValue : Int)
  /-- "SOFT ERROR IN VOLATILE STORE" -/
  | inVolatileStore
  deriving DecidableEq

/-- Where a call of `ConsumerCheckAndMove` stands. Each use of `content[deqPtr]` or `deqPtr` loads
the pointer first. -/
inductive CheckPc (N : Nat) where
  /-- `otherValue = content[deqPtr]` -/
  | index
  | read (k : Fin N)
  /-- `do … while (content[deqPtr] == ALREADY_CONSUMED)` -/
  | spinIndex
  | spin (k : Fin N)
  /-- `otherValue = content[deqPtr]` after the loop -/
  | againIndex
  | again (k : Fin N)
  /-- `content[deqPtr] = ALREADY_CONSUMED` -/
  | clearIndex
  | clear (k : Fin N)
  /-- `deqPtr = (deqPtr + 1) % SIMPLE_SYNC_QUEUE_SIZE` -/
  | moveIndex
  | move (k : Fin N)
  deriving DecidableEq

inductive ConsumerPc (N : Nat) where
  /-- `i < MATRIX_ROWS` -/
  | row
  /-- `j < MATRIX_COLS` -/
  | column
  /-- `thisValue += vector[j] * matrix[i][j]` -/
  | multiply
  | check (e : CheckPc N)
  /-- `while (checkState == 1)` -/
  | awaitCheck
  /-- `if (thisValue != volatileValue)` -/
  | readVolatile
  /-- `checkState = 1` -/
  | flagStore
  /-- `consumerVectorResult[i] = thisValue` -/
  | resultStore
  | done
  | softError (e : SoftError)
  /-- "Something is wrong here!" -/
  | wrong
  deriving DecidableEq

structure Consumer (N : Nat) where
  pc : ConsumerPc N
  i : Nat
  j : Nat
  thisValue : Int
  consumerCount : Nat
  consumerVectorResult : Nat → Int

/-- The `switch` of the consumer. -/
def Consumer.start (d : Dims) (freq : CheckFrequency) (result : Nat → Int) :
    Consumer d.queueSize :=
  let c : Consumer d.queueSize :=
    { pc := .row, i := 0, j := 0, thisValue := 0, consumerCount := 0,
      consumerVectorResult := result }
  match freq with
  | .volatile | .rhtVolatiles | .volatileNoSyncNoModulo | .rhtVolatilesImproved => c
  | _ => { c with pc := .wrong }

/--
The two consumer checks, called with `currentValue = thisValue`. They differ in what follows a
successful comparison: with `writeBack` the slot is marked free before `deqPtr` moves on.
-/
def checkAndMove (writeBack : Bool) {N : Nat} [NeZero N] (c : Consumer N) :
    CheckPc N → Instr (SimpleSyncQueue N) (Consumer N) (Event N)
  | .index => .load atDeqPtr fun k => ({ c with pc := .check (.read k) }, [])
  | .read k =>
    .load (atContent k) fun otherValue =>
      if c.thisValue ≠ otherValue then
        if otherValue = alreadyConsumed then
          ({ c with consumerCount := c.consumerCount + 1, pc := .check .spinIndex }, [])
        else ({ c with pc := .softError (.detected c.thisValue otherValue) }, [])
      else
        ({ c with pc := .check (if writeBack then .clearIndex else .moveIndex) },
          [.compared k c.i c.j otherValue])
  | .spinIndex => .load atDeqPtr fun k => ({ c with pc := .check (.spin k) }, [])
  | .spin k =>
    .load (atContent k) fun v =>
      if v = alreadyConsumed then ({ c with pc := .check .spinIndex }, [])
      else ({ c with pc := .check .againIndex }, [])
  | .againIndex => .load atDeqPtr fun k => ({ c with pc := .check (.again k) }, [])
  | .again k =>
    .load (atContent k) fun otherValue =>
      if c.thisValue = otherValue then
        ({ c with pc := .check (if writeBack then .clearIndex else .moveIndex) },
          [.compared k c.i c.j otherValue])
      else ({ c with pc := .softError (.detected c.thisValue otherValue) }, [])
  | .clearIndex => .load atDeqPtr fun k => ({ c with pc := .check (.clear k) }, [])
  | .clear k =>
    .store (atContent k) alreadyConsumed { c with pc := .check .moveIndex }
      [.cleared k c.i c.j]
  | .moveIndex => .load atDeqPtr fun k => ({ c with pc := .check (.move k) }, [])
  | .move k => .store atDeqPtr (Ring.next k) { c with j := c.j + 1, pc := .column } []

/-- `ConsumerCheckAndMove` -/
def consumerCheckAndMove {N : Nat} [NeZero N] (c : Consumer N) := checkAndMove true c

/-- `ConsumerCheckAndMoveImproved` -/
def consumerCheckAndMoveImproved {N : Nat} [NeZero N] (c : Consumer N) := checkAndMove false c

/-- The next instruction of `Vector_Matrix_SimpleSyncQueue_Consumer`. -/
def consumer (d : Dims) (freq : CheckFrequency) (f : Calc) (c : Consumer d.queueSize) :
    Instr (SimpleSyncQueue d.queueSize) (Consumer d.queueSize) (Event d.queueSize) :=
  match c.pc with
  | .row =>
    if c.i < d.rows then .skip { c with thisValue := 0, j := 0, pc := .column } []
    else .skip { c with pc := .done } []
  | .column =>
    if c.j < d.cols then .skip { c with pc := .multiply } []
    else .skip { c with pc := .awaitCheck } []
  | .multiply =>
    .skip { c with thisValue := f c.i c.j c.thisValue, pc := .check .index } []
  | .check e =>
    if freq = .rhtVolatilesImproved then consumerCheckAndMoveImproved c e
    else consumerCheckAndMove c e
  | .awaitCheck =>
    .load atCheckState fun v =>
      if v = 1 then ({ c with pc := .awaitCheck }, []) else ({ c with pc := .readVolatile }, [])
  | .readVolatile =>
    .load atVolatileValue fun v =>
      if c.thisValue ≠ v then ({ c with pc := .softError .inVolatileStore }, [])
      else ({ c with pc := .flagStore }, [.verified c.i c.thisValue v])
  | .flagStore => .store atCheckState 1 { c with pc := .resultStore } []
  | .resultStore =>
    .skip { c with
      consumerVectorResult := Function.update c.consumerVectorResult c.i c.thisValue,
      i := c.i + 1, pc := .row } [.consumerResult c.i c.thisValue]
  | .done => .halt
  | .softError _ => .exit
  | .wrong => .exit

/-! ## Both threads -/

/-- A replicated multiplication: sizes, mode, what each thread computes (their difference is the
fault), and what earlier runs left in the result vectors. -/
structure Setup where
  dims : Dims
  freq : CheckFrequency
  producerCalc : Calc
  consumerCalc : Calc
  producerResult : Nat → Int
  consumerResult : Nat → Int

namespace Setup

variable (S : Setup)

/-- The size of the queue. -/
abbrev N : Nat := S.dims.queueSize

instance : NeZero S.N := inferInstanceAs (NeZero S.dims.queueSize)

abbrev State : Type := Conf (SimpleSyncQueue S.N) (Producer S.N) (Consumer S.N)

def program : Program (SimpleSyncQueue S.N) (Producer S.N) (Consumer S.N) (Event S.N) where
  fst := producer S.dims S.freq S.producerCalc
  snd := consumer S.dims S.freq S.consumerCalc

/-- Both threads, from `SimpleSyncQueue_Init` on. -/
def system : System Side S.State (Event S.N) :=
  S.program.system
    ⟨SimpleSyncQueue.init, Producer.start S.dims S.freq S.producerResult,
      Consumer.start S.dims S.freq S.consumerResult⟩

variable {S} in
/-- A step is a step of one of the threads. -/
theorem step_cases {i : Side} {s s' : S.State} {evs : List (Event S.N)}
    (hs : S.system.step i s = some (s', evs)) :
    (∃ q' p', i = .fst ∧ s' = ⟨q', p', s.snd⟩ ∧
        (producer S.dims S.freq S.producerCalc s.fst).exec s.mem = some (q', p', evs)) ∨
      ∃ q' c', i = .snd ∧ s' = ⟨q', s.fst, c'⟩ ∧
        (consumer S.dims S.freq S.consumerCalc s.snd).exec s.mem = some (q', c', evs) :=
  Program.step_cases hs

/-- Both threads compute the exact product. -/
def FaultFree (w : Workload S.dims) : Prop :=
  S.producerCalc = w.faultFree ∧ S.consumerCalc = w.faultFree

/-- A run without faults, the result vectors zero before. -/
def ofWorkload {d : Dims} (w : Workload d) (freq : CheckFrequency) : Setup where
  dims := d
  freq := freq
  producerCalc := w.faultFree
  consumerCalc := w.faultFree
  producerResult := fun _ => 0
  consumerResult := fun _ => 0

/-- The smallest instance, all entries 1. -/
def small (rows : Nat) (freq : CheckFrequency) : Setup :=
  ofWorkload (Workload.ones (Dims.small rows)) freq

end Setup

/-! ## Waiting threads -/

/-- The producer is in one of its wait loops and the condition of the loop holds. -/
def Producer.Spinning {N : Nat} (q : SimpleSyncQueue N) (p : Producer N) : Prop :=
  match p.pc with
  | .enqueue (.await n) => q.content n ≠ alreadyConsumed
  | .awaitSlot => q.content p.nextEnq ≠ alreadyConsumed
  | .awaitDeq => p.localDeqPtr = q.deqPtr
  | .awaitCheck => q.checkState = 0
  | _ => False

/-- The consumer is in one of its wait loops and the condition of the loop holds. -/
def Consumer.Spinning {N : Nat} (q : SimpleSyncQueue N) (c : Consumer N) : Prop :=
  match c.pc with
  | .check .spinIndex | .check (.spin _) => q.content q.deqPtr = alreadyConsumed
  | .awaitCheck => q.checkState = 1
  | _ => False

/-- Both threads wait for the other. -/
def Deadlocked {N : Nat} (s : Conf (SimpleSyncQueue N) (Producer N) (Consumer N)) : Prop :=
  s.fst.Spinning s.mem ∧ s.snd.Spinning s.mem

end TsxProject
