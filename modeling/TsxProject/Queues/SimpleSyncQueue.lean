import TsxProject.Infra.Interleaving
import TsxProject.Infra.Ring

/-!
# `SimpleSyncQueue`

The queue of `Queues.c` that synchronises through its content: a slot holding
`ALREADY_CONSUMED` is free. `checkState` and `volatileValue` serve the hand-shake at the end of
a matrix row and are not touched by the queue operations.

The operations are written one shared access at a time. A call keeps its position and its local
variables in a program counter, and the caller says where to go on (`goto`, `ret`).
-/

namespace TsxProject

open Infra Infra.Ring

/-- `ALREADY_CONSUMED` -/
def alreadyConsumed : Int := -1

structure SimpleSyncQueue (N : Nat) where
  deqPtr : Fin N
  enqPtr : Fin N
  content : Fin N → Int
  checkState : Int
  volatileValue : Int

namespace SimpleSyncQueue

variable {N : Nat} {σ ε : Type}

/-- `SimpleSyncQueue_Init` -/
def init [NeZero N] : SimpleSyncQueue N where
  deqPtr := slot 0
  enqPtr := slot 0
  content := fun _ => alreadyConsumed
  checkState := 1
  volatileValue := alreadyConsumed

/-! ## The shared places -/

def atDeqPtr : Field (SimpleSyncQueue N) (Fin N) where
  get q := q.deqPtr
  set v q := { q with deqPtr := v }

def atEnqPtr : Field (SimpleSyncQueue N) (Fin N) where
  get q := q.enqPtr
  set v q := { q with enqPtr := v }

def atContent (k : Fin N) : Field (SimpleSyncQueue N) Int where
  get q := q.content k
  set v q := { q with content := Function.update q.content k v }

def atCheckState : Field (SimpleSyncQueue N) Int where
  get q := q.checkState
  set v q := { q with checkState := v }

def atVolatileValue : Field (SimpleSyncQueue N) Int where
  get q := q.volatileValue
  set v q := { q with volatileValue := v }

/-! ## `SimpleSyncQueue_Enqueue` -/

inductive EnqueuePc (N : Nat) where
  /-- `nextEnqPtr = (this->enqPtr + 1) % SIMPLE_SYNC_QUEUE_SIZE` -/
  | next
  /-- `while (this->content[nextEnqPtr] != ALREADY_CONSUMED)` -/
  | await (nextEnqPtr : Fin N)
  /-- the load of `enqPtr` in `this->content[this->enqPtr] = value` -/
  | index (nextEnqPtr : Fin N)
  | put (nextEnqPtr k : Fin N)
  /-- `this->enqPtr = nextEnqPtr` -/
  | publish (nextEnqPtr : Fin N)
  deriving DecidableEq

/-- One access of a call with argument `value`. `stored k` are the events of the store in `k`. -/
def enqueue [NeZero N] (value : Int) (goto : EnqueuePc N → σ) (ret : σ) (stored : Fin N → List ε) :
    EnqueuePc N → Instr (SimpleSyncQueue N) σ ε
  | .next => .load atEnqPtr fun enqPtr => (goto (.await (Ring.next enqPtr)), [])
  | .await n => .load (atContent n) fun v =>
      if v ≠ alreadyConsumed then (goto (.await n), []) else (goto (.index n), [])
  | .index n => .load atEnqPtr fun enqPtr => (goto (.put n enqPtr), [])
  | .put n k => .store (atContent k) value (goto (.publish n)) (stored k)
  | .publish n => .store atEnqPtr n ret []

/-! ## `SimpleSyncQueue_Dequeue` -/

inductive DequeuePc (N : Nat) where
  /-- the load of `deqPtr` in `value = this->content[this->deqPtr]` -/
  | index
  | read (k : Fin N)
  /-- the load of `deqPtr` in `this->content[this->deqPtr] = ALREADY_CONSUMED` -/
  | clearIndex (value : Int)
  | clear (value : Int) (k : Fin N)
  /-- the load of `deqPtr` in `this->deqPtr = (this->deqPtr + 1) % SIMPLE_SYNC_QUEUE_SIZE` -/
  | moveIndex (value : Int)
  | move (value : Int) (k : Fin N)
  deriving DecidableEq

/-- One access of a call. It returns with its last access, to `ret value`. `cleared k` are the
events of the store in `k`. -/
def dequeue [NeZero N] (goto : DequeuePc N → σ) (ret : Int → σ × List ε)
    (cleared : Fin N → List ε) : DequeuePc N → Instr (SimpleSyncQueue N) σ ε
  | .index => .load atDeqPtr fun k => (goto (.read k), [])
  | .read k => .load (atContent k) fun value =>
      if value ≠ alreadyConsumed then (goto (.clearIndex value), []) else ret value
  | .clearIndex value => .load atDeqPtr fun k => (goto (.clear value k), [])
  | .clear value k => .store (atContent k) alreadyConsumed (goto (.moveIndex value)) (cleared k)
  | .moveIndex value => .load atDeqPtr fun k => (goto (.move value k), [])
  | .move value k => .store atDeqPtr (Ring.next k) (ret value).1 (ret value).2

end SimpleSyncQueue

end TsxProject
