import TsxProject.Infra.Fifo
import TsxProject.Infra.Interleaving
import TsxProject.Infra.Ring

/-!
# `SimpleQueue` is a bounded queue

The queue of `Queues.c` that synchronises through its two pointers, one slot staying free. Each
thread decides on the pointer of the other, which may have moved on when the decision is used.

One thread enqueues the values of a list, another dequeues for ever. An entry is enqueued when
`enqPtr` moves past it, and dequeued when it is read; with these points the queue refines `Fifo`
with capacity `N - 1`.
-/

namespace TsxProject

open Infra Infra.Ring

structure SimpleQueue (N : Nat) where
  content : Fin N → Int
  enqPtr : Fin N
  deqPtr : Fin N

namespace SimpleQueue

variable {N : Nat} {σ ε : Type}

/-- `SimpleQueue_Init`, which leaves `content` as it is. -/
def init [NeZero N] (content : Fin N → Int) : SimpleQueue N where
  content := content
  enqPtr := slot 0
  deqPtr := slot 0

/-! ## The shared places -/

def atContent (k : Fin N) : Field (SimpleQueue N) Int where
  get q := q.content k
  set v q := { q with content := Function.update q.content k v }

def atEnqPtr : Field (SimpleQueue N) (Fin N) where
  get q := q.enqPtr
  set v q := { q with enqPtr := v }

def atDeqPtr : Field (SimpleQueue N) (Fin N) where
  get q := q.deqPtr
  set v q := { q with deqPtr := v }

/-! ## `SimpleQueue_Enqueue` -/

inductive EnqueuePc (N : Nat) where
  /-- `nextEnqPtr = (this->enqPtr + 1) % SIMPLE_QUEUE_MAX_ELEMENTS` -/
  | next
  /-- `while (nextEnqPtr == this->deqPtr)` -/
  | await (nextEnqPtr : Fin N)
  /-- the load of `enqPtr` in `this->content[this->enqPtr] = value` -/
  | index (nextEnqPtr : Fin N)
  | put (nextEnqPtr k : Fin N)
  /-- `this->enqPtr = nextEnqPtr` -/
  | publish (nextEnqPtr : Fin N)
  deriving DecidableEq

/-- One access of a call with argument `value`. -/
def enqueue [NeZero N] (value : Int) (goto : EnqueuePc N → σ) (ret : σ × List ε)
    (stored : Fin N → List ε) : EnqueuePc N → Instr (SimpleQueue N) σ ε
  | .next => .load atEnqPtr fun enqPtr => (goto (.await (Ring.next enqPtr)), [])
  | .await n => .load atDeqPtr fun deqPtr =>
      if n = deqPtr then (goto (.await n), []) else (goto (.index n), [])
  | .index n => .load atEnqPtr fun enqPtr => (goto (.put n enqPtr), [])
  | .put n k => .store (atContent k) value (goto (.publish n)) (stored k)
  | .publish n => .store atEnqPtr n ret.1 ret.2

/-! ## `SimpleQueue_Dequeue` -/

inductive DequeuePc (N : Nat) where
  /-- the load of `deqPtr` in `while (this->deqPtr == this->enqPtr)` -/
  | awaitDeq
  | awaitEnq (deqPtr : Fin N)
  /-- the load of `deqPtr` in `value = this->content[this->deqPtr]` -/
  | index
  | read (k : Fin N)
  /-- the load of `deqPtr` in `this->deqPtr = (this->deqPtr + 1) % SIMPLE_QUEUE_MAX_ELEMENTS` -/
  | moveIndex (value : Int)
  | move (value : Int) (k : Fin N)
  deriving DecidableEq

/-- One access of a call. `seen k v` are the events of the load of `v` from slot `k`. -/
def dequeue [NeZero N] (goto : DequeuePc N → σ) (ret : Int → σ × List ε)
    (seen : Fin N → Int → List ε) : DequeuePc N → Instr (SimpleQueue N) σ ε
  | .awaitDeq => .load atDeqPtr fun deqPtr => (goto (.awaitEnq deqPtr), [])
  | .awaitEnq k => .load atEnqPtr fun enqPtr =>
      if k = enqPtr then (goto .awaitDeq, []) else (goto .index, [])
  | .index => .load atDeqPtr fun k => (goto (.read k), [])
  | .read k => .load (atContent k) fun value => (goto (.moveIndex value), seen k value)
  | .moveIndex value => .load atDeqPtr fun k => (goto (.move value k), [])
  | .move value k => .store atDeqPtr (Ring.next k) (ret value).1 (ret value).2

/-! ### What an access of a call does, whoever calls -/

/-- An access of `SimpleQueue_Enqueue` goes on with the call or ends it, and does the same to the
queue whatever the caller does afterwards. -/
theorem enqueue_cases [NeZero N] {value : Int} {goto : EnqueuePc N → σ} {ret : σ × List ε}
    {stored : Fin N → List ε} {e : EnqueuePc N} {q q' : SimpleQueue N} {s : σ} {evs : List ε}
    (h : (enqueue value goto ret stored e).exec q = some (q', s, evs)) :
    (∃ e', s = goto e' ∧ ∀ {τ : Type} (goto' : EnqueuePc N → τ) (ret' : τ × List ε),
      (enqueue value goto' ret' stored e).exec q = some (q', goto' e', evs)) ∨
    (s, evs) = ret ∧ ∀ {τ : Type} (goto' : EnqueuePc N → τ) (ret' : τ × List ε),
      (enqueue value goto' ret' stored e).exec q = some (q', ret') := by
  cases e with
  | next | index k | put k k' =>
    cases h
    exact .inl ⟨_, rfl, fun _ _ => rfl⟩
  | await k =>
    simp only [enqueue, Instr.exec] at h ⊢
    split at h <;> cases h
    · next heq => exact .inl ⟨_, rfl, fun _ _ => by rw [if_pos heq]⟩
    · next hne => exact .inl ⟨_, rfl, fun _ _ => by rw [if_neg hne]⟩
  | publish k =>
    cases h
    exact .inr ⟨rfl, fun _ _ => rfl⟩

/-- An access of `SimpleQueue_Dequeue` goes on with the call or returns a value. -/
theorem dequeue_cases [NeZero N] {goto : DequeuePc N → σ} {ret : Int → σ × List ε}
    {seen : Fin N → Int → List ε} {e : DequeuePc N} {q q' : SimpleQueue N} {s : σ} {evs : List ε}
    (h : (dequeue goto ret seen e).exec q = some (q', s, evs)) :
    (∃ e', s = goto e' ∧ ∀ {τ : Type} (goto' : DequeuePc N → τ) (ret' : Int → τ × List ε),
      (dequeue goto' ret' seen e).exec q = some (q', goto' e', evs)) ∨
    ∃ v, (s, evs) = ret v ∧ ∀ {τ : Type} (goto' : DequeuePc N → τ) (ret' : Int → τ × List ε),
      (dequeue goto' ret' seen e).exec q = some (q', ret' v) := by
  cases e with
  | awaitDeq | index | read k | moveIndex v =>
    cases h
    exact .inl ⟨_, rfl, fun _ _ => rfl⟩
  | awaitEnq k =>
    simp only [dequeue, Instr.exec] at h ⊢
    split at h <;> cases h
    · next heq => exact .inl ⟨_, rfl, fun _ _ => by rw [if_pos heq]⟩
    · next hne => exact .inl ⟨_, rfl, fun _ _ => by rw [if_neg hne]⟩
  | move v k =>
    cases h
    exact .inr ⟨v, rfl, fun _ _ => rfl⟩

/-! ## The two threads -/

inductive CallEvent (N : Nat) where
  | stored (k : Fin N) (v : Int)
  /-- a call of `SimpleQueue_Enqueue` returns -/
  | enqueued (v : Int)
  | read (k : Fin N) (v : Int)
  /-- a call of `SimpleQueue_Dequeue` returns `v` -/
  | returned (v : Int)
  deriving DecidableEq

inductive EnqueuerPc (N : Nat) where
  | idle
  | call (value : Int) (e : EnqueuePc N)
  deriving DecidableEq

/-- The thread that enqueues, `n` calls having returned. -/
structure Enqueuer (N : Nat) where
  pc : EnqueuerPc N
  n : Nat

inductive DequeuerPc (N : Nat) where
  | idle
  | call (e : DequeuePc N)
  deriving DecidableEq

/-- The thread that dequeues, `m` calls having returned. -/
structure Dequeuer (N : Nat) where
  pc : DequeuerPc N
  m : Nat

variable [NeZero N]

def enqueuer (vals : List Int) (p : Enqueuer N) :
    Instr (SimpleQueue N) (Enqueuer N) (CallEvent N) :=
  match p.pc with
  | .idle =>
    match vals[p.n]? with
    | none => .halt
    | some v => .skip { p with pc := .call v .next } []
  | .call v e =>
    enqueue v (fun e => { p with pc := .call v e }) (⟨.idle, p.n + 1⟩, [.enqueued v])
      (fun k => [.stored k v]) e

def dequeuer (c : Dequeuer N) : Instr (SimpleQueue N) (Dequeuer N) (CallEvent N) :=
  match c.pc with
  | .idle => .skip { c with pc := .call .awaitDeq } []
  | .call e =>
    dequeue (fun e => { c with pc := .call e }) (fun v => (⟨.idle, c.m + 1⟩, [.returned v]))
      (fun k v => [.read k v]) e

abbrev Calls (N : Nat) : Type := Conf (SimpleQueue N) (Enqueuer N) (Dequeuer N)

/-- Both threads, from `SimpleQueue_Init` on. -/
def calls (content : Fin N → Int) (vals : List Int) : System Side (Calls N) (CallEvent N) :=
  Program.system ⟨enqueuer vals, dequeuer⟩ ⟨init content, ⟨.idle, 0⟩, ⟨.idle, 0⟩⟩

/-- The enqueuing thread is in its wait loop and the condition of the loop holds. -/
def Enqueuer.Spinning (q : SimpleQueue N) (p : Enqueuer N) : Prop :=
  match p.pc with
  | .call _ (.await n) => n = q.deqPtr
  | _ => False

/-- The dequeuing thread is in its wait loop and the condition of the loop holds. -/
def Dequeuer.Spinning (q : SimpleQueue N) (c : Dequeuer N) : Prop :=
  match c.pc with
  | .call .awaitDeq | .call (.awaitEnq _) => q.deqPtr = q.enqPtr
  | _ => False

/-! ## The trace -/

/-- The values whose calls of `SimpleQueue_Enqueue` have returned. -/
def enqueued (tr : List (CallEvent N)) : List Int :=
  tr.filterMap fun
    | .enqueued v => some v
    | _ => none

/-- The values that calls of `SimpleQueue_Dequeue` have returned. -/
def returned (tr : List (CallEvent N)) : List Int :=
  tr.filterMap fun
    | .returned v => some v
    | _ => none

/-- The slots that were stored to, one after the other. -/
def storedSlots (tr : List (CallEvent N)) : List (Fin N) :=
  tr.filterMap fun
    | .stored k _ => some k
    | _ => none

/-- The slots that were read. -/
def readSlots (tr : List (CallEvent N)) : List (Fin N) :=
  tr.filterMap fun
    | .read k _ => some k
    | _ => none

/-! ## The invariant -/

/-- The values as a stream of entries. -/
def stream (vals : List Int) (x : Nat) : Int := vals.getD x 0

/-- Entries stored. -/
def Enqueuer.written (p : Enqueuer N) : Nat :=
  match p.pc with
  | .call _ (.publish _) => p.n + 1
  | _ => p.n

omit [NeZero N] in
theorem Enqueuer.le_written (p : Enqueuer N) : p.n ≤ p.written := by
  unfold written
  split <;> omega

/-- Entries read. -/
def Dequeuer.taken (c : Dequeuer N) : Nat :=
  match c.pc with
  | .call (.moveIndex _) | .call (.move _ _) => c.m + 1
  | _ => c.m

/-- The value a call is about to return. -/
def Dequeuer.hand (c : Dequeuer N) : Option Int :=
  match c.pc with
  | .call (.moveIndex v) | .call (.move v _) => some v
  | _ => none

def Enqueuer.Ok (vals : List Int) (q : SimpleQueue N) (p : Enqueuer N) (m : Nat) : Prop :=
  q.enqPtr = slot p.n ∧
  match p.pc with
  | .idle => True
  | .call v e =>
    vals[p.n]? = some v ∧
      match e with
      | .next => True
      | .await k => k = slot (p.n + 1)
      | .index k | .publish k => k = slot (p.n + 1) ∧ p.n + 1 < m + N
      | .put k k' => k = slot (p.n + 1) ∧ p.n + 1 < m + N ∧ k' = slot p.n

def Dequeuer.Ok (q : SimpleQueue N) (c : Dequeuer N) (n : Nat) : Prop :=
  q.deqPtr = slot c.m ∧
  match c.pc with
  | .idle | .call .awaitDeq => True
  | .call (.awaitEnq k) => k = slot c.m
  | .call .index | .call (.moveIndex _) => c.m < n
  | .call (.read k) | .call (.move _ k) => c.m < n ∧ k = slot c.m

structure Inv (vals : List Int) (s : Calls N) : Prop where
  fst : s.fst.Ok vals s.mem s.snd.m
  snd : s.snd.Ok s.mem s.fst.n
  holds : Holds s.mem.content (stream vals) s.snd.m s.fst.written
  le : s.snd.m ≤ s.fst.n
  /-- one slot stays free -/
  gap : s.fst.written + 1 ≤ s.snd.m + N

/-- The abstract queue of a state. -/
def view (vals : List Int) (s : Calls N) : Fifo Int where
  queue := segment (stream vals) s.snd.taken s.fst.n
  hand := s.snd.hand

/-- What the abstract queue sees of an event. -/
def obs : CallEvent N → Option (Fifo.Op Int)
  | .enqueued v => some (.enqueued v)
  | .returned v => some (.returned (some v))
  | .stored _ _ | .read _ _ => none

/-! ## Steps -/

theorem stream_eq {vals : List Int} {n : Nat} {v : Int} (h : vals[n]? = some v) :
    stream vals n = v := by
  rw [stream, List.getD_eq_getElem?_getD, h]
  rfl

/-- What the wait conditions say about the pointers. -/
theorem Enqueuer.Ok.spinning {vals : List Int} {q : SimpleQueue N} {p : Enqueuer N} {m : Nat}
    (h : p.Ok vals q m) (hsp : p.Spinning q) : slot (p.n + 1) = q.deqPtr := by
  obtain ⟨pc, n⟩ := p
  obtain ⟨-, hpc⟩ := h
  cases pc with
  | idle => exact hsp.elim
  | call v e =>
    cases e with
    | await k => exact hpc.2.symm.trans hsp
    | _ => exact hsp.elim

omit [NeZero N] in
theorem Dequeuer.spinning {q : SimpleQueue N} {c : Dequeuer N} (hsp : c.Spinning q) :
    q.deqPtr = q.enqPtr := by
  obtain ⟨pc, m⟩ := c
  cases pc with
  | idle => exact hsp.elim
  | call e =>
    cases e with
    | awaitDeq | awaitEnq k => exact hsp
    | _ => exact hsp.elim

/-- What a step of the enqueuing thread can do. -/
inductive Enqueuer.Step (vals : List Int) (q : SimpleQueue N) (p : Enqueuer N) :
    SimpleQueue N → Enqueuer N → List (CallEvent N) → Prop where
  | call (v : Int) : p.pc = .idle → vals[p.n]? = some v →
      Step vals q p q { p with pc := .call v .next } []
  | next (v : Int) : p.pc = .call v .next →
      Step vals q p q { p with pc := .call v (.await (Ring.next q.enqPtr)) } []
  | wait (v : Int) (k : Fin N) : p.pc = .call v (.await k) → k = q.deqPtr →
      Step vals q p q { p with pc := .call v (.await k) } []
  | room (v : Int) (k : Fin N) : p.pc = .call v (.await k) → k ≠ q.deqPtr →
      Step vals q p q { p with pc := .call v (.index k) } []
  | index (v : Int) (k : Fin N) : p.pc = .call v (.index k) →
      Step vals q p q { p with pc := .call v (.put k q.enqPtr) } []
  | put (v : Int) (k k' : Fin N) : p.pc = .call v (.put k k') →
      Step vals q p { q with content := Function.update q.content k' v }
        { p with pc := .call v (.publish k) } [.stored k' v]
  | publish (v : Int) (k : Fin N) : p.pc = .call v (.publish k) →
      Step vals q p { q with enqPtr := k } ⟨.idle, p.n + 1⟩ [.enqueued v]

theorem enqueuer_cases {vals : List Int} {q q' : SimpleQueue N} {p p' : Enqueuer N}
    {evs : List (CallEvent N)} (hs : (enqueuer vals p).exec q = some (q', p', evs)) :
    p.Step vals q q' p' evs := by
  cases hpc : p.pc with
  | idle =>
    simp only [enqueuer, hpc] at hs
    split at hs <;> cases hs
    exact .call _ hpc ‹_›
  | call v e =>
    simp only [enqueuer, hpc] at hs
    cases e with
    | next =>
      cases hs
      exact .next v hpc
    | await k =>
      simp only [enqueue, Instr.exec] at hs
      split at hs <;> cases hs
      · next heq => exact .wait v k hpc heq
      · next hne => exact .room v k hpc hne
    | index k =>
      cases hs
      exact .index v k hpc
    | put k k' =>
      cases hs
      exact .put v k k' hpc
    | publish k =>
      cases hs
      exact .publish v k hpc

/-- What a step of the dequeuing thread can do. -/
inductive Dequeuer.Step (q : SimpleQueue N) (c : Dequeuer N) :
    SimpleQueue N → Dequeuer N → List (CallEvent N) → Prop where
  | call : c.pc = .idle → Step q c q { c with pc := .call .awaitDeq } []
  | awaitDeq : c.pc = .call .awaitDeq → Step q c q { c with pc := .call (.awaitEnq q.deqPtr) } []
  | wait (k : Fin N) : c.pc = .call (.awaitEnq k) → k = q.enqPtr →
      Step q c q { c with pc := .call .awaitDeq } []
  | entry (k : Fin N) : c.pc = .call (.awaitEnq k) → k ≠ q.enqPtr →
      Step q c q { c with pc := .call .index } []
  | index : c.pc = .call .index → Step q c q { c with pc := .call (.read q.deqPtr) } []
  | read (k : Fin N) : c.pc = .call (.read k) →
      Step q c q { c with pc := .call (.moveIndex (q.content k)) } [.read k (q.content k)]
  | moveIndex (v : Int) : c.pc = .call (.moveIndex v) →
      Step q c q { c with pc := .call (.move v q.deqPtr) } []
  | move (v : Int) (k : Fin N) : c.pc = .call (.move v k) →
      Step q c { q with deqPtr := Ring.next k } ⟨.idle, c.m + 1⟩ [.returned v]

theorem dequeuer_cases {q q' : SimpleQueue N} {c c' : Dequeuer N} {evs : List (CallEvent N)}
    (hs : (dequeuer c).exec q = some (q', c', evs)) : c.Step q q' c' evs := by
  cases hpc : c.pc with
  | idle =>
    simp only [dequeuer, hpc] at hs
    cases hs
    exact .call hpc
  | call e =>
    simp only [dequeuer, hpc] at hs
    cases e with
    | awaitDeq =>
      cases hs
      exact .awaitDeq hpc
    | awaitEnq k =>
      simp only [dequeue, Instr.exec] at hs
      split at hs <;> cases hs
      · next heq => exact .wait k hpc heq
      · next hne => exact .entry k hpc hne
    | index =>
      cases hs
      exact .index hpc
    | read k =>
      cases hs
      exact .read k hpc
    | moveIndex v =>
      cases hs
      exact .moveIndex v hpc
    | move v k =>
      cases hs
      exact .move v k hpc

/-- The other thread's progress does no harm. -/
theorem Enqueuer.Ok.mono {vals : List Int} {q q' : SimpleQueue N} {p : Enqueuer N} {m m' : Nat}
    (h : p.Ok vals q m) (he : q'.enqPtr = q.enqPtr) (hle : m ≤ m') : p.Ok vals q' m' := by
  obtain ⟨pc, n⟩ := p
  obtain ⟨henq, hpc⟩ := h
  refine ⟨he.trans henq, ?_⟩
  cases pc with
  | idle => trivial
  | call v e =>
    obtain ⟨hval, hpc⟩ := hpc
    refine ⟨hval, ?_⟩
    cases e with
    | next | await k => exact hpc
    | index k | publish k => exact ⟨hpc.1, Nat.lt_of_lt_of_le hpc.2 (Nat.add_le_add_right hle N)⟩
    | put k k' => exact ⟨hpc.1, Nat.lt_of_lt_of_le hpc.2.1 (Nat.add_le_add_right hle N), hpc.2.2⟩

theorem Dequeuer.Ok.mono {q q' : SimpleQueue N} {c : Dequeuer N} {n n' : Nat}
    (h : c.Ok q n) (hd : q'.deqPtr = q.deqPtr) (hle : n ≤ n') : c.Ok q' n' := by
  obtain ⟨pc, m⟩ := c
  obtain ⟨hdeq, hpc⟩ := h
  refine ⟨hd.trans hdeq, ?_⟩
  cases pc with
  | idle => trivial
  | call e =>
    cases e with
    | awaitDeq | awaitEnq k => exact hpc
    | index | moveIndex v => exact Nat.lt_of_lt_of_le hpc hle
    | read k | move v k => exact ⟨Nat.lt_of_lt_of_le hpc.1 hle, hpc.2⟩

/-- Only published entries are taken. -/
theorem Dequeuer.Ok.taken_le {q : SimpleQueue N} {c : Dequeuer N} {n : Nat} (h : c.Ok q n)
    (hle : c.m ≤ n) : c.m ≤ c.taken ∧ c.taken ≤ n := by
  obtain ⟨pc, m⟩ := c
  obtain ⟨-, hpc⟩ := h
  cases pc with
  | idle => exact ⟨Nat.le_refl m, hle⟩
  | call e =>
    cases e with
    | moveIndex v => exact ⟨Nat.le_succ m, hpc⟩
    | move v k => exact ⟨Nat.le_succ m, hpc.1⟩
    | _ => exact ⟨Nat.le_refl m, hle⟩

section Steps

variable {vals : List Int} {q q' : SimpleQueue N} {p p' : Enqueuer N} {c c' : Dequeuer N}
  {evs : List (CallEvent N)}

theorem Inv.enqueuer_step (h : Inv vals ⟨q, p, c⟩) (hs : p.Step vals q q' p' evs) :
    Inv vals ⟨q', p', c⟩ ∧ (Fifo.spec Int (N - 1)).StepOrStutter (view vals ⟨q, p, c⟩)
      (evs.filterMap obs) (view vals ⟨q', p', c⟩) := by
  obtain ⟨⟨henq, hpc⟩, hc, hh, hle, hgap⟩ := h
  obtain ⟨pc, n⟩ := p
  simp only at henq hpc hc hh hle hgap
  cases hs with
  | call v hp hval =>
    cases hp
    exact ⟨⟨⟨henq, hval, trivial⟩, hc, hh, hle, hgap⟩, .inr ⟨rfl, rfl⟩⟩
  | next v hp =>
    cases hp
    refine ⟨⟨⟨henq, hpc.1, ?_⟩, hc, hh, hle, hgap⟩, .inr ⟨rfl, rfl⟩⟩
    rw [henq]
    exact next_slot n
  | wait v k hp =>
    cases hp
    exact ⟨⟨⟨henq, hpc⟩, hc, hh, hle, hgap⟩, .inr ⟨rfl, rfl⟩⟩
  | room v k hp hne =>
    cases hp
    obtain ⟨hval, rfl⟩ := hpc
    -- `deqPtr` is not the next slot, so the ring is not full
    have hgap : n + 1 ≤ c.m + N := hgap
    have hroom : n + 1 < c.m + N := by
      refine Nat.lt_of_le_of_ne hgap fun heq => hne ?_
      rw [hc.1, heq, slot_add_size]
    exact ⟨⟨⟨henq, hval, rfl, hroom⟩, hc, hh, hle, hgap⟩, .inr ⟨rfl, rfl⟩⟩
  | index v k hp =>
    cases hp
    obtain ⟨hval, hk, hroom⟩ := hpc
    exact ⟨⟨⟨henq, hval, hk, hroom, henq⟩, hc, hh, hle, hgap⟩, .inr ⟨rfl, rfl⟩⟩
  | put v k k' hp =>
    cases hp
    obtain ⟨hval, hk, hroom, rfl⟩ := hpc
    have hh : Holds q.content (stream vals) c.m n := hh
    have hpush := hh.push (Nat.lt_of_succ_lt hroom)
    rw [stream_eq hval] at hpush
    exact ⟨⟨⟨henq, hval, hk, hroom⟩, hc, hpush, hle, hroom⟩, .inr ⟨rfl, rfl⟩⟩
  | publish v k hp =>
    cases hp
    obtain ⟨hval, rfl, hroom⟩ := hpc
    obtain ⟨hlo, hhi⟩ := hc.taken_le hle
    refine ⟨⟨⟨rfl, trivial⟩, hc.mono rfl (Nat.le_succ n), hh, Nat.le_succ_of_le hle, hgap⟩,
      .inl ?_⟩
    have hroom' : n - c.taken < N - 1 := by omega
    have hpush := Fifo.Step.push_segment (stream vals) c.hand hhi hroom'
    rw [stream_eq hval] at hpush
    exact hpush

theorem Inv.dequeuer_step (h : Inv vals ⟨q, p, c⟩) (hs : c.Step q q' c' evs) :
    Inv vals ⟨q', p, c'⟩ ∧ (Fifo.spec Int (N - 1)).StepOrStutter (view vals ⟨q, p, c⟩)
      (evs.filterMap obs) (view vals ⟨q', p, c'⟩) := by
  obtain ⟨hp, ⟨hdeq, hpc⟩, hh, hle, hgap⟩ := h
  obtain ⟨pc, m⟩ := c
  simp only at hdeq hpc hp hh hle hgap
  have hwritten : p.n ≤ p.written := p.le_written
  cases hs with
  | call hc =>
    cases hc
    exact ⟨⟨hp, ⟨hdeq, trivial⟩, hh, hle, hgap⟩, .inr ⟨rfl, rfl⟩⟩
  | awaitDeq hc =>
    cases hc
    exact ⟨⟨hp, ⟨hdeq, hdeq⟩, hh, hle, hgap⟩, .inr ⟨rfl, rfl⟩⟩
  | wait k hc =>
    cases hc
    exact ⟨⟨hp, ⟨hdeq, trivial⟩, hh, hle, hgap⟩, .inr ⟨rfl, rfl⟩⟩
  | entry k hc hne =>
    cases hc
    -- the pointers differ, so something is published
    have hlt : m < p.n := by
      refine Nat.lt_of_le_of_ne hle fun heq => hne ?_
      rw [hp.1, ← heq]
      exact hpc
    exact ⟨⟨hp, ⟨hdeq, hlt⟩, hh, hle, hgap⟩, .inr ⟨rfl, rfl⟩⟩
  | index hc =>
    cases hc
    exact ⟨⟨hp, ⟨hdeq, hpc, hdeq⟩, hh, hle, hgap⟩, .inr ⟨rfl, rfl⟩⟩
  | read k hc =>
    cases hc
    obtain ⟨hlt, rfl⟩ := hpc
    refine ⟨⟨hp, ⟨hdeq, hlt⟩, hh, hle, hgap⟩, .inl ?_⟩
    have hval : q.content (slot m) = stream vals m :=
      hh m (Nat.le_refl m) (Nat.lt_of_lt_of_le hlt hwritten)
    have hpop := Fifo.Step.pop_segment (stream vals) (N - 1) hlt
    rw [← hval] at hpop
    exact hpop
  | moveIndex v hc =>
    cases hc
    exact ⟨⟨hp, ⟨hdeq, hpc, hdeq⟩, hh, hle, hgap⟩, .inr ⟨rfl, rfl⟩⟩
  | move v k hc =>
    cases hc
    obtain ⟨hlt, rfl⟩ := hpc
    refine ⟨⟨hp.mono rfl (Nat.le_succ m), ⟨next_slot m, trivial⟩,
      hh.mono (Nat.le_succ m) (Nat.le_refl _), hlt, ?_⟩, .inl (Fifo.Step.giveBack v)⟩
    show p.written + 1 ≤ m + 1 + N
    have hgap : p.written + 1 ≤ m + N := hgap
    omega

end Steps

theorem Inv.init (content : Fin N → Int) (vals : List Int) :
    Inv vals (calls content vals).init where
  fst := ⟨rfl, trivial⟩
  snd := ⟨rfl, trivial⟩
  holds := Holds.empty (Nat.le_refl 0)
  le := Nat.le_refl 0
  gap := by
    have := Nat.pos_of_neZero N
    show 0 + 1 ≤ 0 + N
    omega

theorem Inv.step {content : Fin N → Int} {vals : List Int} {i : Side} {s s' : Calls N}
    {evs : List (CallEvent N)} (h : Inv vals s)
    (hs : (calls content vals).step i s = some (s', evs)) :
    Inv vals s' ∧ (Fifo.spec Int (N - 1)).StepOrStutter (view vals s) (evs.filterMap obs)
      (view vals s') := by
  obtain ⟨q, p, c⟩ := s
  obtain ⟨q', p', rfl, rfl, hx⟩ | ⟨q', c', rfl, rfl, hx⟩ := Program.step_cases hs
  · exact h.enqueuer_step (enqueuer_cases hx)
  · exact h.dequeuer_step (dequeuer_cases hx)

/-- **The queue refines a bounded queue of capacity `N - 1`.** -/
theorem refines_fifo {content : Fin N → Int} {vals : List Int} {tr : List (CallEvent N)}
    {s : Calls N} (h : (calls content vals).Runs tr s) :
    Inv vals s ∧ (Fifo.spec Int (N - 1)).Runs (tr.filterMap obs) (view vals s) := by
  refine h.refines_obs (Inv.init content vals) ?_ fun hI _ hs => hI.step hs
  show view vals (calls content vals).init = ⟨[], none⟩
  simp [view, calls, Program.system, Dequeuer.taken, Dequeuer.hand]

/-! ## What the trace records -/

omit [NeZero N] in
theorem enqueued_obs (tr : List (CallEvent N)) :
    Fifo.enqueued (tr.filterMap obs) = enqueued tr := by
  rw [Fifo.enqueued, List.filterMap_filterMap, enqueued]
  congr 1
  funext e
  cases e <;> simp [obs]

omit [NeZero N] in
theorem returned_obs (tr : List (CallEvent N)) :
    Fifo.returned (tr.filterMap obs) = returned tr := by
  rw [Fifo.returned, List.filterMap_filterMap, returned]
  congr 1
  funext e
  cases e <;> simp [obs]

/-- The slots of the first `n` entries. -/
def slots (n : Nat) : List (Fin N) := (List.range n).map slot

theorem slots_succ (n : Nat) : (slots (n + 1) : List (Fin N)) = slots n ++ [slot n] := by
  simp [slots, List.range_succ]

theorem slots_prefix {m n : Nat} (h : m ≤ n) : (slots m : List (Fin N)) <+: slots n := by
  obtain ⟨j, rfl⟩ := Nat.exists_eq_add_of_le h
  rw [slots, slots, List.range_add, List.map_append]
  exact List.prefix_append _ _

/-- The counters and the trace say the same. -/
structure Recorded (vals : List Int) (tr : List (CallEvent N)) (s : Calls N) : Prop where
  enqueued : enqueued tr = vals.take s.fst.n
  stored : storedSlots tr = slots s.fst.written
  read : readSlots tr = slots s.snd.taken

/-- Steps without an event of these three kinds. -/
theorem Recorded.quiet {vals : List Int} {tr evs : List (CallEvent N)} {s s' : Calls N}
    (h : Recorded vals tr s) (he : SimpleQueue.enqueued evs = []) (hst : storedSlots evs = [])
    (hrd : readSlots evs = []) (hn : s'.fst.n = s.fst.n) (hw : s'.fst.written = s.fst.written)
    (ht : s'.snd.taken = s.snd.taken) : Recorded vals (tr ++ evs) s' where
  enqueued := by
    rw [hn, ← h.enqueued]
    simpa [SimpleQueue.enqueued] using he
  stored := by
    rw [hw, ← h.stored]
    simpa [storedSlots] using hst
  read := by
    rw [ht, ← h.read]
    simpa [readSlots] using hrd

theorem Recorded.enqueuer_step {vals : List Int} {tr evs : List (CallEvent N)}
    {q q' : SimpleQueue N} {p p' : Enqueuer N} {c : Dequeuer N} {m : Nat}
    (hok : p.Ok vals q m) (h : Recorded vals tr ⟨q, p, c⟩) (hs : p.Step vals q q' p' evs) :
    Recorded vals (tr ++ evs) ⟨q', p', c⟩ := by
  obtain ⟨pc, n⟩ := p
  obtain ⟨-, hpc⟩ := hok
  cases hs with
  | call v hp | next v hp | wait v k hp | room v k hp | index v k hp =>
    cases hp
    exact h.quiet rfl rfl rfl rfl rfl rfl
  | put v k k' hp =>
    cases hp
    simp only at hpc
    obtain ⟨-, -, -, rfl⟩ := hpc
    refine ⟨?_, ?_, ?_⟩
    · simpa [SimpleQueue.enqueued] using h.enqueued
    · have hst := h.stored
      simp only [Enqueuer.written, storedSlots] at hst ⊢
      simp [hst, slots_succ]
    · simpa [readSlots] using h.read
  | publish v k hp =>
    cases hp
    obtain ⟨hval, -⟩ := hpc
    simp only at hval
    refine ⟨?_, ?_, ?_⟩
    · have hen := h.enqueued
      simp only [SimpleQueue.enqueued] at hen ⊢
      simp [hen, List.take_add_one, hval]
    · simpa [storedSlots, Enqueuer.written] using h.stored
    · simpa [readSlots] using h.read

theorem Recorded.dequeuer_step {vals : List Int} {tr evs : List (CallEvent N)}
    {q q' : SimpleQueue N} {p : Enqueuer N} {c c' : Dequeuer N} {n : Nat}
    (hok : c.Ok q n) (h : Recorded vals tr ⟨q, p, c⟩) (hs : c.Step q q' c' evs) :
    Recorded vals (tr ++ evs) ⟨q', p, c'⟩ := by
  obtain ⟨pc, m⟩ := c
  obtain ⟨-, hpc⟩ := hok
  cases hs with
  | call hc | awaitDeq hc | wait k hc | entry k hc | index hc | moveIndex v hc | move v k hc =>
    cases hc
    exact h.quiet rfl rfl rfl rfl rfl rfl
  | read k hc =>
    cases hc
    simp only at hpc
    obtain ⟨-, rfl⟩ := hpc
    refine ⟨?_, ?_, ?_⟩
    · simpa [SimpleQueue.enqueued] using h.enqueued
    · simpa [storedSlots] using h.stored
    · have hrd := h.read
      simp only [Dequeuer.taken, readSlots] at hrd ⊢
      simp [hrd, slots_succ]

theorem recorded {content : Fin N → Int} {vals : List Int} {tr : List (CallEvent N)}
    {s : Calls N} (h : (calls content vals).Runs tr s) : Recorded vals tr s := by
  induction h with
  | init => exact ⟨rfl, rfl, rfl⟩
  | step hr _ hs ih =>
    have hinv := (refines_fifo hr).1
    obtain ⟨q', p', rfl, rfl, hx⟩ | ⟨q', c', rfl, rfl, hx⟩ := Program.step_cases hs
    · exact Recorded.enqueuer_step hinv.fst ih (enqueuer_cases hx)
    · exact Recorded.dequeuer_step hinv.snd ih (dequeuer_cases hx)

theorem returned_in_order {content : Fin N → Int} {vals : List Int} {tr : List (CallEvent N)}
    {s : Calls N} (h : (calls content vals).Runs tr s) :
    returned tr <+: enqueued tr ∧ enqueued tr <+: vals := by
  have hpre := Fifo.returned_prefix (refines_fifo h).2
  rw [enqueued_obs, returned_obs] at hpre
  refine ⟨hpre, ?_⟩
  rw [(recorded h).enqueued]
  exact List.take_prefix _ _

/-- The enqueuing thread waits for room in a full ring only. -/
theorem Inv.full_of_spinning {vals : List Int} {s : Calls N} (h : Inv vals s)
    (hp : s.fst.Spinning s.mem) : s.fst.n + 1 = s.snd.m + N := by
  have hslot : (slot s.snd.m : Fin N) = slot (s.fst.n + 1) := by
    rw [h.fst.spinning hp]
    exact h.snd.1.symm
  have hlap := add_size_le hslot (Nat.lt_succ_of_le h.le)
  have hgap := h.gap
  have hwritten := s.fst.le_written
  omega

/-- The dequeuing thread waits for an entry of an empty ring only. -/
theorem Inv.empty_of_spinning {vals : List Int} {s : Calls N} (h : Inv vals s)
    (hc : s.snd.Spinning s.mem) : s.snd.m = s.fst.n := by
  have hslot := Dequeuer.spinning hc
  rw [h.snd.1, h.fst.1] at hslot
  have hgap := h.gap
  have hwritten := s.fst.le_written
  exact slot_inj hslot h.le (by omega)

/-- A step has at most one event, and a store is within a lap of what is still to be read. -/
theorem Enqueuer.Ok.events {vals : List Int} {q q' : SimpleQueue N} {p p' : Enqueuer N} {m : Nat}
    {evs : List (CallEvent N)} (h : p.Ok vals q m) (hs : p.Step vals q q' p' evs) :
    evs.length ≤ 1 ∧ ∀ k v, .stored k v ∈ evs → k = slot p.written ∧ p.written < m + N := by
  obtain ⟨pc, n⟩ := p
  obtain ⟨-, hpc⟩ := h
  cases hs with
  | put v k k' hp =>
    cases hp
    simp only at hpc
    obtain ⟨-, -, hroom, rfl⟩ := hpc
    refine ⟨Nat.le_refl 1, ?_⟩
    intro k v he
    simp only [List.mem_singleton, CallEvent.stored.injEq] at he
    exact ⟨he.1, Nat.lt_of_succ_lt hroom⟩
  | _ => simp

theorem Dequeuer.Step.events {q q' : SimpleQueue N} {c c' : Dequeuer N}
    {evs : List (CallEvent N)} (hs : c.Step q q' c' evs) :
    evs.length ≤ 1 ∧ ∀ k v, .stored k v ∉ evs := by
  cases hs <;> simp

/-! ## The callers -/

theorem enqueuer_isExit (vals : List Int) (p : Enqueuer N) :
    (enqueuer vals p).isExit = false := by
  obtain ⟨pc, n⟩ := p
  cases pc with
  | idle =>
    simp only [enqueuer]
    cases vals[n]? <;> rfl
  | call v e => cases e <;> rfl

theorem dequeuer_isExit (c : Dequeuer N) : (dequeuer c).isExit = false := by
  obtain ⟨pc, m⟩ := c
  cases pc with
  | idle => rfl
  | call e => cases e <;> rfl

/-- The event of a return, and the count of returns. -/
theorem Dequeuer.Step.returns {q q' : SimpleQueue N} {c c' : Dequeuer N}
    {evs : List (CallEvent N)} (hs : c.Step q q' c' evs) :
    (∃ v, evs = [.returned v] ∧ c'.m = c.m + 1) ∨ (∀ v, .returned v ∉ evs) ∧ c'.m = c.m := by
  cases hs with
  | move v k => exact .inl ⟨v, rfl, rfl⟩
  | _ => exact .inr ⟨by simp, rfl⟩

theorem Enqueuer.Step.no_returns {vals : List Int} {q q' : SimpleQueue N} {p p' : Enqueuer N}
    {evs : List (CallEvent N)} (hs : p.Step vals q q' p' evs) (v : Int) : .returned v ∉ evs := by
  cases hs <;> simp

omit [NeZero N] in
theorem returned_eq_nil {evs : List (CallEvent N)} (h : ∀ v, .returned v ∉ evs) :
    returned evs = [] := by
  rw [returned, List.filterMap_eq_nil_iff]
  intro e he
  cases e with
  | returned v => exact absurd he (h v)
  | _ => rfl

/-- The dequeuing thread counts its returns. -/
theorem length_returned {content : Fin N → Int} {vals : List Int} {tr : List (CallEvent N)}
    {s : Calls N} (h : (calls content vals).Runs tr s) : (returned tr).length = s.snd.m := by
  induction h with
  | init => rfl
  | @step i tr evs s s' _ _ hs ih =>
    have happ : returned (tr ++ evs) = returned tr ++ returned evs := List.filterMap_append
    obtain ⟨q', p', rfl, rfl, hx⟩ | ⟨q', c', rfl, rfl, hx⟩ := Program.step_cases hs
    · rw [happ, returned_eq_nil (enqueuer_cases hx).no_returns, List.append_nil, ih]
    · obtain ⟨v, rfl, hm⟩ | ⟨hno, hm⟩ := (dequeuer_cases hx).returns
      · rw [happ, List.length_append, ih, hm]
        rfl
      · rw [happ, returned_eq_nil hno, List.append_nil, ih, hm]

/-- No slot is stored to while it is still to be read. -/
theorem stored_after_read {content : Fin N → Int} {vals : List Int} {tr : List (CallEvent N)}
    {s : Calls N} (h : (calls content vals).Runs tr s) :
    Preceded (fun pre e => ∀ k v, e = .stored k v →
      k ∉ (storedSlots pre).drop (readSlots pre).length) tr := by
  refine h.preceded ?_
  intro side tr s s' evs hr _ hs
  have hinv := (refines_fifo hr).1
  have hrec := recorded hr
  have htaken := (hinv.snd.taken_le hinv.le).1
  obtain ⟨q', p', rfl, rfl, hx⟩ | ⟨q', c', rfl, rfl, hx⟩ := Program.step_cases hs
  · obtain ⟨hlen, hst⟩ := hinv.fst.events (enqueuer_cases hx)
    refine ⟨hlen, ?_⟩
    rintro e he k v rfl hmem
    obtain ⟨rfl, hlap⟩ := hst k v he
    rw [hrec.stored, hrec.read, slots, slots, List.length_map, List.length_range,
      ← List.map_drop] at hmem
    -- the slots still to be read are those of the entries from `taken` on
    obtain ⟨x, hx, hslot⟩ := List.mem_map.mp hmem
    rw [List.range_eq_range', List.drop_range', List.mem_range'] at hx
    obtain ⟨j, hj, rfl⟩ := hx
    exact slot_ne (by omega) (by omega) hslot
  · obtain ⟨hlen, hst⟩ := (dequeuer_cases hx).events
    exact ⟨hlen, fun e he k v heq => absurd (heq ▸ he) (hst k v)⟩

/--
**`SimpleQueue` is a bounded queue.** For every list of values and every interleaving:

* the values returned are those enqueued, in order, as far as they have come;
* at most `N - 1` entries are still to be read;
* entries are read in the order in which they are stored, and no slot is stored to while it is
  still to be read;
* the two threads never wait for each other.
-/
theorem simpleQueue_fifo (hN : 2 ≤ N) {content : Fin N → Int} {vals : List Int}
    {tr : List (CallEvent N)} {s : Calls N} (h : (calls content vals).Runs tr s) :
    (returned tr <+: enqueued tr ∧ enqueued tr <+: vals) ∧
    (storedSlots tr).length ≤ (readSlots tr).length + (N - 1) ∧
    (readSlots tr <+: storedSlots tr ∧ Preceded (fun pre e => ∀ k v, e = .stored k v →
      k ∉ (storedSlots pre).drop (readSlots pre).length) tr) ∧
    ¬ (s.fst.Spinning s.mem ∧ s.snd.Spinning s.mem) := by
  have hinv := (refines_fifo h).1
  have hrec := recorded h
  obtain ⟨hlo, hhi⟩ := hinv.snd.taken_le hinv.le
  have hgap := hinv.gap
  have hwritten := s.fst.le_written
  refine ⟨returned_in_order h, ?_, ⟨?_, stored_after_read h⟩, ?_⟩
  · rw [hrec.stored, hrec.read, slots, slots, List.length_map, List.length_map,
      List.length_range, List.length_range]
    omega
  · rw [hrec.stored, hrec.read]
    exact slots_prefix (by omega)
  · rintro ⟨hp, hc⟩
    have hfull := hinv.full_of_spinning hp
    have hempty := hinv.empty_of_spinning hc
    omega

theorem simpleQueue_fifo_small :
    ∃ tr s, (calls (N := 2) (fun _ => 0) [5, -1]).Runs tr s ∧ returned tr = [5, -1] ∧
      enqueued tr = [5, -1] := by
  obtain ⟨tr, s, hr, hret⟩ := System.exists_runs (calls (N := 2) (fun _ => 0) [5, -1])
    (turns (List.replicate 7 (2, 2) ++ [(0, 7)])) (fun tr _ => returned tr = [5, -1])
    (by decide +kernel)
  obtain ⟨⟨hpre, henq⟩, -⟩ := simpleQueue_fifo (by decide) hr
  rw [hret] at hpre
  exact ⟨tr, s, hr, hret, (hpre.eq_of_length_le henq.length_le).symm⟩

end SimpleQueue

end TsxProject
