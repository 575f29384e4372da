import TsxProject.Infra.Fifo
import TsxProject.Infra.Interleaving
import TsxProject.Infra.SentinelRing

/-!
# `SectionQueue`

The queue of `Queues.c` whose sections pass from one thread to the other as a whole. A section
with `isReadMode` belongs to the dequeuing thread, the others to the enqueuing thread. Each thread
keeps its own section number and its own index into the section.

`SectionQueue_Enqueue` and `SectionQueue_Dequeue` are one piece of code up to the names: wait for
the section, access one entry, advance the index, and at the end of the section flip its flag and
go to the next one. The model is written once, for a `Side`.

One thread enqueues the values of a list, another dequeues for ever.
-/

namespace TsxProject

open Infra Infra.Ring

structure Section (S : Nat) where
  content : Fin S → Int
  isReadMode : Bool

/-- `K` is `NUM_SECTIONS`, `S` is `SECTION_SIZE`. -/
structure SectionQueue (K S : Nat) where
  enqPtr : Fin S
  deqPtr : Fin S
  enqueueSection : Fin K
  dequeueSection : Fin K
  sections : Fin K → Section S

namespace SectionQueue

variable {K S : Nat}

/-- `SectionQueue_Init`, which leaves the contents as they are. -/
def init [NeZero K] [NeZero S] (content : Fin K → Fin S → Int) : SectionQueue K S where
  enqPtr := slot 0
  deqPtr := slot 0
  enqueueSection := slot 0
  dequeueSection := slot 0
  sections s := ⟨content s, false⟩

/-! ## The shared places -/

/-- The index of the enqueuing (`fst`) and of the dequeuing (`snd`) thread. -/
def ptr (q : SectionQueue K S) : Side → Fin S
  | .fst => q.enqPtr
  | .snd => q.deqPtr

def sectionOf (q : SectionQueue K S) : Side → Fin K
  | .fst => q.enqueueSection
  | .snd => q.dequeueSection

def isReadMode (q : SectionQueue K S) (s : Fin K) : Bool := (q.sections s).isReadMode

def content (q : SectionQueue K S) (s : Fin K) : Fin S → Int := (q.sections s).content

def atPtr (i : Side) : Field (SectionQueue K S) (Fin S) where
  get q := q.ptr i
  set v q :=
    match i with
    | .fst => { q with enqPtr := v }
    | .snd => { q with deqPtr := v }

def atSection (i : Side) : Field (SectionQueue K S) (Fin K) where
  get q := q.sectionOf i
  set v q :=
    match i with
    | .fst => { q with enqueueSection := v }
    | .snd => { q with dequeueSection := v }

def atReadMode (s : Fin K) : Field (SectionQueue K S) Bool where
  get q := q.isReadMode s
  set v q :=
    { q with sections := Function.update q.sections s { q.sections s with isReadMode := v } }

def atContent (s : Fin K) (k : Fin S) : Field (SectionQueue K S) Int where
  get q := q.content s k
  set v q :=
    { q with
      sections := Function.update q.sections s
        { q.sections s with content := Function.update (q.sections s).content k v } }

section Places

variable (i : Side) (q : SectionQueue K S) (s : Fin K) (k : Fin S)

@[simp] theorem ptr_atPtr (v : Fin S) : ((atPtr i).set v q).ptr = Function.update q.ptr i v := by
  funext j
  cases i <;> cases j <;> rfl

@[simp] theorem sectionOf_atPtr (v : Fin S) : ((atPtr i).set v q).sectionOf = q.sectionOf := by
  funext j
  cases i <;> cases j <;> rfl

@[simp] theorem sections_atPtr (v : Fin S) : ((atPtr i).set v q).sections = q.sections := by
  cases i <;> rfl

@[simp] theorem ptr_atSection (v : Fin K) : ((atSection i).set v q).ptr = q.ptr := by
  funext j
  cases i <;> cases j <;> rfl

@[simp] theorem sectionOf_atSection (v : Fin K) :
    ((atSection i).set v q).sectionOf = Function.update q.sectionOf i v := by
  funext j
  cases i <;> cases j <;> rfl

@[simp] theorem sections_atSection (v : Fin K) :
    ((atSection i).set v q).sections = q.sections := by
  cases i <;> rfl

@[simp] theorem ptr_atReadMode (v : Bool) : ((atReadMode s).set v q).ptr = q.ptr := by
  funext j
  cases j <;> rfl

@[simp] theorem sectionOf_atReadMode (v : Bool) :
    ((atReadMode s).set v q).sectionOf = q.sectionOf := by
  funext j
  cases j <;> rfl

@[simp] theorem isReadMode_atReadMode (v : Bool) :
    ((atReadMode s).set v q).isReadMode = Function.update q.isReadMode s v := by
  funext t
  exact Function.apply_update (fun _ => Section.isReadMode) q.sections s _ t

@[simp] theorem content_atReadMode (v : Bool) :
    ((atReadMode s).set v q).content = q.content := by
  funext t
  refine (Function.apply_update (fun _ => Section.content) q.sections s _ t).trans ?_
  exact congrFun (Function.update_eq_self s q.content) t

@[simp] theorem ptr_atContent (v : Int) : ((atContent s k).set v q).ptr = q.ptr := by
  funext j
  cases j <;> rfl

@[simp] theorem sectionOf_atContent (v : Int) :
    ((atContent s k).set v q).sectionOf = q.sectionOf := by
  funext j
  cases j <;> rfl

@[simp] theorem isReadMode_atContent (v : Int) :
    ((atContent s k).set v q).isReadMode = q.isReadMode := by
  funext t
  refine (Function.apply_update (fun _ => Section.isReadMode) q.sections s _ t).trans ?_
  exact congrFun (Function.update_eq_self s q.isReadMode) t

@[simp] theorem content_atContent (v : Int) :
    ((atContent s k).set v q).content =
      Function.update q.content s (Function.update (q.content s) k v) := by
  funext t
  exact Function.apply_update (fun _ => Section.content) q.sections s _ t

end Places

/-! ## A call -/

/-- `isReadMode` of the sections that a thread may access. -/
def mode : Side → Bool
  | .fst => false
  | .snd => true

inductive Pc (K S : Nat) where
  /-- between two calls -/
  | idle
  /-- the load of the section number in `while(… isReadMode)` -/
  | awaitSection
  | await (s : Fin K)
  /-- the load of the section number in the access to `content` -/
  | accessSection
  | accessIndex (s : Fin K)
  | access (s : Fin K) (k : Fin S)
  /-- the load of the index in `enqPtr = (enqPtr + 1) % SECTION_SIZE` -/
  | advanceIndex
  | advance (k : Fin S)
  /-- `if(enqPtr == 0)` -/
  | test
  /-- the load of the section number in the store to `isReadMode` -/
  | flagSection
  | flag (s : Fin K)
  /-- the load of the section number in `(enqueueSection + 1) % NUM_SECTIONS` -/
  | nextSection
  | next (s : Fin K)
  deriving DecidableEq

/-- The events of the thread `i`. -/
inductive CallEvent (K S : Nat) where
  /-- stored to (`fst`) or read from (`snd`) the content of a section -/
  | accessed (i : Side) (s : Fin K) (k : Fin S) (v : Int)
  /-- flipped `isReadMode` of a section -/
  | handedOver (i : Side) (s : Fin K)
  /-- a call returns; `v` is the argument of `SectionQueue_Enqueue` or the result of
  `SectionQueue_Dequeue` -/
  | returned (i : Side) (v : Int)
  deriving DecidableEq

/-- A thread with its local `value`, `n` calls having returned. -/
structure Caller (K S : Nat) where
  pc : Pc K S
  value : Int
  n : Nat

variable [NeZero K] [NeZero S]

/-- The next access of a call of `SectionQueue_Enqueue` or `SectionQueue_Dequeue`. -/
def Caller.call (c : Caller K S) (i : Side)
    (start : Instr (SectionQueue K S) (Caller K S) (CallEvent K S))
    (access : Fin K → Fin S → Instr (SectionQueue K S) (Caller K S) (CallEvent K S)) :
    Instr (SectionQueue K S) (Caller K S) (CallEvent K S) :=
  match c.pc with
  | .idle => start
  | .awaitSection => .load (atSection i) fun s => ({ c with pc := .await s }, [])
  | .await s => .load (atReadMode s) fun b =>
      if b = mode i then ({ c with pc := .accessSection }, [])
      else ({ c with pc := .awaitSection }, [])
  | .accessSection => .load (atSection i) fun s => ({ c with pc := .accessIndex s }, [])
  | .accessIndex s => .load (atPtr i) fun k => ({ c with pc := .access s k }, [])
  | .access s k => access s k
  | .advanceIndex => .load (atPtr i) fun k => ({ c with pc := .advance k }, [])
  | .advance k => .store (atPtr i) (Ring.next k) { c with pc := .test } []
  | .test => .load (atPtr i) fun k =>
      if k = slot 0 then ({ c with pc := .flagSection }, [])
      else ({ c with pc := .idle, n := c.n + 1 }, [.returned i c.value])
  | .flagSection => .load (atSection i) fun s => ({ c with pc := .flag s }, [])
  | .flag s =>
      .store (atReadMode s) (!mode i) { c with pc := .nextSection } [.handedOver i s]
  | .nextSection => .load (atSection i) fun s => ({ c with pc := .next s }, [])
  | .next s => .store (atSection i) (Ring.next s) { c with pc := .idle, n := c.n + 1 }
      [.returned i c.value]

/-- A thread that calls `SectionQueue_Enqueue` with the values of the list. -/
def enqueuer (vals : List Int) (p : Caller K S) :
    Instr (SectionQueue K S) (Caller K S) (CallEvent K S) :=
  p.call .fst
    (match vals[p.n]? with
      | none => .halt
      | some v => .skip { p with pc := .awaitSection, value := v } [])
    fun s k => .store (atContent s k) p.value { p with pc := .advanceIndex }
      [.accessed .fst s k p.value]

/-- A thread that calls `SectionQueue_Dequeue` for ever. -/
def dequeuer (c : Caller K S) : Instr (SectionQueue K S) (Caller K S) (CallEvent K S) :=
  c.call .snd (.skip { c with pc := .awaitSection } [])
    fun s k => .load (atContent s k) fun v =>
      ({ c with pc := .advanceIndex, value := v }, [.accessed .snd s k v])

/-- Configurations of the two threads. -/
abbrev Calls (K S : Nat) : Type := Conf (SectionQueue K S) (Caller K S) (Caller K S)

/-- Both threads, from `SectionQueue_Init` on. -/
def calls (content : Fin K → Fin S → Int) (vals : List Int) :
    System Side (Calls K S) (CallEvent K S) :=
  Program.system ⟨enqueuer vals, dequeuer⟩ ⟨init content, ⟨.idle, 0, 0⟩, ⟨.idle, 0, 0⟩⟩

omit [NeZero K] [NeZero S] in
def thread (s : Calls K S) : Side → Caller K S
  | .fst => s.fst
  | .snd => s.snd

omit [NeZero K] [NeZero S] in
/-- The thread is in its wait loop and the condition of the loop holds. -/
def Caller.Spinning (c : Caller K S) (i : Side) (q : SectionQueue K S) : Prop :=
  match c.pc with
  | .awaitSection | .await _ => q.isReadMode (q.sectionOf i) ≠ mode i
  | _ => False

/-- The thread is at work in section `s`: past the wait for it or, between two accesses, at an
index inside it. -/
def Caller.Owns (c : Caller K S) (i : Side) (q : SectionQueue K S) (s : Fin K) : Prop :=
  q.sectionOf i = s ∧
  match c.pc with
  | .idle | .awaitSection | .await _ => q.ptr i ≠ slot 0
  | .nextSection | .next _ => False
  | _ => True

/-! ## The trace -/

/-- The section whose content or flag the event is about, and the thread. -/
def CallEvent.touches : CallEvent K S → Option (Side × Fin K)
  | .accessed i s _ _ | .handedOver i s => some (i, s)
  | .returned _ _ => none

/-- The values put into the queue. -/
def enqueued (tr : List (CallEvent K S)) : List Int :=
  tr.filterMap fun
    | .accessed .fst _ _ v => some v
    | _ => none

/-- The arguments of the calls of `SectionQueue_Enqueue` that have returned. -/
def completed (tr : List (CallEvent K S)) : List Int :=
  tr.filterMap fun
    | .returned .fst v => some v
    | _ => none

/-- The values that calls of `SectionQueue_Dequeue` have returned. -/
def returned (tr : List (CallEvent K S)) : List Int :=
  tr.filterMap fun
    | .returned .snd v => some v
    | _ => none

end SectionQueue

end TsxProject
