import TsxProject.Infra.Transition

/-!
# Bounded queues

The abstract queue for one writer and one reader: what a concurrent implementation has to look like
from outside. The reader takes the oldest value in one step and hands it to its caller in another.
A reader that does not wait may also find the queue empty.

* `enqueued_eq` — nothing is lost, duplicated or reordered
* `returned_eq_enqueued` — it is found empty only when everything has been returned
* `segment` — the part of a stream between two counts, the queue of a ring
* `Step.push_segment`, `Step.pop_segment` — the steps of a queue that is a segment
-/

namespace Infra

/-- What is stored, and what the reader has in its hand. -/
structure Fifo (α : Type) where
  queue : List α
  hand : Option α

namespace Fifo

variable {α : Type}

inductive Op (α : Type) where
  | enqueued (v : α)
  /-- a call of the reader returns, `none` when it found nothing -/
  | returned (r : Option α)

inductive Step (cap : Nat) : Fifo α → List (Op α) → Fifo α → Prop where
  | enqueue {q : List α} {h : Option α} (v : α) :
      q.length < cap → Step cap ⟨q, h⟩ [.enqueued v] ⟨q ++ [v], h⟩
  | dequeue {q : List α} (v : α) : Step cap ⟨v :: q, none⟩ [] ⟨q, some v⟩
  | giveBack {q : List α} (v : α) : Step cap ⟨q, some v⟩ [.returned (some v)] ⟨q, none⟩
  | poll : Step cap ⟨[], none⟩ [.returned none] ⟨[], none⟩

def spec (α : Type) (cap : Nat) : Spec (Fifo α) (Op α) where
  init F := F = ⟨[], none⟩
  step := Step cap

/-- The values stored so far. -/
def enqueued (tr : List (Op α)) : List α :=
  tr.filterMap fun
    | .enqueued v => some v
    | .returned _ => none

/-- The values returned so far. -/
def returned (tr : List (Op α)) : List α :=
  tr.filterMap fun
    | .enqueued _ => none
    | .returned r => r

variable {cap : Nat} {tr : List (Op α)} {F : Fifo α}

/-- What was stored is what was returned, then what is in the reader's hand, then the queue. -/
theorem enqueued_eq (h : (spec α cap).Runs tr F) :
    enqueued tr = returned tr ++ F.hand.toList ++ F.queue := by
  induction h with
  | init hi =>
    obtain rfl : _ = (⟨[], none⟩ : Fifo α) := hi
    rfl
  | step _ hs ih =>
    simp only [enqueued, returned, List.filterMap_append] at ih ⊢
    rw [ih]
    cases hs <;> simp

/-- **First in, first out.** -/
theorem returned_prefix (h : (spec α cap).Runs tr F) : returned tr <+: enqueued tr := by
  rw [enqueued_eq h, List.append_assoc]
  exact List.prefix_append _ _

/-- The queue is found empty only when everything has been returned. -/
theorem returned_eq_enqueued (h : (spec α cap).Runs tr F) {F' : Fifo α} {ops : List (Op α)}
    (hs : (spec α cap).StepOrStutter F ops F') (he : .returned none ∈ ops) :
    returned tr = enqueued tr := by
  rcases hs with hs | ⟨rfl, -⟩
  · cases hs with
    | poll => simpa using (enqueued_eq h).symm
    | _ => simp at he
  · cases he

end Fifo

/-! ## Segments of a stream -/

section Segment

variable {α : Type} (p : Nat → α)

/-- The entries `lo, …, hi - 1`. -/
def segment (lo hi : Nat) : List α := (List.range' lo (hi - lo)).map p

@[simp] theorem length_segment (lo hi : Nat) : (segment p lo hi).length = hi - lo := by
  simp [segment]

@[simp] theorem segment_self (lo : Nat) : segment p lo lo = [] := by
  simp [segment]

theorem segment_push {lo hi : Nat} (h : lo ≤ hi) :
    segment p lo (hi + 1) = segment p lo hi ++ [p hi] := by
  simp only [segment, Nat.succ_sub h, List.range'_concat, List.map_append, List.map_singleton,
    Nat.one_mul, Nat.add_sub_cancel' h]

theorem segment_pop {lo hi : Nat} (h : lo < hi) :
    segment p lo hi = p lo :: segment p (lo + 1) hi := by
  obtain ⟨n, rfl⟩ : ∃ n, hi = lo + 1 + n := Nat.exists_eq_add_of_lt h |>.imp fun n hn => by omega
  rw [segment, segment, show lo + 1 + n - lo = n + 1 by omega, Nat.add_sub_cancel_left,
    List.range'_succ, List.map_cons]

/-- The writer extends the segment at its end. -/
theorem Fifo.Step.push_segment {cap lo hi : Nat} (hand : Option α) (hle : lo ≤ hi)
    (hroom : hi - lo < cap) :
    Fifo.Step cap ⟨segment p lo hi, hand⟩ [.enqueued (p hi)] ⟨segment p lo (hi + 1), hand⟩ := by
  rw [segment_push p hle]
  exact .enqueue (p hi) (by rwa [length_segment])

/-- The reader takes the first entry of the segment. -/
theorem Fifo.Step.pop_segment {lo hi : Nat} (cap : Nat) (h : lo < hi) :
    Fifo.Step cap ⟨segment p lo hi, none⟩ [] ⟨segment p (lo + 1) hi, some (p lo)⟩ := by
  rw [segment_pop p h]
  exact .dequeue (p lo)

end Segment

end Infra
