import TsxProject.VectorMatrix.Ledger

/-!
# The producer's registers and steps

* the counters of the ledger, read off the registers
* `Producer.Ok` — the registers are what the source means them to be: `enqPtr` is the slot of the
  entry count, `thisValue` the sum so far
* `Producer.Step` — what a step can do
* `Producer.Effect` — what it means for the ledger

Both hold in every mode and for arbitrary values.
-/

namespace TsxProject

open Infra Infra.Ring

/-! ## Counters -/

namespace Producer

variable {N : Nat} (d : Dims) (p : Producer N)

/-- Entries `enqPtr` has passed. -/
def entry : Nat :=
  match p.pc with
  | .row | .done | .wrong => p.i * d.cols
  | _ => p.i * d.cols + p.j

/-- Entries stored. -/
def written : Nat :=
  match p.pc with
  | .advanceIndex _ | .advance _ _ | .enqueue (.publish _) => p.entry d + 1
  | _ => p.entry d

/-- Rows for which `checkState = 0` is done. -/
def requested : Nat :=
  match p.pc with
  | .awaitCheck | .resultStore | .resetDeq => p.i + 1
  | _ => p.i

/-- Rows stored in `producerVectorResult`. -/
def rowsStored : Nat :=
  match p.pc with
  | .resetDeq => p.i + 1
  | _ => p.i

/-- What the ledger knows of the producer, and its results. -/
structure Progress where
  written : Nat
  requested : Nat
  rowsStored : Nat
  result : Nat → Int

def progress : Progress where
  written := p.written d
  requested := p.requested
  rowsStored := p.rowsStored
  result := p.producerVectorResult

end Producer

/-! ## Registers -/

/-- The modes that both threads implement. -/
def Setup.Replicated (S : Setup) : Prop :=
  S.freq = .volatile ∨ S.freq = .rhtVolatiles ∨ S.freq = .rhtVolatilesImproved

/-- The modes in which the consumer marks slots free. -/
def Setup.Clears (S : Setup) : Prop := S.freq = .volatile ∨ S.freq = .rhtVolatiles

theorem Setup.Clears.replicated {S : Setup} (h : S.Clears) : S.Replicated :=
  h.elim .inl fun h => .inr (.inl h)

theorem Setup.Clears.writeBack {S : Setup} (h : S.Clears) : Ledger.WriteBack S := by
  rcases h with h | h <;> simp [Ledger.WriteBack, h]

/-- The registers of the producer at each point of its program. -/
def Producer.Ok (S : Setup) (q : SimpleSyncQueue S.N) (p : Producer S.N) : Prop :=
  q.enqPtr = slot (p.entry S.dims) ∧
  match p.pc with
  | .row => p.i ≤ S.dims.rows ∧ (S.freq ≠ .volatile → p.newLimit < S.dims.cols)
  | .column l =>
    p.i < S.dims.rows ∧ p.j ≤ S.dims.cols ∧ p.thisValue = S.producerCalc.sum p.i p.j ∧
      (l = .upToLimit → p.newLimit < S.dims.cols ∧ p.j ≤ p.newLimit)
  | .multiply l =>
    p.i < S.dims.rows ∧ p.j < S.dims.cols ∧ p.thisValue = S.producerCalc.sum p.i p.j ∧
      (l = .upToLimit → p.newLimit < S.dims.cols ∧ p.j < p.newLimit)
  | .index l | .advanceIndex l =>
    p.i < S.dims.rows ∧ p.j < S.dims.cols ∧ p.thisValue = S.producerCalc.value p.i p.j ∧
      (l = .upToLimit → p.newLimit < S.dims.cols ∧ p.j < p.newLimit)
  | .put l k | .advance l k =>
    p.i < S.dims.rows ∧ p.j < S.dims.cols ∧ p.thisValue = S.producerCalc.value p.i p.j ∧
      (l = .upToLimit → p.newLimit < S.dims.cols ∧ p.j < p.newLimit) ∧
      k = slot (p.i * S.dims.cols + p.j)
  | .enqueue e =>
    p.i < S.dims.rows ∧ p.j < S.dims.cols ∧ p.thisValue = S.producerCalc.value p.i p.j ∧
      match e with
      | .next => True
      | .await n | .index n | .publish n => n = slot (p.i * S.dims.cols + p.j + 1)
      | .put n k =>
        n = slot (p.i * S.dims.cols + p.j + 1) ∧ k = slot (p.i * S.dims.cols + p.j)
  | .nextEnq | .testDeq | .awaitDeq | .readDeq | .testLimit | .growLimit _ =>
    p.i < S.dims.rows ∧ p.j < S.dims.cols ∧ p.thisValue = S.producerCalc.sum p.i p.j ∧
      p.j = p.newLimit
  | .awaitSlot =>
    p.i < S.dims.rows ∧ p.j < S.dims.cols ∧ p.thisValue = S.producerCalc.sum p.i p.j ∧
      p.j = p.newLimit ∧ p.nextEnq = slot (p.i * S.dims.cols + p.j + 1)
  | .testCols =>
    p.i < S.dims.rows ∧ p.j < S.dims.cols ∧ p.thisValue = S.producerCalc.sum p.i p.j ∧
      p.j ≤ p.newLimit
  | .volatileStore | .resultStore =>
    p.i < S.dims.rows ∧ p.j = S.dims.cols ∧ p.thisValue = S.producerCalc.final S.dims p.i
  | .flagStore | .awaitCheck =>
    p.i < S.dims.rows ∧ p.j = S.dims.cols ∧ p.thisValue = S.producerCalc.final S.dims p.i ∧
      q.volatileValue = S.producerCalc.final S.dims p.i
  | .resetDeq =>
    p.i < S.dims.rows ∧ p.j = S.dims.cols ∧ p.thisValue = S.producerCalc.final S.dims p.i ∧
      p.newLimit < S.dims.cols
  | .done => p.i = S.dims.rows
  | .wrong => False

variable {S : Setup}

theorem Producer.Ok.frame {q q' : SimpleSyncQueue S.N} {p : Producer S.N} (h : p.Ok S q)
    (he : q'.enqPtr = q.enqPtr) (hv : q'.volatileValue = q.volatileValue) : p.Ok S q' := by
  unfold Producer.Ok at h ⊢
  rwa [he, hv]

/-! ## Steps -/

/-- What a step of the producer can do. -/
inductive Producer.Step (S : Setup) (q : SimpleSyncQueue S.N) (p : Producer S.N) :
    SimpleSyncQueue S.N → Producer S.N → List (Event S.N) → Prop where
  | row : p.pc = .row → p.i < S.dims.rows →
      Step S q p q
        { p with
          thisValue := 0, j := 0,
          pc := .column (if S.freq = .volatile then .all else .upToLimit) } []
  | finish : p.pc = .row → S.dims.rows ≤ p.i → Step S q p q { p with pc := .done } []
  | column (l : ColumnLoop) : p.pc = .column l → p.j < p.bound S.dims l →
      Step S q p q { p with pc := .multiply l } []
  | loopEnd (l : ColumnLoop) : p.pc = .column l → p.bound S.dims l ≤ p.j →
      Step S q p q { p with pc := afterLoop S.freq l } []
  | multiply (l : ColumnLoop) : p.pc = .multiply l →
      Step S q p q
        { p with
          thisValue := S.producerCalc p.i p.j p.thisValue,
          pc := if l = .all then .enqueue .next else .index l } []
  | index (l : ColumnLoop) : p.pc = .index l → Step S q p q { p with pc := .put l q.enqPtr } []
  | put (l : ColumnLoop) (k : Fin S.N) : p.pc = .put l k →
      Step S q p { q with content := Function.update q.content k p.thisValue }
        { p with pc := .advanceIndex l } [.stored k p.i p.j p.thisValue]
  | advanceIndex (l : ColumnLoop) : p.pc = .advanceIndex l →
      Step S q p q { p with pc := .advance l q.enqPtr } []
  | advance (l : ColumnLoop) (k : Fin S.N) : p.pc = .advance l k →
      Step S q p { q with enqPtr := Ring.next k } { p with j := p.j + 1, pc := .column l } []
  | enqueueNext : p.pc = .enqueue .next →
      Step S q p q { p with pc := .enqueue (.await (Ring.next q.enqPtr)) } []
  | enqueueWait (n : Fin S.N) : p.pc = .enqueue (.await n) → q.content n ≠ alreadyConsumed →
      Step S q p q { p with pc := .enqueue (.await n) } []
  | enqueueRoom (n : Fin S.N) : p.pc = .enqueue (.await n) → q.content n = alreadyConsumed →
      Step S q p q { p with pc := .enqueue (.index n) } []
  | enqueueIndex (n : Fin S.N) : p.pc = .enqueue (.index n) →
      Step S q p q { p with pc := .enqueue (.put n q.enqPtr) } []
  | enqueuePut (n k : Fin S.N) : p.pc = .enqueue (.put n k) →
      Step S q p { q with content := Function.update q.content k p.thisValue }
        { p with pc := .enqueue (.publish n) } [.stored k p.i p.j p.thisValue]
  | publish (n : Fin S.N) : p.pc = .enqueue (.publish n) →
      Step S q p { q with enqPtr := n } { p with j := p.j + 1, pc := .column .all } []
  | nextEnq : p.pc = .nextEnq →
      Step S q p q { p with nextEnq := Ring.next q.enqPtr, pc := .awaitSlot } []
  | slotTaken : p.pc = .awaitSlot → q.content p.nextEnq ≠ alreadyConsumed →
      Step S q p q { p with pc := .awaitSlot } []
  | slotFree : p.pc = .awaitSlot → q.content p.nextEnq = alreadyConsumed →
      Step S q p q { p with pc := .readDeq } []
  | deqSame : p.pc = .testDeq → p.localDeqPtr = q.deqPtr →
      Step S q p q { p with producerCount := p.producerCount + 1, pc := .awaitDeq } []
  | deqWait : p.pc = .awaitDeq → p.localDeqPtr = q.deqPtr →
      Step S q p q { p with pc := .awaitDeq } []
  | deqMoved : p.pc = .testDeq ∨ p.pc = .awaitDeq → p.localDeqPtr ≠ q.deqPtr →
      Step S q p q { p with pc := .readDeq } []
  | readDeq : p.pc = .readDeq →
      Step S q p q { p with localDeqPtr := q.deqPtr, pc := .testLimit } []
  | testLimit : p.pc = .testLimit →
      Step S q p q { p with pc := .growLimit (p.localDeqPtr.val ≤ q.enqPtr.val) } []
  | growLimit (ge : Bool) (free : Nat) : p.pc = .growLimit ge →
      free = (if ge then (S.N - q.enqPtr.val) + p.localDeqPtr.val
        else p.localDeqPtr.val - q.enqPtr.val) →
      Step S q p q
        { p with
          newLimit := p.newLimit + (if S.freq = .rhtVolatilesImproved then free - 1 else free),
          pc := .testCols } []
  | upToLimit : p.pc = .testCols → p.newLimit < S.dims.cols →
      Step S q p q { p with pc := .column .upToLimit } []
  | left : p.pc = .testCols → S.dims.cols ≤ p.newLimit →
      Step S q p q { p with pc := .column .left } []
  | volatileStore : p.pc = .volatileStore →
      Step S q p { q with volatileValue := p.thisValue } { p with pc := .flagStore } []
  | flagStore : p.pc = .flagStore →
      Step S q p { q with checkState := 0 } { p with pc := .awaitCheck } []
  | await : p.pc = .awaitCheck → q.checkState = 0 → Step S q p q { p with pc := .awaitCheck } []
  | checked : p.pc = .awaitCheck → q.checkState ≠ 0 →
      Step S q p q { p with pc := .resultStore } []
  | resultStore (newLimit : Nat) : p.pc = .resultStore → S.freq ≠ .rhtVolatilesImproved →
      newLimit = (if S.freq = .rhtVolatiles then S.N else p.newLimit) →
      Step S q p q
        { p with
          producerVectorResult := Function.update p.producerVectorResult p.i p.thisValue,
          newLimit := newLimit, i := p.i + 1, pc := .row }
        [.producerResult p.i p.thisValue]
  | resultImproved : p.pc = .resultStore → S.freq = .rhtVolatilesImproved →
      Step S q p q
        { p with
          producerVectorResult := Function.update p.producerVectorResult p.i p.thisValue,
          newLimit := S.N - 1, pc := .resetDeq }
        [.producerResult p.i p.thisValue]
  | resetDeq : p.pc = .resetDeq →
      Step S q p q { p with localDeqPtr := q.enqPtr, i := p.i + 1, pc := .row } []

/-- The steps inside of `SimpleSyncQueue_Enqueue`. -/
theorem enqueue_cases {q q' : SimpleSyncQueue S.N} {p p' : Producer S.N} {evs : List (Event S.N)}
    {e : SimpleSyncQueue.EnqueuePc S.N} (hpc : p.pc = .enqueue e)
    (hs : (SimpleSyncQueue.enqueue p.thisValue (fun e => { p with pc := .enqueue e })
      { p with j := p.j + 1, pc := .column .all }
      (fun k => [.stored k p.i p.j p.thisValue]) e).exec q = some (q', p', evs)) :
    Producer.Step S q p q' p' evs := by
  cases e with
  | next =>
    cases hs
    exact .enqueueNext hpc
  | await n =>
    simp only [SimpleSyncQueue.enqueue, Instr.exec] at hs
    split at hs <;> cases hs
    · next hne => exact .enqueueWait n hpc hne
    · next heq => exact .enqueueRoom n hpc (not_not.mp heq)
  | index n =>
    cases hs
    exact .enqueueIndex n hpc
  | put n k =>
    cases hs
    exact .enqueuePut n k hpc
  | publish n =>
    cases hs
    exact .publish n hpc

theorem producer_cases {q q' : SimpleSyncQueue S.N} {p p' : Producer S.N} {evs : List (Event S.N)}
    (hs : (producer S.dims S.freq S.producerCalc p).exec q = some (q', p', evs)) :
    Producer.Step S q p q' p' evs := by
  cases hpc : p.pc with
  | row =>
    simp only [producer, hpc] at hs
    split at hs <;> cases hs
    · next hlt => exact .row hpc hlt
    · next hge => exact .finish hpc (Nat.not_lt.mp hge)
  | column l =>
    simp only [producer, hpc] at hs
    split at hs <;> cases hs
    · next hlt => exact .column l hpc hlt
    · next hge => exact .loopEnd l hpc (Nat.not_lt.mp hge)
  | multiply l =>
    simp only [producer, hpc] at hs
    cases hs
    exact .multiply l hpc
  | index l =>
    simp only [producer, hpc] at hs
    cases hs
    exact .index l hpc
  | put l k =>
    simp only [producer, hpc] at hs
    cases hs
    exact .put l k hpc
  | advanceIndex l =>
    simp only [producer, hpc] at hs
    cases hs
    exact .advanceIndex l hpc
  | advance l k =>
    simp only [producer, hpc] at hs
    cases hs
    exact .advance l k hpc
  | enqueue e =>
    simp only [producer, hpc] at hs
    exact enqueue_cases hpc hs
  | nextEnq =>
    simp only [producer, hpc] at hs
    cases hs
    exact .nextEnq hpc
  | awaitSlot =>
    simp only [producer, hpc, Instr.exec] at hs
    split at hs <;> cases hs
    · next hne => exact .slotTaken hpc hne
    · next heq => exact .slotFree hpc (not_not.mp heq)
  | testDeq =>
    simp only [producer, hpc, Instr.exec] at hs
    split at hs <;> cases hs
    · next heq => exact .deqSame hpc heq
    · next hne => exact .deqMoved (.inl hpc) hne
  | awaitDeq =>
    simp only [producer, hpc, Instr.exec] at hs
    split at hs <;> cases hs
    · next heq => exact .deqWait hpc heq
    · next hne => exact .deqMoved (.inr hpc) hne
  | readDeq =>
    simp only [producer, hpc] at hs
    cases hs
    exact .readDeq hpc
  | testLimit =>
    simp only [producer, hpc] at hs
    cases hs
    exact .testLimit hpc
  | growLimit ge =>
    simp only [producer, hpc] at hs
    cases hs
    exact .growLimit ge _ hpc rfl
  | testCols =>
    simp only [producer, hpc] at hs
    split at hs <;> cases hs
    · next hlt => exact .upToLimit hpc hlt
    · next hge => exact .left hpc (Nat.not_lt.mp hge)
  | volatileStore =>
    simp only [producer, hpc] at hs
    cases hs
    exact .volatileStore hpc
  | flagStore =>
    simp only [producer, hpc] at hs
    cases hs
    exact .flagStore hpc
  | awaitCheck =>
    simp only [producer, hpc, Instr.exec] at hs
    split at hs <;> cases hs
    · next hzero => exact .await hpc hzero
    · next hset => exact .checked hpc hset
  | resultStore =>
    simp only [producer, hpc] at hs
    split at hs <;> cases hs
    · next hf => exact .resultStore _ hpc (by simp [hf]) (if_pos hf).symm
    · next hf => exact .resultImproved hpc hf
    · next hf himp => exact .resultStore _ hpc himp (if_neg hf).symm
  | resetDeq =>
    simp only [producer, hpc] at hs
    cases hs
    exact .resetDeq hpc
  | done | wrong =>
    simp only [producer, hpc] at hs
    cases hs

theorem Producer.Ok.step (hS : S.Replicated) {q q' : SimpleSyncQueue S.N} {p p' : Producer S.N}
    {evs : List (Event S.N)} (h : p.Ok S q) (hs : Producer.Step S q p q' p' evs) : p'.Ok S q' := by
  obtain ⟨pc, i, j, v, nl, ld, ne, cnt, res⟩ := p
  have hsz := S.dims.size_lt
  obtain ⟨henq, hpc⟩ := h
  cases hs with
  | row hp hlt =>
    cases hp
    refine ⟨henq, ?_⟩
    by_cases hf : S.freq = .volatile
    · simpa [hf] using hlt
    · simpa [hf] using ⟨hlt, hpc.2 hf⟩
  | finish hp hge =>
    cases hp
    exact ⟨henq, Nat.le_antisymm hpc.1 hge⟩
  | column l hp hlt =>
    cases hp
    obtain ⟨hi, hj, hv, hl⟩ := hpc
    cases l with
    | upToLimit => exact ⟨henq, hi, Nat.lt_trans hlt (hl rfl).1, hv, fun _ => ⟨(hl rfl).1, hlt⟩⟩
    | left | all => exact ⟨henq, hi, hlt, hv, nofun⟩
  | loopEnd l hp hge =>
    cases hp
    obtain ⟨hi, hj, hv, hl⟩ := hpc
    cases l with
    | upToLimit =>
      -- the loop ends at the limit, before the end of the row
      obtain ⟨hl1, hl2⟩ := hl rfl
      obtain rfl : j = nl := Nat.le_antisymm hl2 hge
      simp only [afterLoop]
      split <;> exact ⟨henq, hi, hl1, hv, rfl⟩
    | left | all =>
      obtain rfl : j = S.dims.cols := Nat.le_antisymm hj hge
      exact ⟨henq, hi, rfl, hv⟩
  | multiply l hp =>
    cases hp
    obtain ⟨hi, hj, hv, hl⟩ := hpc
    simp only at hv
    subst hv
    cases l with
    | upToLimit | left => exact ⟨henq, hi, hj, rfl, hl⟩
    | all => exact ⟨henq, hi, hj, rfl, trivial⟩
  | index l hp | advanceIndex l hp =>
    cases hp
    obtain ⟨hi, hj, hv, hl⟩ := hpc
    exact ⟨henq, hi, hj, hv, hl, henq⟩
  | put l k hp =>
    cases hp
    obtain ⟨hi, hj, hv, hl, hk⟩ := hpc
    exact ⟨henq, hi, hj, hv, hl⟩
  | advance l k hp =>
    cases hp
    simp only at hpc
    obtain ⟨hi, hj, hv, hl, rfl⟩ := hpc
    exact ⟨next_slot _, hi, hj, hv, hl⟩
  | enqueueNext hp =>
    cases hp
    obtain ⟨hi, hj, hv, -⟩ := hpc
    exact ⟨henq, hi, hj, hv, by simp only [henq]; exact next_slot _⟩
  | enqueueWait n hp | enqueueRoom n hp =>
    cases hp
    exact ⟨henq, hpc⟩
  | enqueueIndex n hp =>
    cases hp
    obtain ⟨hi, hj, hv, hn⟩ := hpc
    exact ⟨henq, hi, hj, hv, hn, henq⟩
  | enqueuePut n k hp =>
    cases hp
    obtain ⟨hi, hj, hv, hn, hk⟩ := hpc
    exact ⟨henq, hi, hj, hv, hn⟩
  | publish n hp =>
    cases hp
    obtain ⟨hi, hj, hv, hn⟩ := hpc
    exact ⟨hn, hi, hj, hv, nofun⟩
  | nextEnq hp =>
    cases hp
    obtain ⟨hi, hj, hv, hl⟩ := hpc
    exact ⟨henq, hi, hj, hv, hl, by simp only [henq]; exact next_slot _⟩
  | slotTaken hp =>
    cases hp
    exact ⟨henq, hpc⟩
  | slotFree hp =>
    cases hp
    obtain ⟨hi, hj, hv, hl, hn⟩ := hpc
    exact ⟨henq, hi, hj, hv, hl⟩
  | deqMoved hp =>
    rcases hp with hp | hp <;> cases hp <;> exact ⟨henq, hpc⟩
  | deqSame hp | deqWait hp | readDeq hp | testLimit hp | flagStore hp | await hp =>
    cases hp
    exact ⟨henq, hpc⟩
  | growLimit ge free hp =>
    cases hp
    obtain ⟨hi, hj, hv, hl⟩ := hpc
    exact ⟨henq, hi, hj, hv, hl ▸ Nat.le_add_right _ _⟩
  | upToLimit hp hlt =>
    cases hp
    obtain ⟨hi, hj, hv, hl⟩ := hpc
    exact ⟨henq, hi, Nat.le_of_lt hj, hv, fun _ => ⟨hlt, hl⟩⟩
  | left hp =>
    cases hp
    obtain ⟨hi, hj, hv, hl⟩ := hpc
    exact ⟨henq, hi, Nat.le_of_lt hj, hv, nofun⟩
  | volatileStore hp =>
    cases hp
    obtain ⟨hi, hj, hv⟩ := hpc
    exact ⟨henq, hi, hj, hv, hv⟩
  | checked hp =>
    cases hp
    obtain ⟨hi, hj, hv, hq⟩ := hpc
    exact ⟨henq, hi, hj, hv⟩
  | resultStore newLimit hp himp hnl =>
    cases hp
    obtain ⟨hi, hj, hv⟩ := hpc
    simp only at hj
    subst hj
    have hrow : q.enqPtr = slot ((i + 1) * S.dims.cols) := by rw [Nat.succ_mul]; exact henq
    refine ⟨hrow, hi, ?_⟩
    intro hvol
    -- `newLimit` is reset: a row is longer than the ring
    have hf : S.freq = .rhtVolatiles := (hS.resolve_left hvol).resolve_right himp
    rw [if_pos hf] at hnl
    subst hnl
    exact hsz
  | resultImproved hp =>
    cases hp
    obtain ⟨hi, hj, hv⟩ := hpc
    exact ⟨henq, hi, hj, hv, Nat.lt_of_le_of_lt (Nat.sub_le _ _) hsz⟩
  | resetDeq hp =>
    cases hp
    obtain ⟨hi, hj, hv, hl⟩ := hpc
    simp only at hj
    subst hj
    exact ⟨by rw [Producer.entry, Nat.succ_mul]; exact henq, hi, fun _ => hl⟩

/-- The producer is about to store in the queue. -/
def Producer.Stores {N : Nat} (p : Producer N) : Prop :=
  (match p.pc with
    | .put _ _ | .enqueue (.put _ _) => true
    | _ => false) = true

instance {N : Nat} (p : Producer N) : Decidable p.Stores := inferInstanceAs (Decidable (_ = true))

theorem Producer.Stores.working {N : Nat} {p : Producer N} (h : p.Stores) :
    p.pc ≠ .awaitCheck := by
  intro hpc
  simp [Producer.Stores, hpc] at h

/-- The producer's counters and registers when it stores in the queue. -/
structure Producer.AtEntry (S : Setup) (p : Producer S.N) : Prop where
  row_lt : p.i < S.dims.rows
  col_lt : p.j < S.dims.cols
  written_eq : p.written S.dims = p.i * S.dims.cols + p.j
  requested_eq : p.requested = p.i
  rowsStored_eq : p.rowsStored = p.i
  value_eq : p.thisValue = S.producerCalc.value p.i p.j

/-- What a step of the producer means for the ledger. -/
inductive Producer.Effect (S : Setup) (q : SimpleSyncQueue S.N) (p : Producer S.N) :
    List (Event S.N) → SimpleSyncQueue S.N → Producer S.N → Prop where
  /-- `enqPtr` and `volatileValue` may change; the wait for the verification ends only with the
  flag -/
  | quiet {p' : Producer S.N} (enqPtr : Fin S.N) (volatileValue : Int) :
      p'.progress S.dims = p.progress S.dims →
      (p'.pc ≠ .awaitCheck → p.pc ≠ .awaitCheck ∨ q.checkState ≠ 0) →
      Effect S q p [] { q with enqPtr := enqPtr, volatileValue := volatileValue } p'
  | write {p' : Producer S.N} :
      p.Stores → p.AtEntry S →
      p'.progress S.dims = { p.progress S.dims with written := p.written S.dims + 1 } →
      Effect S q p [.stored (slot (p.written S.dims)) p.i p.j p.thisValue]
        { q with content := Function.update q.content (slot (p.written S.dims)) p.thisValue } p'
  | request {p' : Producer S.N} :
      p.pc ≠ .awaitCheck → p.rowsStored = p.requested →
      p.written S.dims = (p.requested + 1) * S.dims.cols → p'.pc = .awaitCheck →
      p'.progress S.dims = { p.progress S.dims with requested := p.requested + 1 } →
      Effect S q p [] { q with checkState := 0 } p'
  | produce {p' : Producer S.N} :
      p.pc ≠ .awaitCheck → p.rowsStored + 1 = p.requested →
      p'.progress S.dims =
        { p.progress S.dims with
          rowsStored := p.rowsStored + 1
          result := Function.update p.producerVectorResult p.rowsStored
            (S.producerCalc.final S.dims p.rowsStored) } →
      Effect S q p [.producerResult p.rowsStored (S.producerCalc.final S.dims p.rowsStored)] q p'

theorem Producer.Effect.stored_mem {q q' : SimpleSyncQueue S.N} {p p' : Producer S.N}
    {evs : List (Event S.N)} {k : Fin S.N} {i j : Nat} {v : Int}
    (h : Producer.Effect S q p evs q' p') (he : .stored k i j v ∈ evs) :
    p.Stores ∧ v = p.thisValue := by
  cases h with
  | write hst =>
    simp only [List.mem_singleton, Event.stored.injEq] at he
    exact ⟨hst, he.2.2.2⟩
  | _ => simp at he

theorem Producer.Effect.compared_not_mem {q q' : SimpleSyncQueue S.N} {p p' : Producer S.N}
    {evs : List (Event S.N)} {k : Fin S.N} {i j : Nat} {v : Int}
    (h : Producer.Effect S q p evs q' p') : .compared k i j v ∉ evs := by
  cases h <;> simp

theorem Producer.Effect.written_le {q q' : SimpleSyncQueue S.N} {p p' : Producer S.N}
    {evs : List (Event S.N)} (h : Producer.Effect S q p evs q' p') :
    p.written S.dims ≤ p'.written S.dims := by
  show (p.progress S.dims).written ≤ (p'.progress S.dims).written
  cases h with
  | write _ _ hprog =>
    rw [hprog]
    exact Nat.le_succ _
  | quiet _ _ hprog | request _ _ _ _ hprog | produce _ _ hprog => exact (hprog ▸ Nat.le_refl _)

theorem Producer.Ok.effect {q q' : SimpleSyncQueue S.N} {p p' : Producer S.N}
    {evs : List (Event S.N)} (h : p.Ok S q) (hs : Producer.Step S q p q' p' evs) :
    Producer.Effect S q p evs q' p' := by
  obtain ⟨pc, i, j, v, nl, ld, ne, cnt, res⟩ := p
  obtain ⟨henq, hpc⟩ := h
  have hrow : (i + 1) * S.dims.cols = i * S.dims.cols + S.dims.cols := Nat.succ_mul ..
  cases hs with
  | row hp | finish hp | column l hp | index l hp | advanceIndex l hp | advance l k hp
  | enqueueNext hp | enqueueWait n hp | enqueueRoom n hp | enqueueIndex n hp | publish n hp
  | nextEnq hp | slotTaken hp | slotFree hp | deqSame hp | deqWait hp | readDeq hp
  | testLimit hp | growLimit ge free hp | upToLimit hp | left hp | volatileStore hp =>
    cases hp
    exact .quiet _ _ rfl fun _ => .inl (by simp)
  | deqMoved hp =>
    rcases hp with hp | hp <;> cases hp <;> exact .quiet _ _ rfl fun _ => .inl (by simp)
  | loopEnd l hp =>
    cases hp
    cases l with
    | upToLimit =>
      simp only [afterLoop]
      split <;> exact .quiet _ _ rfl fun _ => .inl (by simp)
    | left | all => exact .quiet _ _ rfl fun _ => .inl (by simp)
  | multiply l hp =>
    cases hp
    cases l <;> exact .quiet _ _ rfl fun _ => .inl (by simp)
  | put l k hp =>
    cases hp
    simp only at hpc
    obtain ⟨hi, hj, hv, hl, rfl⟩ := hpc
    exact .write rfl ⟨hi, hj, rfl, rfl, rfl, hv⟩ rfl
  | enqueuePut n k hp =>
    cases hp
    simp only at hpc
    obtain ⟨hi, hj, hv, hn, rfl⟩ := hpc
    exact .write rfl ⟨hi, hj, rfl, rfl, rfl, hv⟩ rfl
  | flagStore hp =>
    cases hp
    simp only at hpc
    obtain ⟨hi, rfl, hv⟩ := hpc
    exact .request (by simp) rfl hrow.symm rfl rfl
  -- only the wait for the verification depends on what it reads
  | await hp =>
    cases hp
    exact .quiet _ _ rfl fun hne => absurd rfl hne
  | checked hp hset =>
    cases hp
    exact .quiet _ _ rfl fun _ => .inr hset
  | resultStore newLimit hp | resultImproved hp =>
    cases hp
    simp only at hpc
    obtain ⟨hi, rfl, rfl⟩ := hpc
    refine .produce (by simp) rfl ?_
    simp [progress, written, entry, requested, rowsStored, hrow]
  | resetDeq hp =>
    cases hp
    simp only at hpc
    obtain ⟨hi, rfl, hv⟩ := hpc
    refine .quiet _ _ ?_ fun _ => .inl (by simp)
    simp [progress, written, entry, requested, rowsStored, hrow]

/-! ## Waiting -/

/-- Which wait loop a spinning producer is in, and what its condition says. -/
theorem Producer.Ok.spinning {q : SimpleSyncQueue S.N} {p : Producer S.N} (h : p.Ok S q)
    (hsp : p.Spinning q) :
    (p.pc = .awaitSlot ∨ ∃ n, p.pc = .enqueue (.await n)) ∧
        p.written S.dims < (p.requested + 1) * S.dims.cols ∧
        q.content (slot (p.written S.dims + 1)) ≠ alreadyConsumed ∨
      p.pc = .awaitDeq ∧ p.written S.dims < (p.requested + 1) * S.dims.cols ∧
        p.written S.dims = p.i * S.dims.cols + p.newLimit ∧ p.localDeqPtr = q.deqPtr ∨
      p.pc = .awaitCheck ∧ q.checkState = 0 ∧ p.written S.dims = p.requested * S.dims.cols := by
  obtain ⟨pc, i, j, v, nl, ld, ne, cnt, res⟩ := p
  obtain ⟨henq, hpc⟩ := h
  have hmul : (i + 1) * S.dims.cols = i * S.dims.cols + S.dims.cols := Nat.succ_mul ..
  cases pc with
  | enqueue e =>
    cases e with
    | await n =>
      obtain ⟨hi, hj, hv, hn⟩ := hpc
      simp only at hj hn
      refine .inl ⟨.inr ⟨n, rfl⟩, ?_, hn ▸ hsp⟩
      simp only [Producer.written, Producer.entry, Producer.requested]
      omega
    | _ => exact hsp.elim
  | awaitSlot =>
    obtain ⟨hi, hj, hv, hl, hn⟩ := hpc
    simp only at hj hn
    subst hn
    refine .inl ⟨.inl rfl, ?_, hsp⟩
    simp only [Producer.written, Producer.entry, Producer.requested]
    omega
  | awaitDeq =>
    obtain ⟨hi, hj, hv, hl⟩ := hpc
    simp only at hj hl
    subst hl
    refine .inr (.inl ⟨rfl, ?_, rfl, hsp⟩)
    simp only [Producer.written, Producer.entry, Producer.requested]
    omega
  | awaitCheck =>
    obtain ⟨hi, hj, hv⟩ := hpc
    simp only at hj
    subst hj
    exact .inr (.inr ⟨rfl, hsp, hmul.symm⟩)
  | _ => exact hsp.elim

end TsxProject
