import TsxProject.VectorMatrix.Threads

/-!
# The ledger: the protocol between the two threads

An abstract model of a replicated multiplication. Pointers, registers and program counters are
gone; what is left is how many entries were written, compared, cleared and passed, how many rows
were handed over and verified, and what the ring holds. The producer here has no flow control: it
may write at any time, over whatever is in the slot.

`Refinement.lean` shows that every run of the threads is a run of this model.
-/

namespace TsxProject

open Infra Infra.Ring

/-- Entries are counted over all rows, `i * MATRIX_COLS + j` for column `j` of row `i`. -/
structure Ledger (N : Nat) where
  content : Fin N → Int
  /-- entries stored by the producer -/
  written : Nat
  /-- entries compared by the consumer -/
  matched : Nat
  /-- entries compared and marked free, where the mode does so -/
  cleared : Nat
  /-- entries `deqPtr` has passed -/
  moved : Nat
  /-- rows for which the producer has set `checkState = 0` -/
  requested : Nat
  /-- rows whose `volatileValue` the consumer has found equal to its own -/
  verified : Nat
  /-- rows for which the consumer has set `checkState = 1` -/
  acked : Nat
  /-- rows in `producerVectorResult` -/
  producerRows : Nat
  /-- rows in `consumerVectorResult` -/
  consumerRows : Nat

namespace Ledger

/-- The consumer marks slots free in this mode. -/
def WriteBack (S : Setup) : Prop := S.freq ≠ .rhtVolatilesImproved

instance (S : Setup) : Decidable (WriteBack S) := inferInstanceAs (Decidable (_ ≠ _))

def init (S : Setup) : Ledger S.N where
  content := fun _ => alreadyConsumed
  written := 0
  matched := 0
  cleared := 0
  moved := 0
  requested := 0
  verified := 0
  acked := 0
  producerRows := 0
  consumerRows := 0

inductive Step (S : Setup) : Ledger S.N → List (Event S.N) → Ledger S.N → Prop where
  | write {L : Ledger S.N} (j : Nat) :
      L.requested = L.acked → L.producerRows = L.requested → L.requested < S.dims.rows →
      L.written = L.requested * S.dims.cols + j → j < S.dims.cols →
      Step S L [.stored (slot L.written) L.requested j (S.producerCalc.value L.requested j)]
        { L with
          content := Function.update L.content (slot L.written)
            (S.producerCalc.value L.requested j)
          written := L.written + 1 }
  | request {L : Ledger S.N} :
      L.requested = L.acked → L.producerRows = L.requested →
      L.written = (L.requested + 1) * S.dims.cols →
      Step S L [] { L with requested := L.requested + 1 }
  | produce {L : Ledger S.N} :
      L.requested = L.acked → L.producerRows + 1 = L.requested →
      Step S L [.producerResult L.producerRows (S.producerCalc.final S.dims L.producerRows)]
        { L with producerRows := L.producerRows + 1 }
  | compare {L : Ledger S.N} (j : Nat) :
      L.verified = L.acked → L.consumerRows = L.acked → L.matched = L.moved →
      L.acked < S.dims.rows → L.matched = L.acked * S.dims.cols + j → j < S.dims.cols →
      L.content (slot L.matched) = S.consumerCalc.value L.acked j →
      Step S L [.compared (slot L.matched) L.acked j (S.consumerCalc.value L.acked j)]
        { L with
          matched := L.matched + 1
          cleared := if WriteBack S then L.cleared else L.cleared + 1 }
  | clear {L : Ledger S.N} (j : Nat) :
      WriteBack S → L.cleared + 1 = L.matched → L.moved = L.cleared →
      L.cleared = L.acked * S.dims.cols + j → j < S.dims.cols →
      Step S L [.cleared (slot L.cleared) L.acked j]
        { L with
          content := Function.update L.content (slot L.cleared) alreadyConsumed
          cleared := L.cleared + 1 }
  | move {L : Ledger S.N} :
      L.moved + 1 = L.cleared → Step S L [] { L with moved := L.moved + 1 }
  | verify {L : Ledger S.N} :
      L.requested = L.acked + 1 → L.verified = L.acked → L.consumerRows = L.acked →
      L.moved = (L.acked + 1) * S.dims.cols → L.matched = L.moved →
      S.consumerCalc.final S.dims L.acked = S.producerCalc.final S.dims L.acked →
      Step S L
        [.verified L.acked (S.consumerCalc.final S.dims L.acked)
          (S.producerCalc.final S.dims L.acked)]
        { L with verified := L.verified + 1 }
  | ack {L : Ledger S.N} :
      L.verified = L.acked + 1 → Step S L [] { L with acked := L.acked + 1 }
  | consume {L : Ledger S.N} :
      L.consumerRows + 1 = L.acked → L.verified = L.acked →
      Step S L [.consumerResult L.consumerRows (S.consumerCalc.final S.dims L.consumerRows)]
        { L with consumerRows := L.consumerRows + 1 }

def spec (S : Setup) : Spec (Ledger S.N) (Event S.N) where
  init L := L = Ledger.init S
  step := Step S

theorem Step.length_le {S : Setup} {L L' : Ledger S.N} {evs : List (Event S.N)}
    (h : Step S L evs L') : evs.length ≤ 1 := by
  cases h <;> simp

/-- A store is that of the next entry. -/
theorem Step.stored_mem {S : Setup} {L L' : Ledger S.N} {evs : List (Event S.N)} {k : Fin S.N}
    {i j : Nat} {v : Int} (h : Step S L evs L') (he : .stored k i j v ∈ evs) :
    L.written = i * S.dims.cols + j ∧ k = slot L.written := by
  cases h with
  | write j₀ hsync hrows hlt hent hj =>
    simp only [List.mem_singleton, Event.stored.injEq] at he
    obtain ⟨rfl, rfl, rfl, -⟩ := he
    exact ⟨hent, rfl⟩
  | _ => simp at he

/-! ## What holds between the counters -/

/-- The order of the counters, and where each thread is in its row. -/
structure Ok (d : Dims) {N : Nat} (L : Ledger N) : Prop where
  consumerRows_le : L.consumerRows ≤ L.acked
  acked_le : L.acked ≤ L.verified
  verified_le : L.verified ≤ L.consumerRows + 1
  verified_le_requested : L.verified ≤ L.requested
  requested_le : L.requested ≤ L.producerRows + 1
  requested_le_acked : L.requested ≤ L.acked + 1
  producerRows_le : L.producerRows ≤ L.acked
  moved_le : L.moved ≤ L.cleared
  cleared_le : L.cleared ≤ L.matched
  matched_le : L.matched ≤ L.moved + 1
  le_moved : L.consumerRows * d.cols ≤ L.moved
  matched_le_row : L.matched ≤ (L.consumerRows + 1) * d.cols
  matched_le_all : L.matched ≤ d.rows * d.cols
  passed : L.consumerRows < L.verified →
    L.moved = (L.consumerRows + 1) * d.cols ∧ L.matched = L.moved
  le_written : L.producerRows * d.cols ≤ L.written
  written_le_row : L.written ≤ (L.producerRows + 1) * d.cols
  written_le_all : L.written ≤ d.rows * d.cols
  handed : L.producerRows < L.requested → L.written = (L.producerRows + 1) * d.cols

theorem Ok.init (S : Setup) : (init S).Ok S.dims := by
  constructor <;> simp [Ledger.init]

theorem Ok.step {S : Setup} {L L' : Ledger S.N} {evs : List (Event S.N)} (h : L.Ok S.dims)
    (hs : Step S L evs L') : L'.Ok S.dims := by
  obtain ⟨h1, h2, h3, h4, h5, h6, h7, h8, h9, h10, h11, h12, h13, h14, h15, h16, h17, h18⟩ := h
  have hrow (i : Nat) : (i + 1) * S.dims.cols = i * S.dims.cols + S.dims.cols := Nat.succ_mul ..
  cases hs with
  | write j hsync hrows hlt hent hj =>
    have hall : (L.requested + 1) * S.dims.cols ≤ S.dims.rows * S.dims.cols :=
      Nat.mul_le_mul_right _ hlt
    rw [hrow] at hall
    rw [← hrows] at hent hall
    have hmul := hrow L.producerRows
    constructor <;> simp only <;> omega
  | request hsync hrows hent => constructor <;> simp only <;> first | omega | simp_all
  | produce hsync hrows =>
    have hmul := hrow (L.producerRows + 1)
    constructor <;> simp only <;> omega
  | compare j hver hrows hmv hlt hent hj hc =>
    have hall : (L.acked + 1) * S.dims.cols ≤ S.dims.rows * S.dims.cols :=
      Nat.mul_le_mul_right _ hlt
    rw [hrow] at hall
    rw [← hrows] at hent hall
    have hmul := hrow L.consumerRows
    by_cases hwb : WriteBack S <;> constructor <;> simp only [hwb, reduceIte] <;> omega
  | clear j hwb hcl hmv hent hj => constructor <;> simp only <;> omega
  | move hmv => constructor <;> simp only <;> omega
  | verify hreq hver hrows hmv hmt hval =>
    rw [← hrows] at hmv
    constructor <;> simp only <;> omega
  | ack hver => constructor <;> simp only <;> omega
  | consume hrows hver =>
    have hmul := hrow (L.consumerRows + 1)
    constructor <;> simp only <;> omega

/-- The consumer has moved past the rows it has acknowledged. -/
theorem Ok.acked_mul_le {d : Dims} {N : Nat} {L : Ledger N} (h : L.Ok d) :
    L.acked * d.cols ≤ L.moved := by
  have hle := h.le_moved
  have hack := h.acked_le
  have hver := h.verified_le
  by_cases hlt : L.consumerRows < L.verified
  · rw [(h.passed hlt).1]
    exact Nat.mul_le_mul_right _ (by omega)
  · exact Nat.le_trans (Nat.mul_le_mul_right _ (by omega)) hle

/-- The producer has stored the rows it has handed over. -/
theorem Ok.requested_mul_le {d : Dims} {N : Nat} {L : Ledger N} (h : L.Ok d) :
    L.requested * d.cols ≤ L.written := by
  have hle := h.le_written
  have hreq := h.requested_le
  by_cases hlt : L.producerRows < L.requested
  · rw [h.handed hlt]
    exact Nat.mul_le_mul_right _ hreq
  · exact Nat.le_trans (Nat.mul_le_mul_right _ (by omega)) hle

theorem Ok.of_runs {S : Setup} {tr : List (Event S.N)} {L : Ledger S.N}
    (h : (spec S).Runs tr L) : L.Ok S.dims :=
  Spec.Runs.rule (I := fun _ L => L.Ok S.dims) (fun hi => hi ▸ Ok.init S)
    (fun hI hs => hI.step hs) h

end Ledger

end TsxProject
