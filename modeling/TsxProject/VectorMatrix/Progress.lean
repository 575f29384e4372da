import TsxProject.VectorMatrix.Alarm
import TsxProject.VectorMatrix.Improved

/-!
# Progress of the mode that never marks slots free

The producer of `RHT_VolatilesImproved` waits for `deqPtr` to differ from a slot it remembers, so a
consumer that is a whole lap further, or has finished its row on leftovers, would look like no
progress. Without faults that cannot be: the values of a row grow, so a leftover of the same row
never matches, and a consumer more than a lap into its row is not ahead of the producer.
-/

namespace TsxProject

open Infra Infra.Ring

variable {S : Setup}

namespace Ledger

/-- What the consumer has compared ahead of the producer in its row is what the slots hold. -/
def Ahead (S : Setup) (L : Ledger S.N) : Prop :=
  ∀ x, L.consumerRows * S.dims.cols ≤ x → x < L.matched → L.written ≤ x →
    L.content (slot x) = S.producerCalc.entry S.dims x

theorem Ahead.init : Ahead S (Ledger.init S) := by
  intro x _ hx
  exact absurd hx (Nat.not_lt_zero x)

/-- Two entries of the consumer's row in one slot. -/
theorem same_slot_absurd {w : Workload S.dims} (hw : S.producerCalc = w.faultFree) {L : Ledger S.N}
    (hok : L.Ok S.dims) {x y : Nat} (hlo : L.consumerRows * S.dims.cols ≤ x) (hxy : x < y)
    (hy : y < L.matched) (hslot : (slot x : Fin S.N) = slot y)
    (hcx : L.content (slot x) = S.producerCalc.entry S.dims x)
    (hcy : L.content (slot y) = S.producerCalc.entry S.dims y) : False := by
  have hrow : L.consumerRows < S.dims.rows := by
    have hall := hok.matched_le_all
    exact Nat.lt_of_mul_lt_mul_right (a := S.dims.cols) (by omega)
  have hlt := w.entry_lt_entry hrow hlo hxy (Nat.lt_of_lt_of_le hy hok.matched_le_row)
  rw [← hw, ← hcx, ← hcy, hslot] at hlt
  exact absurd hlt (Int.lt_irrefl _)

theorem Ahead.step {w : Workload S.dims} (hw : S.FaultFree w) (hwb : ¬ WriteBack S)
    {L L' : Ledger S.N} {evs : List (Event S.N)} (hok : L.Ok S.dims) (h : Ahead S L)
    (hs : Step S L evs L') : Ahead S L' := by
  cases hs with
  | write j hsync hrows hlt hent hj =>
    intro x hlo hx hwr
    simp only at hlo hx hwr ⊢
    have hne : (slot x : Fin S.N) ≠ slot L.written := by
      -- else the consumer has found the same value twice in one slot
      intro heq
      have hstart : L.consumerRows * S.dims.cols ≤ L.written := by
        have hle := hok.le_written
        have hcr := hok.consumerRows_le
        rw [hrows, hsync] at hle
        exact Nat.le_trans (Nat.mul_le_mul_right _ hcr) hle
      exact same_slot_absurd hw.1 hok hstart (by omega) hx heq.symm
        (h _ hstart (by omega) (Nat.le_refl _)) (h x hlo hx (by omega))
    rw [Function.update_of_ne hne]
    exact h x hlo hx (by omega)
  | compare j hver hrows hmv hlt hent hj hcon =>
    intro x hlo hx hwr
    simp only at hlo hx hwr ⊢
    by_cases he : x = L.matched
    · rw [he, hcon, hent, Calc.entry_mul_add _ _ _ hj, hw.1, hw.2]
    · exact h x hlo (by omega) hwr
  | consume hrows hver =>
    intro x hlo hx hwr
    have hpass := hok.passed (by omega)
    simp only at hlo hx
    omega
  | clear j hwb' => exact absurd hwb' hwb
  | request | produce | move | verify | ack => exact h

/-- More than a lap into its row the consumer is not ahead of the producer. -/
theorem Ahead.matched_le {w : Workload S.dims} (hw : S.producerCalc = w.faultFree)
    {L : Ledger S.N} (hok : L.Ok S.dims) (hlaps : Laps S L) (h : Ahead S L)
    (hlap : L.consumerRows * S.dims.cols + S.N < L.matched) : L.matched ≤ L.written := by
  by_contra hlt
  have hN : 0 < S.N := Nat.pos_of_neZero _
  -- the last comparison was ahead, and a lap before it the slot was used in the same row
  have hlast := h (L.matched - 1) (by omega) (by omega) (by omega)
  have hslot : (slot (L.matched - 1 - S.N) : Fin S.N) = slot (L.matched - 1) := by
    rw [← slot_add_size (L.matched - 1 - S.N), Nat.sub_add_cancel (by omega)]
  refine same_slot_absurd hw hok (x := L.matched - 1 - S.N) (by omega) (by omega) (by omega)
    hslot ?_ hlast
  by_cases hwr : L.written ≤ L.matched - 1 - S.N
  · exact h _ (by omega) (by omega) hwr
  · exact hlaps.last _ (by omega) (by omega)

end Ledger

/-! ## No deadlock -/

theorem ahead (hS : S.freq = .rhtVolatilesImproved) {w : Workload S.dims} (hw : S.FaultFree w)
    {tr : List (Event S.N)} {L : Ledger S.N} (h : (Ledger.spec S).Runs tr L) : L.Ahead S := by
  induction h with
  | init hi =>
    obtain rfl : _ = Ledger.init S := hi
    exact Ledger.Ahead.init
  | step hr hs ih => exact ih.step hw (not_writeBack hS) (Ledger.Ok.of_runs hr) hs

end TsxProject
