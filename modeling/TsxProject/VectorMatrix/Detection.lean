import TsxProject.Infra.SentinelRing
import TsxProject.VectorMatrix.History
import TsxProject.VectorMatrix.Refinement

/-!
# Detection in the modes that mark slots free

A corrupted value may be `ALREADY_CONSUMED`. The producer then takes a stored entry for a free
slot, and may overwrite what is still to be read. What is left is a count: an entry that is lost
is one the consumer will miss (`SentinelRing.Accounted`), so a consumer that has compared a whole
row has compared what the producer stored.
-/

namespace TsxProject

open Infra Infra.Ring

variable {S : Setup}

namespace Ledger

/-- The ring, an entry that is compared counting as cleared. -/
def taken (L : Ledger S.N) : Fin S.N → Int :=
  if L.cleared < L.matched then Function.update L.content (slot L.cleared) alreadyConsumed
  else L.content

def Accounted (S : Setup) (L : Ledger S.N) : Prop :=
  SentinelRing.Accounted L.taken (S.producerCalc.entry S.dims) (S.consumerCalc.entry S.dims)
    alreadyConsumed L.matched L.written

/-- A store may meet the slot that is about to be cleared, and then comes to nothing. -/
theorem taken_write (L : Ledger S.N) (v : Int) :
    ∃ u, (u = v ∨ u = alreadyConsumed) ∧
      taken { L with content := Function.update L.content (slot L.written) v,
                     written := L.written + 1 } =
        Function.update L.taken (slot L.written) u := by
  by_cases hlt : L.cleared < L.matched
  · simp only [taken, hlt, if_true]
    by_cases he : (slot L.cleared : Fin S.N) = slot L.written
    · refine ⟨alreadyConsumed, .inr rfl, ?_⟩
      rw [he, Function.update_idem, Function.update_idem]
    · exact ⟨v, .inl rfl, Function.update_comm (Ne.symm he) _ _ _⟩
  · simp only [taken, hlt, if_false]
    exact ⟨v, .inl rfl, rfl⟩

theorem Accounted.step (hwb : WriteBack S)
    (hc : ∀ i j, i < S.dims.rows → j < S.dims.cols → S.consumerCalc.value i j ≠ alreadyConsumed)
    {L L' : Ledger S.N} {evs : List (Event S.N)} (hok : L.Ok S.dims) (h : Accounted S L)
    (hs : Step S L evs L') : Accounted S L' := by
  cases hs with
  | write j hsync hrows hlt hent hj =>
    obtain ⟨u, hu, heq⟩ := taken_write L (S.producerCalc.value L.requested j)
    rw [Accounted, heq]
    refine SentinelRing.Accounted.write h ?_
    rwa [hent, Calc.entry_mul_add _ _ _ hj]
  | compare j hver hrows hmv hlt hent hj hcon =>
    -- the entry counts as cleared from here on, although its slot is cleared later
    have hcl : L.cleared = L.matched := by
      have := hok.moved_le
      have := hok.cleared_le
      omega
    have hval : S.consumerCalc.entry S.dims L.matched = S.consumerCalc.value L.acked j := by
      rw [hent, Calc.entry_mul_add _ _ _ hj]
    have htaken : L.taken = L.content := if_neg (by omega)
    have h' := h
    rw [Accounted, htaken] at h'
    have hnext := h'.take (hcon.trans hval.symm) (hval ▸ hc _ _ hlt hj)
    simp only [Accounted, taken, hwb, if_true]
    rwa [if_pos (by omega), hcl]
  | clear j _ hcl hmv hent hj =>
    have htaken : L.taken = Function.update L.content (slot L.cleared) alreadyConsumed :=
      if_pos (by omega)
    simp only [Accounted, taken]
    rwa [if_neg (by omega), ← htaken]
  | request | produce | move | verify | ack | consume => exact h

/-- The rows that are compared agree. -/
theorem agreed (hwb : WriteBack S)
    (hc : ∀ i j, i < S.dims.rows → j < S.dims.cols → S.consumerCalc.value i j ≠ alreadyConsumed)
    {tr : List (Event S.N)} {L : Ledger S.N} (h : (spec S).Runs tr L) :
    Accounted S L ∧ ∀ i, (i + 1) * S.dims.cols ≤ L.matched → ∀ j, j < S.dims.cols →
      S.producerCalc.value i j = S.consumerCalc.value i j := by
  induction h with
  | init hi =>
    obtain rfl : _ = Ledger.init S := hi
    refine ⟨SentinelRing.Accounted.init _ _ _, ?_⟩
    intro i hle
    have := S.dims.cols_pos
    simp only [Ledger.init, Nat.succ_mul] at hle
    omega
  | @step tr evs L L' hr hs ih =>
    have hok := Ok.of_runs hr
    have hacc := ih.1.step hwb hc hok hs
    refine ⟨hacc, ?_⟩
    intro i hle j hj
    by_cases hold : (i + 1) * S.dims.cols ≤ L.matched
    · exact ih.2 i hold j hj
    · -- the step completes row `i`
      have hrow : L'.written ≤ L'.matched := by
        cases hs with
        | compare j' hver hrows hmv hlt hent hj' hcon =>
          simp only at hle ⊢
          have hsplit : (i + 1) * S.dims.cols = i * S.dims.cols + S.dims.cols := Nat.succ_mul ..
          have hlast : i * S.dims.cols + (S.dims.cols - 1) = L.acked * S.dims.cols + j' := by omega
          obtain ⟨rfl, -⟩ := entry_inj hlast (by omega) hj'
          have hwr := hok.written_le_row
          have hle' : (L.producerRows + 1) * S.dims.cols ≤ (L.acked + 1) * S.dims.cols :=
            Nat.mul_le_mul_right _ (Nat.succ_le_succ hok.producerRows_le)
          omega
        | _ => exact absurd hle hold
      have hx := SentinelRing.Accounted.complete hacc hrow (i * S.dims.cols + j) (by
        rw [Nat.succ_mul] at hle
        omega)
      rwa [Calc.entry_mul_add _ _ _ hj, Calc.entry_mul_add _ _ _ hj] at hx

end Ledger

/--
**Detection is complete** in the modes `Volatile` and `RHT_Volatiles`: whatever the producer stores,
a row that the consumer has compared to its end agrees in every column.
-/
theorem detection_complete (hS : S.Clears)
    (hc : ∀ i j, i < S.dims.rows → j < S.dims.cols → S.consumerCalc.value i j ≠ alreadyConsumed)
    {tr : List (Event S.N)} {s : S.State} (h : S.system.Runs tr s) {i : Nat}
    (hi : ComparedRow S tr i) :
    ∀ j, j < S.dims.cols → S.producerCalc.value i j = S.consumerCalc.value i j := by
  have hL := (refines hS.replicated h).2
  exact (Ledger.agreed hS.writeBack hc hL).2 i ((comparedRow_iff hL i).mp hi)

theorem detection_complete_small :
    ∃ tr s, (Setup.small 1 .volatile).system.Runs tr s ∧
      ComparedRow (Setup.small 1 .volatile) tr 0 ∧
      ∀ j, j < 3 → (Setup.small 1 .volatile).producerCalc.value 0 j =
        (Setup.small 1 .volatile).consumerCalc.value 0 j := by
  obtain ⟨tr, s, hr, hp⟩ := System.exists_runs (Setup.small 1 .volatile).system
    (turns (List.replicate 7 (4, 4) ++ [(4, 3), (3, 0)]))
    (fun _ s => 3 ≤ s.snd.matched (Dims.small 1)) (by decide +kernel)
  have hrow : ComparedRow (Setup.small 1 .volatile) tr 0 :=
    (comparedRow_iff (refines (.inl rfl) hr).2 0).mpr hp
  refine ⟨tr, s, hr, hrow, detection_complete (.inl rfl) (fun i j hi hj => ?_) hr hrow⟩
  have := (Workload.ones (Dims.small 1)).value_pos hi hj
  simp only [Setup.small, Setup.ofWorkload, alreadyConsumed]
  omega

end TsxProject
