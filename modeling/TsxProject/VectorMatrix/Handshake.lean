import TsxProject.VectorMatrix.History
import TsxProject.VectorMatrix.Refinement

/-!
# The hand-shake at the end of a row

`checkState` is one flag for all rows. Whatever the two threads compute, and whatever happens in
the queue, a row is committed by the producer only after the consumer has compared the two values
of the same row and found them equal.
-/

namespace TsxProject

open Infra Infra.Ring

variable {S : Setup}

/-! ## Rows in the trace -/

/-- The rows the producer committed, in order. -/
def committedByProducer {N : Nat} (tr : List (Event N)) : List Nat :=
  tr.filterMap fun
    | .producerResult i _ => some i
    | _ => none

/-- The rows the consumer committed, in order. -/
def committedByConsumer {N : Nat} (tr : List (Event N)) : List Nat :=
  tr.filterMap fun
    | .consumerResult i _ => some i
    | _ => none

namespace Ledger

/-- Rows are committed once each and in order. -/
theorem rows_eq {tr : List (Event S.N)} {L : Ledger S.N} (h : (spec S).Runs tr L) :
    committedByProducer tr = List.range L.producerRows ∧
      committedByConsumer tr = List.range L.consumerRows := by
  induction h with
  | init hi =>
    obtain rfl : _ = Ledger.init S := hi
    exact ⟨rfl, rfl⟩
  | step _ hs ih =>
    simp only [committedByProducer, committedByConsumer, List.filterMap_append] at ih ⊢
    rw [ih.1, ih.2]
    cases hs <;> simp [List.range_succ]

/-- The two final values of a verified row are the same. -/
theorem final_eq {tr : List (Event S.N)} {L : Ledger S.N} (h : (spec S).Runs tr L) {i : Nat}
    (hi : i < L.verified) : S.consumerCalc.final S.dims i = S.producerCalc.final S.dims i := by
  induction h with
  | init h0 =>
    obtain rfl : _ = Ledger.init S := h0
    exact absurd hi (Nat.not_lt_zero i)
  | step hr hs ih =>
    cases hs with
    | verify hreq hver hrows hmv hmt hval =>
      rcases Nat.lt_succ_iff_lt_or_eq.mp hi with hlt | rfl
      · exact ih hlt
      · rwa [hver]
    | _ => exact ih hi

/-- A row is in `producerVectorResult` only after its verification. -/
theorem produced_after_verified {tr : List (Event S.N)} {L : Ledger S.N}
    (h : (spec S).Runs tr L) :
    Preceded (fun pre e => ∀ i v, e = .producerResult i v → .verified i v v ∈ pre) tr := by
  induction h with
  | init => exact Preceded.nil _
  | @step tr evs L L' hr hs ih =>
    refine ih.append hs.length_le ?_
    rintro e he i v rfl
    have hok := Ok.of_runs hr
    cases hs with
    | produce hsync hrows =>
      simp only [List.mem_singleton, Event.producerResult.injEq] at he
      obtain ⟨rfl, rfl⟩ := he
      have hlt : L.producerRows < L.verified := by
        have := hok.acked_le
        omega
      exact (mem_iff hr _).mpr ⟨hlt, (final_eq hr hlt).symm, rfl, rfl⟩
    | _ => simp at he

end Ledger

/-! ## The hand-shake -/

/--
**No unverified volatile store**, in any mode and for arbitrary values.

* a row is stored in `producerVectorResult` only after the consumer has compared the two values
  of this row and found them equal;
* what the consumer compares is its own value and the producer's final value of the same row;
* the two threads commit the same value for a row;
* each commits its rows once each and in order, and neither is more than a row ahead.
-/
theorem no_unverified_volatile_store (hS : S.Replicated) {tr : List (Event S.N)} {s : S.State}
    (h : S.system.Runs tr s) :
    Preceded (fun pre e => ∀ i v, e = .producerResult i v → .verified i v v ∈ pre) tr ∧
    (∀ i own read, .verified i own read ∈ tr →
      own = S.consumerCalc.final S.dims i ∧ read = S.producerCalc.final S.dims i ∧ own = read) ∧
    (∀ i v v', .producerResult i v ∈ tr → .consumerResult i v' ∈ tr → v = v') ∧
    ∃ m n, committedByProducer tr = List.range m ∧ committedByConsumer tr = List.range n ∧
      m ≤ n + 1 ∧ n ≤ m + 1 := by
  obtain ⟨-, hL⟩ := refines hS h
  have hok := Ledger.Ok.of_runs hL
  have hrows := Ledger.rows_eq hL
  refine ⟨Ledger.produced_after_verified hL, ?_, ?_, _, _, hrows.1, hrows.2, ?_, ?_⟩
  · intro i own read he
    exact ((Ledger.mem_iff hL _).mp he).2
  · intro i v v' hp hc
    obtain ⟨hi, hv⟩ := (Ledger.mem_iff hL _).mp hp
    obtain ⟨-, hv'⟩ := (Ledger.mem_iff hL _).mp hc
    have hlt : i < (view S s).verified := by
      have := hok.producerRows_le
      have := hok.acked_le
      omega
    rw [hv, hv', Ledger.final_eq hL hlt]
  · have := hok.producerRows_le
    have := hok.acked_le
    have := hok.verified_le
    omega
  · have := hok.consumerRows_le
    have := hok.acked_le
    have := hok.verified_le_requested
    have := hok.requested_le
    omega

theorem no_unverified_volatile_store_small :
    ∃ tr s, (Setup.small 2 .rhtVolatilesImproved).system.Runs tr s ∧
      committedByProducer tr = [0, 1] ∧ committedByConsumer tr = [0, 1] ∧
      Preceded (fun pre e => ∀ i v, e = .producerResult i v → .verified i v v ∈ pre) tr := by
  obtain ⟨tr, s, hr, hp, hc⟩ := System.exists_runs (Setup.small 2 .rhtVolatilesImproved).system
    (turns (List.replicate 24 (5, 2) ++ [(4, 1)]))
    (fun tr _ => committedByProducer tr = [0, 1] ∧ committedByConsumer tr = [0, 1])
    (by decide +kernel)
  exact ⟨tr, s, hr, hp, hc, (no_unverified_volatile_store (.inr (.inr rfl)) hr).1⟩

end TsxProject
