import Mathlib.Algebra.BigOperators.Intervals
import Mathlib.Algebra.Order.Group.Nat
import TsxProject.Infra.Signed

/-!
# Work ranges

`THREAD_UTILS_GetRangeFromThreadId` of `ThreadUtils.c`: slices of equal length, the rest of the
division with the last one. `getRangeFromThreadIdInt` is the function on the `int`s of C, and
`getRangeFromThreadId` the one on natural numbers that the models of the threads use.

* `getRangeFromThreadIdInt_eq` — for the indices of threads nothing overflows, and both agree
* `ranges_partition` — the ranges of the threads partition the array
-/

namespace TsxProject

open Infra

/-- `startIndex` and `*endIndex` of `THREAD_UTILS_GetRangeFromThreadId`. -/
def getRangeFromThreadId (threadIndex numValues numThreads : Nat) : Nat × Nat :=
  let valuesPerThread := numValues / numThreads
  let startIndex := threadIndex * valuesPerThread
  let endIndex := startIndex + valuesPerThread
  if threadIndex = numThreads - 1 then (startIndex, endIndex + numValues % numThreads)
  else (startIndex, endIndex)

section Ranges

variable (numValues numThreads : Nat)

abbrev rangeStart (t : Nat) : Nat := (getRangeFromThreadId t numValues numThreads).1

abbrev rangeEnd (t : Nat) : Nat := (getRangeFromThreadId t numValues numThreads).2

variable {numValues numThreads} {t : Nat}

theorem rangeStart_eq : rangeStart numValues numThreads t = t * (numValues / numThreads) := by
  unfold rangeStart getRangeFromThreadId
  dsimp only
  split <;> rfl

/-- A range is at least as long as each thread's share. -/
theorem slice_le_end :
    t * (numValues / numThreads) + numValues / numThreads ≤ rangeEnd numValues numThreads t := by
  unfold rangeEnd getRangeFromThreadId
  dsimp only
  split
  · exact Nat.le_add_right _ _
  · exact Nat.le_refl _

theorem rangeStart_le_end :
    rangeStart numValues numThreads t ≤ rangeEnd numValues numThreads t := by
  rw [rangeStart_eq]
  exact Nat.le_trans (Nat.le_add_right _ _) slice_le_end

/-- A range ends where the next one starts. -/
theorem rangeEnd_eq_start (ht : t + 1 < numThreads) :
    rangeEnd numValues numThreads t = rangeStart numValues numThreads (t + 1) := by
  rw [rangeStart_eq, rangeEnd, getRangeFromThreadId, if_neg (by omega)]
  exact (Nat.succ_mul t _).symm

/-- The last range ends with the array. -/
theorem rangeEnd_last (hpos : 0 < numThreads) :
    rangeEnd numValues numThreads (numThreads - 1) = numValues := by
  rw [rangeEnd, getRangeFromThreadId, if_pos rfl]
  dsimp only
  rw [← Nat.succ_mul, Nat.succ_eq_add_one, Nat.sub_add_cancel hpos]
  exact Nat.div_add_mod numValues numThreads

variable (numValues) in
/-- Ranges of earlier threads come first. -/
theorem rangeEnd_le_start {u : Nat} (htu : t < u) (hu : u < numThreads) :
    rangeEnd numValues numThreads t ≤ rangeStart numValues numThreads u := by
  rw [rangeEnd_eq_start (by omega), rangeStart_eq, rangeStart_eq]
  exact Nat.mul_le_mul_right _ htu

theorem rangeEnd_le (ht : t < numThreads) : rangeEnd numValues numThreads t ≤ numValues := by
  have hlast : rangeEnd numValues numThreads (numThreads - 1) = numValues :=
    rangeEnd_last (by omega)
  rcases Nat.lt_or_eq_of_le (Nat.le_sub_one_of_lt ht) with hlt | rfl
  · calc rangeEnd numValues numThreads t
        ≤ rangeStart numValues numThreads (numThreads - 1) :=
          rangeEnd_le_start numValues hlt (Nat.sub_one_lt_of_lt ht)
      _ ≤ rangeEnd numValues numThreads (numThreads - 1) := rangeStart_le_end
      _ = numValues := hlast
  · exact Nat.le_of_eq hlast

/-- Sums over the ranges are sums over the array together. -/
theorem sum_range_lengths {M : Type} [AddCommMonoid M] (hpos : 0 < numThreads) (f : Nat → M) :
    ∑ t ∈ Finset.range numThreads, ∑ i ∈ Finset.Ico (rangeStart numValues numThreads t)
      (rangeEnd numValues numThreads t), f i = ∑ i ∈ Finset.range numValues, f i := by
  have hpart : ∀ k < numThreads, ∑ t ∈ Finset.range k,
      ∑ i ∈ Finset.Ico (rangeStart numValues numThreads t) (rangeEnd numValues numThreads t), f i =
      ∑ i ∈ Finset.range (rangeStart numValues numThreads k), f i := by
    intro k hk
    induction k with
    | zero => simp [rangeStart_eq]
    | succ k ih =>
      rw [Finset.sum_range_succ, ih (by omega), ← rangeEnd_eq_start hk]
      exact Finset.sum_range_add_sum_Ico f rangeStart_le_end
  obtain ⟨k, rfl⟩ : ∃ k, numThreads = k + 1 := ⟨numThreads - 1, by omega⟩
  have hend : rangeEnd numValues (k + 1) k = numValues := rangeEnd_last hpos
  rw [Finset.sum_range_succ, hpart k (Nat.lt_succ_self k),
    Finset.sum_range_add_sum_Ico f rangeStart_le_end, hend]

/-- Every index of the array is in the range of exactly one thread. -/
theorem existsUnique_range {i : Nat} (hpos : 0 < numThreads) (hi : i < numValues) :
    ∃! t, t < numThreads ∧
      rangeStart numValues numThreads t ≤ i ∧ i < rangeEnd numValues numThreads t := by
  have hstart : ∃ t, t < numThreads ∧ i < rangeEnd numValues numThreads t := by
    refine ⟨numThreads - 1, by omega, ?_⟩
    rw [rangeEnd_last hpos]
    exact hi
  -- the first range that ends after the index
  refine ⟨Nat.find hstart, ?_, ?_⟩
  · obtain ⟨ht, hend⟩ := Nat.find_spec hstart
    refine ⟨ht, ?_, hend⟩
    cases hfind : Nat.find hstart with
    | zero =>
      rw [rangeStart_eq, Nat.zero_mul]
      exact Nat.zero_le i
    | succ t =>
      have hbefore := Nat.find_min hstart (m := t) (by omega)
      rw [hfind] at ht
      rw [← rangeEnd_eq_start ht]
      exact Nat.le_of_not_lt fun hlt => hbefore ⟨by omega, hlt⟩
  · rintro t ⟨ht, hle, hlt⟩
    have hfirst := Nat.find_min' hstart ⟨ht, hlt⟩
    rcases Nat.lt_or_eq_of_le hfirst with hless | heq
    · have hend := (Nat.find_spec hstart).2
      have := rangeEnd_le_start numValues hless ht
      omega
    · exact heq.symm

end Ranges

/-! ## On machine integers -/

/-- `THREAD_UTILS_GetRangeFromThreadId` on `int`s: no result where an operation overflows. -/
def getRangeFromThreadIdInt (threadIndex numValues numThreads : Signed 32) :
    Option (Signed 32 × Signed 32) := do
  let valuesPerThread ← numValues.div? numThreads
  let startIndex ← threadIndex.mul? valuesPerThread
  let endIndex ← startIndex.add? valuesPerThread
  let last ← numThreads.sub? ⟨1, by decide⟩
  if threadIndex = last then
    let rest ← numValues.mod? numThreads
    let endIndex ← endIndex.add? rest
    return (startIndex, endIndex)
  else return (startIndex, endIndex)

/-- No operation overflows, and the range is the one on natural numbers. -/
theorem getRangeFromThreadIdInt_eq {threadIndex numValues numThreads : Signed 32} {t n k : Nat}
    (hindex : threadIndex.val = t) (hvalues : numValues.val = n) (hthreads : numThreads.val = k)
    (ht : t < k) :
    ∃ startIndex endIndex,
      getRangeFromThreadIdInt threadIndex numValues numThreads = some (startIndex, endIndex) ∧
      startIndex.val = rangeStart n k t ∧ endIndex.val = rangeEnd n k t := by
  have hend : rangeEnd n k t ≤ n := rangeEnd_le ht
  have hslice : t * (n / k) + n / k ≤ n := Nat.le_trans slice_le_end hend
  -- no intermediate result is above `numValues` or `numThreads`
  have hfits : ∀ {x : Int} (y : Nat), x = y → y ≤ n → Fits 32 x := fun y hx hy =>
    numValues.fits.of_le (by omega) (by omega)
  obtain ⟨valuesPerThread, hdiv, hvalue⟩ :=
    Signed.exists_div? (a := numValues) (b := numThreads) (by omega) (by omega)
  rw [hvalues, hthreads, ← Int.natCast_ediv] at hvalue
  obtain ⟨startIndex, hmul, hstart⟩ :=
    Signed.exists_mul? (a := threadIndex) (b := valuesPerThread)
      (hfits (t * (n / k)) (by rw [hindex, hvalue, Nat.cast_mul])
        (Nat.le_trans (Nat.le_add_right _ _) hslice))
  rw [hindex, hvalue, ← Nat.cast_mul] at hstart
  obtain ⟨endIndex, hadd, hsum⟩ := Signed.exists_add? (a := startIndex) (b := valuesPerThread)
    (hfits (t * (n / k) + n / k) (by rw [hstart, hvalue, Nat.cast_add]) hslice)
  rw [hstart, hvalue, ← Nat.cast_add] at hsum
  obtain ⟨last, hsub, hlast⟩ := Signed.exists_sub? (a := numThreads) (b := ⟨1, by decide⟩)
    (numThreads.fits.of_le (by dsimp only; omega) (by dsimp only; omega))
  have hiff : threadIndex = last ↔ t = k - 1 := by
    rw [Signed.ext_iff, hindex, hlast, hthreads]
    dsimp only
    omega
  unfold getRangeFromThreadIdInt
  simp only [Option.bind_eq_bind, hdiv, hmul, hadd, hsub, Option.bind_some, hiff]
  by_cases hk : t = k - 1
  · have hlastEnd : rangeEnd n k t = t * (n / k) + n / k + n % k := by
      rw [rangeEnd, getRangeFromThreadId, if_pos hk]
    obtain ⟨rest, hmod, hrest⟩ :=
      Signed.exists_mod? (a := numValues) (b := numThreads) (by omega) (by omega)
    rw [hvalues, hthreads, ← Int.natCast_emod] at hrest
    obtain ⟨endIndex', hadd', hsum'⟩ := Signed.exists_add? (a := endIndex) (b := rest)
      (hfits (rangeEnd n k t) (by rw [hsum, hrest, hlastEnd, Nat.cast_add _ (n % k)]) hend)
    rw [if_pos hk, hmod, Option.bind_some, hadd', Option.bind_some]
    refine ⟨startIndex, endIndex', rfl, ?_, ?_⟩
    · rw [hstart, rangeStart_eq]
    · rw [hsum', hsum, hrest, hlastEnd, Nat.cast_add _ (n % k)]
  · rw [if_neg hk]
    refine ⟨startIndex, endIndex, rfl, ?_, ?_⟩
    · rw [hstart, rangeStart_eq]
    · rw [hsum, rangeEnd, getRangeFromThreadId, if_neg hk]

/-- The loop of `Thread_Func` and `thread_task_normal` from index `i` on. -/
def rangeLoop {M : Type} [Add M] (f : Int → M) (endIndex i : Int) (result : M) : M :=
  if i < endIndex then rangeLoop f endIndex (i + 1) (result + f i) else result
termination_by (endIndex - i).toNat

theorem rangeLoop_eq {M : Type} [AddCommMonoid M] (f : Int → M) {i endIndex : Nat}
    (hle : i ≤ endIndex) (result : M) :
    rangeLoop f endIndex i result = result + ∑ j ∈ Finset.Ico i endIndex, f j := by
  induction hk : endIndex - i generalizing i result with
  | zero =>
    obtain rfl : i = endIndex := by omega
    rw [rangeLoop, if_neg (Int.lt_irrefl _), Finset.Ico_self, Finset.sum_empty, add_zero]
  | succ k ih =>
    have hlt : i < endIndex := by omega
    have hrest := ih hlt (result + f i) (by omega)
    rw [rangeLoop, if_pos (Int.ofNat_lt.mpr hlt), Finset.sum_eq_sum_Ico_succ_bot hlt, ← add_assoc]
    exact hrest

theorem exists_ranges {numValues numThreads : Signed 32} {n k : Nat}
    (hvalues : numValues.val = n) (hthreads : numThreads.val = k) :
    ∃ startIndex endIndex : Nat → Signed 32, ∀ t, t < k →
      (∀ a : Signed 32, a.val = t →
        getRangeFromThreadIdInt a numValues numThreads = some (startIndex t, endIndex t)) ∧
      (startIndex t).val = rangeStart n k t ∧ (endIndex t).val = rangeEnd n k t := by
  have hrange : ∀ t : Nat, ∃ s e : Signed 32, t < k →
      (∀ a : Signed 32, a.val = t →
        getRangeFromThreadIdInt a numValues numThreads = some (s, e)) ∧
      s.val = rangeStart n k t ∧ e.val = rangeEnd n k t := by
    intro t
    by_cases ht : t < k
    · have hfits : Fits 32 (t : Int) :=
        numThreads.fits.of_le (Int.natCast_nonneg t) (by omega)
      obtain ⟨s, e, heq, hs, he⟩ :=
        getRangeFromThreadIdInt_eq (show Signed.val ⟨t, hfits⟩ = t from rfl) hvalues hthreads ht
      refine ⟨s, e, fun _ => ⟨fun a ha => ?_, hs, he⟩⟩
      rw [← heq, Signed.ext (y := ⟨t, hfits⟩) ha]
    · exact ⟨numValues, numValues, fun h => absurd h ht⟩
  choose startIndex endIndex hspec using hrange
  exact ⟨startIndex, endIndex, hspec⟩

/--
**Work ranges partition the array.** For all `int`s `numValues >= 0` and `numThreads >= 1`, no
operation of `THREAD_UTILS_GetRangeFromThreadId` overflows for the index of a thread. The first
range starts with the array, each other one where the range before it ends, and the last one ends
with the array, so that every index is in exactly one of them. The sums of the threads over their
ranges are together the sum over the array.
-/
theorem ranges_partition {M : Type} [AddCommMonoid M] (numValues numThreads : Signed 32)
    (hn : 0 ≤ numValues.val) (hpos : 1 ≤ numThreads.val) (f : Int → M) :
    ∃ startIndex endIndex : Nat → Signed 32,
      (∀ t : Signed 32, 0 ≤ t.val → t.val < numThreads.val →
        getRangeFromThreadIdInt t numValues numThreads =
          some (startIndex t.val.toNat, endIndex t.val.toNat)) ∧
      (startIndex 0).val = 0 ∧
      (∀ t : Nat, t + 1 < numThreads.val → endIndex t = startIndex (t + 1)) ∧
      (∀ t : Nat, t + 1 = numThreads.val → endIndex t = numValues) ∧
      (∀ i : Int, 0 ≤ i → i < numValues.val →
        ∃! t : Nat, t < numThreads.val ∧ (startIndex t).val ≤ i ∧ i < (endIndex t).val) ∧
      ∑ t ∈ Finset.range numThreads.val.toNat,
          rangeLoop f (endIndex t).val (startIndex t).val 0 =
        ∑ i ∈ Finset.range numValues.val.toNat, f i := by
  obtain ⟨n, hvalues⟩ := Int.eq_ofNat_of_zero_le hn
  obtain ⟨k, hthreads⟩ := Int.eq_ofNat_of_zero_le (Int.le_trans (by decide) hpos)
  have hk : 0 < k := by omega
  obtain ⟨startIndex, endIndex, hspec⟩ := exists_ranges hvalues hthreads
  refine ⟨startIndex, endIndex, ?_, ?_, ?_, ?_, ?_, ?_⟩
  · intro t ht hlt
    exact (hspec t.val.toNat (by omega)).1 t (by omega)
  · rw [(hspec 0 hk).2.1, rangeStart_eq, Nat.zero_mul]
    rfl
  · intro t ht
    rw [Signed.ext_iff, (hspec t (by omega)).2.2, (hspec (t + 1) (by omega)).2.1,
      rangeEnd_eq_start (by omega)]
  · intro t ht
    obtain rfl : t = k - 1 := by omega
    rw [Signed.ext_iff, (hspec (k - 1) (by omega)).2.2, rangeEnd_last hk, hvalues]
  · intro i hi hlt
    obtain ⟨j, rfl⟩ := Int.eq_ofNat_of_zero_le hi
    have hj : j < n := by omega
    obtain ⟨t, ⟨ht, hle, hend⟩, honly⟩ := existsUnique_range hk hj
    obtain ⟨-, hs, he⟩ := hspec t ht
    refine ⟨t, ⟨by omega, by omega, by omega⟩, ?_⟩
    rintro u ⟨hu, hle', hend'⟩
    obtain ⟨-, hs', he'⟩ := hspec u (by omega)
    exact honly u ⟨by omega, by omega, by omega⟩
  · have hthread : ∀ t ∈ Finset.range k, rangeLoop f (endIndex t).val (startIndex t).val 0 =
        ∑ i ∈ Finset.Ico (rangeStart n k t) (rangeEnd n k t), f i := by
      intro t ht
      obtain ⟨-, hs, he⟩ := hspec t (Finset.mem_range.mp ht)
      rw [hs, he, rangeLoop_eq f rangeStart_le_end, zero_add]
    rw [hthreads, hvalues, Int.toNat_natCast, Int.toNat_natCast, Finset.sum_congr rfl hthread]
    exact sum_range_lengths hk fun i => f i

/-- More threads than values: all of them go to the last thread. -/
theorem ranges_partition_small :
    ∃ startIndex endIndex : Nat → Signed 32,
      getRangeFromThreadIdInt ⟨9, by decide⟩ ⟨7, by decide⟩ ⟨10, by decide⟩ =
        some (startIndex 9, endIndex 9) ∧
      (startIndex 0).val = 0 ∧
      ∑ t ∈ Finset.range 10, rangeLoop id (endIndex t).val (startIndex t).val 0 = (21 : Int) := by
  obtain ⟨startIndex, endIndex, hrange, hzero, -, -, -, hsum⟩ :=
    ranges_partition ⟨7, by decide⟩ ⟨10, by decide⟩ (by decide) (by decide) (id : Int → Int)
  exact ⟨startIndex, endIndex, hrange _ (by decide) (by decide), hzero, hsum⟩

end TsxProject
