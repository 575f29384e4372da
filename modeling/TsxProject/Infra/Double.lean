import Mathlib.Algebra.BigOperators.Group.Finset.Basic
import Mathlib.Data.BitVec
import Mathlib.Tactic.Positivity

/-!
# Whole numbers in double precision

The conversion of an integer to a `double`, by the language's own model of the format. What has at
most 53 bits is converted exactly.

* `toDouble_of_lt` — one integer
* `toDouble_sum` — a sum of machine integers, whatever overflows on the way
-/

namespace Infra

open Float.Model UnpackedFloat

/-- The value of the double that `x` is converted to: the nearest one, and of two that are equally
near the one with an even significand. -/
def toDouble (x : Int) : Int := (UnpackedFloat.ofInt Format.binary64 x).toInt 0 0

namespace Double

variable {m : Nat}

theorem repeat_mantissa (em : ExtendedMantissa) (k : Nat) :
    (k.repeat ExtendedMantissa.shiftRightOne em).mantissa = em.mantissa / 2 ^ k := by
  induction k with
  | zero => exact (Nat.div_one _).symm
  | succ k ih =>
    show (k.repeat ExtendedMantissa.shiftRightOne em).mantissa / 2 = _
    rw [ih, Nat.div_div_eq_div_mul, ← Nat.pow_succ]

theorem log2_le (hpos : 0 < m) (hlt : m < 2 ^ 53) : m.log2 ≤ 52 :=
  Nat.lt_succ_iff.mp ((Nat.log2_lt (by omega)).mpr hlt)

theorem log2_shiftLeft (hpos : 0 < m) (k : Nat) : (m <<< k).log2 = m.log2 + k := by
  induction k with
  | zero => rfl
  | succ k ih =>
    rw [Nat.shiftLeft_succ, Nat.log2_two_mul, ih]
    · rfl
    · rw [Nat.shiftLeft_eq]
      positivity

/-- The exponent that leaves 53 bits for the significand. -/
theorem targetExponent_eq {k : Nat} (hk : k ≤ 52) :
    Format.binary64.targetExponent (k + 1) = (k : Int) - 52 := by
  show max ((k : Int) + 1 - 53) (3 - 2 ^ 10 - 53) = _
  omega

/-- Nothing is rounded off. -/
theorem round_eq (sign : Sign) (hpos : 0 < m) (hlt : m < 2 ^ 53) :
    ∃ h, UnpackedFloat.round Format.binary64 sign m 0 =
      .finite sign (m <<< (52 - m.log2)) (-((52 - m.log2 : Nat) : Int)) h := by
  have hle := log2_le hpos hlt
  have hshift := log2_shiftLeft hpos (52 - m.log2)
  have hpos' : 0 < m <<< (52 - m.log2) := by
    rw [Nat.shiftLeft_eq]
    positivity
  have htarget : Format.binary64.targetExponent (totalExponent m 0) = (m.log2 : Int) - 52 := by
    rw [totalExponent, Int.add_zero]
    exact targetExponent_eq hle
  have htarget' : Format.binary64.targetExponent
      (totalExponent (m <<< (52 - m.log2)) (-((52 - m.log2 : Nat) : Int))) =
      -((52 - m.log2 : Nat) : Int) := by
    have htotal : totalExponent (m <<< (52 - m.log2)) (-((52 - m.log2 : Nat) : Int)) =
        m.log2 + 1 := by
      rw [totalExponent, hshift]
      omega
    rw [htotal, targetExponent_eq hle]
    omega
  have hdecrease : decreaseExponent m 0 ((m.log2 : Int) - 52) =
      (m <<< (52 - m.log2), -((52 - m.log2 : Nat) : Int)) := by
    have hamount : (0 - ((m.log2 : Int) - 52)).toNat = 52 - m.log2 := by omega
    rw [decreaseExponent, hamount, Int.zero_sub]
  have hstay : shiftToTargetExponent Format.binary64 (m <<< (52 - m.log2))
      (-((52 - m.log2 : Nat) : Int)) .exact =
      (⟨m <<< (52 - m.log2), false, false⟩, -((52 - m.log2 : Nat) : Int)) := by
    rw [shiftToTargetExponent, htarget', shiftToExponent, Int.sub_self]
    exact Prod.ext rfl (Int.add_zero _)
  refine ⟨hpos', ?_⟩
  have hagain : shiftToTargetExponent Format.binary64
      (ExtendedMantissa.roundedMantissa ⟨m <<< (52 - m.log2), false, false⟩)
      (-((52 - m.log2 : Nat) : Int)) .exact =
      (⟨m <<< (52 - m.log2), false, false⟩, -((52 - m.log2 : Nat) : Int)) := hstay
  rw [UnpackedFloat.round, htarget, hdecrease]
  unfold roundWithAccuracy
  dsimp only
  rw [hstay]
  dsimp only
  rw [hagain]
  exact dif_neg (Nat.ne_of_gt hpos')

theorem toInt_round (sign : Sign) (hpos : 0 < m) (hlt : m < 2 ^ 53) :
    (UnpackedFloat.round Format.binary64 sign m 0).toInt 0 0 = sign.apply m := by
  obtain ⟨h, heq⟩ := round_eq sign hpos hlt
  have hquot : m <<< (52 - m.log2) / 2 ^ (52 - m.log2) = m := by
    rw [Nat.shiftLeft_eq, Nat.mul_div_cancel _ (Nat.two_pow_pos _)]
  have hamount : (-((52 - m.log2 : Nat) : Int) - 0).toNat = 0 := by omega
  have hamount' : (0 - (-((52 - m.log2 : Nat) : Int) - ((0 : Nat) : Int))).toNat =
      52 - m.log2 := by omega
  rw [heq]
  show roundToInt sign _ _ = _
  simp only [roundToInt, decreaseExponent, hamount, shiftToExponent, hamount', Nat.shiftLeft_zero]
  show sign.apply (((52 - m.log2).repeat ExtendedMantissa.shiftRightOne
    ⟨m <<< (52 - m.log2), false, false⟩).mantissa) = _
  rw [repeat_mantissa, hquot]

end Double

/-- **53 bits are exact.** -/
theorem toDouble_of_lt {x : Int} (h : x.natAbs < 2 ^ 53) : toDouble x = x := by
  unfold toDouble UnpackedFloat.ofInt UnpackedFloat.normalize
  rcases Int.lt_trichotomy x 0 with hneg | hzero | hpos
  · rw [Int.compare_eq_lt.mpr hneg]
    dsimp only
    rw [Double.toInt_round .negative (by omega) (by omega)]
    show -((-x).toNat : Int) = x
    omega
  · subst hzero
    rfl
  · rw [Int.compare_eq_gt.mpr hpos]
    dsimp only
    rw [Double.toInt_round .positive (by omega) (by omega)]
    show (x.toNat : Int) = x
    omega

/-- One bit more is not. -/
example : toDouble (2 ^ 53 + 1) = 2 ^ 53 ∧ toDouble (-(2 ^ 53 + 3)) = -(2 ^ 53 + 4) := by decide

theorem toInt_sum {ι : Type} {w : Nat} (s : Finset ι) (f : ι → BitVec w) :
    (∑ i ∈ s, f i).toInt = (∑ i ∈ s, (f i).toInt).bmod (2 ^ w) := by
  classical
  induction s using Finset.induction_on with
  | empty => simp
  | insert i s hi ih =>
    rw [Finset.sum_insert hi, Finset.sum_insert hi, BitVec.toInt_add, ih, Int.add_bmod_bmod]

theorem toDouble_sum {ι : Type} {s : Finset ι} {f : ι → BitVec 64}
    (h : (∑ i ∈ s, (f i).toInt).natAbs < 2 ^ 53) :
    toDouble (∑ i ∈ s, f i).toInt = ∑ i ∈ s, (f i).toInt := by
  have hsum : (∑ i ∈ s, f i).toInt = ∑ i ∈ s, (f i).toInt := by
    rw [toInt_sum]
    exact Int.bmod_eq_of_le (by omega) (by omega)
  rw [hsum, toDouble_of_lt h]

end Infra
