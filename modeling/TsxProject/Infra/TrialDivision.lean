import Mathlib.Data.Nat.Prime.Basic

/-!
# Trial division below the square root

A search for a divisor of `v` that tries 2, 3, … and stops strictly below the square root of `v`.
It succeeds for a composite number, and fails for the square of a prime.

* `exists_divisor_iff` — what the search finds
-/

namespace Infra

def PrimeSquare (v : Nat) : Prop := ∃ p, p.Prime ∧ v = p * p

/-- Composite, and not the square of a prime. -/
def ProperlyComposite (v : Nat) : Prop := 2 ≤ v ∧ ¬ v.Prime ∧ ¬ PrimeSquare v

/-- The search has found nothing below `k`. -/
def NoDivisorBelow (k v : Nat) : Prop := ∀ j, 2 ≤ j → j < k → ¬ j ∣ v

theorem NoDivisorBelow.two (v : Nat) : NoDivisorBelow 2 v := by
  intro j hj hlt
  omega

theorem NoDivisorBelow.succ {k v : Nat} (h : NoDivisorBelow k v) (hk : ¬ k ∣ v) :
    NoDivisorBelow (k + 1) v := by
  intro j hj hlt
  rcases Nat.lt_or_eq_of_le (Nat.le_of_lt_succ hlt) with hless | rfl
  · exact h j hj hless
  · exact hk

/-- A divisor below the square root is a proper one, and its cofactor is another. -/
theorem properlyComposite_of_dvd {j v : Nat} (hj : 2 ≤ j) (hlt : j * j < v) (hdvd : j ∣ v) :
    ProperlyComposite v := by
  have hle : j ≤ j * j := Nat.le_mul_self j
  refine ⟨by omega, ?_, ?_⟩
  · intro hprime
    rcases hprime.eq_one_or_self_of_dvd j hdvd with rfl | rfl <;> omega
  · rintro ⟨p, hp, rfl⟩
    have hdvd' : j ∣ p ^ 2 := by rwa [pow_two]
    obtain ⟨e, he, rfl⟩ := (Nat.dvd_prime_pow hp).mp hdvd'
    -- the divisors are 1, `p` and the square itself
    match e with
    | 0 =>
      rw [pow_zero] at hj
      omega
    | 1 => simp at hlt
    | 2 =>
      rw [pow_two] at hlt hle
      omega

/-- The least factor of a composite number is below the square root, if it is not the root. -/
theorem exists_divisor {v : Nat} (h : ProperlyComposite v) : ∃ j, 2 ≤ j ∧ j * j < v ∧ j ∣ v := by
  obtain ⟨htwo, hprime, hsquare⟩ := h
  have hmin : v.minFac.Prime := Nat.minFac_prime (by omega)
  have hle : v.minFac * v.minFac ≤ v := by
    rw [← pow_two]
    exact Nat.minFac_sq_le_self (by omega) hprime
  have hne : v.minFac * v.minFac ≠ v := fun heq => hsquare ⟨_, hmin, heq.symm⟩
  exact ⟨v.minFac, hmin.two_le, Nat.lt_of_le_of_ne hle hne, v.minFac_dvd⟩

theorem exists_divisor_iff {v : Nat} :
    (∃ j, 2 ≤ j ∧ j * j < v ∧ j ∣ v) ↔ ProperlyComposite v := by
  constructor
  · rintro ⟨j, hj, hlt, hdvd⟩
    exact properlyComposite_of_dvd hj hlt hdvd
  · exact exists_divisor

instance : DecidablePred ProperlyComposite := fun v =>
  decidable_of_iff (∃ j, j < v ∧ 2 ≤ j ∧ j * j < v ∧ j ∣ v) <| by
    rw [← exists_divisor_iff]
    constructor
    · rintro ⟨j, -, h⟩
      exact ⟨j, h⟩
    · rintro ⟨j, h⟩
      exact ⟨j, Nat.lt_of_le_of_lt (Nat.le_mul_self j) h.2.1, h⟩

/-- A search that has come to the square root without success. -/
theorem NoDivisorBelow.not_properlyComposite {k v : Nat} (h : NoDivisorBelow k v) (hk : v ≤ k * k) :
    ¬ ProperlyComposite v := by
  intro hcomposite
  obtain ⟨j, hj, hlt, hdvd⟩ := exists_divisor hcomposite
  have hjk : j < k := Nat.mul_self_lt_mul_self_iff.mp (Nat.lt_of_lt_of_le hlt hk)
  exact h j hj hjk hdvd

end Infra
