import Mathlib.Algebra.Order.Group.Int
import Mathlib.Tactic.Positivity

/-!
# Signed machine integers

A signed integer type of `w` bits. Its arithmetic is exact, and an operation whose exact result is
not representable has no result. Division truncates.
-/

namespace Infra

/-- `x` is representable in `w` bits. -/
def Fits (w : Nat) (x : Int) : Prop := -2 ^ (w - 1) ≤ x ∧ x < 2 ^ (w - 1)

instance (w : Nat) (x : Int) : Decidable (Fits w x) := inferInstanceAs (Decidable (_ ∧ _))

/-- What lies between zero and a representable integer is representable. -/
theorem Fits.of_le {w : Nat} {x y : Int} (hy : Fits w y) (hx : 0 ≤ x) (hxy : x ≤ y) :
    Fits w x := by
  unfold Fits at *
  have hpos : (0 : Int) ≤ 2 ^ (w - 1) := by positivity
  constructor <;> omega

@[ext]
structure Signed (w : Nat) where
  val : Int
  fits : Fits w val
  deriving DecidableEq

namespace Signed

variable {w : Nat}

def ofInt? (w : Nat) (x : Int) : Option (Signed w) :=
  if h : Fits w x then some ⟨x, h⟩ else none

def add? (a b : Signed w) : Option (Signed w) := ofInt? w (a.val + b.val)

def sub? (a b : Signed w) : Option (Signed w) := ofInt? w (a.val - b.val)

def mul? (a b : Signed w) : Option (Signed w) := ofInt? w (a.val * b.val)

/-- The quotient of the least integer by -1 is not representable. -/
def div? (a b : Signed w) : Option (Signed w) :=
  if b.val = 0 then none else ofInt? w (a.val.tdiv b.val)

/-- There is a remainder only where there is a quotient. -/
def mod? (a b : Signed w) : Option (Signed w) := do
  let _ ← a.div? b
  ofInt? w (a.val.tmod b.val)

variable {a b : Signed w}

theorem exists_ofInt? {x : Int} (h : Fits w x) : ∃ c, ofInt? w x = some c ∧ c.val = x :=
  ⟨⟨x, h⟩, dif_pos h, rfl⟩

theorem exists_add? (h : Fits w (a.val + b.val)) :
    ∃ c, a.add? b = some c ∧ c.val = a.val + b.val :=
  exists_ofInt? h

theorem exists_sub? (h : Fits w (a.val - b.val)) :
    ∃ c, a.sub? b = some c ∧ c.val = a.val - b.val :=
  exists_ofInt? h

theorem exists_mul? (h : Fits w (a.val * b.val)) :
    ∃ c, a.mul? b = some c ∧ c.val = a.val * b.val :=
  exists_ofInt? h

/-- There is a quotient of integers that are not negative. -/
theorem exists_div? (ha : 0 ≤ a.val) (hb : 0 < b.val) :
    ∃ c, a.div? b = some c ∧ c.val = a.val / b.val := by
  unfold div?
  rw [if_neg (Int.ne_of_gt hb), Int.tdiv_eq_ediv_of_nonneg ha]
  exact exists_ofInt?
    (a.fits.of_le (Int.ediv_nonneg ha (Int.le_of_lt hb)) (Int.ediv_le_self _ ha))

theorem exists_mod? (ha : 0 ≤ a.val) (hb : 0 < b.val) :
    ∃ c, a.mod? b = some c ∧ c.val = a.val % b.val := by
  obtain ⟨q, hq, -⟩ := exists_div? ha hb
  have hfits : Fits w (a.val % b.val) :=
    b.fits.of_le (Int.emod_nonneg _ (Int.ne_of_gt hb)) (Int.le_of_lt (Int.emod_lt_of_pos _ hb))
  obtain ⟨c, hc, hval⟩ := exists_ofInt? hfits
  refine ⟨c, ?_, hval⟩
  unfold mod?
  rw [hq, Int.tmod_eq_emod_of_nonneg ha]
  exact hc

end Signed

end Infra
