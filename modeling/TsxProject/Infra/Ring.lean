import Mathlib.Algebra.Ring.Nat
import Mathlib.Algebra.GroupWithZero.NeZero
import Mathlib.Data.Nat.ModEq
import Mathlib.Logic.Function.Basic

/-!
# Ring buffers: entries and slots

A ring of `N` slots stores an unbounded stream of entries, entry `x` in slot `x mod N`. The
positions of a reader and a writer are entry counts, which never wrap; the pointers of an
implementation are the slots of these counts.

* `slot_inj` — entries less than a lap apart have different slots
* `room` — the free slots that two pointers leave, and `add_room_le` what it is worth
* `Holds` — the slots of an interval of entries hold a given stream
* `flat` — a ring kept in sections is a ring
-/

namespace Infra.Ring

variable {N : Nat} [NeZero N]

/-! ## Slots -/

/-- The slot of entry `x`. -/
def slot (x : Nat) : Fin N := Fin.ofNat N x

/-- The slot after `k`, in cyclic order. -/
def next (k : Fin N) : Fin N := Fin.ofNat N (k.val + 1)

@[simp] theorem val_slot (x : Nat) : (slot x : Fin N).val = x % N := rfl

@[simp] theorem next_slot (x : Nat) : next (slot x : Fin N) = slot (x + 1) := by
  apply Fin.ext
  show (x % N + 1) % N = (x + 1) % N
  exact Nat.mod_add_mod x N 1

theorem slot_eq_iff {x y : Nat} : (slot x : Fin N) = slot y ↔ x ≡ y [MOD N] := by
  rw [Fin.ext_iff]
  rfl

@[simp] theorem slot_add_size (x : Nat) : (slot (x + N) : Fin N) = slot x :=
  slot_eq_iff.mpr (by simp [Nat.ModEq])

theorem slot_inj {x y : Nat} (h : (slot x : Fin N) = slot y) (hxy : x ≤ y) (hy : y < x + N) :
    x = y := by
  have hdvd : N ∣ y - x := (Nat.modEq_iff_dvd' hxy).mp (slot_eq_iff.mp h)
  have hzero : y - x = 0 := Nat.eq_zero_of_dvd_of_lt hdvd (by omega)
  omega

theorem slot_ne {x y : Nat} (hxy : x < y) (hy : y < x + N) : (slot x : Fin N) ≠ slot y := by
  intro h
  have := slot_inj h (by omega) hy
  omega

/-- Entries of one slot are whole laps apart. -/
theorem add_size_le {x y : Nat} (h : (slot x : Fin N) = slot y) (hxy : x < y) : x + N ≤ y := by
  by_contra hlt
  exact slot_ne hxy (by omega) h

/-- Every slot has an entry in every lap. -/
theorem exists_slot (k : Fin N) (lo : Nat) : ∃ x, lo ≤ x ∧ x < lo + N ∧ slot x = k := by
  have hN : 0 < N := Nat.pos_of_neZero N
  have hmod : lo % N < N := Nat.mod_lt _ hN
  refine ⟨lo + (k.val + (N - lo % N)) % N, by omega, ?_, ?_⟩
  · have := Nat.mod_lt (k.val + (N - lo % N)) hN
    omega
  · apply Fin.ext
    rw [val_slot, Nat.add_mod_mod]
    have hdiv := Nat.div_add_mod lo N
    have hsum : lo + (k.val + (N - lo % N)) = k.val + N * (lo / N + 1) := by
      rw [Nat.mul_add, Nat.mul_one]
      omega
    rw [hsum, Nat.add_mul_mod_self_left, Nat.mod_eq_of_lt k.isLt]

/-! ## Free slots between two pointers -/

/--
The slots from `enq` up to `deq` in cyclic order, computed as by a program that holds both
pointers. A full and an empty ring have equal pointers; the answer is then `N`.
-/
def room (enq deq : Fin N) : Nat :=
  if deq.val ≤ enq.val then (N - enq.val) + deq.val else deq.val - enq.val

omit [NeZero N] in
theorem room_pos (enq deq : Fin N) : 1 ≤ room enq deq := by
  unfold room
  split <;> omega

omit [NeZero N] in
theorem room_le (enq deq : Fin N) : room enq deq ≤ N := by
  unfold room
  split <;> omega

omit [NeZero N] in
@[simp] theorem room_self (k : Fin N) : room k k = N := by
  have hlt := k.isLt
  rw [room, if_pos (Nat.le_refl _), Nat.sub_add_cancel (Nat.le_of_lt hlt)]

/-- Filling the free slots brings the writer to the reader's slot. -/
theorem slot_add_room (e d : Nat) :
    (slot (e + room (slot e : Fin N) (slot d)) : Fin N) = slot d := by
  apply Fin.ext
  have hN : 0 < N := Nat.pos_of_neZero N
  have he := Nat.mod_lt e hN
  have hdiv := Nat.div_add_mod e N
  by_cases hle : (slot d : Fin N).val ≤ (slot e : Fin N).val
  · rw [room, if_pos hle]
    simp only [val_slot]
    have hsum : e + (N - e % N + d % N) = d % N + N * (e / N + 1) := by
      rw [Nat.mul_add, Nat.mul_one]
      omega
    rw [hsum, Nat.add_mul_mod_self_left, Nat.mod_mod]
  · rw [room, if_neg hle]
    simp only [val_slot] at hle ⊢
    have hsum : e + (d % N - e % N) = d % N + N * (e / N) := by omega
    rw [hsum, Nat.add_mul_mod_self_left, Nat.mod_mod]

/-- A reader that is not in the next slot leaves room for two. -/
theorem two_le_room {e : Nat} {deq : Fin N} (h : deq ≠ slot (e + 1)) :
    2 ≤ room (slot e : Fin N) deq := by
  obtain ⟨d, -, -, rfl⟩ := exists_slot deq 0
  have hpos := room_pos (slot e : Fin N) (slot d)
  by_contra hlt
  have hone : room (slot e : Fin N) (slot d) = 1 := by omega
  have hslot := slot_add_room (N := N) e d
  rw [hone] at hslot
  exact h hslot.symm

/--
As long as the ring is not full, a writer that fills the room it computed stays within one lap
of the reader. The reader may have moved on since, or may even be ahead of the writer.
-/
theorem add_room_le {e d : Nat} (h : e < d + N) :
    e + room (slot e : Fin N) (slot d) ≤ d + N := by
  by_contra hlt
  have hle := room_le (slot e : Fin N) (slot d)
  have hsl : (slot d : Fin N) = slot (e + room (slot e : Fin N) (slot d)) :=
    (slot_add_room e d).symm
  have h2 : (slot (d + N) : Fin N) = slot (e + room (slot e : Fin N) (slot d)) := by
    rw [slot_add_size]
    exact hsl
  have := add_size_le h2 (by omega)
  omega

/-! ## Stored intervals -/

section Holds

variable {α : Type} {c : Fin N → α} {p : Nat → α} {lo hi : Nat}

/-- The slots of the entries `lo, …, hi - 1` hold the stream `p`. -/
def Holds (c : Fin N → α) (p : Nat → α) (lo hi : Nat) : Prop :=
  ∀ x, lo ≤ x → x < hi → c (slot x) = p x

theorem Holds.mono {lo' hi' : Nat} (h : Holds c p lo hi) (h1 : lo ≤ lo') (h2 : hi' ≤ hi) :
    Holds c p lo' hi' :=
  fun x hx hx' => h x (by omega) (by omega)

theorem Holds.empty (h : hi ≤ lo) : Holds c p lo hi :=
  fun x hx hx' => absurd hx (by omega)

/-- Storing in a slot outside the interval changes nothing in it. -/
theorem Holds.frame {y : Nat} {v : α} (h : Holds c p lo hi)
    (hy : ∀ x, lo ≤ x → x < hi → (slot x : Fin N) ≠ slot y) :
    Holds (Function.update c (slot y) v) p lo hi := by
  intro x hx hx'
  rw [Function.update_of_ne (hy x hx hx')]
  exact h x hx hx'

/-- Storing the entry before the interval, at most a lap before its end. -/
theorem Holds.frame_before {y : Nat} {v : α} (h : Holds c p lo hi) (h1 : y < lo)
    (h2 : hi ≤ y + N) : Holds (Function.update c (slot y) v) p lo hi :=
  h.frame fun x hx hx' heq => slot_ne (show y < x by omega) (by omega) heq.symm

/-- Storing an entry after the interval, at most a lap after its start. -/
theorem Holds.frame_after {y : Nat} {v : α} (h : Holds c p lo hi) (h1 : hi ≤ y)
    (h2 : y < lo + N) : Holds (Function.update c (slot y) v) p lo hi :=
  h.frame fun x hx hx' => slot_ne (show x < y by omega) (by omega)

/-- The interval grows by the entry stored at its end. -/
theorem Holds.push (h : Holds c p lo hi) (hlap : hi < lo + N) :
    Holds (Function.update c (slot hi) (p hi)) p lo (hi + 1) := by
  intro x hx hx'
  by_cases he : x = hi
  · subst he
    exact Function.update_self ..
  · exact h.frame_after (Nat.le_refl _) hlap x hx (by omega)

end Holds

/-! ## Rings in sections -/

section Sections

variable {K S : Nat} [NeZero K] [NeZero S] {α : Type}

/-- Entry `x` is kept in section `x / S`, at offset `x mod S`. -/
theorem flat_slot_iff {x y : Nat} :
    (slot x : Fin (S * K)) = slot y ↔
      (slot (x / S) : Fin K) = slot (y / S) ∧ (slot x : Fin S) = slot y := by
  simp only [slot_eq_iff, Nat.ModEq, Nat.mod_mul]
  constructor
  · intro h
    have hx := Nat.mod_lt x (Nat.pos_of_neZero S)
    have hy := Nat.mod_lt y (Nat.pos_of_neZero S)
    have hmod := congrArg (· % S) h
    have hdiv := congrArg (· / S) h
    simp only [Nat.add_mul_mod_self_left, Nat.mod_mod,
      Nat.add_mul_div_left _ _ (Nat.pos_of_neZero S), Nat.div_eq_of_lt hx, Nat.div_eq_of_lt hy,
      Nat.zero_add] at hmod hdiv
    exact ⟨hdiv, hmod⟩
  · rintro ⟨hdiv, hmod⟩
    rw [hdiv, hmod]

/-- The sections one after the other. -/
def flat (c : Fin K → Fin S → α) (k : Fin (S * K)) : α := c (slot (k.val / S)) (slot k.val)

theorem flat_slot (c : Fin K → Fin S → α) (x : Nat) :
    flat c (slot x) = c (slot (x / S)) (slot x) := by
  have h : (slot (slot x : Fin (S * K)).val : Fin (S * K)) = slot x :=
    slot_eq_iff.mpr (Nat.mod_modEq x (S * K))
  obtain ⟨hs, hk⟩ := flat_slot_iff.mp h
  rw [flat, hs, hk]

/-- Storing entry `x` in its section. -/
theorem flat_update (c : Fin K → Fin S → α) (x : Nat) (v : α) :
    flat (Function.update c (slot (x / S)) (Function.update (c (slot (x / S))) (slot x) v)) =
      Function.update (flat c) (slot x) v := by
  funext k
  obtain ⟨y, -, -, rfl⟩ := exists_slot k 0
  rw [flat_slot]
  by_cases h : (slot y : Fin (S * K)) = slot x
  · obtain ⟨hs, hk⟩ := flat_slot_iff.mp h
    rw [h, hs, hk, Function.update_self, Function.update_self, Function.update_self]
  · rw [Function.update_of_ne h, flat_slot]
    by_cases hs : (slot (y / S) : Fin K) = slot (x / S)
    · have hk : (slot y : Fin S) ≠ slot x := fun hk => h (flat_slot_iff.mpr ⟨hs, hk⟩)
      rw [hs, Function.update_self, Function.update_of_ne hk]
    · rw [Function.update_of_ne hs]

end Sections

end Infra.Ring
