import TsxProject.Infra.Ring

/-!
# Rings with an in-band empty mark

A ring in which a slot is free when it holds a distinguished value `empty`. A writer stores the
stream `p` in entry order, a reader takes the entries in order and puts `empty` back. `lo` counts
the entries the reader has cleared, `hi` the entries the writer has stored.

* `Queued` — the state of a ring whose writer keeps off occupied slots
* `Accounted` — what survives of it when the writer may overwrite, and may even store `empty`
  itself: a reader that has taken as many entries as were written has taken the right ones
-/

namespace Infra.SentinelRing

open Infra.Ring

variable {N : Nat} [NeZero N] {α : Type} {c : Fin N → α} {p q : Nat → α} {empty : α}
  {lo hi : Nat}

/-- The slots of `lo, …, hi - 1` hold `p`, the others are free. -/
structure Queued (c : Fin N → α) (p : Nat → α) (empty : α) (lo hi : Nat) : Prop where
  stored : Holds c p lo hi
  free : Holds c (fun _ => empty) hi (lo + N)
  occupied : ∀ x, lo ≤ x → x < hi → p x ≠ empty
  le : lo ≤ hi
  lap : hi ≤ lo + N

namespace Queued

theorem init (p : Nat → α) (empty : α) : Queued (fun _ : Fin N => empty) p empty 0 0 where
  stored := Holds.empty (Nat.le_refl 0)
  free := fun _ _ _ => rfl
  occupied := fun x _ hx => absurd hx (by omega)
  le := Nat.le_refl 0
  lap := by omega

/-- The writer stores an entry within a lap of the reader. -/
theorem write (h : Queued c p empty lo hi) (hroom : hi < lo + N) (hp : p hi ≠ empty) :
    Queued (Function.update c (slot hi) (p hi)) p empty lo (hi + 1) where
  stored := h.stored.push hroom
  free := (h.free.mono (Nat.le_succ hi) (Nat.le_refl _)).frame_before (by omega)
    (by have := h.le; omega)
  occupied := by
    intro x hx hx'
    by_cases he : x = hi
    · rwa [he]
    · exact h.occupied x hx (by omega)
  le := by have := h.le; omega
  lap := hroom

/-- The reader clears the oldest entry. -/
theorem clear (h : Queued c p empty lo hi) (hlt : lo < hi) :
    Queued (Function.update c (slot lo) empty) p empty (lo + 1) hi where
  stored := (h.stored.mono (Nat.le_succ lo) (Nat.le_refl _)).frame_before (by omega) h.lap
  free := by
    intro x hx hx'
    by_cases he : (slot x : Fin N) = slot lo
    · rw [he]
      exact Function.update_self ..
    · rw [Function.update_of_ne he]
      refine h.free x hx ?_
      by_contra hge
      have hxe : x = lo + N := by omega
      exact he (by rw [hxe, slot_add_size])
  occupied := fun x hx hx' => h.occupied x (by omega) hx'
  le := hlt
  lap := by have := h.lap; omega

/-- The reader's slot is free exactly when nothing is stored. -/
theorem empty_iff (h : Queued c p empty lo hi) : c (slot lo) = empty ↔ lo = hi := by
  constructor
  · intro he
    by_contra hne
    have hlt : lo < hi := by have := h.le; omega
    exact h.occupied lo (Nat.le_refl _) hlt ((h.stored lo (Nat.le_refl _) hlt).symm.trans he)
  · intro heq
    have hN : 0 < N := Nat.pos_of_neZero N
    exact h.free lo (by omega) (by omega)

/-- What the reader finds in an occupied slot. -/
theorem read (h : Queued c p empty lo hi) (hne : c (slot lo) ≠ empty) :
    lo < hi ∧ c (slot lo) = p lo := by
  have hlt : lo < hi := by
    have := h.le
    by_contra hge
    exact hne (h.empty_iff.mpr (by omega))
  exact ⟨hlt, h.stored lo (Nat.le_refl _) hlt⟩

/-- The writer's slot is free: one more entry fits. -/
theorem room_of_free (h : Queued c p empty lo hi) (he : c (slot hi) = empty) : hi < lo + N := by
  refine Nat.lt_of_le_of_ne h.lap ?_
  rintro rfl
  have hN : 0 < N := Nat.pos_of_neZero N
  refine h.occupied lo (Nat.le_refl _) (by omega) ?_
  rw [← h.stored lo (Nat.le_refl _) (by omega), ← slot_add_size lo, he]

/-- A free slot after the writer's own: two more entries fit. -/
theorem room_of_empty (h : Queued c p empty lo hi) (hN : 2 ≤ N)
    (he : c (slot (hi + 1)) = empty) : hi + 1 < lo + N := by
  by_contra hge
  have hx : (slot (hi + 1 - N) : Fin N) = slot (hi + 1) := by
    rw [← slot_add_size (hi + 1 - N), Nat.sub_add_cancel (by omega)]
  refine h.occupied (hi + 1 - N) (by omega) (by omega) ?_
  rw [← h.stored (hi + 1 - N) (by omega) (by omega), hx, he]

/-- An occupied slot after the writer's own: at most one more entry fits. -/
theorem full_of_ne (h : Queued c p empty lo hi) (hne : c (slot (hi + 1)) ≠ empty) :
    lo + N ≤ hi + 1 := by
  by_contra hlt
  exact hne (h.free (hi + 1) (by omega) (by omega))

end Queued

/-! ## Writers without flow control -/

/-- Some entry the reader has yet to take is gone: overwritten, or not to be told from `empty`. -/
def Lost (c : Fin N → α) (empty : α) (lo hi : Nat) : Prop :=
  ∃ x, lo ≤ x ∧ x < lo + N ∧ (x + N < hi ∨ x < hi ∧ c (slot x) = empty)

/-- Either the ring is in order and the reader's stream `q` has agreed with `p` so far, or an
entry is lost. -/
def Accounted (c : Fin N → α) (p q : Nat → α) (empty : α) (lo hi : Nat) : Prop :=
  (Queued c p empty lo hi ∧ ∀ x, x < lo → p x = q x) ∨ Lost c empty lo hi

namespace Accounted

theorem init (p q : Nat → α) (empty : α) :
    Accounted (fun _ : Fin N => empty) p q empty 0 0 :=
  Or.inl ⟨Queued.init p empty, fun x hx => absurd hx (by omega)⟩

/-- The writer stores its next entry, wherever the reader is. The store may also come to nothing
(`v = empty`), when the reader is about to clear the same slot. -/
theorem write (h : Accounted c p q empty lo hi) {v : α} (hv : v = p hi ∨ v = empty) :
    Accounted (Function.update c (slot hi) v) p q empty lo (hi + 1) := by
  rcases h with ⟨hq, hpq⟩ | ⟨x, hx, hx', hlost⟩
  · have hle := hq.le
    have hlap := hq.lap
    have hN : 0 < N := Nat.pos_of_neZero N
    by_cases hroom : hi < lo + N
    · by_cases hve : v = empty
      · exact Or.inr ⟨hi, hle, hroom, Or.inr ⟨Nat.lt_succ_self hi, by
          rw [hve]; exact Function.update_self ..⟩⟩
      · have hvp : v = p hi := hv.resolve_right hve
        subst hvp
        exact Or.inl ⟨hq.write hroom hve, hpq⟩
    · -- the ring is full, and the oldest entry is overwritten
      exact Or.inr ⟨lo, Nat.le_refl _, by omega, Or.inl (by omega)⟩
  · refine Or.inr ⟨x, hx, hx', ?_⟩
    rcases hlost with hov | ⟨hlt, he⟩
    · exact Or.inl (by omega)
    · by_cases hs : (slot x : Fin N) = slot hi
      · exact Or.inl (by have := add_size_le hs hlt; omega)
      · exact Or.inr ⟨by omega, by rw [Function.update_of_ne hs]; exact he⟩

/-- The reader takes its next entry from an occupied slot. -/
theorem take (h : Accounted c p q empty lo hi) (hc : c (slot lo) = q lo) (hne : q lo ≠ empty) :
    Accounted (Function.update c (slot lo) empty) p q empty (lo + 1) hi := by
  have hN : 0 < N := Nat.pos_of_neZero N
  rcases h with ⟨hq, hpq⟩ | ⟨x, hx, hx', hlost⟩
  · obtain ⟨hlt, hread⟩ := hq.read (by rw [hc]; exact hne)
    refine Or.inl ⟨hq.clear hlt, fun x hx => ?_⟩
    by_cases he : x = lo
    · rw [he, ← hread, hc]
    · exact hpq x (by omega)
  · by_cases he : x = lo
    · subst he
      rcases hlost with hov | ⟨-, hemp⟩
      · -- the reader took a later entry for `x`, and clears that one
        refine Or.inr ⟨x + N, by omega, by omega, Or.inr ⟨hov, ?_⟩⟩
        rw [slot_add_size]
        exact Function.update_self ..
      · exact absurd (hc.symm.trans hemp) hne
    · have hs : (slot x : Fin N) ≠ slot lo := (slot_ne (by omega) hx').symm
      refine Or.inr ⟨x, by omega, by omega, ?_⟩
      rw [Function.update_of_ne hs]
      exact hlost

/-- **A reader that has caught up with the writer has taken every entry as it was written.** -/
theorem complete (h : Accounted c p q empty lo hi) (hle : hi ≤ lo) :
    ∀ x, x < lo → p x = q x := by
  rcases h with ⟨-, hpq⟩ | ⟨x, hx, -, hlost⟩
  · exact hpq
  · rcases hlost with hov | ⟨hlt, -⟩ <;> omega

end Accounted

end Infra.SentinelRing
