import TsxProject.Infra.Parallel

/-!
# Barriers

A barrier as POSIX has it: the calls of `wait` block until as many threads as it was initialised
for have called it; then all of them go on and the barrier starts anew. The rounds are counted, so
that a thread that was slow to go on does not take part in the next round.

For two threads there is more to say. `Paired` relates the barrier to the calls that each of them
has made.

* `Paired.arrive`, `Paired.leave` — what a call and its return do
* `Parallel.paired` — the relation holds in every run of a program that moves as `Move` says
* `Paired.calls_le` — a thread that is not in a call has been waited for in all of its calls
-/

namespace Infra

structure Barrier where
  /-- the calls of this round -/
  arrived : Nat
  /-- the rounds that are over -/
  phase : Nat

namespace Barrier

def init : Barrier := ⟨0, 0⟩

/-- A thread calls `wait`. It goes on when `phase` is no longer the one it found. -/
def arrive (count : Nat) (b : Barrier) : Barrier :=
  if b.arrived + 1 = count then ⟨0, b.phase + 1⟩ else ⟨b.arrived + 1, b.phase⟩

theorem arrive_first {b : Barrier} (h : b.arrived = 0) : b.arrive 2 = ⟨1, b.phase⟩ := by
  simp [arrive, h]

end Barrier

/-! ## Two threads -/

/-- What a thread has to do with a barrier: how often it has called it, and the phase that it waits
to be over if it is in a call. -/
structure Party where
  calls : Nat
  waiting : Option Nat

/-- All calls have returned but the one that the thread is in. -/
def Party.Fits (p : Party) (b : Barrier) : Prop :=
  match p.waiting with
  | none => p.calls = b.phase
  | some phase => p.calls = phase + 1 ∧ b.phase ≤ phase + 1

/-- A barrier for two threads, `p` and `q`. -/
structure Paired (b : Barrier) (p q : Party) : Prop where
  sum : b.arrived + 2 * b.phase = p.calls + q.calls
  arrived_le : b.arrived ≤ 1
  phase_le_left : b.phase ≤ p.calls
  phase_le_right : b.phase ≤ q.calls
  left : p.Fits b
  right : q.Fits b

namespace Paired

variable {b : Barrier} {p q : Party} {calls phase : Nat}

theorem init : Paired .init ⟨0, none⟩ ⟨0, none⟩ :=
  ⟨rfl, Nat.zero_le 1, Nat.le_refl 0, Nat.le_refl 0, rfl, rfl⟩

theorem symm (h : Paired b p q) : Paired b q p :=
  ⟨by rw [h.sum, Nat.add_comm], h.arrived_le, h.phase_le_right, h.phase_le_left, h.right, h.left⟩

theorem fits_arrive (h : q.Fits b)
    (hsum : b.arrived + 2 * b.phase = b.phase + q.calls) : q.Fits (b.arrive 2) := by
  unfold Party.Fits at h ⊢
  cases hq : q.waiting with
  | none =>
    rw [hq] at h
    have hround : b.arrived + 1 ≠ 2 := by
      dsimp only at h
      omega
    simp only [Barrier.arrive, if_neg hround]
    exact h
  | some phase =>
    rw [hq] at h
    obtain ⟨hcalls, hphase⟩ := h
    refine ⟨hcalls, ?_⟩
    unfold Barrier.arrive
    split
    · show b.phase + 1 ≤ phase + 1
      omega
    · exact hphase

/-- A call. -/
theorem arrive (h : Paired b ⟨calls, none⟩ q) :
    Paired (b.arrive 2) ⟨calls + 1, some b.phase⟩ q := by
  have hcalls : calls = b.phase := h.left
  have hsum : b.arrived + 2 * b.phase = calls + q.calls := h.sum
  have hle := h.phase_le_right
  have harr := h.arrived_le
  have hright := fits_arrive h.right (by omega)
  unfold Barrier.arrive at hright ⊢
  split
  · next hround =>
    rw [if_pos hround] at hright
    refine ⟨?_, Nat.zero_le 1, ?_, ?_, ⟨by rw [hcalls], Nat.le_refl _⟩, hright⟩
    · show 0 + 2 * (b.phase + 1) = calls + 1 + q.calls
      omega
    · show b.phase + 1 ≤ calls + 1
      omega
    · show b.phase + 1 ≤ q.calls
      omega
  · next hround =>
    rw [if_neg hround] at hright
    refine ⟨?_, ?_, ?_, hle, ⟨by rw [hcalls], Nat.le_succ _⟩, hright⟩
    · show b.arrived + 1 + 2 * b.phase = calls + 1 + q.calls
      omega
    · show b.arrived + 1 ≤ 1
      omega
    · show b.phase ≤ calls + 1
      omega

/-- The return of a call. -/
theorem leave (h : Paired b ⟨calls, some phase⟩ q) (hphase : b.phase ≠ phase) :
    Paired b ⟨calls, none⟩ q := by
  obtain ⟨hcalls, hle⟩ : calls = phase + 1 ∧ b.phase ≤ phase + 1 := h.left
  have hge : b.phase ≤ calls := h.phase_le_left
  have hsum : b.arrived + 2 * b.phase = calls + q.calls := h.sum
  have harr := h.arrived_le
  have hright := h.phase_le_right
  have hnone : calls = b.phase := by omega
  exact ⟨h.sum, h.arrived_le, h.phase_le_left, h.phase_le_right, hnone, h.right⟩

/-- Who is not in a call has been waited for in all of its calls. -/
theorem calls_le (h : Paired b p q) (hp : p.waiting = none) : p.calls ≤ q.calls := by
  have hfits := h.left
  unfold Party.Fits at hfits
  rw [hp] at hfits
  have hle := h.phase_le_right
  dsimp only at hfits
  omega

/-- No thread is two calls ahead. -/
theorem calls_le_succ (h : Paired b p q) : p.calls ≤ q.calls + 1 := by
  have hsum := h.sum
  have harr := h.arrived_le
  have hle := h.phase_le_right
  omega

/-- Who is kept in a call has called once more than the other one. -/
theorem calls_of_blocked (h : Paired b p q) (hp : p.waiting = some b.phase) :
    p.calls = q.calls + 1 := by
  have hfits := h.left
  unfold Party.Fits at hfits
  rw [hp] at hfits
  obtain ⟨hcalls, -⟩ := hfits
  have hsum := h.sum
  have harr := h.arrived_le
  have hle := h.phase_le_right
  omega

end Paired

/-! ## In a program -/

/-- What a step of a thread does to a barrier and to its part in it. -/
inductive Move (b : Barrier) : Party → Barrier → Party → Prop where
  | arrive (calls : Nat) : Move b ⟨calls, none⟩ (b.arrive 2) ⟨calls + 1, some b.phase⟩
  | leave (calls phase : Nat) : b.phase ≠ phase → Move b ⟨calls, some phase⟩ b ⟨calls, none⟩
  | stay (p : Party) : Move b p b p

theorem Paired.move {b b' : Barrier} {p p' q : Party} (h : Paired b p q) (hm : Move b p b' p') :
    Paired b' p' q := by
  cases hm with
  | arrive calls => exact h.arrive
  | leave calls phase hphase => exact h.leave hphase
  | stay => exact h

section Program

variable {ι ω M σ ε : Type} [DecidableEq ι] {P : Parallel ι ω M σ ε} {init : Threads ι M σ}
  {bar : M → Barrier} {party : ι → List ε → σ → Party} {a b : ι}

variable (bar party) in
/-- Threads `a` and `b` move as they should at their barrier, and no other thread does. -/
theorem Parallel.paired {ok : ι × ω → Threads ι M σ → Prop} (hab : a ≠ b)
    (h0 : Paired (bar init.shared) (party a [] (init.regs a)) (party b [] (init.regs b)))
    (hown : ∀ {t w tr s m r evs}, (P.system init).RunsWhere ok tr s → t = a ∨ t = b →
      P.next t w s.shared (s.regs t) = some (m, r, evs) →
      Move (bar s.shared) (party t tr (s.regs t)) (bar m) (party t (tr ++ evs) r))
    (hother : ∀ {t u w tr m s m' s' evs r}, u ≠ t → P.next t w m s = some (m', s', evs) →
      party u (tr ++ evs) r = party u tr r)
    (hfar : ∀ {t w m s m' s' evs}, t ≠ a → t ≠ b → P.next t w m s = some (m', s', evs) →
      bar m' = bar m)
    {tr : List ε} {s : Threads ι M σ} (h : (P.system init).RunsWhere ok tr s) :
    Paired (bar s.shared) (party a tr (s.regs a)) (party b tr (s.regs b)) := by
  refine h.rule (I := fun tr s =>
    Paired (bar s.shared) (party a tr (s.regs a)) (party b tr (s.regs b))) h0 ?_
  intro l tr s s' evs hr ih _ hs
  obtain ⟨m, r, hx, rfl⟩ := Parallel.step_cases hs
  show Paired (bar m) (party a _ (Function.update s.regs l.1 r a))
    (party b _ (Function.update s.regs l.1 r b))
  by_cases ha : l.1 = a
  · subst ha
    rw [Function.update_self, Function.update_of_ne hab.symm, hother hab.symm hx]
    exact ih.move (hown hr (.inl rfl) hx)
  · rw [Function.update_of_ne (Ne.symm ha), hother (Ne.symm ha) hx]
    by_cases hb : l.1 = b
    · subst hb
      rw [Function.update_self]
      exact (ih.symm.move (hown hr (.inr rfl) hx)).symm
    · rw [Function.update_of_ne (Ne.symm hb), hother (Ne.symm hb) hx, hfar ha hb hx]
      exact ih

end Program

end Infra
