import TsxProject.Infra.Parallel

/-!
# Mutual exclusion

A mutex is the thread that has locked it, if any. The places of a program tell whether a thread
holds it; if every step locks, unlocks or leaves it alone, the places are right in every run, and
no two threads are at such places at once.
-/

namespace Infra

/-- What a step of thread `t` does to a mutex, and to whether the thread is where it holds it. -/
inductive Locking {ι : Type} (t : ι) : Option ι → Bool → Option ι → Bool → Prop where
  | lock : Locking t none false (some t) true
  | unlock (owner : Option ι) : Locking t owner true none false
  | stay (owner : Option ι) (holds : Bool) : Locking t owner holds owner holds

section Program

variable {ι ω M σ ε : Type} [DecidableEq ι] {P : Parallel ι ω M σ ε} {init : Threads ι M σ}
  {mutex : M → Option ι} {holds : σ → Bool}

variable (mutex holds) in
theorem Parallel.holds_iff {ok : ι × ω → Threads ι M σ → Prop} (h0 : mutex init.shared = none)
    (h0' : ∀ t, holds (init.regs t) = false)
    (hstep : ∀ {t w m s m' s' evs}, P.next t w m s = some (m', s', evs) →
      Locking t (mutex m) (holds s) (mutex m') (holds s'))
    {tr : List ε} {s : Threads ι M σ} (h : (P.system init).RunsWhere ok tr s) (t : ι) :
    holds (s.regs t) = true ↔ mutex s.shared = some t := by
  refine h.rule (I := fun _ s => ∀ t, holds (s.regs t) = true ↔ mutex s.shared = some t) ?_ ?_ t
  · intro t
    show holds (init.regs t) = true ↔ mutex init.shared = some t
    rw [h0, h0']
    simp
  · intro l tr s s' evs _ ih _ hs t
    obtain ⟨m, r, hx, rfl⟩ := step_cases hs
    show holds (Function.update s.regs l.1 r t) = true ↔ mutex m = some t
    have hown := ih l.1
    have hmove := hstep hx
    generalize hb : holds (s.regs l.1) = b at hmove hown
    generalize hb' : holds r = b' at hmove
    generalize ho : mutex s.shared = o at hmove hown
    generalize ho' : mutex m = o' at hmove
    by_cases ht : t = l.1
    · subst ht
      rw [Function.update_self, hb']
      cases hmove with
      | lock | unlock => simp
      | stay => exact hown
    · rw [Function.update_of_ne ht, ih t, ho]
      cases hmove with
      | lock => simp [Ne.symm ht]
      | unlock =>
        rw [hown.mp rfl]
        simp [Ne.symm ht]
      | stay => rfl

end Program

end Infra
