import Mathlib.Algebra.BigOperators.Group.Finset.Piecewise
import Mathlib.Algebra.Order.BigOperators.Group.Finset
import Mathlib.Logic.Function.Basic
import TsxProject.Infra.Transition

/-!
# Any number of threads over a shared memory

The threads run one program on registers of their own. A step may depend on a choice of the
environment, such as the outcome of a hardware transaction or a random number; the choice is part
of the step's label, so that a restriction on it is a restriction of the run.

* `Parallel.rule` — the induction rule for a property that each thread has on its own
* `Parallel.sum_eq` — a quantity that the threads contribute to
* `Parallel.exists_done` — a run can be continued until all threads are done
* `Parallel.Alone.runs`, `runs_list` — threads that move alone take a run along
* `countP_eq_sum` — the events of a run are the events of its threads
-/

namespace Infra

/-- The shared memory and the registers of the threads. -/
structure Threads (ι M σ : Type) where
  shared : M
  regs : ι → σ

/-- The next step of a thread `ι` under a choice `ω`. -/
structure Parallel (ι ω M σ ε : Type) where
  next : ι → ω → M → σ → Option (M × σ × List ε)

namespace Parallel

variable {ι ω M σ ε : Type} [DecidableEq ι] (P : Parallel ι ω M σ ε)

def step (l : ι × ω) (s : Threads ι M σ) : Option (Threads ι M σ × List ε) :=
  (P.next l.1 l.2 s.shared (s.regs l.1)).map fun r =>
    (⟨r.1, Function.update s.regs l.1 r.2.1⟩, r.2.2)

def system (init : Threads ι M σ) : System (ι × ω) (Threads ι M σ) ε where
  init := init
  step := P.step

variable {P} {init : Threads ι M σ}

theorem step_cases {l : ι × ω} {s s' : Threads ι M σ} {evs : List ε}
    (h : P.step l s = some (s', evs)) :
    ∃ m r, P.next l.1 l.2 s.shared (s.regs l.1) = some (m, r, evs) ∧
      s' = ⟨m, Function.update s.regs l.1 r⟩ := by
  obtain ⟨⟨m, r, e⟩, hr, heq⟩ := Option.map_eq_some_iff.mp h
  cases heq
  exact ⟨m, r, hr, rfl⟩

theorem step_of_next {t : ι} {w : ω} {s : Threads ι M σ} {m : M} {r : σ} {evs : List ε}
    (h : P.next t w s.shared (s.regs t) = some (m, r, evs)) :
    P.step (t, w) s = some (⟨m, Function.update s.regs t r⟩, evs) := by
  simp only [step, h, Option.map_some]

/-- A property of the trace, the memory and the registers of one thread holds of all threads if
each step preserves it for the thread that moves and for every other thread. Both may use that
all threads had it before. -/
theorem rule {ok : ι × ω → Threads ι M σ → Prop} {I : ι → List ε → M → σ → Prop}
    (h0 : ∀ t, I t [] init.shared (init.regs t))
    (hown : ∀ {t w tr s m r evs}, (P.system init).RunsWhere ok tr s →
      (∀ v, I v tr s.shared (s.regs v)) → ok (t, w) s →
      P.next t w s.shared (s.regs t) = some (m, r, evs) → I t (tr ++ evs) m r)
    (hother : ∀ {t u w tr s m r evs}, (P.system init).RunsWhere ok tr s →
      (∀ v, I v tr s.shared (s.regs v)) → u ≠ t →
      P.next t w s.shared (s.regs t) = some (m, r, evs) → I u (tr ++ evs) m (s.regs u))
    {tr : List ε} {s : Threads ι M σ} (h : (P.system init).RunsWhere ok tr s) (t : ι) :
    I t tr s.shared (s.regs t) := by
  induction h generalizing t with
  | init => exact h0 t
  | @step l tr evs s s' hr hok hs ih =>
    obtain ⟨m, r, hx, rfl⟩ := step_cases hs
    show I t (tr ++ evs) m (Function.update s.regs l.1 r t)
    by_cases ht : t = l.1
    · subst ht
      rw [Function.update_self]
      exact hown hr ih hok hx
    · rw [Function.update_of_ne ht]
      exact hother hr ih ht hx

/-- A step that lowers the rank of its thread lowers the rank of all threads together. -/
theorem sum_rank_lt [Fintype ι] (rank : σ → Nat) {m : M} {s : Threads ι M σ} {t : ι} {r : σ}
    (hlt : rank r < rank (s.regs t)) :
    ∑ u, rank ((⟨m, Function.update s.regs t r⟩ : Threads ι M σ).regs u) <
      ∑ u, rank (s.regs u) := by
  refine Finset.sum_lt_sum (fun u _ => ?_) ⟨t, Finset.mem_univ t, ?_⟩
  · by_cases hu : u = t
    · subst hu
      dsimp only
      rw [Function.update_self]
      exact Nat.le_of_lt hlt
    · dsimp only
      rw [Function.update_of_ne hu]
  · dsimp only
    rw [Function.update_self]
    exact hlt

/-- A quantity that each step changes by as much as a part of its thread is the sum of the parts. -/
theorem sum_eq [Fintype ι] {A : Type} [AddCancelCommMonoid A]
    {ok : ι × ω → Threads ι M σ → Prop} (Q : List ε → M → A) (part : σ → A)
    (h0 : Q [] init.shared = ∑ t, part (init.regs t))
    (hstep : ∀ {t w tr s m r evs}, (P.system init).RunsWhere ok tr s →
      P.next t w s.shared (s.regs t) = some (m, r, evs) →
      Q (tr ++ evs) m + part (s.regs t) = Q tr s.shared + part r)
    {tr : List ε} {s : Threads ι M σ} (h : (P.system init).RunsWhere ok tr s) :
    Q tr s.shared = ∑ t, part (s.regs t) := by
  refine h.rule (I := fun tr s => Q tr s.shared = ∑ t, part (s.regs t)) h0 ?_
  rintro ⟨t, w⟩ tr s s' evs hr ih - hs
  obtain ⟨m, r, hx, rfl⟩ := step_cases hs
  have hothers : ∑ u ∈ Finset.univ.erase t, part (Function.update s.regs t r u) =
      ∑ u ∈ Finset.univ.erase t, part (s.regs u) :=
    Finset.sum_congr rfl fun u hu => by rw [Function.update_of_ne (Finset.ne_of_mem_erase hu)]
  have hown := hstep hr hx
  rw [ih, ← Finset.add_sum_erase _ _ (Finset.mem_univ t), add_right_comm] at hown
  show Q (tr ++ evs) m = ∑ u, part (Function.update s.regs t r u)
  rw [← Finset.add_sum_erase _ _ (Finset.mem_univ t), hothers, Function.update_self]
  refine add_right_cancel (hown.trans ?_)
  rw [add_comm (part (s.regs t)), add_right_comm]

/-- If every thread that is not done has an allowed step that lowers its rank, then every run can
be continued until all of them are done. -/
theorem exists_done [Fintype ι] {ok : ι × ω → Threads ι M σ → Prop} (done : σ → Prop)
    (rank : σ → Nat)
    (hstep : ∀ {tr s t}, (P.system init).RunsWhere ok tr s → ¬ done (s.regs t) →
      ∃ w m r evs, ok (t, w) s ∧ P.next t w s.shared (s.regs t) = some (m, r, evs) ∧
        rank r < rank (s.regs t))
    {tr : List ε} {s : Threads ι M σ} (h : (P.system init).RunsWhere ok tr s) :
    ∃ tr' s', ((P.system init).startingIn s).RunsWhere ok tr' s' ∧ ∀ t, done (s'.regs t) := by
  refine h.exists_final (fun _ _ hok => hok) (fun s => ∀ t, done (s.regs t))
    (fun _ s => ∑ t, rank (s.regs t)) fun {tr s} hr hnot => ?_
  obtain ⟨t, ht⟩ := not_forall.mp hnot
  obtain ⟨w, m, r, evs, hok, hnext, hlt⟩ := hstep hr ht
  exact ⟨(t, w), _, evs, hok, step_of_next hnext, sum_rank_lt rank hlt⟩

/-! ## A thread that moves alone -/

variable (P) in
/-- Steps of thread `t` take the memory and its registers from `m` and `s` to `m'` and `s'`. -/
inductive Alone (t : ι) : M → σ → List ε → M → σ → Prop where
  | refl (m : M) (s : σ) : Alone t m s [] m s
  | step {w : ω} {m m' m'' : M} {s s' s'' : σ} {evs evs' : List ε} :
      P.next t w m s = some (m', s', evs) → Alone t m' s' evs' m'' s'' →
      Alone t m s (evs ++ evs') m'' s''

omit [DecidableEq ι] in
theorem Alone.silent {t : ι} {w : ω} {m m' m'' : M} {s s' s'' : σ} {evs : List ε}
    (hs : P.next t w m s = some (m', s', [])) (h : P.Alone t m' s' evs m'' s'') :
    P.Alone t m s evs m'' s'' :=
  .step hs h

omit [DecidableEq ι] in
theorem Alone.emit {t : ι} {w : ω} {m m' m'' : M} {s s' s'' : σ} {e : ε} {evs : List ε}
    (hs : P.next t w m s = some (m', s', [e])) (h : P.Alone t m' s' evs m'' s'') :
    P.Alone t m s (e :: evs) m'' s'' :=
  .step hs h

omit [DecidableEq ι] in
theorem Alone.trans {t : ι} {m m' m'' : M} {s s' s'' : σ} {evs evs' : List ε}
    (h : P.Alone t m s evs m' s') (h' : P.Alone t m' s' evs' m'' s'') :
    P.Alone t m s (evs ++ evs') m'' s'' := by
  induction h with
  | refl => exact h'
  | step hs _ ih =>
    rw [List.append_assoc]
    exact .step hs (ih h')

theorem Alone.runs {t : ι} {tr evs : List ε} {s : Threads ι M σ} {m : M} {r : σ}
    (hm : P.Alone t s.shared (s.regs t) evs m r) (h : (P.system init).Runs tr s) :
    (P.system init).Runs (tr ++ evs) ⟨m, Function.update s.regs t r⟩ := by
  generalize hmem : s.shared = m₀ at hm
  generalize hreg : s.regs t = r₀ at hm
  induction hm generalizing tr s with
  | refl m₀ r₀ =>
    subst hmem hreg
    rw [List.append_nil, Function.update_eq_self]
    exact h
  | step hs _ ih =>
    subst hmem hreg
    have hrun := ih (h.step trivial (step_of_next hs)) rfl (Function.update_self ..)
    rw [List.append_assoc] at hrun
    rw [Function.update_idem] at hrun
    exact hrun

/-- Two threads move, one after the other. -/
theorem Alone.runs_both {t u : ι} {tr evs evs' : List ε} {s : Threads ι M σ} {m m' : M}
    {r r' : σ} (hne : t ≠ u) (ht : P.Alone t s.shared (s.regs t) evs m r)
    (hu : P.Alone u m (s.regs u) evs' m' r') (h : (P.system init).Runs tr s) :
    ∃ s', (P.system init).Runs (tr ++ (evs ++ evs')) s' ∧
      s'.shared = m' ∧ s'.regs t = r ∧ s'.regs u = r' := by
  have hfirst := ht.runs h
  have hreg : Function.update s.regs t r u = s.regs u := Function.update_of_ne hne.symm ..
  rw [← hreg] at hu
  have hsecond := hu.runs hfirst
  rw [List.append_assoc] at hsecond
  refine ⟨_, hsecond, rfl, ?_, Function.update_self ..⟩
  show Function.update (Function.update s.regs t r) u r' t = r
  rw [Function.update_of_ne hne, Function.update_self]

/-- The listed threads move, one after the other and each of them alone: they bring their registers
to `goal` and add what `gain` says to the memory. -/
theorem Alone.runs_list [AddMonoid M] (goal : ι → σ) (gain : ι → M) {l : List ι} (hl : l.Nodup)
    {tr : List ε} {s : Threads ι M σ}
    (halone : ∀ t ∈ l, ∀ m, ∃ evs, P.Alone t m (s.regs t) evs (m + gain t) (goal t))
    (h : (P.system init).Runs tr s) :
    ∃ tr' s', (P.system init).Runs tr' s' ∧ s'.shared = s.shared + (l.map gain).sum ∧
      (∀ t ∈ l, s'.regs t = goal t) ∧ ∀ t ∉ l, s'.regs t = s.regs t := by
  induction l generalizing tr s with
  | nil => exact ⟨tr, s, h, by simp, by simp, fun _ _ => rfl⟩
  | cons u l ih =>
    obtain ⟨hu, hl'⟩ := List.nodup_cons.mp hl
    obtain ⟨evs, hfirst⟩ := halone u List.mem_cons_self s.shared
    have hrun := hfirst.runs h
    have hreg (t : ι) (ht : t ≠ u) : Function.update s.regs u (goal u) t = s.regs t :=
      Function.update_of_ne ht ..
    obtain ⟨tr', s', hr', hm, hin, hout⟩ := ih hl' (fun t ht m => by
      dsimp only
      rw [hreg t fun heq => hu (heq ▸ ht)]
      exact halone t (List.mem_cons_of_mem u ht) m) hrun
    refine ⟨tr', s', hr', ?_, ?_, ?_⟩
    · rw [hm, List.map_cons, List.sum_cons, add_assoc]
    · intro t ht
      rcases List.mem_cons.mp ht with rfl | ht
      · rw [hout t hu]
        exact Function.update_self ..
      · exact hin t ht
    · intro t ht
      obtain ⟨htu, htl⟩ := not_or.mp (mt List.mem_cons.mpr ht)
      rw [hout t htl]
      exact hreg t htu

end Parallel

/-- Counting the events thread by thread. -/
theorem countP_eq_sum {ι ε : Type} [Fintype ι] [DecidableEq ι] (owner : ε → ι) (q : ε → Bool)
    (tr : List ε) : tr.countP q = ∑ t, tr.countP fun e => q e && decide (owner e = t) := by
  induction tr with
  | nil => simp
  | cons e tr ih =>
    simp only [List.countP_cons, ih, Finset.sum_add_distrib, Nat.add_left_cancel_iff]
    by_cases hq : q e = true
    · simp [hq]
    · simp [hq]

end Infra
