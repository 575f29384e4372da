import Mathlib.Data.List.Basic

/-!
# Transition systems and their runs

A `System` is executable: in every state each actor has at most one step, and the only
freedom of a run is which actor moves next. A step may emit events, and the events of a run
in their order are its *trace*.

A `Spec` is the relational counterpart, used for abstract models.

* `System.RunsWhere.rule` — the induction rule for a property of trace and state
* `System.RunsWhere.exists_final` — a run can be continued to a final state
* `System.RunsWhere.refines`, `refines_obs` — a refinement mapping carries runs to runs of a `Spec`
* `Preceded` — what a trace may say about the events before each of its events
* `System.RunsWhere.preceded` — the induction rule for such a statement
-/

namespace Infra

/-- Actors `ι`, states `σ`, events `ε`. -/
structure System (ι σ ε : Type) where
  init : σ
  step : ι → σ → Option (σ × List ε)

/-- An abstract model, given by relations. -/
structure Spec (σ ε : Type) where
  init : σ → Prop
  step : σ → List ε → σ → Prop

namespace System

variable {ι σ α ε : Type} {S : System ι σ ε}

/-- Runs from the initial state in which every step is taken by an actor `i` in a state `s`
with `ok i s`. -/
inductive RunsWhere (S : System ι σ ε) (ok : ι → σ → Prop) : List ε → σ → Prop where
  | init : RunsWhere S ok [] S.init
  | step {i : ι} {tr evs : List ε} {s s' : σ} :
      RunsWhere S ok tr s → ok i s → S.step i s = some (s', evs) → RunsWhere S ok (tr ++ evs) s'

/-- Runs without any restriction. -/
def Runs (S : System ι σ ε) : List ε → σ → Prop := S.RunsWhere fun _ _ => True

theorem RunsWhere.mono {ok ok' : ι → σ → Prop} (hok : ∀ i s, ok i s → ok' i s) {tr : List ε}
    {s : σ} (h : S.RunsWhere ok tr s) : S.RunsWhere ok' tr s := by
  induction h with
  | init => exact .init
  | step _ hi hs ih => exact ih.step (hok _ _ hi) hs

/-- What holds initially and is preserved by every allowed step holds at the end of every run. -/
theorem RunsWhere.rule {ok : ι → σ → Prop} {I : List ε → σ → Prop} (h0 : I [] S.init)
    (hstep : ∀ {i tr s s' evs}, S.RunsWhere ok tr s → I tr s → ok i s →
      S.step i s = some (s', evs) → I (tr ++ evs) s')
    {tr : List ε} {s : σ} (h : S.RunsWhere ok tr s) : I tr s := by
  induction h with
  | init => exact h0
  | step hr hok hs ih => exact hstep hr ih hok hs

/-- Some run ends in the state. -/
def Reachable (S : System ι σ ε) (s : σ) : Prop := ∃ tr, S.Runs tr s

theorem Reachable.step {i : ι} {s s' : σ} {evs : List ε} (h : S.Reachable s)
    (hs : S.step i s = some (s', evs)) : S.Reachable s' := by
  obtain ⟨tr, hr⟩ := h
  exact ⟨tr ++ evs, hr.step trivial hs⟩

/-! ## Continuations -/

/-- The same steps, from another state on. -/
def startingIn (S : System ι σ ε) (s : σ) : System ι σ ε := { S with init := s }

theorem RunsWhere.trans {ok : ι → σ → Prop} {tr tr' : List ε} {s s' : σ}
    (h : S.RunsWhere ok tr s) (h' : (S.startingIn s).RunsWhere ok tr' s') :
    S.RunsWhere ok (tr ++ tr') s' := by
  induction h' with
  | init =>
    rw [List.append_nil]
    exact h
  | step _ hok hs ih =>
    rw [← List.append_assoc]
    exact ih.step hok hs

theorem RunsWhere.after {ok : ι → σ → Prop} {i : ι} {evs tr : List ε} {s s' s'' : σ}
    (hok : ok i s) (hs : S.step i s = some (s', evs))
    (h : (S.startingIn s').RunsWhere ok tr s'') :
    (S.startingIn s).RunsWhere ok (evs ++ tr) s'' := by
  have hfirst : (S.startingIn s).RunsWhere ok ([] ++ evs) s' := RunsWhere.init.step hok hs
  exact hfirst.trans h

/-- If in every state that is not final some step of a chosen kind lowers the rank, then every run
can be continued to a final state by such steps. -/
theorem RunsWhere.exists_final {ok ok' : ι → σ → Prop} (hok : ∀ i s, ok' i s → ok i s)
    (final : σ → Prop) (rank : List ε → σ → Nat)
    (hstep : ∀ {tr s}, S.RunsWhere ok tr s → ¬ final s → ∃ i s' evs, ok' i s ∧
      S.step i s = some (s', evs) ∧ rank (tr ++ evs) s' < rank tr s)
    {tr : List ε} {s : σ} (h : S.RunsWhere ok tr s) :
    ∃ tr' s', (S.startingIn s).RunsWhere ok' tr' s' ∧ final s' := by
  induction hk : rank tr s using Nat.strongRecOn generalizing tr s with
  | _ k ih =>
    by_cases hfinal : final s
    · exact ⟨[], s, .init, hfinal⟩
    · obtain ⟨i, s', evs, hok', hs, hlt⟩ := hstep h hfinal
      obtain ⟨tr', s'', hr, hfinal'⟩ := ih _ (hk ▸ hlt) (h.step (hok i s hok') hs) rfl
      exact ⟨_, s'', RunsWhere.after hok' hs hr, hfinal'⟩

/-! ## Execution of a schedule -/

variable (S) in
/-- Take the steps of the listed actors, as long as each of them can move and is allowed to. -/
def exec (ok : ι → σ → Prop) [∀ i s, Decidable (ok i s)] :
    List ι → σ → List ε → Option (σ × List ε)
  | [], s, tr => some (s, tr)
  | i :: rest, s, tr =>
    if ok i s then
      match S.step i s with
      | none => none
      | some (s', evs) => exec ok rest s' (tr ++ evs)
    else none

theorem RunsWhere.exec {ok : ι → σ → Prop} [∀ i s, Decidable (ok i s)] :
    ∀ {sched : List ι} {s s' : σ} {tr tr' : List ε}, S.RunsWhere ok tr s →
      S.exec ok sched s tr = some (s', tr') → S.RunsWhere ok tr' s'
  | [], s, s', tr, tr', hr, h => by
    simp only [System.exec, Option.some.injEq, Prod.mk.injEq] at h
    obtain ⟨rfl, rfl⟩ := h
    exact hr
  | i :: rest, s, s', tr, tr', hr, h => by
    simp only [System.exec] at h
    split at h
    · next hok =>
      split at h
      · cases h
      · next s₁ evs hs => exact RunsWhere.exec (hr.step hok hs) h
    · cases h

variable (S) in
/-- A schedule that can be taken to a state and a trace with `Q` is a run that ends so. -/
theorem exists_runsWhere (ok : ι → σ → Prop) [∀ i s, Decidable (ok i s)] (sched : List ι)
    (Q : List ε → σ → Prop) [∀ tr s, Decidable (Q tr s)]
    (h : (S.exec ok sched S.init []).any (fun r => decide (Q r.2 r.1)) = true) :
    ∃ tr s, S.RunsWhere ok tr s ∧ Q tr s := by
  cases he : S.exec ok sched S.init [] with
  | none => simp [he] at h
  | some r =>
    rw [he] at h
    exact ⟨r.2, r.1, RunsWhere.exec RunsWhere.init he, by simpa using h⟩

variable (S) in
theorem exists_runs (sched : List ι) (Q : List ε → σ → Prop) [∀ tr s, Decidable (Q tr s)]
    (h : (S.exec (fun _ _ => True) sched S.init []).any (fun r => decide (Q r.2 r.1)) = true) :
    ∃ tr s, S.Runs tr s ∧ Q tr s :=
  S.exists_runsWhere _ sched Q h

end System

/-! ## Abstract runs and refinement -/

namespace Spec

variable {σ ε : Type}

inductive Runs (A : Spec σ ε) : List ε → σ → Prop where
  | init {s : σ} : A.init s → Runs A [] s
  | step {tr evs : List ε} {s s' : σ} : Runs A tr s → A.step s evs s' → Runs A (tr ++ evs) s'

theorem Runs.rule {A : Spec σ ε} {I : List ε → σ → Prop} (h0 : ∀ {s}, A.init s → I [] s)
    (hstep : ∀ {tr s s' evs}, I tr s → A.step s evs s' → I (tr ++ evs) s')
    {tr : List ε} {s : σ} (h : A.Runs tr s) : I tr s := by
  induction h with
  | init h => exact h0 h
  | step _ hs ih => exact hstep ih hs

/-- A step of the abstract model, or none of it and no event. -/
def StepOrStutter (A : Spec σ ε) (s : σ) (evs : List ε) (s' : σ) : Prop :=
  A.step s evs s' ∨ evs = [] ∧ s' = s

theorem Runs.stepOrStutter {A : Spec σ ε} {tr evs : List ε} {s s' : σ} (h : A.Runs tr s)
    (hs : A.StepOrStutter s evs s') : A.Runs (tr ++ evs) s' := by
  rcases hs with hs | ⟨rfl, rfl⟩
  · exact Runs.step h hs
  · rwa [List.append_nil]

end Spec

/--
**Refinement.** `view` reads the abstract state off the concrete one, `inv` is an invariant of
the concrete system, and every allowed concrete step is an abstract step or invisible, `obs` being
what the abstract model sees of the events. Then every run is, through `view`, a run of the
abstract model, with the observed trace.
-/
theorem System.RunsWhere.refines_obs {ι σ α ε δ : Type} {S : System ι σ ε} {A : Spec α δ}
    {ok : ι → σ → Prop} {inv : σ → Prop} {view : σ → α} {obs : ε → Option δ}
    (h0 : inv S.init) (hv : A.init (view S.init))
    (hstep : ∀ {i s s' evs}, inv s → ok i s → S.step i s = some (s', evs) →
      inv s' ∧ A.StepOrStutter (view s) (evs.filterMap obs) (view s'))
    {tr : List ε} {s : σ} (h : S.RunsWhere ok tr s) :
    inv s ∧ A.Runs (tr.filterMap obs) (view s) := by
  induction h with
  | init => exact ⟨h0, Spec.Runs.init hv⟩
  | step _ hok hs ih =>
    obtain ⟨hi, hr⟩ := ih
    obtain ⟨hi', hs'⟩ := hstep hi hok hs
    rw [List.filterMap_append]
    exact ⟨hi', hr.stepOrStutter hs'⟩

/-- Refinement where the abstract model sees every event. -/
theorem System.RunsWhere.refines {ι σ α ε : Type} {S : System ι σ ε} {A : Spec α ε}
    {ok : ι → σ → Prop} {inv : σ → Prop} {view : σ → α}
    (h0 : inv S.init) (hv : A.init (view S.init))
    (hstep : ∀ {i s s' evs}, inv s → ok i s → S.step i s = some (s', evs) →
      inv s' ∧ A.StepOrStutter (view s) evs (view s'))
    {tr : List ε} {s : σ} (h : S.RunsWhere ok tr s) : inv s ∧ A.Runs tr (view s) := by
  have hobs : inv s ∧ A.Runs (tr.filterMap some) (view s) := by
    refine h.refines_obs h0 hv fun hi hok hs => ?_
    rw [List.filterMap_some]
    exact hstep hi hok hs
  rwa [List.filterMap_some] at hobs

/-! ## Order inside a trace -/

section Trace

variable {ε : Type}

/-- `A pre e` holds for every event `e` of the trace and the events `pre` before it. -/
def Preceded (A : List ε → ε → Prop) (tr : List ε) : Prop :=
  ∀ pre e post, tr = pre ++ e :: post → A pre e

theorem Preceded.nil (A : List ε → ε → Prop) : Preceded A [] := by
  intro pre e post h
  simp at h

theorem Preceded.snoc {A : List ε → ε → Prop} {tr : List ε} {x : ε} (h : Preceded A tr)
    (hx : A tr x) : Preceded A (tr ++ [x]) := by
  intro pre e post heq
  rcases List.eq_nil_or_concat post with rfl | ⟨post', y, rfl⟩
  · have := List.append_inj' heq rfl
    obtain ⟨rfl, he⟩ := this
    cases he
    exact hx
  · have hcut : tr ++ [x] = (pre ++ e :: post') ++ [y] := by simpa using heq
    exact h pre e post' (List.append_inj' hcut rfl).1

theorem Preceded.of_append {A : List ε → ε → Prop} {tr tr' : List ε}
    (h : Preceded A (tr ++ tr')) : Preceded A tr := by
  intro pre e post heq
  refine h pre e (post ++ tr') ?_
  rw [heq, List.append_assoc, List.cons_append]

theorem preceded_snoc_iff {A : List ε → ε → Prop} {tr : List ε} {x : ε} :
    Preceded A (tr ++ [x]) ↔ Preceded A tr ∧ A tr x := by
  constructor
  · intro h
    exact ⟨h.of_append, h tr x [] rfl⟩
  · rintro ⟨h, hx⟩
    exact h.snoc hx

/-- Steps emit at most one event. -/
theorem Preceded.append {A : List ε → ε → Prop} {tr evs : List ε} (h : Preceded A tr)
    (hone : evs.length ≤ 1) (he : ∀ e ∈ evs, A tr e) : Preceded A (tr ++ evs) := by
  match evs, hone with
  | [], _ => rwa [List.append_nil]
  | [e], _ => exact h.snoc (he e (List.mem_singleton_self e))

/-- What every step knows of its event is true of every event of a run. -/
theorem System.RunsWhere.preceded {ι σ : Type} {S : System ι σ ε} {ok : ι → σ → Prop}
    {A : List ε → ε → Prop}
    (hstep : ∀ {i tr s s' evs}, S.RunsWhere ok tr s → ok i s → S.step i s = some (s', evs) →
      evs.length ≤ 1 ∧ ∀ e ∈ evs, A tr e)
    {tr : List ε} {s : σ} (h : S.RunsWhere ok tr s) : Preceded A tr := by
  induction h with
  | init => exact Preceded.nil A
  | step hr hok hs ih =>
    obtain ⟨hone, he⟩ := hstep hr hok hs
    exact ih.append hone he

end Trace

end Infra
