import TsxProject.Tsx.Account

/-!
# Explicit aborts get a fixed number of retries

"the region of code where the errors happened is retried a fixed number of times before trying it
again without transactions": at one index, `Thread_FuncWithTM` grants five retries after explicit
aborts, whatever other aborts come between them. The hardware never sets `_XABORT_RETRY` together
with `_XABORT_EXPLICIT`; with it, the second test of the status could grant more.

The ranges of the threads are arbitrary here.
-/

namespace TsxProject

open Infra

namespace Transactions

open Tsx

variable {T : Nat} {t u : Fin T} {tr evs : List (Event T)} {m m' : Memory} {s s' : Worker}
  {w : Choice}

/-- A retry of thread `t` at index `i`, granted because of an explicit abort. -/
def Event.explicitRetry (t : Fin T) (i : Int) : Event T → Bool
  | .retried t' i' st => decide (t' = t) && decide (i' = i) && wasExplicitAbort st.bits
  | _ => false

def explicitRetries (t : Fin T) (i : Int) (tr : List (Event T)) : Nat :=
  tr.countP (Event.explicitRetry t i)

/-- Thread `t` has begun with index `i`. -/
def Begun (t : Fin T) (i : Int) (tr : List (Event T)) : Prop :=
  ∃ retriedTimes, .begun t i retriedTimes ∈ tr

/-- A retry after an abort with status `st`, when the index has had `k` retries after explicit
aborts. -/
def granted (st : AbortStatus) (k : Nat) : Bool :=
  if wasExplicitAbort st.bits then k < 5 else isRetryPossible st.bits

theorem explicitRetries_append (t : Fin T) (i : Int) (tr evs : List (Event T)) :
    explicitRetries t i (tr ++ evs) = explicitRetries t i tr + explicitRetries t i evs :=
  List.countP_append

theorem begun_append {i : Int} : Begun t i (tr ++ evs) ↔ Begun t i tr ∨ Begun t i evs := by
  simp only [Begun, List.mem_append, exists_or]

theorem explicitRetries_of_owner (h : ∀ e ∈ evs, e.owner = t) (hne : u ≠ t) (i : Int) :
    explicitRetries u i evs = 0 := by
  rw [explicitRetries, List.countP_eq_zero]
  intro e he
  have howner := h e he
  cases e with
  | retried t' i' st =>
    have hne' : t' ≠ u := fun heq => hne (heq.symm.trans howner)
    simp [Event.explicitRetry, hne']
  | _ => simp [Event.explicitRetry]

theorem not_begun_of_owner (h : ∀ e ∈ evs, e.owner = t) (hne : u ≠ t) (i : Int) :
    ¬ Begun u i evs := by
  rintro ⟨r, hr⟩
  exact hne (h _ hr)

/-! ## The invariant -/

/-- `retriedTimes` counts the retries after explicit aborts at the current index. -/
structure Budget (t : Fin T) (tr : List (Event T)) (s : Worker) : Prop where
  le : ∀ i, explicitRetries t i tr ≤ 5
  fresh : ∀ i, s.current < i → ¬ Begun t i tr
  none : ∀ i, ¬ Begun t i tr → explicitRetries t i tr = 0
  begun : s.pc.active = true → Begun t s.i tr
  counter : s.pc ≠ .calculate → s.pc.over = false →
    s.retriedTimes = explicitRetries t s.current tr
  hardware : ∀ st, s.pc = .fallback st → st.Hardware

theorem Budget.init (hpc : s.pc = .loop) (hr : s.retriedTimes = 0) : Budget t [] s where
  le i := Nat.zero_le 5
  fresh i _ := by rintro ⟨r, hr⟩; cases hr
  none i _ := rfl
  begun h := by rw [hpc] at h; cases h
  counter _ _ := hr
  hardware st h := by rw [hpc] at h; cases h

/-- Events that are no beginning and no retry. -/
theorem Budget.quiet (h : Budget t tr s) (hexp : ∀ i, explicitRetries t i evs = 0)
    (hbeg : ∀ i, ¬ Begun t i evs) (hcur : s.current ≤ s'.current)
    (hact : s'.pc.active = true → s.pc.active = true ∧ s'.i = s.i)
    (hcount : s'.pc ≠ .calculate → s'.pc.over = false →
      s'.retriedTimes = explicitRetries t s'.current tr)
    (hhard : ∀ st, s'.pc = .fallback st → st.Hardware) : Budget t (tr ++ evs) s' where
  le i := by rw [explicitRetries_append, hexp]; exact h.le i
  fresh i hi := by
    rw [begun_append]
    rintro (hb | hb)
    · exact h.fresh i (by omega) hb
    · exact hbeg i hb
  none i hb := by
    rw [explicitRetries_append, hexp]
    exact h.none i fun hb' => hb (begun_append.mpr (.inl hb'))
  begun hc := by
    obtain ⟨hpc, hi⟩ := hact hc
    rw [hi]
    exact begun_append.mpr (.inl (h.begun hpc))
  counter h1 h2 := by rw [explicitRetries_append, hexp]; exact hcount h1 h2
  hardware := hhard

/-- The number of retries decides what the two tests of the status decide. -/
theorem retries_eq {st : AbortStatus} (hst : st.Hardware) :
    (s.retries st).1 = granted st s.retriedTimes ∧
      (granted st s.retriedTimes = true →
        (s.retries st).2 = s.retriedTimes + (wasExplicitAbort st.bits).toNat) := by
  unfold Worker.retries granted
  cases he : wasExplicitAbort st.bits with
  | false => simp
  | true =>
    by_cases hlt : s.retriedTimes < 5
    · simp [hlt]
    · simp [hlt, hst.not_retry he]

/-- The step of a thread after an abort. -/
theorem fallback_next {st : AbortStatus} (hpc : s.pc = .fallback st) (hst : st.Hardware)
    (m : Memory) (w : Choice) :
    ∃ m', (funcWithTM T).next t w m s = some (m',
      if granted st s.retriedTimes then
        { s with
          i := s.i - 1, pc := .next,
          retriedTimes := s.retriedTimes + (wasExplicitAbort st.bits).toNat }
      else { s with pc := .calculate, retriedTimes := (s.retries st).2 },
      [if granted st s.retriedTimes then .retried t s.i st
        else .fellBack t s.i st (draw w.rand)]) := by
  obtain ⟨hgrant, hcount⟩ := retries_eq (s := s) hst
  refine ⟨{ m with errors := Function.update m.errors s.i (draw w.rand) }, ?_⟩
  simp only [funcWithTM, hpc, hgrant]
  by_cases hg : granted st s.retriedTimes = true
  · rw [if_pos hg, if_pos hg, if_pos hg, hcount hg]
  · rw [if_neg hg, if_neg hg, if_neg hg]

theorem Budget.retry {st : AbortStatus} (h : Budget t tr s) (hpc : s.pc = .fallback st)
    (hg : granted st s.retriedTimes = true) :
    Budget t (tr ++ [.retried t s.i st])
      { s with
        i := s.i - 1, pc := .next,
        retriedTimes := s.retriedTimes + (wasExplicitAbort st.bits).toNat } := by
  have hcur : s.current = s.i := by simp [Worker.current, hpc]
  have hcur' : Worker.current
      { s with
        i := s.i - 1, pc := .next,
        retriedTimes := s.retriedTimes + (wasExplicitAbort st.bits).toNat } = s.i := by
    simp [Worker.current]
  have hcount : s.retriedTimes = explicitRetries t s.i tr := by
    rw [← hcur]
    exact h.counter (by rw [hpc]; simp) (by rw [hpc]; rfl)
  have hone : ∀ j, explicitRetries t j [.retried t s.i st] =
      if j = s.i ∧ wasExplicitAbort st.bits then 1 else 0 := by
    intro j
    by_cases hj : s.i = j
    · simp [explicitRetries, Event.explicitRetry, List.countP_cons, hj]
    · simp [explicitRetries, Event.explicitRetry, hj, Ne.symm hj]
  have hnew : ∀ j, explicitRetries t j (tr ++ [.retried t s.i st]) =
      explicitRetries t j tr + if j = s.i ∧ wasExplicitAbort st.bits then 1 else 0 := by
    intro j
    rw [explicitRetries_append, hone]
  have hbegun : Begun t s.i tr := h.begun (by rw [hpc]; rfl)
  have hbeg : ∀ j, Begun t j (tr ++ [.retried t s.i st]) ↔ Begun t j tr := by
    intro j
    rw [begun_append, or_iff_left]
    rintro ⟨r, hr⟩
    simp at hr
  refine ⟨fun j => ?_, fun j hj => ?_, fun j hj => ?_, fun hc => Bool.noConfusion hc,
    fun _ _ => ?_, fun st' hc => by cases hc⟩
  · rw [hnew]
    have hle := h.le j
    split
    · next hj =>
      -- the counter was below 5
      obtain ⟨rfl, he⟩ := hj
      simp only [granted, he, if_true, decide_eq_true_eq] at hg
      omega
    · exact hle
  · rw [hbeg]
    rw [hcur'] at hj
    exact h.fresh j (by rw [hcur]; exact hj)
  · rw [hbeg] at hj
    rw [hnew, h.none j hj, if_neg]
    rintro ⟨rfl, -⟩
    exact hj hbegun
  · rw [hcur', hnew, ← hcount]
    cases wasExplicitAbort st.bits <;> simp

/-- The loop test passes. -/
theorem Budget.begin (h : Budget t tr s) (hpc : s.pc = .loop) :
    Budget t (tr ++ [.begun t s.i s.retriedTimes]) { s with pc := .transaction } := by
  have hcur : s.current = s.i := by simp [Worker.current, hpc]
  have hcount : ∀ j, explicitRetries t j (tr ++ [.begun t s.i s.retriedTimes]) =
      explicitRetries t j tr := by
    intro j
    simp [explicitRetries, Event.explicitRetry]
  have hbeg : ∀ j, Begun t j (tr ++ [.begun t s.i s.retriedTimes]) ↔ Begun t j tr ∨ j = s.i := by
    intro j
    rw [begun_append]
    simp [Begun]
  refine ⟨fun j => ?_, fun j hj => ?_, fun j hj => ?_, fun _ => (hbeg _).mpr (.inr rfl),
    fun _ _ => ?_, fun st hc => by cases hc⟩
  · rw [hcount]
    exact h.le j
  · have hlt : s.i < j := hj
    rw [hbeg, not_or]
    exact ⟨h.fresh j (by rw [hcur]; exact hlt), by omega⟩
  · rw [hbeg, not_or] at hj
    rw [hcount]
    exact h.none j hj.1
  · have hold := h.counter (by rw [hpc]; simp) (by rw [hpc]; rfl)
    rw [hcur] at hold
    rw [hcount]
    exact hold

/-- The current index is settled, and the counter is reset for the next one. -/
theorem Budget.settle (h : Budget t tr s) (hcur : s.current = s.i) (hpc' : s'.pc = .next)
    (hi : s'.i = s.i) (hr : s'.retriedTimes = 0) (hexp : ∀ j, explicitRetries t j evs = 0)
    (hbeg : ∀ j, ¬ Begun t j evs) : Budget t (tr ++ evs) s' := by
  have hcur' : s'.current = s.current + 1 := by
    rw [hcur]
    simp [Worker.current, hpc', hi]
  refine h.quiet hexp hbeg (by omega) (fun hc => by rw [hpc'] at hc; cases hc) (fun _ _ => ?_)
    (fun st hc => by rw [hpc'] at hc; cases hc)
  rw [hr, hcur', h.none _ (h.fresh _ (by omega))]

theorem Budget.step (h : Budget t tr s) (hw : w.outcome.Hardware)
    (hs : (funcWithTM T).next t w m s = some (m', s', evs)) : Budget t (tr ++ evs) s' := by
  cases funcWithTM_cases hs with
  | enter hpc => exact h.begin hpc
  | exit hpc =>
    exact h.quiet (fun _ => rfl) (by simp [Begun]) (by simp [Worker.current, hpc])
      (fun hc => Bool.noConfusion hc) (fun _ hc => Bool.noConfusion hc) (fun st hc => by cases hc)
  | abort st hpc hst =>
    have hcur : s.current = s.i := by simp [Worker.current, hpc]
    have hcount := h.counter (by rw [hpc]; simp) (by rw [hpc]; rfl)
    have hhard : st.Hardware := by
      rcases hst with hout | rfl
      · rw [hout] at hw
        exact hw
      · exact xabort_hardware
    -- an abort leaves the counter as it is
    refine h.quiet (fun _ => rfl) (by simp [Begun]) (by simp [Worker.current, hpc])
      (fun _ => ⟨by rw [hpc]; rfl, rfl⟩) (fun _ _ => ?_) (fun st' hc => by cases hc; exact hhard)
    rw [hcur] at hcount
    exact hcount
  | commit hpc | calculate hpc =>
    exact h.settle (by simp [Worker.current, hpc]) rfl rfl rfl
      (fun j => by simp [explicitRetries, Event.explicitRetry]) (by simp [Begun])
  | retry st hpc hretry =>
    obtain ⟨hgrant, hcount⟩ := retries_eq (s := s) (h.hardware st hpc)
    rw [hretry, eq_comm] at hgrant
    rw [hcount hgrant]
    exact h.retry hpc hgrant
  | fallBack st hpc =>
    exact h.quiet (fun j => by simp [explicitRetries, Event.explicitRetry]) (by simp [Begun])
      (by simp [Worker.current, hpc]) (fun _ => ⟨by rw [hpc]; rfl, rfl⟩)
      (fun hc _ => absurd rfl hc) (fun st' hc => by cases hc)
  | next hpc =>
    have hcount := h.counter (by rw [hpc]; simp) (by rw [hpc]; rfl)
    refine h.quiet (fun _ => rfl) (by simp [Begun]) (by simp [Worker.current, hpc])
      (fun hc => Bool.noConfusion hc) (fun _ _ => ?_) (fun st hc => by cases hc)
    simpa [Worker.current, hpc] using hcount
  | store hpc =>
    exact h.quiet (fun _ => rfl) (by simp [Begun]) (by simp [Worker.current, hpc])
      (fun hc => Bool.noConfusion hc) (fun _ hc => Bool.noConfusion hc) (fun st hc => by cases hc)

/-- Another thread's events do not count. -/
theorem Budget.other (h : Budget u tr s) (hevs : ∀ e ∈ evs, e.owner = t) (hne : u ≠ t) :
    Budget u (tr ++ evs) s :=
  h.quiet (explicitRetries_of_owner hevs hne) (not_begun_of_owner hevs hne) (Int.le_refl _)
    (fun hc => ⟨hc, rfl⟩) h.counter h.hardware

/-! ## All threads -/

/-- Threads at the start of ranges of any kind. -/
def Starting (init : State T) : Prop :=
  ∀ t, (init.regs t).pc = .loop ∧ (init.regs t).retriedTimes = 0

/-- The hardware keeps to its statuses. -/
def HardwareStep (l : Fin T × Choice) (_ : State T) : Prop := l.2.outcome.Hardware

instance (l : Fin T × Choice) (st : State T) : Decidable (HardwareStep l st) :=
  inferInstanceAs (Decidable l.2.outcome.Hardware)

theorem budget {init st : State T} (hinit : Starting init)
    (h : ((funcWithTM T).system init).RunsWhere HardwareStep tr st) (t : Fin T) :
    Budget t tr (st.regs t) := by
  refine Parallel.rule (I := fun t tr _ s => Budget t tr s)
    (fun t => Budget.init (hinit t).1 (hinit t).2) ?_ ?_ h t
  · intro t w tr s m r evs _ hI hw hs
    exact (hI t).step hw hs
  · intro t u w tr s m r evs _ hI hne hs
    exact (hI u).other (funcWithTM_owner hs) hne

/-! ## The sixth abort -/

/-- An explicit abort of thread `t` at index `i`, whatever is done about it. -/
def Event.explicitAbort (t : Fin T) (i : Int) : Event T → Bool
  | .retried t' i' st | .fellBack t' i' st _ =>
    decide (t' = t) && decide (i' = i) && wasExplicitAbort st.bits
  | _ => false

def explicitAborts (t : Fin T) (i : Int) (tr : List (Event T)) : Nat :=
  tr.countP (Event.explicitAbort t i)

/-- An index that fell back is settled next. -/
def FallenBack (t : Fin T) (tr : List (Event T)) (s : Worker) : Prop :=
  ∀ i st flag, .fellBack t i st flag ∈ tr → i < s.current ∨ s.pc = .calculate ∧ i = s.i

theorem FallenBack.append (h : FallenBack t tr s) (hcur : s.current ≤ s'.current)
    (hsettled : s.pc = .calculate → s.i < s'.current)
    (hnew : ∀ i st flag, .fellBack t i st flag ∈ evs → s'.pc = .calculate ∧ i = s'.i) :
    FallenBack t (tr ++ evs) s' := by
  intro i st flag he
  rcases List.mem_append.mp he with he | he
  · rcases h i st flag he with hlt | ⟨hpc, rfl⟩
    · exact .inl (by omega)
    · exact .inl (hsettled hpc)
  · exact .inr (hnew i st flag he)

theorem FallenBack.step (h : FallenBack t tr s)
    (hs : (funcWithTM T).next t w m s = some (m', s', evs)) : FallenBack t (tr ++ evs) s' := by
  cases funcWithTM_cases hs with
  | enter hpc | exit hpc | abort st hpc | commit hpc | retry st hpc =>
    exact h.append (by simp [Worker.current, hpc]) (by simp [hpc]) (by simp)
  | fallBack st hpc =>
    exact h.append (by simp [Worker.current, hpc]) (by simp [hpc]) (by simp +contextual)
  | calculate hpc | next hpc | store hpc =>
    exact h.append (by simp [Worker.current, hpc]) (by simp [Worker.current, hpc]) (by simp)

theorem fallenBack {init st : State T} {ok : Fin T × Choice → State T → Prop}
    (h : ((funcWithTM T).system init).RunsWhere ok tr st) (t : Fin T) :
    FallenBack t tr (st.regs t) := by
  refine Parallel.rule (I := fun t tr _ s => FallenBack t tr s) ?_ ?_ ?_ h t
  · intro t i st flag he
    cases he
  · intro t w tr s m r evs _ hI _ hs
    exact (hI t).step hs
  · intro t u w tr s m r evs _ hI hne hs i st flag he
    rcases List.mem_append.mp he with he | he
    · exact hI u i st flag he
    · exact absurd (funcWithTM_owner hs _ he) hne

/-- As long as an index has not fallen back, its explicit aborts have all been retried. -/
theorem explicitAborts_eq {i : Int} (h : ∀ st flag, .fellBack t i st flag ∉ tr) :
    explicitAborts t i tr = explicitRetries t i tr := by
  refine List.countP_congr fun e he => ?_
  cases e with
  | fellBack t' i' st flag =>
    by_cases ht : t' = t
    · by_cases hi : i' = i
      · subst ht hi
        exact absurd he (h st flag)
      · simp [Event.explicitAbort, Event.explicitRetry, hi]
    · simp [Event.explicitAbort, Event.explicitRetry, ht]
  | _ => rfl

/-! ## The main result -/

/-- An index is begun for the first time with the counter at 0. -/
def FreshCounter (before : List (Event T)) : Event T → Prop
  | .begun t i retriedTimes => ¬ Begun t i before → retriedTimes = 0
  | _ => True

theorem Budget.freshCounter {e : Event T} (h : Budget t tr s)
    (hs : (funcWithTM T).next t w m s = some (m', s', evs)) (he : e ∈ evs) :
    FreshCounter tr e := by
  cases funcWithTM_cases hs with
  | enter hpc =>
    cases List.mem_singleton.mp he
    intro hnew
    have hcount := h.counter (by rw [hpc]; simp) (by rw [hpc]; rfl)
    have hcur : s.current = s.i := by simp [Worker.current, hpc]
    rw [hcount, hcur, h.none _ hnew]
  | exit | abort | next | store => cases he
  | commit | retry | fallBack | calculate =>
    cases List.mem_singleton.mp he
    trivial

/-- No step emits two events. -/
theorem funcWithTM_length_le (hs : (funcWithTM T).next t w m s = some (m', s', evs)) :
    evs.length ≤ 1 := by
  cases funcWithTM_cases hs <;> simp

/--
**Five retries after explicit aborts at each index.** For threads with any ranges, every `rand()`
and every outcome of the transactions that the hardware can have:

* an index is begun for the first time with `retriedTimes` at 0;
* at no index more than five retries are granted because of explicit aborts;
* an abort at an index that has had `k` explicit aborts before is retried if it is explicit and
  `k` is below 5, or if it is not and has the bit `_XABORT_RETRY`; after any other abort the index
  is settled on the non-transactional path.
-/
theorem retry_budget {init st : State T} (hinit : Starting init)
    (h : ((funcWithTM T).system init).RunsWhere HardwareStep tr st) :
    Preceded FreshCounter tr ∧
    (∀ t i, explicitRetries t i tr ≤ 5) ∧
    (∀ t abort, (st.regs t).pc = .fallback abort → ∀ w, ∃ st',
      (funcWithTM T).step (t, w) st = some (st',
        [if granted abort (explicitAborts t (st.regs t).i tr) then
          .retried t (st.regs t).i abort
        else .fellBack t (st.regs t).i abort (draw w.rand)]) ∧
      (granted abort (explicitAborts t (st.regs t).i tr) = false →
        (st'.regs t).pc = .calculate ∧ (st'.regs t).i = (st.regs t).i)) ∧
    ∀ t, (st.regs t).pc = .calculate → ∀ w, ∃ st' v,
      (funcWithTM T).step (t, w) st = some (st', [.calculated t (st.regs t).i v]) := by
  refine ⟨?_, fun t => (budget hinit h t).le, fun t abort hpc w => ?_, fun t hpc w => ?_⟩
  · refine System.RunsWhere.preceded (fun {l} tr' s₁ s₂ evs hr _ hs => ?_) h
    obtain ⟨m, r, hx, -⟩ := Parallel.step_cases (P := funcWithTM T) hs
    exact ⟨funcWithTM_length_le hx, fun e he => (budget hinit hr l.1).freshCounter hx he⟩
  · have hbudget := budget hinit h t
    have hcur : (st.regs t).current = (st.regs t).i := by simp [Worker.current, hpc]
    have hcount : explicitAborts t (st.regs t).i tr = (st.regs t).retriedTimes := by
      rw [hbudget.counter (by rw [hpc]; simp) (by rw [hpc]; rfl), hcur]
      refine explicitAborts_eq fun st' flag he => ?_
      rcases fallenBack h t _ st' flag he with hlt | ⟨hcalc, -⟩
      · omega
      · rw [hpc] at hcalc
        cases hcalc
    rw [hcount]
    obtain ⟨m', hnext⟩ := fallback_next (t := t) hpc (hbudget.hardware abort hpc) st.shared w
    refine ⟨_, Parallel.step_of_next hnext, ?_⟩
    intro hg
    have hnot : ¬ granted abort (st.regs t).retriedTimes = true := by
      rw [hg]
      exact Bool.false_ne_true
    simp only [Function.update_self, if_neg hnot, and_self]
  · have hnext : (funcWithTM T).next t w st.shared (st.regs t) =
        some (st.shared,
          { st.regs t with
            result := (st.regs t).result + calculateValue st.shared.errors (st.regs t).i,
            retriedTimes := 0, pc := .next },
          [.calculated t (st.regs t).i (calculateValue st.shared.errors (st.regs t).i)]) := by
      simp only [funcWithTM, hpc]
    exact ⟨_, _, Parallel.step_of_next hnext⟩

/-- One thread and one index, whose transaction is aborted explicitly six times. -/
theorem retry_budget_small :
    let init : State 1 := ⟨⟨id, fun _ => false, fun _ => 0, 0⟩, Worker.start 1 1⟩
    ∃ tr st, ((funcWithTM 1).system init).RunsWhere HardwareStep tr st ∧
      explicitRetries 0 0 tr = 5 ∧ explicitAborts 0 0 tr = 5 ∧
      ∀ w, ∃ st', (funcWithTM 1).step (0, w) st =
        some (st', [.fellBack 0 (st.regs 0).i xabort (draw w.rand)]) := by
  intro init
  have hinit : Starting init := fun t => ⟨rfl, rfl⟩
  obtain ⟨tr, st, hr, hpc, hi, hretries, haborts⟩ :=
    ((funcWithTM 1).system init).exists_runsWhere HardwareStep
      ((List.replicate 5 (List.replicate 4 (0, ⟨.aborts xabort, 0⟩))).flatten ++
        List.replicate 2 (0, ⟨.aborts xabort, 0⟩))
      (fun tr st => (st.regs 0).pc = .fallback xabort ∧ (st.regs 0).i = 0 ∧
        explicitRetries 0 0 tr = 5 ∧ explicitAborts 0 0 tr = 5) (by decide +kernel)
  refine ⟨tr, st, hr, hretries, haborts, ?_⟩
  intro w
  obtain ⟨st', hs, -⟩ := (retry_budget hinit hr).2.2.1 0 xabort hpc w
  rw [hi, haborts] at hs
  rw [hi]
  exact ⟨st', hs⟩

end Transactions

end TsxProject
