import TsxProject.Infra.Fairness
import TsxProject.Tsx.AtomicOps

/-!
# The fifth test of atomic operations under fair schedules

Thread 1 always returns from `AtomicOps_ThreadFunc5`: if thread 0 does not meet it at the end, the
wait after an abort does. That wait uses up the call of thread 1, and thread 0 is left alone with
its last one.

* `Settles` — what is asked of the hardware: transactions end, and those that could commit do
* `fair_meets` — how every run ends
-/

namespace TsxProject

open Infra

namespace AtomicOps

open Tsx

variable {errors : Int → Bool} {t u : Fin 2} {tr evs : List Event} {m m' : Memory}
  {s s' : Worker} {w : Outcome} {st : State}

/-! ## The flag -/

/-- Places that a thread comes to only when `hyperThreadFinished` is set. -/
def Pc.told : Pc → Bool
  | .wait .hyperThread | .wait .finish | .blocked .hyperThread _ | .blocked .finish _ | .committed
  | .done => true
  | _ => false

theorem told_step (h : s.pc.told = true → m.hyperThreadFinished = true)
    (hs : (threadFunc5 errors).next t w m s = some (m', s', evs)) (htold : s'.pc.told = true) :
    m'.hyperThreadFinished = true := by
  cases step_cases hs with
  | wait site hpc =>
    refine h ?_
    rw [hpc]
    cases site <;> exact htold
  | leave site phase hpc =>
    refine h ?_
    rw [hpc]
    cases site with
    | start =>
      simp only [Site.next] at htold
      split at htold <;> cases htold
    | abort => cases htold
    | hyperThread | finish => rfl
  | setFinished => rfl
  | commit _ hflag => exact hflag
  | finish hpc => exact h (by rw [hpc]; rfl)
  | meet _ hflag => exact hflag
  | explicitAbort | otherAbort | calculate | publish | start2 | abort | spin | late | early =>
    cases htold
  | spinning hpc =>
    rw [hpc] at htold
    cases htold

theorem told {ok : Fin 2 × Outcome → State → Prop} (h : (system errors).RunsWhere ok tr st)
    (t : Fin 2) (htold : (st.regs t).pc.told = true) : st.shared.hyperThreadFinished = true := by
  refine Parallel.rule (P := threadFunc5 errors)
    (I := fun _ _ m s => s.pc.told = true → m.hyperThreadFinished = true)
    (fun _ hc => Bool.noConfusion hc) ?_ ?_ h t htold
  · intro t w tr s m r evs _ hI _ hs
    exact told_step (hI t) hs
  · intro t u w tr s m r evs _ hI _ hs hc
    exact finished_mono hs (hI u hc)

/-- A thread that is in a call has made it. -/
theorem waited_of_blocked {ok : Fin 2 × Outcome → State → Prop}
    (h : (system errors).RunsWhere ok tr st) {site : Site} {phase : Nat}
    (hpc : (st.regs t).pc = .blocked site phase) : .waited t site ∈ tr := by
  refine Parallel.rule (P := threadFunc5 errors)
    (I := fun t tr _ s => ∀ site phase, s.pc = .blocked site phase → .waited t site ∈ tr)
    (fun t site phase hc => by cases hc) ?_ ?_ h t site phase hpc
  · intro t w tr s m r evs _ hI _ hs site phase hpc
    cases step_cases hs with
    | wait site' =>
      cases hpc
      exact List.mem_append_right tr (List.mem_singleton_self _)
    | leave site' =>
      cases site' with
      | start =>
        simp only [Site.next] at hpc
        split at hpc <;> cases hpc
      | hyperThread | abort | finish => cases hpc
    | spinning hpc' =>
      rw [hpc'] at hpc
      cases hpc
    | explicitAbort | otherAbort | calculate | publish | start2 | abort | spin | late | early
    | setFinished | commit | meet | finish => cases hpc
  · intro t u w tr s m r evs _ hI _ _ site phase hpc
    exact List.mem_append_left _ (hI u site phase hpc)

/-- Both calls of thread 1 are over or begun. -/
theorem told_of_calls (hpc : s.pc.calls = 2) : s.pc.told = true := by
  cases hp : s.pc with
  | wait site | blocked site => cases site <;> simp [hp, Pc.calls, Pc.told] at hpc ⊢
  | _ => simp [hp, Pc.calls, Pc.told] at hpc ⊢

/-- The call after an abort returns when thread 1 has finished. -/
theorem finished_of_leave_abort {ok : Fin 2 × Outcome → State → Prop}
    (h : (system errors).RunsWhere ok tr st) {phase : Nat}
    (hpc : (st.regs 0).pc = .blocked .abort phase) (hne : st.shared.barrier1.phase ≠ phase) :
    st.shared.hyperThreadFinished = true := by
  refine told h 1 (told_of_calls ?_)
  have hpaired := paired h
  have hparty : party 0 tr (st.regs 0) = ⟨waits 0 tr, some phase⟩ := by rw [party, hpc]; rfl
  rw [hparty] at hpaired
  have hle : waits 0 tr ≤ waits 1 tr := (hpaired.leave hne).calls_le rfl
  have h0 := (counted h 0).calls
  have h1 := (counted h 1).calls
  have hcalls : (st.regs 0).pc.calls = 1 := by rw [hpc]; rfl
  rw [(counted h 1).abort (by decide)] at h1
  have hpos := List.count_pos_iff.mpr (waited_of_blocked h hpc)
  have htwo := (st.regs 1).pc.calls_le
  omega

/-! ## Ranks -/

/-- Thread 0 is where it goes round and round as long as the flag is not set. -/
def Pc.round : Pc → Bool
  | .start2 | .transaction | .spinning | .fallback _ | .check => true
  | _ => false

/-- The steps that are left, if the flag is set; until then going round does not count. -/
def Pc.rank (flag : Bool) : Pc → Nat
  | .wait .start => 14
  | .blocked .start _ => 13
  | .calculate => 12
  | .publish => 11
  | .setFinished => 10
  | .wait .abort => 8
  | .blocked .abort _ => 7
  | .spinning => if flag then 8 else 9
  | .fallback _ => if flag then 7 else 9
  | .check => if flag then 6 else 9
  | .start2 => if flag then 5 else 9
  | .transaction => if flag then 4 else 9
  | .committed => 3
  | .wait _ => 2
  | .blocked _ _ => 1
  | .done => 0

theorem Pc.rank_le (pc : Pc) {flag flag' : Bool} (h : flag = true → flag' = true) :
    pc.rank flag' ≤ pc.rank flag := by
  cases flag with
  | true => rw [h rfl]
  | false =>
    cases flag' with
    | false => exact Nat.le_refl _
    | true =>
      cases pc with
      | wait site | blocked site => cases site <;> exact Nat.le_refl _
      | _ => simp [Pc.rank]

theorem Pc.rank_round {pc : Pc} (h : pc.round = true) : pc.rank false = 9 := by
  cases pc <;> first | rfl | cases h

/-- What is asked of the hardware: a transaction that spins aborts, and one that finds the flag set
commits. -/
def Settles (l : Fin 2 × Outcome) (st : State) : Prop :=
  ((st.regs l.1).pc = .spinning → l.2 ≠ .completes) ∧
    ((st.regs l.1).pc = .transaction → st.shared.hyperThreadFinished = true → l.2 = .completes)

def Waits (t : Fin 2) (st : State) : Prop :=
  (st.regs t).pc = .done ∨ Blocked t st ∨
    (st.regs t).pc.round = true ∧ st.shared.hyperThreadFinished = false

/-- How a run ends: thread `u` has returned, and thread `t` has or never will. -/
def Over (t u : Fin 2) (st : State) : Prop :=
  (st.regs u).pc = .done ∧ ((st.regs t).pc = .done ∨ Blocked t st)

/-- A thread that does not wait gets on. -/
theorem next_rank (hsettles : Settles (t, w) st) (hwaits : ¬ Waits t st)
    (habort : ∀ phase, (st.regs t).pc = .blocked .abort phase → st.shared.barrier1.phase ≠ phase →
      st.shared.hyperThreadFinished = true) :
    ∃ m' s' evs, (threadFunc5 errors).next t w st.shared (st.regs t) = some (m', s', evs) ∧
      s'.pc.rank m'.hyperThreadFinished <
        (st.regs t).pc.rank st.shared.hyperThreadFinished := by
  -- a thread that goes round does not wait once the flag is set
  have hround : (st.regs t).pc.round = true → st.shared.hyperThreadFinished = true := by
    intro hc
    by_contra hflag
    exact hwaits (.inr (.inr ⟨hc, Bool.eq_false_iff.mpr hflag⟩))
  cases hpc : (st.regs t).pc with
  | wait site =>
    refine ⟨_, _, _, by simp only [threadFunc5, hpc]; rfl, ?_⟩
    cases site <;> exact Nat.lt_succ_self _
  | blocked site phase =>
    have hphase : st.shared.barrier1.phase ≠ phase := by
      rintro rfl
      exact hwaits (.inr (.inl ⟨site, hpc⟩))
    refine ⟨_, _, _, by simp only [threadFunc5, hpc, if_neg hphase]; rfl, ?_⟩
    cases site with
    | start =>
      simp only [Site.next]
      split
      · exact Nat.lt_succ_self 12
      · simp only [Pc.rank]
        split <;> decide
    | abort => simp [habort phase hpc hphase, Site.next, Pc.rank]
    | hyperThread | finish => exact Nat.one_pos
  | calculate | publish =>
    exact ⟨_, _, _, by simp only [threadFunc5, hpc]; rfl, Nat.lt_succ_self _⟩
  | setFinished => exact ⟨_, _, _, by simp only [threadFunc5, hpc]; rfl, by simp [Pc.rank]⟩
  | start2 =>
    have hflag := hround (by rw [hpc]; rfl)
    exact ⟨_, _, _, by simp only [threadFunc5, hpc]; rfl, by simp [hflag, Pc.rank]⟩
  | transaction =>
    have hflag := hround (by rw [hpc]; rfl)
    obtain rfl := hsettles.2 hpc hflag
    exact ⟨_, _, _, by simp only [threadFunc5, hpc, hflag, if_true]; rfl,
      by simp [hflag, Pc.rank]⟩
  | spinning =>
    have hflag := hround (by rw [hpc]; rfl)
    cases w with
    | completes => exact absurd rfl (hsettles.1 hpc)
    | aborts status =>
      exact ⟨_, _, _, by simp only [threadFunc5, hpc]; rfl, by simp [hflag, Pc.rank]⟩
  | fallback status =>
    have hflag := hround (by rw [hpc]; rfl)
    refine ⟨_, _, _, by simp only [threadFunc5, hpc]; rfl, ?_⟩
    dsimp only
    split <;> simp [hflag, Pc.rank]
  | check =>
    have hflag := hround (by rw [hpc]; rfl)
    exact ⟨_, _, _, by simp only [threadFunc5, hpc]; rfl, by simp [hflag, Pc.rank]⟩
  | committed =>
    refine ⟨_, _, _, by simp only [threadFunc5, hpc]; rfl, ?_⟩
    dsimp only
    split <;> simp [Pc.rank]
  | done => exact absurd (.inl hpc) hwaits

/-- As long as the flag is not set, thread 0 goes round or gives up. -/
theorem round_step (hround : s.pc.round = true) (hflag : m.hyperThreadFinished = false)
    (hs : (threadFunc5 errors).next t w m s = some (m', s', evs)) :
    m'.hyperThreadFinished = false ∧
      (s'.pc.round = true ∧ m'.barrier1 = m.barrier1 ∨ s'.pc = .wait .abort) := by
  cases step_cases hs with
  | wait _ hpc | leave _ _ hpc | calculate hpc | publish hpc | setFinished hpc | meet hpc
  | finish hpc =>
    rw [hpc] at hround
    cases hround
  | commit _ hset | late _ hset =>
    rw [hflag] at hset
    cases hset
  | start2 | abort | spin | explicitAbort | otherAbort => exact ⟨hflag, .inl ⟨rfl, rfl⟩⟩
  | spinning => exact ⟨hflag, .inl ⟨hround, rfl⟩⟩
  | early => exact ⟨hflag, .inr rfl⟩

def rank (st : State) : Nat := ∑ t, (st.regs t).pc.rank st.shared.hyperThreadFinished

/-- The rank of the other thread is not raised. -/
theorem rank_lt (hs : (threadFunc5 errors).next t w st.shared (st.regs t) = some (m', s', evs))
    (hlt : s'.pc.rank m'.hyperThreadFinished <
      (st.regs t).pc.rank st.shared.hyperThreadFinished) :
    rank ⟨m', Function.update st.regs t s'⟩ < rank st := by
  refine Finset.sum_lt_sum (fun u _ => ?_) ⟨t, Finset.mem_univ t, ?_⟩
  · by_cases hu : u = t
    · subst hu
      dsimp only
      rw [Function.update_self]
      exact Nat.le_of_lt hlt
    · dsimp only
      rw [Function.update_of_ne hu]
      exact Pc.rank_le _ (finished_mono hs)
  · dsimp only
    rw [Function.update_self]
    exact hlt

theorem waiting_step (hwaits : Waits t st)
    (hs : (threadFunc5 errors).next t w st.shared (st.regs t) = some (m', s', evs)) :
    rank ⟨m', Function.update st.regs t s'⟩ < rank st ∨
      rank ⟨m', Function.update st.regs t s'⟩ = rank st ∧
        ∀ u, Waits u ⟨m', Function.update st.regs t s'⟩ → Waits u st := by
  rcases hwaits with hpc | ⟨site, hpc⟩ | ⟨hround, hflag⟩
  · simp only [threadFunc5, hpc] at hs
    cases hs
  · simp only [threadFunc5, hpc, if_true] at hs
    cases hs
  · obtain ⟨hflag', ⟨hround', hbarrier⟩ | hpc'⟩ := round_step hround hflag hs
    · refine .inr ⟨Finset.sum_congr rfl fun u _ => ?_, fun u hu => ?_⟩
      · by_cases hut : u = t
        · subst hut
          dsimp only
          rw [Function.update_self, hflag, hflag', Pc.rank_round hround, Pc.rank_round hround']
        · dsimp only
          rw [Function.update_of_ne hut, hflag, hflag']
      · by_cases hut : u = t
        · subst hut
          exact .inr (.inr ⟨hround, hflag⟩)
        · simp only [Waits, Blocked, Function.update_of_ne hut, hbarrier, hflag'] at hu
          simp only [Waits, Blocked, hflag]
          exact hu
    · refine .inl (rank_lt hs ?_)
      rw [hpc', hflag, Pc.rank_round hround]
      exact Nat.lt_succ_self 8

/-! ## Fair schedules -/

/-- No two threads wait before the run is over. -/
theorem over_of_waits {ok : Fin 2 × Outcome → State → Prop}
    (h : (system errors).RunsWhere ok tr st) (hwaits : ∀ t, Waits t st) : Over 0 1 st := by
  have h0 := (counted h 0).calls
  have h1 := (counted h 1).calls
  rw [(counted h 1).abort (by decide)] at h1
  have hmain : ∀ pc : Pc, pc.round = true → pc.main = true ∧ pc.calls = 1 := by
    intro pc hc
    cases pc <;> first | exact ⟨rfl, rfl⟩ | cases hc
  rcases hwaits 1 with hdone | ⟨site, hpc⟩ | ⟨hround, -⟩
  · refine ⟨hdone, ?_⟩
    rcases hwaits 0 with hpc | hpc | ⟨-, hflag⟩
    · exact .inl hpc
    · exact .inr hpc
    · rw [told h 1 (by rw [hdone]; rfl)] at hflag
      cases hflag
  · have hmore : waits 1 tr = waits 0 tr + 1 :=
      (paired_of_ne h (by decide)).calls_of_blocked (by rw [party, hpc]; rfl)
    have hle := (st.regs 1).pc.calls_le
    exfalso
    rcases hwaits 0 with hdone | ⟨site', hpc'⟩ | ⟨hround, hflag⟩
    · have htwo : (st.regs 0).pc.calls = 2 := by rw [hdone]; rfl
      omega
    · have hless : waits 0 tr = waits 1 tr + 1 :=
        (paired_of_ne h (by decide)).calls_of_blocked (by rw [party, hpc']; rfl)
      omega
    · have hone := (hmain _ hround).2
      have htold := told h 1 (told_of_calls (by omega))
      rw [hflag] at htold
      cases htold
  · exact absurd ((counted h 1).main (hmain _ hround).1) (by decide)

theorem live (errors : Int → Bool) :
    LiveWhere (system errors) Prod.fst (fun l tr st => (system errors).Runs tr st ∧ Settles l st)
      (Over 0 1) (fun _ => rank) Waits where
  work := by
    rintro ⟨t, w⟩ tr st ⟨hr, hsettles⟩ - hwaits
    have habort : ∀ phase, (st.regs t).pc = .blocked .abort phase →
        st.shared.barrier1.phase ≠ phase → st.shared.hyperThreadFinished = true := by
      intro phase hpc hne
      obtain rfl : t = 0 := (counted hr t).main (by rw [hpc]; rfl)
      exact finished_of_leave_abort hr hpc hne
    obtain ⟨m', s', evs, hs, hlt⟩ := next_rank hsettles hwaits habort
    exact ⟨_, evs, Parallel.step_of_next hs, rank_lt hs hlt⟩
  wait := by
    rintro ⟨t, w⟩ tr st st' evs - - hwaits hs
    obtain ⟨m', s', hx, rfl⟩ := Parallel.step_cases (P := threadFunc5 errors) hs
    exact waiting_step hwaits hx
  exists_working := by
    rintro - tr st ⟨hr, -⟩ hover
    by_contra hall
    simp only [not_exists, not_not] at hall
    exact hover (over_of_waits hr hall)

theorem Over.step {l : Fin 2 × Outcome} {st' : State} (h : Over 0 1 st)
    (hs : (system errors).step l st = some (st', evs)) : Over 0 1 st' := by
  obtain ⟨m', s', hx, -⟩ := Parallel.step_cases (P := threadFunc5 errors) hs
  obtain ⟨t, w⟩ := l
  obtain rfl | rfl : t = 0 ∨ t = 1 := by omega
  · rcases h.2 with hpc | ⟨site, hpc⟩
    · simp only [threadFunc5, hpc] at hx
      cases hx
    · simp only [threadFunc5, hpc, if_true] at hx
      cases hx
  · simp only [threadFunc5, h.1] at hx
    cases hx

/-- Without an early wait, thread 0 does not wait alone. -/
theorem done_of_over (h : (system errors).RunsWhere (fun l st => ¬ Early l st) tr st)
    (hover : Over 0 1 st) : (st.regs 0).pc = .done := by
  rcases hover.2 with hdone | ⟨site, hpc⟩
  · exact hdone
  · have hmore : waits 0 tr = waits 1 tr + 1 :=
      (paired_of_ne h (by decide)).calls_of_blocked (by rw [party, hpc]; rfl)
    have h0 := (counted h 0).calls
    have h1 := (counted h 1).calls
    rw [(not_waited_abort h 0).1] at h0
    have hle := (st.regs 0).pc.calls_le
    have htwo : (st.regs 1).pc.calls = 2 := by rw [hover.1]; rfl
    omega

/-- Thread `t` has made the early wait, or is about to. -/
def GivesUp (t : Fin 2) (tr : List Event) (st : State) : Prop :=
  (st.regs t).pc = .wait .abort ∨ .waited t .abort ∈ tr

theorem GivesUp.step {l : Fin 2 × Outcome} {st' : State} (h : GivesUp 0 tr st)
    (hs : (system errors).step l st = some (st', evs)) : GivesUp 0 (tr ++ evs) st' := by
  obtain ⟨m', s', hx, rfl⟩ := Parallel.step_cases (P := threadFunc5 errors) hs
  rcases h with hpc | hmem
  · by_cases hl : l.1 = 0
    · rw [hl] at hx
      simp only [threadFunc5, hpc] at hx
      cases hx
      exact .inr (List.mem_append_right tr (List.mem_singleton_self _))
    · refine .inl ?_
      dsimp only
      rw [Function.update_of_ne (Ne.symm hl)]
      exact hpc
  · exact .inr (List.mem_append_left _ hmem)

theorem givesUp_of_early {l : Fin 2 × Outcome} (hr : (system errors).Runs tr st)
    (h : Early l st) : ∃ st', (system errors).step l st = some (st', []) ∧ GivesUp 0 tr st' := by
  obtain ⟨t, w⟩ := l
  obtain ⟨hpc, hflag⟩ := h
  obtain rfl : t = 0 := (counted hr t).main (by rw [hpc]; rfl)
  have hs : (threadFunc5 errors).next 0 w st.shared (st.regs 0) =
      some (st.shared, { st.regs 0 with pc := .wait .abort }, []) := by
    simp only [threadFunc5, hpc, hflag, Bool.false_eq_true, if_false]
  refine ⟨_, Parallel.step_of_next hs, .inl ?_⟩
  dsimp only
  rw [Function.update_self]

theorem GivesUp.not_done (h : GivesUp 0 tr st) (hr : (system errors).Runs tr st) :
    (st.regs 0).pc ≠ .done := by
  intro hdone
  rcases h with hpc | hmem
  · rw [hdone] at hpc
    cases hpc
  · have hle : waits 0 tr ≤ waits 1 tr := (paired hr).calls_le (by rw [party, hdone]; rfl)
    have h0 := (counted hr 0).calls
    have h1 := (counted hr 1).calls
    rw [(counted hr 1).abort (by decide)] at h1
    have hle1 := (st.regs 1).pc.calls_le
    have htwo : (st.regs 0).pc.calls = 2 := by rw [hdone]; rfl
    have hpos := List.count_pos_iff.mpr hmem
    omega

/--
**How every run ends.** Under every fair schedule on which the hardware settles the transactions in
the end, thread 1 returns. Thread 0 returns too if it never finds `hyperThreadFinished` still 0
after an abort that was not explicit; otherwise it is left in a call of `barrier1` for ever.
-/
theorem fair_meets {sched : Nat → Fin 2 × Outcome} (hfair : Fair Prod.fst sched) {k : Nat}
    (hsettles : ∀ m, k ≤ m → Settles (sched m) ((system errors).play sched m).1) :
    ∃ n, ∀ m, n ≤ m → (((system errors).play sched m).1.regs 1).pc = .done ∧
      ((∀ j, ¬ Early (sched j) ((system errors).play sched j).1) →
        (((system errors).play sched m).1.regs 0).pc = .done) ∧
      ∀ j, Early (sched j) ((system errors).play sched j).1 →
        Blocked 0 ((system errors).play sched m).1 := by
  obtain ⟨n, -, hn⟩ := (live errors).reaches hfair fun m hm =>
    ⟨System.runs_play m, hsettles m hm⟩
  refine ⟨n, ?_⟩
  intro m hm
  have hover := System.play_keeps (fun _ h hs => Over.step h hs) hm hn
  refine ⟨hover.1, fun hearly => ?_, fun j hearly => ?_⟩
  · exact done_of_over (System.runsWhere_play hearly m) hover
  · refine hover.2.resolve_left ?_
    rcases Nat.lt_or_ge j m with hlt | hge
    · obtain ⟨st', hs, hgives⟩ := givesUp_of_early (System.runs_play j) hearly
      have hnext := System.play_of_some hs
      obtain ⟨tr, hr, h⟩ := System.play_keeps
        (P := fun st => ∃ tr, (system errors).Runs tr st ∧ GivesUp 0 tr st)
        (fun _ ⟨tr, hr, h⟩ hs => ⟨_, hr.step trivial hs, h.step hs⟩) hlt
        ⟨_, System.runs_play (j + 1), by rw [hnext, List.append_nil]; exact hgives⟩
      exact h.not_done hr
    -- nothing happens after the end
    · obtain ⟨hpc, -⟩ := hearly
      have hend := System.play_keeps (fun _ h hs => Over.step h hs) hge hover
      generalize (sched j).1 = t at hpc
      obtain rfl | rfl : t = 0 ∨ t = 1 := by omega
      · rcases hend.2 with hpc' | ⟨site, hpc'⟩ <;>
        · rw [hpc] at hpc'
          cases hpc'
      · rw [hend.1] at hpc
        cases hpc

/-! ## An early wait -/

theorem Over.settles (h : Over 0 1 st) (l : Fin 2 × Outcome) : Settles l st := by
  obtain ⟨t, w⟩ := l
  obtain rfl | rfl : t = 0 ∨ t = 1 := by omega
  · rcases h.2 with hpc | ⟨site, hpc⟩ <;>
      exact ⟨fun hc => by simp [hpc] at hc, fun hc => by simp [hpc] at hc⟩
  · exact ⟨fun hc => by simp [h.1] at hc, fun hc => by simp [h.1] at hc⟩

/-- Thread 0 has the first turns nearly alone, and its transaction aborts in the sixth. -/
def hasty (j : Nat) : Fin 2 × Outcome :=
  ((roundRobin 1 (if j = 1 ∨ 7 < j then j else 0)).1,
    if j = 5 then .aborts noReason else .completes)

theorem fair_hasty : Fair Prod.fst hasty := by
  intro t n
  obtain ⟨m, hm, hturn⟩ := fair_roundRobin 1 t (n + 8)
  refine ⟨m, by omega, ?_⟩
  rw [hasty, if_pos (by omega)]
  exact hturn

theorem over_hasty : Over 0 1 ((system fun _ => false).play hasty 27).1 :=
  ⟨by decide, .inr ⟨.finish, by decide⟩⟩

theorem fair_meets_hasty : ∃ n, ∀ m, n ≤ m →
    (((system fun _ => false).play hasty m).1.regs 1).pc = .done ∧
      Blocked 0 ((system fun _ => false).play hasty m).1 := by
  have hsettles : ∀ m, 27 ≤ m → Settles (hasty m) ((system fun _ => false).play hasty m).1 := by
    intro m hm
    exact (System.play_keeps (fun _ h hs => Over.step h hs) hm over_hasty).settles _
  obtain ⟨n, hn⟩ := fair_meets fair_hasty hsettles
  refine ⟨n, ?_⟩
  intro m hm
  obtain ⟨hdone, -, hblocked⟩ := hn m hm
  exact ⟨hdone, hblocked 7 (by decide)⟩

end AtomicOps

end TsxProject
