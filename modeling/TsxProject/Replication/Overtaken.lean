import TsxProject.Replication.Wakeups

/-!
# After the overtaking

Once thread 1 has stored `replicationFinished` over `failed`, thread 0 takes the failed round for a
good one and is an index ahead of thread 1 from then on. No comparison fails any more, and no thread
notices: the values are equal, although they are for different indices. Thread 1 needs one round
more than there are.

* `Behind` — the invariant of such runs
* `finished_iff` — the threads finish if and only if there is no overtaking
-/

namespace TsxProject

open Infra

namespace SignalSync

variable {numValues k c : Nat} {tr evs : List Event} {m m' : Memory} {s s' a b : Worker}
  {st : State} {w : Bool}

/-- Thread 1 has overtaken thread 0. In round `k`, thread 0 is where it should be in the next
one. -/
structure Behind (numValues : Nat) (tr : List Event) (st : State) : Prop where
  main : 9 ≤ roundOf 0 tr ∧ MainAt (count tr) (roundOf 0 tr) (lastIndex 0 tr)
      st.shared.iterationStatus st.shared.v1 (st.regs 0) ∨
    roundOf 0 tr = 8 ∧ count tr = 9 ∧ (st.regs 0).pc = .check ∧
      st.shared.iterationStatus = .replicationFinished
  ahead : Position numValues (roundOf 0 tr + 1) (st.regs 0)
  value : st.shared.v1 = 1
  replica : ReplicaAt (count tr) (roundOf 1 tr) (lastIndex 1 tr) st.shared.iterationStatus
    st.shared.v2 st.shared.firstTime (st.regs 1)
  position : Position numValues (roundOf 1 tr) (st.regs 1)
  decided : decisions 1 tr = rounds (roundOf 1 tr)

/-! ## Thread 0 -/

theorem roundIndex_of_lt (hk : 8 ≤ k) : roundIndex (k + 1) = k := by
  simp only [roundIndex]
  split <;> omega

theorem roundFails_of_lt (hk : 9 ≤ k) : roundFails k = false := by
  simp only [roundFails, decide_eq_false_iff_not]
  omega

/-- Thread 0 goes on with each decision. -/
theorem Position.ahead_step (h : Position numValues (k + 1) s) (hk : 8 ≤ k)
    (hcheck : s.pc = .check → m.iterationStatus ≠ .failed) (hadd : s.pc = .add → m.v1 = 1)
    (hs : (signalSync numValues).next 0 w m s = some (m', s', evs)) :
    Position numValues ((if s.pc = .check then k + 1 else k) + 1) s' := by
  have hindex := h.index
  have hresult := h.result
  have hle := h.le
  have hinside := h.inside
  cases step_cases hs with
  | enter hpc hlt =>
    simp only [hpc, Pc.late, Bool.false_eq_true, if_false, add_zero, reduceCtorEq]
      at hindex hresult ⊢
    exact ⟨by simpa [Pc.late] using hindex, by simpa using hresult, hle, fun _ => hindex ▸ hlt,
      by simp⟩
  | exit hpc hge =>
    simp only [hpc, Pc.late, Bool.false_eq_true, if_false, add_zero, reduceCtorEq]
      at hindex hresult ⊢
    exact ⟨by simpa [Pc.late] using hindex, by simpa using hresult, hle,
      fun hc => Bool.noConfusion hc, fun _ => by omega⟩
  | calculateMain hpc | calculate hpc | fault hpc | noFault hpc | lockMain hpc | lock hpc
  | publish hpc | missing hpc | available hpc | pending hpc | verified hpc | signalMain hpc
  | signal hpc | wait hpc | wake hpc | reacquire hpc | compare hpc | unlock hpc =>
    rw [if_neg (by rw [hpc]; simp)]
    exact h.stay (by rw [hpc]; rfl) rfl rfl rfl
  | retry hpc hfailed => exact absurd hfailed (hcheck hpc)
  | accept hpc hfailed =>
    have hlt := hinside (by rw [hpc]; rfl)
    rw [if_pos hpc]
    simp only [hpc, Pc.late, Bool.false_eq_true, if_false, add_zero, reduceCtorEq] at hindex hresult
    rw [roundIndex_of_lt hk] at hindex hresult hlt
    have hsucc := roundIndex_of_lt (Nat.le_succ_of_le hk)
    refine ⟨?_, ?_, ?_, fun hc => Bool.noConfusion hc, by simp⟩
    · rw [hsucc]
      exact congrArg (· + 1) hindex
    · rw [hsucc]
      exact congrArg (· + 1) hresult
    · rw [hsucc]
      exact hlt
  | add hpc =>
    simp only [hpc, reduceCtorEq, if_false]
    refine ⟨?_, ?_, hle, fun hc => Bool.noConfusion hc, by simp⟩
    · simpa [hpc, Pc.late] using hindex
    · rw [hadd hpc]
      simpa [hpc] using hresult
  | next hpc =>
    simp only [hpc, reduceCtorEq, if_false]
    refine ⟨?_, ?_, hle, fun hc => Bool.noConfusion hc, by simp⟩
    · simpa [hpc, Pc.late] using hindex
    · simpa [hpc] using hresult

theorem roundOf_main (hs : (signalSync numValues).next 0 w m s = some (m', s', evs)) :
    roundOf 0 (tr ++ evs) = if s.pc = .check then roundOf 0 tr + 1 else roundOf 0 tr := by
  cases step_cases hs with
  | retry hpc | accept hpc => simp [hpc]
  | enter hpc | exit hpc | calculateMain hpc | calculate hpc | fault hpc | noFault hpc
  | lockMain hpc | lock hpc | publish hpc | missing hpc | available hpc | pending hpc
  | verified hpc | signalMain hpc | signal hpc | wait hpc | wake hpc | reacquire hpc
  | compare hpc | unlock hpc | add hpc | next hpc => simp [hpc]

theorem MainAt.count_pos {last : Option Int} {status : IterationStatus} {v1 : Int}
    (h : MainAt c k last status v1 a) (hk : 8 ≤ k) : 0 < c := by
  cases hpc : a.pc <;> simp only [MainAt, hpc] at h <;> omega

/-- Thread 1 has stored its value and waits, and the comparison is made. -/
theorem ReplicaAt.compared {last : Option Int} {status : IterationStatus} {v2 : Int}
    {firstTime : Bool} (hr : ReplicaAt c k last status v2 firstTime b)
    (hstatus : status = .replicationFinished) (hb : b.pc.holds = false) :
    ReplicaAt (c + 1) k last (verdict (c + 1)) v2 firstTime b := by
  obtain ⟨hcount, -, -, hplace⟩ := hr.of_finished hstatus
  rcases hplace with hplace | hplace | hplace | hplace | hplace
  · rw [hplace] at hb
    cases hb
  · simp only [ReplicaAt, hplace] at hr ⊢
    exact ⟨.inr ⟨by rw [hcount], trivial⟩, hr.2⟩
  · simp only [ReplicaAt, hplace] at hr ⊢
    exact ⟨.inr ⟨by rw [hcount], trivial⟩, hr.2⟩
  · rw [hplace] at hb
    cases hb
  · rw [hplace] at hb
    cases hb

/-- Both values are 1 and the comparison is a good one. -/
theorem MainAt.compare_ahead (h : MainAt (count tr) (roundOf 0 tr) (lastIndex 0 tr)
      m.iterationStatus m.v1 a)
    (hr : ReplicaAt (count tr) (roundOf 1 tr) (lastIndex 1 tr) m.iterationStatus m.v2
      m.firstTime b)
    (hk : 9 ≤ roundOf 0 tr) (hpc : a.pc = .compare) (hb : b.pc.holds = false)
    (hs : (signalSync numValues).next 0 w m a = some (m', s', evs)) :
    m'.v1 = 1 ∧
      MainAt (count (tr ++ evs)) (roundOf 0 (tr ++ evs)) (lastIndex 0 (tr ++ evs))
        m'.iterationStatus m'.v1 s' ∧
      ReplicaAt (count (tr ++ evs)) (roundOf 1 (tr ++ evs)) (lastIndex 1 (tr ++ evs))
        m'.iterationStatus m'.v2 m'.firstTime b := by
  simp only [MainAt, hpc] at h
  obtain ⟨hcount, hv1, -, hstatus⟩ := h
  obtain ⟨hcount', hv2, -⟩ := hr.of_finished hstatus
  have hfails : roundFails (count tr) = false := roundFails_of_lt (hcount ▸ hk)
  have hequal : m.v2 = 1 := by
    rw [hv2, ← hcount', roundValue, hfails, if_neg Bool.false_ne_true]
  have hsame : ¬ m.v1 ≠ m.v2 := by rw [hv1, hequal]; exact not_not.mpr rfl
  have hverdict : (if m.v1 ≠ m.v2 then IterationStatus.failed else .successfull) =
      verdict (count tr + 1) := by
    rw [if_neg hsame]
    simp only [verdict, hfails, Bool.false_eq_true, if_false]
  simp only [signalSync, hpc] at hs
  cases hs
  rw [hverdict, count_compared, roundOf_compared, roundOf_compared, lastIndex_compared,
    lastIndex_compared]
  exact ⟨hv1, ⟨by rw [hcount], verdict_ne (count tr + 1)⟩, hr.compared hstatus hb⟩

theorem Behind.main_step (h : Behind numValues tr st)
    (hmutex : (st.regs 0).pc.holds = true → (st.regs 1).pc.holds = false)
    (hs : (signalSync numValues).next 0 w st.shared (st.regs 0) = some (m', s', evs)) :
    Behind numValues (tr ++ evs) ⟨m', Function.update st.regs 0 s'⟩ := by
  obtain ⟨hround, hlist, hlast⟩ := next_other hs (u := 1) (by decide) tr
  have height : 8 ≤ roundOf 0 tr := by
    rcases h.main with ⟨hk, -⟩ | ⟨hk, -⟩ <;> omega
  have hfailed : (st.regs 0).pc = .check → st.shared.iterationStatus ≠ .failed := by
    intro hpc
    rcases h.main with ⟨hk, hmain⟩ | ⟨-, -, -, hstatus⟩
    · rw [ne_eq, hmain.failed_iff h.replica hpc, roundFails_of_lt hk]
      exact Bool.false_ne_true
    · rw [hstatus]
      decide
  have hahead := h.ahead.ahead_step height hfailed (fun _ => h.value) hs
  rw [← roundOf_main hs] at hahead
  have hdecided : decisions 1 (tr ++ evs) = rounds (roundOf 1 (tr ++ evs)) := by
    rw [hlist, hround]
    exact h.decided
  have hnext : 9 ≤ roundOf 0 (tr ++ evs) →
      MainAt (count (tr ++ evs)) (roundOf 0 (tr ++ evs)) (lastIndex 0 (tr ++ evs))
        m'.iterationStatus m'.v1 s' → m'.v1 = 1 →
      ReplicaAt (count (tr ++ evs)) (roundOf 1 (tr ++ evs)) (lastIndex 1 (tr ++ evs))
        m'.iterationStatus m'.v2 m'.firstTime (st.regs 1) →
      Behind numValues (tr ++ evs) ⟨m', Function.update st.regs 0 s'⟩ := by
    intro hk hmain hv1 hreplica
    refine ⟨.inl ⟨hk, ?_⟩, ?_, hv1, ?_, ?_, hdecided⟩ <;> dsimp only
    · rw [Function.update_self]
      exact hmain
    · rw [Function.update_self]
      exact hahead
    · rw [Function.update_of_ne (by decide)]
      exact hreplica
    · rw [Function.update_of_ne (by decide), hround]
      exact h.position
  rcases h.main with ⟨hk, hmain⟩ | ⟨hk, hcount, hpc, hstatus⟩
  · have hk' : 9 ≤ roundOf 0 (tr ++ evs) := by
      rw [roundOf_main hs]
      split <;> omega
    by_cases hpc : (st.regs 0).pc = .compare
    · obtain ⟨hv1, hmain', hreplica⟩ := hmain.compare_ahead h.replica hk hpc
        (hmutex (by rw [hpc]; rfl)) hs
      exact hnext hk' hmain' hv1 hreplica
    · have hplace : (st.regs 0).pc ≠ .inject ∧ (st.regs 0).pc ≠ .publish := by
        constructor <;> intro hc <;> simp only [MainAt, hc] at hmain
      obtain ⟨hstatus, hcount, -⟩ := next_status hs hplace.2 hpc tr
      obtain ⟨hv2, hfirst⟩ := main_v2 hs hplace.1
      obtain ⟨hmain', hvalue⟩ := hmain.step (fun _ => h.value) hpc hs
      refine hnext hk' hmain' (hvalue (hcount ▸ hmain.count_pos height)) ?_
      rw [hstatus, hv2, hfirst, hcount, hround, hlast]
      exact h.replica
  -- thread 0 reads what thread 1 has stored over `failed`
  · have hreplica := h.replica
    have hvalue := h.value
    simp only [signalSync, hpc, hstatus, reduceCtorEq, if_false] at hs
    cases hs
    refine hnext ?_ ?_ hvalue ?_
    · rw [roundOf_decided, if_pos rfl, hk]
    · rw [roundOf_decided, if_pos rfl, hk, count_decided, hcount]
      exact ⟨rfl, by decide⟩
    · rw [hround, hlast, count_decided]
      exact hreplica

/-! ## Thread 1 -/

theorem Behind.replica_step (h : Behind numValues tr st)
    (hmutex : (st.regs 0).pc.holds = true → (st.regs 1).pc.holds = false)
    (hs : (signalSync numValues).next 1 w st.shared (st.regs 1) = some (m', s', evs)) :
    Behind numValues (tr ++ evs) ⟨m', Function.update st.regs 1 s'⟩ := by
  obtain ⟨hround, -, hlast⟩ := next_other hs (u := 0) (by decide) tr
  obtain ⟨hposition, hdecided⟩ := h.position.step h.decided
    (fun hpc => h.replica.failed_iff hpc) (fun _ => h.value) hs
  have hv1 : m'.v1 = 1 := (replica_v1 hs).trans h.value
  have hnext : (9 ≤ roundOf 0 tr ∧ MainAt (count (tr ++ evs)) (roundOf 0 tr) (lastIndex 0 tr)
        m'.iterationStatus m'.v1 (st.regs 0) ∨
        roundOf 0 tr = 8 ∧ count (tr ++ evs) = 9 ∧ (st.regs 0).pc = .check ∧
          m'.iterationStatus = .replicationFinished) →
      ReplicaAt (count (tr ++ evs)) (roundOf 1 (tr ++ evs)) (lastIndex 1 (tr ++ evs))
        m'.iterationStatus m'.v2 m'.firstTime s' →
      Behind numValues (tr ++ evs) ⟨m', Function.update st.regs 1 s'⟩ := by
    intro hmain hreplica
    refine ⟨?_, ?_, hv1, ?_, ?_, hdecided⟩ <;> dsimp only
    · rw [Function.update_of_ne (by decide), hround, hlast]
      exact hmain
    · rw [Function.update_of_ne (by decide), hround]
      exact h.ahead
    · rw [Function.update_self]
      exact hreplica
    · rw [Function.update_self]
      exact hposition
  have hcompare : (st.regs 1).pc ≠ .compare := by
    intro hc
    have hreplica := h.replica
    simp only [ReplicaAt, hc] at hreplica
  by_cases hpc : (st.regs 1).pc = .publish
  · have hfree : (st.regs 0).pc.holds = false := by
      by_contra hc
      have hb := hmutex (Bool.eq_true_of_not_eq_false hc)
      rw [hpc] at hb
      cases hb
    rcases h.main with ⟨hk, hmain⟩ | ⟨-, -, -, hstatus⟩
    · obtain ⟨rfl, -, hmain', hreplica⟩ := ReplicaAt.publish hmain h.replica hpc hfree (by
        intro hcheck
        rw [ne_eq, hmain.failed_iff h.replica hcheck, roundFails_of_lt hk]
        exact Bool.false_ne_true) hs
      rw [List.append_nil] at hnext ⊢
      exact hnext (.inl ⟨hk, hmain'⟩) hreplica
    · have hreplica := h.replica
      simp only [ReplicaAt, hpc, hstatus] at hreplica
      exact absurd hreplica.2.1.symm (verdict_ne _)
  · obtain ⟨hstatus, hcount, -⟩ := next_status hs hpc hcompare tr
    refine hnext ?_ (h.replica.step h.position hpc hs)
    rw [hstatus, hcount, replica_v1 hs]
    exact h.main

/-! ## Runs -/

theorem Position.of_index (h : Position numValues k s) (he : roundIndex c = roundIndex k) :
    Position numValues c s where
  index := he ▸ h.index
  result := he ▸ h.result
  le := he ▸ h.le
  inside := he ▸ h.inside
  ended := he ▸ h.ended

theorem behind_of_overtakes (h : Inv numValues tr st) (hover : Overtakes (1, w) st)
    (hs : (signalSync numValues).next 1 w st.shared (st.regs 1) = some (m', s', evs)) :
    Behind numValues (tr ++ evs) ⟨m', Function.update st.regs 1 s'⟩ := by
  obtain ⟨-, hpc, hcheck, hfailed⟩ := hover
  have hround : roundOf 0 tr = 8 :=
    of_decide_eq_true ((h.main.failed_iff h.replica hcheck).mp hfailed)
  have hmain := h.main
  simp only [MainAt, hcheck, hround] at hmain
  have hvalue := h.value (by omega)
  have hahead := (h.position 0).of_index (c := roundOf 0 tr + 1) (by rw [hround]; rfl)
  have hposition := h.position 1
  have hdecided := h.decided 1
  have hreplica := h.replica
  simp only [ReplicaAt, hpc] at hreplica
  simp only [signalSync, hpc] at hs
  cases hs
  rw [List.append_nil]
  refine ⟨.inr ⟨hround, hmain.1, ?_, rfl⟩, ?_, hvalue, ?_, ?_, hdecided⟩ <;> dsimp only
  · rw [Function.update_of_ne (by decide)]
    exact hcheck
  · rw [Function.update_of_ne (by decide)]
    exact hahead
  · rw [Function.update_self]
    exact ⟨.inl ⟨hreplica.1, rfl⟩, hreplica.2.2⟩
  · rw [Function.update_self]
    exact hposition.stay (by rw [hpc]; rfl) rfl rfl rfl

theorem Behind.step {l : Fin 2 × Bool} {st' : State} (h : Behind numValues tr st)
    (hr : (system numValues).Runs tr st) (hs : (system numValues).step l st = some (st', evs)) :
    Behind numValues (tr ++ evs) st' := by
  obtain ⟨m', s', hx, rfl⟩ := Parallel.step_cases (P := signalSync numValues) hs
  obtain ⟨t, w⟩ := l
  obtain rfl | rfl : t = 0 ∨ t = 1 := by omega
  · exact h.main_step (not_both_hold hr) hx
  · exact h.replica_step (not_both_hold hr) hx

/-- The first overtaking in a schedule. -/
theorem behind_of_turn {sched : Nat → Fin 2 × Bool} {n : Nat}
    (hbefore : ∀ m, m < n → ¬ Overtakes (sched m) ((system numValues).play sched m).1)
    (hover : Overtakes (sched n) ((system numValues).play sched n).1) :
    Behind numValues ((system numValues).play sched (n + 1)).2
      ((system numValues).play sched (n + 1)).1 := by
  have hr : (system numValues).RunsWhere (fun l st => ¬ Overtakes l st)
      ((system numValues).play sched n).2 ((system numValues).play sched n).1 :=
    System.runsWhere_play_of_lt hbefore
  rcases hl : sched n with ⟨t, w⟩
  rw [hl] at hover
  obtain rfl : t = 1 := hover.1
  obtain ⟨⟨m', s', evs⟩, hx⟩ : ∃ x, (signalSync numValues).next 1 w
      ((system numValues).play sched n).1.shared (((system numValues).play sched n).1.regs 1) =
      some x := by
    simp only [signalSync, hover.2.1]
    exact ⟨_, rfl⟩
  have hs := Parallel.step_of_next hx
  rw [← hl] at hs
  rw [System.play_of_some hs]
  exact behind_of_overtakes (inv hr) hover hx

/-- Thread 1 would need one more round. -/
theorem Behind.not_finished (h : Behind numValues tr st) : ¬ Finished st := by
  intro hfinished
  have hreplica := h.replica
  simp only [ReplicaAt, hfinished 1] at hreplica
  have hended := h.position.ended (hfinished 1)
  rcases h.main with ⟨hk, hmain⟩ | ⟨-, -, hcheck, -⟩
  · simp only [MainAt, hfinished 0] at hmain
    have hle := h.ahead.le
    rw [roundIndex_of_lt (Nat.le_of_succ_le hk)] at hle
    have hsucc := roundIndex_succ (roundOf 0 tr)
    rw [roundIndex_of_lt (Nat.le_of_succ_le hk), roundFails_of_lt hk,
      if_neg Bool.false_ne_true] at hsucc
    rw [← hreplica.1, hmain] at hended
    omega
  · rw [hfinished 0] at hcheck
    cases hcheck

/-- **Both threads finish if and only if no retry overtakes thread 0**, under every fair schedule in
which the spurious wake-ups come to an end. -/
theorem finished_iff {sched : Nat → Fin 2 × Bool} (hfair : Fair Prod.fst sched) {k : Nat}
    (hsignal : ∀ m, k ≤ m → (sched m).2 = false) :
    (∃ n, Finished ((system numValues).play sched n).1) ↔
      ∀ m, ¬ Overtakes (sched m) ((system numValues).play sched m).1 := by
  have hlive := live numValues
  constructor
  · rintro ⟨n, hfinished⟩ m
    induction m using Nat.strongRecOn with
    | _ m hbefore =>
      intro hover
      rcases Nat.lt_or_ge m n with hlt | hge
      · have hbehind := System.play_keeps
          (P := fun st => ∃ tr, (system numValues).Runs tr st ∧ Behind numValues tr st)
          (fun _ ⟨tr, hr, h⟩ hs => ⟨_, hr.step trivial hs, h.step hr hs⟩) hlt
          ⟨_, System.runs_play (m + 1), behind_of_turn hbefore hover⟩
        obtain ⟨tr, -, h⟩ := hbehind
        exact h.not_finished hfinished
      -- a thread that has finished does not store anything
      · have hdone := System.play_keeps (fun _ hdone hs => Finished.step hdone hs) hge hfinished 1
        rw [hover.2.1] at hdone
        cases hdone
  · intro hturn
    obtain ⟨n, -, hn⟩ := hlive.reaches hfair fun m hm =>
      ⟨System.runsWhere_play hturn m, hsignal m hm⟩
    exact ⟨n, hn⟩

/-- Up to 8 values there is no retry at all. -/
theorem finished_eight :
    ∃ n, Finished ((system 8).play (fun j => ((roundRobin 1 j).1, decide (j < 5))) n).1 := by
  have hfair : Fair Prod.fst fun j => ((roundRobin 1 j).1, decide (j < 5)) := fair_roundRobin 1
  refine (finished_iff hfair (k := 5) ?_).mpr ?_
  · intro m hm
    exact decide_eq_false (Nat.not_lt.mpr hm)
  · intro m
    exact (inv (runs_never_overtake (Nat.le_refl 8) (System.runs_play m))).not_overtakes
      (Nat.le_refl 8) _

end SignalSync

end TsxProject
