import TsxProject.Replication.Progress

/-!
# What a retry does to the agreement

After a failed comparison thread 0 gives the mutex away before it reads `iterationStatus` again.
Thread 1 may retry meanwhile and store `replicationFinished` there; thread 0 then takes the failed
round for a good one, thread 1 is a round behind from then on, and it waits for ever in the end.

* `exists_overtaken` — such a run, whenever there is an index 8
* `signalSync_agreement` — the protocol is right in every run without the overtaking, and in all
  runs if and only if index 8 is not reached
-/

namespace TsxProject

open Infra

namespace SignalSync

variable {numValues k : Nat} {t : Fin 2} {tr evs : List Event} {m : Memory} {s : Worker}
  {st : State}

/-! ## Without the injected fault -/

/-- Thread 1 tries again only in the round of the injected fault. -/
theorem Inv.not_overtakes (h : Inv numValues tr st) (hle : numValues ≤ 8) (l : Fin 2 × Bool) :
    ¬ Overtakes l st := by
  rintro ⟨-, hpc, -, hfailed⟩
  have hreplica := h.replica
  simp only [ReplicaAt, hpc] at hreplica
  obtain ⟨hcount, hstatus, -⟩ := hreplica
  have hlt := (h.position 1).inside (by rw [hpc]; rfl)
  rw [hfailed, hcount] at hstatus
  cases hround : roundOf 1 tr with
  | zero =>
    rw [hround] at hstatus
    cases hstatus
  | succ k =>
    rw [hround] at hstatus hlt
    have height : k = 8 := of_decide_eq_true ((verdict_succ_eq_failed k).mp hstatus.symm)
    subst height
    have : (8 : Int) < numValues := hlt
    omega

theorem runs_never_overtake (hle : numValues ≤ 8) (h : (system numValues).Runs tr st) :
    (system numValues).RunsWhere (fun l st => ¬ Overtakes l st) tr st := by
  induction h with
  | init => exact .init
  | @step l _ _ _ _ _ _ hs ih => exact ih.step ((inv ih).not_overtakes hle l) hs

/-! ## Threads that move alone -/

variable (numValues) in
/-- Thread 0 begins a round for which the value of thread 1 is there. -/
theorem main_compares (hpc : s.pc = .loop) (hlt : s.i < numValues)
    (hstatus : m.iterationStatus = .replicationFinished) (hmutex : m.syncMutex = none) :
    ∃ m', (signalSync numValues).Alone 0 m s [.calculated 0 s.i, .compared s.i (1 ≠ m.v2)] m'
        { s with pc := .check } ∧
      m'.iterationStatus = (if 1 ≠ m.v2 then .failed else .successfull) ∧ m'.v2 = m.v2 ∧
      m'.firstTime = m.firstTime ∧ m'.syncMutex = none ∧ m'.blocked 1 = false := by
  have h1 : (signalSync numValues).next 0 false m s =
      some (m, { s with pc := .calculate }, []) := by
    simp [signalSync, hpc, hlt]
  have h2 : (signalSync numValues).next 0 false { m with v1 := 1 } { s with pc := .lock } =
      some ({ m with v1 := 1, syncMutex := some 0 }, { s with pc := .test }, []) := by
    simp [signalSync, hmutex]
  have h3 : (signalSync numValues).next 0 false { m with v1 := 1, syncMutex := some 0 }
      { s with pc := .test } =
      some ({ m with v1 := 1, syncMutex := some 0 }, { s with pc := .compare }, []) := by
    simp [signalSync, hstatus]
  refine ⟨_, .silent h1 (.emit (w := false) rfl (.silent h2 (.silent h3
    (.emit (w := false) rfl (.silent (w := false) rfl (.silent (w := false) rfl
      (.refl _ _))))))), rfl, rfl, rfl, rfl, rfl⟩

variable (numValues) in
/-- A thread takes the round for a good one. -/
theorem goes_on (t : Fin 2) (hpc : s.pc = .check) (hstatus : m.iterationStatus ≠ .failed) :
    (signalSync numValues).Alone t m s [.decided t s.i false] m
      { s with i := s.i + 1, result := s.result + m.v1, pc := .loop } := by
  have h1 : (signalSync numValues).next t false m s =
      some (m, { s with pc := .add }, [.decided t s.i false]) := by
    simp [signalSync, hpc, hstatus]
  exact .emit h1 (.silent (w := false) rfl (.silent (w := false) rfl (.refl _ _)))

variable (numValues) in
/-- A thread tries the round again. -/
theorem goes_back (t : Fin 2) (hpc : s.pc = .check) (hstatus : m.iterationStatus = .failed) :
    (signalSync numValues).Alone t m s [.decided t s.i true] m { s with pc := .loop } := by
  have h1 : (signalSync numValues).next t false m s =
      some (m, { s with i := s.i - 1, pc := .next }, [.decided t s.i true]) := by
    simp [signalSync, hpc, hstatus]
  have h2 : (signalSync numValues).next t false m { s with i := s.i - 1, pc := .next } =
      some (m, { s with pc := .loop }, []) := by
    simp [signalSync]
  exact .emit h1 (.silent h2 (.refl _ _))

variable (numValues) in
/-- Thread 1 stores its value. -/
theorem replica_publishes (hpc : s.pc = .loop) (hlt : s.i < numValues)
    (hmutex : m.syncMutex = none) :
    ∃ m', (signalSync numValues).Alone 1 m s [.calculated 1 s.i] m' { s with pc := .test } ∧
      m'.iterationStatus = .replicationFinished ∧
      m'.v2 = (if s.i = 8 ∧ m.firstTime then 2 else 1) ∧
      m'.firstTime = (decide (s.i ≠ 8) && m.firstTime) := by
  have h1 : (signalSync numValues).next 1 false m s =
      some (m, { s with pc := .calculate }, []) := by
    simp [signalSync, hpc, hlt]
  by_cases hfault : s.i = 8 ∧ m.firstTime = true
  · have h2 : (signalSync numValues).next 1 false { m with v2 := 1 } { s with pc := .inject } =
        some ({ m with firstTime := false, v2 := 2 }, { s with pc := .lock }, []) := by
      simp [signalSync, hfault]
    have h3 : (signalSync numValues).next 1 false { m with firstTime := false, v2 := 2 }
        { s with pc := .lock } =
        some ({ m with firstTime := false, v2 := 2, syncMutex := some 1 },
          { s with pc := .publish }, []) := by
      simp [signalSync, hmutex]
    refine ⟨_, .silent h1 (.emit (w := false) rfl (.silent h2 (.silent h3
      (.silent (w := false) rfl (.refl _ _))))), rfl, ?_, ?_⟩
    · rw [if_pos hfault]
    · simp [hfault]
  · have h2 : (signalSync numValues).next 1 false { m with v2 := 1 } { s with pc := .inject } =
        some ({ m with v2 := 1 }, { s with pc := .lock }, []) := by
      simp only [signalSync, if_neg hfault]
    have h3 : (signalSync numValues).next 1 false { m with v2 := 1 } { s with pc := .lock } =
        some ({ m with v2 := 1, syncMutex := some 1 }, { s with pc := .publish }, []) := by
      simp [signalSync, hmutex]
    refine ⟨_, .silent h1 (.emit (w := false) rfl (.silent h2 (.silent h3
      (.silent (w := false) rfl (.refl _ _))))), rfl, ?_, ?_⟩
    · rw [if_neg hfault]
    · show m.firstTime = _
      by_cases hi : s.i = 8
      · simp_all
      · simp [hi]

variable (numValues) in
/-- Thread 1 gives the mutex away. -/
theorem replica_waits (hpc : s.pc = .test) (hstatus : m.iterationStatus = .replicationFinished) :
    ∃ m', (signalSync numValues).Alone 1 m s [] m' { s with pc := .waiting } ∧
      m'.iterationStatus = .replicationFinished ∧ m'.v2 = m.v2 ∧ m'.firstTime = m.firstTime ∧
      m'.syncMutex = none := by
  have h1 : (signalSync numValues).next 1 false m s =
      some (m, { s with pc := .signal }, []) := by
    simp [signalSync, hpc, hstatus, IterationStatus.toNat]
  exact ⟨_, .silent h1 (.silent (w := false) rfl (.silent (w := false) rfl (.refl _ _))), hstatus,
    rfl, rfl, rfl⟩

variable (numValues) in
/-- Thread 1 leaves its inner loop. -/
theorem replica_leaves (hpc : s.pc = .waiting) (hstatus : ¬ m.iterationStatus.toNat < 2)
    (hmutex : m.syncMutex = none) (hblocked : m.blocked 1 = false) :
    ∃ m', (signalSync numValues).Alone 1 m s [] m' { s with pc := .check } ∧
      m'.iterationStatus = m.iterationStatus ∧ m'.v2 = m.v2 ∧ m'.firstTime = m.firstTime ∧
      m'.syncMutex = none := by
  have h1 : (signalSync numValues).next 1 false m s =
      some ({ m with blocked := Function.update m.blocked 1 false },
        { s with pc := .reacquire }, []) := by
    simp [signalSync, hpc, hblocked]
  have h2 : (signalSync numValues).next 1 false
      { m with blocked := Function.update m.blocked 1 false } { s with pc := .reacquire } =
      some ({ m with blocked := Function.update m.blocked 1 false, syncMutex := some 1 },
        { s with pc := .test }, []) := by
    simp [signalSync, hmutex]
  have h3 : (signalSync numValues).next 1 false
      { m with blocked := Function.update m.blocked 1 false, syncMutex := some 1 }
      { s with pc := .test } =
      some ({ m with blocked := Function.update m.blocked 1 false, syncMutex := some 1 },
        { s with pc := .unlock }, []) := by
    simp only [signalSync, if_true, if_neg hstatus]
  exact ⟨_, .silent h1 (.silent h2 (.silent h3 (.silent (w := false) rfl (.refl _ _)))), rfl, rfl,
    rfl, rfl⟩

variable (numValues) in
/-- Thread 1 takes the round for a good one and stores the value of the next. -/
theorem replica_renews (hpc : s.pc = .waiting) (hlt : s.i + 1 < numValues)
    (hstatus : m.iterationStatus = .successfull) (hmutex : m.syncMutex = none)
    (hblocked : m.blocked 1 = false) :
    ∃ m' s', (signalSync numValues).Alone 1 m s [.decided 1 s.i false, .calculated 1 (s.i + 1)]
        m' s' ∧ s'.pc = .waiting ∧ s'.i = s.i + 1 ∧
      m'.iterationStatus = .replicationFinished ∧ m'.syncMutex = none ∧
      m'.v2 = (if s.i + 1 = 8 ∧ m.firstTime then 2 else 1) ∧
      m'.firstTime = (decide (s.i + 1 ≠ 8) && m.firstTime) := by
  obtain ⟨m₁, hleave, hstatus₁, -, hfirst₁, hmutex₁⟩ := replica_leaves numValues hpc
    (by rw [hstatus]; decide) hmutex hblocked
  have hon := goes_on numValues 1 (m := m₁) (s := { s with pc := .check }) rfl
    (by rw [hstatus₁, hstatus]; decide)
  obtain ⟨m₂, hpublish, hstatus₂, hv2₂, hfirst₂⟩ := replica_publishes numValues (m := m₁)
    (s := ⟨.loop, s.i + 1, s.result + m₁.v1⟩) rfl hlt hmutex₁
  obtain ⟨m₃, hwait, hstatus₃, hv2₃, hfirst₃, hmutex₃⟩ := replica_waits numValues (m := m₂)
    (s := ⟨.test, s.i + 1, s.result + m₁.v1⟩) rfl hstatus₂
  rw [hfirst₁] at hv2₂ hfirst₂
  exact ⟨m₃, _, hleave.trans (hon.trans (hpublish.trans hwait)), rfl, rfl, hstatus₃, hmutex₃,
    hv2₃.trans hv2₂, hfirst₃.trans hfirst₂⟩

/-! ## The overtaking -/

/-- Thread 1 has stored the value of round `k` and waits, and thread 0 is about to begin it. -/
structure Published (k : Nat) (tr : List Event) (st : State) : Prop where
  main : (st.regs 0).pc = .loop ∧ (st.regs 0).i = k
  replica : (st.regs 1).pc = .waiting ∧ (st.regs 1).i = k
  status : st.shared.iterationStatus = .replicationFinished
  mutex : st.shared.syncMutex = none
  v2 : st.shared.v2 = roundValue k
  firstTime : st.shared.firstTime = decide (k < 8)
  compared : comparisons tr = rounds k
  decided : decisions 0 tr = rounds k

theorem exists_published_zero (hpos : 0 < numValues) :
    ∃ tr st, (system numValues).Runs tr st ∧ Published 0 tr st := by
  obtain ⟨m, hpublish, hstatus, hv2, hfirst⟩ := replica_publishes numValues
    (m := (system numValues).init.shared) (s := (system numValues).init.regs 1) rfl
    (Int.natCast_pos.mpr hpos) rfl
  obtain ⟨m', hwait, hstatus', hv2', hfirst', hmutex⟩ := replica_waits numValues
    (m := m) (s := { (system numValues).init.regs 1 with pc := .test }) rfl hstatus
  have hr := (hpublish.trans hwait).runs (System.RunsWhere.init (S := system numValues))
  refine ⟨_, _, hr, ⟨rfl, rfl⟩, ⟨rfl, rfl⟩, hstatus', hmutex, ?_, ?_, rfl, rfl⟩
  · exact hv2'.trans hv2
  · exact hfirst'.trans hfirst

/-- A good round. -/
theorem Published.succ (h : Published k tr st) (hr : (system numValues).Runs tr st) (hk : k < 8)
    (hlt : k + 1 < numValues) :
    ∃ tr st, (system numValues).Runs tr st ∧ Published (k + 1) tr st := by
  have hfails : roundFails k = false := by
    rw [roundFails, decide_eq_false_iff_not]
    omega
  have hround : round k = ((k : Int), false) := by
    rw [round, hfails, roundIndex, if_pos (by omega)]
  have hvalue : st.shared.v2 = 1 := by rw [h.v2, roundValue, hfails, if_neg Bool.false_ne_true]
  -- thread 0 compares and goes on
  obtain ⟨m₁, hcompare, hstatus₁, hv2₁, hfirst₁, hmutex₁, hblocked₁⟩ := main_compares numValues
    (m := st.shared) (s := st.regs 0) h.main.1 (by rw [h.main.2]; omega) h.status h.mutex
  rw [hvalue, if_neg (by decide)] at hstatus₁
  have hmain := hcompare.trans (goes_on numValues 0 rfl (by rw [hstatus₁]; decide))
  -- thread 1 goes on and stores the next value
  obtain ⟨m₂, b, hreplica, hpc, hindex, hstatus₂, hmutex₂, hv2₂, hfirst₂⟩ :=
    replica_renews numValues (m := m₁) (s := st.regs 1) h.replica.1 (by rw [h.replica.2]; omega)
      hstatus₁ hmutex₁ hblocked₁
  have hfirst : m₁.firstTime = true := by
    rw [hfirst₁, h.firstTime, decide_eq_true_eq]
    exact hk
  rw [h.replica.2, hfirst] at hv2₂ hfirst₂
  obtain ⟨st', hr', hmem, h0, h1⟩ := hmain.runs_both (by decide) hreplica hr
  refine ⟨_, st', hr', ⟨?_, ?_⟩, ⟨?_, ?_⟩, ?_, ?_, ?_, ?_, ?_, ?_⟩
  · rw [h0]
  · rw [h0]
    show (st.regs 0).i + 1 = _
    rw [h.main.2]
    rfl
  · rw [h1, hpc]
  · rw [h1, hindex, h.replica.2]
    rfl
  · rw [hmem, hstatus₂]
  · rw [hmem, hmutex₂]
  · rw [hmem, hv2₂]
    simp only [roundValue, roundFails, decide_eq_true_eq, and_true]
    split <;> split <;> omega
  · rw [hmem, hfirst₂, Bool.and_true, decide_eq_decide]
    omega
  · rw [rounds_succ, ← h.compared, hround, hvalue, h.main.2]
    exact List.filterMap_append
  · rw [rounds_succ, ← h.decided, hround, h.main.2]
    exact List.filterMap_append

theorem exists_published (hk : k ≤ 8) (hlt : k < numValues) :
    ∃ tr st, (system numValues).Runs tr st ∧ Published k tr st := by
  induction k with
  | zero => exact exists_published_zero hlt
  | succ k ih =>
    obtain ⟨tr, st, hr, h⟩ := ih (by omega) (by omega)
    exact h.succ hr (by omega) hlt

/-- Thread 0 takes the failed round for a good one. -/
theorem exists_overtaken (hlt : 8 < numValues) :
    ∃ tr st, (system numValues).Runs tr st ∧ comparisons tr = rounds 8 ++ [(8, true)] ∧
      decisions 0 tr = rounds 8 ++ [(8, false)] ∧ (st.regs 0).pc = .loop ∧ (st.regs 0).i = 9 ∧
      Waits 1 st := by
  obtain ⟨tr, st, hr, h⟩ := exists_published (Nat.le_refl 8) hlt
  have hvalue : st.shared.v2 = 2 := h.v2
  have hindex : (st.regs 0).i = 8 := h.main.2
  have hindex' : (st.regs 1).i = 8 := h.replica.2
  -- thread 0 sees the fault and has still to read the status
  obtain ⟨m₁, hcompare, hstatus₁, hv2₁, hfirst₁, hmutex₁, hblocked₁⟩ := main_compares numValues
    (m := st.shared) (s := st.regs 0) h.main.1 (by omega) h.status h.mutex
  rw [hvalue, if_pos (by decide)] at hstatus₁
  -- thread 1 tries again and stores its value
  obtain ⟨m₂, hleave, hstatus₂, hv2₂, hfirst₂, hmutex₂⟩ := replica_leaves numValues
    (m := m₁) (s := st.regs 1) h.replica.1 (by rw [hstatus₁]; decide) hmutex₁ hblocked₁
  have hback := goes_back numValues 1 (m := m₂) (s := { st.regs 1 with pc := .check }) rfl
    (hstatus₂.trans hstatus₁)
  obtain ⟨m₃, hpublish, hstatus₃, -, -⟩ := replica_publishes numValues (m := m₂)
    (s := { st.regs 1 with pc := .loop }) rfl (by dsimp only; omega) hmutex₂
  obtain ⟨st', hr', hmem, h0, h1⟩ := hcompare.runs_both (by decide)
    (hleave.trans (hback.trans hpublish)) hr
  -- thread 0 goes on
  have hon := goes_on numValues 0 (m := st'.shared) (s := st'.regs 0) (by rw [h0])
    (by rw [hmem, hstatus₃]; decide)
  refine ⟨_, _, hon.runs hr', ?_, ?_, ?_, ?_, ?_, ?_⟩
  · have hrounds := h.compared
    rw [h0, hvalue, hindex, List.append_assoc, ← hrounds]
    exact List.filterMap_append
  · have hrounds := h.decided
    rw [h0, hindex, List.append_assoc, ← hrounds]
    exact List.filterMap_append
  · dsimp only
    rw [Function.update_self]
  · dsimp only
    rw [Function.update_self, h0]
    show (st.regs 0).i + 1 = 9
    rw [hindex]
    rfl
  · left
    dsimp only
    rw [Function.update_of_ne (by decide), h1]
  · show if (1 : Fin 2) = 1 then st'.shared.iterationStatus.toNat < 2 else _
    rw [hmem, hstatus₃]
    decide

/-- A thread 1 that waits when thread 0 has left the loop goes on waiting. -/
theorem waits_forever {ok : Fin 2 × Bool → State → Prop} (hdone : (st.regs 0).pc = .done)
    (hw : Waits 1 st) {tr' : List Event} {st' : State}
    (h : ((system numValues).startingIn st).RunsWhere ok tr' st') :
    (st'.regs 0).pc = .done ∧ Waits 1 st' := by
  refine h.rule (I := fun _ st' => (st'.regs 0).pc = .done ∧ Waits 1 st') ⟨hdone, hw⟩ ?_
  rintro ⟨t, w⟩ tr st₁ st₂ evs - ⟨hdone₁, hplace, hstatus⟩ - hs
  obtain ⟨m, r, hx, rfl⟩ := Parallel.step_cases (P := signalSync numValues) hs
  rw [if_pos rfl] at hstatus
  obtain rfl | rfl : t = 0 ∨ t = 1 := by omega
  · simp only [signalSync, hdone₁] at hx
    cases hx
  · refine ⟨?_, ?_, ?_⟩
    · show (Function.update st₁.regs 1 r 0).pc = .done
      rw [Function.update_of_ne (by decide)]
      exact hdone₁
    · dsimp only
      rw [Function.update_self]
      rcases hplace with hpc | hpc | hpc | hpc | ⟨-, hpc⟩ <;>
        simp only [signalSync, hpc, if_true, if_pos hstatus] at hx
      · cases hx
        exact .inr (.inr (.inr (.inr ⟨rfl, rfl⟩)))
      · cases hx
        exact .inr (.inr (.inl rfl))
      · split at hx <;> cases hx
        exact .inr (.inr (.inr (.inl rfl)))
      · split at hx <;> cases hx
        exact .inl rfl
      · cases hx
        exact .inr (.inl rfl)
    · show if (1 : Fin 2) = 1 then m.iterationStatus.toNat < 2 else _
      have hpublish : (st₁.regs 1).pc ≠ .publish ∧ (st₁.regs 1).pc ≠ .compare := by
        rcases hplace with hpc | hpc | hpc | hpc | ⟨-, hpc⟩ <;> rw [hpc] <;> simp
      rw [if_pos rfl, (next_status hx hpublish.1 hpublish.2 tr).1]
      exact hstatus

/-- The comparison has failed, and thread 0 has gone on. -/
theorem not_prefix_of_overtaken (hc : comparisons tr = rounds 8 ++ [(8, true)])
    (hd : decisions 0 tr = rounds 8 ++ [(8, false)]) : ¬ decisions 0 tr <+: comparisons tr := by
  rw [hc, hd, List.prefix_append_right_inj, List.cons_prefix_cons]
  simp

/-- With an index 8, thread 1 may retry alone, and it waits for ever in the end: here it does so
beside a thread 0 that has counted the failed round. -/
theorem retry_disagrees :
    ∃ tr st, (system 9).Runs tr st ∧ ¬ decisions 0 tr <+: comparisons tr ∧
      ∀ tr' st', ((system 9).startingIn st).Runs tr' st' →
        (st'.regs 0).pc = .done ∧ Waits 1 st' := by
  obtain ⟨tr, st, hr, hcompared, hdecided, hpc, hindex, hw⟩ :=
    exists_overtaken (by decide : 8 < 9)
  have hs : (signalSync 9).next 0 false st.shared (st.regs 0) =
      some (st.shared, { st.regs 0 with pc := .done }, []) := by
    simp [signalSync, hpc, hindex]
  have hr' := hr.step trivial (Parallel.step_of_next hs)
  rw [List.append_nil] at hr'
  refine ⟨tr, _, hr', not_prefix_of_overtaken hcompared hdecided, ?_⟩
  intro tr' st' h
  refine waits_forever ?_ ?_ h
  · dsimp only
    rw [Function.update_self]
  · refine ⟨?_, hw.2⟩
    dsimp only
    rw [Function.update_of_ne (by decide)]
    exact hw.1

/-! ## The protocol -/

/-- The protocol is right as long as thread 1 does not overtake thread 0, and then both threads
can always finish. It is right in all runs if and only if index 8 is not reached. -/
theorem signalSync_agreement (numValues : Nat) :
    (∀ tr st, (system numValues).RunsWhere (fun l st => ¬ Overtakes l st) tr st →
      Agreement numValues tr st ∧
      ∃ tr' st', ((system numValues).startingIn st).RunsWhere
        (fun l st => ¬ Overtakes l st ∧ l.2 = false) tr' st' ∧ Finished st') ∧
    ((∀ tr st, (system numValues).Runs tr st → Agreement numValues tr st) ↔ numValues ≤ 8) := by
  refine ⟨fun tr st h => ⟨(inv h).agreement, exists_finished h⟩, fun hall => ?_, ?_⟩
  · by_contra hlt
    obtain ⟨tr, st, hr, hcompared, hdecided, -⟩ := exists_overtaken (Nat.lt_of_not_le hlt)
    exact not_prefix_of_overtaken hcompared hdecided ((hall tr st hr).follow 0)
  · intro hle tr st h
    exact (inv (runs_never_overtake hle h)).agreement

theorem signalSync_agreement_nine :
    ∃ tr st, (system 9).Runs tr st ∧ Finished st ∧ ∀ t, (st.regs t).result = 9 := by
  have hright := (signalSync_agreement 9).1
  obtain ⟨-, tr, st, hr, hfinished⟩ := hright [] _ .init
  have hallowed := System.RunsWhere.init.trans (hr.mono fun _ _ hok => hok.1)
  exact ⟨_, st, hallowed.mono fun _ _ _ => trivial, hfinished,
    fun t => (hright _ _ hallowed).1.result t (hfinished t)⟩

end SignalSync

end TsxProject
