import TsxProject.Replication.Agreement

/-!
# What a mismatch does to later iterations

A mismatch leaves `hyperThreadsFinished` set. In the next iteration the main thread may then go
ahead of the hyper-thread, and compares with the value of the iteration before; the hyper-thread
sets the flag once more, and so on in every later iteration.

* `exists_stale` — such a run, for any mismatch and any later index
* `hyperReplicated_iff` — the replication is right in all runs if and only if nothing comes after a
  mismatch
-/

namespace TsxProject

open Infra

namespace HyperReplicated

variable {calcFunc : CalcFunc} {numValues i : Nat} {t : Fin 4} {p : Fin 2} {tr : List Event}
  {m : Memory} {s : Worker} {st : State}

/-! ## Threads that move alone -/

variable (calcFunc) in
/-- An iteration of the main thread that finds the flag set. -/
theorem main_iteration (hpc : s.pc = .loop) (hlt : s.i < s.endIndex)
    (hflag : m.hyperThreadsFinished p = true) :
    ∃ m' s', (hyperReplicated calcFunc).Alone (main p) m s
        [.calculated (main p) s.i,
          .compared (main p) s.i (calcFunc (main p) s.i) (m.globalTempResults p)] m' s' ∧
      s'.pc = .blocked .loop (m.barriers p).phase ∧ s'.i = s.i ∧
      m'.barriers p = (m.barriers p).arrive 2 ∧
      m'.globalTempResults = m.globalTempResults ∧
      (calcFunc (main p) s.i ≠ m.globalTempResults p → m'.hyperThreadsFinished p = true) := by
  have hmain := isHyperThread_main p
  have h1 : (hyperReplicated calcFunc).next (main p) () m s =
      some (m, { s with pc := .compute }, []) := by simp [hyperReplicated, hpc, hlt]
  have h2 : (hyperReplicated calcFunc).next (main p) () m { s with pc := .compute } =
      some (m, { s with localTempResult := calcFunc (main p) s.i, pc := .spin },
        [.calculated (main p) s.i]) := by
    simp [hyperReplicated, hmain]
  have h3 : (hyperReplicated calcFunc).next (main p) () m
      { s with localTempResult := calcFunc (main p) s.i, pc := .spin } =
      some (m, { s with localTempResult := calcFunc (main p) s.i, pc := .compare }, []) := by
    simp [hyperReplicated, pair_main, hflag]
  by_cases heq : calcFunc (main p) s.i = m.globalTempResults p
  · have h4 : (hyperReplicated calcFunc).next (main p) () m
        { s with localTempResult := calcFunc (main p) s.i, pc := .compare } =
        some (m,
          { s with
            localTempResult := calcFunc (main p) s.i,
            tempResult := s.tempResult + calcFunc (main p) s.i, pc := .reset },
          [.compared (main p) s.i (calcFunc (main p) s.i) (m.globalTempResults p)]) := by
      simp [hyperReplicated, pair_main, heq]
    refine ⟨_, _, .silent h1 (.emit h2 (.silent h3 (.emit h4 (.silent (w := ()) rfl
      (.silent (w := ()) rfl (.refl _ _)))))), ?_, rfl, ?_, rfl, fun hne => absurd heq hne⟩
    · simp only [pair_main]
    · simp only [pair_main, Function.update_self]
  · have h4 : (hyperReplicated calcFunc).next (main p) () m
        { s with localTempResult := calcFunc (main p) s.i, pc := .compare } =
        some (m, { s with localTempResult := calcFunc (main p) s.i, pc := .wait .loop },
          [.compared (main p) s.i (calcFunc (main p) s.i) (m.globalTempResults p)]) := by
      simp [hyperReplicated, pair_main, heq]
    refine ⟨_, _, .silent h1 (.emit h2 (.silent h3 (.emit h4 (.silent (w := ()) rfl
      (.refl _ _))))), ?_, rfl, ?_, rfl, fun _ => hflag⟩
    · simp only [pair_main]
    · simp only [pair_main, Function.update_self]

variable (calcFunc) in
/-- An iteration of the hyper-thread. -/
theorem hyper_iteration (hpc : s.pc = .loop) (hlt : s.i < s.endIndex) :
    ∃ m' s', (hyperReplicated calcFunc).Alone (hyper p) m s [.calculated (hyper p) s.i] m' s' ∧
      s'.pc = .blocked .loop (m.barriers p).phase ∧ s'.i = s.i ∧
      m'.barriers p = (m.barriers p).arrive 2 ∧
      m'.globalTempResults p = calcFunc (hyper p) s.i ∧ m'.hyperThreadsFinished p = true := by
  have hhyper := isHyperThread_hyper p
  have h1 : (hyperReplicated calcFunc).next (hyper p) () m s =
      some (m, { s with pc := .compute }, []) := by simp [hyperReplicated, hpc, hlt]
  have h2 : (hyperReplicated calcFunc).next (hyper p) () m { s with pc := .compute } =
      some ({ m with
          globalTempResults := Function.update m.globalTempResults p (calcFunc (hyper p) s.i) },
        { s with pc := .setFinished }, [.calculated (hyper p) s.i]) := by
    simp [hyperReplicated, hhyper, pair_hyper]
  refine ⟨_, _, .silent h1 (.emit h2 (.silent (w := ()) rfl (.silent (w := ()) rfl (.refl _ _)))),
    ?_, rfl, ?_, ?_, ?_⟩
  · simp only [pair_hyper]
  · simp only [pair_hyper, Function.update_self]
  · simp only [Function.update_self]
  · simp only [pair_hyper, Function.update_self]

variable (calcFunc) in
/-- The return from the barrier to the loop test. -/
theorem leave_loop {phase : Nat} (hpc : s.pc = .blocked .loop phase)
    (hphase : (m.barriers (pair t)).phase ≠ phase) :
    (hyperReplicated calcFunc).Alone t m s [] m { s with i := s.i + 1, pc := .loop } := by
  have h1 : (hyperReplicated calcFunc).next t () m s = some (m, { s with pc := .next }, []) := by
    simp [hyperReplicated, hpc, hphase, Site.next]
  exact .silent h1 (.silent (w := ()) rfl (.refl _ _))

/-! ## Iterations of both threads -/

/-- Both threads of pair `p` are at the same place with the same index. -/
structure Both (p : Fin 2) (pc : Pc) (i : Nat) (st : State) : Prop where
  main : (st.regs (main p)).pc = pc ∧ (st.regs (main p)).i = i
  hyper : (st.regs (hyper p)).pc = pc ∧ (st.regs (hyper p)).i = i

/-- Before iteration `i`. -/
def AtLoop (p : Fin 2) (i : Nat) (st : State) : Prop :=
  Both p .loop i st ∧ (st.shared.barriers p).arrived = 0

/-- At the end of iteration `i`, when both threads have called the barrier. -/
def AtBarrier (p : Fin 2) (i : Nat) (st : State) : Prop :=
  ∃ phase, Both p (.blocked .loop phase) i st ∧ st.shared.barriers p = ⟨0, phase + 1⟩

variable (calcFunc) in
/-- A call of the barrier. -/
theorem arrive_barrier {site : Site} (hpc : s.pc = .wait site) :
    ∃ m' s', (hyperReplicated calcFunc).Alone t m s [] m' s' ∧
      s'.pc = .blocked site (m.barriers (pair t)).phase ∧ s'.i = s.i ∧
      m'.barriers (pair t) = (m.barriers (pair t)).arrive 2 := by
  have h1 : (hyperReplicated calcFunc).next t () m s =
      some ({ m with
          barriers := Function.update m.barriers (pair t) ((m.barriers (pair t)).arrive 2) },
        { s with pc := .blocked site (m.barriers (pair t)).phase }, []) := by
    simp [hyperReplicated, hpc]
  exact ⟨_, _, .silent h1 (.refl _ _), rfl, rfl, Function.update_self ..⟩

variable (calcFunc) in
/-- The return from the first call. -/
theorem leave_start {phase : Nat} (hpc : s.pc = .blocked .start phase)
    (hphase : (m.barriers (pair t)).phase ≠ phase) :
    (hyperReplicated calcFunc).Alone t m s [] m { s with pc := .loop } := by
  have h1 : (hyperReplicated calcFunc).next t () m s = some (m, { s with pc := .loop }, []) := by
    simp [hyperReplicated, hpc, hphase, Site.next]
  exact .silent h1 (.refl _ _)

theorem exists_atLoop (calcFunc : CalcFunc) (numValues : Nat) (p : Fin 2) :
    ∃ tr st, (system calcFunc numValues).Runs tr st ∧ AtLoop p (firstIndex numValues p) st := by
  obtain ⟨m₁, a, hmain, hapc, hai, hbar₁⟩ := arrive_barrier calcFunc (t := main p)
    (m := (system calcFunc numValues).init.shared) (s := Worker.start numValues (main p)) rfl
  obtain ⟨m₂, b, hhyper, hbpc, hbi, hbar₂⟩ := arrive_barrier calcFunc
    (t := hyper p) (m := m₁) (s := Worker.start numValues (hyper p)) rfl
  rw [pair_main] at hapc hbar₁
  rw [pair_hyper, hbar₁] at hbpc hbar₂
  obtain ⟨st, hr, hmem, hm, hh⟩ := hmain.runs_both (main_ne_hyper p) hhyper
    (System.RunsWhere.init (S := system calcFunc numValues))
  have hphase : (st.shared.barriers p).phase = 1 := by
    rw [hmem, hbar₂]
    rfl
  have hmain' := leave_start calcFunc (t := main p) (m := st.shared)
    (hm ▸ hapc) (by rw [pair_main, hphase]; exact Nat.one_ne_zero)
  have hhyper' := leave_start calcFunc (t := hyper p) (m := st.shared)
    (hh ▸ hbpc) (by rw [pair_hyper, hphase]; exact Nat.one_ne_zero)
  obtain ⟨st', hr', hmem', hm', hh'⟩ := hmain'.runs_both (main_ne_hyper p) hhyper' hr
  refine ⟨_, st', hr', ⟨⟨?_, ?_⟩, ?_⟩⟩
  · rw [hm']
    refine ⟨rfl, ?_⟩
    show (st.regs (main p)).i = _
    rw [hm, hai]
    exact congrArg (firstIndex numValues) (pair_main p)
  · rw [hh']
    refine ⟨rfl, ?_⟩
    show (st.regs (hyper p)).i = _
    rw [hh, hbi]
    exact congrArg (firstIndex numValues) (pair_hyper p)
  · rw [hmem', hmem, hbar₂]
    rfl

theorem leave_barrier (h : (system calcFunc numValues).Runs tr st) (hat : AtBarrier p i st) :
    ∃ st', (system calcFunc numValues).Runs tr st' ∧ AtLoop p (i + 1) st' ∧
      st'.shared = st.shared := by
  obtain ⟨phase, ⟨⟨hmpc, hmi⟩, hhpc, hhi⟩, hbar⟩ := hat
  have hphase : (st.shared.barriers p).phase ≠ phase := by
    rw [hbar]
    exact Nat.succ_ne_self phase
  have hmain := leave_loop calcFunc (t := main p) hmpc
    (by rw [pair_main]; exact hphase)
  have hhyper := leave_loop calcFunc (t := hyper p) hhpc
    (by rw [pair_hyper]; exact hphase)
  obtain ⟨st', hr, hmem, hm, hh⟩ := hmain.runs_both (main_ne_hyper p) hhyper h
  rw [List.append_nil, List.append_nil] at hr
  refine ⟨st', hr, ⟨⟨?_, ?_⟩, ?_⟩, hmem⟩
  · rw [hm, hmi]
    exact ⟨rfl, rfl⟩
  · rw [hh, hhi]
    exact ⟨rfl, rfl⟩
  · rw [hmem, hbar]

theorem AtLoop.lt_endIndex (hat : AtLoop p i st) (h : (system calcFunc numValues).Runs tr st)
    (hlt : i < rangeEnd numValues numPairs p) :
    (st.regs (main p)).i < (st.regs (main p)).endIndex ∧
      (st.regs (hyper p)).i < (st.regs (hyper p)).endIndex := by
  obtain ⟨⟨⟨-, hmi⟩, -, hhi⟩, -⟩ := hat
  rw [(local_invariant h (main p)).endIndex, (local_invariant h (hyper p)).endIndex, pair_main,
    pair_hyper, hmi, hhi]
  exact ⟨hlt, hlt⟩

/-- The main thread goes first. -/
theorem ahead (h : (system calcFunc numValues).Runs tr st) (hat : AtLoop p i st)
    (hlt : i < rangeEnd numValues numPairs p) (hflag : st.shared.hyperThreadsFinished p = true) :
    ∃ st', (system calcFunc numValues).Runs (tr ++ [.calculated (main p) i,
        .compared (main p) i (calcFunc (main p) i) (st.shared.globalTempResults p),
        .calculated (hyper p) i]) st' ∧
      AtLoop p (i + 1) st' ∧ st'.shared.hyperThreadsFinished p = true ∧
      st'.shared.globalTempResults p = calcFunc (hyper p) i := by
  obtain ⟨hmend, hhend⟩ := hat.lt_endIndex h hlt
  obtain ⟨⟨⟨hmpc, hmi⟩, hhpc, hhi⟩, harr⟩ := hat
  obtain ⟨m₁, a, hmain, hapc, hai, hbar₁, -, -⟩ :=
    main_iteration calcFunc hmpc hmend hflag
  obtain ⟨m₂, b, hhyper, hbpc, hbi, hbar₂, hstored, hset⟩ :=
    hyper_iteration calcFunc (p := p) (m := m₁) hhpc hhend
  obtain ⟨st', hr, hmem, hm, hh⟩ := hmain.runs_both (main_ne_hyper p) hhyper h
  rw [hmi, hhi] at hr
  rw [Barrier.arrive_first harr] at hbar₁
  rw [hbar₁] at hbpc hbar₂
  have hat' : AtBarrier p i st' := by
    refine ⟨(st.shared.barriers p).phase, ⟨⟨?_, ?_⟩, ?_, ?_⟩, ?_⟩
    · rw [hm, hapc]
    · rw [hm, hai, hmi]
    · rw [hh, hbpc]
    · rw [hh, hbi, hhi]
    · rw [hmem, hbar₂]
      rfl
  obtain ⟨st'', hr', hloop, hsame⟩ := leave_barrier hr hat'
  refine ⟨st'', hr', hloop, ?_, ?_⟩
  · rw [hsame, hmem, hset]
  · rw [hsame, hmem, hstored, hhi]

/-- The hyper-thread goes first. -/
theorem lockstep (h : (system calcFunc numValues).Runs tr st) (hat : AtLoop p i st)
    (hlt : i < rangeEnd numValues numPairs p) :
    ∃ tr' st', (system calcFunc numValues).Runs tr' st' ∧ AtLoop p (i + 1) st' ∧
      st'.shared.globalTempResults p = calcFunc (hyper p) i ∧
      (calcFunc (main p) i ≠ calcFunc (hyper p) i →
        st'.shared.hyperThreadsFinished p = true) := by
  obtain ⟨hmend, hhend⟩ := hat.lt_endIndex h hlt
  obtain ⟨⟨⟨hmpc, hmi⟩, hhpc, hhi⟩, harr⟩ := hat
  obtain ⟨m₁, b, hhyper, hbpc, hbi, hbar₁, hstored, hset⟩ :=
    hyper_iteration calcFunc (p := p) (m := st.shared) hhpc hhend
  obtain ⟨m₂, a, hmain, hapc, hai, hbar₂, hsame, hflag⟩ :=
    main_iteration calcFunc hmpc hmend hset
  obtain ⟨st', hr, hmem, hh, hm⟩ := hhyper.runs_both (main_ne_hyper p).symm hmain h
  rw [Barrier.arrive_first harr] at hbar₁
  rw [hbar₁] at hapc hbar₂
  rw [hhi] at hstored
  rw [hmi, hstored] at hflag
  have hat' : AtBarrier p i st' := by
    refine ⟨(st.shared.barriers p).phase, ⟨⟨?_, ?_⟩, ?_, ?_⟩, ?_⟩
    · rw [hm, hapc]
    · rw [hm, hai, hmi]
    · rw [hh, hbpc]
    · rw [hh, hbi, hhi]
    · rw [hmem, hbar₂]
      rfl
  obtain ⟨st'', hr', hloop, hsame'⟩ := leave_barrier hr hat'
  refine ⟨_, st'', hr', hloop, ?_, fun hne => ?_⟩
  · rw [hsame', hmem, hsame, hstored]
  · rw [hsame', hmem]
    exact hflag hne

/-! ## The flag stays set -/

/-- A run to the start of iteration `i` after which the flag is set if there was a mismatch, and
with the flag set the value of the iteration before is there. -/
theorem exists_flagged (calcFunc : CalcFunc) (numValues : Nat) (p : Fin 2) (k : Nat)
    (hk : firstIndex numValues p + k ≤ rangeEnd numValues numPairs p) :
    ∃ tr st, (system calcFunc numValues).Runs tr st ∧
      AtLoop p (firstIndex numValues p + k) st ∧
      ((∃ j, j < k ∧ calcFunc (main p) (firstIndex numValues p + j) ≠
          calcFunc (hyper p) (firstIndex numValues p + j)) →
        st.shared.hyperThreadsFinished p = true) ∧
      ∀ j, k = j + 1 →
        st.shared.globalTempResults p = calcFunc (hyper p) (firstIndex numValues p + j) := by
  induction k with
  | zero =>
    obtain ⟨tr, st, hr, hat⟩ := exists_atLoop calcFunc numValues p
    refine ⟨tr, st, hr, hat, ?_, by simp⟩
    rintro ⟨j, hj, -⟩
    cases hj
  | succ k ih =>
    obtain ⟨tr, st, hr, hat, hmismatch, -⟩ := ih (by omega)
    have hlt : firstIndex numValues p + k < rangeEnd numValues numPairs p := by omega
    by_cases hflag : st.shared.hyperThreadsFinished p = true
    · obtain ⟨st', hr', hat', hflag', hstored⟩ := ahead hr hat hlt hflag
      refine ⟨_, st', hr', hat', fun _ => hflag', ?_⟩
      intro j hj
      cases hj
      exact hstored
    · obtain ⟨tr', st', hr', hat', hstored, hflag'⟩ := lockstep hr hat hlt
      refine ⟨tr', st', hr', hat', ?_, fun j hj => ?_⟩
      · rintro ⟨j, hj, hne⟩
        by_cases hjk : j = k
        · subst hjk
          exact hflag' hne
        · exact absurd (hmismatch ⟨j, by omega, hne⟩) hflag
      · cases hj
        exact hstored

/-- After a mismatch at `k`, a value can be compared with the one for the index before. -/
theorem exists_stale {k j : Nat} (hk : firstIndex numValues p ≤ k) (hkj : k ≤ j)
    (hj : j + 1 < rangeEnd numValues numPairs p)
    (hne : calcFunc (main p) k ≠ calcFunc (hyper p) k) :
    ∃ pre post st, (system calcFunc numValues).Runs (pre ++ .compared (main p) (j + 1)
        (calcFunc (main p) (j + 1)) (calcFunc (hyper p) j) :: post) st ∧
      lastIndex (hyper p) pre = some j := by
  obtain ⟨d, rfl⟩ := Nat.exists_eq_add_of_le hk
  obtain ⟨e, rfl⟩ := Nat.exists_eq_add_of_le (Nat.le_trans hk hkj)
  obtain ⟨tr, st, hr, hat, hmismatch, hstored⟩ :=
    exists_flagged calcFunc numValues p (e + 1) (by omega)
  obtain ⟨st', hr', -⟩ := ahead hr hat (by omega) (hmismatch ⟨d, by omega, hne⟩)
  rw [hstored e rfl] at hr'
  refine ⟨tr ++ [.calculated (main p) (firstIndex numValues p + (e + 1))],
    [.calculated (hyper p) (firstIndex numValues p + (e + 1))], st', ?_, ?_⟩
  · rw [List.append_assoc]
    exact hr'
  · -- the hyper-thread has not begun with its iteration
    have hlast := (indexed hr (hyper p)).stored (isHyperThread_hyper p) e
    obtain ⟨⟨-, hpc, hi⟩, -⟩ := hat
    rw [pair_hyper, Worker.stores, hpc, hi] at hlast
    rw [lastIndex_calculated, if_neg (main_ne_hyper p)]
    exact hlast (Nat.add_sub_cancel_left ..)

/-! ## The main result -/

/--
**When replication on hyper-threads is right.** For all values of `Affinity_CalcFunc` in each
thread and any number of them, these are equivalent:

* in every run, each comparison is of the values of both threads for the same index, and the
  results of threads 0 and 1 are the sums over the indices at which the values agree;
* in both pairs, the values do not differ at an index that another index of the range follows.
-/
theorem hyperReplicated_iff (calcFunc : CalcFunc) (numValues : Nat) :
    (∀ tr st, (system calcFunc numValues).Runs tr st → Correct calcFunc numValues tr st) ↔
      AgreeUntilLast calcFunc numValues := by
  constructor
  · intro hall p k hk hlt
    by_contra hne
    obtain ⟨pre, post, st, hr, hlast⟩ := exists_stale hk (Nat.le_refl k) hlt hne
    have hsame := ((hall _ st hr).sameIndex pre _ post rfl p _ _ _ rfl).2
    rw [hlast, Option.some.injEq] at hsame
    omega
  · intro ha tr st h
    exact correct_of_agree ha h

/-- A single fault, of thread 0 at index 0. -/
def oneFault : CalcFunc := fun t i => if t.val = 0 ∧ i = 0 then 1 else if i = 0 then 2 else 3

/-- With two values for each pair, thread 0 compares its value for index 1 with the value of thread
2 for index 0, and leaves out the index at which the values agree. -/
theorem oneFault_disturbs :
    ∃ tr st, (system oneFault 4).Runs tr st ∧ (st.regs 0).pc = .done ∧
      .compared 0 1 3 2 ∈ tr ∧ st.shared.results 0 = 0 ∧ ¬ Correct oneFault 4 tr st := by
  obtain ⟨tr, st, hr, hdone, hmem, hresult⟩ := (system oneFault 4).exists_runs
    (([0, 2, 0, 2] ++ [2, 2, 2, 2, 0, 0, 0, 0, 0, 0, 0, 2, 2] ++
      [0, 0, 0, 0, 0, 2, 2, 2, 2, 0, 0] ++ [0, 0] : List (Fin 4)).map fun t => (t, ()))
    (fun tr st => (st.regs 0).pc = .done ∧ .compared 0 1 3 2 ∈ tr ∧ st.shared.results 0 = 0)
    (by decide +kernel)
  refine ⟨tr, st, hr, hdone, hmem, hresult, ?_⟩
  intro hcorrect
  exact absurd (hcorrect.values 0 1 3 2 hmem).2 (by decide)

end HyperReplicated

end TsxProject
