import Mathlib.Algebra.BigOperators.Fin
import TsxProject.Infra.Fairness
import TsxProject.Replication.Agreement

/-!
# Replication on hyper-threads always ends

A mismatch leaves the flag of its pair set, so that later comparisons may be wrong, but it holds
up nobody: under a fair schedule all four threads finish, whatever the values are. Their results
are then those of `thread_task_normally_replicated`, and without faults they add up to those of
`thread_task_normal`.

* `flagged` — while a main thread waits, the flag says that its hyper-thread is ahead of it
* `both_done` — so the two threads of a pair do not wait for each other
* `fair_finishes` — every fair schedule finishes
* `fair_results`, `fair_total` — and what the results are then
-/

namespace TsxProject

open Infra

namespace HyperReplicated

variable {calcFunc : CalcFunc} {numValues : Nat} {t u : Fin 4} {p : Fin 2} {tr evs : List Event}
  {m m' : Memory} {s s' a b r : Worker} {st : State} {w : Unit}

/-! ## The flag, whatever the values are -/

/-- Who has stored a value for a round that the main thread is not through with has set the flag. -/
def Flagged (numValues : Nat) (p : Fin 2) (m : Memory) (a b : Worker) : Prop :=
  a.rounds (firstIndex numValues p) < b.rounds (firstIndex numValues p) →
    m.hyperThreadsFinished p = true

theorem Flagged.main_step (h : Flagged numValues p m a b)
    (hl : Local calcFunc numValues (main p) a)
    (hstores : b.stores (firstIndex numValues p) ≤ a.calls (firstIndex numValues p))
    (hs : (hyperReplicated calcFunc).next (main p) w m a = some (m', s', evs)) :
    Flagged numValues p m' s' b := by
  intro hlt
  have hge : firstIndex numValues p ≤ a.i := by
    have := hl.ge
    rwa [pair_main] at this
  cases step_cases hs with
  | wait site hpc =>
    refine h ?_
    cases site <;> simpa [Worker.rounds, hpc] using hlt
  | leave site phase hpc =>
    refine h ?_
    cases site <;> simpa [Worker.rounds, hpc, Site.next] using hlt
  | enter hpc | exit hpc | compute hpc | ready hpc | agree hpc | store hpc =>
    refine h ?_
    simpa [Worker.rounds, hpc] using hlt
  | differ hpc =>
    refine h (Nat.lt_of_le_of_lt ?_ hlt)
    simp [Worker.rounds, hpc]
  | share _ ht =>
    rw [isHyperThread_main] at ht
    cases ht
  | setFinished hpc =>
    have hhyper := hl.hyper hpc
    rw [isHyperThread_main] at hhyper
    cases hhyper
  | spin => exact h hlt
  | reset hpc =>
    -- the hyper-thread cannot be ahead of the barrier
    have hcalls : a.calls (firstIndex numValues p) = a.i - firstIndex numValues p + 1 := by
      simp [Worker.calls, hpc]
    have hrounds : Worker.rounds (firstIndex numValues p) { a with pc := .wait .loop } =
        a.i - firstIndex numValues p + 1 := rfl
    have hle := rounds_le_stores b (firstIndex numValues p)
    omega
  | next hpc =>
    refine h (Nat.lt_of_le_of_lt ?_ hlt)
    simp only [Worker.rounds, hpc]
    omega

theorem Flagged.hyper_step (h : Flagged numValues p m a b)
    (hl : Local calcFunc numValues (hyper p) b)
    (hs : (hyperReplicated calcFunc).next (hyper p) w m b = some (m', s', evs)) :
    Flagged numValues p m' a s' := by
  intro hlt
  have hge : firstIndex numValues p ≤ b.i := by
    have := hl.ge
    rwa [pair_hyper] at this
  have hnot : ¬ (b.pc = .spin ∨ b.pc = .compare ∨ b.pc = .reset) := by
    intro hc
    have hmain := (hl.main hc).1
    rw [isHyperThread_hyper] at hmain
    cases hmain
  cases step_cases hs with
  | wait site hpc =>
    refine h ?_
    cases site <;> simpa [Worker.rounds, hpc] using hlt
  | leave site phase hpc =>
    refine h ?_
    cases site <;> simpa [Worker.rounds, hpc, Site.next] using hlt
  | enter hpc | exit hpc | share hpc | store hpc =>
    refine h ?_
    simpa [Worker.rounds, hpc] using hlt
  | compute _ ht =>
    rw [isHyperThread_hyper] at ht
    cases ht
  | setFinished hpc =>
    rw [pair_hyper]
    exact Function.update_self ..
  | spin => exact h hlt
  | ready hpc => exact absurd (.inl hpc) hnot
  | agree hpc | differ hpc => exact absurd (.inr (.inl hpc)) hnot
  | reset hpc => exact absurd (.inr (.inr hpc)) hnot
  | next hpc =>
    refine h (Nat.lt_of_lt_of_le hlt ?_)
    simp only [Worker.rounds, hpc]
    omega

theorem flagged (h : (system calcFunc numValues).Runs tr st) (p : Fin 2) :
    Flagged numValues p st.shared (st.regs (main p)) (st.regs (hyper p)) := by
  refine h.rule (I := fun _ st =>
    Flagged numValues p st.shared (st.regs (main p)) (st.regs (hyper p))) ?_ ?_
  · intro hlt
    simp [system, Parallel.system, Worker.start, Worker.rounds, pair_main, pair_hyper] at hlt
  · intro l tr st st' evs hr ih _ hs
    obtain ⟨m, r, hx, rfl⟩ := Parallel.step_cases (P := hyperReplicated calcFunc) hs
    show Flagged numValues p m (Function.update st.regs l.1 r (main p))
      (Function.update st.regs l.1 r (hyper p))
    by_cases hmain : l.1 = main p
    · rw [hmain] at hx
      rw [hmain, Function.update_self, Function.update_of_ne (main_ne_hyper p).symm]
      exact ih.main_step (local_invariant hr _) (stores_le hr p) hx
    · by_cases hhyper : l.1 = hyper p
      · rw [hhyper] at hx
        rw [hhyper, Function.update_self, Function.update_of_ne (main_ne_hyper p)]
        exact ih.hyper_step (local_invariant hr _) hx
      · have hp : pair l.1 ≠ p := fun hc => (pair_eq_iff.mp hc).elim hmain hhyper
        obtain ⟨-, hflag, -⟩ := next_frame hx hp
        rw [Function.update_of_ne (Ne.symm hmain), Function.update_of_ne (Ne.symm hhyper)]
        intro hlt
        rw [hflag]
        exact ih hlt

/-! ## Who waits -/

/-- Thread `t` cannot go on until another thread has moved. -/
def Waits (t : Fin 4) (m : Memory) (s : Worker) : Prop :=
  match s.pc with
  | .done => True
  | .blocked _ phase => (m.barriers (pair t)).phase = phase
  | .spin => m.hyperThreadsFinished (pair t) = false
  | _ => False

/-- How far it is to the next iteration. -/
def Pc.offset : Pc → Nat
  | .wait .start => 13
  | .blocked .start _ => 12
  | .loop => 11
  | .compute => 10
  | .setFinished | .spin => 9
  | .compare => 8
  | .reset => 7
  | .wait .loop => 6
  | .blocked .loop _ => 5
  | .next => 4
  | .store => 1
  | .done => 0

def Worker.rank (s : Worker) : Nat := (s.endIndex - s.i) * 16 + s.pc.offset

theorem Local.next_work (hl : Local calcFunc numValues t s) (hnot : ¬ Waits t m s) :
    ∃ m' s' evs, (hyperReplicated calcFunc).next t () m s = some (m', s', evs) ∧
      s'.rank < s.rank := by
  have hlt := hl.lt
  obtain ⟨pc, i, endIndex, temp, loc⟩ := s
  dsimp only at hlt
  unfold Waits at hnot
  unfold hyperReplicated Worker.rank
  cases pc with
  | wait site => cases site <;> exact ⟨_, _, _, rfl, Nat.lt_succ_self _⟩
  | blocked site phase =>
    refine ⟨_, _, _, if_neg hnot, ?_⟩
    cases site <;> exact Nat.lt_succ_self _
  | loop =>
    refine ⟨_, _, _, rfl, ?_⟩
    dsimp only
    split <;> simp only [Pc.offset] <;> omega
  | compute =>
    dsimp only
    split <;> exact ⟨_, _, _, rfl, Nat.lt_succ_self _⟩
  | spin =>
    have hflag : m.hyperThreadsFinished (pair t) = true := Bool.eq_true_of_not_eq_false hnot
    refine ⟨_, _, _, rfl, ?_⟩
    dsimp only
    rw [if_pos hflag]
    exact Nat.lt_succ_self _
  | compare =>
    refine ⟨_, _, _, rfl, ?_⟩
    dsimp only
    split <;> simp only [Pc.offset] <;> omega
  | next =>
    have hbody := hlt rfl
    refine ⟨_, _, _, rfl, ?_⟩
    simp only [Pc.offset]
    omega
  | setFinished | reset | store =>
    refine ⟨_, _, _, rfl, ?_⟩
    simp only [Pc.offset]
    omega
  | done => exact absurd trivial hnot

/-- Who waits moves in the loop on the flag only, and changes nothing there. -/
theorem next_waits (hw : Waits t m s)
    (hs : (hyperReplicated calcFunc).next t w m s = some (m', s', evs)) : m' = m ∧ s' = s := by
  unfold Waits at hw
  cases hpc : s.pc with
  | blocked site phase =>
    rw [hpc] at hw
    simp only [hyperReplicated, hpc] at hs
    rw [if_pos hw] at hs
    cases hs
  | spin =>
    rw [hpc] at hw
    dsimp only at hw
    simp only [hyperReplicated, hpc, hw] at hs
    cases hs
    exact ⟨rfl, rfl⟩
  | done =>
    simp only [hyperReplicated, hpc] at hs
    cases hs
  | wait | loop | compute | setFinished | compare | reset | next | store =>
    rw [hpc] at hw
    exact hw.elim

/-! ## A pair does not block itself -/

/-- The places of a thread that waits, with the calls it has made. -/
theorem Local.waits_cases (hl : Local calcFunc numValues t s) (hw : Waits t m s) :
    s.pc = .done ∧ s.calls (firstIndex numValues (pair t)) =
        rangeEnd numValues numPairs (pair t) - firstIndex numValues (pair t) + 1 ∨
      s.pc.waiting = some (m.barriers (pair t)).phase ∨
      s.pc = .spin ∧ m.hyperThreadsFinished (pair t) = false := by
  have hended := hl.ended
  have hend := hl.endIndex
  unfold Waits at hw
  cases hpc : s.pc with
  | done =>
    refine .inl ⟨rfl, ?_⟩
    simp only [Worker.calls, hpc, hended (.inr hpc), hend]
  | blocked site phase =>
    rw [hpc] at hw
    exact .inr (.inl (congrArg some hw.symm))
  | spin =>
    rw [hpc] at hw
    exact .inr (.inr ⟨rfl, hw⟩)
  | wait | loop | compute | setFinished | compare | reset | next | store =>
    rw [hpc] at hw
    exact hw.elim

/-- A thread calls the barrier before the loop and once in each iteration. -/
theorem Local.calls_le (hl : Local calcFunc numValues t s) :
    s.calls (firstIndex numValues (pair t)) ≤
      rangeEnd numValues numPairs (pair t) - firstIndex numValues (pair t) + 1 := by
  have hle := hl.le
  have hge : firstIndex numValues (pair t) ≤ s.i := hl.ge
  have hlt := hl.lt
  rw [← hl.endIndex]
  cases hpc : s.pc with
  | wait site | blocked site phase =>
    cases site with
    | start => simp [Worker.calls, hpc]
    | loop =>
      have := hlt (by rw [hpc]; rfl)
      simp only [Worker.calls, hpc]
      omega
  | next =>
    have := hlt (by rw [hpc]; rfl)
    simp only [Worker.calls, hpc]
    omega
  | loop | compute | setFinished | spin | compare | reset | store | done =>
    simp only [Worker.calls, hpc]
    omega

theorem hyper_not_spin (hl : Local calcFunc numValues (hyper p) s) : s.pc ≠ .spin := by
  intro hpc
  have hmain := (hl.main (.inl hpc)).1
  rw [isHyperThread_hyper] at hmain
  cases hmain

/-- The hyper-thread of a main thread that waits for the flag has something to do. -/
theorem not_both_wait_spin (h : (system calcFunc numValues).Runs tr st)
    (hpc : (st.regs (main p)).pc = .spin)
    (hflag : st.shared.hyperThreadsFinished p = false) :
    ¬ Waits (hyper p) st.shared (st.regs (hyper p)) := by
  intro hw
  have hl := local_invariant h (main p)
  have hge : firstIndex numValues p ≤ (st.regs (main p)).i := by
    have := hl.ge
    rwa [pair_main] at this
  have hlt : (st.regs (main p)).i < rangeEnd numValues numPairs p := by
    have := hl.lt (by rw [hpc]; rfl)
    rwa [hl.endIndex, pair_main] at this
  have hrounds : (st.regs (main p)).rounds (firstIndex numValues p) =
      (st.regs (main p)).i - firstIndex numValues p := by
    simp only [Worker.rounds, hpc]
  have hcalls : (st.regs (main p)).calls (firstIndex numValues p) =
      (st.regs (main p)).i - firstIndex numValues p + 1 := by
    simp only [Worker.calls, hpc]
  -- it is not ahead, or else the flag would be set
  have hnot := mt (flagged h p) (by rw [hflag]; exact Bool.false_ne_true)
  have hbehind := calls_le_rounds (st.regs (hyper p)) (firstIndex numValues p)
  have hpaired := paired h p
  have hplace := (local_invariant h (hyper p)).waits_cases hw
  rw [pair_hyper] at hplace
  rcases hplace with ⟨-, hdone⟩ | hblocked | ⟨hspin, -⟩
  · omega
  · have hahead := hpaired.symm.calls_of_blocked hblocked
    simp only [party, pair_main, pair_hyper] at hahead
    omega
  · exact hyper_not_spin (local_invariant h (hyper p)) hspin

/-- If both threads of a pair wait, both are done. -/
theorem both_done (h : (system calcFunc numValues).Runs tr st)
    (hmain : Waits (main p) st.shared (st.regs (main p)))
    (hhyper : Waits (hyper p) st.shared (st.regs (hyper p))) :
    (st.regs (main p)).pc = .done ∧ (st.regs (hyper p)).pc = .done := by
  have hpaired := paired h p
  have hle := (local_invariant h (main p)).calls_le
  have hle' := (local_invariant h (hyper p)).calls_le
  have hplace := (local_invariant h (main p)).waits_cases hmain
  have hplace' := (local_invariant h (hyper p)).waits_cases hhyper
  rw [pair_main] at hle hplace
  rw [pair_hyper] at hle' hplace'
  rcases hplace with ⟨hdone, hcalls⟩ | hblocked | ⟨hspin, hflag⟩
  · rcases hplace' with ⟨hdone', -⟩ | hblocked' | ⟨hspin', -⟩
    · exact ⟨hdone, hdone'⟩
    · have hahead := hpaired.symm.calls_of_blocked hblocked'
      simp only [party, pair_main, pair_hyper] at hahead
      omega
    · exact absurd hspin' (hyper_not_spin (local_invariant h (hyper p)))
  · have hahead := hpaired.calls_of_blocked hblocked
    simp only [party, pair_main, pair_hyper] at hahead
    rcases hplace' with ⟨-, hcalls'⟩ | hblocked' | ⟨hspin', -⟩
    · omega
    · have hahead' := hpaired.symm.calls_of_blocked hblocked'
      simp only [party, pair_main, pair_hyper] at hahead'
      omega
    · exact absurd hspin' (hyper_not_spin (local_invariant h (hyper p)))
  · exact absurd hhyper (not_both_wait_spin h hspin hflag)

/-! ## The end of the schedule -/

/-- All threads have finished. -/
def AllDone (st : State) : Prop := ∀ t, (st.regs t).pc = .done

theorem live (calcFunc : CalcFunc) (numValues : Nat) :
    Live (system calcFunc numValues) Prod.fst AllDone (fun st => ∑ t, (st.regs t).rank)
      fun t st => Waits t st.shared (st.regs t) := by
  refine ⟨?_, ?_, ?_⟩
  · rintro ⟨t, ⟨⟩⟩ - st ⟨tr, hr⟩ - hnot
    obtain ⟨m, r, evs, hs, hlt⟩ := (local_invariant hr t).next_work hnot
    exact ⟨_, evs, Parallel.step_of_next hs, Parallel.sum_rank_lt Worker.rank hlt⟩
  · intro l _ st st' evs _ _ hw hs
    obtain ⟨m, r, hnext, rfl⟩ := Parallel.step_cases (P := hyperReplicated calcFunc) hs
    obtain ⟨rfl, rfl⟩ := next_waits hw hnext
    rw [Function.update_eq_self]
    exact .inr ⟨rfl, fun _ => id⟩
  · rintro _ _ st ⟨tr, hr⟩ hnot
    by_contra hall
    simp only [not_exists, not_not] at hall
    refine hnot fun t => ?_
    obtain ⟨hmain, hhyper⟩ := both_done hr (hall (main (pair t))) (hall (hyper (pair t)))
    rcases pair_eq_iff.mp (rfl : pair t = pair t) with ht | ht
    · rwa [← ht] at hmain
    · rwa [← ht] at hhyper

theorem AllDone.step {l : Fin 4 × Unit} {st st' : State} (h : AllDone st)
    (hs : (system calcFunc numValues).step l st = some (st', evs)) : AllDone st' := by
  obtain ⟨m, r, hnext, -⟩ := Parallel.step_cases (P := hyperReplicated calcFunc) hs
  unfold hyperReplicated at hnext
  simp only [h l.1] at hnext
  cases hnext

theorem exists_allDone (calcFunc : CalcFunc) (numValues : Nat) {sched : Nat → Fin 4 × Unit}
    (hfair : Fair Prod.fst sched) :
    ∃ n, ∀ m, n ≤ m → AllDone ((system calcFunc numValues).play sched m).1 := by
  obtain ⟨n, -, hn⟩ := (live calcFunc numValues).reaches hfair 0
  exact ⟨n, fun m hnm => System.play_keeps (fun _ hdone hs => hdone.step hs) hnm hn⟩

/-- **Every schedule finishes.** Whatever values the threads compute, and however often they differ:
if every thread gets its turn again and again, then all four threads come to their ends. -/
theorem fair_finishes {sched : Nat → Fin 4 × Unit} (hfair : Fair Prod.fst sched) :
    ∃ n, ∀ m, n ≤ m → AllDone ((system calcFunc numValues).play sched m).1 :=
  exists_allDone calcFunc numValues hfair

/-- Threads that never agree. -/
theorem fair_finishes_differing : ∃ n, ∀ m, n ≤ m →
    AllDone ((system (fun t _ => BitVec.ofNat 64 t) 5).play (roundRobin 3) m).1 :=
  fair_finishes (fair_roundRobin 3)

/-! ## Without a second thread -/

/-- The loop of `thread_task_normally_replicated` from index `i` on. `v1` and `v2` are what the two
calls of `Affinity_CalcFunc` return. -/
def replicatedLoop (v1 v2 : Nat → Value) (endIndex i : Nat) (tempResult : Value) : Value :=
  if i < endIndex then
    replicatedLoop v1 v2 endIndex (i + 1) (if v1 i = v2 i then tempResult + v1 i else tempResult)
  else tempResult
termination_by endIndex - i

/-- The `tempResult` of `thread_task_normally_replicated`, which it stores as a double. -/
def taskNormallyReplicated (v1 v2 : Nat → Value) (numValues numThreads threadId : Nat) : Value :=
  replicatedLoop v1 v2 (rangeEnd numValues numThreads threadId)
    (rangeStart numValues numThreads threadId) 0

/-- The `tempResult` of `thread_task_normal`, which it stores as a double. -/
def taskNormal (calcFunc : Nat → Value) (numValues numThreads threadId : Nat) : Value :=
  rangeLoop (fun i => calcFunc i.toNat) (rangeEnd numValues numThreads threadId)
    (rangeStart numValues numThreads threadId) 0

theorem replicatedLoop_eq (v1 v2 : Nat → Value) {i endIndex : Nat} (hle : i ≤ endIndex)
    (tempResult : Value) :
    replicatedLoop v1 v2 endIndex i tempResult =
      tempResult + ∑ j ∈ (Finset.Ico i endIndex).filter fun j => v1 j = v2 j, v1 j := by
  induction hk : endIndex - i generalizing i tempResult with
  | zero =>
    obtain rfl : i = endIndex := by omega
    rw [replicatedLoop, if_neg (Nat.lt_irrefl i), Finset.Ico_self, Finset.filter_empty,
      Finset.sum_empty, add_zero]
  | succ k ih =>
    have hlt : i < endIndex := by omega
    rw [replicatedLoop, if_pos hlt, ih hlt _ (by omega), Finset.sum_filter, Finset.sum_filter,
      Finset.sum_eq_sum_Ico_succ_bot hlt, ← add_assoc]
    split
    · rfl
    · rw [add_zero]

theorem taskNormallyReplicated_eq (v1 v2 : Nat → Value) (numThreads threadId : Nat) :
    taskNormallyReplicated v1 v2 numValues numThreads threadId =
      ∑ i ∈ (Finset.Ico (rangeStart numValues numThreads threadId)
        (rangeEnd numValues numThreads threadId)).filter fun i => v1 i = v2 i, v1 i := by
  unfold taskNormallyReplicated
  rw [replicatedLoop_eq _ _ rangeStart_le_end, zero_add]

theorem taskNormal_eq (f : Nat → Value) (numThreads threadId : Nat) :
    taskNormal f numValues numThreads threadId =
      ∑ i ∈ Finset.Ico (rangeStart numValues numThreads threadId)
        (rangeEnd numValues numThreads threadId), f i := by
  unfold taskNormal
  rw [rangeLoop_eq _ rangeStart_le_end, zero_add]
  rfl

/-- Hyper-threads add nothing up. -/
theorem hyper_results (h : (system calcFunc numValues).Runs tr st) (p : Fin 2) :
    (st.regs (hyper p)).tempResult = 0 ∧ st.shared.results (hyper p) = 0 := by
  refine Parallel.rule (P := hyperReplicated calcFunc)
    (I := fun t _ m s => t = hyper p → s.tempResult = 0 ∧ m.results t = 0) ?_ ?_ ?_ h (hyper p) rfl
  · intro t _
    exact ⟨rfl, rfl⟩
  · rintro t w tr s m r evs hr hI - hs rfl
    obtain ⟨htemp, hres⟩ := hI _ rfl
    cases step_cases hs with
    | agree hpc =>
      have hmain := ((local_invariant hr (hyper p)).main (.inr (.inl hpc))).1
      rw [isHyperThread_hyper] at hmain
      cases hmain
    | store =>
      refine ⟨htemp, ?_⟩
      dsimp only
      rw [Function.update_self, htemp]
      rfl
    | wait | leave | enter | exit | share | compute | setFinished | spin | ready | differ | reset
    | next => exact ⟨htemp, hres⟩
  · rintro t u w tr s m r evs - hI hne hs rfl
    rw [(next_other hs hne).1]
    exact hI _ rfl

/-- **The fast replication computes what the plain one does.** If the value of a hyper-thread stays
the same after a mismatch, every fair schedule ends with the sums of
`thread_task_normally_replicated` on half as many threads, and with the results that it stores, the
hyper-threads adding nothing. -/
theorem fair_results (hu : Undisturbed calcFunc numValues) {sched : Nat → Fin 4 × Unit}
    (hfair : Fair Prod.fst sched) : ∃ n, ∀ m, n ≤ m →
      AllDone ((system calcFunc numValues).play sched m).1 ∧
      ∀ p, (((system calcFunc numValues).play sched m).1.regs (main p)).tempResult =
          taskNormallyReplicated (calcFunc (main p)) (calcFunc (hyper p)) numValues numPairs p ∧
        ((system calcFunc numValues).play sched m).1.shared.results (main p) =
          toDouble (taskNormallyReplicated (calcFunc (main p)) (calcFunc (hyper p)) numValues
            numPairs p).toInt ∧
        ((system calcFunc numValues).play sched m).1.shared.results (hyper p) = 0 := by
  obtain ⟨n, hn⟩ := exists_allDone calcFunc numValues hfair
  refine ⟨n, fun m hnm => ⟨hn m hnm, fun p => ?_⟩⟩
  obtain ⟨htemp, hres⟩ := tempResult_eq hu (System.runs_play m) (hn m hnm (main p))
  have heq : (((system calcFunc numValues).play sched m).1.regs (main p)).tempResult =
      taskNormallyReplicated (calcFunc (main p)) (calcFunc (hyper p)) numValues numPairs p := by
    rw [htemp, taskNormallyReplicated_eq, agreeing]
  refine ⟨heq, ?_, (hyper_results (System.runs_play m) p).2⟩
  rw [hres, heq]

/-- A mismatch in the last iteration, which nothing follows. -/
theorem fair_results_last : ∃ n, ∀ m, n ≤ m →
    let calcFunc : CalcFunc := fun t i => if t.val = 2 ∧ i = 1 then 7 else 1
    let st := ((system calcFunc 4).play (roundRobin 3) m).1
    AllDone st ∧ ∀ p,
      (st.regs (main p)).tempResult =
          taskNormallyReplicated (calcFunc (main p)) (calcFunc (hyper p)) 4 numPairs p ∧
        st.shared.results (main p) = toDouble
          (taskNormallyReplicated (calcFunc (main p)) (calcFunc (hyper p)) 4 numPairs p).toInt ∧
        st.shared.results (hyper p) = 0 := by
  refine fair_results ?_ (fair_roundRobin 3)
  intro p k j hk hkj hj hne
  have hp : p = 0 ∨ p = 1 := by omega
  rcases hp with rfl | rfl
  · have hend : rangeEnd 4 numPairs (0 : Fin 2) = 2 := rfl
    have hne' : k = 1 := by
      by_contra hk1
      exact hne (by simp [hk1])
    omega
  · exact absurd (by simp [main, hyper]) hne

/-! ## Without faults -/

/-- Values as `Affinity_CalcFunc` returns them, which takes them modulo 100. -/
def Small (f : Nat → Value) : Prop := ∀ i, (f i).toInt.natAbs < 100

/-- No sum of such values gets out of a double. -/
theorem Small.natAbs_sum_lt {f : Nat → Value} (hf : Small f) {a b : Nat} (hle : b - a < 2 ^ 31) :
    (∑ i ∈ Finset.Ico a b, (f i).toInt).natAbs < 2 ^ 53 := by
  have hsum : (∑ i ∈ Finset.Ico a b, (f i).toInt).natAbs ≤ ∑ i ∈ Finset.Ico a b, 100 :=
    Int.natAbs_sum_le _ _ |>.trans (Finset.sum_le_sum fun i _ => Nat.le_of_lt (hf i))
  rw [Finset.sum_const, Nat.card_Ico, smul_eq_mul] at hsum
  omega

theorem Small.toDouble_sum {f : Nat → Value} (hf : Small f) {a b : Nat} (hle : b - a < 2 ^ 31) :
    toDouble (∑ i ∈ Finset.Ico a b, f i).toInt = ∑ i ∈ Finset.Ico a b, (f i).toInt :=
  Infra.toDouble_sum (hf.natAbs_sum_lt hle)

/-- **Without faults replication changes nothing.** Every fair schedule ends with results that add
up to the sum of all values, and so to what the threads of `thread_task_normal` store together,
however many they are. -/
theorem fair_total (f : Nat → Value) (hf : Small f) (hint : numValues < 2 ^ 31) (numThreads : Nat)
    (hpos : 0 < numThreads) {sched : Nat → Fin 4 × Unit} (hfair : Fair Prod.fst sched) :
    ∃ n, ∀ m, n ≤ m →
      AllDone ((system (fun _ => f) numValues).play sched m).1 ∧
      ∑ t, ((system (fun _ => f) numValues).play sched m).1.shared.results t =
        ∑ i ∈ Finset.range numValues, (f i).toInt ∧
      ∑ t, ((system (fun _ => f) numValues).play sched m).1.shared.results t =
        ∑ t ∈ Finset.range numThreads, toDouble (taskNormal f numValues numThreads t).toInt := by
  obtain ⟨n, hn⟩ := exists_allDone (fun _ => f) numValues hfair
  have hu : Undisturbed (fun _ => f) numValues := fun _ _ _ _ _ _ hne => absurd rfl hne
  have htasks :
      ∑ t ∈ Finset.range numThreads, toDouble (taskNormal f numValues numThreads t).toInt =
        ∑ i ∈ Finset.range numValues, (f i).toInt := by
    rw [← sum_range_lengths hpos fun i => (f i).toInt]
    refine Finset.sum_congr rfl fun t ht => ?_
    have hend : rangeEnd numValues numThreads t ≤ numValues :=
      rangeEnd_le (Finset.mem_range.mp ht)
    rw [taskNormal_eq, hf.toDouble_sum (by omega)]
  refine ⟨n, fun m hnm => ⟨hn m hnm, ?_⟩⟩
  rw [htasks, and_self]
  have hr : (system (fun _ => f) numValues).Runs ((system (fun _ => f) numValues).play sched m).2
      ((system (fun _ => f) numValues).play sched m).1 := System.runs_play m
  have hmain (p : Fin 2) :
      ((system (fun _ => f) numValues).play sched m).1.shared.results (main p) =
        ∑ i ∈ Finset.Ico (rangeStart numValues numPairs p) (rangeEnd numValues numPairs p),
          (f i).toInt := by
    have hend : rangeEnd numValues numPairs p ≤ numValues := rangeEnd_le p.isLt
    obtain ⟨htemp, hres⟩ := tempResult_eq hu hr (hn m hnm (main p))
    rw [hres, htemp, agreeing, Finset.filter_true_of_mem fun _ _ => rfl,
      hf.toDouble_sum (by omega)]
  have hsum : ∀ g : Fin 4 → Int, ∑ t, g t = ∑ p, g (main p) + ∑ p, g (hyper p) := by
    intro g
    rw [Fin.sum_univ_four, Fin.sum_univ_two, Fin.sum_univ_two, add_assoc]
    rfl
  simp only [hsum, hmain, (hyper_results hr _).2, Finset.sum_const_zero, add_zero]
  rw [← Finset.sum_range fun p => ∑ i ∈ Finset.Ico (rangeStart numValues numPairs p)
    (rangeEnd numValues numPairs p), (f i).toInt]
  exact sum_range_lengths (by decide) _

/-- Seven threads for five values. -/
theorem fair_total_seven : ∃ n, ∀ m, n ≤ m →
    let st := ((system (fun _ i => BitVec.ofNat 64 (i % 100)) 5).play (roundRobin 3) m).1
    AllDone st ∧
      ∑ t, st.shared.results t =
        ∑ i ∈ Finset.range 5, (BitVec.ofNat 64 (i % 100)).toInt ∧
      ∑ t, st.shared.results t = ∑ t ∈ Finset.range 7,
        toDouble (taskNormal (fun i => BitVec.ofNat 64 (i % 100)) 5 7 t).toInt := by
  refine fair_total (fun i => BitVec.ofNat 64 (i % 100)) ?_ (by decide) 7 (by decide)
    (fair_roundRobin 3)
  intro i
  have hlt : i % 100 < 100 := Nat.mod_lt i (by decide)
  rw [BitVec.toInt_eq_toNat_of_lt] <;> rw [BitVec.toNat_ofNat, Nat.mod_eq_of_lt (by omega)] <;>
    omega

end HyperReplicated

end TsxProject
