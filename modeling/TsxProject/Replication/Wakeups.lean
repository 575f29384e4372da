import TsxProject.Infra.Fairness
import TsxProject.Replication.Retry

/-!
# Spurious wake-ups

The two threads of `ThreadReplicationFunc_SignalSync` under fair schedules. Every step but a
spurious wake-up gets the run on, so that both threads finish when there are no more of these. While
there are, thread 1 may take the mutex whenever thread 0 does not try to.

* `fair_completes` — both threads finish
* `exists_starved` — thread 0 never gets the mutex
-/

namespace TsxProject

open Infra

namespace SignalSync

variable {numValues : Nat} {t : Fin 2} {tr evs : List Event} {m m' : Memory} {s s' : Worker}
  {st : State}

/-! ## Without spurious wake-ups -/

/-- Without a spurious wake-up, a thread that has a step is not blocked. -/
theorem ready_of_next (hs : (signalSync numValues).next t false m s = some (m', s', evs)) :
    Ready t m s where
  undone := by
    intro hpc
    simp only [signalSync, hpc] at hs
    cases hs
  free := by
    rintro (hpc | hpc) <;>
    · simp only [signalSync, hpc] at hs
      split at hs
      · assumption
      · cases hs
  awake := by
    intro hpc
    simp only [signalSync, hpc] at hs
    split at hs
    · cases hs
    · next hfree => simpa using hfree

/-- Every other step gets the run on. -/
theorem Inv.rank_lt (h : Inv numValues tr st)
    (hs : (signalSync numValues).next t false st.shared (st.regs t) = some (m', s', evs)) :
    rank numValues (tr ++ evs) ⟨m', Function.update st.regs t s'⟩ < rank numValues tr st := by
  obtain ⟨hpublish, hcompare, hsignal⟩ := h.place t
  refine Finset.sum_lt_sum (fun u _ => ?_) ⟨t, Finset.mem_univ t, ?_⟩
  · by_cases hu : u = t
    · subst hu
      dsimp only
      rw [Function.update_self]
      exact Nat.le_of_lt (rankOf_own (h.position u) hpublish hcompare (ready_of_next hs).awake hs)
    · dsimp only
      rw [Function.update_of_ne hu]
      exact rankOf_other hu hpublish hcompare (hsignal u hu) hs tr (st.regs u)
  · dsimp only
    rw [Function.update_self]
    exact rankOf_own (h.position t) hpublish hcompare (ready_of_next hs).awake hs

theorem live (numValues : Nat) :
    LiveWhere (system numValues) Prod.fst
      (fun l tr st => (system numValues).RunsWhere (fun l st => ¬ Overtakes l st) tr st ∧
        l.2 = false)
      Finished (rank numValues) fun t st => ¬ Ready t st.shared (st.regs t) where
  work := by
    rintro ⟨t, w⟩ tr st ⟨hr, rfl⟩ - hready
    obtain ⟨m', s', evs, hs⟩ := (not_not.mp hready).exists_next numValues
    exact ⟨_, evs, Parallel.step_of_next hs, (inv hr).rank_lt hs⟩
  wait := by
    rintro ⟨t, w⟩ tr st st' evs ⟨-, rfl⟩ - hready hs
    obtain ⟨m', s', hx, -⟩ := Parallel.step_cases (P := signalSync numValues) hs
    exact absurd (ready_of_next hx) hready
  exists_working := by
    rintro - tr st ⟨hr, -⟩ hfinal
    obtain ⟨⟨t, w⟩, st', evs, ⟨-, rfl⟩, hs, -⟩ := advances hr hfinal
    obtain ⟨m', s', hx, -⟩ := Parallel.step_cases (P := signalSync numValues) hs
    exact ⟨t, not_not.mpr (ready_of_next hx)⟩

theorem Finished.step {l : Fin 2 × Bool} {st' : State} (h : Finished st)
    (hs : (system numValues).step l st = some (st', evs)) : Finished st' := by
  obtain ⟨m', s', hx, -⟩ := Parallel.step_cases (P := signalSync numValues) hs
  simp only [signalSync, h l.1] at hx
  cases hx

/-- Thread 1 cannot overtake thread 0 where there is no index 8, or does not. -/
theorem runs_in_turn {sched : Nat → Fin 2 × Bool}
    (hturn : numValues ≤ 8 ∨ ∀ m, ¬ Overtakes (sched m) ((system numValues).play sched m).1)
    (m : Nat) :
    (system numValues).RunsWhere (fun l st => ¬ Overtakes l st)
      ((system numValues).play sched m).2 ((system numValues).play sched m).1 := by
  rcases hturn with hle | hturn
  · exact runs_never_overtake hle (System.runs_play m)
  · exact System.runsWhere_play hturn m

/-- **Both threads finish**, and neither has counted an index twice or left one out, under every
fair schedule in which the spurious wake-ups come to an end and no retry overtakes thread 0. -/
theorem fair_completes {sched : Nat → Fin 2 × Bool} (hfair : Fair Prod.fst sched)
    (hturn : numValues ≤ 8 ∨ ∀ m, ¬ Overtakes (sched m) ((system numValues).play sched m).1)
    {k : Nat} (hsignal : ∀ m, k ≤ m → (sched m).2 = false) :
    ∃ n, ∀ m, n ≤ m → Finished ((system numValues).play sched m).1 ∧
      ∀ t, (((system numValues).play sched m).1.regs t).result = numValues := by
  have hruns := runs_in_turn hturn
  obtain ⟨n, -, hn⟩ := (live numValues).reaches hfair fun m hm => ⟨hruns m, hsignal m hm⟩
  refine ⟨n, ?_⟩
  intro m hm
  have hfinished := System.play_keeps (fun _ hdone hs => hdone.step hs) hm hn
  exact ⟨hfinished, fun t => (inv (hruns m)).agreement.result t (hfinished t)⟩

/-- Five wake-ups at most are spurious. -/
theorem fair_completes_eight : ∃ n, ∀ m, n ≤ m →
    let st := ((system 8).play (fun j => ((roundRobin 1 j).1, decide (j < 5))) m).1
    Finished st ∧ ∀ t, (st.regs t).result = (8 : Nat) := by
  refine fair_completes (k := 5) (fair_roundRobin 1) (.inl (Nat.le_refl 8)) ?_
  intro m hm
  exact decide_eq_false (Nat.not_lt.mpr hm)

/-! ## With spurious wake-ups -/

/-- The first turns, and then the same six turns again and again. -/
def phase (n : Nat) : Nat := if n < 16 then n else 10 + (n - 10) % 6

/-- Thread 0 comes to the mutex first, and gets its other turns while thread 1 has it. -/
def starving (n : Nat) : Fin 2 × Bool :=
  (if phase n < 2 ∨ phase n = 12 then ⟨0, by decide⟩ else ⟨1, by decide⟩, true)

theorem phase_lt (n : Nat) : phase n < 16 := by
  unfold phase
  split <;> omega

theorem phase_succ (n : Nat) : phase (n + 1) = if phase n = 15 then 10 else phase n + 1 := by
  unfold phase
  split <;> split <;> split <;> omega

theorem phase_add {r : Nat} (hr : r < 6) (n : Nat) : phase (6 * (n + 2) + 4 + r) = 10 + r := by
  rw [phase, if_neg (by omega)]
  omega

theorem fair_starving : Fair Prod.fst starving := by
  intro t n
  obtain rfl | rfl : t = 0 ∨ t = 1 := by omega
  · refine ⟨6 * (n + 2) + 4 + 2, by omega, ?_⟩
    rw [starving, phase_add (by decide)]
    rfl
  · refine ⟨6 * (n + 2) + 4 + 0, by omega, ?_⟩
    rw [starving, phase_add (by decide)]
    rfl

/-- Where thread 1 goes on while no comparison is made. -/
def Pc.follow : Pc → Pc
  | .loop => .calculate
  | .calculate => .inject
  | .inject => .lock
  | .lock => .publish
  | .publish | .reacquire => .test
  | .test => .signal
  | .signal => .wait
  | .wait => .waiting
  | .waiting => .reacquire
  | pc => pc

/-- Thread 1 alone with the mutex. -/
structure Rules (m : Memory) (s : Worker) : Prop where
  index : s.i = 0
  mutex : m.syncMutex = if s.pc.holds then some 1 else none
  status : s.pc = .test → m.iterationStatus = .replicationFinished

/-- With an index 0, thread 1 goes on, be it by a spurious wake-up. -/
theorem Rules.step (h : Rules m s) (hpos : 0 < numValues) (hpc : s.pc.follow ≠ s.pc) :
    ∃ m' s' evs, (signalSync numValues).next 1 true m s = some (m', s', evs) ∧
      s'.pc = s.pc.follow ∧ s'.i = 0 ∧ m'.syncMutex = (if s'.pc.holds then some 1 else none) ∧
      m'.iterationStatus =
        (if s.pc = .publish then .replicationFinished else m.iterationStatus) ∧
      (s.pc = .wait → m'.blocked 1 = true) ∧ comparisons evs = [] := by
  obtain ⟨pc, i, result⟩ := s
  obtain ⟨rfl, hmutex, hstatus⟩ := h
  have hlt : (0 : Int) < numValues := Int.natCast_pos.mpr hpos
  cases pc with
  | loop =>
    refine ⟨_, _, _, rfl, if_pos hlt, rfl, ?_, rfl, nofun, rfl⟩
    simp only [if_pos hlt]
    exact hmutex
  | calculate => exact ⟨_, _, _, rfl, rfl, rfl, hmutex, rfl, nofun, rfl⟩
  | inject => exact ⟨_, _, _, rfl, rfl, rfl, hmutex, rfl, nofun, rfl⟩
  | lock => exact ⟨_, _, _, if_pos hmutex, rfl, rfl, rfl, rfl, nofun, rfl⟩
  | publish => exact ⟨_, _, _, rfl, rfl, rfl, hmutex, rfl, nofun, rfl⟩
  | test =>
    have hless : m.iterationStatus.toNat < 2 := by
      rw [hstatus rfl]
      decide
    refine ⟨_, _, _, rfl, if_pos hless, rfl, ?_, rfl, nofun, rfl⟩
    simp only [if_pos hless]
    exact hmutex
  | signal => exact ⟨_, _, _, rfl, rfl, rfl, hmutex, rfl, nofun, rfl⟩
  | wait =>
    refine ⟨_, _, _, rfl, rfl, rfl, rfl, rfl, fun _ => ?_, rfl⟩
    show Function.update m.blocked 1 true 1 = true
    exact Function.update_self ..
  | waiting => exact ⟨_, _, _, if_neg (by simp), rfl, rfl, hmutex, rfl, nofun, rfl⟩
  | reacquire => exact ⟨_, _, _, if_pos hmutex, rfl, rfl, rfl, rfl, nofun, rfl⟩
  | compare | unlock | check | add | next | done => exact absurd rfl hpc

/-- Where thread 1 is in a phase. -/
def replicaPc : Nat → Pc
  | 0 | 1 | 2 => .loop
  | 3 => .calculate
  | 4 => .inject
  | 5 => .lock
  | 6 => .publish
  | 7 | 12 | 13 => .test
  | 8 | 14 => .signal
  | 10 => .waiting
  | 11 => .reacquire
  | _ => .wait

/-- Where thread 0 is. -/
def mainPc : Nat → Pc
  | 0 => .loop
  | 1 => .calculate
  | _ => .lock

/-- The phase after a phase. -/
def after (p : Nat) : Nat := if p = 15 then 10 else p + 1

/-- Thread 1 follows its phases, and thread 0 waits for the mutex. -/
theorem phases : ∀ p < 16,
    (¬ (p < 2 ∨ p = 12) → replicaPc (after p) = (replicaPc p).follow ∧
      mainPc (after p) = mainPc p ∧ (replicaPc p).follow ≠ replicaPc p) ∧
      (replicaPc (after p) = .test → 7 ≤ after p) ∧
      (after p = 10 → replicaPc p = .wait) := by decide

/-- In phase `p`. -/
structure Starved (p : Nat) (tr : List Event) (st : State) : Prop where
  main : (st.regs 0).pc = mainPc p
  index : (st.regs 0).i = 0
  replica : (st.regs 1).pc = replicaPc p
  rules : Rules st.shared (st.regs 1)
  status : 7 ≤ p → st.shared.iterationStatus = .replicationFinished
  asleep : p = 10 → st.shared.blocked 1 = true
  uncompared : comparisons tr = []

theorem comparisons_append {tr' : List Event} (h : comparisons tr = [])
    (h' : comparisons tr' = []) : comparisons (tr ++ tr') = [] := by
  rw [comparisons, List.filterMap_append]
  exact List.append_eq_nil_iff.mpr ⟨h, h'⟩

/-- A turn of thread 1. -/
theorem Starved.replica_turn {p : Nat} (h : Starved p tr st) (hpos : 0 < numValues)
    (hp : p < 16) (hturn : ¬ (p < 2 ∨ p = 12)) :
    ∃ st' evs, (system numValues).step (1, true) st = some (st', evs) ∧
      Starved (after p) (tr ++ evs) st' := by
  obtain ⟨hmain, hi, hreplica, hrules, hstatus, -, hcompared⟩ := h
  obtain ⟨hphase, htest, hwait⟩ := phases p hp
  obtain ⟨hfollow, hstay, hmove⟩ := hphase hturn
  obtain ⟨m', s', evs, hs, hpc', hi', hmutex', hstatus', hblocked, hevs⟩ :=
    hrules.step hpos (by rw [hreplica]; exact hmove)
  have hpc : s'.pc = replicaPc (after p) := by rw [hpc', hreplica, hfollow]
  have hnew : 7 ≤ after p → m'.iterationStatus = .replicationFinished := by
    intro hle
    rw [hstatus']
    split
    · rfl
    · next hne =>
      refine hstatus ?_
      -- thread 1 leaves phase 6 with its store
      have hsix : p ≠ 6 := by
        rintro rfl
        exact hne hreplica
      unfold after at hle
      split at hle <;> omega
  refine ⟨_, evs, Parallel.step_of_next hs,
    ⟨?_, ?_, ?_, ?_, hnew, ?_, comparisons_append hcompared hevs⟩⟩
  · dsimp only
    rw [Function.update_of_ne (by decide), hmain, hstay]
  · dsimp only
    rw [Function.update_of_ne (by decide), hi]
  · dsimp only
    rw [Function.update_self, hpc]
  · dsimp only
    rw [Function.update_self]
    exact ⟨hi', hmutex', fun htest' => hnew (htest (hpc.symm.trans htest'))⟩
  · intro hten
    exact hblocked (hreplica.trans (hwait hten))

/-- A turn of thread 0: at first it comes to the mutex, which is never free then. -/
theorem Starved.main_turn {p : Nat} (h : Starved p tr st) (hpos : 0 < numValues)
    (hturn : p < 2 ∨ p = 12) :
    (∃ st' evs, (system numValues).step (0, true) st = some (st', evs) ∧
        Starved (after p) (tr ++ evs) st') ∨
      (system numValues).step (0, true) st = none ∧ Starved (after p) tr st := by
  obtain ⟨hmain, hi, hreplica, hrules, hstatus, -, hcompared⟩ := h
  have hlt : (st.regs 0).i < numValues := by
    rw [hi]
    exact Int.natCast_pos.mpr hpos
  obtain rfl | rfl | rfl : p = 0 ∨ p = 1 ∨ p = 12 := by omega
  · have hs : (signalSync numValues).next 0 true st.shared (st.regs 0) =
        some (st.shared, { st.regs 0 with pc := .calculate }, []) := by
      simp only [signalSync, hmain, mainPc, if_pos hlt]
    refine .inl ⟨_, [], Parallel.step_of_next hs, ⟨?_, ?_, ?_, ?_, ?_, ?_, ?_⟩⟩
    · dsimp only
      rw [Function.update_self]
      rfl
    · dsimp only
      rw [Function.update_self]
      exact hi
    · exact hreplica
    · exact hrules
    · intro hle
      exact absurd hle (by decide)
    · intro hten
      exact absurd hten (by decide)
    · rw [List.append_nil]
      exact hcompared
  · have hs : (signalSync numValues).next 0 true st.shared (st.regs 0) =
        some ({ st.shared with v1 := calcFun (st.regs 0).i }, { st.regs 0 with pc := .lock },
          [.calculated 0 (st.regs 0).i]) := by
      simp [signalSync, hmain, mainPc]
    refine .inl ⟨_, _, Parallel.step_of_next hs, ⟨?_, ?_, ?_, ?_, ?_, ?_, ?_⟩⟩
    · dsimp only
      rw [Function.update_self]
      rfl
    · dsimp only
      rw [Function.update_self]
      exact hi
    · exact hreplica
    · exact ⟨hrules.index, hrules.mutex, hrules.status⟩
    · intro hle
      exact absurd hle (by decide)
    · intro hten
      exact absurd hten (by decide)
    · exact comparisons_append hcompared rfl
  · refine .inr ⟨Option.map_eq_none_iff.mpr ?_, ⟨hmain, hi, hreplica, hrules, ?_, ?_, hcompared⟩⟩
    · have hmutex := hrules.mutex
      rw [hreplica] at hmutex
      simp only [signalSync, hmain, mainPc, hmutex, replicaPc, Pc.holds, if_true, reduceCtorEq,
        if_false]
    · intro _
      exact hstatus (by decide)
    · intro hten
      exact absurd hten (by decide)

theorem starved (hpos : 0 < numValues) (n : Nat) :
    Starved (phase n) ((system numValues).play starving n).2
      ((system numValues).play starving n).1 := by
  induction n with
  | zero =>
    refine ⟨rfl, rfl, rfl, ⟨rfl, rfl, ?_⟩, ?_, ?_, rfl⟩
    · intro hpc
      cases hpc
    · intro hle
      exact absurd hle (by decide)
    · intro hten
      exact absurd hten (by decide)
  | succ n ih =>
    rw [phase_succ]
    by_cases hturn : phase n < 2 ∨ phase n = 12
    · have hlabel : starving n = (0, true) := by
        rw [starving, if_pos hturn]
        rfl
      rcases ih.main_turn hpos hturn with ⟨st', evs, hs, h⟩ | ⟨hs, h⟩
      · rw [← hlabel] at hs
        rw [System.play_of_some hs]
        exact h
      · rw [← hlabel] at hs
        rw [System.play_of_none hs]
        exact h
    · have hlabel : starving n = (1, true) := by
        rw [starving, if_neg hturn]
        rfl
      obtain ⟨st', evs, hs, h⟩ := ih.replica_turn hpos (phase_lt n) hturn
      rw [← hlabel] at hs
      rw [System.play_of_some hs]
      exact h

/-- Thread 1 wakes up without a signal. -/
structure WakesSpuriously (l : Fin 2 × Bool) (st : State) : Prop where
  turn : l = (1, true)
  waiting : (st.regs 1).pc = .waiting
  blocked : st.shared.blocked 1 = true

theorem Starved.mutex_ne {p : Nat} (h : Starved p tr st) : st.shared.syncMutex ≠ some 0 := by
  rw [h.rules.mutex]
  split <;> simp

theorem Starved.not_finished {p : Nat} (h : Starved p tr st) : ¬ Finished st := by
  intro hfinished
  have hplace := h.main
  rw [hfinished 0] at hplace
  unfold mainPc at hplace
  split at hplace <;> cases hplace

/-- **Thread 0 may never get the mutex.** There is a fair schedule with spurious wake-ups of thread
1 again and again, on which thread 0 never gets the mutex, so that no comparison is ever made, from
the first index on, and the threads never finish. -/
theorem exists_starved (hpos : 0 < numValues) :
    ∃ sched : Nat → Fin 2 × Bool, Fair Prod.fst sched ∧
      (∀ n, ∃ k, n ≤ k ∧ WakesSpuriously (sched k) ((system numValues).play sched k).1) ∧
      ∀ n, ¬ Finished ((system numValues).play sched n).1 ∧
        ((system numValues).play sched n).1.shared.syncMutex ≠ some 0 ∧
        comparisons ((system numValues).play sched n).2 = [] := by
  refine ⟨starving, fair_starving, fun n => ?_, fun n => ?_⟩
  · have hphase : phase (6 * (n + 2) + 4 + 0) = 10 := phase_add (by decide) n
    have h := starved hpos (6 * (n + 2) + 4 + 0)
    rw [hphase] at h
    refine ⟨_, by omega, ?_, h.replica, h.asleep rfl⟩
    rw [starving, hphase]
    rfl
  · have h := starved hpos n
    exact ⟨h.not_finished, h.mutex_ne, h.uncompared⟩

theorem exists_starved_one :
    ∃ sched : Nat → Fin 2 × Bool, Fair Prod.fst sched ∧
      (∀ n, ∃ k, n ≤ k ∧ WakesSpuriously (sched k) ((system 1).play sched k).1) ∧
      ∀ n, ¬ Finished ((system 1).play sched n).1 ∧
        ((system 1).play sched n).1.shared.syncMutex ≠ some 0 ∧
        comparisons ((system 1).play sched n).2 = [] :=
  exists_starved Nat.one_pos

end SignalSync

end TsxProject
