import TsxProject.Replication.Rounds

/-!
# Agreement and progress

As long as thread 1 does not overtake thread 0, the invariant of the rounds gives all that is asked
of the protocol, no wake-up is lost, and some thread can always get the run on.

* `Inv.agreement` — both threads follow the comparisons
* `woken` — a thread that is blocked for no reason is about to be woken
* `exists_finished` — both threads can still finish, with no spurious wake-up
-/

namespace TsxProject

open Infra

namespace SignalSync

variable {numValues k c : Nat} {t u : Fin 2} {tr evs : List Event} {m m' : Memory}
  {s s' a b : Worker} {st : State} {w : Bool}

/-- What is asked of the protocol. -/
structure Agreement (numValues : Nat) (tr : List Event) (st : State) : Prop where
  /-- comparisons are of values for the same index -/
  same : Preceded SameIndex tr
  /-- the decisions of both threads are the outcomes of the comparisons -/
  follow : ∀ t, decisions t tr <+: comparisons tr
  /-- no thread waits for one that has left the loop -/
  accompanied : ∀ t u, (st.regs u).pc = .done → ¬ Waits t st
  result : ∀ t, (st.regs t).pc = .done → (st.regs t).result = numValues

/-! ## Agreement -/

theorem Inv.round_le (h : Inv numValues tr st) (t : Fin 2) : roundOf t tr ≤ count tr := by
  obtain rfl | rfl : t = 0 ∨ t = 1 := by omega
  · have hmain := h.main
    cases hpc : (st.regs 0).pc <;> simp only [MainAt, hpc] at hmain <;> omega
  · have hreplica := h.replica
    cases hpc : (st.regs 1).pc <;> simp only [ReplicaAt, hpc] at hreplica <;> omega

/-- A thread in a round that is still to come has no partner that is done. -/
theorem Inv.not_done (h : Inv numValues tr st) (hinside : (st.regs t).pc.inside = true)
    (hround : count tr = roundOf t tr) (u : Fin 2) : (st.regs u).pc ≠ .done := by
  intro hdone
  have hover := (h.position u).ended hdone
  have hlt := (h.position t).inside hinside
  have hle := roundIndex_mono (h.round_le u)
  rw [hround] at hle
  omega

theorem Inv.round_of_waits (h : Inv numValues tr st) (hw : Waits t st) :
    (st.regs t).pc.inside = true ∧ count tr = roundOf t tr := by
  obtain ⟨hplace, hstatus⟩ := hw
  obtain rfl | rfl : t = 0 ∨ t = 1 := by omega
  · have hmain := h.main
    rcases hplace with hpc | hpc | hpc | hpc | ⟨hc, -⟩
    · simp only [MainAt, hpc] at hmain
      exact ⟨by rw [hpc]; rfl, hmain.1⟩
    · simp only [MainAt, hpc] at hmain
      exact ⟨by rw [hpc]; rfl, hmain.1⟩
    · simp only [MainAt, hpc] at hmain
      exact ⟨by rw [hpc]; rfl, hmain.1⟩
    · simp only [MainAt, hpc] at hmain
      exact ⟨by rw [hpc]; rfl, hmain.1⟩
    · exact absurd hc (by decide)
  · rw [if_pos rfl] at hstatus
    have hreplica := h.replica
    -- the status is not the one of a comparison
    have hround : count tr = roundOf 1 tr ∧
          st.shared.iterationStatus = .replicationFinished ∨
        count tr = roundOf 1 tr + 1 ∧ st.shared.iterationStatus = verdict (count tr) →
        count tr = roundOf 1 tr := by
      rintro (⟨hcount, -⟩ | ⟨hcount, hverdict⟩)
      · exact hcount
      · rw [hverdict, hcount] at hstatus
        exact absurd hstatus (two_le_verdict _)
    rcases hplace with hpc | hpc | hpc | hpc | ⟨-, hpc⟩ <;>
      simp only [ReplicaAt, hpc] at hreplica
    · exact ⟨by rw [hpc]; rfl, hround hreplica.1⟩
    · exact ⟨by rw [hpc]; rfl, hreplica.1.1⟩
    · exact ⟨by rw [hpc]; rfl, hround hreplica.1⟩
    · exact ⟨by rw [hpc]; rfl, hround hreplica.1⟩
    · exact ⟨by rw [hpc]; rfl, hreplica.1.1⟩

theorem Inv.agreement (h : Inv numValues tr st) : Agreement numValues tr st where
  same := h.same
  follow t := by
    rw [h.decided t, h.compared]
    exact rounds_prefix (h.round_le t)
  accompanied t u hdone hw := by
    obtain ⟨hinside, hround⟩ := h.round_of_waits hw
    exact h.not_done hinside hround u hdone
  result t hdone := by
    have hresult := (h.position t).result
    have hle := (h.position t).le
    have hover := (h.position t).ended hdone
    rw [hdone, if_neg (by decide)] at hresult
    omega

/-! ## Signals are not lost -/

/-- A thread that is blocked although it need not be is about to be woken. -/
structure Woken (m : Memory) (a b : Worker) : Prop where
  main : a.pc = .waiting → m.blocked 0 = true → m.iterationStatus = .replicationFinished →
    b.pc = .test ∨ b.pc = .signal
  replica : b.pc = .waiting → m.blocked 1 = true →
    m.iterationStatus ≠ .replicationFinished → a.pc = .signal

/-- Where a thread that waits comes from. -/
theorem wait_of_waiting (hs : (signalSync numValues).next t w m s = some (m', s', evs))
    (hpc' : s'.pc = .waiting) : s.pc = .wait := by
  cases step_cases hs with
  | wait hpc => exact hpc
  | _ => cases hpc'

/-- Only a signal of the other thread unblocks a thread, but for spurious wake-ups. -/
theorem next_blocked (hs : (signalSync numValues).next t w m s = some (m', s', evs))
    (hne : u ≠ t) :
    m'.blocked u = if s.pc = .signal then false else m.blocked u := by
  have hother : 1 - t = u := by omega
  cases step_cases hs with
  | signalMain hpc | signal hpc =>
    rw [if_pos hpc, hother]
    exact Function.update_self ..
  | wait hpc | wake hpc =>
    have hsignal : s.pc ≠ .signal := by
      rw [hpc]
      simp
    rw [if_neg hsignal]
    exact Function.update_of_ne hne ..
  | enter hpc | exit hpc | calculateMain hpc | calculate hpc | fault hpc | noFault hpc
  | lockMain hpc | lock hpc | publish hpc | missing hpc | available hpc | pending hpc
  | verified hpc | reacquire hpc | compare hpc | unlock hpc | retry hpc | accept hpc | add hpc
  | next hpc =>
    have hsignal : s.pc ≠ .signal := by
      rw [hpc]
      simp
    rw [if_neg hsignal]

theorem Woken.main_step (h : Woken m a b)
    (hmain : MainAt c k (lastIndex 0 tr) m.iterationStatus m.v1 a)
    (hs : (signalSync numValues).next 0 w m a = some (m', s', evs)) : Woken m' s' b := by
  have hpublish : a.pc ≠ .publish := by
    intro hc
    simp only [MainAt, hc] at hmain
  have hblocked := next_blocked hs (u := 1) (by decide)
  refine ⟨fun hpc' _ hst => ?_, fun hpc' hb hst => ?_⟩
  · -- thread 0 has just looked at the status
    have hpc := wait_of_waiting hs hpc'
    simp only [MainAt, hpc] at hmain
    rw [(next_status hs hpublish (by rw [hpc]; simp) tr).1] at hst
    exact absurd hst hmain.2.2.2
  · have hsignal : a.pc ≠ .signal := by
      intro hc
      rw [if_pos hc, hb] at hblocked
      cases hblocked
    by_cases hcompare : a.pc = .compare
    · simp only [signalSync, hcompare] at hs
      cases hs
      rfl
    · rw [if_neg hsignal, hb] at hblocked
      rw [(next_status hs hpublish hcompare tr).1] at hst
      exact absurd (h.replica hpc' hblocked.symm hst) hsignal

theorem Woken.replica_step (h : Woken m a b)
    (hreplica : ReplicaAt c k (lastIndex 1 tr) m.iterationStatus m.v2 m.firstTime b)
    (hs : (signalSync numValues).next 1 w m b = some (m', s', evs)) : Woken m' a s' := by
  have hcompare : b.pc ≠ .compare := by
    intro hc
    simp only [ReplicaAt, hc] at hreplica
  have hblocked := next_blocked hs (u := 0) (by decide)
  refine ⟨fun hpc' hb hst => ?_, fun hpc' _ hst => ?_⟩
  · have hsignal : b.pc ≠ .signal := by
      intro hc
      rw [if_pos hc, hb] at hblocked
      cases hblocked
    by_cases hpublish : b.pc = .publish
    · simp only [signalSync, hpublish] at hs
      cases hs
      exact .inl rfl
    · rw [if_neg hsignal, hb] at hblocked
      rw [(next_status hs hpublish hcompare tr).1] at hst
      rcases h.main hpc' hblocked.symm hst with hpc | hpc
      · -- the test of thread 1 leads to the signal
        have hlt : m.iterationStatus.toNat < 2 := by
          rw [hst]
          decide
        simp only [signalSync, hpc, if_true, if_pos hlt] at hs
        cases hs
        exact .inr rfl
      · exact absurd hpc hsignal
  · -- thread 1 has just looked at the status
    have hpc := wait_of_waiting hs hpc'
    simp only [ReplicaAt, hpc] at hreplica
    rw [(next_status hs (by rw [hpc]; simp) hcompare tr).1] at hst
    exact absurd hreplica.1.2 hst

theorem woken (h : (system numValues).RunsWhere (fun l st => ¬ Overtakes l st) tr st) :
    Woken st.shared (st.regs 0) (st.regs 1) := by
  refine h.rule (I := fun _ st => Woken st.shared (st.regs 0) (st.regs 1)) ?_ ?_
  · refine ⟨fun hc => ?_, fun hc => ?_⟩ <;> cases hc
  · intro l tr st st' evs hr ih _ hs
    obtain ⟨m, r, hx, rfl⟩ := Parallel.step_cases (P := signalSync numValues) hs
    obtain ⟨t, w⟩ := l
    show Woken m (Function.update st.regs t r 0) (Function.update st.regs t r 1)
    obtain rfl | rfl : t = 0 ∨ t = 1 := by omega
    · rw [Function.update_self, Function.update_of_ne (by decide)]
      exact ih.main_step (inv hr).main hx
    · rw [Function.update_self, Function.update_of_ne (by decide)]
      exact ih.replica_step (inv hr).replica hx

/-! ## Progress -/

/-- Thread `t` can leave its inner loop. -/
def satisfied (t : Fin 2) (status : IterationStatus) : Bool :=
  if t.val = 1 then 2 ≤ status.toNat else status = .replicationFinished

theorem satisfied_main (status : IterationStatus) :
    satisfied 0 status = decide (status = .replicationFinished) := rfl

theorem satisfied_replica (status : IterationStatus) :
    satisfied 1 status = decide (2 ≤ status.toNat) := rfl

/-- The steps of a round that are left at most, without spurious wake-ups. -/
def Worker.left (t : Fin 2) (status : IterationStatus) (blocked : Bool) (s : Worker) : Nat :=
  match s.pc with
  | .add => 27
  | .next => 26
  | .loop => 25
  | .calculate => 24
  | .inject => 23
  | .lock => 22
  | .publish => 21
  | .waiting => if blocked then 13 else if satisfied t status then 12 else 18
  | .reacquire => if satisfied t status then 11 else 17
  | .test => if satisfied t status then 10 else 16
  | .signal => if t.val = 1 then 15 else 8
  | .wait => 14
  | .compare => 9
  | .unlock => 7
  | .check => 6
  | .done => 0

/-- The number of rounds. -/
def total (numValues : Nat) : Nat := if numValues ≤ 8 then numValues else numValues + 1

theorem roundIndex_lt_iff (k : Nat) : roundIndex k < numValues ↔ k < total numValues := by
  simp only [roundIndex, total]
  split <;> split <;> omega

/-- The steps that thread `t` has left. -/
def rankOf (numValues : Nat) (t : Fin 2) (tr : List Event) (m : Memory) (s : Worker) : Nat :=
  30 * (total numValues - roundOf t tr) + s.left t m.iterationStatus (m.blocked t)

/-- A step of a thread that is not blocked gets it on. -/
theorem rankOf_own (hpos : Position numValues (roundOf t tr) s)
    (hpublish : s.pc = .publish → t = 1) (hcompare : s.pc = .compare → t = 0)
    (hwake : s.pc = .waiting → m.blocked t = false)
    (hs : (signalSync numValues).next t w m s = some (m', s', evs)) :
    rankOf numValues t (tr ++ evs) m' s' < rankOf numValues t tr m s := by
  unfold rankOf
  cases step_cases hs with
  | enter hpc | exit hpc | calculateMain hpc | calculate hpc | fault hpc | noFault hpc
  | unlock hpc | add hpc | next hpc | wait hpc =>
    simp [Worker.left, hpc]
  | lockMain hpc | reacquire hpc =>
    simp only [Worker.left, hpc, List.append_nil]
    split <;> simp
  | lock hpc => simp [Worker.left, hpc]
  | wake hpc =>
    simp only [Worker.left, hpc, hwake hpc, List.append_nil]
    split <;> simp
  | publish hpc =>
    obtain rfl := hpublish hpc
    simp [Worker.left, hpc, satisfied_replica, IterationStatus.toNat]
  | missing hpc ht hst =>
    subst ht
    simp [Worker.left, hpc, satisfied_main, hst]
  | available hpc ht hst =>
    subst ht
    simp [Worker.left, hpc, satisfied_main, hst]
  | pending hpc ht hlt =>
    subst ht
    simp [Worker.left, hpc, satisfied_replica, Nat.not_le_of_lt hlt]
  | verified hpc ht hge =>
    subst ht
    simp [Worker.left, hpc, satisfied_replica, Nat.le_of_not_lt hge]
  | signalMain hpc ht | signal hpc ht =>
    subst ht
    simp [Worker.left, hpc]
  | compare hpc =>
    obtain rfl := hcompare hpc
    simp [Worker.left, hpc]
  | retry hpc | accept hpc =>
    have hlt := (roundIndex_lt_iff _).mp (hpos.inside (by rw [hpc]; rfl))
    simp [Worker.left, hpc]
    omega

theorem left_mono {status status' : IterationStatus} {blocked blocked' : Bool}
    (hstatus : satisfied t status = true → satisfied t status' = true)
    (hblocked : blocked' = blocked ∨ blocked' = false ∧ satisfied t status' = true)
    (s : Worker) : s.left t status' blocked' ≤ s.left t status blocked := by
  cases hpc : s.pc with
  | waiting =>
    simp only [Worker.left, hpc]
    rcases hblocked with rfl | ⟨rfl, hsat⟩
    · split
      · exact Nat.le_refl _
      · split <;> split <;> simp_all
    · simp only [hsat, if_true, Bool.false_eq_true, if_false]
      split
      · omega
      · split <;> omega
  | reacquire | test =>
    simp only [Worker.left, hpc]
    split <;> split <;> simp_all
  | _ => simp only [Worker.left, hpc, Nat.le_refl]

/-- A signal comes when there is something to go on with, and stores do not undo that. -/
theorem rankOf_other (hne : u ≠ t) (hpublish : s.pc = .publish → t = 1)
    (hcompare : s.pc = .compare → t = 0)
    (hsignal : s.pc = .signal → satisfied u m.iterationStatus = true)
    (hs : (signalSync numValues).next t w m s = some (m', s', evs)) (tr : List Event)
    (r : Worker) :
    rankOf numValues u (tr ++ evs) m' r ≤ rankOf numValues u tr m r := by
  have hround := (next_other hs hne tr).1
  have hblocked := next_blocked hs hne
  have hstatus : satisfied u m.iterationStatus = true → satisfied u m'.iterationStatus = true := by
    intro hsat
    by_cases hp : s.pc = .publish
    · obtain rfl := hpublish hp
      obtain rfl : u = 0 := by omega
      simp only [signalSync, hp] at hs
      cases hs
      rfl
    · by_cases hc : s.pc = .compare
      · obtain rfl := hcompare hc
        obtain rfl : u = 1 := by omega
        simp only [signalSync, hc] at hs
        cases hs
        dsimp only
        split <;> rfl
      · rw [(next_status hs hp hc tr).1]
        exact hsat
  unfold rankOf
  rw [hround]
  refine Nat.add_le_add_left (left_mono hstatus ?_ r) _
  by_cases hsig : s.pc = .signal
  · rw [if_pos hsig] at hblocked
    exact .inr ⟨hblocked, hstatus (hsignal hsig)⟩
  · rw [if_neg hsig] at hblocked
    exact .inl hblocked

/-- Thread `t` has somewhere to go, and neither the mutex nor a missing signal stops it. -/
structure Ready (t : Fin 2) (m : Memory) (s : Worker) : Prop where
  undone : s.pc ≠ .done
  free : s.pc = .lock ∨ s.pc = .reacquire → m.syncMutex = none
  awake : s.pc = .waiting → m.blocked t = false

variable (numValues) in
theorem Ready.exists_next (h : Ready t m s) :
    ∃ m' s' evs, (signalSync numValues).next t false m s = some (m', s', evs) := by
  cases hpc : s.pc with
  | done => exact absurd hpc h.undone
  | lock =>
    exact ⟨_, _, _, by simp only [signalSync, hpc, if_pos (h.free (.inl hpc))]; rfl⟩
  | reacquire =>
    exact ⟨_, _, _, by simp only [signalSync, hpc, if_pos (h.free (.inr hpc))]; rfl⟩
  | waiting =>
    simp only [signalSync, hpc, h.awake hpc]
    exact ⟨_, _, _, rfl⟩
  | calculate | inject | test | check =>
    simp only [signalSync, hpc]
    split <;> exact ⟨_, _, _, rfl⟩
  | loop | publish | signal | wait | compare | unlock | add | next =>
    simp only [signalSync, hpc]
    exact ⟨_, _, _, rfl⟩

/-- A thread at a place where it holds the mutex is at none where it may have to wait. -/
theorem Ready.of_holds (h : s.pc.holds = true) : Ready t m s := by
  have hplace : s.pc ≠ .done ∧ s.pc ≠ .lock ∧ s.pc ≠ .reacquire ∧ s.pc ≠ .waiting := by
    revert h
    cases s.pc <;> simp [Pc.holds]
  obtain ⟨hdone, hlock, hreacquire, hwaiting⟩ := hplace
  refine ⟨hdone, ?_, fun hc => absurd hc hwaiting⟩
  rintro (hc | hc)
  · exact absurd hc hlock
  · exact absurd hc hreacquire

/-- The steps that both threads have left. -/
def rank (numValues : Nat) (tr : List Event) (st : State) : Nat :=
  ∑ t, rankOf numValues t tr st.shared (st.regs t)

/-- A step that gets the run on, without a spurious wake-up. -/
def Advances (numValues : Nat) (tr : List Event) (st : State) : Prop :=
  ∃ l st' evs, (¬ Overtakes l st ∧ l.2 = false) ∧ (system numValues).step l st = some (st', evs) ∧
    rank numValues (tr ++ evs) st' < rank numValues tr st

/-- Who is where, and that a thread signals only when the other one can go on. -/
theorem Inv.place (h : Inv numValues tr st) (t : Fin 2) :
    ((st.regs t).pc = .publish → t = 1) ∧ ((st.regs t).pc = .compare → t = 0) ∧
      ∀ u, u ≠ t → (st.regs t).pc = .signal → satisfied u st.shared.iterationStatus = true := by
  obtain rfl | rfl : t = 0 ∨ t = 1 := by omega
  · have hmain := h.main
    refine ⟨fun hpc => ?_, fun _ => rfl, fun u hu hpc => ?_⟩
    · simp only [MainAt, hpc] at hmain
    · obtain rfl : u = 1 := by omega
      simp only [MainAt, hpc] at hmain
      rcases h.replica.status_cases with hstatus | hstatus
      · exact absurd hstatus hmain.2
      · rw [hstatus, hmain.1, satisfied_replica, decide_eq_true_eq]
        exact Nat.le_of_not_lt (two_le_verdict _)
  · have hreplica := h.replica
    refine ⟨fun _ => rfl, fun hpc => ?_, fun u hu hpc => ?_⟩
    · simp only [ReplicaAt, hpc] at hreplica
    · obtain rfl : u = 0 := by omega
      simp only [ReplicaAt, hpc] at hreplica
      rw [hreplica.1.2]
      rfl

theorem Inv.advances (h : Inv numValues tr st) (hok : ¬ Overtakes (t, false) st)
    (hready : Ready t st.shared (st.regs t)) : Advances numValues tr st := by
  obtain ⟨hpublish, hcompare, hsignal⟩ := h.place t
  obtain ⟨m', s', evs, hs⟩ := hready.exists_next numValues
  have hown := rankOf_own (h.position t) hpublish hcompare hready.awake hs
  refine ⟨(t, false), _, evs, ⟨hok, rfl⟩, Parallel.step_of_next hs, ?_⟩
  refine Finset.sum_lt_sum (fun u _ => ?_) ⟨t, Finset.mem_univ t, ?_⟩
  · by_cases hu : u = t
    · subst hu
      dsimp only
      rw [Function.update_self]
      exact Nat.le_of_lt hown
    · dsimp only
      rw [Function.update_of_ne hu]
      exact rankOf_other hu hpublish hcompare (hsignal u hu) hs tr (st.regs u)
  · dsimp only
    rw [Function.update_self]
    exact hown

/-- Thread `t` cannot move without a signal. -/
def Asleep (t : Fin 2) (st : State) : Prop :=
  (st.regs t).pc = .waiting ∧ st.shared.blocked t = true

/-- No thread sleeps beside one that is done. -/
theorem Inv.awake (h : Inv numValues tr st) (hwoken : Woken st.shared (st.regs 0) (st.regs 1))
    (hdone : (st.regs u).pc = .done) : ¬ Asleep t st := by
  rintro ⟨hpc, hblocked⟩
  refine h.agreement.accompanied t u hdone ⟨.inr (.inr (.inl hpc)), ?_⟩
  obtain rfl | rfl : t = 0 ∨ t = 1 := by omega
  · obtain rfl : u = 1 := by
      by_contra hne
      obtain rfl : u = 0 := by omega
      rw [hpc] at hdone
      cases hdone
    intro hstatus
    rcases hwoken.main hpc hblocked hstatus with hc | hc <;> rw [hdone] at hc <;> cases hc
  · obtain rfl : u = 0 := by
      by_contra hne
      obtain rfl : u = 1 := by omega
      rw [hpc] at hdone
      cases hdone
    rw [if_pos rfl]
    by_contra hlt
    have hstatus : st.shared.iterationStatus ≠ .replicationFinished := by
      intro hc
      rw [hc] at hlt
      exact hlt (by decide)
    have hc := hwoken.replica hpc hblocked hstatus
    rw [hdone] at hc
    cases hc

/-- The threads do not both sleep. -/
theorem Woken.not_both (h : Woken st.shared (st.regs 0) (st.regs 1)) (h0 : Asleep 0 st) :
    ¬ Asleep 1 st := by
  intro h1
  by_cases hstatus : st.shared.iterationStatus = .replicationFinished
  · rcases h.main h0.1 h0.2 hstatus with hc | hc <;> rw [h1.1] at hc <;> cases hc
  · have hc := h.replica h1.1 h1.2 hstatus
    rw [h0.1] at hc
    cases hc

/-- The thread that has the mutex can move; while no one has it, the threads do not both sleep. -/
theorem advances (hr : (system numValues).RunsWhere (fun l st => ¬ Overtakes l st) tr st)
    (hfinal : ¬ Finished st) : Advances numValues tr st := by
  have h := inv hr
  have hwoken := woken hr
  cases hmutex : st.shared.syncMutex with
  | none =>
    have hallowed : ∀ t, ¬ Overtakes (t, false) st := by
      rintro t ⟨-, hpc, -⟩
      have hheld := (holds_iff hr 1).mp (by rw [hpc]; rfl)
      rw [hmutex] at hheld
      cases hheld
    have hthread : ∀ t, (st.regs t).pc = .done ∨ Asleep t st ∨ Advances numValues tr st := by
      intro t
      by_cases hdone : (st.regs t).pc = .done
      · exact .inl hdone
      · by_cases hasleep : Asleep t st
        · exact .inr (.inl hasleep)
        · have hready : Ready t st.shared (st.regs t) :=
            ⟨hdone, fun _ => hmutex, fun hpc => Bool.eq_false_iff.mpr fun hc => hasleep ⟨hpc, hc⟩⟩
          exact .inr (.inr (h.advances (hallowed t) hready))
    rcases hthread 0 with h0 | h0 | h0
    · rcases hthread 1 with h1 | h1 | h1
      · refine absurd (fun t => ?_) hfinal
        obtain rfl | rfl : t = 0 ∨ t = 1 := by omega
        · exact h0
        · exact h1
      · exact absurd h1 (h.awake hwoken h0)
      · exact h1
    · rcases hthread 1 with h1 | h1 | h1
      · exact absurd h0 (h.awake hwoken h1)
      · exact absurd h1 (hwoken.not_both h0)
      · exact h1
    · exact h0
  | some t =>
    by_cases hover : Overtakes (t, false) st
    · -- thread 0 reads the status first
      have hcheck := hover.2.2.1
      exact h.advances (t := 0) (fun hc => absurd hc.1 (by decide))
        ⟨by rw [hcheck]; simp, by rw [hcheck]; simp, by rw [hcheck]; simp⟩
    · exact h.advances hover (.of_holds ((holds_iff hr t).mpr hmutex))

/-- Both threads can still finish. -/
theorem exists_finished (h : (system numValues).RunsWhere (fun l st => ¬ Overtakes l st) tr st) :
    ∃ tr' st', ((system numValues).startingIn st).RunsWhere
        (fun l st => ¬ Overtakes l st ∧ l.2 = false) tr' st' ∧ Finished st' :=
  h.exists_final (fun _ _ hok => hok.1) Finished (rank numValues)
    fun hr hfinal => advances hr hfinal

end SignalSync

end TsxProject
