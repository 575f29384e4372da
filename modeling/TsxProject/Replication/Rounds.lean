import TsxProject.Replication.SignalSync

/-!
# The rounds of the replication with condition variables

A round is a comparison and what both threads make of it. Which index round `k` is about, and
whether its comparison fails, does not depend on the order of the steps: the round of the injected
fault, the ninth, is done twice. Each thread is in the round of its next decision, and the status
is that of the last comparison until thread 1 has the value of the next round.

This holds as long as thread 1 does not overtake thread 0 after a failed comparison.

* `MainAt`, `ReplicaAt` — what is known at each place of the two threads
* `inv` — the invariant of all such runs
-/

namespace TsxProject

open Infra

namespace SignalSync

variable {numValues k c : Nat} {t u : Fin 2} {tr evs : List Event} {m m' : Memory}
  {s s' a b : Worker} {st : State} {w : Bool}

/-! ## Rounds -/

/-- The index of round `k`. -/
def roundIndex (k : Nat) : Int := if k ≤ 8 then k else k - 1

/-- The round of the injected fault. -/
def roundFails (k : Nat) : Bool := k = 8

def round (k : Nat) : Int × Bool := (roundIndex k, roundFails k)

/-- The first `k` rounds. -/
def rounds (k : Nat) : List (Int × Bool) := (List.range k).map round

/-- The status after `c` comparisons. -/
def verdict : Nat → IterationStatus
  | 0 => .started
  | k + 1 => if roundFails k then .failed else .successfull

theorem rounds_succ (k : Nat) : rounds (k + 1) = rounds k ++ [round k] := by
  simp [rounds, List.range_succ]

theorem rounds_prefix {k c : Nat} (h : k ≤ c) : rounds k <+: rounds c := by
  obtain ⟨d, rfl⟩ := Nat.exists_eq_add_of_le h
  rw [rounds, rounds, List.range_add, List.map_append]
  exact List.prefix_append _ _

/-- A round that fails is done again. -/
theorem roundIndex_succ (k : Nat) :
    roundIndex (k + 1) = if roundFails k then roundIndex k else roundIndex k + 1 := by
  simp only [roundIndex, roundFails, decide_eq_true_eq]
  split <;> split <;> split <;> omega

theorem roundIndex_mono {k c : Nat} (h : k ≤ c) : roundIndex k ≤ roundIndex c := by
  simp only [roundIndex]
  split <;> split <;> omega

theorem verdict_ne (c : Nat) : verdict c ≠ .replicationFinished := by
  cases c with
  | zero => simp [verdict]
  | succ k =>
    simp only [verdict]
    split <;> simp

theorem verdict_succ_eq_failed (k : Nat) : verdict (k + 1) = .failed ↔ roundFails k = true := by
  simp only [verdict]
  split <;> simp_all

theorem two_le_verdict (k : Nat) : ¬ (verdict (k + 1)).toNat < 2 := by
  simp only [verdict]
  split <;> decide

/-! ## Events -/

/-- How many comparisons there have been. -/
def count (tr : List Event) : Nat := (comparisons tr).length

/-- The round that thread `t` is in. -/
def roundOf (t : Fin 2) (tr : List Event) : Nat := (decisions t tr).length

section Events

variable (t u : Fin 2) (tr : List Event) (i : Int) (b : Bool)

@[simp] theorem comparisons_compared :
    comparisons (tr ++ [.compared i b]) = comparisons tr ++ [(i, b)] := by
  simp [comparisons, Event.comparison]

@[simp] theorem comparisons_decided :
    comparisons (tr ++ [.decided t i b]) = comparisons tr := by
  simp [comparisons, Event.comparison]

@[simp] theorem comparisons_calculated :
    comparisons (tr ++ [.calculated t i]) = comparisons tr := by
  simp [comparisons, Event.comparison]

@[simp] theorem decisions_decided :
    decisions t (tr ++ [.decided u i b]) =
      if u = t then decisions t tr ++ [(i, b)] else decisions t tr := by
  by_cases h : u = t <;> simp [decisions, Event.decision, h]

@[simp] theorem decisions_compared :
    decisions t (tr ++ [.compared i b]) = decisions t tr := by
  simp [decisions, Event.decision]

@[simp] theorem decisions_calculated :
    decisions t (tr ++ [.calculated u i]) = decisions t tr := by
  simp [decisions, Event.decision]

@[simp] theorem lastIndex_calculated :
    lastIndex t (tr ++ [.calculated u i]) = if u = t then some i else lastIndex t tr := by
  by_cases h : u = t <;> simp [lastIndex, Event.index, h]

@[simp] theorem lastIndex_compared :
    lastIndex t (tr ++ [.compared i b]) = lastIndex t tr := by
  simp [lastIndex, Event.index]

@[simp] theorem lastIndex_decided :
    lastIndex t (tr ++ [.decided u i b]) = lastIndex t tr := by
  simp [lastIndex, Event.index]

@[simp] theorem count_compared : count (tr ++ [.compared i b]) = count tr + 1 := by
  simp [count]

@[simp] theorem count_decided : count (tr ++ [.decided t i b]) = count tr := by
  simp [count]

@[simp] theorem count_calculated : count (tr ++ [.calculated t i]) = count tr := by
  simp [count]

@[simp] theorem roundOf_decided :
    roundOf t (tr ++ [.decided u i b]) = if u = t then roundOf t tr + 1 else roundOf t tr := by
  by_cases h : u = t <;> simp [roundOf, h]

@[simp] theorem roundOf_compared : roundOf t (tr ++ [.compared i b]) = roundOf t tr := by
  simp [roundOf]

@[simp] theorem roundOf_calculated : roundOf t (tr ++ [.calculated u i]) = roundOf t tr := by
  simp [roundOf]

end Events

/-! ## Places -/

/-- Where a thread holds the mutex. -/
def Pc.holds : Pc → Bool
  | .publish | .test | .signal | .wait | .compare | .unlock => true
  | _ => false

/-- In the body of the loop, before the decision. -/
def Pc.inside : Pc → Bool
  | .calculate | .inject | .lock | .publish | .test | .signal | .wait | .waiting | .reacquire
  | .compare | .unlock | .check => true
  | _ => false

/-- After the decision, before `i++`. -/
def Pc.late : Pc → Bool
  | .add | .next => true
  | _ => false

theorem locking (hs : (signalSync numValues).next t w m s = some (m', s', evs)) :
    Locking t m.syncMutex s.pc.holds m'.syncMutex s'.pc.holds := by
  cases step_cases hs with
  | lockMain hpc _ hfree | lock hpc _ hfree | reacquire hpc hfree =>
    rw [hpc, hfree]
    exact .lock
  | wait hpc | unlock hpc =>
    rw [hpc]
    exact .unlock _
  | enter hpc | exit hpc | calculateMain hpc | calculate hpc | fault hpc | noFault hpc
  | publish hpc | missing hpc | available hpc | pending hpc | verified hpc | signalMain hpc
  | signal hpc | wake hpc | compare hpc | retry hpc | accept hpc | add hpc | next hpc =>
    rw [hpc]
    exact .stay _ _

theorem holds_iff {ok : Fin 2 × Bool → State → Prop} (h : (system numValues).RunsWhere ok tr st)
    (t : Fin 2) : (st.regs t).pc.holds = true ↔ st.shared.syncMutex = some t :=
  Parallel.holds_iff (P := signalSync numValues) Memory.syncMutex (fun s => s.pc.holds)
    rfl (fun _ => rfl) (fun hs => locking hs) h t

theorem not_both_hold {ok : Fin 2 × Bool → State → Prop}
    (h : (system numValues).RunsWhere ok tr st) (h0 : (st.regs 0).pc.holds = true) :
    (st.regs 1).pc.holds = false := by
  by_contra hc
  have h1 := (holds_iff h 1).mp (Bool.eq_true_of_not_eq_false hc)
  rw [(holds_iff h 0).mp h0] at h1
  exact absurd h1 (by decide)

/-! ## Where a thread is in the loop -/

/-- A thread in round `k`. -/
structure Position (numValues k : Nat) (s : Worker) : Prop where
  index : s.i + (if s.pc.late then 1 else 0) = roundIndex k
  result : s.result + (if s.pc = .add then 1 else 0) = roundIndex k
  le : roundIndex k ≤ numValues
  inside : s.pc.inside = true → roundIndex k < numValues
  ended : s.pc = .done → (numValues : Int) ≤ roundIndex k

theorem Position.init (numValues : Nat) : Position numValues 0 ⟨.loop, 0, 0⟩ where
  index := rfl
  result := rfl
  le := Int.natCast_nonneg numValues
  inside h := Bool.noConfusion h
  ended h := by simp at h

/-- A step inside of a round. -/
theorem Position.stay (h : Position numValues k s) (hpc : s.pc.inside = true)
    (hpc' : s'.pc.inside = true) (hi : s'.i = s.i) (hresult : s'.result = s.result) :
    Position numValues k s' := by
  have hlate : ∀ pc : Pc, pc.inside = true → pc.late = false ∧ pc ≠ .add ∧ pc ≠ .done := by
    intro pc
    cases pc <;> simp [Pc.inside, Pc.late]
  obtain ⟨hl, hadd, -⟩ := hlate _ hpc
  obtain ⟨hl', hadd', hdone'⟩ := hlate _ hpc'
  have hindex := h.index
  have hres := h.result
  simp only [hl, hadd, if_false] at hindex hres
  refine ⟨?_, ?_, h.le, fun _ => h.inside hpc, fun hc => absurd hc hdone'⟩
  · rw [hi, hl']
    exact hindex
  · rw [hresult, if_neg hadd', hres]

/-- The decision is that of the round, and with it the next round begins. -/
theorem Position.step (h : Position numValues (roundOf t tr) s)
    (hlist : decisions t tr = rounds (roundOf t tr))
    (hcheck : s.pc = .check →
      (m.iterationStatus = .failed ↔ roundFails (roundOf t tr) = true))
    (hadd : s.pc = .add → m.v1 = 1)
    (hs : (signalSync numValues).next t w m s = some (m', s', evs)) :
    Position numValues (roundOf t (tr ++ evs)) s' ∧
      decisions t (tr ++ evs) = rounds (roundOf t (tr ++ evs)) := by
  have hindex := h.index
  have hresult := h.result
  -- a step inside of a round that decides nothing
  have hstay : s.pc.inside = true → s'.pc.inside = true → s'.i = s.i → s'.result = s.result →
      roundOf t (tr ++ evs) = roundOf t tr → decisions t (tr ++ evs) = decisions t tr →
      Position numValues (roundOf t (tr ++ evs)) s' ∧
        decisions t (tr ++ evs) = rounds (roundOf t (tr ++ evs)) := by
    intro hin hin' hi hres hround hdecisions
    rw [hround, hdecisions]
    exact ⟨h.stay hin hin' hi hres, hlist⟩
  cases step_cases hs with
  | enter hpc hlt =>
    rw [List.append_nil]
    simp only [hpc, Pc.late, Bool.false_eq_true, if_false, add_zero, reduceCtorEq] at hindex hresult
    exact ⟨⟨by simpa [Pc.late] using hindex, by simpa using hresult, h.le,
      fun _ => hindex ▸ hlt, by simp⟩, hlist⟩
  | exit hpc hge =>
    rw [List.append_nil]
    simp only [hpc, Pc.late, Bool.false_eq_true, if_false, add_zero, reduceCtorEq] at hindex hresult
    exact ⟨⟨by simpa [Pc.late] using hindex, by simpa using hresult, h.le,
      fun hc => Bool.noConfusion hc, fun _ => by omega⟩, hlist⟩
  | calculateMain hpc | calculate hpc | fault hpc | noFault hpc | lockMain hpc | lock hpc
  | publish hpc | missing hpc | available hpc | pending hpc | verified hpc | signalMain hpc
  | signal hpc | wait hpc | wake hpc | reacquire hpc | compare hpc | unlock hpc =>
    exact hstay (by rw [hpc]; rfl) rfl rfl rfl (by simp) (by simp)
  | retry hpc hfailed =>
    have hlt := h.inside (by rw [hpc]; rfl)
    have hfails := (hcheck hpc).mp hfailed
    have hsucc := roundIndex_succ (roundOf t tr)
    rw [if_pos hfails] at hsucc
    simp only [hpc, Pc.late, Bool.false_eq_true, if_false, add_zero, reduceCtorEq] at hindex hresult
    simp only [roundOf_decided, decisions_decided, if_true, rounds_succ]
    refine ⟨⟨?_, ?_, by omega, fun hc => Bool.noConfusion hc, by simp⟩, ?_⟩
    · show s.i - 1 + 1 = _
      omega
    · show s.result + 0 = _
      omega
    · rw [← hlist, round, hfails, hindex]
  | accept hpc hfailed =>
    have hlt := h.inside (by rw [hpc]; rfl)
    have hfails : roundFails (roundOf t tr) = false :=
      Bool.eq_false_iff.mpr fun hc => hfailed ((hcheck hpc).mpr hc)
    have hsucc := roundIndex_succ (roundOf t tr)
    rw [hfails, if_neg Bool.false_ne_true] at hsucc
    simp only [hpc, Pc.late, Bool.false_eq_true, if_false, add_zero, reduceCtorEq] at hindex hresult
    simp only [roundOf_decided, decisions_decided, if_true, rounds_succ]
    refine ⟨⟨?_, ?_, ?_, fun hc => Bool.noConfusion hc, by simp⟩, ?_⟩
    · rw [hsucc]
      exact congrArg (· + 1) hindex
    · rw [hsucc]
      exact congrArg (· + 1) hresult
    · rw [hsucc]
      exact hlt
    · rw [← hlist, round, hfails, hindex]
  | add hpc =>
    rw [List.append_nil]
    refine ⟨⟨?_, ?_, h.le, fun hc => Bool.noConfusion hc, by simp⟩, hlist⟩
    · simpa [hpc, Pc.late] using hindex
    · rw [hadd hpc]
      simpa [hpc] using hresult
  | next hpc =>
    rw [List.append_nil]
    refine ⟨⟨?_, ?_, h.le, fun hc => Bool.noConfusion hc, by simp⟩, hlist⟩
    · simpa [hpc, Pc.late] using hindex
    · simpa [hpc] using hresult

/-! ## What each thread knows -/

/-- What is known where thread 0 is, in round `k` after `c` comparisons, `last` being the index
that `v1` was computed for. -/
def MainAt (c k : Nat) (last : Option Int) (status : IterationStatus) (v1 : Int) (a : Worker) :
    Prop :=
  match a.pc with
  | .loop | .calculate | .next | .done => c = k
  | .add => c = k ∧ 0 < c
  | .lock | .test | .waiting | .reacquire => c = k ∧ v1 = 1 ∧ last = some a.i
  | .wait => c = k ∧ v1 = 1 ∧ last = some a.i ∧ status ≠ .replicationFinished
  | .compare => c = k ∧ v1 = 1 ∧ last = some a.i ∧ status = .replicationFinished
  | .signal | .unlock => c = k + 1 ∧ status ≠ .replicationFinished
  -- thread 1 may have the next value already, but not after a failed comparison
  | .check => c = k + 1 ∧ (status = .replicationFinished → roundFails k = false)
  | .inject | .publish => False

/-- The value of thread 1 in round `k`. -/
def roundValue (k : Nat) : Int := if roundFails k then 2 else 1

/-- What is known where thread 1 is. -/
def ReplicaAt (c k : Nat) (last : Option Int) (status : IterationStatus) (v2 : Int)
    (firstTime : Bool) (b : Worker) : Prop :=
  match b.pc with
  | .loop | .calculate | .next | .done => c = k ∧ status = verdict c ∧ firstTime = decide (k ≤ 8)
  | .add => c = k ∧ 0 < c ∧ status = verdict c ∧ firstTime = decide (k ≤ 8)
  | .inject =>
    c = k ∧ status = verdict c ∧ firstTime = decide (k ≤ 8) ∧ v2 = 1 ∧ last = some b.i
  | .lock | .publish =>
    c = k ∧ status = verdict c ∧ firstTime = decide (k < 8) ∧ v2 = roundValue k ∧ last = some b.i
  | .test | .waiting | .reacquire =>
    (c = k ∧ status = .replicationFinished ∨ c = k + 1 ∧ status = verdict c) ∧
      firstTime = decide (k < 8) ∧ v2 = roundValue k ∧ last = some b.i
  | .signal | .wait =>
    (c = k ∧ status = .replicationFinished) ∧ firstTime = decide (k < 8) ∧ v2 = roundValue k ∧
      last = some b.i
  | .unlock | .check => c = k + 1 ∧ status = verdict c ∧ firstTime = decide (k < 8)
  | .compare => False

/-- The values are there, and thread 1 is in the round of the next comparison. -/
theorem ReplicaAt.of_finished {last : Option Int} {status : IterationStatus} {v2 : Int}
    {firstTime : Bool} (h : ReplicaAt c k last status v2 firstTime b)
    (hstatus : status = .replicationFinished) :
    c = k ∧ v2 = roundValue k ∧ last = some b.i ∧
      (b.pc = .test ∨ b.pc = .waiting ∨ b.pc = .reacquire ∨ b.pc = .signal ∨ b.pc = .wait) := by
  have hne := verdict_ne c
  cases hpc : b.pc <;> simp only [ReplicaAt, hpc] at h <;> grind

theorem ReplicaAt.status_cases {last : Option Int} {status : IterationStatus} {v2 : Int}
    {firstTime : Bool} (h : ReplicaAt c k last status v2 firstTime b) :
    status = .replicationFinished ∨ status = verdict c := by
  cases hpc : b.pc <;> simp only [ReplicaAt, hpc] at h <;> grind

/-! ## What a step leaves alone -/

theorem next_other (hs : (signalSync numValues).next t w m s = some (m', s', evs)) (hne : u ≠ t)
    (tr : List Event) :
    roundOf u (tr ++ evs) = roundOf u tr ∧ decisions u (tr ++ evs) = decisions u tr ∧
      lastIndex u (tr ++ evs) = lastIndex u tr := by
  cases step_cases hs <;> simp [Ne.symm hne]

theorem next_status (hs : (signalSync numValues).next t w m s = some (m', s', evs))
    (hpublish : s.pc ≠ .publish) (hcompare : s.pc ≠ .compare) (tr : List Event) :
    m'.iterationStatus = m.iterationStatus ∧ count (tr ++ evs) = count tr ∧
      comparisons (tr ++ evs) = comparisons tr := by
  cases step_cases hs with
  | publish hpc => exact absurd hpc hpublish
  | compare hpc => exact absurd hpc hcompare
  | _ => simp

/-- No step emits two events, and only a comparison is seen as one. -/
theorem next_events (hs : (signalSync numValues).next t w m s = some (m', s', evs))
    (tr : List Event) :
    evs.length ≤ 1 ∧ (s.pc ≠ .compare → ∀ e ∈ evs, SameIndex tr e) := by
  cases step_cases hs with
  | compare hpc => exact ⟨Nat.le_refl 1, fun hc => absurd hpc hc⟩
  | _ => simp [SameIndex]

theorem replica_v1 (hs : (signalSync numValues).next 1 w m s = some (m', s', evs)) :
    m'.v1 = m.v1 := by
  cases step_cases hs with
  | calculateMain _ ht => exact absurd ht (by decide)
  | _ => rfl

theorem main_v2 (hs : (signalSync numValues).next 0 w m s = some (m', s', evs))
    (hinject : s.pc ≠ .inject) : m'.v2 = m.v2 ∧ m'.firstTime = m.firstTime := by
  cases step_cases hs with
  | calculate _ ht => exact absurd ht (by decide)
  | fault hpc => exact absurd hpc hinject
  | _ => exact ⟨rfl, rfl⟩

/-! ## Steps of thread 0 -/

/-- The status at the decision of thread 0 is that of its comparison. -/
theorem MainAt.failed_iff (h : MainAt (count tr) (roundOf 0 tr) (lastIndex 0 tr)
      m.iterationStatus m.v1 a)
    (hr : ReplicaAt (count tr) (roundOf 1 tr) (lastIndex 1 tr) m.iterationStatus m.v2
      m.firstTime b) (hpc : a.pc = .check) :
    m.iterationStatus = .failed ↔ roundFails (roundOf 0 tr) = true := by
  simp only [MainAt, hpc] at h
  obtain ⟨hcount, hovertaken⟩ := h
  rcases hr.status_cases with hstatus | hstatus
  · rw [hstatus, hovertaken hstatus]
    simp
  · rw [hstatus, hcount]
    exact verdict_succ_eq_failed _

/-- A step of thread 0 other than the comparison. -/
theorem MainAt.step (h : MainAt (count tr) (roundOf 0 tr) (lastIndex 0 tr) m.iterationStatus
      m.v1 a)
    (hvalue : 0 < count tr → m.v1 = 1) (hpc : a.pc ≠ .compare)
    (hs : (signalSync numValues).next 0 w m a = some (m', s', evs)) :
    MainAt (count (tr ++ evs)) (roundOf 0 (tr ++ evs)) (lastIndex 0 (tr ++ evs))
      m'.iterationStatus m'.v1 s' ∧ (0 < count (tr ++ evs) → m'.v1 = 1) := by
  cases step_cases hs with
  | enter hpc' | exit hpc' | next hpc' | lockMain hpc' | reacquire hpc' | signalMain hpc'
  | wake hpc' =>
    simp only [MainAt, hpc'] at h
    rw [List.append_nil]
    exact ⟨h, hvalue⟩
  | missing hpc' _ hst | available hpc' _ hst =>
    simp only [MainAt, hpc'] at h
    rw [List.append_nil]
    exact ⟨⟨h.1, h.2.1, h.2.2, hst⟩, hvalue⟩
  | wait hpc' =>
    simp only [MainAt, hpc'] at h
    rw [List.append_nil]
    exact ⟨⟨h.1, h.2.1, h.2.2.1⟩, hvalue⟩
  | add hpc' =>
    simp only [MainAt, hpc'] at h
    rw [List.append_nil]
    exact ⟨h.1, hvalue⟩
  | calculateMain hpc' =>
    simp only [MainAt, hpc'] at h
    simpa [MainAt, calcFun] using h
  | unlock hpc' =>
    simp only [MainAt, hpc'] at h
    rw [List.append_nil]
    exact ⟨⟨h.1, fun hc => absurd hc h.2⟩, hvalue⟩
  | retry hpc' =>
    simp only [MainAt, hpc'] at h
    simpa [MainAt] using ⟨h.1, hvalue⟩
  | accept hpc' =>
    simp only [MainAt, hpc'] at h
    simpa [MainAt] using ⟨⟨h.1, by omega⟩, hvalue⟩
  | compare hpc' => exact absurd hpc' hpc
  | fault hpc' | noFault hpc' | publish hpc' => simp only [MainAt, hpc'] at h
  | calculate _ ht | lock _ ht | pending _ ht | verified _ ht | signal _ ht =>
    exact absurd ht (by decide)

/-- The comparison is of the values for the same index, and has the outcome of the round. -/
theorem MainAt.compare (h : MainAt (count tr) (roundOf 0 tr) (lastIndex 0 tr) m.iterationStatus
      m.v1 a)
    (hr : ReplicaAt (count tr) (roundOf 1 tr) (lastIndex 1 tr) m.iterationStatus m.v2
      m.firstTime b)
    (hpos : Position numValues (roundOf 0 tr) a) (hpos' : Position numValues (roundOf 1 tr) b)
    (hpc : a.pc = .compare) (hb : b.pc.holds = false)
    (hs : (signalSync numValues).next 0 w m a = some (m', s', evs)) :
    evs = [.compared (roundIndex (count tr)) (roundFails (count tr))] ∧
      lastIndex 0 tr = some (roundIndex (count tr)) ∧
      lastIndex 1 tr = some (roundIndex (count tr)) ∧
      MainAt (count (tr ++ evs)) (roundOf 0 (tr ++ evs)) (lastIndex 0 (tr ++ evs))
        m'.iterationStatus m'.v1 s' ∧ m'.v1 = 1 ∧
      ReplicaAt (count (tr ++ evs)) (roundOf 1 (tr ++ evs)) (lastIndex 1 (tr ++ evs))
        m'.iterationStatus m'.v2 m'.firstTime b := by
  simp only [MainAt, hpc] at h
  obtain ⟨hcount, hv1, hlast, hstatus⟩ := h
  obtain ⟨hcount', hv2, hlast', hplace⟩ := hr.of_finished hstatus
  have hindex : a.i = roundIndex (count tr) := by
    have := hpos.index
    simpa [hpc, Pc.late, ← hcount] using this
  have hindex' : b.i = roundIndex (count tr) := by
    have := hpos'.index
    rcases hplace with hplace | hplace | hplace | hplace | hplace <;>
      simpa [hplace, Pc.late, ← hcount'] using this
  have hfails : decide (m.v1 ≠ m.v2) = roundFails (count tr) := by
    rw [hv1, hv2, ← hcount', roundValue]
    cases roundFails (count tr) <;> decide
  have hverdict : (if m.v1 ≠ m.v2 then IterationStatus.failed else .successfull) =
      verdict (count tr + 1) := by
    simp only [verdict, ← hfails, decide_eq_true_eq]
  simp only [signalSync, hpc] at hs
  cases hs
  rw [hfails, hindex, hverdict, count_compared, roundOf_compared, roundOf_compared,
    lastIndex_compared, lastIndex_compared]
  refine ⟨rfl, by rw [hlast, hindex], by rw [hlast', hindex'], ⟨by rw [hcount],
    verdict_ne (count tr + 1)⟩, hv1, ?_⟩
  rcases hplace with hplace | hplace | hplace | hplace | hplace
  · simp only [ReplicaAt, hplace] at hr ⊢
    exact ⟨.inr ⟨by rw [hcount'], trivial⟩, hr.2⟩
  · simp only [ReplicaAt, hplace] at hr ⊢
    exact ⟨.inr ⟨by rw [hcount'], trivial⟩, hr.2⟩
  · simp only [ReplicaAt, hplace] at hr ⊢
    exact ⟨.inr ⟨by rw [hcount'], trivial⟩, hr.2⟩
  · rw [hplace] at hb
    cases hb
  · rw [hplace] at hb
    cases hb

/-! ## Steps of thread 1 -/

/-- Thread 1 stores `replicationFinished`. -/
theorem ReplicaAt.publish (h : MainAt (count tr) (roundOf 0 tr) (lastIndex 0 tr)
      m.iterationStatus m.v1 a)
    (hr : ReplicaAt (count tr) (roundOf 1 tr) (lastIndex 1 tr) m.iterationStatus m.v2
      m.firstTime b)
    (hpc : b.pc = .publish) (ha : a.pc.holds = false)
    (hok : a.pc = .check → m.iterationStatus ≠ .failed)
    (hs : (signalSync numValues).next 1 w m b = some (m', s', evs)) :
    evs = [] ∧ m'.v1 = m.v1 ∧
      MainAt (count tr) (roundOf 0 tr) (lastIndex 0 tr) m'.iterationStatus m'.v1 a ∧
      ReplicaAt (count tr) (roundOf 1 tr) (lastIndex 1 tr) m'.iterationStatus m'.v2 m'.firstTime
        s' := by
  simp only [ReplicaAt, hpc] at hr
  obtain ⟨hcount, hstatus, hrest⟩ := hr
  simp only [signalSync, hpc] at hs
  cases hs
  refine ⟨rfl, rfl, ?_, ⟨.inl ⟨hcount, rfl⟩, hrest⟩⟩
  cases hapc : a.pc with
  | test | wait | compare | signal | unlock =>
    rw [hapc] at ha
    cases ha
  | inject | publish => simp only [MainAt, hapc] at h
  | check =>
    simp only [MainAt, hapc] at h ⊢
    refine ⟨h.1, fun _ => ?_⟩
    -- the last comparison has not failed
    rw [hstatus, h.1] at hok
    exact Bool.eq_false_iff.mpr fun hc => hok hapc ((verdict_succ_eq_failed _).mpr hc)
  | loop | calculate | next | done | add | lock | waiting | reacquire =>
    simp only [MainAt, hapc] at h ⊢
    exact h

/-- Any other step of thread 1. -/
theorem ReplicaAt.step (hr : ReplicaAt (count tr) (roundOf 1 tr) (lastIndex 1 tr)
      m.iterationStatus m.v2 m.firstTime b)
    (hpos : Position numValues (roundOf 1 tr) b) (hpc : b.pc ≠ .publish)
    (hs : (signalSync numValues).next 1 w m b = some (m', s', evs)) :
    ReplicaAt (count (tr ++ evs)) (roundOf 1 (tr ++ evs)) (lastIndex 1 (tr ++ evs))
      m'.iterationStatus m'.v2 m'.firstTime s' := by
  -- the fault is injected in its round
  have hround : b.pc = .inject → m.firstTime = decide (roundOf 1 tr ≤ 8) →
      (b.i = 8 ∧ m.firstTime = true ↔ roundFails (roundOf 1 tr) = true) := by
    intro hpc' hfirst
    have hindex := hpos.index
    simp only [hpc', Pc.late, Bool.false_eq_true, if_false, add_zero] at hindex
    rw [hindex, hfirst]
    simp only [roundIndex, roundFails, decide_eq_true_eq]
    split <;> omega
  cases step_cases hs with
  | enter hpc' | exit hpc' | lock hpc' | reacquire hpc' | wake hpc' | unlock hpc' | next hpc'
  | signal hpc' =>
    simp only [ReplicaAt, hpc'] at hr
    rw [List.append_nil]
    exact hr
  | calculate hpc' =>
    simp only [ReplicaAt, hpc'] at hr
    simpa [ReplicaAt, calcFun] using hr
  | fault hpc' hfault =>
    simp only [ReplicaAt, hpc'] at hr
    obtain ⟨hcount, hstatus, hfirst, -, hlast⟩ := hr
    have hfails := (hround hpc' hfirst).mp hfault
    have height : roundOf 1 tr = 8 := by simpa [roundFails] using hfails
    rw [List.append_nil]
    exact ⟨hcount, hstatus, by rw [height]; rfl, by rw [roundValue, if_pos hfails], hlast⟩
  | noFault hpc' hfault =>
    simp only [ReplicaAt, hpc'] at hr
    obtain ⟨hcount, hstatus, hfirst, hv2, hlast⟩ := hr
    have hfails : ¬ roundFails (roundOf 1 tr) = true :=
      fun hc => hfault ((hround hpc' hfirst).mpr hc)
    have hne : roundOf 1 tr ≠ 8 := by simpa [roundFails] using hfails
    rw [List.append_nil]
    refine ⟨hcount, hstatus, ?_, by rw [roundValue, if_neg hfails]; exact hv2, hlast⟩
    rw [hfirst, decide_eq_decide]
    omega
  | pending hpc' _ hlt =>
    simp only [ReplicaAt, hpc'] at hr
    rw [List.append_nil]
    rcases hr with ⟨hplace | ⟨hcount, hstatus⟩, hrest⟩
    · exact ⟨hplace, hrest⟩
    · rw [hstatus, hcount] at hlt
      exact absurd hlt (two_le_verdict _)
  | verified hpc' _ hge =>
    simp only [ReplicaAt, hpc'] at hr
    rw [List.append_nil]
    rcases hr with ⟨⟨-, hstatus⟩ | ⟨hcount, hstatus⟩, hrest⟩
    · rw [hstatus] at hge
      exact absurd (by decide) hge
    · exact ⟨hcount, hstatus, hrest.1⟩
  | wait hpc' =>
    simp only [ReplicaAt, hpc'] at hr
    rw [List.append_nil]
    exact ⟨.inl hr.1, hr.2⟩
  | retry hpc' =>
    simp only [ReplicaAt, hpc'] at hr
    rw [count_decided, roundOf_decided, if_pos rfl]
    exact hr
  | accept hpc' =>
    simp only [ReplicaAt, hpc'] at hr
    rw [count_decided, roundOf_decided, if_pos rfl]
    exact ⟨hr.1, by omega, hr.2⟩
  | add hpc' =>
    simp only [ReplicaAt, hpc'] at hr
    rw [List.append_nil]
    exact ⟨hr.1, hr.2.2⟩
  | publish hpc' => exact absurd hpc' hpc
  | compare hpc' => simp only [ReplicaAt, hpc'] at hr
  | calculateMain _ ht | lockMain _ ht | missing _ ht | available _ ht | signalMain _ ht =>
    exact absurd ht (by decide)

/-- The status at the decision of thread 1 is that of the comparison. -/
theorem ReplicaAt.failed_iff (hr : ReplicaAt (count tr) (roundOf 1 tr) (lastIndex 1 tr)
      m.iterationStatus m.v2 m.firstTime b) (hpc : b.pc = .check) :
    m.iterationStatus = .failed ↔ roundFails (roundOf 1 tr) = true := by
  simp only [ReplicaAt, hpc] at hr
  rw [hr.2.1, hr.1]
  exact verdict_succ_eq_failed _

/-! ## The invariant -/

structure Inv (numValues : Nat) (tr : List Event) (st : State) : Prop where
  compared : comparisons tr = rounds (count tr)
  same : Preceded SameIndex tr
  decided : ∀ t, decisions t tr = rounds (roundOf t tr)
  position : ∀ t, Position numValues (roundOf t tr) (st.regs t)
  value : 0 < count tr → st.shared.v1 = 1
  main : MainAt (count tr) (roundOf 0 tr) (lastIndex 0 tr) st.shared.iterationStatus st.shared.v1
    (st.regs 0)
  replica : ReplicaAt (count tr) (roundOf 1 tr) (lastIndex 1 tr) st.shared.iterationStatus
    st.shared.v2 st.shared.firstTime (st.regs 1)

theorem Inv.init (numValues : Nat) : Inv numValues [] (system numValues).init where
  compared := rfl
  same := Preceded.nil _
  decided _ := rfl
  position _ := Position.init numValues
  value h := absurd h (Nat.lt_irrefl 0)
  main := rfl
  replica := ⟨rfl, rfl, rfl⟩

theorem Inv.main_step (h : Inv numValues tr st) (ha : (st.regs 0).pc.holds = true →
      (st.regs 1).pc.holds = false)
    (hs : (signalSync numValues).next 0 w st.shared (st.regs 0) = some (m', s', evs)) :
    Inv numValues (tr ++ evs) ⟨m', Function.update st.regs 0 s'⟩ := by
  obtain ⟨hround, hlist, hlast⟩ := next_other hs (u := 1) (by decide) tr
  have hown := (h.position 0).step (h.decided 0) (fun hpc => h.main.failed_iff h.replica hpc)
    (fun hpc => h.value (by have := h.main; simp only [MainAt, hpc] at this; exact this.2)) hs
  have hdecided : ∀ t, decisions t (tr ++ evs) = rounds (roundOf t (tr ++ evs)) := by
    intro t
    obtain rfl | rfl : t = 0 ∨ t = 1 := by omega
    · exact hown.2
    · rw [hlist, hround]
      exact h.decided 1
  have hposition : ∀ t, Position numValues (roundOf t (tr ++ evs))
      (Function.update st.regs 0 s' t) := by
    intro t
    obtain rfl | rfl : t = 0 ∨ t = 1 := by omega
    · rw [Function.update_self]
      exact hown.1
    · rw [Function.update_of_ne (by decide), hround]
      exact h.position 1
  obtain ⟨hone, hsame⟩ := next_events hs tr
  by_cases hpc : (st.regs 0).pc = .compare
  · obtain ⟨rfl, hlast0, hlast1, hmain, hv1, hreplica⟩ := h.main.compare h.replica (h.position 0)
      (h.position 1) hpc (ha (by rw [hpc]; rfl)) hs
    refine ⟨?_, h.same.snoc ⟨hlast0, hlast1⟩, hdecided, hposition, fun _ => hv1, ?_, ?_⟩
    · rw [comparisons_compared, count_compared, rounds_succ, h.compared]
      rfl
    · show MainAt _ _ _ _ _ (Function.update st.regs 0 s' 0)
      rw [Function.update_self]
      exact hmain
    · show ReplicaAt _ _ _ _ _ _ (Function.update st.regs 0 s' 1)
      rw [Function.update_of_ne (by decide)]
      exact hreplica
  · have hplace : (st.regs 0).pc ≠ .inject ∧ (st.regs 0).pc ≠ .publish := by
      have hmain := h.main
      constructor <;> intro hc <;> simp only [MainAt, hc] at hmain
    obtain ⟨hstatus, hcount, hcompared⟩ := next_status hs hplace.2 hpc tr
    obtain ⟨hv2, hfirst⟩ := main_v2 hs hplace.1
    obtain ⟨hmain, hvalue⟩ := h.main.step h.value hpc hs
    refine ⟨by rw [hcompared, hcount]; exact h.compared, h.same.append hone (hsame hpc), hdecided,
      hposition, hvalue, ?_, ?_⟩
    · show MainAt _ _ _ _ _ (Function.update st.regs 0 s' 0)
      rw [Function.update_self]
      exact hmain
    · show ReplicaAt _ _ _ m'.iterationStatus m'.v2 m'.firstTime (Function.update st.regs 0 s' 1)
      rw [Function.update_of_ne (by decide), hstatus, hv2, hfirst, hcount, hround, hlast]
      exact h.replica

theorem Inv.replica_step (h : Inv numValues tr st) (ha : (st.regs 0).pc.holds = true →
      (st.regs 1).pc.holds = false) (hok : ¬ Overtakes (1, w) st)
    (hs : (signalSync numValues).next 1 w st.shared (st.regs 1) = some (m', s', evs)) :
    Inv numValues (tr ++ evs) ⟨m', Function.update st.regs 1 s'⟩ := by
  obtain ⟨hround, hlist, hlast⟩ := next_other hs (u := 0) (by decide) tr
  have hown := (h.position 1).step (h.decided 1) (fun hpc => h.replica.failed_iff hpc)
    (fun hpc => h.value (by have := h.replica; simp only [ReplicaAt, hpc] at this; exact this.2.1))
    hs
  have hdecided : ∀ t, decisions t (tr ++ evs) = rounds (roundOf t (tr ++ evs)) := by
    intro t
    obtain rfl | rfl : t = 0 ∨ t = 1 := by omega
    · rw [hlist, hround]
      exact h.decided 0
    · exact hown.2
  have hposition : ∀ t, Position numValues (roundOf t (tr ++ evs))
      (Function.update st.regs 1 s' t) := by
    intro t
    obtain rfl | rfl : t = 0 ∨ t = 1 := by omega
    · rw [Function.update_of_ne (by decide), hround]
      exact h.position 0
    · rw [Function.update_self]
      exact hown.1
  have hcompare : (st.regs 1).pc ≠ .compare := by
    intro hc
    have hreplica := h.replica
    simp only [ReplicaAt, hc] at hreplica
  obtain ⟨hone, hsame⟩ := next_events hs tr
  by_cases hpc : (st.regs 1).pc = .publish
  · have hfree : (st.regs 0).pc.holds = false := by
      by_contra hc
      have hb := ha (Bool.eq_true_of_not_eq_false hc)
      rw [hpc] at hb
      cases hb
    obtain ⟨rfl, hv1, hmain, hreplica⟩ := ReplicaAt.publish h.main h.replica hpc hfree
      (fun hcheck hfailed => hok ⟨rfl, hpc, hcheck, hfailed⟩) hs
    rw [List.append_nil] at hdecided hposition ⊢
    refine ⟨h.compared, h.same, hdecided, hposition, fun hc => hv1.trans (h.value hc), ?_, ?_⟩
    · show MainAt _ _ _ _ _ (Function.update st.regs 1 s' 0)
      rw [Function.update_of_ne (by decide)]
      exact hmain
    · show ReplicaAt _ _ _ _ _ _ (Function.update st.regs 1 s' 1)
      rw [Function.update_self]
      exact hreplica
  · obtain ⟨hstatus, hcount, hcompared⟩ := next_status hs hpc hcompare tr
    have hv1 := replica_v1 hs
    refine ⟨by rw [hcompared, hcount]; exact h.compared, h.same.append hone (hsame hcompare),
      hdecided, hposition, fun hc => ?_, ?_, ?_⟩
    · rw [hcount] at hc
      exact hv1.trans (h.value hc)
    · show MainAt _ _ _ m'.iterationStatus m'.v1 (Function.update st.regs 1 s' 0)
      rw [Function.update_of_ne (by decide), hstatus, hv1, hcount, hround, hlast]
      exact h.main
    · show ReplicaAt _ _ _ _ _ _ (Function.update st.regs 1 s' 1)
      rw [Function.update_self]
      exact h.replica.step (h.position 1) hpc hs

/-- In every run in which thread 1 does not overtake thread 0 after a failed comparison. -/
theorem inv (h : (system numValues).RunsWhere (fun l st => ¬ Overtakes l st) tr st) :
    Inv numValues tr st := by
  refine h.rule (Inv.init numValues) ?_
  intro l tr st st' evs hr ih hok hs
  obtain ⟨m, r, hx, rfl⟩ := Parallel.step_cases (P := signalSync numValues) hs
  obtain ⟨t, w⟩ := l
  obtain rfl | rfl : t = 0 ∨ t = 1 := by omega
  · exact ih.main_step (not_both_hold hr) hx
  · exact ih.replica_step (not_both_hold hr) hok hx

end SignalSync

end TsxProject
