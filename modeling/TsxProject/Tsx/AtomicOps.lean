import TsxProject.Infra.Barrier
import TsxProject.Tsx.Transactions

/-!
# The fifth test of atomic operations

`AtomicOps_ThreadFunc5` of `TestAtomicOps.c`, as `AtomicOps_Test` runs it: thread 1 computes a
value, and thread 0 waits for it inside of a transaction, or at `barrier1` after an abort. Thread
`t` has index `t`. Messages are not printed.

A transaction may abort at any point with any status. One that has read `hyperThreadFinished` as 0
spins and is isolated from the store of thread 1: it can only abort.

* `barrier1_paired` — as long as thread 0 does not wait after an abort, both threads call
  `barrier1` twice and none is left there; once it has, it never returns
-/

namespace TsxProject

open Infra

namespace AtomicOps

open Tsx

/-- The calls of `pthread_barrier_wait(&barrier1)`. -/
inductive Site where
  /-- of both threads, at the start -/
  | start
  /-- of thread 1, at the end -/
  | hyperThread
  /-- of thread 0, after an abort -/
  | abort
  /-- of thread 0, at the end -/
  | finish
  deriving DecidableEq

inductive Pc where
  | wait (site : Site)
  /-- in a call of the barrier, until the phase is over -/
  | blocked (site : Site) (phase : Nat)
  /-- `localCount = Transactions_CalculateValue(threadIndex)` of thread 1 -/
  | calculate
  /-- `__sync_lock_test_and_set(&sharedVariable, localCount)` -/
  | publish
  /-- `hyperThreadFinished = 1` -/
  | setFinished
  /-- `start2` -/
  | start2
  | transaction
  /-- the loop of a transaction that has read `hyperThreadFinished` as 0 -/
  | spinning
  /-- `AtomicOps_IncAbort()` and the test of the status -/
  | fallback (st : AbortStatus)
  /-- `if(!hyperThreadFinished)` after an abort -/
  | check
  /-- `if(hyperThreadFinished)` after the transaction -/
  | committed
  | done
  deriving DecidableEq

structure Memory where
  sharedVariable : Int
  hyperThreadFinished : Bool
  numAborts : Int
  barrier1 : Barrier

structure Worker where
  pc : Pc
  localCount : Int

/-- Thread `t` calls the barrier. -/
inductive Event where
  | waited (t : Fin 2) (site : Site)
  deriving DecidableEq

/-- Where a thread goes on after a call of the barrier. -/
def Site.next (t : Fin 2) : Site → Pc
  | .start => if t.val = 1 then .calculate else .start2
  | .hyperThread => .done
  | .abort => .start2
  | .finish => .done

/-- `AtomicOps_ThreadFunc5` -/
def threadFunc5 (errors : Int → Bool) : Parallel (Fin 2) Outcome Memory Worker Event where
  next t outcome m s :=
    match s.pc with
    | .wait site =>
      some ({ m with barrier1 := m.barrier1.arrive 2 },
        { s with pc := .blocked site m.barrier1.phase }, [.waited t site])
    | .blocked site phase =>
      if m.barrier1.phase = phase then none else some (m, { s with pc := site.next t }, [])
    | .calculate =>
      some (m, { pc := .publish, localCount := Transactions.calculateValue errors t }, [])
    | .publish =>
      some ({ m with sharedVariable := s.localCount }, { s with pc := .setFinished }, [])
    | .setFinished =>
      some ({ m with hyperThreadFinished := true }, { s with pc := .wait .hyperThread }, [])
    | .start2 => some (m, { s with pc := .transaction }, [])
    | .transaction =>
      match outcome with
      | .aborts st => some (m, { s with pc := .fallback st }, [])
      | .completes =>
        if m.hyperThreadFinished then
          -- the comparison with `sharedVariable` has an empty body
          some (m, { pc := .committed, localCount := Transactions.calculateValue errors t }, [])
        else some (m, { s with pc := .spinning }, [])
    | .spinning =>
      match outcome with
      | .aborts st => some (m, { s with pc := .fallback st }, [])
      | .completes => some (m, s, [])
    | .fallback st =>
      some ({ m with numAborts := m.numAborts + 1 },
        { s with pc := if wasExplicitAbort st.bits then .start2 else .check }, [])
    | .check =>
      some (m, { s with pc := if m.hyperThreadFinished then .start2 else .wait .abort }, [])
    | .committed =>
      some (m, { s with pc := if m.hyperThreadFinished then .wait .finish else .done }, [])
    | .done => none

/-- What a step can do. -/
inductive Step (errors : Int → Bool) (t : Fin 2) (m : Memory) (s : Worker) :
    Memory → Worker → List Event → Prop where
  | wait (site : Site) : s.pc = .wait site →
      Step errors t m s { m with barrier1 := m.barrier1.arrive 2 }
        { s with pc := .blocked site m.barrier1.phase } [.waited t site]
  | leave (site : Site) (phase : Nat) : s.pc = .blocked site phase → m.barrier1.phase ≠ phase →
      Step errors t m s m { s with pc := site.next t } []
  | calculate : s.pc = .calculate →
      Step errors t m s m
        { pc := .publish, localCount := Transactions.calculateValue errors t } []
  | publish : s.pc = .publish →
      Step errors t m s { m with sharedVariable := s.localCount } { s with pc := .setFinished } []
  | setFinished : s.pc = .setFinished →
      Step errors t m s { m with hyperThreadFinished := true } { s with pc := .wait .hyperThread }
        []
  | start2 : s.pc = .start2 → Step errors t m s m { s with pc := .transaction } []
  | abort (st : AbortStatus) : s.pc = .transaction ∨ s.pc = .spinning →
      Step errors t m s m { s with pc := .fallback st } []
  | commit : s.pc = .transaction → m.hyperThreadFinished = true →
      Step errors t m s m
        { pc := .committed, localCount := Transactions.calculateValue errors t } []
  | spin : s.pc = .transaction → Step errors t m s m { s with pc := .spinning } []
  | spinning : s.pc = .spinning → Step errors t m s m s []
  | explicitAbort (st : AbortStatus) : s.pc = .fallback st → wasExplicitAbort st.bits = true →
      Step errors t m s { m with numAborts := m.numAborts + 1 } { s with pc := .start2 } []
  | otherAbort (st : AbortStatus) : s.pc = .fallback st → wasExplicitAbort st.bits = false →
      Step errors t m s { m with numAborts := m.numAborts + 1 } { s with pc := .check } []
  | late : s.pc = .check → m.hyperThreadFinished = true →
      Step errors t m s m { s with pc := .start2 } []
  | early : s.pc = .check → m.hyperThreadFinished = false →
      Step errors t m s m { s with pc := .wait .abort } []
  | meet : s.pc = .committed → m.hyperThreadFinished = true →
      Step errors t m s m { s with pc := .wait .finish } []
  | finish : s.pc = .committed → m.hyperThreadFinished = false →
      Step errors t m s m { s with pc := .done } []

theorem step_cases {errors : Int → Bool} {t : Fin 2} {w : Outcome} {m m' : Memory} {s s' : Worker}
    {evs : List Event} (hs : (threadFunc5 errors).next t w m s = some (m', s', evs)) :
    Step errors t m s m' s' evs := by
  cases hpc : s.pc with
  | wait site =>
    simp only [threadFunc5, hpc] at hs
    cases hs
    exact .wait site hpc
  | blocked site phase =>
    simp only [threadFunc5, hpc] at hs
    split at hs <;> cases hs
    next hphase => exact .leave site phase hpc hphase
  | calculate =>
    simp only [threadFunc5, hpc] at hs
    cases hs
    exact .calculate hpc
  | publish =>
    simp only [threadFunc5, hpc] at hs
    cases hs
    exact .publish hpc
  | setFinished =>
    simp only [threadFunc5, hpc] at hs
    cases hs
    exact .setFinished hpc
  | start2 =>
    simp only [threadFunc5, hpc] at hs
    cases hs
    exact .start2 hpc
  | transaction =>
    simp only [threadFunc5, hpc] at hs
    split at hs
    · cases hs
      exact .abort _ (.inl hpc)
    · split at hs <;> cases hs
      · next hflag => exact .commit hpc hflag
      · exact .spin hpc
  | spinning =>
    simp only [threadFunc5, hpc] at hs
    split at hs <;> cases hs
    · exact .abort _ (.inr hpc)
    · exact .spinning hpc
  | fallback st =>
    simp only [threadFunc5, hpc] at hs
    cases hs
    split
    · next he => exact .explicitAbort st hpc he
    · next he => exact .otherAbort st hpc (Bool.eq_false_iff.mpr he)
  | check =>
    simp only [threadFunc5, hpc] at hs
    cases hs
    split
    · next hflag => exact .late hpc hflag
    · next hflag => exact .early hpc (Bool.eq_false_iff.mpr hflag)
  | committed =>
    simp only [threadFunc5, hpc] at hs
    cases hs
    split
    · next hflag => exact .meet hpc hflag
    · next hflag => exact .finish hpc (Bool.eq_false_iff.mpr hflag)
  | done =>
    simp only [threadFunc5, hpc] at hs
    cases hs

abbrev State : Type := Threads (Fin 2) Memory Worker

/-- `AtomicOps_Test`, the threads being started. -/
def system (errors : Int → Bool) : System (Fin 2 × Outcome) State Event :=
  (threadFunc5 errors).system ⟨⟨0, false, 0, .init⟩, fun _ => ⟨.wait .start, 0⟩⟩

/-- Thread `t` is in a call of `barrier1` that does not return. -/
def Blocked (t : Fin 2) (st : State) : Prop :=
  ∃ site, (st.regs t).pc = .blocked site st.shared.barrier1.phase

/-- Thread 0 finds `hyperThreadFinished` still 0 after an abort that was not explicit. -/
def Early (l : Fin 2 × Outcome) (st : State) : Prop :=
  (st.regs l.1).pc = .check ∧ st.shared.hyperThreadFinished = false

instance (l : Fin 2 × Outcome) (st : State) : Decidable (Early l st) :=
  inferInstanceAs (Decidable (_ ∧ _))

/-- How often thread `t` has called `barrier1`. -/
def waits (t : Fin 2) (tr : List Event) : Nat :=
  tr.countP fun | .waited u _ => u = t

variable {errors : Int → Bool} {t u : Fin 2} {tr evs : List Event} {m m' : Memory}
  {s s' : Worker} {w : Outcome} {st : State}

/-! ## The barrier -/

def Pc.waiting : Pc → Option Nat
  | .blocked _ phase => some phase
  | _ => none

def party (t : Fin 2) (tr : List Event) (s : Worker) : Party := ⟨waits t tr, s.pc.waiting⟩

theorem waits_append (t : Fin 2) (tr evs : List Event) :
    waits t (tr ++ evs) = waits t tr + waits t evs :=
  List.countP_append

theorem waits_single (t u : Fin 2) (site : Site) :
    waits u [.waited t site] = if t = u then 1 else 0 := by
  unfold waits
  by_cases h : t = u
  · simp [h]
  · simp [h]

/-- Only a call of the barrier is seen. -/
theorem events_cases (hs : (threadFunc5 errors).next t w m s = some (m', s', evs)) :
    evs = [] ∨ ∃ site, s.pc = .wait site ∧ evs = [.waited t site] := by
  cases step_cases hs with
  | wait site hpc => exact .inr ⟨site, hpc, rfl⟩
  | _ => exact .inl rfl

theorem Site.next_waiting (t : Fin 2) (site : Site) : (site.next t).waiting = none := by
  cases site with
  | start =>
    simp only [Site.next]
    split <;> rfl
  | hyperThread | abort | finish => rfl

theorem move (hs : (threadFunc5 errors).next t w m s = some (m', s', evs)) :
    Move m.barrier1 (party t tr s) m'.barrier1 (party t (tr ++ evs) s') := by
  -- most steps have nothing to do with the barrier
  have hstay : m'.barrier1 = m.barrier1 → s.pc.waiting = none → s'.pc.waiting = none →
      evs = [] → Move m.barrier1 (party t tr s) m'.barrier1 (party t (tr ++ evs) s') := by
    intro hbar hwait hwait' hevs
    rw [hevs, List.append_nil, party, party, hwait, hwait', hbar]
    exact .stay _
  cases step_cases hs with
  | wait site hpc =>
    have harrive := Move.arrive (b := m.barrier1) (waits t tr)
    simpa [party, waits_append, waits_single, hpc, Pc.waiting] using harrive
  | leave site phase hpc hne =>
    have hleave := Move.leave (waits t tr) phase hne
    rw [List.append_nil, party, party, hpc, Site.next_waiting]
    exact hleave
  | abort st hpc =>
    rcases hpc with hpc | hpc <;> exact hstay rfl (by rw [hpc]; rfl) rfl rfl
  | spinning hpc => exact hstay rfl (by rw [hpc]; rfl) (by rw [hpc]; rfl) rfl
  | calculate hpc | publish hpc | setFinished hpc | start2 hpc | commit hpc | spin hpc
  | explicitAbort st hpc | otherAbort st hpc | late hpc | early hpc | meet hpc | finish hpc =>
    exact hstay rfl (by rw [hpc]; rfl) rfl rfl

theorem waits_other (hs : (threadFunc5 errors).next t w m s = some (m', s', evs)) (hne : u ≠ t)
    (tr : List Event) : waits u (tr ++ evs) = waits u tr := by
  rcases events_cases hs with rfl | ⟨site, -, rfl⟩
  · rw [List.append_nil]
  · rw [waits_append, waits_single, if_neg hne.symm, Nat.add_zero]

theorem count_abort_other (hs : (threadFunc5 errors).next t w m s = some (m', s', evs))
    (hne : u ≠ t) (tr : List Event) :
    (tr ++ evs).count (.waited u .abort) = tr.count (.waited u .abort) := by
  rw [List.count_append, Nat.add_eq_left, List.count_eq_zero]
  intro he
  rcases events_cases hs with rfl | ⟨site, -, rfl⟩
  · cases he
  · cases List.mem_singleton.mp he
    exact hne rfl

/-- The calls of the two threads pair up. -/
theorem paired {ok : Fin 2 × Outcome → State → Prop} (h : (system errors).RunsWhere ok tr st) :
    Paired st.shared.barrier1 (party 0 tr (st.regs 0)) (party 1 tr (st.regs 1)) := by
  refine Parallel.paired (P := threadFunc5 errors) Memory.barrier1 party (by decide) Paired.init
    (fun _ _ hs => move hs) (fun hne hs => ?_) (fun h0 h1 _ => ?_) h
  · rw [party, party, waits_other hs hne]
  · omega

/-! ## The calls of one thread -/

/-- The calls of a thread up to a place, without those after aborts. -/
def Pc.calls : Pc → Nat
  | .wait .start => 0
  | .blocked .hyperThread _ | .blocked .finish _ | .done => 2
  | _ => 1

/-- Places that only thread 0 comes to. -/
def Pc.main : Pc → Bool
  | .wait .abort | .wait .finish | .blocked .abort _ | .blocked .finish _ | .start2 | .transaction
  | .spinning | .fallback _ | .check | .committed => true
  | _ => false

structure Counted (t : Fin 2) (tr : List Event) (m : Memory) (s : Worker) : Prop where
  calls : waits t tr = s.pc.calls + tr.count (.waited t .abort)
  main : s.pc.main = true → t = 0
  abort : t ≠ 0 → tr.count (.waited t .abort) = 0
  finished : s.pc = .committed → m.hyperThreadFinished = true

theorem Counted.init (m : Memory) : Counted t [] m ⟨.wait .start, 0⟩ :=
  ⟨rfl, fun hc => Bool.noConfusion hc, fun _ => rfl, by simp⟩

/-- A step between two calls. -/
theorem Counted.quiet (h : Counted t tr m s) (hcalls : s'.pc.calls = s.pc.calls)
    (hmain : s'.pc.main = true → s.pc.main = true)
    (hfin : s'.pc = .committed → m'.hyperThreadFinished = true) :
    Counted t (tr ++ []) m' s' := by
  rw [List.append_nil]
  exact ⟨by rw [hcalls]; exact h.calls, fun hc => h.main (hmain hc), h.abort, hfin⟩

theorem Counted.step (h : Counted t tr m s)
    (hs : (threadFunc5 errors).next t w m s = some (m', s', evs)) :
    Counted t (tr ++ evs) m' s' := by
  cases step_cases hs with
  | wait site hpc =>
    have hcalls := h.calls
    have hmain := h.main
    rw [hpc] at hcalls hmain
    refine ⟨?_, ?_, fun hne => ?_, by simp⟩
    · rw [waits_append, hcalls, waits_single, if_pos rfl, List.count_append]
      cases site <;> simp [Pc.calls] <;> omega
    · cases site <;> exact hmain
    · rw [List.count_append, h.abort hne]
      cases site <;> first | exact absurd (hmain rfl) hne | simp
  | leave site phase hpc =>
    cases site with
    | start =>
      have hcalls := h.calls
      rw [hpc] at hcalls
      rw [List.append_nil]
      simp only [Site.next]
      split
      · exact ⟨hcalls, fun hc => Bool.noConfusion hc, h.abort, by simp⟩
      · next ht => exact ⟨hcalls, fun _ => by omega, h.abort, by simp⟩
    | hyperThread | abort | finish =>
      exact h.quiet (by rw [hpc]; rfl) (by simp [Site.next, Pc.main, hpc]) (by simp [Site.next])
  | abort st hpc =>
    rcases hpc with hpc | hpc <;>
      exact h.quiet (by rw [hpc]; rfl) (by simp [Pc.main, hpc]) (by simp)
  | commit hpc hflag => exact h.quiet (by rw [hpc]; rfl) (by simp [Pc.main, hpc]) fun _ => hflag
  | spinning => exact h.quiet rfl id h.finished
  | calculate hpc | publish hpc | setFinished hpc | start2 hpc | spin hpc | explicitAbort st hpc
  | otherAbort st hpc | late hpc | early hpc | meet hpc =>
    exact h.quiet (by rw [hpc]; rfl) (by simp [Pc.main, hpc]) (by simp)
  | finish hpc hflag =>
    rw [h.finished hpc] at hflag
    cases hflag

/-- The flag is never cleared. -/
theorem finished_mono (hs : (threadFunc5 errors).next t w m s = some (m', s', evs))
    (h : m.hyperThreadFinished = true) : m'.hyperThreadFinished = true := by
  cases step_cases hs with
  | setFinished => rfl
  | _ => exact h

theorem counted {ok : Fin 2 × Outcome → State → Prop} (h : (system errors).RunsWhere ok tr st)
    (t : Fin 2) : Counted t tr st.shared (st.regs t) := by
  refine Parallel.rule (P := threadFunc5 errors) (fun t => Counted.init _) ?_ ?_ h t
  · intro t w tr s m r evs _ hI _ hs
    exact (hI t).step hs
  · intro t u w tr s m r evs _ hI hne hs
    have hcount := count_abort_other hs hne tr
    exact ⟨by rw [waits_other hs hne, hcount]; exact (hI u).calls, (hI u).main,
      by rw [hcount]; exact (hI u).abort, fun hc => finished_mono hs ((hI u).finished hc)⟩

theorem Pc.calls_le (pc : Pc) : pc.calls ≤ 2 := by
  unfold Pc.calls
  split <;> omega

theorem paired_of_ne {ok : Fin 2 × Outcome → State → Prop}
    (h : (system errors).RunsWhere ok tr st) (hne : t ≠ u) :
    Paired st.shared.barrier1 (party t tr (st.regs t)) (party u tr (st.regs u)) := by
  obtain ⟨rfl, rfl⟩ | ⟨rfl, rfl⟩ : t = 0 ∧ u = 1 ∨ t = 1 ∧ u = 0 := by omega
  · exact paired h
  · exact (paired h).symm

/-! ## The wait after an abort -/

/-- Only the early step leads there. -/
theorem check_of_wait_abort (hs : (threadFunc5 errors).next t w m s = some (m', s', evs))
    (hpc' : s'.pc = .wait .abort) : s.pc = .check ∧ m.hyperThreadFinished = false := by
  cases step_cases hs with
  | early hpc hflag => exact ⟨hpc, hflag⟩
  | leave site =>
    cases site with
    | start =>
      simp only [Site.next] at hpc'
      split at hpc' <;> cases hpc'
    | hyperThread | abort | finish => cases hpc'
  | spinning hpc =>
    rw [hpc] at hpc'
    cases hpc'
  | _ => cases hpc'

theorem not_waited_abort
    (h : (system errors).RunsWhere (fun l st => ¬ Early l st) tr st) (t : Fin 2) :
    tr.count (.waited t .abort) = 0 ∧ (st.regs t).pc ≠ .wait .abort := by
  refine Parallel.rule (P := threadFunc5 errors)
    (I := fun t tr _ s => tr.count (.waited t .abort) = 0 ∧ s.pc ≠ .wait .abort)
    (fun t => ⟨rfl, by simp⟩) ?_ ?_ h t
  · intro t w tr s m r evs _ hI hok hs
    refine ⟨?_, fun hpc' => hok (check_of_wait_abort hs hpc')⟩
    rw [List.count_append, (hI t).1, Nat.zero_add, List.count_eq_zero]
    intro he
    rcases events_cases hs with rfl | ⟨site, hpc, rfl⟩
    · cases he
    · cases List.mem_singleton.mp he
      exact (hI t).2 hpc
  · intro t u w tr s m r evs _ hI hne hs
    exact ⟨by rw [count_abort_other hs hne]; exact (hI u).1, (hI u).2⟩

/--
**`barrier1` as long as thread 0 does not wait there after an abort.** In every run in which
thread 0 never finds `hyperThreadFinished` still 0 after an abort that was not explicit, no thread
is left in a call of `barrier1` after the other one has returned, and when both have returned they
have called it equally often. In a run in which thread 0 has waited after an abort, it does not
return any more.
-/
theorem barrier1_paired (errors : Int → Bool) :
    (∀ tr st, (system errors).RunsWhere (fun l st => ¬ Early l st) tr st →
      (∀ t u, Blocked t st → (st.regs u).pc ≠ .done) ∧
      ((∀ t, (st.regs t).pc = .done) → waits 0 tr = waits 1 tr)) ∧
    ∀ tr st, (system errors).Runs tr st → .waited 0 .abort ∈ tr → (st.regs 0).pc ≠ .done := by
  refine ⟨fun tr st h => ⟨?_, fun hdone => ?_⟩, fun tr st h hmem hdone => ?_⟩
  · rintro t u ⟨site, hpc⟩ hdone
    have hne : t ≠ u := by
      rintro rfl
      rw [hpc] at hdone
      cases hdone
    have hmore : waits t tr = waits u tr + 1 :=
      (paired_of_ne h hne).calls_of_blocked (by rw [party, hpc]; rfl)
    have ht := (counted h t).calls
    have hu := (counted h u).calls
    rw [(not_waited_abort h t).1] at ht
    rw [hdone] at hu
    have hle := (st.regs t).pc.calls_le
    have htwo : Pc.done.calls = 2 := rfl
    omega
  · rw [(counted h 0).calls, (counted h 1).calls, (not_waited_abort h 0).1,
      (not_waited_abort h 1).1, hdone 0, hdone 1]
  · have hle : waits 0 tr ≤ waits 1 tr := (paired h).calls_le (by rw [party, hdone]; rfl)
    have h0 := (counted h 0).calls
    have h1 := (counted h 1).calls
    rw [hdone] at h0
    rw [(counted h 1).abort (by decide)] at h1
    have hle1 := (st.regs 1).pc.calls_le
    have htwo : Pc.done.calls = 2 := rfl
    have hpos := List.count_pos_iff.mpr hmem
    omega

/-- A run without aborts: both threads return. -/
theorem barrier1_paired_small :
    ∃ tr st, (system fun _ => false).RunsWhere (fun l st => ¬ Early l st) tr st ∧
      (∀ t, (st.regs t).pc = .done) ∧ waits 0 tr = waits 1 tr := by
  obtain ⟨tr, st, hr, hdone⟩ := (system fun _ => false).exists_runsWhere (fun l st => ¬ Early l st)
    ([0, 1, 1, 1, 1, 1, 1, 0, 0, 0, 0, 0, 1, 0].map fun t => (t, .completes))
    (fun _ st => ∀ t, (st.regs t).pc = .done) (by decide)
  exact ⟨tr, st, hr, hdone, ((barrier1_paired fun _ => false).1 tr st hr).2 hdone⟩

/-- The status of an abort for none of the reasons that the hardware reports. -/
def noReason : AbortStatus where
  bits := 0
  ne_started := by decide

/-- A transaction aborts before thread 1 has finished. Thread 0 meets thread 1 at its second call
and waits for ever in its third. -/
theorem barrier1_stuck :
    ∃ tr st, (system fun _ => false).Runs tr st ∧ Blocked 0 st ∧ (st.regs 1).pc = .done ∧
      waits 0 tr ≠ waits 1 tr := by
  obtain ⟨tr, st, hr, hpc, hdone, hwaits⟩ := (system fun _ => false).exists_runs
    (([0, 1, 1, 0, 0].map fun t => (t, .completes)) ++ [(0, .aborts noReason)] ++
      ([0, 0, 0, 1, 1, 1, 1, 1, 0, 0, 0, 0, 0].map fun t => (t, .completes)))
    (fun tr st => (st.regs 0).pc = .blocked .finish st.shared.barrier1.phase ∧
      (st.regs 1).pc = .done ∧ waits 0 tr ≠ waits 1 tr) (by decide)
  exact ⟨tr, st, hr, ⟨.finish, hpc⟩, hdone, hwaits⟩

end AtomicOps

end TsxProject
