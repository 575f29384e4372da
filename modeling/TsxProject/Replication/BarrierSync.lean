import TsxProject.Infra.Barrier
import TsxProject.Infra.Fairness
import TsxProject.Replication.SignalSync

/-!
# Replication with barriers

`ThreadReplicationFunc_BarrierSync` of `TestTSX.c`: the two threads of
`ThreadReplicationFunc_SignalSync`, brought together by two barriers instead. Thread 1 calls both
barriers in each iteration, and thread 0 only the first one. It is thread 0 too that initialises
them, at its start; a call before that is undefined.

* `barrierSync` — the threads
* `Inv` — thread 1 is in its first iteration, and thread 0 is at most one ahead
* `fair_deadlocks` — what every fair schedule comes to, once the first barrier is there
-/

namespace TsxProject

open Infra

namespace BarrierSync

open SignalSync (IterationStatus calcFun)

inductive Pc where
  /-- `pthread_barrier_init(&barrier1, NULL, 2)`, in thread 0 -/
  | init1
  /-- `pthread_barrier_init(&barrier2, NULL, 2)`, in thread 0 -/
  | init2
  /-- `i < NUM_VALUES` -/
  | loop
  /-- `v1` or `v2 = ThreadReplicationCalcFun(i)` -/
  | calculate
  /-- the injected fault -/
  | inject
  /-- `pthread_barrier_wait(&barrier1)` -/
  | wait1
  | blocked1 (phase : Nat)
  /-- `pthread_barrier_wait(&barrier2)` -/
  | wait2
  | blocked2 (phase : Nat)
  /-- `v1 != v2` -/
  | compare
  /-- the store of `iterationStatus` -/
  | report (fails : Bool)
  /-- `if(iterationStatus == failed)`, which both threads execute -/
  | check
  /-- `result += v1` -/
  | add
  /-- `i++` -/
  | next
  | done
  /-- a barrier was called that is not initialised -/
  | undefined
  deriving DecidableEq

/-- The globals. Until a barrier is initialised it has no meaning. -/
structure Memory where
  v1 : Int
  v2 : Int
  iterationStatus : IterationStatus
  firstTime : Bool
  barrier1 : Barrier
  barrier2 : Barrier
  initialised1 : Bool
  initialised2 : Bool

/-- A thread. -/
structure Worker where
  pc : Pc
  i : Int
  result : Int

/-- Thread 0, at index `i`, compares the two values. -/
structure Comparison where
  i : Int
  fails : Bool
  deriving DecidableEq

/-- `ThreadReplicationFunc_BarrierSync` -/
def barrierSync (numValues : Nat) : Parallel (Fin 2) Unit Memory Worker Comparison where
  next t _ m s :=
    match s.pc with
    | .init1 =>
      some ({ m with barrier1 := .init, initialised1 := true }, { s with pc := .init2 }, [])
    | .init2 =>
      some ({ m with barrier2 := .init, initialised2 := true }, { s with pc := .loop }, [])
    | .loop => some (m, { s with pc := if s.i < numValues then .calculate else .done }, [])
    | .calculate =>
      if t.val = 1 then some ({ m with v2 := calcFun s.i }, { s with pc := .inject }, [])
      else some ({ m with v1 := calcFun s.i }, { s with pc := .wait1 }, [])
    | .inject =>
      if s.i = 6 ∧ m.firstTime then
        some ({ m with firstTime := false, v2 := 2 }, { s with pc := .wait1 }, [])
      else some (m, { s with pc := .wait1 }, [])
    | .wait1 =>
      if m.initialised1 then
        some ({ m with barrier1 := m.barrier1.arrive 2 },
          { s with pc := .blocked1 m.barrier1.phase }, [])
      else some (m, { s with pc := .undefined }, [])
    | .blocked1 phase =>
      if m.barrier1.phase = phase then none
      else some (m, { s with pc := if t.val = 1 then .wait2 else .compare }, [])
    | .wait2 =>
      if m.initialised2 then
        some ({ m with barrier2 := m.barrier2.arrive 2 },
          { s with pc := .blocked2 m.barrier2.phase }, [])
      else some (m, { s with pc := .undefined }, [])
    | .blocked2 phase =>
      if m.barrier2.phase = phase then none else some (m, { s with pc := .check }, [])
    | .compare => some (m, { s with pc := .report (m.v1 ≠ m.v2) }, [⟨s.i, m.v1 ≠ m.v2⟩])
    | .report fails =>
      some ({ m with iterationStatus := if fails then .failed else .successfull },
        { s with pc := .check }, [])
    | .check =>
      if m.iterationStatus = .failed then some (m, { s with i := s.i - 1, pc := .next }, [])
      else some (m, { s with pc := .add }, [])
    | .add => some (m, { s with result := s.result + m.v1, pc := .next }, [])
    | .next => some (m, { s with i := s.i + 1, pc := .loop }, [])
    | .done | .undefined => none

/-- What a step can do. -/
inductive Step (numValues : Nat) (t : Fin 2) (m : Memory) (s : Worker) :
    Memory → Worker → List Comparison → Prop where
  | init1 : s.pc = .init1 →
      Step numValues t m s { m with barrier1 := .init, initialised1 := true }
        { s with pc := .init2 } []
  | init2 : s.pc = .init2 →
      Step numValues t m s { m with barrier2 := .init, initialised2 := true }
        { s with pc := .loop } []
  | enter : s.pc = .loop → s.i < numValues → Step numValues t m s m { s with pc := .calculate } []
  | exit : s.pc = .loop → ¬ s.i < numValues → Step numValues t m s m { s with pc := .done } []
  | calculateMain : s.pc = .calculate → t = 0 →
      Step numValues t m s { m with v1 := calcFun s.i } { s with pc := .wait1 } []
  | calculate : s.pc = .calculate → t = 1 →
      Step numValues t m s { m with v2 := calcFun s.i } { s with pc := .inject } []
  | fault : s.pc = .inject → s.i = 6 ∧ m.firstTime = true →
      Step numValues t m s { m with firstTime := false, v2 := 2 } { s with pc := .wait1 } []
  | noFault : s.pc = .inject → ¬ (s.i = 6 ∧ m.firstTime = true) →
      Step numValues t m s m { s with pc := .wait1 } []
  | arrive1 : s.pc = .wait1 → m.initialised1 = true →
      Step numValues t m s { m with barrier1 := m.barrier1.arrive 2 }
        { s with pc := .blocked1 m.barrier1.phase } []
  | leave1Main (phase : Nat) : s.pc = .blocked1 phase → t = 0 → m.barrier1.phase ≠ phase →
      Step numValues t m s m { s with pc := .compare } []
  | leave1 (phase : Nat) : s.pc = .blocked1 phase → t = 1 → m.barrier1.phase ≠ phase →
      Step numValues t m s m { s with pc := .wait2 } []
  | arrive2 : s.pc = .wait2 → m.initialised2 = true →
      Step numValues t m s { m with barrier2 := m.barrier2.arrive 2 }
        { s with pc := .blocked2 m.barrier2.phase } []
  | leave2 (phase : Nat) : s.pc = .blocked2 phase → m.barrier2.phase ≠ phase →
      Step numValues t m s m { s with pc := .check } []
  | compare : s.pc = .compare →
      Step numValues t m s m { s with pc := .report (m.v1 ≠ m.v2) } [⟨s.i, m.v1 ≠ m.v2⟩]
  | report (fails : Bool) : s.pc = .report fails →
      Step numValues t m s { m with iterationStatus := if fails then .failed else .successfull }
        { s with pc := .check } []
  | retry : s.pc = .check → m.iterationStatus = .failed →
      Step numValues t m s m { s with i := s.i - 1, pc := .next } []
  | accept : s.pc = .check → m.iterationStatus ≠ .failed →
      Step numValues t m s m { s with pc := .add } []
  | add : s.pc = .add →
      Step numValues t m s m { s with result := s.result + m.v1, pc := .next } []
  | next : s.pc = .next → Step numValues t m s m { s with i := s.i + 1, pc := .loop } []
  | undefined : s.pc = .wait1 ∧ m.initialised1 = false ∨ s.pc = .wait2 ∧ m.initialised2 = false →
      Step numValues t m s m { s with pc := .undefined } []

theorem step_cases {numValues : Nat} {t : Fin 2} {m m' : Memory} {s s' : Worker}
    {evs : List Comparison} (hs : (barrierSync numValues).next t () m s = some (m', s', evs)) :
    Step numValues t m s m' s' evs := by
  have hreplica : t.val = 1 → t = 1 := by omega
  have hmain : t.val ≠ 1 → t = 0 := by omega
  cases hpc : s.pc with
  | init1 =>
    simp only [barrierSync, hpc] at hs
    cases hs
    exact .init1 hpc
  | init2 =>
    simp only [barrierSync, hpc] at hs
    cases hs
    exact .init2 hpc
  | loop =>
    simp only [barrierSync, hpc] at hs
    cases hs
    split
    · next hlt => exact .enter hpc hlt
    · next hge => exact .exit hpc hge
  | calculate =>
    simp only [barrierSync, hpc] at hs
    split at hs <;> cases hs
    · next ht => exact .calculate hpc (hreplica ht)
    · next ht => exact .calculateMain hpc (hmain ht)
  | inject =>
    simp only [barrierSync, hpc] at hs
    split at hs <;> cases hs
    · next hfault => exact .fault hpc hfault
    · next hfault => exact .noFault hpc hfault
  | wait1 =>
    simp only [barrierSync, hpc] at hs
    split at hs <;> cases hs
    · next hinit => exact .arrive1 hpc hinit
    · next hinit => exact .undefined (.inl ⟨hpc, Bool.eq_false_iff.mpr hinit⟩)
  | blocked1 phase =>
    simp only [barrierSync, hpc] at hs
    split at hs <;> cases hs
    next hphase =>
    split
    · next ht => exact .leave1 phase hpc (hreplica ht) hphase
    · next ht => exact .leave1Main phase hpc (hmain ht) hphase
  | wait2 =>
    simp only [barrierSync, hpc] at hs
    split at hs <;> cases hs
    · next hinit => exact .arrive2 hpc hinit
    · next hinit => exact .undefined (.inr ⟨hpc, Bool.eq_false_iff.mpr hinit⟩)
  | blocked2 phase =>
    simp only [barrierSync, hpc] at hs
    split at hs <;> cases hs
    next hphase => exact .leave2 phase hpc hphase
  | compare =>
    simp only [barrierSync, hpc] at hs
    cases hs
    exact .compare hpc
  | report fails =>
    simp only [barrierSync, hpc] at hs
    cases hs
    exact .report fails hpc
  | check =>
    simp only [barrierSync, hpc] at hs
    split at hs <;> cases hs
    · next hfailed => exact .retry hpc hfailed
    · next hfailed => exact .accept hpc hfailed
  | add =>
    simp only [barrierSync, hpc] at hs
    cases hs
    exact .add hpc
  | next =>
    simp only [barrierSync, hpc] at hs
    cases hs
    exact .next hpc
  | done | undefined =>
    simp only [barrierSync, hpc] at hs
    cases hs

abbrev State : Type := Threads (Fin 2) Memory Worker

def system (numValues : Nat) : System (Fin 2 × Unit) State Comparison :=
  (barrierSync numValues).system
    ⟨⟨-1, -1, .started, true, .init, .init, false, false⟩,
      fun t => ⟨if t.val = 0 then .init1 else .loop, 0, 0⟩⟩

variable {numValues : Nat} {tr evs : List Comparison} {m m' : Memory} {s s' r : Worker}
  {st : State}

/-! ## The two threads -/

/-- The calls of `barrier1` in the current iteration. -/
def Pc.called : Pc → Nat
  | .init1 | .init2 | .loop | .calculate | .inject | .wait1 | .done | .undefined => 0
  | _ => 1

def Pc.waiting : Pc → Option Nat
  | .blocked1 phase => some phase
  | _ => none

/-- The part of a thread in `barrier1`. -/
def party (s : Worker) : Party := ⟨s.i.toNat + s.pc.called, s.pc.waiting⟩

/-- The comparisons in the current iteration. -/
def Pc.compared : Pc → Nat
  | .report _ | .check | .add | .next => 1
  | _ => 0

/-- Which barriers thread 0 has initialised. -/
def Initialised (m : Memory) : Pc → Prop
  | .init1 => m.barrier1 = .init ∧ m.initialised1 = false ∧ m.initialised2 = false
  | .init2 => m.initialised1 = true ∧ m.initialised2 = false
  | _ => m.initialised1 = true ∧ m.initialised2 = true

/-- What is known of thread 0 at each place. -/
def MainPlace (numValues : Nat) (m : Memory) (i : Int) : Pc → Prop
  | .init1 | .init2 => i = 0
  | .loop => i ≤ numValues
  | .calculate => i < numValues
  | .wait1 | .blocked1 _ | .compare | .check | .add | .next => i < numValues ∧ m.v1 = 1
  | .report fails => i < numValues ∧ m.v1 = 1 ∧ fails = false
  | .done => i = numValues
  | .inject | .wait2 | .blocked2 _ | .undefined => False

structure MainAt (numValues : Nat) (tr : List Comparison) (m : Memory) (s : Worker) : Prop where
  place : MainPlace numValues m s.i s.pc
  initialised : Initialised m s.pc
  nonneg : 0 ≤ s.i
  passes : m.iterationStatus ≠ .failed
  result : s.result = s.i + if s.pc = .next then 1 else 0
  trace : tr = (List.range (s.i.toNat + s.pc.compared)).map fun k => ⟨k, false⟩

/-- What is known of thread 1 at each place. -/
def ReplicaPlace (numValues : Nat) (m : Memory) : Pc → Prop
  | .loop | .undefined => m.barrier2 = .init
  | .done => m.barrier2 = .init ∧ numValues = 0
  | .calculate => m.barrier2 = .init ∧ 0 < numValues
  | .inject | .wait1 | .blocked1 _ | .wait2 => m.barrier2 = .init ∧ 0 < numValues ∧ m.v2 = 1
  | .blocked2 phase =>
    m.barrier2 = ⟨1, 0⟩ ∧ m.initialised2 = true ∧ phase = 0 ∧ 0 < numValues ∧ m.v2 = 1
  | .init1 | .init2 | .compare | .report _ | .check | .add | .next => False

structure ReplicaAt (numValues : Nat) (m : Memory) (s : Worker) : Prop where
  place : ReplicaPlace numValues m s.pc
  first : s.i = 0
  result : s.result = 0
  armed : m.firstTime = true

structure Inv (numValues : Nat) (tr : List Comparison) (st : State) : Prop where
  main : MainAt numValues tr st.shared (st.regs 0)
  replica : ReplicaAt numValues st.shared (st.regs 1)
  paired : Paired st.shared.barrier1 (party (st.regs 0)) (party (st.regs 1))

theorem ReplicaAt.v2_eq (h : ReplicaAt numValues m s) (hcalls : 0 < (party s).calls) :
    m.v2 = 1 := by
  obtain ⟨pc, i, res⟩ := s
  obtain ⟨hplace, rfl, -, -⟩ := h
  unfold party at hcalls
  cases pc with
  | blocked1 phase => exact hplace.2.2
  | wait2 => exact hplace.2.2
  | blocked2 phase => exact hplace.2.2.2.2
  | loop | calculate | inject | wait1 | done | undefined => exact absurd hcalls (Nat.lt_irrefl 0)
  | init1 | init2 | compare | report fails | check | add | next => exact hplace.elim

/-- The second barrier is used only when it is initialised. -/
theorem ReplicaAt.barrier2_eq (h : ReplicaAt numValues m s) (hinit : m.initialised2 = false) :
    m.barrier2 = .init := by
  obtain ⟨pc, i, res⟩ := s
  obtain ⟨hplace, -, -, -⟩ := h
  cases pc with
  | blocked2 phase =>
    rw [hplace.2.1] at hinit
    cases hinit
  | loop | undefined => exact hplace
  | calculate | inject | wait1 | blocked1 phase | wait2 | done => exact hplace.1
  | init1 | init2 | compare | report fails | check | add | next => exact hplace.elim

/-- Thread 0 initialises the barriers first. -/
theorem MainAt.not_undefined (h : MainAt numValues tr m s) :
    ¬ (s.pc = .wait1 ∧ m.initialised1 = false ∨ s.pc = .wait2 ∧ m.initialised2 = false) := by
  obtain ⟨hplace, hinit, -, -, -, -⟩ := h
  rintro (⟨hpc, hfalse⟩ | ⟨hpc, -⟩)
  · rw [hpc] at hinit
    rw [hinit.1] at hfalse
    cases hfalse
  · rw [hpc] at hplace
    exact hplace

theorem MainAt.move (h : MainAt numValues tr m s) (hs : Step numValues 0 m s m' s' evs) :
    Move m.barrier1 (party s) m'.barrier1 (party s') := by
  have hdefined := h.not_undefined
  obtain ⟨pc, i, res⟩ := s
  obtain ⟨hplace, hinit, hnonneg, hpasses, -, -⟩ := h
  cases hs with
  | init1 hp =>
    cases hp
    show Move m.barrier1 _ .init _
    rw [hinit.1]
    exact .stay _
  | arrive1 hp =>
    cases hp
    exact .arrive i.toNat
  | leave1Main phase hp _ hphase =>
    cases hp
    exact .leave (i.toNat + 1) phase hphase
  | retry hp hfailed => exact absurd hfailed hpasses
  | next hp =>
    cases hp
    have hnext : party ⟨.loop, i + 1, res⟩ = party ⟨.next, i, res⟩ := by
      dsimp only at hnonneg
      simp only [party, Pc.called, Pc.waiting, Party.mk.injEq, and_true]
      omega
    rw [hnext]
    exact .stay _
  | leave2 phase hp | fault hp | noFault hp | arrive2 hp =>
    cases hp
    exact hplace.elim
  | undefined hp => exact absurd hp hdefined
  | calculate hp ht => exact absurd ht (by decide)
  | leave1 phase hp ht => exact absurd ht (by decide)
  | init2 hp | enter hp | exit hp | calculateMain hp | compare hp | report fails hp | accept hp
  | add hp =>
    cases hp
    exact .stay _

theorem ReplicaAt.move (h : ReplicaAt numValues m s)
    (hready : s.pc = .wait2 → m.initialised2 = true) (hs : Step numValues 1 m s m' s' evs) :
    Move m.barrier1 (party s) m'.barrier1 (party s') := by
  obtain ⟨pc, i, res⟩ := s
  obtain ⟨hplace, -, -, -⟩ := h
  cases hs with
  | arrive1 hp =>
    cases hp
    exact .arrive i.toNat
  | leave1 phase hp _ hphase =>
    cases hp
    exact .leave (i.toNat + 1) phase hphase
  | leave2 phase hp hphase =>
    cases hp
    obtain ⟨hbar, -, rfl, -, -⟩ := hplace
    rw [hbar] at hphase
    exact absurd rfl hphase
  | undefined hp =>
    rcases hp with ⟨hp, -⟩ | ⟨hp, hfalse⟩
    · cases hp
      exact .stay _
    · rw [hready hp] at hfalse
      cases hfalse
  | init1 hp | init2 hp | compare hp | report fails hp | retry hp | accept hp | add hp | next hp =>
    cases hp
    exact hplace.elim
  | calculateMain hp ht => exact absurd ht (by decide)
  | leave1Main phase hp ht => exact absurd ht (by decide)
  | enter hp | exit hp | calculate hp | fault hp | noFault hp | arrive2 hp =>
    cases hp
    exact .stay _

/-! ## What the other thread reads -/

theorem MainAt.frame {r : Worker} (h : MainAt numValues tr m s) (hr : ReplicaAt numValues m r)
    (hs : Step numValues 0 m s m' s' evs) :
    m'.v2 = m.v2 ∧ m'.barrier2 = m.barrier2 ∧ m'.firstTime = m.firstTime ∧
      (m.initialised2 = true → m'.initialised2 = true) := by
  obtain ⟨pc, i, res⟩ := s
  have hplace := h.place
  have hinit := h.initialised
  cases hs with
  | calculate hp ht => exact absurd ht (by decide)
  | fault hp | arrive2 hp =>
    cases hp
    exact hplace.elim
  | init2 hp =>
    cases hp
    exact ⟨rfl, (hr.barrier2_eq hinit.2).symm, rfl, fun _ => rfl⟩
  | init1 | undefined | enter | exit | calculateMain | noFault | arrive1 | leave1Main | leave1
  | leave2 | compare | report | retry | accept | add | next => exact ⟨rfl, rfl, rfl, id⟩

theorem ReplicaAt.frame (h : ReplicaAt numValues m s) (hs : Step numValues 1 m s m' s' evs) :
    m'.v1 = m.v1 ∧ m'.iterationStatus = m.iterationStatus ∧ evs = [] ∧
      m'.initialised1 = m.initialised1 ∧ m'.initialised2 = m.initialised2 ∧
      (m.initialised1 = false → m'.barrier1 = m.barrier1) := by
  obtain ⟨pc, i, res⟩ := s
  have hplace := h.place
  cases hs with
  | calculateMain hp ht => exact absurd ht (by decide)
  | init1 hp | init2 hp | compare hp | report fails hp =>
    cases hp
    exact hplace.elim
  | arrive1 _ hinit =>
    refine ⟨rfl, rfl, rfl, rfl, rfl, ?_⟩
    intro hfalse
    rw [hinit] at hfalse
    cases hfalse
  | enter | exit | calculate | fault | noFault | leave1Main | leave1 | arrive2 | leave2
  | retry | accept | add | next | undefined => exact ⟨rfl, rfl, rfl, rfl, rfl, fun _ => rfl⟩

theorem MainAt.of_eq (h : MainAt numValues tr m s) (hv : m'.v1 = m.v1)
    (hstatus : m'.iterationStatus = m.iterationStatus)
    (hinit1 : m'.initialised1 = m.initialised1) (hinit2 : m'.initialised2 = m.initialised2)
    (hbar : m.initialised1 = false → m'.barrier1 = m.barrier1) : MainAt numValues tr m' s := by
  obtain ⟨hplace, hinit, hnonneg, hpasses, hres, htr⟩ := h
  refine ⟨?_, ?_, hnonneg, by rwa [hstatus], hres, htr⟩
  · unfold MainPlace at hplace ⊢
    rwa [hv]
  · unfold Initialised at hinit ⊢
    rw [hinit1, hinit2]
    split at hinit <;> try exact hinit
    exact ⟨(hbar hinit.2.1).trans hinit.1, hinit.2⟩

theorem ReplicaAt.of_eq (h : ReplicaAt numValues m s) (hv : m'.v2 = m.v2)
    (hbar : m'.barrier2 = m.barrier2) (harmed : m'.firstTime = m.firstTime)
    (hinit : m.initialised2 = true → m'.initialised2 = true) : ReplicaAt numValues m' s := by
  obtain ⟨hplace, hfirst, hres, htime⟩ := h
  refine ⟨?_, hfirst, hres, by rwa [harmed]⟩
  unfold ReplicaPlace at hplace ⊢
  rw [hv, hbar]
  split at hplace <;> try exact hplace
  exact ⟨hplace.1, hinit hplace.2.1, hplace.2.2⟩

/-! ## The invariant -/

theorem MainAt.step (h : MainAt numValues tr m s) (hv2 : s.pc = .compare → m.v2 = 1)
    (hs : Step numValues 0 m s m' s' evs) : MainAt numValues (tr ++ evs) m' s' := by
  have hdefined := h.not_undefined
  obtain ⟨pc, i, res⟩ := s
  obtain ⟨hplace, hinit, hnonneg, hpasses, hres, htr⟩ := h
  dsimp only at hplace hinit hnonneg hres htr hv2
  cases hs with
  | init1 hp =>
    cases hp
    exact ⟨hplace, ⟨rfl, hinit.2.2⟩, hnonneg, hpasses, hres, by rwa [List.append_nil]⟩
  | init2 hp =>
    cases hp
    refine ⟨?_, ⟨hinit.1, rfl⟩, hnonneg, hpasses, hres, by rwa [List.append_nil]⟩
    have hzero : i = 0 := hplace
    show i ≤ numValues
    omega
  | undefined hp => exact absurd hp hdefined
  | enter hp hlt =>
    cases hp
    exact ⟨hlt, hinit, hnonneg, hpasses, hres, by rwa [List.append_nil]⟩
  | exit hp hge =>
    cases hp
    have hle : i ≤ numValues := hplace
    have heq : i = numValues := by
      dsimp only at hge
      omega
    exact ⟨heq, hinit, hnonneg, hpasses, hres, by rwa [List.append_nil]⟩
  | calculateMain hp =>
    cases hp
    exact ⟨⟨hplace, rfl⟩, hinit, hnonneg, hpasses, hres, by rwa [List.append_nil]⟩
  | arrive1 hp | leave1Main phase hp =>
    cases hp
    exact ⟨hplace, hinit, hnonneg, hpasses, hres, by rwa [List.append_nil]⟩
  | compare hp =>
    cases hp
    obtain ⟨hlt, hv1⟩ := hplace
    have hsame : decide (m.v1 ≠ m.v2) = false := by
      rw [hv1, hv2 rfl]
      rfl
    refine ⟨⟨hlt, hv1, hsame⟩, hinit, hnonneg, hpasses, hres, ?_⟩
    rw [htr, hsame]
    simp only [Pc.compared, Nat.add_zero, List.range_succ, List.map_append, List.map_cons,
      List.map_nil, Int.toNat_of_nonneg hnonneg]
  | report fails hp =>
    cases hp
    obtain ⟨hlt, hv1, rfl⟩ := hplace
    refine ⟨⟨hlt, hv1⟩, hinit, hnonneg, ?_, hres, by rwa [List.append_nil]⟩
    intro hfailed
    cases hfailed
  | retry hp hfailed => exact absurd hfailed hpasses
  | accept hp =>
    cases hp
    exact ⟨hplace, hinit, hnonneg, hpasses, hres, by rwa [List.append_nil]⟩
  | add hp =>
    cases hp
    refine ⟨hplace, hinit, hnonneg, hpasses, ?_, by rwa [List.append_nil]⟩
    have hold : res = i + 0 := hres
    show res + m.v1 = i + 1
    rw [hplace.2, hold, Int.add_zero]
  | next hp =>
    cases hp
    have hlt : i < numValues := hplace.1
    refine ⟨?_, hinit, ?_, hpasses, ?_, ?_⟩
    · show i + 1 ≤ numValues
      omega
    · show 0 ≤ i + 1
      omega
    · show res = i + 1 + 0
      rw [hres, Int.add_zero]
      rfl
    · rw [List.append_nil, htr]
      have hcount : (i + 1).toNat = i.toNat + 1 := by omega
      simp only [Pc.compared, hcount, Nat.add_zero]
  | calculate hp ht => exact absurd ht (by decide)
  | leave1 phase hp ht => exact absurd ht (by decide)
  | fault hp | noFault hp | arrive2 hp | leave2 phase hp =>
    cases hp
    exact hplace.elim

theorem ReplicaAt.step (h : ReplicaAt numValues m s)
    (hready : s.pc = .wait2 → m.initialised2 = true) (hs : Step numValues 1 m s m' s' evs) :
    ReplicaAt numValues m' s' := by
  obtain ⟨pc, i, res⟩ := s
  obtain ⟨hplace, hfirst, hres, harmed⟩ := h
  dsimp only at hplace hfirst hres
  subst hfirst
  cases hs with
  | enter hp hlt =>
    cases hp
    exact ⟨⟨hplace, Int.natCast_pos.mp hlt⟩, rfl, hres, harmed⟩
  | exit hp hge =>
    cases hp
    have hzero : numValues = 0 := by
      dsimp only at hge
      omega
    exact ⟨⟨hplace, hzero⟩, rfl, hres, harmed⟩
  | calculate hp =>
    cases hp
    exact ⟨⟨hplace.1, hplace.2, rfl⟩, rfl, hres, harmed⟩
  | fault hp hfault =>
    obtain ⟨hsix, -⟩ := hfault
    dsimp only at hsix
    omega
  | noFault hp | arrive1 hp | leave1 phase hp =>
    cases hp
    exact ⟨hplace, rfl, hres, harmed⟩
  | arrive2 hp hinit =>
    cases hp
    obtain ⟨hbar, hpos, hv2⟩ := hplace
    refine ⟨⟨?_, hinit, ?_, hpos, hv2⟩, rfl, hres, harmed⟩
    · show m.barrier2.arrive 2 = ⟨1, 0⟩
      rw [hbar]
      exact Barrier.arrive_first rfl
    · rw [hbar]
      rfl
  | leave2 phase hp hphase =>
    cases hp
    obtain ⟨hbar, -, rfl, -, -⟩ := hplace
    rw [hbar] at hphase
    exact absurd rfl hphase
  | undefined hp =>
    rcases hp with ⟨hp, -⟩ | ⟨hp, hfalse⟩
    · cases hp
      exact ⟨hplace.1, rfl, hres, harmed⟩
    · rw [hready hp] at hfalse
      cases hfalse
  | calculateMain hp ht => exact absurd ht (by decide)
  | leave1Main phase hp ht => exact absurd ht (by decide)
  | init1 hp | init2 hp | compare hp | report fails hp | retry hp | accept hp | add hp | next hp =>
    cases hp
    exact hplace.elim

/-- Who compares has left the barrier, so thread 1 has been there. -/
theorem Inv.v2_eq (h : Inv numValues tr st) (hpc : (st.regs 0).pc = .compare) :
    st.shared.v2 = 1 := by
  have hle := h.paired.calls_le (by rw [party, hpc]; rfl)
  refine h.replica.v2_eq (Nat.lt_of_lt_of_le ?_ hle)
  rw [party, hpc]
  exact Nat.succ_pos _

/-- Who is at the second barrier has left the first one, so thread 0 has been there. -/
theorem Inv.ready (h : Inv numValues tr st) (hpc : (st.regs 1).pc = .wait2) :
    st.shared.initialised2 = true := by
  have hle := h.paired.symm.calls_le (by rw [party, hpc]; rfl)
  have hplace := h.main.place
  have hinit := h.main.initialised
  rw [party, party, hpc] at hle
  simp only [Pc.called] at hle
  unfold Initialised at hinit
  split at hinit
  · next hpc' =>
    rw [hpc'] at hplace hle
    have hzero : (st.regs 0).i = 0 := hplace
    rw [hzero] at hle
    simp only [Int.toNat_zero] at hle
    omega
  · next hpc' =>
    rw [hpc'] at hplace hle
    have hzero : (st.regs 0).i = 0 := hplace
    rw [hzero] at hle
    simp only [Int.toNat_zero] at hle
    omega
  · exact hinit.2

theorem inv (h : (system numValues).Runs tr st) : Inv numValues tr st := by
  refine h.rule (I := Inv numValues) ?_ ?_
  · refine ⟨⟨rfl, ⟨rfl, rfl, rfl⟩, Int.le_refl 0, ?_, rfl, rfl⟩, ⟨rfl, rfl, rfl, rfl⟩, .init⟩
    intro hfailed
    cases hfailed
  · rintro ⟨t, ⟨⟩⟩ tr st st' evs - ih - hs
    obtain ⟨m, r, hx, rfl⟩ := Parallel.step_cases hs
    have hstep := step_cases hx
    have ht : t = 0 ∨ t = 1 := by omega
    rcases ht with rfl | rfl
    · obtain ⟨hv2, hbar, harmed, hinit⟩ := ih.main.frame ih.replica hstep
      have hother : Function.update st.regs 0 r 1 = st.regs 1 :=
        Function.update_of_ne (by decide) ..
      refine ⟨?_, ?_, ?_⟩
      · dsimp only
        rw [Function.update_self]
        exact ih.main.step ih.v2_eq hstep
      · dsimp only
        rw [hother]
        exact ih.replica.of_eq hv2 hbar harmed hinit
      · dsimp only
        rw [Function.update_self, hother]
        exact ih.paired.move (ih.main.move hstep)
    · obtain ⟨hv1, hstatus, rfl, hinit1, hinit2, hbar⟩ := ih.replica.frame hstep
      have hother : Function.update st.regs 1 r 0 = st.regs 0 :=
        Function.update_of_ne (by decide) ..
      refine ⟨?_, ?_, ?_⟩
      · dsimp only
        rw [hother, List.append_nil]
        exact ih.main.of_eq hv1 hstatus hinit1 hinit2 hbar
      · dsimp only
        rw [Function.update_self]
        exact ih.replica.step ih.ready hstep
      · dsimp only
        rw [Function.update_self, hother]
        exact (ih.paired.symm.move (ih.replica.move ih.ready hstep)).symm

/-! ## The end of the schedule -/

/-- How far it is to the next iteration. -/
def Pc.offset : Pc → Nat
  | .init1 => 14
  | .init2 => 13
  | .loop => 12
  | .calculate => 11
  | .inject => 10
  | .wait1 => 9
  | .blocked1 _ => 8
  | .wait2 => 7
  | .blocked2 _ => 6
  | .compare => 5
  | .report _ => 4
  | .check => 3
  | .add => 2
  | .next => 1
  | .done | .undefined => 0

def Worker.rank (numValues : Nat) (s : Worker) : Nat :=
  (numValues - s.i).toNat * 16 + s.pc.offset

theorem Step.rank_lt {t : Fin 2} (hs : Step numValues t m s m' s' evs)
    (hnext : s.pc = .next → s.i < numValues)
    (hpasses : s.pc = .check → m.iterationStatus ≠ .failed) :
    s'.rank numValues < s.rank numValues := by
  obtain ⟨pc, i, res⟩ := s
  dsimp only at hnext hpasses
  unfold Worker.rank
  cases hs with
  | retry hp hfailed => exact absurd hfailed (hpasses hp)
  | next hp =>
    cases hp
    have hlt := hnext rfl
    simp only [Pc.offset]
    omega
  | undefined hp =>
    rcases hp with ⟨hp, -⟩ | ⟨hp, -⟩ <;>
    · cases hp
      simp only [Pc.offset]
      omega
  | init1 hp | init2 hp | enter hp | exit hp | calculateMain hp | calculate hp | fault hp
  | noFault hp | arrive1 hp | leave1Main phase hp | leave1 phase hp | arrive2 hp | leave2 phase hp
  | compare hp | report fails hp | accept hp | add hp =>
    cases hp
    simp only [Pc.offset]
    omega

theorem Inv.rank_lt {t : Fin 2} (h : Inv numValues tr st)
    (hs : Step numValues t st.shared (st.regs t) m r evs) :
    r.rank numValues < (st.regs t).rank numValues := by
  have ht : t = 0 ∨ t = 1 := by omega
  rcases ht with rfl | rfl
  · refine hs.rank_lt ?_ fun _ => h.main.passes
    intro hpc
    have hplace := h.main.place
    rw [hpc] at hplace
    exact hplace.1
  · have hplace := h.replica.place
    refine hs.rank_lt ?_ ?_ <;>
    · intro hpc
      rw [hpc] at hplace
      exact hplace.elim

theorem stuck {t : Fin 2} (h : (barrierSync numValues).next t () m s = none) :
    s.pc = .done ∨ s.pc = .undefined ∨ s.pc = .blocked1 m.barrier1.phase ∨
      s.pc = .blocked2 m.barrier2.phase := by
  obtain ⟨pc, i, res⟩ := s
  unfold barrierSync at h
  cases pc with
  | done => exact .inl rfl
  | undefined => exact .inr (.inl rfl)
  | blocked1 phase =>
    dsimp only at h
    split at h
    · next heq => exact .inr (.inr (.inl (by rw [heq])))
    · cases h
  | blocked2 phase =>
    dsimp only at h
    split at h
    · next heq => exact .inr (.inr (.inr (by rw [heq])))
    · cases h
  | calculate | inject | wait1 | wait2 | check =>
    dsimp only at h
    split at h <;> cases h
  | init1 | init2 | loop | compare | report fails | add | next => cases h

/-- Thread 0 has done one iteration and thread 1 none, both of them without the injected fault. -/
structure Deadlock (numValues : Nat) (tr : List Comparison) (st : State) : Prop where
  main : (st.regs 0).pc = if numValues = 1 then .done else .blocked1 1
  replica : (st.regs 1).pc = .blocked2 0
  mainResult : (st.regs 0).result = 1
  replicaResult : (st.regs 1).result = 0
  once : tr = [⟨0, false⟩]
  armed : st.shared.firstTime = true

/-- No barrier is called any more that is not initialised. -/
structure Defined (st : State) : Prop where
  initialised : st.shared.initialised1 = true
  called : (st.regs 1).pc ≠ .undefined

theorem Defined.step {st' : State} {l : Fin 2 × Unit} (h : Defined st)
    (hr : (system numValues).Reachable st)
    (hs : (system numValues).step l st = some (st', evs)) : Defined st' := by
  obtain ⟨tr, hr⟩ := hr
  obtain ⟨t, ⟨⟩⟩ := l
  obtain ⟨m, r, hx, rfl⟩ := Parallel.step_cases hs
  obtain ⟨hinit, hpc⟩ := h
  have hstep := step_cases hx
  have hkept : m.initialised1 = true := by
    cases hstep with
    | init1 => rfl
    | init2 | enter | exit | calculateMain | calculate | fault | noFault | arrive1 | leave1Main
    | leave1 | arrive2 | leave2 | compare | report | retry | accept | add | next
    | undefined => exact hinit
  refine ⟨hkept, ?_⟩
  have ht : t = 0 ∨ t = 1 := by omega
  rcases ht with rfl | rfl
  · have hother : Function.update st.regs 0 r 1 = st.regs 1 := Function.update_of_ne (by decide) ..
    dsimp only
    rwa [hother]
  · have hready := (inv hr).ready
    dsimp only at hpc ⊢
    rw [Function.update_self]
    intro hundefined
    cases hstep with
    | undefined hp =>
      rcases hp with ⟨-, hfalse⟩ | ⟨hp, hfalse⟩
      · rw [hinit] at hfalse
        cases hfalse
      · rw [hready hp] at hfalse
        cases hfalse
    | leave1Main _ _ ht => exact absurd ht (by decide)
    | init1 | init2 | enter | exit | calculateMain | calculate | fault | noFault | arrive1 | leave1
    | arrive2 | leave2 | compare | report | retry | accept | add | next => cases hundefined

/-- Thread 1 waits at its second barrier if nobody has a step. -/
theorem Inv.replica_blocked (h : Inv numValues tr st) (hpos : 0 < numValues)
    (hdefined : Defined st) (hstill : (barrierSync numValues).Standstill st) :
    (st.regs 1).pc = .blocked2 0 := by
  have hplace := h.replica.place
  rcases stuck (hstill 1) with hpc | hpc | hpc | hpc
  · rw [hpc] at hplace
    obtain ⟨-, hzero⟩ := hplace
    omega
  · exact absurd hpc hdefined.called
  · -- then thread 0 would have to be on its way to the first one
    have hcalls := h.paired.symm.calls_of_blocked (by rw [party, hpc]; rfl)
    simp only [party, hpc, h.replica.first, Pc.called] at hcalls
    have hmain := h.main.place
    rcases stuck (hstill 0) with hpc' | hpc' | hpc' | hpc'
    · rw [hpc'] at hmain
      have hi : (st.regs 0).i = numValues := hmain
      omega
    · rw [hpc'] at hmain
      exact hmain.elim
    · rw [hpc'] at hcalls
      dsimp only at hcalls
      omega
    · rw [hpc'] at hmain
      exact hmain.elim
  · rw [hpc] at hplace ⊢
    obtain ⟨-, -, hphase, -⟩ := hplace
    rw [hphase]

theorem Inv.deadlock (h : Inv numValues tr st) (hpos : 0 < numValues) (hdefined : Defined st)
    (hstill : (barrierSync numValues).Standstill st) : Deadlock numValues tr st := by
  have hreplica := h.replica_blocked hpos hdefined hstill
  have hcalls : (party (st.regs 1)).calls = 1 := by
    simp only [party, hreplica, h.replica.first, Pc.called]
    rfl
  have hplace := h.main.place
  have hres := h.main.result
  have htr := h.main.trace
  rcases stuck (hstill 0) with hpc | hpc | hpc | hpc
  · -- no thread is waited for more often than it calls
    have hle := h.paired.calls_le (by rw [party, hpc]; rfl)
    rw [hcalls, party, hpc] at hle
    rw [hpc] at hplace hres htr
    have hi : (st.regs 0).i = numValues := hplace
    simp only [Pc.called] at hle
    have hone : numValues = 1 := by omega
    subst hone
    rw [hi] at htr hres
    exact ⟨hpc, hreplica, hres, h.replica.result, htr, h.replica.armed⟩
  · rw [hpc] at hplace
    exact hplace.elim
  · have hahead := h.paired.calls_of_blocked (by rw [party, hpc]; rfl)
    have hphase : (party (st.regs 0)).calls = st.shared.barrier1.phase + 1 := by
      have hfits := h.paired.left
      rw [party, hpc] at hfits
      rw [party, hpc]
      exact hfits.1
    rw [hcalls] at hahead
    rw [hahead] at hphase
    have hround : st.shared.barrier1.phase = 1 := by omega
    rw [party, hpc] at hahead
    rw [hround] at hpc
    rw [hpc] at hplace hres htr
    have hlt : (st.regs 0).i < numValues := hplace.1
    have hone : (st.regs 0).i = 1 := by
      simp only [Pc.called] at hahead
      omega
    rw [hone] at hlt hres htr
    refine ⟨?_, hreplica, hres, h.replica.result, htr, h.replica.armed⟩
    rw [if_neg (by omega), hpc]
  · rw [hpc] at hplace
    exact hplace.elim

/-- **No schedule is good.** Let thread 0 have initialised the first barrier before thread 1 calls
it. Then whoever moves when, the two threads come to a standstill: thread 1 waits for thread 0 at
the second barrier, which thread 0 never calls, and thread 0 waits for thread 1 at the first one or
has had a single value to compare. -/
theorem fair_deadlocks (hpos : 0 < numValues) {sched : Nat → Fin 2 × Unit}
    (hfair : Fair Prod.fst sched) {k : Nat}
    (hinit : ((system numValues).play sched k).1.shared.initialised1 = true)
    (hcall : (((system numValues).play sched k).1.regs 1).pc ≠ .undefined) : ∃ n, ∀ m, n ≤ m →
      (barrierSync numValues).Standstill ((system numValues).play sched m).1 ∧
      Deadlock numValues ((system numValues).play sched m).2
        ((system numValues).play sched m).1 := by
  have hlive : Live (system numValues) Prod.fst (barrierSync numValues).Standstill
      (fun st => ∑ t, (st.regs t).rank numValues) _ :=
    Parallel.live (Worker.rank numValues) fun ⟨_, hr⟩ hnext => (inv hr).rank_lt (step_cases hnext)
  obtain ⟨n, hkn, hstill⟩ := hlive.reaches hfair k
  have hdefined : Defined ((system numValues).play sched n).1 :=
    System.play_keeps (fun hr hd hs => Defined.step hd hr hs) hkn ⟨hinit, hcall⟩
  refine ⟨n, ?_⟩
  intro m hnm
  have hsame : (system numValues).play sched m = (system numValues).play sched n :=
    Parallel.Standstill.play_eq hnm hstill
  rw [hsame]
  exact ⟨hstill, (inv (System.runs_play n)).deadlock hpos hdefined hstill⟩

theorem fair_deadlocks_two : ∃ n, ∀ m, n ≤ m →
    (barrierSync 2).Standstill ((system 2).play (roundRobin 1) m).1 ∧
    Deadlock 2 ((system 2).play (roundRobin 1) m).2 ((system 2).play (roundRobin 1) m).1 :=
  have hinit : ((system 2).play (roundRobin 1) 1).1.shared.initialised1 = true ∧
      (((system 2).play (roundRobin 1) 1).1.regs 1).pc ≠ .undefined := by decide
  fair_deadlocks (by decide) (fair_roundRobin 1) hinit.1 hinit.2

end BarrierSync

end TsxProject
