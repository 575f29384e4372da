import TsxProject.Infra.Fairness

/-!
# Ping-pong

`PingPong` of `FirstTestHyperThreads.c`: two threads write their own ids into `sharedValue`, each of
them after it has seen the other one's. Thread 0 runs in the main thread and the other one has id 1
or, as a hyper-thread, 2; any id but 0 will do. `rounds` is the 100000000 of the loop. `sharedValue`
is not volatile; here each access to it takes place, and is atomic.

* `Inv` — whose turn it is
* `fair_alternates` — the threads write by turns, and both of them finish
-/

namespace TsxProject

open Infra

namespace PingPong

inductive Pc where
  /-- `i < 100000000` -/
  | loop
  /-- `while(sharedValue == _my_thread_id)` -/
  | spin
  /-- `sharedValue = _my_thread_id` -/
  | store
  | done
  deriving DecidableEq

structure Player where
  pc : Pc
  i : Nat
  deriving DecidableEq

/-- The memory is `sharedValue` alone. -/
def sharedValue : Field Int Int := ⟨id, fun v _ => v⟩

/-- `PingPong`. The event of a store is the id. -/
def pingPong (rounds : Nat) (myThreadId : Int) (s : Player) : Instr Int Player Int :=
  match s.pc with
  | .loop => .skip { s with pc := if s.i < rounds then .spin else .done } []
  | .spin =>
    .load sharedValue fun v => (if v = myThreadId then s else { s with pc := .store }, [])
  | .store => .store sharedValue myThreadId { pc := .loop, i := s.i + 1 } [myThreadId]
  | .done => .halt

def program (rounds : Nat) (other : Int) : Program Int Player Player Int where
  fst := pingPong rounds 0
  snd := pingPong rounds other

def start : Conf Int Player Player := ⟨0, ⟨.loop, 0⟩, ⟨.loop, 0⟩⟩

def system (rounds : Nat) (other : Int) : System Side (Conf Int Player Player) Int :=
  (program rounds other).system start

/-- The first `k` stores of two threads that take turns. -/
def strokes (other : Int) (k : Nat) : List Int :=
  (List.range k).map fun j => if j % 2 = 0 then other else 0

variable {rounds : Nat} {myThreadId other m m' : Int} {s s' : Player}
  {st : Conf Int Player Player} {tr evs : List Int}

theorem strokes_succ (k : Nat) :
    strokes other (k + 1) = strokes other k ++ [if k % 2 = 0 then other else 0] := by
  simp [strokes, List.range_succ]

/-! ## One thread -/

/-- What a step can do. -/
inductive Step (rounds : Nat) (myThreadId m : Int) (s : Player) :
    Int → Player → List Int → Prop where
  | enter : s.pc = .loop → s.i < rounds → Step rounds myThreadId m s m { s with pc := .spin } []
  | exit : s.pc = .loop → ¬ s.i < rounds → Step rounds myThreadId m s m { s with pc := .done } []
  | spin : s.pc = .spin → m = myThreadId → Step rounds myThreadId m s m s []
  | leave : s.pc = .spin → m ≠ myThreadId →
      Step rounds myThreadId m s m { s with pc := .store } []
  | store : s.pc = .store →
      Step rounds myThreadId m s myThreadId { pc := .loop, i := s.i + 1 } [myThreadId]

theorem step_cases (hs : (pingPong rounds myThreadId s).exec m = some (m', s', evs)) :
    Step rounds myThreadId m s m' s' evs := by
  unfold pingPong at hs
  cases hpc : s.pc with
  | loop =>
    rw [hpc] at hs
    cases hs
    split
    · next hlt => exact .enter hpc hlt
    · next hge => exact .exit hpc hge
  | spin =>
    rw [hpc] at hs
    cases hs
    show Step rounds myThreadId m s m (if m = myThreadId then s else { s with pc := .store }) []
    split
    · next heq => exact .spin hpc heq
    · next hne => exact .leave hpc hne
  | store =>
    rw [hpc] at hs
    cases hs
    exact .store hpc
  | done =>
    rw [hpc] at hs
    cases hs

/-- A thread that has finished, or that has to see another id first. -/
def Waits (myThreadId m : Int) (s : Player) : Prop :=
  s.pc = .done ∨ s.pc = .spin ∧ m = myThreadId

def Pc.offset : Pc → Nat
  | .loop => 3
  | .spin => 2
  | .store => 1
  | .done => 0

def Player.rank (rounds : Nat) (s : Player) : Nat := (rounds - s.i) * 4 + s.pc.offset

/-- What a thread knows on its own. -/
def Local (rounds : Nat) (s : Player) : Prop :=
  match s.pc with
  | .loop => s.i ≤ rounds
  | .spin | .store => s.i < rounds
  | .done => s.i = rounds

theorem Local.le (h : Local rounds s) : s.i ≤ rounds := by
  unfold Local at h
  split at h <;> omega

theorem Local.step (h : Local rounds s) (hs : Step rounds myThreadId m s m' s' evs) :
    Local rounds s' := by
  have hle := h.le
  unfold Local at h
  cases hs with
  | enter _ hlt => exact hlt
  | exit _ hge => exact Nat.le_antisymm hle (Nat.le_of_not_lt hge)
  | spin hpc =>
    unfold Local
    rw [hpc] at h ⊢
    exact h
  | leave hpc =>
    rw [hpc] at h
    exact h
  | store hpc =>
    rw [hpc] at h
    exact h

theorem moves (hw : ¬ Waits myThreadId m s) : (pingPong rounds myThreadId s).exec m ≠ none := by
  intro hnone
  unfold pingPong at hnone
  cases hpc : s.pc with
  | done => exact hw (.inl hpc)
  | loop | spin | store =>
    rw [hpc] at hnone
    cases hnone

theorem rank_lt (h : Local rounds s) (hw : ¬ Waits myThreadId m s)
    (hs : Step rounds myThreadId m s m' s' evs) : s'.rank rounds < s.rank rounds := by
  unfold Local at h
  unfold Player.rank
  cases hs with
  | spin hpc heq => exact absurd (.inr ⟨hpc, heq⟩) hw
  | enter hpc | exit hpc | leave hpc | store hpc =>
    rw [hpc] at h ⊢
    simp only [Pc.offset]
    omega

theorem wait_step (hw : Waits myThreadId m s) (hs : Step rounds myThreadId m s m' s' evs) :
    m' = m ∧ s' = s := by
  rcases hw with hdone | ⟨hspin, hm⟩
  · cases hs with
    | enter hpc | exit hpc | spin hpc | leave hpc | store hpc =>
      rw [hdone] at hpc
      cases hpc
  · cases hs with
    | spin => exact ⟨rfl, rfl⟩
    | leave _ hne => exact absurd hm hne
    | enter hpc | exit hpc | store hpc =>
      rw [hspin] at hpc
      cases hpc

/-! ## Both threads -/

/-- Thread 0 has written as often as the other one, or once less; `sharedValue` tells which. -/
structure Inv (rounds : Nat) (other : Int) (tr : List Int) (st : Conf Int Player Player) :
    Prop where
  fst : Local rounds st.fst
  snd : Local rounds st.snd
  turn : st.mem = 0 ∧ st.fst.i = st.snd.i ∨ st.mem = other ∧ st.snd.i = st.fst.i + 1
  fst_store : st.fst.pc = .store → st.mem = other
  snd_store : st.snd.pc = .store → st.mem = 0
  trace : tr = strokes other (st.fst.i + st.snd.i)

theorem Inv.fst_step {p : Player} (hne : other ≠ 0) (h : Inv rounds other tr st)
    (hs : Step rounds 0 st.mem st.fst m' p evs) :
    Inv rounds other (tr ++ evs) ⟨m', p, st.snd⟩ := by
  obtain ⟨hfst, hsnd, hturn, hstore, hstore', htr⟩ := h
  have hlocal := hfst.step hs
  cases hs with
  | enter | exit =>
    refine ⟨hlocal, hsnd, hturn, ?_, hstore', by rwa [List.append_nil]⟩
    intro hpc
    cases hpc
  | spin => exact ⟨hlocal, hsnd, hturn, hstore, hstore', by rwa [List.append_nil]⟩
  | leave _ hm =>
    have hother := hturn.resolve_left fun hzero => hm hzero.1
    exact ⟨hlocal, hsnd, hturn, fun _ => hother.1, hstore', by rwa [List.append_nil]⟩
  | store hpc =>
    have hmem := hstore hpc
    have hahead := (hturn.resolve_left fun hzero => hne (hmem.symm.trans hzero.1)).2
    refine ⟨hlocal, hsnd, .inl ⟨rfl, hahead.symm⟩, ?_, fun _ => rfl, ?_⟩
    · intro hpc'
      cases hpc'
    · have hodd : ¬ (st.fst.i + st.snd.i) % 2 = 0 := by omega
      show tr ++ [0] = strokes other (st.fst.i + 1 + st.snd.i)
      rw [Nat.add_right_comm, strokes_succ, if_neg hodd, htr]

theorem Inv.snd_step {c : Player} (hne : other ≠ 0) (h : Inv rounds other tr st)
    (hs : Step rounds other st.mem st.snd m' c evs) :
    Inv rounds other (tr ++ evs) ⟨m', st.fst, c⟩ := by
  obtain ⟨hfst, hsnd, hturn, hstore, hstore', htr⟩ := h
  have hlocal := hsnd.step hs
  cases hs with
  | enter | exit =>
    refine ⟨hfst, hlocal, hturn, hstore, ?_, by rwa [List.append_nil]⟩
    intro hpc
    cases hpc
  | spin => exact ⟨hfst, hlocal, hturn, hstore, hstore', by rwa [List.append_nil]⟩
  | leave _ hm =>
    have hzero := hturn.resolve_right fun hother => hm hother.1
    exact ⟨hfst, hlocal, hturn, hstore, fun _ => hzero.1, by rwa [List.append_nil]⟩
  | store hpc =>
    have hmem := hstore' hpc
    have hsame := (hturn.resolve_right fun hother => hne (hother.1.symm.trans hmem)).2
    refine ⟨hfst, hlocal, .inr ⟨rfl, congrArg (· + 1) hsame.symm⟩, fun _ => rfl, ?_, ?_⟩
    · intro hpc'
      cases hpc'
    · have heven : (st.fst.i + st.snd.i) % 2 = 0 := by omega
      show tr ++ [other] = strokes other (st.fst.i + st.snd.i + 1)
      rw [strokes_succ, if_pos heven, htr]

theorem inv (hne : other ≠ 0) (h : (system rounds other).Runs tr st) :
    Inv rounds other tr st := by
  refine h.rule (I := Inv rounds other) ?_ ?_
  · refine ⟨Nat.zero_le rounds, Nat.zero_le rounds, .inl ⟨rfl, rfl⟩, ?_, fun _ => rfl, rfl⟩
    intro hpc
    cases hpc
  · rintro l tr st st' evs - ih - hs
    obtain ⟨m, p, -, rfl, hx⟩ | ⟨m, c, -, rfl, hx⟩ := Program.step_cases hs
    · exact ih.fst_step hne (step_cases hx)
    · exact ih.snd_step hne (step_cases hx)

theorem inv_play (hne : other ≠ 0) (rounds : Nat) (sched : Nat → Side) (n : Nat) :
    Inv rounds other ((system rounds other).play sched n).2
      ((system rounds other).play sched n).1 :=
  inv hne (System.runs_play n)

/-! ## The end -/

theorem polling (rounds : Nat) (hne : other ≠ 0) :
    (program rounds other).Polling start (fun _ s => s.rank rounds) (fun _ s => s.rank rounds)
      (Waits 0) (Waits other) where
  fst_moves _ hw _ := moves hw
  fst_work := by
    rintro m p c m' p' evs ⟨tr, hr⟩ hw hx
    exact ⟨rank_lt (inv hne hr).fst hw (step_cases hx), Nat.le_refl _⟩
  fst_wait := by
    intro m p c m' p' evs _ hw hx
    obtain ⟨rfl, rfl⟩ := wait_step hw (step_cases hx)
    exact ⟨rfl, rfl, hw⟩
  snd_moves _ hw _ := moves hw
  snd_work := by
    rintro m p c m' c' evs ⟨tr, hr⟩ hw hx
    exact ⟨rank_lt (inv hne hr).snd hw (step_cases hx), Nat.le_refl _⟩
  snd_wait := by
    intro m p c m' c' evs _ hw hx
    obtain ⟨rfl, rfl⟩ := wait_step hw (step_cases hx)
    exact ⟨rfl, rfl, hw⟩

theorem isExit_pingPong : (pingPong rounds myThreadId s).isExit = false := by
  unfold pingPong
  split <;> rfl

/-- The threads do not wait for each other. -/
theorem Inv.both_done (hne : other ≠ 0) (h : Inv rounds other tr st)
    (hfst : Waits 0 st.mem st.fst) (hsnd : Waits other st.mem st.snd) :
    st = ⟨0, ⟨.done, rounds⟩, ⟨.done, rounds⟩⟩ := by
  obtain ⟨m, ⟨pc, i⟩, ⟨pc', j⟩⟩ := st
  obtain ⟨hlocal, hlocal', hturn, -, -, -⟩ := h
  unfold Waits at hfst hsnd
  unfold Local at hlocal hlocal'
  dsimp only at hfst hsnd hlocal hlocal' hturn
  rcases hfst with rfl | ⟨rfl, rfl⟩
  · rcases hsnd with rfl | ⟨rfl, rfl⟩
    · obtain ⟨rfl, -⟩ | ⟨-, hahead⟩ := hturn
      · rw [hlocal, hlocal']
      · dsimp only at hlocal hlocal'
        omega
    · -- the other thread would be ahead of one that is through
      obtain ⟨hzero, -⟩ | ⟨-, hahead⟩ := hturn
      · exact absurd hzero hne
      · dsimp only at hlocal hlocal'
        omega
  · rcases hsnd with rfl | ⟨rfl, hzero⟩
    · obtain ⟨-, hsame⟩ | ⟨hzero, -⟩ := hturn
      · dsimp only at hlocal hlocal'
        omega
      · exact absurd hzero.symm hne
    · exact absurd hzero.symm hne

/-- **The threads take turns.** At any moment of any schedule the stores are the first ones of an
alternation that the other thread begins, and every fair schedule comes to its end: both threads
have written `rounds` times, thread 0 last. -/
theorem fair_alternates (hne : other ≠ 0) (rounds : Nat) :
    (∀ (sched : Nat → Side) (m : Nat), ∃ k, k ≤ 2 * rounds ∧
      ((system rounds other).play sched m).2 = strokes other k) ∧
    ∀ sched : Nat → Side, Fair id sched → ∃ n, ∀ m, n ≤ m →
      (system rounds other).play sched m =
        (⟨0, ⟨.done, rounds⟩, ⟨.done, rounds⟩⟩, strokes other (2 * rounds)) := by
  constructor
  · intro sched m
    have hinv := inv_play hne rounds sched m
    have hle := hinv.fst.le
    have hle' := hinv.snd.le
    exact ⟨_, by omega, hinv.trace⟩
  · intro sched hfair
    obtain ⟨n, hn⟩ := (polling rounds hne).ends hfair
    refine ⟨n, ?_⟩
    intro m hnm
    have hinv := inv_play hne rounds sched m
    rcases hn m hnm with hexit | ⟨hfst, hsnd⟩
    · rw [Program.exited, program, isExit_pingPong, isExit_pingPong] at hexit
      cases hexit
    · have hend := hinv.both_done hne hfst hsnd
      have htr := hinv.trace
      rw [hend] at htr
      rw [Nat.two_mul]
      exact Prod.ext hend htr

/-- The main thread and its hyper-thread. -/
theorem fair_alternates_hyper :
    (∀ m, ∃ k, k ≤ 2 * 3 ∧ ((system 3 2).play alternate m).2 = strokes 2 k) ∧
    ∃ n, ∀ m, n ≤ m → (system 3 2).play alternate m =
      (⟨0, ⟨.done, 3⟩, ⟨.done, 3⟩⟩, strokes 2 (2 * 3)) :=
  have hboth := @fair_alternates 2 (by decide) 3
  ⟨hboth.1 alternate, hboth.2 alternate fair_alternate⟩

end PingPong

end TsxProject
