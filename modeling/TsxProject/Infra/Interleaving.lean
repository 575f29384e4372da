import TsxProject.Infra.Transition

/-!
# Two threads over a shared memory

Sequentially consistent interleaving. A thread is a function from its registers to the
instruction it executes next, and one instruction makes at most one access to the shared
memory, so that a step of the system is an atomic access by construction.

`exit` ends the whole process: once a thread is there, nobody moves any more.
-/

namespace Infra

/-- One place of a memory `M`, holding values of type `α`. -/
structure Field (M α : Type) where
  get : M → α
  set : α → M → M

/-- What a thread with registers `σ` does next. An access may emit events. -/
inductive Instr (M σ ε : Type) : Type 1 where
  | load {α : Type} (f : Field M α) (k : α → σ × List ε)
  | store {α : Type} (f : Field M α) (v : α) (next : σ) (evs : List ε)
  | skip (next : σ) (evs : List ε)
  | halt
  | exit

namespace Instr

variable {M σ ε : Type}

/-- The effect of an instruction on the memory and the registers. -/
def exec (m : M) : Instr M σ ε → Option (M × σ × List ε)
  | load f k => some (m, (k (f.get m)).1, (k (f.get m)).2)
  | store f v next evs => some (f.set v m, next, evs)
  | skip next evs => some (m, next, evs)
  | halt => none
  | exit => none

def isExit : Instr M σ ε → Bool
  | exit => true
  | _ => false

theorem isExit_of_exec {i : Instr M σ ε} {m : M} {r : M × σ × List ε} (h : i.exec m = some r) :
    i.isExit = false := by
  cases i with
  | exit => cases h
  | _ => rfl

/-- The same instruction of a thread whose registers contain those of this one. -/
def map {τ : Type} (f : σ → τ) : Instr M σ ε → Instr M τ ε
  | load g k => load g fun v => (f (k v).1, (k v).2)
  | store g v next evs => store g v (f next) evs
  | skip next evs => skip (f next) evs
  | halt => halt
  | exit => exit

theorem exec_map {τ : Type} (f : σ → τ) (i : Instr M σ ε) (m : M) :
    (i.map f).exec m = (i.exec m).map fun r => (r.1, f r.2.1, r.2.2) := by
  cases i <;> rfl

theorem isExit_map {τ : Type} (f : σ → τ) (i : Instr M σ ε) : (i.map f).isExit = i.isExit := by
  cases i <;> rfl

theorem map_cases {τ : Type} {f : σ → τ} {i : Instr M σ ε} {m m' : M} {t : τ} {evs : List ε}
    (h : (i.map f).exec m = some (m', t, evs)) :
    ∃ s, i.exec m = some (m', s, evs) ∧ t = f s := by
  rw [exec_map] at h
  obtain ⟨⟨m₁, s, e⟩, hx, heq⟩ := Option.map_eq_some_iff.mp h
  cases heq
  exact ⟨s, hx, rfl⟩

end Instr

/-- Memory and registers of the two threads. -/
structure Conf (M σ τ : Type) where
  mem : M
  fst : σ
  snd : τ

inductive Side where
  | fst
  | snd
  deriving DecidableEq, Repr

/-- A schedule in which the threads take turns, each for a number of steps. -/
def turns (l : List (Nat × Nat)) : List Side :=
  l.flatMap fun n => List.replicate n.1 .fst ++ List.replicate n.2 .snd

/-- The programs of the two threads. -/
structure Program (M σ τ ε : Type) where
  fst : σ → Instr M σ ε
  snd : τ → Instr M τ ε

namespace Program

variable {M σ τ ε : Type} (P : Program M σ τ ε)

/-- The process has ended. -/
def exited (s : Conf M σ τ) : Bool := (P.fst s.fst).isExit || (P.snd s.snd).isExit

def step (i : Side) (s : Conf M σ τ) : Option (Conf M σ τ × List ε) :=
  if P.exited s then none
  else
    match i with
    | .fst => ((P.fst s.fst).exec s.mem).map fun r => (⟨r.1, r.2.1, s.snd⟩, r.2.2)
    | .snd => ((P.snd s.snd).exec s.mem).map fun r => (⟨r.1, s.fst, r.2.1⟩, r.2.2)

/-- The two programs, interleaved from a given configuration. -/
def system (init : Conf M σ τ) : System Side (Conf M σ τ) ε where
  init := init
  step := P.step

variable {P}

/-- A step is a step of one of the threads. -/
theorem step_cases {i : Side} {s s' : Conf M σ τ} {evs : List ε}
    (h : P.step i s = some (s', evs)) :
    (∃ m p, i = .fst ∧ s' = ⟨m, p, s.snd⟩ ∧ (P.fst s.fst).exec s.mem = some (m, p, evs)) ∨
      ∃ m c, i = .snd ∧ s' = ⟨m, s.fst, c⟩ ∧ (P.snd s.snd).exec s.mem = some (m, c, evs) := by
  unfold step at h
  split at h
  · cases h
  · cases i with
    | fst =>
      obtain ⟨r, hr, heq⟩ := Option.map_eq_some_iff.mp h
      cases heq
      exact .inl ⟨_, _, rfl, rfl, hr⟩
    | snd =>
      obtain ⟨r, hr, heq⟩ := Option.map_eq_some_iff.mp h
      cases heq
      exact .inr ⟨_, _, rfl, rfl, hr⟩

/-- Nobody moves after an `exit`. -/
theorem step_of_exited {i : Side} {s : Conf M σ τ} (h : P.exited s = true) :
    P.step i s = none := by
  unfold step
  exact if_pos h

theorem step_fst {m m' : M} {p p' : σ} {c : τ} {evs : List ε}
    (hx : (P.fst p).exec m = some (m', p', evs)) (hc : (P.snd c).isExit = false) :
    P.step .fst ⟨m, p, c⟩ = some (⟨m', p', c⟩, evs) := by
  simp only [step, exited, Instr.isExit_of_exec hx, hc, Bool.or_self, Bool.false_eq_true,
    if_false, hx, Option.map_some]

theorem step_snd {m m' : M} {p : σ} {c c' : τ} {evs : List ε}
    (hx : (P.snd c).exec m = some (m', c', evs)) (hp : (P.fst p).isExit = false) :
    P.step .snd ⟨m, p, c⟩ = some (⟨m', p, c'⟩, evs) := by
  simp only [step, exited, Instr.isExit_of_exec hx, hp, Bool.or_self, Bool.false_eq_true,
    if_false, hx, Option.map_some]

end Program

end Infra
