import Mathlib.Order.Basic
import TsxProject.Infra.Interleaving
import TsxProject.Infra.Parallel

/-!
# Fair schedules

A schedule says for every moment whose turn it is; an actor that has no step lets its turn pass.
Under a fair schedule everybody gets a turn again and again, and nothing else is assumed.

What is proved with a rank that sinks in every step is that a run *can* be finished. Threads that
poll have steps which change nothing, so that some unfair schedules never finish. `Live` lists what
has to be known of the steps instead: who does not wait makes progress, and who waits does not make
anybody else wait.

* `System.play` — the run of a schedule
* `LiveWhere.reaches`, `Live.reaches` — the rules for what every fair schedule comes to
* `Program.Polling.ends` — the same for two threads of a program, each with a rank of its own
* `Parallel.fair_done` — threads that only stop when they are done
* `Parallel.live` — threads that do not poll come to a standstill
-/

namespace Infra

/-- Every `k` gets its turn again and again, `owner` being whose turn a label is. -/
def Fair {ι κ : Type} (owner : ι → κ) (sched : Nat → ι) : Prop :=
  ∀ k n, ∃ m, n ≤ m ∧ owner (sched m) = k

/-- Two threads by turns. -/
def alternate (n : Nat) : Side := if n % 2 = 0 then .fst else .snd

theorem fair_alternate : Fair id alternate := by
  intro k n
  cases k with
  | fst => exact ⟨2 * n, by omega, if_pos (by omega)⟩
  | snd => exact ⟨2 * n + 1, by omega, if_neg (by omega)⟩

/-- The turns of `k + 1` threads, under the one choice there is. -/
def roundRobin (k n : Nat) : Fin (k + 1) × Unit :=
  (⟨n % (k + 1), Nat.mod_lt n (Nat.succ_pos k)⟩, ())

theorem fair_roundRobin (k : Nat) : Fair Prod.fst (roundRobin k) := by
  intro t n
  refine ⟨n * (k + 1) + t.val, ?_, ?_⟩
  · have hmul : n * 1 ≤ n * (k + 1) := Nat.mul_le_mul_left n (Nat.succ_pos k)
    omega
  · apply Fin.ext
    show (n * (k + 1) + t.val) % (k + 1) = t.val
    rw [Nat.add_comm, Nat.add_mul_mod_self_right, Nat.mod_eq_of_lt t.isLt]

namespace System

variable {ι κ σ ε : Type} (S : System ι σ ε) (sched : Nat → ι)

/-- State and trace after the first `n` turns. -/
def play : Nat → σ × List ε
  | 0 => (S.init, [])
  | n + 1 =>
    match S.step (sched n) (play n).1 with
    | none => play n
    | some (s', evs) => (s', (play n).2 ++ evs)

variable {S sched}

theorem play_of_none {n : Nat} (h : S.step (sched n) (S.play sched n).1 = none) :
    S.play sched (n + 1) = S.play sched n := by
  rw [play, h]

theorem play_of_some {n : Nat} {s' : σ} {evs : List ε}
    (h : S.step (sched n) (S.play sched n).1 = some (s', evs)) :
    S.play sched (n + 1) = (s', (S.play sched n).2 ++ evs) := by
  rw [play, h]

/-- A schedule's first turns are a run. -/
theorem runsWhere_play_of_lt {ok : ι → σ → Prop} {n : Nat}
    (hok : ∀ m, m < n → ok (sched m) (S.play sched m).1) :
    S.RunsWhere ok (S.play sched n).2 (S.play sched n).1 := by
  induction n with
  | zero => exact .init
  | succ n ih =>
    have hr := ih fun m hm => hok m (Nat.lt_succ_of_lt hm)
    cases h : S.step (sched n) (S.play sched n).1 with
    | none => rwa [play_of_none h]
    | some r =>
      rw [play_of_some h]
      exact hr.step (hok n (Nat.lt_succ_self n)) h

theorem runsWhere_play {ok : ι → σ → Prop} (hok : ∀ m, ok (sched m) (S.play sched m).1) (n : Nat) :
    S.RunsWhere ok (S.play sched n).2 (S.play sched n).1 :=
  runsWhere_play_of_lt fun m _ => hok m

theorem runs_play (n : Nat) : S.Runs (S.play sched n).2 (S.play sched n).1 :=
  runsWhere_play (fun _ => trivial) n

theorem reachable_play (n : Nat) : S.Reachable (S.play sched n).1 := ⟨_, runs_play n⟩

/-- What every step keeps, a schedule keeps. -/
theorem play_keeps {P : σ → Prop}
    (hstep : ∀ {i s s' evs}, S.Reachable s → P s → S.step i s = some (s', evs) → P s')
    {m n : Nat} (hmn : m ≤ n) (h : P (S.play sched m).1) : P (S.play sched n).1 := by
  induction hmn with
  | refl => exact h
  | @step n _ ih =>
    cases hs : S.step (sched n) (S.play sched n).1 with
    | none => rwa [play_of_none hs]
    | some r =>
      rw [play_of_some hs]
      exact hstep (reachable_play n) ih hs

end System

/-! ## What fair schedules come to -/

section Live

variable {ι κ σ ε : Type} {S : System ι σ ε} {owner : ι → κ} {ok : ι → List ε → σ → Prop}
  {final : σ → Prop} {rank : List ε → σ → Nat} {waits : κ → σ → Prop}

variable (S owner ok final rank waits) in
/-- As long as the state is not final, an actor that does not wait has a step, and it lowers the
rank; the steps of an actor that waits make nobody wait, and somebody does not wait. This is said of
turns that are `ok`, whatever decides that, the past included. -/
structure LiveWhere : Prop where
  work : ∀ {i tr s}, ok i tr s → ¬ final s → ¬ waits (owner i) s →
    ∃ s' evs, S.step i s = some (s', evs) ∧ rank (tr ++ evs) s' < rank tr s
  wait : ∀ {i tr s s' evs}, ok i tr s → ¬ final s → waits (owner i) s →
    S.step i s = some (s', evs) → rank (tr ++ evs) s' < rank tr s ∨
      rank (tr ++ evs) s' = rank tr s ∧ ∀ k, waits k s' → waits k s
  exists_working : ∀ {i tr s}, ok i tr s → ¬ final s → ∃ k, ¬ waits k s

variable (S owner final) in
/-- The same of all turns, with a rank of states. -/
abbrev Live (rank : σ → Nat) (waits : κ → σ → Prop) : Prop :=
  LiveWhere S owner (fun _ _ s => S.Reachable s) final (fun _ => rank) waits

namespace LiveWhere

/-- The rank sinks again and again. -/
theorem drops (h : LiveWhere S owner ok final rank waits) {sched : Nat → ι}
    (hfair : Fair owner sched) {n : Nat}
    (hok : ∀ m, n ≤ m → ok (sched m) (S.play sched m).2 (S.play sched m).1) :
    ∃ m, n ≤ m ∧ (final (S.play sched m).1 ∨
      rank (S.play sched m).2 (S.play sched m).1 < rank (S.play sched n).2 (S.play sched n).1) := by
  by_contra hno
  have hnot : ∀ m, n ≤ m → ¬ final (S.play sched m).1 := fun m hm hf => hno ⟨m, hm, .inl hf⟩
  have hge : ∀ m, n ≤ m → ¬ rank (S.play sched m).2 (S.play sched m).1 <
      rank (S.play sched n).2 (S.play sched n).1 :=
    fun m hm hlt => hno ⟨m, hm, .inr hlt⟩
  -- nothing happens, so who does not wait now never does
  have hkeep : ∀ m, n ≤ m →
      rank (S.play sched m).2 (S.play sched m).1 = rank (S.play sched n).2 (S.play sched n).1 ∧
        ∀ k, waits k (S.play sched m).1 → waits k (S.play sched n).1 := by
    intro m hm
    induction hm with
    | refl => exact ⟨rfl, fun _ => id⟩
    | @step m hm ih =>
      obtain ⟨hrank, hwaits⟩ := ih
      have hge' := hge (m + 1) (Nat.le_succ_of_le hm)
      by_cases hw : waits (owner (sched m)) (S.play sched m).1
      · cases hs : S.step (sched m) (S.play sched m).1 with
        | none =>
          rw [System.play_of_none hs]
          exact ⟨hrank, hwaits⟩
        | some r =>
          rw [System.play_of_some hs] at hge' ⊢
          rcases h.wait (hok m hm) (hnot m hm) hw hs with hlt | ⟨heq, hmono⟩
          · exact absurd (hrank ▸ hlt) hge'
          · exact ⟨heq.trans hrank, fun k hk => hwaits k (hmono k hk)⟩
      · obtain ⟨s', evs, hs, hlt⟩ := h.work (hok m hm) (hnot m hm) hw
        rw [System.play_of_some hs] at hge'
        exact absurd (hrank ▸ hlt) hge'
  -- but its turn comes
  obtain ⟨k, hk⟩ := h.exists_working (hok n (Nat.le_refl n)) (hnot n (Nat.le_refl n))
  obtain ⟨m, hm, rfl⟩ := hfair k n
  obtain ⟨hrank, hwaits⟩ := hkeep m hm
  obtain ⟨s', evs, hs, hlt⟩ := h.work (hok m hm) (hnot m hm) fun hw => hk (hwaits _ hw)
  refine hge (m + 1) (Nat.le_succ_of_le hm) ?_
  rw [System.play_of_some hs]
  exact hrank ▸ hlt

/-- **Eventually.** A fair schedule comes to a final state, from every moment on after which its
turns are `ok`. -/
theorem reaches (h : LiveWhere S owner ok final rank waits) {sched : Nat → ι}
    (hfair : Fair owner sched) {n : Nat}
    (hok : ∀ m, n ≤ m → ok (sched m) (S.play sched m).2 (S.play sched m).1) :
    ∃ m, n ≤ m ∧ final (S.play sched m).1 := by
  induction hk : rank (S.play sched n).2 (S.play sched n).1 using Nat.strongRecOn
    generalizing n with
  | _ k ih =>
    obtain ⟨m, hm, hfinal | hlt⟩ := h.drops hfair hok
    · exact ⟨m, hm, hfinal⟩
    · obtain ⟨m', hm', hfinal⟩ := ih _ (hk ▸ hlt) (fun l hl => hok l (Nat.le_trans hm hl)) rfl
      exact ⟨m', Nat.le_trans hm hm', hfinal⟩

end LiveWhere

theorem Live.reaches {rank : σ → Nat} (h : Live S owner final rank waits) {sched : Nat → ι}
    (hfair : Fair owner sched) (n : Nat) : ∃ m, n ≤ m ∧ final (S.play sched m).1 :=
  LiveWhere.reaches h hfair fun m _ => System.reachable_play m

end Live

/-! ## Two threads that poll -/

section Polling

variable {M σ τ ε : Type} {P : Program M σ τ ε} {init : Conf M σ τ} {rank₁ : M → σ → Nat}
  {rank₂ : M → τ → Nat} {waits₁ : M → σ → Prop} {waits₂ : M → τ → Prop}

variable (P init rank₁ rank₂ waits₁ waits₂) in
/-- A thread that does not wait can go on; its steps lower its rank and do not raise the other one.
The steps of a thread that waits change nothing. -/
structure Program.Polling : Prop where
  fst_moves : ∀ {m p c}, (P.system init).Reachable ⟨m, p, c⟩ → ¬ waits₁ m p →
    (P.fst p).isExit = false → (P.fst p).exec m ≠ none
  fst_work : ∀ {m p c m' p' evs}, (P.system init).Reachable ⟨m, p, c⟩ → ¬ waits₁ m p →
    (P.fst p).exec m = some (m', p', evs) →
    rank₁ m' p' < rank₁ m p ∧ rank₂ m' c ≤ rank₂ m c
  fst_wait : ∀ {m p c m' p' evs}, (P.system init).Reachable ⟨m, p, c⟩ → waits₁ m p →
    (P.fst p).exec m = some (m', p', evs) → m' = m ∧ rank₁ m p' = rank₁ m p ∧ waits₁ m p'
  snd_moves : ∀ {m p c}, (P.system init).Reachable ⟨m, p, c⟩ → ¬ waits₂ m c →
    (P.snd c).isExit = false → (P.snd c).exec m ≠ none
  snd_work : ∀ {m p c m' c' evs}, (P.system init).Reachable ⟨m, p, c⟩ → ¬ waits₂ m c →
    (P.snd c).exec m = some (m', c', evs) →
    rank₂ m' c' < rank₂ m c ∧ rank₁ m' p ≤ rank₁ m p
  snd_wait : ∀ {m p c m' c' evs}, (P.system init).Reachable ⟨m, p, c⟩ → waits₂ m c →
    (P.snd c).exec m = some (m', c', evs) → m' = m ∧ rank₂ m c' = rank₂ m c ∧ waits₂ m c'

variable (P waits₁ waits₂) in
/-- The process has ended, or both threads wait. -/
def Program.Over (s : Conf M σ τ) : Prop :=
  P.exited s = true ∨ waits₁ s.mem s.fst ∧ waits₂ s.mem s.snd

namespace Program.Polling

/-- Whether the thread of a side waits. -/
private def waits (waits₁ : M → σ → Prop) (waits₂ : M → τ → Prop) (k : Side) (s : Conf M σ τ) :
    Prop :=
  match k with
  | .fst => waits₁ s.mem s.fst
  | .snd => waits₂ s.mem s.snd

theorem live (h : P.Polling init rank₁ rank₂ waits₁ waits₂) :
    Live (P.system init) id (P.Over waits₁ waits₂)
      (fun s => rank₁ s.mem s.fst + rank₂ s.mem s.snd) (waits waits₁ waits₂) := by
  refine ⟨?_, ?_, ?_⟩
  · rintro i - ⟨m, p, c⟩ hr hnot hw
    have hexit : P.exited ⟨m, p, c⟩ = false := Bool.eq_false_iff.mpr fun he => hnot (.inl he)
    obtain ⟨hp, hc⟩ := Bool.or_eq_false_iff.mp hexit
    cases i with
    | fst =>
      obtain ⟨⟨m', p', evs⟩, hx⟩ := Option.ne_none_iff_exists'.mp (h.fst_moves hr hw hp)
      obtain ⟨hlt, hle⟩ := h.fst_work hr hw hx
      exact ⟨_, evs, step_fst hx hc, Nat.add_lt_add_of_lt_of_le hlt hle⟩
    | snd =>
      obtain ⟨⟨m', c', evs⟩, hx⟩ := Option.ne_none_iff_exists'.mp (h.snd_moves hr hw hc)
      obtain ⟨hlt, hle⟩ := h.snd_work hr hw hx
      exact ⟨_, evs, step_snd hx hp, Nat.add_lt_add_of_le_of_lt hle hlt⟩
  · rintro i - ⟨m, p, c⟩ s' evs hr - hw hs
    obtain ⟨m', p', rfl, rfl, hx⟩ | ⟨m', c', rfl, rfl, hx⟩ := step_cases hs
    · obtain ⟨rfl, hrank, -⟩ := h.fst_wait hr hw hx
      refine .inr ⟨congrArg (· + rank₂ m' c) hrank, ?_⟩
      rintro (- | -) hk
      · exact hw
      · exact hk
    · obtain ⟨rfl, hrank, -⟩ := h.snd_wait hr hw hx
      refine .inr ⟨congrArg (rank₁ m' p + ·) hrank, ?_⟩
      rintro (- | -) hk
      · exact hk
      · exact hw
  · intro _ _ s _ hnot
    by_contra hall
    simp only [not_exists, not_not] at hall
    exact hnot (.inr ⟨hall .fst, hall .snd⟩)

theorem over_step (h : P.Polling init rank₁ rank₂ waits₁ waits₂) {i : Side} {s s' : Conf M σ τ}
    {evs : List ε} (hr : (P.system init).Reachable s) (hover : P.Over waits₁ waits₂ s)
    (hs : (P.system init).step i s = some (s', evs)) : P.Over waits₁ waits₂ s' := by
  rcases hover with hexit | ⟨hp, hc⟩
  · have hnone : (P.system init).step i s = none := step_of_exited hexit
    rw [hnone] at hs
    cases hs
  · obtain ⟨m, p, c⟩ := s
    obtain ⟨m', p', rfl, rfl, hx⟩ | ⟨m', c', rfl, rfl, hx⟩ := step_cases hs
    · obtain ⟨rfl, -, hp'⟩ := h.fst_wait hr hp hx
      exact .inr ⟨hp', hc⟩
    · obtain ⟨rfl, -, hc'⟩ := h.snd_wait hr hc hx
      exact .inr ⟨hp, hc'⟩

/-- Under a fair schedule the process ends, or both threads wait for good. -/
theorem ends (h : P.Polling init rank₁ rank₂ waits₁ waits₂) {sched : Nat → Side}
    (hfair : Fair id sched) :
    ∃ n, ∀ m, n ≤ m → P.Over waits₁ waits₂ ((P.system init).play sched m).1 := by
  obtain ⟨n, -, hn⟩ := h.live.reaches hfair 0
  exact ⟨n, fun m hnm => System.play_keeps h.over_step hnm hn⟩

end Program.Polling

end Polling

/-! ## Threads that only stop when they are done -/

section Done

variable {ι ω M σ ε : Type} [DecidableEq ι] [Fintype ι] {P : Parallel ι ω M σ ε}

/-- If every turn of a thread that is not done lowers its rank, from some moment on, then a fair
schedule brings all threads to their ends. -/
theorem Parallel.fair_done (init : Threads ι M σ) (ok : ι × ω → Threads ι M σ → Prop)
    (done : σ → Prop) (rank : σ → Nat)
    (hstep : ∀ {t w s}, (P.system init).Reachable s → ok (t, w) s → ¬ done (s.regs t) →
      ∃ m r evs, P.next t w s.shared (s.regs t) = some (m, r, evs) ∧ rank r < rank (s.regs t))
    (hdone : ∀ {t w m r}, done r → P.next t w m r = none) {sched : Nat → ι × ω}
    (hfair : Fair Prod.fst sched) {k : Nat}
    (hok : ∀ m, k ≤ m → ok (sched m) ((P.system init).play sched m).1) :
    ∃ n, ∀ m, n ≤ m → ∀ t, done (((P.system init).play sched m).1.regs t) := by
  have hlive : LiveWhere (P.system init) Prod.fst
      (fun l _ s => (P.system init).Reachable s ∧ ok l s) (fun s => ∀ t, done (s.regs t))
      (fun _ s => ∑ t, rank (s.regs t)) fun t s => done (s.regs t) := by
    refine ⟨?_, ?_, ?_⟩
    · rintro ⟨t, w⟩ - s ⟨hr, hok'⟩ - hnot
      obtain ⟨m, r, evs, hnext, hlt⟩ := hstep hr hok' hnot
      exact ⟨_, evs, Parallel.step_of_next hnext, Parallel.sum_rank_lt rank hlt⟩
    · intro l _ s s' evs _ _ hd hs
      obtain ⟨m, r, hnext, -⟩ := Parallel.step_cases hs
      rw [hdone hd] at hnext
      cases hnext
    · intro _ _ s _ hnot
      exact not_forall.mp hnot
  obtain ⟨n, -, hn⟩ := hlive.reaches hfair fun m hm => ⟨System.reachable_play m, hok m hm⟩
  refine ⟨n, fun m hnm => System.play_keeps (P := fun s : Threads ι M σ => ∀ t, done (s.regs t))
    ?_ hnm hn⟩
  intro l s s' evs _ hall hs
  obtain ⟨m, r, hnext, -⟩ := Parallel.step_cases hs
  rw [hdone (hall l.1)] at hnext
  cases hnext

end Done

/-! ## Threads that do not poll -/

section Standstill

variable {ι M σ ε : Type} [DecidableEq ι] [Fintype ι] {P : Parallel ι Unit M σ ε}
  {init : Threads ι M σ}

/-- No thread has a step. -/
def Parallel.Standstill (P : Parallel ι Unit M σ ε) (s : Threads ι M σ) : Prop :=
  ∀ t, P.next t () s.shared (s.regs t) = none

/-- Threads whose steps all lower their ranks come to a standstill. -/
theorem Parallel.live (rank : σ → Nat)
    (hstep : ∀ {t s m r evs}, (P.system init).Reachable s →
      P.next t () s.shared (s.regs t) = some (m, r, evs) → rank r < rank (s.regs t)) :
    Live (P.system init) Prod.fst P.Standstill (fun s => ∑ t, rank (s.regs t))
      fun t s => P.next t () s.shared (s.regs t) = none := by
  refine ⟨?_, ?_, ?_⟩
  · intro l _ s hr _ hnot
    obtain ⟨⟨m, r, evs⟩, hnext⟩ := Option.ne_none_iff_exists'.mp hnot
    exact ⟨_, evs, Parallel.step_of_next hnext, Parallel.sum_rank_lt rank (hstep hr hnext)⟩
  · intro l _ s s' evs _ _ hnone hs
    obtain ⟨m, r, hnext, -⟩ := Parallel.step_cases hs
    rw [hnone] at hnext
    cases hnext
  · intro _ _ s _ hnot
    exact not_forall.mp hnot

omit [Fintype ι] in
theorem Parallel.Standstill.play_eq {sched : Nat → ι × Unit} {n m : Nat} (hnm : n ≤ m)
    (h : P.Standstill ((P.system init).play sched n).1) :
    (P.system init).play sched m = (P.system init).play sched n := by
  induction hnm with
  | refl => rfl
  | @step m _ ih =>
    have hnone : (P.system init).step (sched m) ((P.system init).play sched m).1 = none := by
      rw [ih]
      exact Option.map_eq_none_iff.mpr (h _)
    rw [System.play_of_none hnone, ih]

end Standstill

end Infra
