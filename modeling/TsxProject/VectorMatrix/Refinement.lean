import TsxProject.VectorMatrix.Consumer
import TsxProject.VectorMatrix.Producer

/-!
# The threads refine the ledger

`view` reads the ledger off a state. The invariant `Inv` adds to the registers of the two threads
what `checkState` says: whose turn the hand-shake is. Every run of the threads is, through `view`,
a run of the ledger (`refines`).
-/

namespace TsxProject

open Infra Infra.Ring

/-- The ledger of a state. -/
def view (S : Setup) (s : S.State) : Ledger S.N where
  content := s.mem.content
  written := s.fst.written S.dims
  matched := s.snd.matched S.dims
  cleared := s.snd.cleared S.dims
  moved := s.snd.moved S.dims
  requested := s.fst.requested
  verified := s.snd.verified
  acked := s.snd.acked
  producerRows := s.fst.rowsStored
  consumerRows := s.snd.i

/-- The ledger of what the two threads have done. -/
def ledgerOf {N : Nat} (content : Fin N → Int) (p : Producer.Progress) (c : Consumer.Progress) :
    Ledger N where
  content := content
  written := p.written
  matched := c.matched
  cleared := c.cleared
  moved := c.moved
  requested := p.requested
  verified := c.verified
  acked := c.acked
  producerRows := p.rowsStored
  consumerRows := c.rows

theorem view_eq (S : Setup) (s : S.State) :
    view S s = ledgerOf s.mem.content (s.fst.progress S.dims) (s.snd.progress S.dims) := rfl

/-! ## The invariant -/

/-- Whose turn the hand-shake is. -/
structure HandShake (S : Setup) (s : S.State) : Prop where
  /-- `checkState` is 0 exactly while a row waits for its verification -/
  flag : s.mem.checkState = 1 ∧ s.fst.requested = s.snd.acked ∨
    s.mem.checkState = 0 ∧ s.fst.requested = s.snd.acked + 1
  /-- the producer leaves its wait only when the row is acknowledged -/
  working : s.fst.pc ≠ .awaitCheck → s.fst.requested = s.snd.acked
  /-- the consumer answers a request -/
  answering : s.snd.Answers → s.fst.requested = s.snd.acked + 1

structure Inv (S : Setup) (s : S.State) : Prop extends HandShake S s where
  fst : s.fst.Ok S s.mem
  snd : s.snd.Ok S s.mem

variable {S : Setup}

theorem HandShake.requested_eq {s : S.State} (h : HandShake S s) (hflag : s.mem.checkState = 0) :
    s.fst.requested = s.snd.acked + 1 := by
  rcases h.flag with hf | hf
  · rw [hflag] at hf
    simp at hf
  · exact hf.2

theorem HandShake.acked_eq {s : S.State} (h : HandShake S s) (hflag : s.mem.checkState ≠ 0) :
    s.fst.requested = s.snd.acked := by
  rcases h.flag with hf | hf
  · exact hf.2
  · exact absurd hf.1 hflag

/-! ## Steps -/

section Steps

variable {q q' : SimpleSyncQueue S.N} {p p' : Producer S.N} {c c' : Consumer S.N}
  {evs : List (Event S.N)}

/-- A step of the producer that requests nothing. -/
theorem HandShake.of_producer (h : HandShake S ⟨q, p, c⟩) (hst : q'.checkState = q.checkState)
    (hreq : p'.requested = p.requested) (hwork : p'.pc ≠ .awaitCheck → p.requested = c.acked) :
    HandShake S ⟨q', p', c⟩ where
  flag := by simpa only [hst, hreq] using h.flag
  working := by simpa only [hreq] using hwork
  answering := by simpa only [hreq] using h.answering

/-- A step of the consumer that acknowledges nothing. -/
theorem HandShake.of_consumer (h : HandShake S ⟨q, p, c⟩) (hst : q'.checkState = q.checkState)
    (hack : c'.acked = c.acked) (hans : c'.Answers → p.requested = c.acked + 1) :
    HandShake S ⟨q', p, c'⟩ where
  flag := by simpa only [hst, hack] using h.flag
  working := by simpa only [hack] using h.working
  answering := by simpa only [hack] using hans

theorem Inv.producer_step (hS : S.Replicated) (h : Inv S ⟨q, p, c⟩)
    (hs : Producer.Step S q p q' p' evs) :
    Inv S ⟨q', p', c⟩ ∧
      (Ledger.spec S).StepOrStutter (view S ⟨q, p, c⟩) evs (view S ⟨q', p', c⟩) := by
  obtain ⟨hhand, hp, hc⟩ := h
  have hp' := hp.step hS hs
  simp only at hp hc
  simp only [view_eq]
  cases hp.effect hs with
  | quiet enqPtr volatileValue hprog hwait =>
    have hreq : p'.requested = p.requested := congrArg Producer.Progress.requested hprog
    refine ⟨⟨hhand.of_producer rfl hreq ?_, hp', hc.frame rfl⟩, .inr ⟨rfl, by rw [hprog]⟩⟩
    intro hne
    rcases hwait hne with hne' | hset
    · exact hhand.working hne'
    · exact hhand.acked_eq hset
  | write hst hat hprog =>
    have hreq : p'.requested = p.requested := congrArg Producer.Progress.requested hprog
    have hsync := hhand.working hst.working
    refine ⟨⟨hhand.of_producer rfl hreq fun _ => hsync, hp', hc.frame rfl⟩, .inl ?_⟩
    have hent := hat.written_eq
    have hrow := hat.row_lt
    rw [← hat.requested_eq] at hent hrow
    rw [hprog, hat.value_eq, ← hat.requested_eq]
    exact Ledger.Step.write p.j hsync (hat.rowsStored_eq.trans hat.requested_eq.symm) hrow hent
      hat.col_lt
  | request hpc hrs hent hpc' hprog =>
    have hreq : p'.requested = p.requested + 1 := congrArg Producer.Progress.requested hprog
    have hsync := hhand.working hpc
    refine ⟨⟨⟨.inr ⟨rfl, ?_⟩, fun hne => absurd hpc' hne, fun _ => ?_⟩, hp', hc.frame rfl⟩, .inl ?_⟩
    · exact hreq.trans (congrArg (· + 1) hsync)
    · exact hreq.trans (congrArg (· + 1) hsync)
    · rw [hprog]
      exact Ledger.Step.request hsync hrs hent
  | produce hpc hrs hprog =>
    have hreq : p'.requested = p.requested := congrArg Producer.Progress.requested hprog
    have hsync := hhand.working hpc
    refine ⟨⟨hhand.of_producer rfl hreq fun _ => hsync, hp', hc⟩, .inl ?_⟩
    rw [hprog]
    exact Ledger.Step.produce hsync hrs

/-- While the consumer reads `volatileValue`, the producer waits in the same row. -/
theorem Inv.volatileValue_eq (h : Inv S ⟨q, p, c⟩) (hpc : c.pc = .readVolatile) :
    q.volatileValue = S.producerCalc.final S.dims c.i := by
  have hreq := h.answering (.inl hpc)
  have hwait : p.pc = .awaitCheck := by
    by_contra hne
    have := h.working hne
    omega
  have hv := h.fst.2
  simp only [hwait, Producer.requested, hpc, Consumer.acked] at hv hreq
  have hi : p.i = c.i := by omega
  rw [hv.2.2.2, hi]

theorem Inv.consumer_step (h : Inv S ⟨q, p, c⟩) (hs : Consumer.Step S q c q' c' evs) :
    Inv S ⟨q', p, c'⟩ ∧
      (Ledger.spec S).StepOrStutter (view S ⟨q, p, c⟩) evs (view S ⟨q', p, c'⟩) := by
  have hvol := h.volatileValue_eq
  obtain ⟨hhand, hp, hc⟩ := h
  have hc' := hc.step hs
  simp only at hp hc
  simp only [view_eq]
  cases hc.effect hs with
  | quiet hprog hwait =>
    have hack : c'.acked = c.acked := congrArg Consumer.Progress.acked hprog
    refine ⟨⟨hhand.of_consumer rfl hack ?_, hp, hc'⟩, .inr ⟨rfl, by rw [hprog]⟩⟩
    intro ha
    rcases hhand.flag with hfl | hfl
    · exact absurd hfl.1 (hwait ha).2
    · exact hfl.2
  | compare k hk hat hcon hprog hans =>
    have hack : c'.acked = c.acked := congrArg Consumer.Progress.acked hprog
    refine ⟨⟨hhand.of_consumer rfl hack fun ha => absurd ha hans, hp, hc'⟩, .inl ?_⟩
    have hent := hat.matched_eq
    have hrow := hat.row_lt
    have hval := hat.value_eq
    rw [← hat.acked_eq] at hent hrow hval
    rw [hat.slot_eq, hval] at hcon
    rw [hprog, hval, hat.slot_eq, ← hat.acked_eq]
    exact Ledger.Step.compare c.j (hat.verified_eq.trans hat.acked_eq.symm) hat.acked_eq.symm
      hat.moved_eq.symm hrow hent hat.col_lt hcon.symm
  | clear hwb hcm hmc hent hj hprog hans =>
    have hack : c'.acked = c.acked := congrArg Consumer.Progress.acked hprog
    refine ⟨⟨hhand.of_consumer rfl hack fun ha => absurd ha hans, hp.frame rfl rfl, hc'⟩, .inl ?_⟩
    rw [hprog]
    exact Ledger.Step.clear c.j hwb hcm hmc hent hj
  | move deqPtr hmc hprog hans =>
    have hack : c'.acked = c.acked := congrArg Consumer.Progress.acked hprog
    refine ⟨⟨hhand.of_consumer rfl hack fun ha => absurd ha hans, hp.frame rfl rfl, hc'⟩, .inl ?_⟩
    rw [hprog]
    exact Ledger.Step.move hmc
  | verify hpc hver hrow hmv hmm hval hprog =>
    have hack : c'.acked = c.acked := congrArg Consumer.Progress.acked hprog
    have hreq := hhand.answering (.inl hpc)
    refine ⟨⟨hhand.of_consumer rfl hack fun _ => hreq, hp, hc'⟩, .inl ?_⟩
    have hv := hvol hpc
    rw [hrow] at hv
    rw [hv] at hval ⊢
    rw [hprog]
    exact Ledger.Step.verify hreq hver hrow hmv hmm hval
  | ack hpc hver hprog hans =>
    have hack : c'.acked = c.acked + 1 := congrArg Consumer.Progress.acked hprog
    have hreq : p.requested = c'.acked := (hhand.answering (.inr hpc)).trans hack.symm
    refine ⟨⟨⟨.inl ⟨rfl, hreq⟩, fun _ => hreq, fun ha => absurd ha hans⟩, hp.frame rfl rfl, hc'⟩,
      .inl ?_⟩
    rw [hprog]
    exact Ledger.Step.ack hver
  | consume hrow hver hprog hans =>
    have hack : c'.acked = c.acked := congrArg Consumer.Progress.acked hprog
    refine ⟨⟨hhand.of_consumer rfl hack fun ha => absurd ha hans, hp, hc'⟩, .inl ?_⟩
    rw [hprog]
    exact Ledger.Step.consume hrow hver

end Steps

theorem Inv.step (hS : S.Replicated) {i : Side} {s s' : S.State} {evs : List (Event S.N)}
    (h : Inv S s) (hs : S.system.step i s = some (s', evs)) :
    Inv S s' ∧ (Ledger.spec S).StepOrStutter (view S s) evs (view S s') := by
  obtain ⟨q, p, c⟩ := s
  obtain ⟨q', p', rfl, rfl, hx⟩ | ⟨q', c', rfl, rfl, hx⟩ := Setup.step_cases hs
  · exact h.producer_step hS (producer_cases hx)
  · exact h.consumer_step (consumer_cases hx)

/-- Both threads start before their first row. -/
theorem Setup.start_pc (hS : S.Replicated) :
    S.system.init.fst.pc = .row ∧ S.system.init.snd.pc = .row := by
  rcases hS with hf | hf | hf <;>
    simp [Setup.system, Program.system, Producer.start, Consumer.start, hf]

theorem Setup.start_registers (hS : S.Replicated) :
    S.system.init.fst.i = 0 ∧ S.system.init.snd.i = 0 ∧
      (S.freq ≠ .volatile → S.system.init.fst.newLimit < S.dims.cols) := by
  have hsz := S.dims.size_lt
  rcases hS with hf | hf | hf <;>
    simp [Setup.system, Program.system, Producer.start, Consumer.start, hf] <;> omega

theorem Inv.init (hS : S.Replicated) : Inv S S.system.init := by
  obtain ⟨hp, hc⟩ := Setup.start_pc hS
  obtain ⟨hi, hr, hlim⟩ := Setup.start_registers hS
  have hmem : S.system.init.mem = SimpleSyncQueue.init := rfl
  have hsync : S.system.init.fst.requested = S.system.init.snd.acked := by
    simp only [Producer.requested, Consumer.acked, hp, hc, hi, hr]
  refine ⟨⟨.inl ⟨rfl, hsync⟩, fun _ => hsync, ?_⟩, ?_, ?_⟩
  · simp [Consumer.Answers, hc]
  · simpa [Producer.Ok, Producer.entry, hp, hi, hmem, SimpleSyncQueue.init] using hlim
  · simp [Consumer.Ok, Consumer.moved, hc, hr, hmem, SimpleSyncQueue.init]

theorem view_init (hS : S.Replicated) : view S S.system.init = Ledger.init S := by
  obtain ⟨hp, hc⟩ := Setup.start_pc hS
  obtain ⟨hi, hr, -⟩ := Setup.start_registers hS
  simp only [view, Ledger.init, Producer.written, Producer.entry, Producer.requested,
    Producer.rowsStored, Consumer.matched, Consumer.cleared, Consumer.moved, Consumer.verified,
    Consumer.acked, hp, hc, hi, hr, Nat.zero_mul]
  rfl

/-- **Every run of the threads is a run of the ledger.** -/
theorem refines (hS : S.Replicated) {ok : Side → S.State → Prop} {tr : List (Event S.N)}
    {s : S.State} (h : S.system.RunsWhere ok tr s) :
    Inv S s ∧ (Ledger.spec S).Runs tr (view S s) :=
  h.refines (Inv.init hS) (view_init hS) fun hi _ hs => hi.step hS hs

/-- What the ledger says of each of its events is true of every event of a run. -/
theorem preceded (hS : S.Replicated) {ok : Side → S.State → Prop}
    {A : List (Event S.N) → Event S.N → Prop}
    (hstep : ∀ {i tr s s' evs}, S.system.RunsWhere ok tr s → ok i s →
      S.system.step i s = some (s', evs) → Ledger.Step S (view S s) evs (view S s') →
        ∀ e ∈ evs, A tr e)
    {tr : List (Event S.N)} {s : S.State} (h : S.system.RunsWhere ok tr s) : Preceded A tr := by
  refine h.preceded ?_
  intro i tr s s' evs hr hok hs
  rcases ((refines hS hr).1.step hS hs).2 with hL | ⟨rfl, -⟩
  · exact ⟨hL.length_le, hstep hr hok hs hL⟩
  · exact ⟨Nat.zero_le 1, nofun⟩

/-! ## The result vectors -/

/-- The rows that are stored hold the threads' final values. -/
structure Results (S : Setup) (s : S.State) : Prop where
  fst : ∀ i, i < s.fst.rowsStored → s.fst.producerVectorResult i = S.producerCalc.final S.dims i
  snd : ∀ i, i < s.snd.i → s.snd.consumerVectorResult i = S.consumerCalc.final S.dims i

theorem update_final {f : Nat → Int} {n : Nat} {g : Nat → Int} (h : ∀ i, i < n → f i = g i) :
    ∀ i, i < n + 1 → Function.update f n (g n) i = g i := by
  intro i hi
  by_cases he : i = n
  · rw [he, Function.update_self]
  · rw [Function.update_of_ne he]
    exact h i (by omega)

theorem Results.step {i : Side} {s s' : S.State} {evs : List (Event S.N)} (hinv : Inv S s)
    (h : Results S s) (hs : S.system.step i s = some (s', evs)) : Results S s' := by
  obtain ⟨q', p', rfl, rfl, hx⟩ | ⟨q', c', rfl, rfl, hx⟩ := Setup.step_cases hs
  · refine ⟨?_, h.snd⟩
    show ∀ i, i < (p'.progress S.dims).rowsStored → (p'.progress S.dims).result i = _
    cases hinv.fst.effect (producer_cases hx) with
    | quiet _ _ hprog | write _ _ hprog | request _ _ _ _ hprog =>
      rw [hprog]
      exact h.fst
    | produce _ _ hprog =>
      rw [hprog]
      exact update_final h.fst
  · refine ⟨h.fst, ?_⟩
    show ∀ i, i < (c'.progress S.dims).rows → (c'.progress S.dims).result i = _
    cases hinv.snd.effect (consumer_cases hx) with
    | consume _ _ hprog =>
      rw [hprog]
      exact update_final h.snd
    | quiet hprog | compare _ _ _ _ hprog | clear _ _ _ _ _ hprog | move _ _ hprog
    | verify _ _ _ _ _ _ hprog | ack _ _ hprog =>
      rw [hprog]
      exact h.snd

theorem Results.init (hS : S.Replicated) : Results S S.system.init := by
  obtain ⟨hp, -⟩ := Setup.start_pc hS
  obtain ⟨hi, hr, -⟩ := Setup.start_registers hS
  constructor <;> intro i hlt
  · simp only [Producer.rowsStored, hp, hi, Nat.not_lt_zero] at hlt
  · simp only [hr, Nat.not_lt_zero] at hlt

theorem results (hS : S.Replicated) {ok : Side → S.State → Prop} {tr : List (Event S.N)}
    {s : S.State} (h : S.system.RunsWhere ok tr s) : Results S s :=
  h.rule (I := fun _ s => Results S s) (Results.init hS)
    fun hr hI _ hs => hI.step (refines hS hr).1 hs

/-- When both threads have finished, every row is stored. -/
theorem Results.of_done {s : S.State} (h : Results S s) (hinv : Inv S s)
    (hp : s.fst.pc = .done) (hc : s.snd.pc = .done) {i : Nat} (hi : i < S.dims.rows) :
    s.fst.producerVectorResult i = S.producerCalc.final S.dims i ∧
      s.snd.consumerVectorResult i = S.consumerCalc.final S.dims i := by
  have hpi := hinv.fst.2
  have hci := hinv.snd.2
  simp only [hp] at hpi
  simp only [hc] at hci
  refine ⟨h.fst i ?_, h.snd i (hci ▸ hi)⟩
  simp only [Producer.rowsStored, hp]
  omega

end TsxProject
