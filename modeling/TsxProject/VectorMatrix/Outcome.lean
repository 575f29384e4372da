import TsxProject.VectorMatrix.Termination

/-!
# The outcome does not depend on the schedule

In the modes that mark slots free, and as long as no value is `ALREADY_CONSUMED`, the replicated
program does under every fair schedule what a sequential comparison of the two streams says:
without a difference it stores the results, and otherwise it reports the first difference, with the
two values that differ.

* `Setup.difference` — the sequential comparison
* `Checked` — what the consumer has compared, and what it reports
* `fair_outcome` — every fair schedule has that outcome
-/

namespace TsxProject

open Infra Infra.Ring

variable {S : Setup}

/-! ## The sequential comparison -/

/-- The first entry in which the two threads differ. -/
def Setup.difference (S : Setup) : Option Nat :=
  (List.range (S.dims.rows * S.dims.cols)).find? fun x =>
    decide (S.producerCalc.entry S.dims x ≠ S.consumerCalc.entry S.dims x)

/-- The two threads compute the same entries before `x`. -/
def Setup.AgreeBefore (S : Setup) (x : Nat) : Prop :=
  ∀ y, y < x → S.producerCalc.entry S.dims y = S.consumerCalc.entry S.dims y

/-- What is to be seen in the end. -/
def Setup.Outcome (S : Setup) (s : S.State) : Prop :=
  match S.difference with
  | none =>
    s.fst.pc = .done ∧ s.snd.pc = .done ∧ ∀ i, i < S.dims.rows →
      s.fst.producerVectorResult i = S.producerCalc.final S.dims i ∧
      s.snd.consumerVectorResult i = S.consumerCalc.final S.dims i
  | some x =>
    s.snd.pc = .softError
        (.detected (S.consumerCalc.entry S.dims x) (S.producerCalc.entry S.dims x)) ∧
      ∀ i, i < x / S.dims.cols →
        s.snd.consumerVectorResult i = S.consumerCalc.final S.dims i

theorem Setup.difference_eq_none (h : S.AgreeBefore (S.dims.rows * S.dims.cols)) :
    S.difference = none := by
  unfold Setup.difference
  rw [List.find?_range_eq_none]
  intro y hy
  simp [h y hy]

theorem Setup.difference_eq_some {x : Nat} (hx : x < S.dims.rows * S.dims.cols)
    (h : S.AgreeBefore x)
    (hne : S.producerCalc.entry S.dims x ≠ S.consumerCalc.entry S.dims x) :
    S.difference = some x := by
  unfold Setup.difference
  rw [List.find?_range_eq_some]
  refine ⟨by simpa using hne, List.mem_range.mpr hx, ?_⟩
  intro y hy
  simp [h y hy]

/-! ## What the consumer has compared -/

/-- Neither thread computes `ALREADY_CONSUMED`. -/
structure Setup.NoSentinel (S : Setup) : Prop where
  producer : ∀ i j, i < S.dims.rows → j < S.dims.cols →
    S.producerCalc.value i j ≠ alreadyConsumed
  consumer : ∀ i j, i < S.dims.rows → j < S.dims.cols →
    S.consumerCalc.value i j ≠ alreadyConsumed

theorem Setup.NoSentinel.disciplined (hS : S.Clears) (hv : S.NoSentinel)
    {tr : List (Event S.N)} {s : S.State} (h : S.system.Runs tr s) : Disciplined S s :=
  TsxProject.disciplined hS hv.consumer (runs_storesNoSentinel hS.replicated hv.producer h)

/-- The entries that are compared agree, and a report is about the first one that does not. -/
structure Checked (S : Setup) (s : S.State) : Prop where
  agree : S.AgreeBefore (s.snd.matched S.dims)
  report : ∀ e, s.snd.pc = .softError e → ∃ x, x < S.dims.rows * S.dims.cols ∧
    S.AgreeBefore x ∧ S.producerCalc.entry S.dims x ≠ S.consumerCalc.entry S.dims x ∧
    e = .detected (S.consumerCalc.entry S.dims x) (S.producerCalc.entry S.dims x) ∧
    s.snd.i = x / S.dims.cols

theorem Checked.init (hS : S.Replicated) : Checked S S.system.init where
  agree := by
    have hm : S.system.init.snd.matched S.dims = 0 := congrArg Ledger.matched (view_init hS)
    intro y hy
    omega
  report := by
    intro e he
    rw [(Setup.start_pc hS).2] at he
    cases he

/-- The entry that the consumer compares. -/
theorem Disciplined.read {s : S.State} (h : Disciplined S s) {k : Fin S.N}
    (hk : s.snd.Compares k) (hne : s.mem.content k ≠ alreadyConsumed) :
    s.mem.content k = S.producerCalc.entry S.dims (s.snd.matched S.dims) := by
  have hat := h.inv.snd.compares hk
  have hread := (h.inOrder.queued.read (by
    simp only [view, hat.cleared_eq, ← hat.slot_eq]
    exact hne)).2
  simp only [view, hat.cleared_eq, ← hat.slot_eq] at hread
  exact hread

/-- The value of a row is that of its last column. -/
theorem Calc.final_eq_entry (f : Calc) (d : Dims) (i : Nat) :
    f.final d i = f.entry d (i * d.cols + (d.cols - 1)) := by
  have hcols := d.cols_pos
  rw [f.entry_mul_add d i (by omega)]
  unfold Calc.final Calc.value
  rw [Nat.sub_add_cancel hcols]

theorem Setup.AgreeBefore.final_eq {i : Nat} (h : S.AgreeBefore ((i + 1) * S.dims.cols)) :
    S.producerCalc.final S.dims i = S.consumerCalc.final S.dims i := by
  have hcols := S.dims.cols_pos
  rw [Calc.final_eq_entry, Calc.final_eq_entry]
  refine h _ ?_
  rw [Nat.succ_mul]
  omega

theorem Checked.step (hv : S.NoSentinel) {i : Side} {s s' : S.State}
    {evs : List (Event S.N)} (hdis : Disciplined S s) (hawake : Awake S s) (h : Checked S s)
    (hs : S.system.step i s = some (s', evs)) : Checked S s' := by
  obtain ⟨q', p', rfl, rfl, hx⟩ | ⟨q', c', rfl, rfl, hx⟩ := Setup.step_cases hs
  · exact ⟨h.agree, h.report⟩
  have hstep := consumer_cases hx
  have hinv := hdis.inv
  refine ⟨?_, ?_⟩
  · show S.AgreeBefore (c'.progress S.dims).matched
    cases hinv.snd.effect hstep with
    | compare k hk hat hcon hprog =>
      rw [hprog]
      intro y hy
      rcases Nat.lt_succ_iff_lt_or_eq.mp hy with hlt | rfl
      · exact h.agree y hlt
      · have hne : s.mem.content k ≠ alreadyConsumed := by
          rw [← hcon, hat.value_eq]
          exact hv.consumer _ _ hat.row_lt hat.col_lt
        rw [← hdis.read hk hne, ← hcon, hat.entry_eq]
    | quiet hprog | clear _ _ _ _ _ hprog | move _ _ hprog | verify _ _ _ _ _ _ hprog
    | ack _ _ hprog | consume _ _ hprog =>
      rw [hprog]
      exact h.agree
  · intro e he
    cases hstep with
    | mismatch k hk hne hagain =>
      have hat := hinv.snd.compares hk
      have hfull := hawake.occupied hinv hk hagain
      have hread := hdis.read hk hfull
      rw [hread, hat.entry_eq] at hne
      refine ⟨s.snd.matched S.dims, ?_, h.agree, Ne.symm hne, ?_, ?_⟩
      · have hrow : (s.snd.i + 1) * S.dims.cols ≤ S.dims.rows * S.dims.cols :=
          Nat.mul_le_mul_right _ hat.row_lt
        have hcol := hat.col_lt
        rw [hat.matched_eq]
        rw [Nat.succ_mul] at hrow
        omega
      · rw [← hread, ← hat.entry_eq]
        exact (ConsumerPc.softError.inj he).symm
      · rw [hat.matched_eq, Nat.add_comm, Nat.add_mul_div_right _ _ S.dims.cols_pos,
          Nat.div_eq_of_lt hat.col_lt, Nat.zero_add]
    | volatileError hpc hne =>
      -- the row has been compared to its end
      obtain ⟨hi, hval⟩ := hinv.snd.final_eq hpc
      have hok := hinv.snd.2
      simp only [hpc] at hok
      have hagree := h.agree
      rw [Consumer.matched, hpc, Consumer.moved, hpc, hok.2.1, ← Nat.succ_mul] at hagree
      rw [hval, hinv.volatileValue_eq hpc] at hne
      exact absurd hagree.final_eq.symm hne
    | isMatch k hk => cases he
    | _ => cases he

theorem checked (hS : S.Clears) (hv : S.NoSentinel) {tr : List (Event S.N)} {s : S.State}
    (h : S.system.Runs tr s) : Checked S s := by
  have hall : Awake S s ∧ Checked S s := by
    refine h.rule (I := fun _ s => Awake S s ∧ Checked S s)
      ⟨Awake.init hS.replicated, Checked.init hS.replicated⟩ ?_
    rintro i tr s s' evs hr ⟨hawake, hchecked⟩ _ hs
    have hdis := hv.disciplined hS hr
    exact ⟨hawake.step hv.producer hdis.inv hs, hchecked.step hv hdis hawake hs⟩
  exact hall.2

/-! ## The outcome -/

/-- Who has ended has the outcome of the sequential comparison. -/
theorem Setup.NoSentinel.outcome (hS : S.Clears) (hv : S.NoSentinel) {tr : List (Event S.N)}
    {s : S.State} (h : S.system.Runs tr s) (hend : Ended s) : S.Outcome s := by
  have hdis := hv.disciplined hS h
  have hchecked := checked hS hv h
  have hres := results hS.replicated h
  rcases hend with ⟨hp, hc⟩ | ⟨e, he⟩ | hdead
  · have hci := hdis.inv.snd.2
    simp only [hc] at hci
    have hagree := hchecked.agree
    rw [Consumer.matched, hc, Consumer.moved, hc, hci] at hagree
    unfold Setup.Outcome
    rw [S.difference_eq_none hagree]
    exact ⟨hp, hc, fun i hi => hres.of_done hdis.inv hp hc hi⟩
  · obtain ⟨x, hx, hagree, hne, rfl, hrow⟩ := hchecked.report e he
    unfold Setup.Outcome
    rw [S.difference_eq_some hx hagree hne]
    exact ⟨he, fun i hi => hres.snd i (hrow ▸ hi)⟩
  · exact absurd hdead (hdis.not_deadlocked hS)

end TsxProject
