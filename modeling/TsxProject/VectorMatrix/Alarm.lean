import TsxProject.VectorMatrix.Refinement

/-!
# Runs without a report

The consumer compares what it finds in the slot of `deqPtr`, and at the end of a row what it finds
in `volatileValue`. The second comparison never fails for the hand-shake's sake (`Inv`); for the
first one it is enough that whenever the consumer is about to compare, the slot is free or holds
the value it expects (`no_softError`). How a mode guarantees that is the mode's own matter.
-/

namespace TsxProject

open Infra Infra.Ring

variable {S : Setup}

/-- A consumer that has seen its slot occupied still finds it so. -/
def Awake (S : Setup) (s : S.State) : Prop :=
  s.snd.Wakes → s.mem.content s.mem.deqPtr ≠ alreadyConsumed

theorem Awake.step
    (hval : ∀ i j, i < S.dims.rows → j < S.dims.cols → S.producerCalc.value i j ≠ alreadyConsumed)
    {i : Side} {s s' : S.State} {evs : List (Event S.N)} (hinv : Inv S s) (h : Awake S s)
    (hs : S.system.step i s = some (s', evs)) : Awake S s' := by
  obtain ⟨q', p', rfl, rfl, hx⟩ | ⟨q', c', rfl, rfl, hx⟩ := Setup.step_cases hs
  · intro hw
    have hne := h hw
    cases hinv.fst.effect (producer_cases hx) with
    | quiet | request | produce => exact hne
    | write hst hat =>
      simp only
      by_cases he : s.mem.deqPtr = slot (s.fst.written S.dims)
      · rw [he, Function.update_self, hat.value_eq]
        exact hval _ _ hat.row_lt hat.col_lt
      · rwa [Function.update_of_ne he]
  · intro hw
    obtain ⟨rfl, hor⟩ := hinv.snd.wakes (consumer_cases hx) hw
    exact hor.elim h id

theorem Awake.init (hS : S.Replicated) : Awake S S.system.init := by
  intro hw
  unfold Consumer.Wakes at hw
  rw [(Setup.start_pc hS).2] at hw
  exact hw.elim

/-- A consumer that polled its slot does not find it free again. -/
theorem Awake.occupied {s : S.State} (h : Awake S s) (hinv : Inv S s) {k : Fin S.N}
    (hk : s.snd.Compares k)
    (hagain : s.mem.content k = alreadyConsumed → s.snd.pc = .check (.again k)) :
    s.mem.content k ≠ alreadyConsumed := by
  intro hfree
  have hpc := hagain hfree
  have hat := hinv.snd.compares hk
  refine h (by simp only [Consumer.Wakes, hpc]) ?_
  rw [hinv.snd.1, hat.moved_eq, ← hat.slot_eq, hfree]

/--
**No report.** The values are never taken for a free slot, the rows have equal final values, and
whenever the consumer compares, the slot is free or holds its own value: then the consumer never
reaches a SOFT ERROR exit.
-/
theorem no_softError (hS : S.Replicated)
    (hval : ∀ i j, i < S.dims.rows → j < S.dims.cols → S.producerCalc.value i j ≠ alreadyConsumed)
    (hfin : ∀ i, i < S.dims.rows → S.consumerCalc.final S.dims i = S.producerCalc.final S.dims i)
    {ok : Side → S.State → Prop}
    (hgood : ∀ {tr s}, S.system.RunsWhere ok tr s → ok .snd s → ∀ k, s.snd.Compares k →
      s.mem.content k = alreadyConsumed ∨ s.mem.content k = s.snd.thisValue)
    {tr : List (Event S.N)} {s : S.State} (h : S.system.RunsWhere ok tr s) :
    ∀ e, s.snd.pc ≠ .softError e := by
  have hall : Awake S s ∧ ∀ e, s.snd.pc ≠ .softError e := by
    refine h.rule (I := fun _ s => Awake S s ∧ ∀ e, s.snd.pc ≠ .softError e) ?_ ?_
    · refine ⟨Awake.init hS, ?_⟩
      intro e
      rw [(Setup.start_pc hS).2]
      simp
    · rintro i tr s s' evs hr ⟨hawake, hno⟩ hok hs
      have hinv := (refines hS hr).1
      refine ⟨hawake.step hval hinv hs, ?_⟩
      obtain ⟨q', p', rfl, rfl, hx⟩ | ⟨q', c', rfl, rfl, hx⟩ := Setup.step_cases hs
      · exact hno
      · intro e he
        rcases (consumer_cases hx).softError_cases he with ⟨k, hk, hne, hagain⟩ | ⟨hpc, hne⟩
        · rcases hgood hr hok k hk with hfree | hown
          · exact hawake.occupied hinv hk hagain hfree
          · exact hne hown.symm
        · obtain ⟨hi, hv⟩ := hinv.snd.final_eq hpc
          rw [hinv.volatileValue_eq hpc, hv] at hne
          exact hne (hfin _ hi)
  exact hall.2

/-! ## Runs without faults -/

theorem Setup.FaultFree.value_ne {w : Workload S.dims} (hw : S.FaultFree w) :
    ∀ i j, i < S.dims.rows → j < S.dims.cols →
      S.producerCalc.value i j ≠ alreadyConsumed ∧ S.consumerCalc.value i j ≠ alreadyConsumed := by
  intro i j hi hj
  have := w.value_pos hi hj
  rw [hw.1, hw.2]
  simp only [alreadyConsumed]
  omega

theorem Setup.FaultFree.entry_ne {w : Workload S.dims} (hw : S.FaultFree w) {x : Nat}
    (hx : x < S.dims.rows * S.dims.cols) :
    S.producerCalc.entry S.dims x ≠ alreadyConsumed :=
  (hw.value_ne _ _ (Nat.div_lt_of_lt_mul (Nat.mul_comm .. ▸ hx))
    (Nat.mod_lt x S.dims.cols_pos)).1

end TsxProject
