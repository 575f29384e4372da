import TsxProject.Infra.SentinelRing
import TsxProject.VectorMatrix.Alarm
import TsxProject.VectorMatrix.Credit
import TsxProject.VectorMatrix.History

/-!
# The modes that mark slots free

In `Volatile` and `RHT_Volatiles` the consumer writes `ALREADY_CONSUMED` back. As long as the
producer does not store this value itself, the ring is a queue (`InOrder`): the producer stores
only in free slots, and the two threads never wait for each other.

* `Disciplined` — the invariant, for arbitrary values other than `ALREADY_CONSUMED`
* `rhtVolatiles_correct` — a run without faults
* `deadlocked_only_by_sentinel` — a corrupted run
-/

namespace TsxProject

open Infra Infra.Ring

variable {S : Setup}

/-! ## The queue -/

namespace Ledger

/-- The ring holds the entries that are stored and not cleared, and the consumer compares only
stored ones. -/
structure InOrder (S : Setup) (L : Ledger S.N) : Prop where
  queued : SentinelRing.Queued L.content (S.producerCalc.entry S.dims) alreadyConsumed
    L.cleared L.written
  matched_le : L.matched ≤ L.written

theorem InOrder.init : InOrder S (Ledger.init S) where
  queued := SentinelRing.Queued.init _ _
  matched_le := Nat.le_refl 0

/-- The consumer's own value in the slot of the next entry is the entry. -/
theorem InOrder.read {L : Ledger S.N} (h : InOrder S L) (hok : L.Ok S.dims)
    (hm : L.matched = L.moved) {v : Int} (hv : L.content (slot L.matched) = v)
    (hne : v ≠ alreadyConsumed) :
    L.matched < L.written ∧ v = S.producerCalc.entry S.dims L.matched := by
  have hcl : L.cleared = L.matched := by
    have := hok.moved_le
    have := hok.cleared_le
    omega
  have hread := h.queued.read (by rw [hcl, hv]; exact hne)
  rw [hcl] at hread
  exact ⟨hread.1, hv.symm.trans hread.2⟩

theorem InOrder.step (hwb : WriteBack S)
    (hc : ∀ i j, i < S.dims.rows → j < S.dims.cols → S.consumerCalc.value i j ≠ alreadyConsumed)
    {L L' : Ledger S.N} {evs : List (Event S.N)} (hok : L.Ok S.dims) (h : InOrder S L)
    (hroom : ∀ k i j v, .stored k i j v ∈ evs →
      L.written < L.cleared + S.N ∧ v ≠ alreadyConsumed)
    (hs : Step S L evs L') : InOrder S L' := by
  have hmatched := h.matched_le
  cases hs with
  | write j hsync hrows hlt hent hj =>
    have hval : S.producerCalc.value L.requested j = S.producerCalc.entry S.dims L.written := by
      rw [hent, Calc.entry_mul_add _ _ _ hj]
    obtain ⟨hfree, hne⟩ := hroom _ _ _ _ (List.mem_singleton_self _)
    rw [hval] at hne ⊢
    exact ⟨h.queued.write hfree hne, Nat.le_succ_of_le hmatched⟩
  | compare j hver hrows hmv hlt hent hj hcon =>
    simp only [hwb, if_true]
    exact ⟨h.queued, (h.read hok hmv hcon (hc _ _ hlt hj)).1⟩
  | clear j _ hcl hmv hent hj =>
    exact ⟨h.queued.clear (by omega), hmatched⟩
  | request | produce | move | verify | ack | consume => exact ⟨h.queued, hmatched⟩

end Ledger

/-! ## The invariant -/

structure Disciplined (S : Setup) (s : S.State) : Prop where
  inv : Inv S s
  ok : (view S s).Ok S.dims
  inOrder : (view S s).InOrder S
  credit : HasCredit S s

/-- The producer is not about to store `ALREADY_CONSUMED`. -/
def StoresNoSentinel (S : Setup) (i : Side) (s : S.State) : Prop :=
  i = .fst → s.fst.Stores → s.fst.thisValue ≠ alreadyConsumed

instance (i : Side) (s : S.State) : Decidable (StoresNoSentinel S i s) :=
  inferInstanceAs (Decidable (_ → _))

theorem Disciplined.init (hS : S.Clears) : Disciplined S S.system.init where
  inv := Inv.init hS.replicated
  ok := by
    rw [view_init hS.replicated]
    exact Ledger.Ok.init S
  inOrder := by
    rw [view_init hS.replicated]
    exact Ledger.InOrder.init
  credit := HasCredit.init hS.replicated

/-- The credit leaves room for what the producer stores. -/
theorem Disciplined.room {s : S.State} (h : Disciplined S s) (hS : S.Clears)
    (hst : s.fst.Stores) : s.fst.written S.dims < s.snd.cleared S.dims + S.N := by
  obtain ⟨hvol, hrht⟩ := h.credit.room h.inv.fst hst
  have hmoved : s.snd.moved S.dims ≤ s.snd.cleared S.dims := h.ok.moved_le
  have hwin := S.window_le
  rcases hS with hf | hf
  · have := hvol hf
    omega
  · have := hrht (by simp [hf])
    omega

theorem Disciplined.room_of_mem (hS : S.Clears) {i : Side} {s s' : S.State}
    {evs : List (Event S.N)} (h : Disciplined S s) (hs : S.system.step i s = some (s', evs))
    {k : Fin S.N} {r j : Nat} {v : Int} (hmem : .stored k r j v ∈ evs) :
    i = .fst ∧ s.fst.Stores ∧ v = s.fst.thisValue ∧
      s.fst.written S.dims < s.snd.cleared S.dims + S.N := by
  obtain ⟨q', p', rfl, rfl, hx⟩ | ⟨q', c', rfl, rfl, hx⟩ := Setup.step_cases hs
  · obtain ⟨hst, hv⟩ := (h.inv.fst.effect (producer_cases hx)).stored_mem hmem
    exact ⟨rfl, hst, hv, h.room hS hst⟩
  · exact absurd hmem (h.inv.snd.effect (consumer_cases hx)).stored_not_mem

theorem Disciplined.step (hS : S.Clears)
    (hc : ∀ i j, i < S.dims.rows → j < S.dims.cols → S.consumerCalc.value i j ≠ alreadyConsumed)
    {i : Side} {s s' : S.State} {evs : List (Event S.N)} (h : Disciplined S s)
    (hno : StoresNoSentinel S i s) (hs : S.system.step i s = some (s', evs)) :
    Disciplined S s' := by
  obtain ⟨hinv', hL⟩ := h.inv.step hS.replicated hs
  have hcredit : HasCredit S s' := by
    refine h.credit.step hS.replicated h.inv h.ok ?_ hs
    intro _ he
    exact h.inOrder.queued.room_of_empty S.dims.two_le he
  rcases hL with hL | ⟨-, hL⟩
  · refine ⟨hinv', h.ok.step hL, h.inOrder.step hS.writeBack hc h.ok ?_ hL, hcredit⟩
    intro k r j v hmem
    obtain ⟨rfl, hst, rfl, hroom⟩ := h.room_of_mem hS hs hmem
    exact ⟨hroom, hno rfl hst⟩
  · exact ⟨hinv', hL ▸ h.ok, hL ▸ h.inOrder, hcredit⟩

/-- The invariant, in runs whose producer never stores `ALREADY_CONSUMED`. -/
theorem disciplined (hS : S.Clears)
    (hc : ∀ i j, i < S.dims.rows → j < S.dims.cols → S.consumerCalc.value i j ≠ alreadyConsumed)
    {tr : List (Event S.N)} {s : S.State} (h : S.system.RunsWhere (StoresNoSentinel S) tr s) :
    Disciplined S s :=
  h.rule (I := fun _ s => Disciplined S s) (Disciplined.init hS)
    fun _ hI hok hs => hI.step hS hc hok hs

/-- What the producer stores is one of its values. -/
theorem Producer.Ok.storesNoSentinel {q : SimpleSyncQueue S.N} {p : Producer S.N} (h : p.Ok S q)
    (hv : ∀ i j, i < S.dims.rows → j < S.dims.cols → S.producerCalc.value i j ≠ alreadyConsumed)
    (hst : p.Stores) : p.thisValue ≠ alreadyConsumed := by
  obtain ⟨pc, i, j, v, nl, ld, ne, cnt, res⟩ := p
  cases pc with
  | put l k =>
    obtain ⟨-, hi, hj, he, -⟩ := h
    exact he ▸ hv i j hi hj
  | enqueue e =>
    cases e with
    | put n k =>
      obtain ⟨-, hi, hj, he, -⟩ := h
      exact he ▸ hv i j hi hj
    | _ => cases hst
  | _ => cases hst

theorem runs_storesNoSentinel (hS : S.Replicated)
    (hv : ∀ i j, i < S.dims.rows → j < S.dims.cols → S.producerCalc.value i j ≠ alreadyConsumed)
    {tr : List (Event S.N)} {s : S.State} (h : S.system.Runs tr s) :
    S.system.RunsWhere (StoresNoSentinel S) tr s := by
  induction h with
  | init => exact .init
  | step hr _ hs ih => exact ih.step (fun _ => (refines hS hr).1.fst.storesNoSentinel hv) hs

/-! ## No deadlock -/

theorem Disciplined.not_deadlocked (hS : S.Clears) {s : S.State} (h : Disciplined S s) :
    ¬ Deadlocked s := by
  rintro ⟨hp, hc⟩
  have hq := h.inOrder.queued
  have hN : 2 ≤ S.N := S.dims.two_le
  simp only [view] at hq
  obtain ⟨-, -, hcl, hcons⟩ := h.inv.snd.spinning hc
  rcases h.inv.fst.spinning hp with ⟨hpc, hwr, hfull⟩ | ⟨hpc, -⟩ | ⟨hpc, hflag, hwr⟩
  · -- the producer waits for a free slot
    have hle := hq.full_of_ne hfull
    have hsync := h.inv.working (by rcases hpc with hpc | ⟨n, hpc⟩ <;> simp [hpc])
    rcases hcons with ⟨hmv, hempty⟩ | ⟨hmv, hflag⟩
    · rw [← hcl] at hempty
      have heq := hq.empty_iff.mp hempty
      omega
    · have := hq.le
      rw [hsync] at hwr
      omega
  · -- the wait of the other mode
    have hcr := h.credit
    simp only [HasCredit, Producer.Credit, hpc] at hcr
    rcases hS with hf | hf <;> simp [hf] at hcr
  · -- the producer waits for the verification
    have hsync := h.inv.requested_eq hflag
    rcases hcons with ⟨hmv, hempty⟩ | ⟨-, hflag'⟩
    · rw [← hcl] at hempty
      have heq := hq.empty_iff.mp hempty
      rw [hsync] at hwr
      omega
    · rw [hflag] at hflag'
      cases hflag'

/-! ## Runs without faults -/

/-- What has happened before an event: an entry is stored in a slot only when the previous one has
been compared and cleared, and it is compared, and then cleared, only after that. -/
def Orderly {N : Nat} (pre : List (Event N)) : Event N → Prop
  | .stored k _ _ _ =>
    ∀ i j v, .stored k i j v ∈ pre → .compared k i j v ∈ pre ∧ .cleared k i j ∈ pre
  | .compared k i j v => .stored k i j v ∈ pre
  | .cleared k i j => ∃ v, .compared k i j v ∈ pre
  | .verified _ _ _ | .producerResult _ _ | .consumerResult _ _ => True

/-- The order of the events in one step. -/
theorem Ledger.InOrder.orderly (hwb : WriteBack S) (hcalc : S.producerCalc = S.consumerCalc)
    (hc : ∀ i j, i < S.dims.rows → j < S.dims.cols → S.consumerCalc.value i j ≠ alreadyConsumed)
    {tr evs : List (Event S.N)} {L L' : Ledger S.N} (hr : (spec S).Runs tr L) (h : InOrder S L)
    (hroom : ∀ k i j v, .stored k i j v ∈ evs → L.written < L.cleared + S.N)
    (hs : Step S L evs L') : ∀ e ∈ evs, Orderly tr e := by
  have hok := Ok.of_runs hr
  intro e he
  cases hs with
  | write j hsync hrows hlt hent hj =>
    have hfree := hroom _ _ _ _ (List.mem_singleton_self _)
    obtain rfl := List.mem_singleton.mp he
    intro i j' v hmem
    obtain ⟨hj', hx, hk, hv⟩ := (mem_iff hr _).mp hmem
    -- the previous entry of the slot is at least a lap old
    have hlap := add_size_le hk.symm hx
    have hcleared : i * S.dims.cols + j' < L.cleared := by omega
    have hmatched : i * S.dims.cols + j' < L.matched := by
      have := hok.cleared_le
      omega
    exact ⟨(mem_iff hr _).mpr ⟨hj', hmatched, hk, hcalc ▸ hv⟩,
      (mem_iff hr _).mpr ⟨hwb, hj', hcleared, hk⟩⟩
  | compare j hver hrows hmv hlt hent hj hcon =>
    obtain rfl := List.mem_singleton.mp he
    have hx := (h.read hok hmv hcon (hc _ _ hlt hj)).1
    exact (mem_iff hr _).mpr ⟨hj, by omega, by rw [hent], by rw [hcalc]⟩
  | clear j _ hcl hmv hent hj =>
    obtain rfl := List.mem_singleton.mp he
    exact ⟨_, (mem_iff hr _).mpr ⟨hj, by omega, by rw [hent], rfl⟩⟩
  | verify | produce | consume =>
    obtain rfl := List.mem_singleton.mp he
    trivial
  | request | move | ack => cases he

section FaultFree

variable {w : Workload S.dims}

/-- Without faults every run is disciplined. -/
theorem Setup.FaultFree.disciplined (hS : S.Clears) (hw : S.FaultFree w)
    {tr : List (Event S.N)} {s : S.State} (h : S.system.Runs tr s) : Disciplined S s :=
  TsxProject.disciplined hS (fun i j hi hj => (hw.value_ne i j hi hj).2)
    (runs_storesNoSentinel hS.replicated (fun i j hi hj => (hw.value_ne i j hi hj).1) h)

theorem Setup.FaultFree.orderly (hS : S.Clears) (hw : S.FaultFree w) {tr : List (Event S.N)}
    {s : S.State} (h : S.system.Runs tr s) : Preceded Orderly tr := by
  refine preceded hS.replicated ?_ h
  intro side tr s s' evs hr _ hs hstep
  have hdis := hw.disciplined hS hr
  have hL := (refines hS.replicated hr).2
  refine hdis.inOrder.orderly hS.writeBack (hw.1.trans hw.2.symm)
    (fun i j hi hj => (hw.value_ne i j hi hj).2) hL (fun k r j v hmem => ?_) hstep
  exact (hdis.room_of_mem hS hs hmem).2.2.2

/-- Without faults the consumer never reports an error. -/
theorem Setup.FaultFree.no_softError (hS : S.Clears) (hw : S.FaultFree w)
    {tr : List (Event S.N)} {s : S.State} (h : S.system.Runs tr s) :
    ∀ e, s.snd.pc ≠ .softError e := by
  refine TsxProject.no_softError hS.replicated (fun i j hi hj => (hw.value_ne i j hi hj).1)
    (fun i _ => by rw [hw.1, hw.2]) (fun {tr s} hr _ k hk => ?_) h
  have hdis := hw.disciplined hS hr
  have hat := hdis.inv.snd.compares hk
  by_cases hfree : s.mem.content k = alreadyConsumed
  · exact .inl hfree
  · have hcl := hat.cleared_eq
    have hread := (hdis.inOrder.queued.read (by
      simpa only [view, hcl, ← hat.slot_eq] using hfree)).2
    simp only [view, hcl, ← hat.slot_eq] at hread
    right
    rw [hread, hat.entry_eq, hw.1, hw.2]

end FaultFree

/--
**The batched mode is correct without faults.** For every workload and every interleaving:

* an entry is stored in a slot only when the previous entry of this slot has been compared and
  cleared;
* the consumer never reports a soft error;
* the two threads never wait for each other;
* when both have finished, both result vectors are what `Vector_Matrix_NotReplicated` computes.
-/
theorem rhtVolatiles_correct (hS : S.freq = .rhtVolatiles) (w : Workload S.dims)
    (hw : S.FaultFree w) {tr : List (Event S.N)} {s : S.State} (h : S.system.Runs tr s) :
    Preceded Orderly tr ∧ (∀ e, s.snd.pc ≠ .softError e) ∧ ¬ Deadlocked s ∧
      (s.fst.pc = .done → s.snd.pc = .done → ∀ i, i < S.dims.rows →
        s.fst.producerVectorResult i = notReplicated w S.producerResult i ∧
        s.snd.consumerVectorResult i = notReplicated w S.producerResult i) := by
  have hclears : S.Clears := .inr hS
  refine ⟨hw.orderly hclears h, hw.no_softError hclears h,
    (hw.disciplined hclears h).not_deadlocked hclears, fun hp hc i hi => ?_⟩
  have hinv := (refines hclears.replicated h).1
  have hres := (results hclears.replicated h).of_done hinv hp hc hi
  rw [hw.1, hw.2] at hres
  rwa [notReplicated_apply w _ hi]

theorem rhtVolatiles_correct_small :
    ∃ tr s, (Setup.small 1 .rhtVolatiles).system.Runs tr s ∧
      s.fst.producerVectorResult 0 = notReplicated (Workload.ones (Dims.small 1)) (fun _ => 0) 0 ∧
      s.snd.consumerVectorResult 0 = 3 ∧ ¬ Deadlocked s := by
  obtain ⟨tr, s, hr, hp, hc⟩ := System.exists_runs (Setup.small 1 .rhtVolatiles).system
    (turns (List.replicate 6 (5, 5) ++ [(3, 1)])) (fun _ s => s.fst.pc = .done ∧ s.snd.pc = .done)
    (by decide +kernel)
  obtain ⟨-, -, hdead, hres⟩ :=
    rhtVolatiles_correct rfl (Workload.ones (Dims.small 1)) ⟨rfl, rfl⟩ hr
  obtain ⟨h1, h2⟩ := hres hp hc 0 (by decide)
  exact ⟨tr, s, hr, h1, h2.trans (by decide), hdead⟩

/-! ## Corrupted runs -/

/-- A corrupted run that hangs has stored `ALREADY_CONSUMED`. -/
theorem deadlocked_only_by_sentinel (hS : S.Clears)
    (hc : ∀ i j, i < S.dims.rows → j < S.dims.cols → 0 < S.consumerCalc.value i j)
    {tr : List (Event S.N)} {s : S.State} (h : S.system.RunsWhere (StoresNoSentinel S) tr s) :
    ¬ Deadlocked s := by
  refine (disciplined hS ?_ h).not_deadlocked hS
  intro i j hi hj
  have := hc i j hi hj
  simp only [alreadyConsumed]
  omega

/-- The smallest instance in which the producer's value of column `j` is `v`. -/
def Setup.corrupted (j : Nat) (v : Int) : Setup :=
  { Setup.small 1 .rhtVolatiles with
    producerCalc := (Workload.ones (Dims.small 1)).faultFree.corrupt 0 j v }

theorem deadlocked_only_by_sentinel_small :
    ∃ tr s, (Setup.corrupted 1 7).system.RunsWhere (StoresNoSentinel _) tr s ∧
      s.snd.pc = .softError (.detected 2 7) ∧ ¬ Deadlocked s := by
  obtain ⟨tr, s, hr, hp⟩ := System.exists_runsWhere (Setup.corrupted 1 7).system
    (StoresNoSentinel _) (turns [(5, 5), (5, 5), (5, 3)])
    (fun _ s => s.snd.pc = .softError (.detected 2 7)) (by decide +kernel)
  refine ⟨tr, s, hr, hp, deadlocked_only_by_sentinel (.inr rfl) (fun i j hi hj => ?_) hr⟩
  exact (Workload.ones (Dims.small 1)).value_pos hi hj

/-- The last value of the row is `ALREADY_CONSUMED`: the consumer takes the entry for a free slot
and waits for it, the producer waits for the verification. -/
theorem deadlocked_by_sentinel :
    (∀ j, j < 3 → 0 < (Setup.corrupted 2 (-1)).consumerCalc.value 0 j) ∧
    (Setup.corrupted 2 (-1)).producerCalc.value 0 2 ≠
      (Setup.corrupted 2 (-1)).consumerCalc.value 0 2 ∧
    ∃ tr s, (Setup.corrupted 2 (-1)).system.Runs tr s ∧ (∀ e, s.snd.pc ≠ .softError e) ∧
      Deadlocked s := by
  refine ⟨by decide, by decide, ?_⟩
  obtain ⟨tr, s, hr, hp, hflag, hc, hempty⟩ := System.exists_runs (Setup.corrupted 2 (-1)).system
    (turns (List.replicate 7 (5, 5)))
    (fun _ s => s.fst.pc = .awaitCheck ∧ s.mem.checkState = 0 ∧ s.snd.pc = .check .spinIndex ∧
      s.mem.content s.mem.deqPtr = alreadyConsumed) (by decide +kernel)
  refine ⟨tr, s, hr, fun e => by simp [hc], ?_, ?_⟩
  · simpa only [Producer.Spinning, hp] using hflag
  · simpa only [Consumer.Spinning, hc] using hempty

end TsxProject
