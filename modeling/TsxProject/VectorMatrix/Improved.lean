import TsxProject.VectorMatrix.Credit
import TsxProject.VectorMatrix.History

/-!
# The mode that never marks slots free

In `RHT_VolatilesImproved` the producer looks at pointers only. Its credit keeps it within a lap of
the consumer, so the slots hold the last lap of what it stored (`Laps`), in every run. The consumer
has no such bound: it compares whatever is in its slot, and once the ring has been filled, that may
be an entry of the lap before.

* `Windowed` — the invariant, for arbitrary values
* `improved_flow_control` — the producer never overwrites an entry that is not compared
-/

namespace TsxProject

open Infra Infra.Ring

variable {S : Setup}

/-! ## What the slots hold -/

namespace Ledger

/-- The slots hold the last lap; those that were never used are as `SimpleSyncQueue_Init` left
them. -/
structure Laps (S : Setup) (L : Ledger S.N) : Prop where
  last : Holds L.content (S.producerCalc.entry S.dims) (L.written - S.N) L.written
  unused : Holds L.content (fun _ => alreadyConsumed) L.written S.N

theorem Laps.init : Laps S (Ledger.init S) where
  last := Holds.empty (Nat.zero_le _)
  unused := fun _ _ _ => rfl

/-- The consumer does not touch the slots, and the producer does not look at them. -/
theorem Laps.step (hwb : ¬ WriteBack S) {L L' : Ledger S.N} {evs : List (Event S.N)}
    (h : Laps S L) (hs : Step S L evs L') : Laps S L' := by
  cases hs with
  | write j hsync hrows hlt hent hj =>
    have hval : S.producerCalc.value L.requested j = S.producerCalc.entry S.dims L.written := by
      rw [hent, Calc.entry_mul_add _ _ _ hj]
    have hN : 0 < S.N := Nat.pos_of_neZero _
    rw [hval]
    have hlast : Holds L.content (S.producerCalc.entry S.dims) (L.written + 1 - S.N) L.written :=
      h.last.mono (by omega) (Nat.le_refl _)
    exact ⟨hlast.push (by omega),
      (h.unused.mono (Nat.le_succ _) (Nat.le_refl _)).frame_before (Nat.lt_succ_self _) (by omega)⟩
  | clear j hwb' => exact absurd hwb' hwb
  | compare | request | produce | move | verify | ack | consume => exact ⟨h.last, h.unused⟩

end Ledger

theorem not_writeBack (hS : S.freq = .rhtVolatilesImproved) : ¬ Ledger.WriteBack S :=
  not_not.mpr hS

/-! ## The invariant -/

structure Windowed (S : Setup) (s : S.State) : Prop where
  inv : Inv S s
  ok : (view S s).Ok S.dims
  laps : (view S s).Laps S
  credit : HasCredit S s
  written_le : s.fst.written S.dims ≤ s.snd.moved S.dims + S.window

theorem Windowed.init (hS : S.Replicated) : Windowed S S.system.init := by
  have hview := view_init hS
  refine ⟨Inv.init hS, ?_, ?_, HasCredit.init hS, ?_⟩
  · rw [hview]
    exact Ledger.Ok.init S
  · rw [hview]
    exact Ledger.Laps.init
  · have hwr : S.system.init.fst.written S.dims = 0 := congrArg Ledger.written hview
    omega

theorem Windowed.step (hS : S.freq = .rhtVolatilesImproved) {i : Side} {s s' : S.State}
    {evs : List (Event S.N)} (h : Windowed S s) (hs : S.system.step i s = some (s', evs)) :
    Windowed S s' := by
  have hrep : S.Replicated := .inr (.inr hS)
  obtain ⟨hinv', hL⟩ := h.inv.step hrep hs
  have hcredit : HasCredit S s' := h.credit.step hrep h.inv h.ok (fun hne => absurd hS hne) hs
  have hle : s'.fst.written S.dims ≤ s'.snd.moved S.dims + S.window := by
    have hle := h.written_le
    obtain ⟨q', p', rfl, rfl, hx⟩ | ⟨q', c', rfl, rfl, hx⟩ := Setup.step_cases hs
    · show (p'.progress S.dims).written ≤ s.snd.moved S.dims + S.window
      cases h.inv.fst.effect (producer_cases hx) with
      | quiet _ _ hprog | request _ _ _ _ hprog | produce _ _ hprog =>
        rw [hprog]
        exact hle
      | write hst _ hprog =>
        rw [hprog]
        exact (h.credit.room h.inv.fst hst).2 (by simp [hS])
    · have hmono := (h.inv.snd.effect (consumer_cases hx)).moved_le.1
      simp only
      omega
  rcases hL with hL | ⟨-, hL⟩
  · exact ⟨hinv', h.ok.step hL, h.laps.step (not_writeBack hS) hL, hcredit, hle⟩
  · exact ⟨hinv', hL ▸ h.ok, hL ▸ h.laps, hcredit, hle⟩

theorem windowed (hS : S.freq = .rhtVolatilesImproved) {ok : Side → S.State → Prop}
    {tr : List (Event S.N)} {s : S.State} (h : S.system.RunsWhere ok tr s) : Windowed S s :=
  h.rule (I := fun _ s => Windowed S s) (Windowed.init (.inr (.inr hS)))
    fun _ hI _ hs => hI.step hS hs

theorem Windowed.window_eq (hS : S.freq = .rhtVolatilesImproved) : S.window = S.N - 1 := if_pos hS

/-- A slot holds an entry of the last lap, or was never used. -/
theorem Windowed.content_cases {s : S.State} (h : Windowed S s) (x : Nat) :
    (∃ y, y < s.fst.written S.dims ∧ s.fst.written S.dims ≤ y + S.N ∧
        (slot y : Fin S.N) = slot x ∧ s.mem.content (slot x) = S.producerCalc.entry S.dims y) ∨
      s.mem.content (slot x) = alreadyConsumed := by
  obtain ⟨y, hlo, hhi, hy⟩ := exists_slot (slot x : Fin S.N) (s.fst.written S.dims - S.N)
  rw [← hy]
  by_cases hlt : y < s.fst.written S.dims
  · exact .inl ⟨y, hlt, by omega, rfl, h.laps.last y hlo hlt⟩
  · exact .inr (h.laps.unused y (Nat.not_lt.mp hlt) (by omega))

/-- What the consumer compares when the entry is stored. -/
theorem Windowed.content_eq {s : S.State} (h : Windowed S s)
    (hlt : s.snd.matched S.dims < s.fst.written S.dims) :
    s.mem.content (slot (s.snd.matched S.dims)) =
      S.producerCalc.entry S.dims (s.snd.matched S.dims) := by
  have hle := h.written_le
  have hwin := S.window_le
  have hmv : s.snd.moved S.dims ≤ s.snd.matched S.dims :=
    Nat.le_trans h.ok.moved_le h.ok.cleared_le
  exact h.laps.last _ (by simp only [view]; omega) hlt

/-! ## Flow control -/

theorem Windowed.room_of_mem (hS : S.freq = .rhtVolatilesImproved) {i : Side} {s s' : S.State}
    {evs : List (Event S.N)} (h : Windowed S s) (hs : S.system.step i s = some (s', evs))
    {k : Fin S.N} {r j : Nat} {v : Int} (hmem : .stored k r j v ∈ evs) :
    s.fst.written S.dims < s.snd.moved S.dims + S.window := by
  obtain ⟨q', p', rfl, rfl, hx⟩ | ⟨q', c', rfl, rfl, hx⟩ := Setup.step_cases hs
  · obtain ⟨hst, -⟩ := (h.inv.fst.effect (producer_cases hx)).stored_mem hmem
    exact (h.credit.room h.inv.fst hst).2 (by simp [hS])
  · exact absurd hmem (h.inv.snd.effect (consumer_cases hx)).stored_not_mem

/-- An entry is stored only after the previous one of its slot has been compared. -/
theorem compared_before_stored (hS : S.freq = .rhtVolatilesImproved) {tr : List (Event S.N)}
    {s : S.State} (h : S.system.Runs tr s) :
    Preceded (fun pre e => ∀ k i j v, e = .stored k i j v → ∀ i' j', j' < S.dims.cols →
      i' * S.dims.cols + j' + S.N = i * S.dims.cols + j → ∃ v', .compared k i' j' v' ∈ pre) tr := by
  have hrep : S.Replicated := .inr (.inr hS)
  refine preceded hrep ?_ h
  intro side tr s s' evs hr _ hs hstep e he k i j v heq i' j' hj' hlap
  subst heq
  have hwin := windowed hS hr
  have hroom := hwin.room_of_mem hS hs he
  have hmv := Nat.le_trans hwin.ok.moved_le hwin.ok.cleared_le
  have hle := S.window_le
  obtain ⟨hent, hk⟩ := hstep.stored_mem he
  refine ⟨_, (Ledger.mem_iff (refines hrep hr).2 _).mpr ⟨hj', ?_, ?_, rfl⟩⟩
  · simp only [view] at hent hmv ⊢
    omega
  · rw [hk, hent, ← hlap, slot_add_size]

/-- The columns of a row are stored once each and in order, all of them when it is handed over. -/
theorem Windowed.columns (hS : S.freq = .rhtVolatilesImproved) {tr : List (Event S.N)} {s : S.State}
    (h : S.system.Runs tr s) (i : Nat) : ∃ n, n ≤ S.dims.cols ∧ storedColumns i tr = List.range n ∧
      (i < s.fst.requested → n = S.dims.cols) := by
  have hL := (refines (.inr (.inr hS)) h).2
  refine ⟨_, Nat.min_le_left _ _, Ledger.storedColumns_eq hL i, ?_⟩
  intro hi
  have hwr := (windowed hS h).ok.requested_mul_le
  have hmul : (i + 1) * S.dims.cols ≤ s.fst.requested * S.dims.cols :=
    Nat.mul_le_mul_right _ hi
  simp only [view] at hwr ⊢
  rw [Nat.succ_mul] at hmul
  omega

/--
**The flow control never overwrites an entry that is not compared**, for arbitrary values.

* at any time at most `N - 1` more entries are stored than compared;
* an entry is stored only after the one a lap before it has been compared;
* in each row the columns are stored once each and in order, all of them when the row is handed
  over, and so all of them in every row when the producer is through;
* no column beyond the last is multiplied.
-/
theorem improved_flow_control (hS : S.freq = .rhtVolatilesImproved) {tr : List (Event S.N)}
    {s : S.State} (h : S.system.Runs tr s) :
    entriesStored tr ≤ entriesCompared tr + (S.N - 1) ∧
    Preceded (fun pre e => ∀ k i j v, e = .stored k i j v → ∀ i' j', j' < S.dims.cols →
      i' * S.dims.cols + j' + S.N = i * S.dims.cols + j → ∃ v', .compared k i' j' v' ∈ pre) tr ∧
    (∀ i, ∃ n, n ≤ S.dims.cols ∧ storedColumns i tr = List.range n ∧
      (i < s.fst.requested → n = S.dims.cols)) ∧
    (s.fst.pc = .done → ∀ i, i < S.dims.rows → storedColumns i tr = List.range S.dims.cols) ∧
    (∀ l, s.fst.pc = .multiply l → s.fst.i < S.dims.rows ∧ s.fst.j < S.dims.cols) := by
  have hwin := windowed hS h
  have hL := (refines (.inr (.inr hS)) h).2
  refine ⟨?_, compared_before_stored hS h, Windowed.columns hS h, ?_, ?_⟩
  · obtain ⟨hst, hco⟩ := Ledger.entries_eq hL
    have hmv : s.snd.moved S.dims ≤ s.snd.matched S.dims :=
      Nat.le_trans hwin.ok.moved_le hwin.ok.cleared_le
    have hle := hwin.written_le
    rw [Windowed.window_eq hS] at hle
    rw [hst, hco]
    simp only [view]
    omega
  · intro hdone i hi
    obtain ⟨n, -, hcols, hall⟩ := Windowed.columns hS h i
    have hrows := hwin.inv.fst.2
    simp only [hdone] at hrows
    have hrequested : i < s.fst.requested := by
      simp only [Producer.requested, hdone]
      omega
    rw [hcols, hall hrequested]
  · intro l hpc
    have hok := hwin.inv.fst.2
    simp only [hpc] at hok
    exact ⟨hok.1, hok.2.1⟩

theorem improved_flow_control_small :
    ∃ tr s, (Setup.small 2 .rhtVolatilesImproved).system.Runs tr s ∧ s.fst.pc = .done ∧
      entriesStored tr ≤ entriesCompared tr + 1 ∧
      storedColumns 0 tr = [0, 1, 2] ∧ storedColumns 1 tr = [0, 1, 2] := by
  obtain ⟨tr, s, hr, hp⟩ := System.exists_runs (Setup.small 2 .rhtVolatilesImproved).system
    (turns (List.replicate 24 (5, 2) ++ [(4, 1)])) (fun _ s => s.fst.pc = .done) (by decide +kernel)
  obtain ⟨hle, -, -, hcols, -⟩ := improved_flow_control rfl hr
  exact ⟨tr, s, hr, hp, hle, hcols hp 0 (by decide), hcols hp 1 (by decide)⟩

end TsxProject
