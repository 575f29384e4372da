import TsxProject.VectorMatrix.Alarm
import TsxProject.VectorMatrix.Lockstep

/-!
# Leftovers

A consumer that has compared all that is stored, in a ring that has been filled before, finds in its
slot an entry of an earlier lap. When this leftover differs from the value it expects, it reports an
error that never happened; when the two happen to be equal, it takes the leftover for the entry and
is ahead of the producer.

* `LeftoversMatch`, `LeftoversDiffer` — what a state must satisfy for the consumer's step to be
  right
* `LapsDiffer` — what the values must satisfy for all runs to be right
* `false_alarm_only_by_leftover` — a report in a run without faults
* `missed_error_only_by_leftover` — what a comparison has read
-/

namespace TsxProject

open Infra Infra.Ring

variable {S : Setup}

/-! ## Leftovers -/

/-- The consumer is about to compare an entry that is not stored yet, and its slot still holds
entry `y`, from a lap before. -/
def Leftover (S : Setup) (s : S.State) (y : Nat) : Prop :=
  (∃ k, s.snd.Compares k) ∧ s.fst.written S.dims ≤ s.snd.matched S.dims ∧
    s.fst.written S.dims ≤ y + S.N ∧ (slot y : Fin S.N) = slot (s.snd.matched S.dims)

instance (s : S.State) (y : Nat) : Decidable (Leftover S s y) :=
  inferInstanceAs (Decidable (_ ∧ _))

theorem Leftover.content_eq {s : S.State} (h : Windowed S s) {y : Nat} (hl : Leftover S s y)
    (hy : y < s.fst.written S.dims) :
    s.mem.content (slot (s.snd.matched S.dims)) = S.producerCalc.entry S.dims y := by
  rw [← hl.2.2.2]
  exact h.laps.last y (by have := hl.2.2.1; simp only [view]; omega) hy

/-! ## False alarms -/

/-- A leftover the consumer compares has the value it expects. -/
def LeftoversMatch (S : Setup) (i : Side) (s : S.State) : Prop :=
  i = .snd → ∀ y, y < s.fst.written S.dims → Leftover S s y →
    S.producerCalc.entry S.dims y = S.consumerCalc.entry S.dims (s.snd.matched S.dims)

instance (i : Side) (s : S.State) : Decidable (LeftoversMatch S i s) :=
  inferInstanceAs (Decidable (_ → _))

/-- A comparison of a leftover that does not have the expected value is reported. -/
theorem softError_of_mismatch (hS : S.freq = .rhtVolatilesImproved) {w : Workload S.dims}
    (hw : S.FaultFree w) {tr evs : List (Event S.N)} {i : Side} {s s' : S.State}
    (hr : S.system.Runs tr s) (hs : S.system.step i s = some (s', evs))
    (hbad : ¬ LeftoversMatch S i s) : ∃ e, s'.snd.pc = .softError e := by
  have hwin := windowed hS hr
  simp only [LeftoversMatch, not_forall] at hbad
  obtain ⟨rfl, y, hy, hl, hne⟩ := hbad
  obtain ⟨k, hk⟩ := hl.1
  have hat := hwin.inv.snd.compares hk
  have hcon := hl.content_eq hwin hy
  obtain ⟨q', p', hi, -, -⟩ | ⟨q', c', -, rfl, hx⟩ := Setup.step_cases hs
  · cases hi
  · rw [← hat.slot_eq] at hcon
    rcases (consumer_cases hx).of_compares hk with ⟨heq, -⟩ | ⟨-, hreport⟩
    · rw [hcon, hat.entry_eq] at heq
      exact absurd heq.symm hne
    · refine hreport ?_
      rw [hcon]
      exact hw.entry_ne (Nat.lt_of_lt_of_le hy hwin.ok.written_le_all)

/-- The consumer, once it has compared the first lap, finds the first value of the row where it
expects a larger one. -/
theorem exists_mismatch (hS : S.freq = .rhtVolatilesImproved) {w : Workload S.dims}
    (hw : S.FaultFree w) (hrows : 0 < S.dims.rows) :
    ∃ s, S.system.Reachable s ∧ ¬ LeftoversMatch S .snd s ∧ (S.system.step .snd s).isSome := by
  have hN : 0 < S.N := Nat.pos_of_neZero _
  have hsize : S.N < S.dims.cols := S.dims.size_lt
  have hall : S.dims.cols ≤ S.dims.rows * S.dims.cols := Nat.le_mul_of_pos_left _ hrows
  obtain ⟨s, hr, hk, hwr, hmt, hs⟩ :=
    compares_unstored hS (x := S.N) (by omega) fun y _ => by rw [hw.1, hw.2]
  refine ⟨s, hr, ?_, hs⟩
  intro hmatch
  have hslot : (slot 0 : Fin S.N) = slot S.N := by rw [← slot_add_size 0, Nat.zero_add]
  have heq := hmatch rfl 0 (by omega) ⟨hk, by omega, by omega, hslot.trans (congrArg slot hmt.symm)⟩
  have hlt := w.entry_lt_entry hrows (x := 0) (y := S.N) (by omega) hN (by omega)
  rw [hw.1, hw.2, hmt] at heq
  omega

/--
**A false alarm comes from a leftover.** Without faults

* the consumer reports no error as long as every leftover that it compares has the value it expects;
* it reports one when it compares a leftover that has not;
* so there is always a run with a false alarm, unless there are no rows.
-/
theorem false_alarm_only_by_leftover (hS : S.freq = .rhtVolatilesImproved) (w : Workload S.dims)
    (hw : S.FaultFree w) :
    (∀ tr s, S.system.RunsWhere (LeftoversMatch S) tr s → ∀ e, s.snd.pc ≠ .softError e) ∧
    (∀ tr i s s' evs, S.system.Runs tr s → S.system.step i s = some (s', evs) →
      ¬ LeftoversMatch S i s → ∃ e, s'.snd.pc = .softError e) ∧
    ((∀ tr s, S.system.Runs tr s → ∀ e, s.snd.pc ≠ .softError e) ↔ S.dims.rows = 0) := by
  have hrep : S.Replicated := .inr (.inr hS)
  have hval : ∀ i j, i < S.dims.rows → j < S.dims.cols →
      S.producerCalc.value i j ≠ alreadyConsumed :=
    fun i j hi hj => (hw.value_ne i j hi hj).1
  have hfin : ∀ i, i < S.dims.rows →
      S.consumerCalc.final S.dims i = S.producerCalc.final S.dims i := by
    intro i _
    rw [hw.1, hw.2]
  have hreport : ∀ tr i s s' evs, S.system.Runs tr s → S.system.step i s = some (s', evs) →
      ¬ LeftoversMatch S i s → ∃ e, s'.snd.pc = .softError e :=
    fun _ _ _ _ _ hr hs hbad => softError_of_mismatch hS hw hr hs hbad
  refine ⟨?_, hreport, ?_, ?_⟩
  · intro tr s h
    refine no_softError hrep hval hfin (fun {tr s} hr hok k hk => ?_) h
    have hwin := windowed hS hr
    have hat := hwin.inv.snd.compares hk
    rw [hat.slot_eq, hat.entry_eq]
    by_cases hlt : s.snd.matched S.dims < s.fst.written S.dims
    · right
      rw [hwin.content_eq hlt, hw.1, hw.2]
    · rcases hwin.content_cases (s.snd.matched S.dims) with ⟨y, hy, hlap, hslot, hcon⟩ | hfree
      · right
        rw [hcon]
        exact hok rfl y hy ⟨⟨k, hk⟩, Nat.not_lt.mp hlt, hlap, hslot⟩
      · exact .inl hfree
  · intro hno
    by_contra hne
    obtain ⟨s, ⟨tr, hr⟩, hbad, hsome⟩ := exists_mismatch hS hw (Nat.pos_of_ne_zero hne)
    obtain ⟨⟨s', evs⟩, hs⟩ := Option.isSome_iff_exists.mp hsome
    obtain ⟨e, he⟩ := hreport tr .snd s s' evs hr hs hbad
    exact hno _ s' (hr.step trivial hs) e he
  · intro hzero tr s h
    refine no_softError hrep hval hfin (fun {tr s} hr _ k hk => ?_) h
    have hlt := ((windowed hS hr).inv.snd.compares hk).row_lt
    omega

theorem false_alarm_only_by_leftover_small :
    ∃ tr s, (Setup.small 1 .rhtVolatilesImproved).system.RunsWhere (LeftoversMatch _) tr s ∧
      s.fst.pc = .done ∧ s.snd.pc = .done ∧ ∀ e, s.snd.pc ≠ .softError e := by
  obtain ⟨tr, s, hr, hp, hc⟩ := System.exists_runsWhere
    (Setup.small 1 .rhtVolatilesImproved).system (LeftoversMatch _)
    (turns (List.replicate 12 (5, 2) ++ [(4, 1)])) (fun _ s => s.fst.pc = .done ∧ s.snd.pc = .done)
    (by decide +kernel)
  exact ⟨tr, s, hr, hp, hc,
    (false_alarm_only_by_leftover rfl (Workload.ones (Dims.small 1)) ⟨rfl, rfl⟩).1 tr s hr⟩

/-- The threads take turns, one step each. The consumer has compared two entries when the producer
has stored two, and finds the first one in the slot of the third. -/
theorem false_alarm :
    (Setup.small 1 .rhtVolatilesImproved).FaultFree (Workload.ones (Dims.small 1)) ∧
    ∃ tr s, (Setup.small 1 .rhtVolatilesImproved).system.Runs tr s ∧
      s.snd.pc = .softError (.detected 3 1) :=
  ⟨⟨rfl, rfl⟩, System.exists_runs (Setup.small 1 .rhtVolatilesImproved).system
    (turns (List.replicate 25 (1, 1))) (fun _ s => s.snd.pc = .softError (.detected 3 1))
    (by decide +kernel)⟩

/-! ## Missed errors -/

/-- A leftover the consumer compares does not have the value it expects. -/
def LeftoversDiffer (S : Setup) (i : Side) (s : S.State) : Prop :=
  i = .snd → ∀ y, y < s.fst.written S.dims → Leftover S s y →
    S.producerCalc.entry S.dims y ≠ S.consumerCalc.entry S.dims (s.snd.matched S.dims)

instance (i : Side) (s : S.State) : Decidable (LeftoversDiffer S i s) :=
  inferInstanceAs (Decidable (_ → _))

/-- A comparison reads the entry itself: it is the last one stored in this slot. -/
def ReadsItself (S : Setup) (pre : List (Event S.N)) (e : Event S.N) : Prop :=
  ∀ k i j v, e = .compared k i j v →
    v = S.producerCalc.value i j ∧ lastStored k pre = some (i, j, v)

/-- A comparison that succeeds without a leftover is one of a stored entry. -/
theorem Windowed.stored_of_match (h : Windowed S s)
    (hc : ∀ i j, i < S.dims.rows → j < S.dims.cols → S.consumerCalc.value i j ≠ alreadyConsumed)
    (hok : LeftoversDiffer S .snd s) {k : Fin S.N} (hk : s.snd.Compares k)
    (hcon : s.mem.content k = s.snd.thisValue) :
    s.snd.matched S.dims < s.fst.written S.dims := by
  have hat := h.inv.snd.compares hk
  rw [hat.slot_eq] at hcon
  by_contra hge
  rcases h.content_cases (s.snd.matched S.dims) with ⟨y, hy, hlap, hslot, hval⟩ | hfree
  · refine hok rfl y hy ⟨⟨k, hk⟩, Nat.not_lt.mp hge, hlap, hslot⟩ ?_
    rw [← hval, hcon, hat.entry_eq]
  · refine hc _ _ hat.row_lt hat.col_lt ?_
    rw [← hat.value_eq, ← hcon, hfree]

theorem reads_itself (hS : S.freq = .rhtVolatilesImproved)
    (hc : ∀ i j, i < S.dims.rows → j < S.dims.cols → S.consumerCalc.value i j ≠ alreadyConsumed)
    {tr : List (Event S.N)} (h : S.system.RunsWhere (LeftoversDiffer S) tr s) :
    Preceded (ReadsItself S) tr := by
  have hrep : S.Replicated := .inr (.inr hS)
  refine preceded hrep ?_ h
  intro side tr s s' evs hr hok hs _ e he k i j v heq
  subst heq
  have hwin := windowed hS hr
  obtain ⟨q', p', rfl, rfl, hx⟩ | ⟨q', c', rfl, rfl, hx⟩ := Setup.step_cases hs
  · exact absurd he (hwin.inv.fst.effect (producer_cases hx)).compared_not_mem
  obtain ⟨hk, rfl, rfl, rfl, hcon⟩ := (hwin.inv.snd.effect (consumer_cases hx)).compared_mem he
  have hat := hwin.inv.snd.compares hk
  have hlt := hwin.stored_of_match hc hok hk hcon
  have hval := hwin.content_eq hlt
  rw [← hat.slot_eq, hcon, hat.matched_eq, Calc.entry_mul_add _ _ _ hat.col_lt] at hval
  refine ⟨hval, ?_⟩
  -- no later entry has been stored in this slot
  have hle := hwin.written_le
  have hwd := S.window_le
  have hmv := hat.moved_eq
  rw [hat.slot_eq, hval, hat.matched_eq]
  refine Ledger.lastStored_eq (refines hrep hr).2 hat.col_lt ?_ ?_ <;> rw [← hat.matched_eq] <;>
    simp only [view] <;> omega

/-- As long as no leftover is taken for an entry, what is compared is stored and agrees. -/
structure Agreed (S : Setup) (s : S.State) : Prop where
  matched_le : s.snd.matched S.dims ≤ s.fst.written S.dims
  entry_eq : ∀ x, x < s.snd.matched S.dims →
    S.producerCalc.entry S.dims x = S.consumerCalc.entry S.dims x

theorem Agreed.step
    (hc : ∀ i j, i < S.dims.rows → j < S.dims.cols → S.consumerCalc.value i j ≠ alreadyConsumed)
    {i : Side} {s s' : S.State} {evs : List (Event S.N)} (hwin : Windowed S s) (h : Agreed S s)
    (hok : LeftoversDiffer S i s) (hs : S.system.step i s = some (s', evs)) : Agreed S s' := by
  obtain ⟨q', p', rfl, rfl, hx⟩ | ⟨q', c', rfl, rfl, hx⟩ := Setup.step_cases hs
  · have hle := (hwin.inv.fst.effect (producer_cases hx)).written_le
    exact ⟨Nat.le_trans h.matched_le hle, h.entry_eq⟩
  · have heff := hwin.inv.snd.effect (consumer_cases hx)
    rcases heff.matched_cases with hsame | ⟨hnext, k, hk, hat, hcon⟩
    · refine ⟨by rw [hsame]; exact h.matched_le, ?_⟩
      intro x hx
      rw [hsame] at hx
      exact h.entry_eq x hx
    · have hlt := hwin.stored_of_match hc hok hk hcon.symm
      have hval := hwin.content_eq hlt
      rw [← hat.slot_eq, ← hcon, hat.entry_eq] at hval
      refine ⟨by rw [hnext]; exact hlt, ?_⟩
      intro x hx
      rw [hnext] at hx
      rcases Nat.lt_succ_iff_lt_or_eq.mp hx with hold | rfl
      · exact h.entry_eq x hold
      · exact hval.symm

theorem agreed (hS : S.freq = .rhtVolatilesImproved)
    (hc : ∀ i j, i < S.dims.rows → j < S.dims.cols → S.consumerCalc.value i j ≠ alreadyConsumed)
    {tr : List (Event S.N)} (h : S.system.RunsWhere (LeftoversDiffer S) tr s) : Agreed S s := by
  refine h.rule (I := fun _ s => Agreed S s) ?_ ?_
  · have hview := view_init (S := S) (.inr (.inr hS))
    have hmt : S.system.init.snd.matched S.dims = 0 := congrArg Ledger.matched hview
    exact ⟨hmt ▸ Nat.zero_le _, fun x hx => absurd hx (by omega)⟩
  · intro i tr s s' evs hr hI hok hs
    exact hI.step hc (windowed hS hr) hok hs

/-- The values of the two threads where leftovers can do no harm: as long as all earlier entries
agree, an entry differs from the value that is expected a lap later. -/
def LapsDiffer (S : Setup) : Prop :=
  ∀ x, x + S.N < S.dims.rows * S.dims.cols →
    (∀ y, y < x + S.N → S.producerCalc.entry S.dims y = S.consumerCalc.entry S.dims y) →
      S.producerCalc.entry S.dims x ≠ S.consumerCalc.entry S.dims (x + S.N)

/-- Then no leftover ever has the value the consumer expects: the first one that does is a lap old,
and the two threads agree up to there. -/
theorem LapsDiffer.runsWhere (hS : S.freq = .rhtVolatilesImproved)
    (hc : ∀ i j, i < S.dims.rows → j < S.dims.cols → S.consumerCalc.value i j ≠ alreadyConsumed)
    (hd : LapsDiffer S) {tr : List (Event S.N)} (h : S.system.Runs tr s) :
    S.system.RunsWhere (LeftoversDiffer S) tr s := by
  induction h with
  | init => exact .init
  | @step i tr evs s s' _ _ hs ih =>
    refine ih.step ?_ hs
    rintro rfl y hy ⟨⟨k, hk⟩, hle, hlap, hslot⟩
    have hat := (windowed hS ih).inv.snd.compares hk
    have hagreed := agreed hS hc ih
    have hlast := add_size_le hslot (by omega)
    obtain hx : s.snd.matched S.dims = y + S.N := by
      have := hagreed.matched_le
      omega
    rw [hx]
    refine hd y ?_ fun z hz => hagreed.entry_eq z (by omega)
    have hrow : (s.snd.i + 1) * S.dims.cols ≤ S.dims.rows * S.dims.cols :=
      Nat.mul_le_mul_right _ hat.row_lt
    have hent := hat.matched_eq
    have hcol := hat.col_lt
    rw [Nat.succ_mul] at hrow
    omega

/-- Where an entry has the value that is expected a lap later, a run takes it for that. -/
theorem exists_match (hS : S.freq = .rhtVolatilesImproved) (hd : ¬ LapsDiffer S) :
    ∃ s, S.system.Reachable s ∧ ¬ LeftoversDiffer S .snd s ∧ (S.system.step .snd s).isSome := by
  simp only [LapsDiffer, not_forall, not_not] at hd
  obtain ⟨x, hx, hagree, heq⟩ := hd
  obtain ⟨s, hr, hk, hwr, hmt, hs⟩ := compares_unstored hS hx hagree
  have hN : 0 < S.N := Nat.pos_of_neZero _
  refine ⟨s, hr, ?_, hs⟩
  intro hdiff
  refine hdiff rfl x (by omega) ⟨hk, by omega, by omega, ?_⟩ (by rw [hmt, heq])
  rw [hmt, slot_add_size]

/-- A leftover with the expected value is accepted. -/
theorem compared_of_match (hS : S.freq = .rhtVolatilesImproved) {tr evs : List (Event S.N)}
    {i : Side} {s' : S.State} (hr : S.system.Runs tr s)
    (hs : S.system.step i s = some (s', evs)) (hbad : ¬ LeftoversDiffer S i s) :
    ∃ k i j v, evs = [.compared k i j v] ∧ ∀ k' v', .stored k' i j v' ∉ tr := by
  have hwin := windowed hS hr
  simp only [LeftoversDiffer, not_forall, not_not] at hbad
  obtain ⟨rfl, y, hy, hl, heq⟩ := hbad
  obtain ⟨k, hk⟩ := hl.1
  have hat := hwin.inv.snd.compares hk
  obtain ⟨q', p', hi, -, -⟩ | ⟨q', c', -, rfl, hx⟩ := Setup.step_cases hs
  · cases hi
  · have hcon := hl.content_eq hwin hy
    rw [← hat.slot_eq, heq, ← hat.entry_eq] at hcon
    rcases (consumer_cases hx).of_compares hk with ⟨-, hevs⟩ | ⟨hne, -⟩
    · refine ⟨k, s.snd.i, s.snd.j, s.mem.content k, hevs, ?_⟩
      intro k' v' hmem
      have hlt := ((Ledger.mem_iff (refines (.inr (.inr hS)) hr).2 _).mp hmem).2.1
      have hle := hl.2.1
      rw [hat.matched_eq] at hle
      simp only [view] at hlt
      omega
    · exact absurd hcon.symm hne

/--
**A missed error comes from a leftover.** Whatever the two threads compute,

* as long as no leftover that the consumer compares has the value it expects, every successful
  comparison reads the entry itself, and a row that is compared to its end agrees in every column;
* a leftover that has the expected value is accepted, before the entry is stored;
* all runs read the entries themselves, exactly if the values differ from one lap to the next.
-/
theorem missed_error_only_by_leftover (hS : S.freq = .rhtVolatilesImproved)
    (hc : ∀ i j, i < S.dims.rows → j < S.dims.cols →
      S.consumerCalc.value i j ≠ alreadyConsumed) :
    (∀ tr s, S.system.RunsWhere (LeftoversDiffer S) tr s → Preceded (ReadsItself S) tr ∧
      ∀ i, ComparedRow S tr i →
        ∀ j, j < S.dims.cols → S.producerCalc.value i j = S.consumerCalc.value i j) ∧
    (∀ tr i s s' evs, S.system.Runs tr s → S.system.step i s = some (s', evs) →
      ¬ LeftoversDiffer S i s →
        ∃ k i j v, evs = [.compared k i j v] ∧ ∀ k' v', .stored k' i j v' ∉ tr) ∧
    ((∀ tr s, S.system.Runs tr s → Preceded (ReadsItself S) tr ∧
      ∀ i, ComparedRow S tr i →
        ∀ j, j < S.dims.cols → S.producerCalc.value i j = S.consumerCalc.value i j) ↔
      LapsDiffer S) := by
  have hreads : ∀ tr s, S.system.RunsWhere (LeftoversDiffer S) tr s →
      Preceded (ReadsItself S) tr ∧ ∀ i, ComparedRow S tr i →
        ∀ j, j < S.dims.cols → S.producerCalc.value i j = S.consumerCalc.value i j := by
    intro tr s h
    refine ⟨reads_itself hS hc h, ?_⟩
    intro i hrow j hj
    have hmt := (comparedRow_iff (refines (.inr (.inr hS)) h).2 i).mp hrow
    have heq := (agreed hS hc h).entry_eq (i * S.dims.cols + j) (by
      rw [Nat.succ_mul] at hmt
      simp only [view] at hmt
      omega)
    rwa [Calc.entry_mul_add _ _ _ hj, Calc.entry_mul_add _ _ _ hj] at heq
  refine ⟨hreads, fun _ _ _ _ _ hr hs hbad => compared_of_match hS hr hs hbad, ?_, ?_⟩
  · intro hall
    by_contra hd
    obtain ⟨s, ⟨tr, hr⟩, hbad, hsome⟩ := exists_match hS hd
    obtain ⟨⟨s', evs⟩, hs⟩ := Option.isSome_iff_exists.mp hsome
    obtain ⟨k, i, j, v, rfl, hno⟩ := compared_of_match hS hr hs hbad
    have hread := (hall _ s' (hr.step trivial hs)).1 tr _ [] rfl k i j v rfl
    exact hno k v (mem_of_lastStored hread.2)
  · intro hd tr s h
    exact hreads tr s (hd.runsWhere hS hc h)

theorem missed_error_only_by_leftover_small :
    ∃ tr s, (Setup.small 1 .rhtVolatilesImproved).system.RunsWhere (LeftoversDiffer _) tr s ∧
      s.snd.pc = .done ∧ Preceded (ReadsItself _) tr := by
  obtain ⟨tr, s, hr, hc⟩ := System.exists_runsWhere
    (Setup.small 1 .rhtVolatilesImproved).system (LeftoversDiffer _)
    (turns (List.replicate 12 (5, 2) ++ [(4, 1)])) (fun _ s => s.snd.pc = .done)
    (by decide +kernel)
  refine ⟨tr, s, hr, hc, ((missed_error_only_by_leftover rfl (fun i j hi hj => ?_)).1 tr s hr).1⟩
  have := (Workload.ones (Dims.small 1)).value_pos hi hj
  simp only [Setup.small, Setup.ofWorkload, alreadyConsumed]
  omega

/-- Two rows with the prefix sums 1, 2, 3 and 2, 3, 4. -/
def shifted : Workload (Dims.small 2) where
  vector _ := 1
  matrix i j := if i = 1 ∧ j = 0 then 2 else 1
  vector_pos _ _ := by decide
  vector_le _ _ := by decide
  matrix_pos _ _ _ _ := by split <;> decide
  matrix_le _ _ _ _ := by split <;> decide

/-- The producer's first value of the second row is 4. -/
def shiftedFault : Setup :=
  { Setup.ofWorkload shifted .rhtVolatilesImproved with
    producerCalc := shifted.faultFree.corrupt 1 0 4 }

/-- The consumer takes 2 and 3 of the first row for the first values of the second, and the
corrupted 4 for its last. -/
theorem missed_error :
    (∀ i, i < 2 → ∀ j, j < 3 → shiftedFault.producerCalc.value i j ≠ alreadyConsumed ∧
      shiftedFault.consumerCalc.value i j ≠ alreadyConsumed) ∧
    ∃ tr s, shiftedFault.system.Runs tr s ∧ ComparedRow shiftedFault tr 1 ∧
      ¬ Preceded (ReadsItself shiftedFault) tr ∧
      shiftedFault.producerCalc.value 1 0 ≠ shiftedFault.consumerCalc.value 1 0 := by
  have hne : shiftedFault.producerCalc.value 1 0 ≠ shiftedFault.consumerCalc.value 1 0 := by decide
  refine ⟨by decide, ?_⟩
  obtain ⟨tr, s, hr, hm⟩ := System.exists_runs shiftedFault.system
    (turns (List.replicate 11 (5, 2) ++ [(5, 12), (8, 40)]))
    (fun _ s => 6 ≤ s.snd.matched shiftedFault.dims) (by decide +kernel)
  have hL := (refines (.inr (.inr rfl)) hr).2
  have hrow : ComparedRow shiftedFault tr 1 := (comparedRow_iff hL 1).mpr hm
  refine ⟨tr, s, hr, hrow, fun hreads => hne ?_, hne⟩
  obtain ⟨k, v, hmem⟩ := hrow 0 (by decide)
  obtain ⟨-, -, -, hv⟩ := (Ledger.mem_iff hL _).mp hmem
  obtain ⟨pre, post, htr⟩ := List.append_of_mem hmem
  exact (hreads pre _ post htr k 1 0 v rfl).1.symm.trans hv

end TsxProject
