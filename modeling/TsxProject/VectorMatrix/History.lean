import TsxProject.VectorMatrix.Ledger

/-!
# What the trace records

The counters of the ledger and the trace of the run that led to it say the same: an event is in
the trace exactly when the counter of its kind has passed it (`mem_iff`). Statements about the
order of events are thereby statements about counters.
-/

namespace TsxProject

open Infra Infra.Ring

/-- Row and column are determined by the entry. -/
theorem entry_inj {C i j i' j' : Nat} (h : i * C + j = i' * C + j') (hj : j < C) (hj' : j' < C) :
    i = i' ∧ j = j' := by
  have hC : 0 < C := by omega
  have hdiv := congrArg (· / C) h
  simp only [Nat.add_comm (_ * C), Nat.add_mul_div_right _ _ hC, Nat.div_eq_of_lt hj,
    Nat.div_eq_of_lt hj', Nat.zero_add] at hdiv
  subst hdiv
  exact ⟨rfl, by omega⟩

/-- What is said of the entries before `n + 1` is said of those before `n` and of entry `n`, which
is column `c` of row `r`. -/
theorem entry_lt_succ_iff {N C n r c i j : Nat} [NeZero N] (hn : n = r * C + c) (hc : c < C)
    (k : Fin N) (P : Nat → Nat → Prop) :
    (j < C ∧ i * C + j < n + 1 ∧ k = slot (i * C + j) ∧ P i j) ↔
      (j < C ∧ i * C + j < n ∧ k = slot (i * C + j) ∧ P i j) ∨
        k = slot n ∧ i = r ∧ j = c ∧ P r c := by
  constructor
  · rintro ⟨hj, hx, hk, hP⟩
    rcases Nat.lt_succ_iff_lt_or_eq.mp hx with hlt | heq
    · exact .inl ⟨hj, hlt, hk, hP⟩
    · obtain ⟨rfl, rfl⟩ := entry_inj (heq.trans hn) hj hc
      exact .inr ⟨by rw [hk, heq], rfl, rfl, hP⟩
  · rintro (⟨hj, hx, hk, hP⟩ | ⟨rfl, rfl, rfl, hP⟩)
    · exact ⟨hj, Nat.lt_succ_of_lt hx, hk, hP⟩
    · exact ⟨hc, by omega, by rw [hn], hP⟩

/-- The same for rows. -/
theorem row_lt_succ_iff {n i : Nat} (P : Nat → Prop) :
    (i < n + 1 ∧ P i) ↔ (i < n ∧ P i) ∨ i = n ∧ P n := by
  constructor
  · rintro ⟨hi, hP⟩
    rcases Nat.lt_succ_iff_lt_or_eq.mp hi with hlt | rfl
    · exact .inl ⟨hlt, hP⟩
    · exact .inr ⟨rfl, hP⟩
  · rintro (⟨hi, hP⟩ | ⟨rfl, hP⟩)
    · exact ⟨Nat.lt_succ_of_lt hi, hP⟩
    · exact ⟨Nat.lt_succ_self i, hP⟩

namespace Ledger

variable {S : Setup}

/-- The counters have passed the event. -/
def Recorded (S : Setup) (L : Ledger S.N) : Event S.N → Prop
  | .stored k i j v =>
    j < S.dims.cols ∧ i * S.dims.cols + j < L.written ∧ k = slot (i * S.dims.cols + j) ∧
      v = S.producerCalc.value i j
  | .compared k i j v =>
    j < S.dims.cols ∧ i * S.dims.cols + j < L.matched ∧ k = slot (i * S.dims.cols + j) ∧
      v = S.consumerCalc.value i j
  | .cleared k i j =>
    WriteBack S ∧ j < S.dims.cols ∧ i * S.dims.cols + j < L.cleared ∧
      k = slot (i * S.dims.cols + j)
  | .verified i own read =>
    i < L.verified ∧ own = S.consumerCalc.final S.dims i ∧
      read = S.producerCalc.final S.dims i ∧ own = read
  | .producerResult i v => i < L.producerRows ∧ v = S.producerCalc.final S.dims i
  | .consumerResult i v => i < L.consumerRows ∧ v = S.consumerCalc.final S.dims i

theorem Recorded.step {L L' : Ledger S.N} {evs : List (Event S.N)} (hs : Step S L evs L')
    (e : Event S.N) : L'.Recorded S e ↔ L.Recorded S e ∨ e ∈ evs := by
  cases hs with
  | write j hsync hrows hlt hent hj =>
    cases e with
    | stored k i' j' v =>
      simp only [Recorded, List.mem_singleton, Event.stored.injEq]
      exact entry_lt_succ_iff hent hj k fun i j => v = S.producerCalc.value i j
    | _ => simp [Recorded]
  | compare j hver hrows hmv hlt hent hj hcon =>
    cases e with
    | compared k i' j' v =>
      simp only [Recorded, List.mem_singleton, Event.compared.injEq]
      exact entry_lt_succ_iff hent hj k fun i j => v = S.consumerCalc.value i j
    | cleared k i' j' =>
      -- the counter moves only in the mode that never clears
      simp only [Recorded, List.mem_singleton, reduceCtorEq, or_false]
      exact and_congr_right fun hwb => by rw [if_pos hwb]
    | _ => simp [Recorded]
  | clear j hwb hcl hmv hent hj =>
    cases e with
    | cleared k i' j' =>
      simp only [Recorded, List.mem_singleton, Event.cleared.injEq, hwb, true_and]
      simpa using entry_lt_succ_iff hent hj k fun _ _ => True
    | _ => simp [Recorded]
  | verify hreq hver hrows hmv hmt hval =>
    cases e with
    | verified i own read =>
      simp only [Recorded, List.mem_singleton, Event.verified.injEq, hver]
      rw [row_lt_succ_iff fun i => own = S.consumerCalc.final S.dims i ∧
        read = S.producerCalc.final S.dims i ∧ own = read]
      refine or_congr_right (and_congr_right fun _ => and_congr_right fun ho => ?_)
      exact and_iff_left_of_imp fun hr => by rw [ho, hr, hval]
    | _ => simp [Recorded]
  | produce hsync hrows =>
    cases e with
    | producerResult i v =>
      simp only [Recorded, List.mem_singleton, Event.producerResult.injEq]
      exact row_lt_succ_iff fun i => v = S.producerCalc.final S.dims i
    | _ => simp [Recorded]
  | consume hrows hver =>
    cases e with
    | consumerResult i v =>
      simp only [Recorded, List.mem_singleton, Event.consumerResult.injEq]
      exact row_lt_succ_iff fun i => v = S.consumerCalc.final S.dims i
    | _ => simp [Recorded]
  | request | move | ack => cases e <;> simp [Recorded]

/-- **An event is in the trace exactly when the counters have passed it.** -/
theorem mem_iff {tr : List (Event S.N)} {L : Ledger S.N} (h : (spec S).Runs tr L)
    (e : Event S.N) : e ∈ tr ↔ L.Recorded S e := by
  induction h with
  | init hi =>
    obtain rfl : _ = Ledger.init S := hi
    cases e <;> simp [Recorded, Ledger.init]
  | step _ hs ih => rw [List.mem_append, ih, Recorded.step hs]

end Ledger

/-! ## Entries in the trace -/

/-- How many entries were stored. -/
def entriesStored {N : Nat} (tr : List (Event N)) : Nat :=
  tr.countP fun
    | .stored _ _ _ _ => true
    | _ => false

/-- How many entries were compared. -/
def entriesCompared {N : Nat} (tr : List (Event N)) : Nat :=
  tr.countP fun
    | .compared _ _ _ _ => true
    | _ => false

/-- The columns of row `i` that were stored, in order. -/
def storedColumns {N : Nat} (i : Nat) (tr : List (Event N)) : List Nat :=
  tr.filterMap fun
    | .stored _ i' j _ => if i' = i then some j else none
    | _ => none

/-- The last entry that was stored in slot `k`. -/
def lastStored {N : Nat} (k : Fin N) (tr : List (Event N)) : Option (Nat × Nat × Int) :=
  tr.reverse.findSome? fun
    | .stored k' i j v => if k' = k then some (i, j, v) else none
    | _ => none

theorem mem_of_lastStored {N : Nat} {k : Fin N} {tr : List (Event N)} {i j : Nat} {v : Int}
    (h : lastStored k tr = some (i, j, v)) : .stored k i j v ∈ tr := by
  obtain ⟨e, he, heq⟩ := List.exists_of_findSome?_eq_some h
  rw [List.mem_reverse] at he
  cases e with
  | stored k' i' j' v' =>
    simp only [Option.ite_none_right_eq_some, Option.some.injEq, Prod.mk.injEq] at heq
    obtain ⟨rfl, rfl, rfl, rfl⟩ := heq
    exact he
  | _ => cases heq

namespace Ledger

theorem entries_eq {tr : List (Event S.N)} {L : Ledger S.N} (h : (spec S).Runs tr L) :
    entriesStored tr = L.written ∧ entriesCompared tr = L.matched := by
  induction h with
  | init hi =>
    obtain rfl : _ = Ledger.init S := hi
    exact ⟨rfl, rfl⟩
  | step _ hs ih =>
    simp only [entriesStored, entriesCompared, List.countP_append] at ih ⊢
    rw [ih.1, ih.2]
    cases hs <;> simp

/-- The columns of a row are stored once each and in order. -/
theorem storedColumns_eq {tr : List (Event S.N)} {L : Ledger S.N} (h : (spec S).Runs tr L)
    (i : Nat) :
    storedColumns i tr = List.range (min S.dims.cols (L.written - i * S.dims.cols)) := by
  induction h with
  | init hi =>
    obtain rfl : _ = Ledger.init S := hi
    simp [storedColumns, Ledger.init]
  | @step tr evs L L' hr hs ih =>
    simp only [storedColumns, List.filterMap_append] at ih ⊢
    rw [ih]
    cases hs with
    | write j hsync hrows hlt hent hj =>
      by_cases he : L.requested = i
      · subst he
        have hold : min S.dims.cols (L.written - L.requested * S.dims.cols) = j := by omega
        have hnew : min S.dims.cols (L.written + 1 - L.requested * S.dims.cols) = j + 1 := by omega
        rw [hold, hnew, List.range_succ]
        simp
      · -- row `i` is complete, or not begun
        have hother : min S.dims.cols (L.written + 1 - i * S.dims.cols)
            = min S.dims.cols (L.written - i * S.dims.cols) := by
          rcases Nat.lt_or_gt_of_ne he with hgt | hgt
          · have hmul : (L.requested + 1) * S.dims.cols ≤ i * S.dims.cols :=
              Nat.mul_le_mul_right _ hgt
            rw [Nat.succ_mul] at hmul
            omega
          · have hmul : (i + 1) * S.dims.cols ≤ L.requested * S.dims.cols :=
              Nat.mul_le_mul_right _ hgt
            rw [Nat.succ_mul] at hmul
            omega
        rw [hother]
        simp [he]
    | _ => simp

/-- An entry stays the last one of its slot until the producer is a lap ahead. -/
theorem lastStored_eq {tr : List (Event S.N)} {L : Ledger S.N} (h : (spec S).Runs tr L)
    {i j : Nat} (hj : j < S.dims.cols) (hlt : i * S.dims.cols + j < L.written)
    (hlap : L.written ≤ i * S.dims.cols + j + S.N) :
    lastStored (slot (i * S.dims.cols + j)) tr = some (i, j, S.producerCalc.value i j) := by
  induction h with
  | init hi =>
    obtain rfl : _ = Ledger.init S := hi
    exact absurd hlt (Nat.not_lt_zero _)
  | @step tr evs L L' hr hs ih =>
    simp only [lastStored, List.reverse_append, List.findSome?_append] at ih ⊢
    cases hs with
    | write j' hsync hrows hlt' hent hj' =>
      simp only at hlt hlap
      rcases Nat.lt_succ_iff_lt_or_eq.mp hlt with hold | hlast
      · have hne : (slot L.written : Fin S.N) ≠ slot (i * S.dims.cols + j) :=
          (slot_ne hold (by omega)).symm
        simp only [List.reverse_singleton, List.findSome?_singleton, hne, if_false,
          Option.none_or]
        exact ih hold (by omega)
      · obtain ⟨rfl, rfl⟩ := entry_inj (hlast.trans hent) hj hj'
        simp [hent]
    | _ => simpa using ih hlt hlap

end Ledger

variable {S : Setup}

/-- The consumer has compared all columns of row `i`. -/
def ComparedRow (S : Setup) (tr : List (Event S.N)) (i : Nat) : Prop :=
  ∀ j, j < S.dims.cols → ∃ k v, .compared k i j v ∈ tr

theorem comparedRow_iff {tr : List (Event S.N)} {L : Ledger S.N}
    (h : (Ledger.spec S).Runs tr L) (i : Nat) :
    ComparedRow S tr i ↔ (i + 1) * S.dims.cols ≤ L.matched := by
  have hpos := S.dims.cols_pos
  rw [Nat.succ_mul]
  constructor
  · intro hrow
    obtain ⟨k, v, hmem⟩ := hrow (S.dims.cols - 1) (by omega)
    have hx := ((Ledger.mem_iff h _).mp hmem).2.1
    omega
  · intro hle j hj
    exact ⟨_, _, (Ledger.mem_iff h _).mpr ⟨hj, by omega, rfl, rfl⟩⟩

end TsxProject
