import TsxProject.VectorMatrix.Ledger

/-!
# The consumer's registers and steps

* the counters of the ledger, read off the registers
* `Consumer.Ok` — `deqPtr` is the slot of the entry count, `thisValue` the sum so far
* `Consumer.Step` — what a step can do
* `Consumer.Effect` — what it means for the ledger

Both hold in every mode and for arbitrary values.
-/

namespace TsxProject

open Infra Infra.Ring

/-! ## Counters -/

namespace Consumer

variable {N : Nat} (d : Dims) (c : Consumer N)

/-- Entries `deqPtr` has passed. -/
def moved : Nat :=
  match c.pc with
  | .row | .done | .wrong => c.i * d.cols
  | _ => c.i * d.cols + c.j

/-- Entries compared. -/
def matched : Nat :=
  match c.pc with
  | .check .clearIndex | .check (.clear _) | .check .moveIndex | .check (.move _) => c.moved d + 1
  | _ => c.moved d

/-- Entries marked free, where the mode does so. -/
def cleared : Nat :=
  match c.pc with
  | .check .moveIndex | .check (.move _) => c.moved d + 1
  | _ => c.moved d

/-- Rows whose `volatileValue` was found right. -/
def verified : Nat :=
  match c.pc with
  | .flagStore | .resultStore => c.i + 1
  | _ => c.i

/-- Rows for which `checkState = 1` is done. -/
def acked : Nat :=
  match c.pc with
  | .resultStore => c.i + 1
  | _ => c.i

/-- What the ledger knows of the consumer, and its results. -/
structure Progress where
  matched : Nat
  cleared : Nat
  moved : Nat
  verified : Nat
  acked : Nat
  rows : Nat
  result : Nat → Int

def progress : Progress where
  matched := c.matched d
  cleared := c.cleared d
  moved := c.moved d
  verified := c.verified
  acked := c.acked
  rows := c.i
  result := c.consumerVectorResult

end Consumer

/-! ## Registers -/

/-- The registers of the consumer at each point of its program. -/
def Consumer.Ok (S : Setup) (q : SimpleSyncQueue S.N) (c : Consumer S.N) : Prop :=
  q.deqPtr = slot (c.moved S.dims) ∧
  match c.pc with
  | .row => c.i ≤ S.dims.rows
  | .column =>
    c.i < S.dims.rows ∧ c.j ≤ S.dims.cols ∧ c.thisValue = S.consumerCalc.sum c.i c.j
  | .multiply =>
    c.i < S.dims.rows ∧ c.j < S.dims.cols ∧ c.thisValue = S.consumerCalc.sum c.i c.j
  | .check e =>
    c.i < S.dims.rows ∧ c.j < S.dims.cols ∧ c.thisValue = S.consumerCalc.value c.i c.j ∧
      match e with
      | .index | .spinIndex | .againIndex | .moveIndex => True
      | .clearIndex => Ledger.WriteBack S
      | .read k | .spin k | .again k | .move k => k = slot (c.i * S.dims.cols + c.j)
      | .clear k => k = slot (c.i * S.dims.cols + c.j) ∧ Ledger.WriteBack S
  | .awaitCheck | .readVolatile | .flagStore | .resultStore =>
    c.i < S.dims.rows ∧ c.j = S.dims.cols ∧ c.thisValue = S.consumerCalc.final S.dims c.i
  | .done => c.i = S.dims.rows
  | .softError _ => True
  | .wrong => False

variable {S : Setup}

theorem Consumer.Ok.frame {q q' : SimpleSyncQueue S.N} {c : Consumer S.N} (h : c.Ok S q)
    (hd : q'.deqPtr = q.deqPtr) : c.Ok S q' := by
  unfold Consumer.Ok at h ⊢
  rwa [hd]

/-! ## Steps -/

/-- Which of the two checks the consumer calls. -/
theorem consumer_check (c : Consumer S.N) {e : CheckPc S.N} (hpc : c.pc = .check e) :
    consumer S.dims S.freq S.consumerCalc c = checkAndMove (Ledger.WriteBack S) c e := by
  simp only [consumer, hpc]
  by_cases hf : S.freq = .rhtVolatilesImproved
  · simp [hf, Ledger.WriteBack, consumerCheckAndMoveImproved]
  · simp [hf, Ledger.WriteBack, consumerCheckAndMove]

/-- The consumer is about to load the value it compares. -/
def Consumer.Compares {N : Nat} (c : Consumer N) (k : Fin N) : Prop :=
  c.pc = .check (.read k) ∨ c.pc = .check (.again k)

instance {N : Nat} (c : Consumer N) (k : Fin N) : Decidable (c.Compares k) :=
  inferInstanceAs (Decidable (_ ∨ _))

/-- The loads of `deqPtr`, each before an access to the slot. -/
inductive CheckPc.Indexed {N : Nat} (k : Fin N) : CheckPc N → CheckPc N → Prop where
  | read : Indexed k .index (.read k)
  | spin : Indexed k .spinIndex (.spin k)
  | again : Indexed k .againIndex (.again k)
  | clear : Indexed k .clearIndex (.clear k)
  | move : Indexed k .moveIndex (.move k)

/-- What a step of the consumer can do. -/
inductive Consumer.Step (S : Setup) (q : SimpleSyncQueue S.N) (c : Consumer S.N) :
    SimpleSyncQueue S.N → Consumer S.N → List (Event S.N) → Prop where
  | row : c.pc = .row → c.i < S.dims.rows →
      Step S q c q { c with thisValue := 0, j := 0, pc := .column } []
  | finish : c.pc = .row → S.dims.rows ≤ c.i → Step S q c q { c with pc := .done } []
  | column : c.pc = .column → c.j < S.dims.cols → Step S q c q { c with pc := .multiply } []
  | rowEnd : c.pc = .column → S.dims.cols ≤ c.j → Step S q c q { c with pc := .awaitCheck } []
  | multiply : c.pc = .multiply →
      Step S q c q
        { c with thisValue := S.consumerCalc c.i c.j c.thisValue, pc := .check .index } []
  | index (e e' : CheckPc S.N) : c.pc = .check e → e.Indexed q.deqPtr e' →
      Step S q c q { c with pc := .check e' } []
  | empty (k : Fin S.N) : c.pc = .check (.read k) → c.thisValue ≠ q.content k →
      q.content k = alreadyConsumed →
      Step S q c q { c with consumerCount := c.consumerCount + 1, pc := .check .spinIndex } []
  | isMatch (k : Fin S.N) : c.Compares k → c.thisValue = q.content k →
      Step S q c q { c with pc := .check (if Ledger.WriteBack S then .clearIndex else .moveIndex) }
        [.compared k c.i c.j (q.content k)]
  | mismatch (k : Fin S.N) : c.Compares k → c.thisValue ≠ q.content k →
      (q.content k = alreadyConsumed → c.pc = .check (.again k)) →
      Step S q c q { c with pc := .softError (.detected c.thisValue (q.content k)) } []
  | spin (k : Fin S.N) : c.pc = .check (.spin k) → q.content k = alreadyConsumed →
      Step S q c q { c with pc := .check .spinIndex } []
  | wake (k : Fin S.N) : c.pc = .check (.spin k) → q.content k ≠ alreadyConsumed →
      Step S q c q { c with pc := .check .againIndex } []
  | clear (k : Fin S.N) : c.pc = .check (.clear k) →
      Step S q c { q with content := Function.update q.content k alreadyConsumed }
        { c with pc := .check .moveIndex } [.cleared k c.i c.j]
  | move (k : Fin S.N) : c.pc = .check (.move k) →
      Step S q c { q with deqPtr := Ring.next k } { c with j := c.j + 1, pc := .column } []
  | await : c.pc = .awaitCheck → q.checkState = 1 → Step S q c q { c with pc := .awaitCheck } []
  | asked : c.pc = .awaitCheck → q.checkState ≠ 1 → Step S q c q { c with pc := .readVolatile } []
  | volatileError : c.pc = .readVolatile → c.thisValue ≠ q.volatileValue →
      Step S q c q { c with pc := .softError .inVolatileStore } []
  | verify : c.pc = .readVolatile → c.thisValue = q.volatileValue →
      Step S q c q { c with pc := .flagStore } [.verified c.i c.thisValue q.volatileValue]
  | flagStore : c.pc = .flagStore →
      Step S q c { q with checkState := 1 } { c with pc := .resultStore } []
  | resultStore : c.pc = .resultStore →
      Step S q c q
        { c with
          consumerVectorResult := Function.update c.consumerVectorResult c.i c.thisValue,
          i := c.i + 1, pc := .row }
        [.consumerResult c.i c.thisValue]

/-- The steps inside of a check. -/
theorem checkAndMove_cases {q q' : SimpleSyncQueue S.N} {c c' : Consumer S.N}
    {evs : List (Event S.N)} {e : CheckPc S.N} (hpc : c.pc = .check e)
    (hs : (checkAndMove (Ledger.WriteBack S) c e).exec q = some (q', c', evs)) :
    Consumer.Step S q c q' c' evs := by
  cases e with
  | index =>
    cases hs
    exact .index _ _ hpc .read
  | spinIndex =>
    cases hs
    exact .index _ _ hpc .spin
  | againIndex =>
    cases hs
    exact .index _ _ hpc .again
  | clearIndex =>
    cases hs
    exact .index _ _ hpc .clear
  | moveIndex =>
    cases hs
    exact .index _ _ hpc .move
  | read k =>
    simp only [checkAndMove, Instr.exec] at hs
    split at hs
    · next hne =>
      split at hs <;> cases hs
      · next hempty => exact .empty k hpc hne hempty
      · next hfull => exact .mismatch k (.inl hpc) hne fun h => absurd h hfull
    · next heq =>
      cases hs
      simp only [decide_eq_true_eq]
      exact .isMatch k (.inl hpc) (not_not.mp heq)
  | spin k =>
    simp only [checkAndMove, Instr.exec] at hs
    split at hs <;> cases hs
    · next hempty => exact .spin k hpc hempty
    · next hfull => exact .wake k hpc hfull
  | again k =>
    simp only [checkAndMove, Instr.exec] at hs
    split at hs <;> cases hs
    · next heq =>
      simp only [decide_eq_true_eq]
      exact .isMatch k (.inr hpc) heq
    · next hne => exact .mismatch k (.inr hpc) hne fun _ => hpc
  | clear k =>
    cases hs
    exact .clear k hpc
  | move k =>
    cases hs
    exact .move k hpc

theorem consumer_cases {q q' : SimpleSyncQueue S.N} {c c' : Consumer S.N}
    {evs : List (Event S.N)}
    (hs : (consumer S.dims S.freq S.consumerCalc c).exec q = some (q', c', evs)) :
    Consumer.Step S q c q' c' evs := by
  cases hpc : c.pc with
  | row =>
    simp only [consumer, hpc] at hs
    split at hs <;> cases hs
    · next hlt => exact .row hpc hlt
    · next hge => exact .finish hpc (Nat.not_lt.mp hge)
  | column =>
    simp only [consumer, hpc] at hs
    split at hs <;> cases hs
    · next hlt => exact .column hpc hlt
    · next hge => exact .rowEnd hpc (Nat.not_lt.mp hge)
  | multiply =>
    simp only [consumer, hpc] at hs
    cases hs
    exact .multiply hpc
  | check e =>
    rw [consumer_check c hpc] at hs
    exact checkAndMove_cases hpc hs
  | awaitCheck =>
    simp only [consumer, hpc, Instr.exec] at hs
    split at hs <;> cases hs
    · next hone => exact .await hpc hone
    · next hone => exact .asked hpc hone
  | readVolatile =>
    simp only [consumer, hpc, Instr.exec] at hs
    split at hs <;> cases hs
    · next hne => exact .volatileError hpc hne
    · next heq => exact .verify hpc (not_not.mp heq)
  | flagStore =>
    simp only [consumer, hpc] at hs
    cases hs
    exact .flagStore hpc
  | resultStore =>
    simp only [consumer, hpc] at hs
    cases hs
    exact .resultStore hpc
  | done | softError e | wrong =>
    simp only [consumer, hpc] at hs
    cases hs

theorem Consumer.Ok.step {q q' : SimpleSyncQueue S.N} {c c' : Consumer S.N}
    {evs : List (Event S.N)} (h : c.Ok S q) (hs : Consumer.Step S q c q' c' evs) : c'.Ok S q' := by
  obtain ⟨pc, i, j, v, cnt, res⟩ := c
  obtain ⟨hdeq, hpc⟩ := h
  cases hs with
  | row hp hlt =>
    cases hp
    exact ⟨hdeq, hlt, Nat.zero_le _, rfl⟩
  | finish hp hge =>
    cases hp
    exact ⟨hdeq, Nat.le_antisymm hpc hge⟩
  | column hp hlt =>
    cases hp
    obtain ⟨hi, -, hv⟩ := hpc
    exact ⟨hdeq, hi, hlt, hv⟩
  | rowEnd hp hge =>
    cases hp
    obtain ⟨hi, hj, hv⟩ := hpc
    obtain rfl : j = S.dims.cols := Nat.le_antisymm hj hge
    exact ⟨hdeq, hi, rfl, hv⟩
  | multiply hp =>
    cases hp
    obtain ⟨hi, hj, hv⟩ := hpc
    simp only at hv
    subst hv
    exact ⟨hdeq, hi, hj, rfl, trivial⟩
  | index e e' hp hindex =>
    cases hp
    obtain ⟨hi, hj, hv, he⟩ := hpc
    cases hindex with
    | read | spin | again | move => exact ⟨hdeq, hi, hj, hv, hdeq⟩
    | clear => exact ⟨hdeq, hi, hj, hv, hdeq, he⟩
  | empty k hp | spin k hp | wake k hp =>
    cases hp
    obtain ⟨hi, hj, hv, -⟩ := hpc
    exact ⟨hdeq, hi, hj, hv, trivial⟩
  | isMatch k hk =>
    -- after a match the consumer clears the slot or moves on at once
    have hat : i < S.dims.rows ∧ j < S.dims.cols ∧ v = S.consumerCalc.value i j := by
      rcases hk with hk | hk <;> cases hk <;> exact ⟨hpc.1, hpc.2.1, hpc.2.2.1⟩
    obtain ⟨hi, hj, hv⟩ := hat
    rcases hk with hk | hk <;> cases hk <;> refine ⟨hdeq, hi, hj, hv, ?_⟩ <;>
      by_cases hwb : Ledger.WriteBack S <;> simp [hwb]
  | mismatch k hk =>
    rcases hk with hk | hk <;> cases hk <;> exact ⟨hdeq, trivial⟩
  | clear k hp =>
    cases hp
    obtain ⟨hi, hj, hv, -⟩ := hpc
    exact ⟨hdeq, hi, hj, hv, trivial⟩
  | move k hp =>
    cases hp
    obtain ⟨hi, hj, hv, he⟩ := hpc
    simp only at he
    subst he
    exact ⟨next_slot _, hi, hj, hv⟩
  | await hp | asked hp | verify hp | flagStore hp =>
    cases hp
    exact ⟨hdeq, hpc⟩
  | volatileError hp =>
    cases hp
    exact ⟨hdeq, trivial⟩
  | resultStore hp =>
    cases hp
    obtain ⟨hi, hj, hv⟩ := hpc
    simp only at hj
    subst hj
    exact ⟨by rw [Consumer.moved, Nat.succ_mul]; exact hdeq, hi⟩

/-- The consumer's counters and registers when it compares slot `k`. -/
structure Consumer.AtEntry (S : Setup) (c : Consumer S.N) (k : Fin S.N) : Prop where
  row_lt : c.i < S.dims.rows
  col_lt : c.j < S.dims.cols
  matched_eq : c.matched S.dims = c.i * S.dims.cols + c.j
  cleared_eq : c.cleared S.dims = c.matched S.dims
  moved_eq : c.moved S.dims = c.matched S.dims
  verified_eq : c.verified = c.i
  acked_eq : c.acked = c.i
  slot_eq : k = slot (c.matched S.dims)
  value_eq : c.thisValue = S.consumerCalc.value c.i c.j

theorem Consumer.Ok.compares {q : SimpleSyncQueue S.N} {c : Consumer S.N} {k : Fin S.N}
    (h : c.Ok S q) (hk : c.Compares k) : c.AtEntry S k := by
  obtain ⟨pc, i, j, v, cnt, res⟩ := c
  rcases hk with rfl | rfl <;>
  · obtain ⟨-, hi, hj, hv, hk⟩ := h
    exact ⟨hi, hj, rfl, rfl, rfl, rfl, rfl, hk, hv⟩

theorem Consumer.AtEntry.entry_eq {c : Consumer S.N} {k : Fin S.N} (h : c.AtEntry S k) :
    c.thisValue = S.consumerCalc.entry S.dims (c.matched S.dims) := by
  rw [h.matched_eq, Calc.entry_mul_add _ _ _ h.col_lt, h.value_eq]

/-- The consumer is past its wait for `checkState` and has not set it yet. -/
def Consumer.Answers {N : Nat} (c : Consumer N) : Prop :=
  c.pc = .readVolatile ∨ c.pc = .flagStore

/-- What a step of the consumer means for the ledger. -/
inductive Consumer.Effect (S : Setup) (q : SimpleSyncQueue S.N) (c : Consumer S.N) :
    List (Event S.N) → SimpleSyncQueue S.N → Consumer S.N → Prop where
  | quiet {c' : Consumer S.N} :
      c'.progress S.dims = c.progress S.dims →
      (c'.Answers → c.pc = .awaitCheck ∧ q.checkState ≠ 1) → Effect S q c [] q c'
  | compare {c' : Consumer S.N} (k : Fin S.N) :
      c.Compares k → c.AtEntry S k → c.thisValue = q.content k →
      c'.progress S.dims =
        { c.progress S.dims with
          matched := c.matched S.dims + 1
          cleared := if Ledger.WriteBack S then c.cleared S.dims else c.cleared S.dims + 1 } →
      ¬ c'.Answers → Effect S q c [.compared k c.i c.j c.thisValue] q c'
  | clear {c' : Consumer S.N} :
      Ledger.WriteBack S → c.cleared S.dims + 1 = c.matched S.dims →
      c.moved S.dims = c.cleared S.dims → c.cleared S.dims = c.acked * S.dims.cols + c.j →
      c.j < S.dims.cols →
      c'.progress S.dims = { c.progress S.dims with cleared := c.cleared S.dims + 1 } →
      ¬ c'.Answers →
      Effect S q c [.cleared (slot (c.cleared S.dims)) c.acked c.j]
        { q with content := Function.update q.content (slot (c.cleared S.dims)) alreadyConsumed } c'
  | move {c' : Consumer S.N} (deqPtr : Fin S.N) :
      c.moved S.dims + 1 = c.cleared S.dims →
      c'.progress S.dims = { c.progress S.dims with moved := c.moved S.dims + 1 } →
      ¬ c'.Answers → Effect S q c [] { q with deqPtr := deqPtr } c'
  | verify {c' : Consumer S.N} :
      c.pc = .readVolatile → c.verified = c.acked → c.i = c.acked →
      c.moved S.dims = (c.acked + 1) * S.dims.cols → c.matched S.dims = c.moved S.dims →
      S.consumerCalc.final S.dims c.acked = q.volatileValue →
      c'.progress S.dims = { c.progress S.dims with verified := c.verified + 1 } →
      Effect S q c [.verified c.acked (S.consumerCalc.final S.dims c.acked) q.volatileValue] q c'
  | ack {c' : Consumer S.N} :
      c.pc = .flagStore → c.verified = c.acked + 1 →
      c'.progress S.dims = { c.progress S.dims with acked := c.acked + 1 } →
      ¬ c'.Answers → Effect S q c [] { q with checkState := 1 } c'
  | consume {c' : Consumer S.N} :
      c.i + 1 = c.acked → c.verified = c.acked →
      c'.progress S.dims =
        { c.progress S.dims with
          rows := c.i + 1
          result := Function.update c.consumerVectorResult c.i
            (S.consumerCalc.final S.dims c.i) } →
      ¬ c'.Answers → Effect S q c [.consumerResult c.i (S.consumerCalc.final S.dims c.i)] q c'

theorem Consumer.Effect.stored_not_mem {q q' : SimpleSyncQueue S.N} {c c' : Consumer S.N}
    {evs : List (Event S.N)} {k : Fin S.N} {i j : Nat} {v : Int}
    (h : Consumer.Effect S q c evs q' c') : .stored k i j v ∉ evs := by
  cases h <;> simp

theorem Consumer.Effect.compared_mem {q q' : SimpleSyncQueue S.N} {c c' : Consumer S.N}
    {evs : List (Event S.N)} {k : Fin S.N} {i j : Nat} {v : Int}
    (h : Consumer.Effect S q c evs q' c') (he : .compared k i j v ∈ evs) :
    c.Compares k ∧ i = c.i ∧ j = c.j ∧ v = c.thisValue ∧ q.content k = v := by
  cases h with
  | compare k' hk hat hcon =>
    simp only [List.mem_singleton, Event.compared.injEq] at he
    obtain ⟨rfl, rfl, rfl, rfl⟩ := he
    exact ⟨hk, rfl, rfl, rfl, hcon.symm⟩
  | _ => simp at he

/-- A step compares the next entry, or none. -/
theorem Consumer.Effect.matched_cases {q q' : SimpleSyncQueue S.N} {c c' : Consumer S.N}
    {evs : List (Event S.N)} (h : Consumer.Effect S q c evs q' c') :
    c'.matched S.dims = c.matched S.dims ∨
      c'.matched S.dims = c.matched S.dims + 1 ∧
        ∃ k, c.Compares k ∧ c.AtEntry S k ∧ c.thisValue = q.content k := by
  show (c'.progress S.dims).matched = _ ∨ (c'.progress S.dims).matched = _ ∧ _
  cases h with
  | compare k hk hat hcon hprog =>
    rw [hprog]
    exact .inr ⟨rfl, k, hk, hat, hcon⟩
  | quiet hprog | clear _ _ _ _ _ hprog | move _ _ hprog | verify _ _ _ _ _ _ hprog
  | ack _ _ hprog | consume _ _ hprog =>
    rw [hprog]
    exact .inl rfl

theorem Consumer.Ok.effect {q q' : SimpleSyncQueue S.N} {c c' : Consumer S.N}
    {evs : List (Event S.N)} (h : c.Ok S q) (hs : Consumer.Step S q c q' c' evs) :
    Consumer.Effect S q c evs q' c' := by
  have hok := h
  obtain ⟨pc, i, j, v, cnt, res⟩ := c
  obtain ⟨hdeq, hpc⟩ := h
  cases hs with
  | row hp | finish hp | column hp | rowEnd hp | multiply hp | empty k hp | spin k hp | wake k hp
  | await hp | volatileError hp =>
    cases hp
    exact .quiet rfl (by simp [Answers])
  | index e e' hp hindex =>
    cases hp
    cases hindex <;> exact .quiet rfl (by simp [Answers])
  | isMatch k hk heq =>
    have hat := hok.compares hk
    simp only at heq
    rw [← heq]
    refine .compare k hk hat heq ?_ (by simp [Answers])
    rcases hk with hk | hk <;> cases hk <;> by_cases hwb : Ledger.WriteBack S <;>
      simp [progress, matched, cleared, moved, verified, acked, hwb]
  | mismatch k hk =>
    rcases hk with hk | hk <;> cases hk <;> exact .quiet rfl (by simp [Answers])
  | clear k hp =>
    cases hp
    obtain ⟨hi, hj, hv, hk, hwb⟩ := hpc
    simp only at hk
    subst hk
    exact .clear hwb rfl rfl rfl hj rfl (by simp [Answers])
  | move k hp =>
    cases hp
    exact .move _ rfl rfl (by simp [Answers])
  | asked hp hone =>
    cases hp
    exact .quiet rfl fun _ => ⟨rfl, hone⟩
  | verify hp heq =>
    cases hp
    simp only at hpc heq
    obtain ⟨hi, rfl, rfl⟩ := hpc
    exact .verify rfl rfl rfl (Nat.succ_mul ..).symm rfl heq rfl
  | flagStore hp =>
    cases hp
    exact .ack rfl rfl rfl (by simp [Answers])
  | resultStore hp =>
    cases hp
    simp only at hpc
    obtain ⟨hi, rfl, rfl⟩ := hpc
    have hrow : (i + 1) * S.dims.cols = i * S.dims.cols + S.dims.cols := Nat.succ_mul ..
    refine .consume rfl rfl ?_ (by simp [Answers])
    simp [progress, matched, cleared, moved, verified, acked, hrow]

/-! ## Waiting -/

/-- Which wait loop a spinning consumer is in, and what its condition says. -/
theorem Consumer.Ok.spinning {q : SimpleSyncQueue S.N} {c : Consumer S.N} (h : c.Ok S q)
    (hsp : c.Spinning q) :
    c.i = c.acked ∧ c.matched S.dims = c.moved S.dims ∧ c.cleared S.dims = c.moved S.dims ∧
      (c.moved S.dims < (c.acked + 1) * S.dims.cols ∧
          q.content (slot (c.moved S.dims)) = alreadyConsumed ∨
        c.moved S.dims = (c.acked + 1) * S.dims.cols ∧ q.checkState = 1) := by
  obtain ⟨pc, i, j, v, cnt, res⟩ := c
  obtain ⟨hdeq, hpc⟩ := h
  have hmul : (i + 1) * S.dims.cols = i * S.dims.cols + S.dims.cols := Nat.succ_mul ..
  cases pc with
  | check e =>
    obtain ⟨hi, hj, hv, he⟩ := hpc
    simp only at hj
    cases e with
    | spinIndex | spin k =>
      refine ⟨rfl, rfl, rfl, .inl ⟨?_, ?_⟩⟩
      · simp only [Consumer.moved, Consumer.acked]
        omega
      · rw [← hdeq]
        exact hsp
    | _ => exact hsp.elim
  | awaitCheck =>
    obtain ⟨hi, hj, hv⟩ := hpc
    simp only at hj
    subst hj
    exact ⟨rfl, rfl, rfl, .inr ⟨hmul.symm, hsp⟩⟩
  | _ => exact hsp.elim

/-! ## Reports -/

/-- The value that is compared with `volatileValue`. -/
theorem Consumer.Ok.final_eq {q : SimpleSyncQueue S.N} {c : Consumer S.N} (h : c.Ok S q)
    (hpc : c.pc = .readVolatile) :
    c.i < S.dims.rows ∧ c.thisValue = S.consumerCalc.final S.dims c.i := by
  obtain ⟨-, h⟩ := h
  simp only [hpc] at h
  exact ⟨h.1, h.2.2⟩

/-- The steps that end in a report. -/
theorem Consumer.Step.softError_cases {q q' : SimpleSyncQueue S.N} {c c' : Consumer S.N}
    {evs : List (Event S.N)} {e : SoftError} (hs : Consumer.Step S q c q' c' evs)
    (he : c'.pc = .softError e) :
    (∃ k, c.Compares k ∧ c.thisValue ≠ q.content k ∧
        (q.content k = alreadyConsumed → c.pc = .check (.again k))) ∨
      c.pc = .readVolatile ∧ c.thisValue ≠ q.volatileValue := by
  cases hs with
  | mismatch k hk hne hagain => exact .inl ⟨k, hk, hne, hagain⟩
  | volatileError hp hne => exact .inr ⟨hp, hne⟩
  | _ => cases he

/-- A step at a comparison compares, or waits for a value, or reports. -/
theorem Consumer.Step.of_compares {q q' : SimpleSyncQueue S.N} {c c' : Consumer S.N} {k : Fin S.N}
    {evs : List (Event S.N)} (hk : c.Compares k) (hs : Consumer.Step S q c q' c' evs) :
    c.thisValue = q.content k ∧ evs = [.compared k c.i c.j (q.content k)] ∨
      c.thisValue ≠ q.content k ∧ (q.content k ≠ alreadyConsumed → ∃ e, c'.pc = .softError e) := by
  cases hs with
  | isMatch k' hk' heq =>
    obtain rfl : k = k' := by
      rcases hk with hk | hk <;> rcases hk' with hk' | hk' <;> rw [hk] at hk' <;> cases hk' <;> rfl
    exact .inl ⟨heq, rfl⟩
  | mismatch k' hk' hne =>
    obtain rfl : k = k' := by
      rcases hk with hk | hk <;> rcases hk' with hk' | hk' <;> rw [hk] at hk' <;> cases hk' <;> rfl
    exact .inr ⟨hne, fun _ => ⟨_, rfl⟩⟩
  | empty k' hp hne hempty =>
    rcases hk with hk | hk <;> rw [hp] at hk <;> cases hk
    exact .inr ⟨hne, fun hfull => absurd hempty hfull⟩
  | index e e' hp hindex =>
    rcases hk with hk | hk <;> rw [hp] at hk <;> cases hk <;> cases hindex
  | row hp | finish hp | column hp | rowEnd hp | multiply hp | spin k hp | wake k hp | clear k hp
  | move k hp | await hp | asked hp | volatileError hp | verify hp | flagStore hp
  | resultStore hp =>
    rcases hk with hk | hk <;> rw [hp] at hk <;> cases hk

/-- The consumer has seen the slot of `deqPtr` occupied and is about to load it again. -/
def Consumer.Wakes {N : Nat} (c : Consumer N) : Prop :=
  match c.pc with
  | .check .againIndex | .check (.again _) => True
  | _ => False

theorem Consumer.Ok.wakes {q q' : SimpleSyncQueue S.N} {c c' : Consumer S.N}
    {evs : List (Event S.N)} (h : c.Ok S q) (hs : Consumer.Step S q c q' c' evs)
    (hc' : c'.Wakes) : q' = q ∧ (c.Wakes ∨ q.content q.deqPtr ≠ alreadyConsumed) := by
  cases hs with
  | index e e' hp hindex =>
    refine ⟨rfl, .inl ?_⟩
    unfold Wakes at hc' ⊢
    rw [hp]
    cases hindex <;> first | exact hc'.elim | trivial
  | wake k hp hfull =>
    refine ⟨rfl, .inr ?_⟩
    obtain ⟨hdeq, hpc⟩ := h
    simp only [hp] at hpc
    rw [hdeq, Consumer.moved, hp, ← hpc.2.2.2]
    exact hfull
  | isMatch k hk =>
    unfold Wakes at hc'
    by_cases hwb : Ledger.WriteBack S <;> simp [hwb] at hc'
  | _ => exact hc'.elim

end TsxProject
