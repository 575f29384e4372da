import TsxProject.VectorMatrix.Refinement

/-!
# The counts of the waits

`consumerCount` and `producerCount` are printed as ratios of the number of entries. The consumer
counts a wait once for an entry that it finds missing. The producer counts one when `deqPtr` is
where it was, and goes on when it has moved, so that an entry has been consumed meanwhile.

* `Waits` — what the counts are, at any moment
* `waits_le` — neither of the ratios exceeds one
-/

namespace TsxProject

open Infra Infra.Ring

variable {S : Setup} {tr evs : List (Event S.N)} {s : S.State} {q q' : SimpleSyncQueue S.N}
  {p p' : Producer S.N} {c c' : Consumer S.N}

/-- Entries that the consumer may have had to wait for. -/
def Consumer.looked (d : Dims) {N : Nat} (c : Consumer N) : Nat :=
  match c.pc with
  | .check .index | .check (.read _) => c.moved d
  | .check _ | .softError (.detected _ _) => c.moved d + 1
  | _ => c.moved d

/-! ## Steps -/

/-- A step of the producer begins a wait for `deqPtr`, goes on with it, or has to do with none. -/
theorem Producer.Step.waits_cases (hs : Producer.Step S q p q' p' evs) :
    q'.deqPtr = q.deqPtr ∧
    ((p.pc = .testDeq ∧ p'.pc = .awaitDeq ∧ p'.producerCount = p.producerCount + 1 ∧
        p'.localDeqPtr = q.deqPtr) ∨
      (p.pc = .awaitDeq ∧ p' = p) ∨
      (p'.pc ≠ .awaitDeq ∧ p'.producerCount = p.producerCount ∧
        (p.pc = .awaitDeq → p.localDeqPtr ≠ q.deqPtr) ∧
        (S.freq ≠ .rhtVolatilesImproved → p'.pc ≠ .testDeq))) := by
  cases hs with
  | deqSame hpc heq => exact ⟨rfl, .inl ⟨hpc, rfl, rfl, heq⟩⟩
  | deqWait hpc =>
    refine ⟨rfl, .inr (.inl ⟨hpc, ?_⟩)⟩
    rw [← hpc]
  | deqMoved _ hne => exact ⟨rfl, .inr (.inr ⟨by simp, rfl, fun _ => hne, by simp⟩)⟩
  | loopEnd l hpc =>
    refine ⟨rfl, .inr (.inr ⟨?_, rfl, by simp [hpc], ?_⟩)⟩
    · cases l with
      | upToLimit =>
        unfold afterLoop
        dsimp only
        split <;> simp
      | left | all => simp [afterLoop]
    · intro hfreq
      cases l <;> simp [afterLoop, hfreq]
  | multiply l hpc =>
    refine ⟨rfl, .inr (.inr ⟨?_, rfl, by simp [hpc], fun _ => ?_⟩)⟩ <;>
    · dsimp only
      split <;> simp
  | row hpc | finish hpc | column _ hpc | index _ hpc | put _ _ hpc | advanceIndex _ hpc
  | advance _ _ hpc | enqueueNext hpc | enqueueWait _ hpc | enqueueRoom _ hpc | enqueueIndex _ hpc
  | enqueuePut _ _ hpc | publish _ hpc | nextEnq hpc | slotTaken hpc | slotFree hpc | readDeq hpc
  | testLimit hpc | growLimit _ _ hpc | upToLimit hpc | left hpc | volatileStore hpc
  | flagStore hpc | await hpc | checked hpc | resultStore _ hpc | resultImproved hpc
  | resetDeq hpc =>
    exact ⟨rfl, .inr (.inr ⟨by simp, rfl, by simp [hpc], by simp⟩)⟩

/-- While the consumer looks at an entry, it is an entry of the matrix. -/
theorem Consumer.Ok.entry_lt (h : c.Ok S q) {e : CheckPc S.N} (hpc : c.pc = .check e) :
    c.i * S.dims.cols + c.j < S.dims.rows * S.dims.cols := by
  obtain ⟨-, hpc'⟩ := h
  simp only [hpc] at hpc'
  obtain ⟨hi, hj, -⟩ := hpc'
  have hrow : (c.i + 1) * S.dims.cols ≤ S.dims.rows * S.dims.cols := Nat.mul_le_mul_right _ hi
  rw [Nat.succ_mul] at hrow
  omega

/-- What a step of the consumer does to its count: `deqPtr` moves with an entry, and a wait is
counted for the entry that it looks at. -/
structure Consumer.Counts (d : Dims) {N : Nat} (q q' : SimpleSyncQueue N) (c c' : Consumer N) :
    Prop where
  /-- a wait is counted with the entry -/
  count : c'.consumerCount + c.looked d ≤ c.consumerCount + c'.looked d
  looked_le : c'.looked d ≤ c.looked d ∨ c'.looked d ≤ d.rows * d.cols
  moved_le : c.moved d ≤ c'.moved d
  deqPtr : q'.deqPtr = q.deqPtr ∨ c.moved d < c'.moved d

theorem Consumer.Step.counts (hs : Consumer.Step S q c q' c' evs) (hok : c.Ok S q) :
    Consumer.Counts S.dims q q' c c' := by
  have hlt : ∀ e, c.pc = .check e → c.i * S.dims.cols + c.j < S.dims.rows * S.dims.cols :=
    fun e he => hok.entry_lt he
  have hok' := hok.2
  obtain ⟨pc, i, j, v, cnt, res⟩ := c
  cases hs with
  | row hp | finish hp | column hp | rowEnd hp | await hp | asked hp | volatileError hp
  | verify hp | flagStore hp | multiply hp =>
    cases hp
    refine ⟨?_, .inl ?_, ?_, .inl rfl⟩ <;> simp [looked, moved]
  | index e e' hp hindex =>
    cases hp
    cases hindex <;> exact ⟨Nat.le_refl _, .inl (Nat.le_refl _), Nat.le_refl _, .inl rfl⟩
  | empty k hp =>
    cases hp
    have hij : i * S.dims.cols + j < _ := hlt _ rfl
    refine ⟨?_, .inr ?_, Nat.le_refl _, .inl rfl⟩ <;> simp only [looked, moved] <;> omega
  | isMatch k hk =>
    by_cases hwb : Ledger.WriteBack S <;> rcases hk with hk | hk <;> cases hk <;>
    · have hij : i * S.dims.cols + j < _ := hlt _ rfl
      refine ⟨?_, .inr ?_, Nat.le_refl _, .inl rfl⟩ <;>
        simp only [looked, moved, hwb, if_true, if_false] <;> omega
  | mismatch k hk =>
    rcases hk with hk | hk <;> cases hk <;>
    · have hij : i * S.dims.cols + j < _ := hlt _ rfl
      refine ⟨?_, .inr ?_, Nat.le_refl _, .inl rfl⟩ <;> simp only [looked, moved] <;> omega
  | spin k hp | wake k hp | clear k hp =>
    cases hp
    exact ⟨Nat.le_refl _, .inl (Nat.le_refl _), Nat.le_refl _, .inl rfl⟩
  | move k hp =>
    cases hp
    refine ⟨?_, .inl ?_, ?_, .inr ?_⟩ <;> simp only [looked, moved] <;> omega
  | resultStore hp =>
    cases hp
    obtain ⟨-, hj, -⟩ := hok'
    simp only at hj
    refine ⟨?_, .inl ?_, ?_, .inl rfl⟩ <;> simp only [looked, moved, Nat.succ_mul] <;> omega

/-! ## Runs -/

/-- What the counts are, at any moment. -/
structure Waits (S : Setup) (s : S.State) : Prop where
  looked : s.snd.consumerCount ≤ s.snd.looked S.dims
  looked_le : s.snd.looked S.dims ≤ S.dims.rows * S.dims.cols
  /-- with each wait that is over, an entry has been consumed -/
  counted : s.fst.producerCount ≤ s.snd.moved S.dims ∨
    s.fst.pc = .awaitDeq ∧ s.fst.localDeqPtr = s.mem.deqPtr ∧
      s.fst.producerCount ≤ s.snd.moved S.dims + 1
  /-- the other modes have no such wait -/
  elsewhere : S.freq ≠ .rhtVolatilesImproved → s.fst.producerCount = 0 ∧ s.fst.pc ≠ .testDeq

theorem Waits.init (hS : S.Replicated) : Waits S S.system.init := by
  obtain ⟨hp, hc⟩ := Setup.start_pc hS
  obtain ⟨-, hr, -⟩ := Setup.start_registers hS
  have hcount : S.system.init.fst.producerCount = 0 ∧ S.system.init.snd.consumerCount = 0 := by
    rcases hS with hf | hf | hf <;>
      simp [Setup.system, Program.system, Producer.start, Consumer.start, hf]
  constructor
  · rw [hcount.2]
    exact Nat.zero_le _
  · simp [Consumer.looked, Consumer.moved, hc, hr]
  · rw [hcount.1]
    exact .inl (Nat.zero_le _)
  · intro _
    exact ⟨hcount.1, by simp [hp]⟩

theorem Waits.producer_step (h : Waits S ⟨q, p, c⟩) (hs : Producer.Step S q p q' p' evs) :
    Waits S ⟨q', p', c⟩ := by
  obtain ⟨hlooked, hle, hcounted, helse⟩ := h
  obtain ⟨hdeq, hcase⟩ := hs.waits_cases
  refine ⟨hlooked, hle, ?_, ?_⟩
  · rcases hcase with ⟨hpc, hpc', hcount, hlocal⟩ | ⟨-, rfl⟩ | ⟨-, hcount, hmoved, -⟩
    · rcases hcounted with hle | ⟨hawait, -⟩
      · exact .inr ⟨hpc', hlocal.trans hdeq.symm, hcount.trans_le (Nat.succ_le_succ hle)⟩
      · exact absurd (hpc.symm.trans hawait) (by simp)
    · simpa only [hdeq] using hcounted
    · rcases hcounted with hle | ⟨hawait, hsame, -⟩
      · exact .inl (hcount.trans_le hle)
      · exact absurd hsame (hmoved hawait)
  · intro hfreq
    obtain ⟨hzero, htest⟩ := helse hfreq
    rcases hcase with ⟨hpc, -⟩ | ⟨-, rfl⟩ | ⟨-, hcount, -, htest'⟩
    · exact absurd hpc htest
    · exact ⟨hzero, htest⟩
    · exact ⟨hcount.trans hzero, htest' hfreq⟩

theorem Waits.consumer_step (h : Waits S ⟨q, p, c⟩) (hok : c.Ok S q)
    (hs : Consumer.Step S q c q' c' evs) : Waits S ⟨q', p, c'⟩ := by
  obtain ⟨hlooked, hle, hcounted, helse⟩ := h
  obtain ⟨hcount, hle', hmoved, hdeq⟩ := hs.counts hok
  simp only at hlooked hle hcounted
  refine ⟨?_, ?_, ?_, helse⟩ <;> dsimp only
  · omega
  · omega
  · rcases hcounted with hfew | ⟨hawait, hsame, hfew⟩
    · exact .inl (hfew.trans hmoved)
    · rcases hdeq with hdeq | hgrown
      · exact .inr ⟨hawait, hsame.trans hdeq.symm, by omega⟩
      · exact .inl (by omega)

theorem Waits.of_runs (hS : S.Replicated) {ok : Side → S.State → Prop}
    (h : S.system.RunsWhere ok tr s) : Waits S s := by
  refine h.rule (I := fun _ s => Waits S s) (Waits.init hS) ?_
  intro i _ s s' evs hr hI _ hs
  have hinv := (refines hS hr).1
  obtain ⟨q, p, c⟩ := s
  obtain ⟨q', p', -, rfl, hx⟩ | ⟨q', c', -, rfl, hx⟩ := Setup.step_cases hs
  · exact hI.producer_step (producer_cases hx)
  · exact hI.consumer_step hinv.snd (consumer_cases hx)

end TsxProject
