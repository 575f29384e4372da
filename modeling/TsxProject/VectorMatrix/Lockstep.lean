import TsxProject.VectorMatrix.Improved

/-!
# A consumer that keeps up

In `RHT_VolatilesImproved`, for data of any size: as long as the two threads compute the same
values, there is a run in which the consumer compares every entry as soon as it is stored. It shows
which states can be reached, where the other modules show which ones cannot.

* `Lockstep` — both threads are before the same column
* `compares_unstored` — from there the consumer can go on alone
-/

namespace TsxProject

open Infra Infra.Ring
open SimpleSyncQueue (atDeqPtr atEnqPtr atContent atCheckState atVolatileValue)

variable {S : Setup}

/-! ## Steps that can be taken -/

theorem producer_isExit {p : Producer S.N} (hpc : p.pc ≠ .wrong) :
    (producer S.dims S.freq S.producerCalc p).isExit = false := by
  obtain ⟨pc, i, j, v, nl, ld, ne, cnt, res⟩ := p
  cases pc with
  | wrong => exact absurd rfl hpc
  | row | column l | testCols | resultStore =>
    simp only [producer]
    split <;> rfl
  | enqueue e => cases e <;> rfl
  | _ => rfl

theorem consumer_isExit {c : Consumer S.N} (hpc : c.pc ≠ .wrong)
    (he : ∀ e, c.pc ≠ .softError e) :
    (consumer S.dims S.freq S.consumerCalc c).isExit = false := by
  obtain ⟨pc, i, j, v, cnt, res⟩ := c
  cases pc with
  | wrong => exact absurd rfl hpc
  | softError e => exact absurd rfl (he e)
  | row | column =>
    simp only [consumer]
    split <;> rfl
  | check e =>
    rw [consumer_check _ rfl]
    cases e <;> rfl
  | _ => rfl

theorem consumer_isExit_column {c : Consumer S.N} (hpc : c.pc = .column) :
    (consumer S.dims S.freq S.consumerCalc c).isExit = false :=
  consumer_isExit (by simp [hpc]) (by simp [hpc])

theorem windowed_of_reachable (hS : S.freq = .rhtVolatilesImproved) {s : S.State}
    (h : S.system.Reachable s) : Windowed S s := by
  obtain ⟨tr, hr⟩ := h
  exact windowed hS hr

section Chains

variable {q q' : SimpleSyncQueue S.N} {p p' : Producer S.N} {c c' : Consumer S.N}
  {evs : List (Event S.N)}

theorem Setup.reachable_fst (h : S.system.Reachable ⟨q, p, c⟩)
    (hc : (consumer S.dims S.freq S.consumerCalc c).isExit = false)
    (hx : (producer S.dims S.freq S.producerCalc p).exec q = some (q', p', evs)) :
    S.system.Reachable ⟨q', p', c⟩ := by
  have hs : S.system.step .fst ⟨q, p, c⟩ = some (⟨q', p', c⟩, evs) := Program.step_fst hx hc
  exact h.step hs

theorem Setup.reachable_snd (h : S.system.Reachable ⟨q, p, c⟩)
    (hp : (producer S.dims S.freq S.producerCalc p).isExit = false)
    (hx : (consumer S.dims S.freq S.consumerCalc c).exec q = some (q', c', evs)) :
    S.system.Reachable ⟨q', p, c'⟩ := by
  have hs : S.system.step .snd ⟨q, p, c⟩ = some (⟨q', p, c'⟩, evs) := Program.step_snd hx hp
  exact h.step hs

/-- One iteration of a column loop. -/
theorem Setup.reachable_stored (h : S.system.Reachable ⟨q, p, c⟩)
    (hc : (consumer S.dims S.freq S.consumerCalc c).isExit = false) {l : ColumnLoop}
    (hpc : p.pc = .column l) (hl : l ≠ .all) (hj : p.j < p.bound S.dims l) :
    ∃ q' p', S.system.Reachable ⟨q', p', c⟩ ∧ p'.pc = .column l ∧ p'.i = p.i ∧ p'.j = p.j + 1 := by
  obtain ⟨pc, i, j, v, nl, ld, ne, cnt, res⟩ := p
  simp only at hpc hj
  subst hpc
  have h1 := reachable_fst h hc (by simp only [producer]; rw [if_pos hj]; rfl)
  have h2 := reachable_fst h1 hc rfl
  simp only [hl, if_false] at h2
  have h3 := reachable_fst h2 hc rfl
  have h4 := reachable_fst h3 hc rfl
  have h5 := reachable_fst h4 hc rfl
  have h6 := reachable_fst h5 hc rfl
  exact ⟨_, _, h6, rfl, rfl, rfl⟩

/-- At the limit, the consumer having moved past all that is stored: the producer does not wait,
and its new limit is larger. -/
theorem Setup.reachable_refilled (hS : S.freq = .rhtVolatilesImproved)
    (h : S.system.Reachable ⟨q, p, c⟩)
    (hc : (consumer S.dims S.freq S.consumerCalc c).isExit = false)
    (hpc : p.pc = .column .upToLimit) (hj : p.j = p.newLimit)
    (hmoved : c.moved S.dims = p.written S.dims) :
    ∃ q' p' l, S.system.Reachable ⟨q', p', c⟩ ∧ l ≠ .all ∧ p'.pc = .column l ∧ p'.i = p.i ∧
      p'.j = p.j ∧ p'.j < p'.bound S.dims l := by
  have hwin := windowed_of_reachable hS h
  obtain ⟨pc, i, j, v, nl, ld, ne, cnt, res⟩ := p
  simp only at hpc hj
  subst hpc hj
  have henq : q.enqPtr = slot (i * S.dims.cols + j) := hwin.inv.fst.1
  have hdeq : q.deqPtr = slot (i * S.dims.cols + j) := by
    have hsnd := hwin.inv.snd.1
    rwa [hmoved] at hsnd
  obtain ⟨-, -, -, hl⟩ := hwin.inv.fst.2
  have hld : ld ≠ q.deqPtr := by
    have hN : 2 ≤ S.N := S.dims.two_le
    have hrem : ld = slot (i * S.dims.cols + j + 1) := hwin.credit.2.remembered hS
    rw [hrem, hdeq]
    exact (slot_ne (Nat.lt_succ_self _) (by omega)).symm
  have h1 := reachable_fst h hc (by simp only [producer, Producer.bound, Nat.lt_irrefl]; rfl)
  simp only [afterLoop, hS, if_true] at h1
  have h2 := reachable_fst h1 hc (by simp only [producer, Instr.exec, atDeqPtr, if_neg hld]; rfl)
  have h3 : S.system.Reachable ⟨q, ⟨.testLimit, i, j, v, j, q.deqPtr, ne, cnt, res⟩, c⟩ :=
    reachable_fst h2 hc rfl
  have h4 : S.system.Reachable
      ⟨q, ⟨.growLimit (q.deqPtr.val ≤ q.enqPtr.val), i, j, v, j, q.deqPtr, ne, cnt, res⟩, c⟩ :=
    reachable_fst h3 hc rfl
  -- the two pointers are equal, so the whole ring counts as free
  have hgrow : room q.enqPtr q.deqPtr - 1 = S.N - 1 := by rw [hdeq, henq, room_self]
  have h5 : S.system.Reachable
      ⟨q, ⟨.testCols, i, j, v, j + (room q.enqPtr q.deqPtr - 1), q.deqPtr, ne, cnt, res⟩, c⟩ := by
    have hgrown := reachable_fst h4 hc rfl
    simp only [hS, if_true, decide_eq_true_eq] at hgrown
    exact hgrown
  rw [hgrow] at h5
  have hN : 2 ≤ S.N := S.dims.two_le
  by_cases hlt : j + (S.N - 1) < S.dims.cols
  · have h6 := reachable_fst h5 hc (by simp only [producer, if_pos hlt]; rfl)
    exact ⟨_, _, .upToLimit, h6, by decide, rfl, rfl, rfl, by simp only [Producer.bound]; omega⟩
  · have h6 := reachable_fst h5 hc (by simp only [producer, if_neg hlt]; rfl)
    exact ⟨_, _, .left, h6, by decide, rfl, rfl, rfl, (hl rfl).1⟩

/-- The consumer up to the load of what it compares. -/
theorem Setup.reachable_compares (h : S.system.Reachable ⟨q, p, c⟩)
    (hp : (producer S.dims S.freq S.producerCalc p).isExit = false) (hpc : c.pc = .column)
    (hj : c.j < S.dims.cols) :
    ∃ c' k, S.system.Reachable ⟨q, p, c'⟩ ∧ c'.pc = .check (.read k) ∧ c'.i = c.i ∧
      c'.j = c.j := by
  obtain ⟨pc, i, j, v, cnt, res⟩ := c
  simp only at hpc hj
  subst hpc
  have h1 := reachable_snd h hp (by simp only [consumer, if_pos hj]; rfl)
  have h2 := reachable_snd h1 hp rfl
  have h3 := reachable_snd h2 hp (by rw [consumer_check _ rfl]; rfl)
  exact ⟨_, _, h3, rfl, rfl, rfl⟩

/-- One iteration of the consumer's column loop, where the entry is stored and is what the consumer
computes. -/
theorem Setup.reachable_compared (hS : S.freq = .rhtVolatilesImproved)
    (h : S.system.Reachable ⟨q, p, c⟩)
    (hp : (producer S.dims S.freq S.producerCalc p).isExit = false) (hpc : c.pc = .column)
    (hj : c.j < S.dims.cols) (hlt : c.i * S.dims.cols + c.j < p.written S.dims)
    (heq : S.producerCalc.value c.i c.j = S.consumerCalc.value c.i c.j) :
    ∃ q' c', S.system.Reachable ⟨q', p, c'⟩ ∧ c'.pc = .column ∧ c'.i = c.i ∧ c'.j = c.j + 1 := by
  obtain ⟨c', k, h3, hpc', hi', hj'⟩ := reachable_compares h hp hpc hj
  have hwin := windowed_of_reachable hS h3
  have hat := hwin.inv.snd.compares (.inl hpc')
  have hm : c'.matched S.dims = c.i * S.dims.cols + c.j := by rw [hat.matched_eq, hi', hj']
  have hcon := hwin.content_eq (by simp only; omega)
  simp only at hcon
  rw [← hat.slot_eq, hm, Calc.entry_mul_add _ _ _ hj, heq, ← hi', ← hj', ← hat.value_eq] at hcon
  obtain ⟨pc, i, j, v, cnt, res⟩ := c'
  simp only at hpc' hi' hj' hcon
  subst hpc'
  have hwb : decide (Ledger.WriteBack S) = false := decide_eq_false (not_writeBack hS)
  have h4 := reachable_snd h3 hp (by
    rw [consumer_check _ rfl]
    simp only [checkAndMove, Instr.exec, atContent, hcon, ne_eq, not_true_eq_false, if_false, hwb]
    rfl)
  have h5 := reachable_snd h4 hp (by rw [consumer_check _ rfl]; rfl)
  have h6 := reachable_snd h5 hp (by rw [consumer_check _ rfl]; rfl)
  exact ⟨_, _, h6, rfl, hi', by simp [hj']⟩

/-- The hand-shake at the end of a row, up to the first column of the next one. -/
theorem Setup.reachable_nextRow (hS : S.freq = .rhtVolatilesImproved)
    (h : S.system.Reachable ⟨q, p, c⟩) (hp : p.pc = .column .left) (hc : c.pc = .column)
    (hpj : p.j = S.dims.cols) (hcj : c.j = S.dims.cols) (hci : c.i = p.i)
    (hi : p.i + 1 < S.dims.rows)
    (heq : S.producerCalc.final S.dims p.i = S.consumerCalc.final S.dims p.i) :
    ∃ q' p' c', S.system.Reachable ⟨q', p', c'⟩ ∧ p'.pc = .column .upToLimit ∧ p'.i = p.i + 1 ∧
      p'.j = 0 ∧ c'.pc = .column ∧ c'.i = p.i + 1 ∧ c'.j = 0 := by
  have hinv := (windowed_of_reachable hS h).inv
  have hpv := hinv.fst.2
  have hcv := hinv.snd.2
  obtain ⟨ppc, i, j, v, nl, ld, ne, cnt, res⟩ := p
  obtain ⟨cpc, i', j', v', cnt', res'⟩ := c
  simp only at hp hc hpj hcj hci hi heq
  subst hp hc hpj hcj
  obtain rfl : i = i' := hci.symm
  obtain ⟨-, -, hpv, -⟩ := hpv
  obtain ⟨-, -, hcv⟩ := hcv
  simp only at hpv hcv
  subst hpv hcv
  -- the producer hands the row over
  have h1 := reachable_fst h (consumer_isExit_column rfl)
    (by simp only [producer, Producer.bound, Nat.lt_irrefl]; rfl)
  have h2 := reachable_fst h1 (consumer_isExit_column rfl) rfl
  have h3 := reachable_fst h2 (consumer_isExit_column rfl) rfl
  -- the consumer verifies it
  have h4 := reachable_snd h3 (producer_isExit (by simp))
    (by simp only [consumer, Nat.lt_irrefl]; rfl)
  have h5 : S.system.Reachable
      ⟨{ q with volatileValue := S.producerCalc.final S.dims i, checkState := 0 },
        ⟨.awaitCheck, i, S.dims.cols, S.producerCalc.final S.dims i, nl, ld, ne, cnt, res⟩,
        ⟨.readVolatile, i, S.dims.cols, S.consumerCalc.final S.dims i, cnt', res'⟩⟩ :=
    reachable_snd h4 (producer_isExit (by simp)) rfl
  have h6 := reachable_snd h5 (producer_isExit (by simp)) (by
    simp only [consumer, Instr.exec, atVolatileValue, heq, ne_eq, not_true_eq_false, if_false]
    rfl)
  have h7 := reachable_snd h6 (producer_isExit (by simp)) rfl
  have h8 := reachable_snd h7 (producer_isExit (by simp)) rfl
  have h9 := reachable_snd h8 (producer_isExit (by simp)) (by simp only [consumer, if_pos hi]; rfl)
  -- the producer goes on
  have h10 : S.system.Reachable
      ⟨{ q with volatileValue := S.producerCalc.final S.dims i, checkState := 1 },
        ⟨.resultStore, i, S.dims.cols, S.producerCalc.final S.dims i, nl, ld, ne, cnt, res⟩,
        ⟨.column, i + 1, 0, 0, cnt',
          Function.update res' i (S.consumerCalc.final S.dims i)⟩⟩ := by
    rw [heq]
    exact reachable_fst (heq ▸ h9) (consumer_isExit_column rfl) rfl
  have h11 := reachable_fst h10 (consumer_isExit_column rfl) (by simp only [producer, hS]; rfl)
  have h12 := reachable_fst h11 (consumer_isExit_column rfl) rfl
  have h13 := reachable_fst h12 (consumer_isExit_column rfl)
    (by simp only [producer, hS, if_pos hi]; rfl)
  exact ⟨_, _, _, h13, rfl, rfl, rfl, rfl, rfl, rfl⟩

end Chains

/-! ## The run -/

/-- Both threads are before column `j` of row `i`, and nothing is left to compare. -/
structure Lockstep (S : Setup) (i j : Nat) (s : S.State) : Prop where
  reachable : S.system.Reachable s
  fst_pc : ∃ l, l ≠ .all ∧ s.fst.pc = .column l
  snd_pc : s.snd.pc = .column
  fst_i : s.fst.i = i
  fst_j : s.fst.j = j
  snd_i : s.snd.i = i
  snd_j : s.snd.j = j

namespace Lockstep

variable {i j : Nat} {s : S.State}

theorem written_eq (h : Lockstep S i j s) : s.fst.written S.dims = i * S.dims.cols + j := by
  obtain ⟨l, -, hpc⟩ := h.fst_pc
  simp only [Producer.written, Producer.entry, hpc, h.fst_i, h.fst_j]

theorem moved_eq (h : Lockstep S i j s) : s.snd.moved S.dims = i * S.dims.cols + j := by
  simp only [Consumer.moved, h.snd_pc, h.snd_i, h.snd_j]

theorem fst_isExit (h : Lockstep S i j s) :
    (producer S.dims S.freq S.producerCalc s.fst).isExit = false := by
  obtain ⟨l, -, hpc⟩ := h.fst_pc
  exact producer_isExit (by simp [hpc])

theorem snd_isExit (h : Lockstep S i j s) :
    (consumer S.dims S.freq S.consumerCalc s.snd).isExit = false :=
  consumer_isExit_column h.snd_pc

/-- Before the first column. -/
theorem init (hS : S.freq = .rhtVolatilesImproved) (hrows : 0 < S.dims.rows) :
    ∃ s, Lockstep S 0 0 s := by
  have h0 : S.system.Reachable
      ⟨SimpleSyncQueue.init, Producer.start S.dims S.freq S.producerResult,
        Consumer.start S.dims S.freq S.consumerResult⟩ := ⟨[], .init⟩
  simp only [Producer.start, Consumer.start, hS] at h0
  have h1 := Setup.reachable_fst h0 (consumer_isExit (by simp) (by simp))
    (by simp only [producer, hS, if_pos hrows]; rfl)
  have h2 := Setup.reachable_snd h1 (producer_isExit (by simp))
    (by simp only [consumer, if_pos hrows]; rfl)
  exact ⟨_, h2, ⟨.upToLimit, by decide, rfl⟩, rfl, rfl, rfl, rfl, rfl⟩

/-- The producer stores an entry, having got a new limit if need be. -/
theorem stored (hS : S.freq = .rhtVolatilesImproved) (h : Lockstep S i j s)
    (hj : j < S.dims.cols) :
    ∃ q' p' l, S.system.Reachable ⟨q', p', s.snd⟩ ∧ l ≠ .all ∧ p'.pc = .column l ∧ p'.i = i ∧
      p'.j = j + 1 := by
  have hwr := h.written_eq
  have hmv := h.moved_eq
  have hexit := h.snd_isExit
  obtain ⟨hr, ⟨l, hl, hpc⟩, -, hpi, hpj, -, -⟩ := h
  obtain ⟨q, p, c⟩ := s
  simp only at hpc hpi hpj hwr hmv hexit
  by_cases hlt : p.j < p.bound S.dims l
  · obtain ⟨q', p', hr', hpc', hi', hj'⟩ := Setup.reachable_stored hr hexit hpc hl hlt
    exact ⟨q', p', l, hr', hl, hpc', hi'.trans hpi, by rw [hj', hpj]⟩
  · cases l with
    | all => exact absurd rfl hl
    | left => exact absurd (hpj ▸ hj) hlt
    | upToLimit =>
      have hok := (windowed_of_reachable hS hr).inv.fst.2
      simp only [hpc] at hok
      have hlim : p.j = p.newLimit := Nat.le_antisymm (hok.2.2.2 trivial).2 (Nat.not_lt.mp hlt)
      obtain ⟨q₁, p₁, l₁, hr₁, hl₁, hpc₁, hi₁, hj₁, hlt₁⟩ :=
        Setup.reachable_refilled hS hr hexit hpc hlim (hmv.trans hwr.symm)
      obtain ⟨q', p', hr', hpc', hi', hj'⟩ := Setup.reachable_stored hr₁ hexit hpc₁ hl₁ hlt₁
      exact ⟨q', p', l₁, hr', hl₁, hpc', by rw [hi', hi₁, hpi], by rw [hj', hj₁, hpj]⟩

/-- One column further. -/
theorem column (hS : S.freq = .rhtVolatilesImproved) (h : Lockstep S i j s)
    (hj : j < S.dims.cols) (heq : S.producerCalc.value i j = S.consumerCalc.value i j) :
    ∃ s', Lockstep S i (j + 1) s' := by
  obtain ⟨q', p', l, hr', hl, hpc', hi', hj'⟩ := h.stored hS hj
  have hcpc := h.snd_pc
  have hci := h.snd_i
  have hcj := h.snd_j
  have hlt : s.snd.i * S.dims.cols + s.snd.j < p'.written S.dims := by
    simp only [Producer.written, Producer.entry, hpc', hi', hj', hci, hcj]
    omega
  obtain ⟨q₂, c', hr₂, hpc₂, hi₂, hj₂⟩ :=
    Setup.reachable_compared hS hr' (producer_isExit (by simp [hpc'])) hcpc (hcj ▸ hj) hlt
      (by rw [hci, hcj]; exact heq)
  exact ⟨⟨q₂, p', c'⟩, hr₂, ⟨l, hl, hpc'⟩, hpc₂, hi', hj', hi₂.trans hci, by rw [hj₂, hcj]⟩

/-- One row further. -/
theorem nextRow (hS : S.freq = .rhtVolatilesImproved) (h : Lockstep S i S.dims.cols s)
    (hi : i + 1 < S.dims.rows)
    (heq : S.producerCalc.final S.dims i = S.consumerCalc.final S.dims i) :
    ∃ s', Lockstep S (i + 1) 0 s' := by
  obtain ⟨hr, ⟨l, hl, hpc⟩, hcpc, hpi, hpj, hci, hcj⟩ := h
  obtain ⟨q, p, c⟩ := s
  simp only at hpc hcpc hpi hpj hci hcj
  have hok := (windowed_of_reachable hS hr).inv.fst.2
  simp only [hpc] at hok
  -- the loop up to the limit ends before the last column
  have hleft : p.pc = .column .left := by
    cases l with
    | all => exact absurd rfl hl
    | left => exact hpc
    | upToLimit =>
      obtain ⟨hlt, hle⟩ := hok.2.2.2 rfl
      omega
  subst hpi
  obtain ⟨q', p', c', hr', hpc', hi', hj', hcpc', hci', hcj'⟩ :=
    Setup.reachable_nextRow hS hr hleft hcpc hpj hcj hci hi heq
  exact ⟨⟨q', p', c'⟩, hr', ⟨.upToLimit, by decide, hpc'⟩, hcpc', hi', hj', hci', hcj'⟩

theorem columns (hS : S.freq = .rhtVolatilesImproved) (h : Lockstep S i 0 s)
    (hj : j ≤ S.dims.cols)
    (heq : ∀ k, k < j → S.producerCalc.value i k = S.consumerCalc.value i k) :
    ∃ s', Lockstep S i j s' := by
  induction j with
  | zero => exact ⟨s, h⟩
  | succ j ih =>
    obtain ⟨s', h'⟩ := ih (Nat.le_of_succ_le hj) fun k hk => heq k (Nat.lt_succ_of_lt hk)
    exact h'.column hS hj (heq j (Nat.lt_succ_self j))

/-- Where the two threads agree on all earlier entries, a column is reached in lockstep. -/
theorem exists_of_agree (hS : S.freq = .rhtVolatilesImproved) {i j : Nat} (hi : i < S.dims.rows)
    (hj : j ≤ S.dims.cols)
    (heq : ∀ x, x < i * S.dims.cols + j →
      S.producerCalc.entry S.dims x = S.consumerCalc.entry S.dims x) :
    ∃ s, Lockstep S i j s := by
  have hval : ∀ i' j', j' < S.dims.cols → i' * S.dims.cols + j' < i * S.dims.cols + j →
      S.producerCalc.value i' j' = S.consumerCalc.value i' j' := by
    intro i' j' hj' hlt
    have hx := heq _ hlt
    rwa [Calc.entry_mul_add _ _ _ hj', Calc.entry_mul_add _ _ _ hj'] at hx
  clear heq
  induction i generalizing j with
  | zero =>
    obtain ⟨s, h⟩ := init hS hi
    exact h.columns hS hj fun k hk => hval 0 k (by omega) (by omega)
  | succ i ih =>
    have hrow : (i + 1) * S.dims.cols = i * S.dims.cols + S.dims.cols := Nat.succ_mul ..
    have hpos := S.dims.cols_pos
    obtain ⟨s, h⟩ := ih (Nat.lt_of_succ_lt hi) (Nat.le_refl _) fun i' j' hj' hlt =>
      hval i' j' hj' (by omega)
    -- the last column of row `i` is its final value
    have hfin : S.producerCalc.final S.dims i = S.consumerCalc.final S.dims i := by
      have hlast := hval i (S.dims.cols - 1) (by omega) (by omega)
      simp only [Calc.value, Nat.sub_add_cancel hpos] at hlast
      exact hlast
    obtain ⟨s', h'⟩ := h.nextRow hS hi hfin
    exact h'.columns hS hj fun k hk => hval (i + 1) k (by omega) (by omega)

/-- The consumer goes on alone, and is about to compare an entry that is not stored. -/
theorem compares (h : Lockstep S i j s) (hj : j < S.dims.cols) :
    ∃ s', S.system.Reachable s' ∧ (∃ k, s'.snd.Compares k) ∧
      s'.fst.written S.dims = i * S.dims.cols + j ∧
      s'.snd.matched S.dims = i * S.dims.cols + j ∧ (S.system.step .snd s').isSome := by
  obtain ⟨c', k, hr, hpc, hi', hj'⟩ :=
    Setup.reachable_compares h.reachable h.fst_isExit h.snd_pc (h.snd_j ▸ hj)
  refine ⟨⟨s.mem, s.fst, c'⟩, hr, ⟨k, .inl hpc⟩, h.written_eq, ?_, ?_⟩
  · simp only [Consumer.matched, Consumer.moved, hpc, hi', hj', h.snd_i, h.snd_j]
  · have hx : ((consumer S.dims S.freq S.consumerCalc c').exec s.mem).isSome := by
      rw [consumer_check _ hpc]
      rfl
    obtain ⟨⟨q, c, evs⟩, hx⟩ := Option.isSome_iff_exists.mp hx
    have hs : S.system.step .snd ⟨s.mem, s.fst, c'⟩ = some (⟨q, s.fst, c⟩, evs) :=
      Program.step_snd hx h.fst_isExit
    rw [hs]
    rfl

end Lockstep

/-- **The consumer can be about to compare any entry before it is stored**, if the two threads agree
on the entries before. -/
theorem compares_unstored (hS : S.freq = .rhtVolatilesImproved) {x : Nat}
    (hx : x < S.dims.rows * S.dims.cols)
    (heq : ∀ y, y < x → S.producerCalc.entry S.dims y = S.consumerCalc.entry S.dims y) :
    ∃ s, S.system.Reachable s ∧ (∃ k, s.snd.Compares k) ∧ s.fst.written S.dims = x ∧
      s.snd.matched S.dims = x ∧ (S.system.step .snd s).isSome := by
  have hj := Nat.mod_lt x S.dims.cols_pos
  have hi : x / S.dims.cols < S.dims.rows := Nat.div_lt_of_lt_mul (Nat.mul_comm .. ▸ hx)
  have hsplit : x / S.dims.cols * S.dims.cols + x % S.dims.cols = x := Nat.div_add_mod' ..
  obtain ⟨s, h⟩ := Lockstep.exists_of_agree hS hi (Nat.le_of_lt hj) (by rwa [hsplit])
  have hres := h.compares hj
  rwa [hsplit] at hres

end TsxProject
