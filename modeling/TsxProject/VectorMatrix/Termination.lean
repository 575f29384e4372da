import TsxProject.Infra.Fairness
import TsxProject.VectorMatrix.Lockstep
import TsxProject.VectorMatrix.Volatiles

/-!
# No livelock

Both threads poll. Under a fair schedule the polling comes to an end, whatever the two threads
compute: they finish, or the consumer reports, or each of them waits for the other for good.

* `Producer.rank`, `Consumer.rank` — what is left to do, and how far the polling is
* `Producer.Ok.rank_lt`, `Consumer.Ok.rank_lt` — a thread that does not wait lowers its rank
* `fair_ends` — what a fair schedule comes to
-/

namespace TsxProject

open Infra Infra.Ring

variable {S : Setup}

/-! ## The rank of the producer -/

/-- How far it is to the next column or the next row. -/
def ProducerPc.offset {N : Nat} : ProducerPc N → Nat
  | .testCols => 10
  | .column _ => 9
  | .multiply _ | .nextEnq | .testDeq | .volatileStore => 8
  | .index _ | .enqueue .next | .awaitSlot | .awaitDeq | .flagStore => 7
  | .put _ _ | .enqueue (.await _) | .readDeq | .awaitCheck => 6
  | .enqueue (.index _) | .testLimit | .resultStore => 5
  | .advanceIndex _ | .enqueue (.put _ _) | .growLimit _ => 4
  | .advance _ _ | .resetDeq => 3
  | .enqueue (.publish _) => 2
  | .row => 1
  | .done | .wrong => 0

/-- A limit that is computed from `basis` is the old one: `deqPtr` was seen to move, but when it is
read again it has come round to the slot behind the limit. -/
def Producer.lag (S : Setup) (p : Producer S.N) (basis : Fin S.N) : Nat :=
  if S.freq = .rhtVolatilesImproved ∧ basis = slot (p.i * S.dims.cols + p.newLimit + 1) then 7
  else 0

/-- More than the steps of a row. -/
def Setup.producerRow (S : Setup) : Nat := 19 * S.dims.cols + 20

/-- Rows, columns, and columns beyond the limit that are left. -/
def Producer.left (S : Setup) (p : Producer S.N) : Nat :=
  (S.dims.rows - (p.i + 1)) * S.producerRow + 9 * (S.dims.cols - p.j) +
    10 * (S.dims.cols - p.newLimit)

def Producer.rank (S : Setup) (q : SimpleSyncQueue S.N) (p : Producer S.N) : Nat :=
  match p.pc with
  | .row | .done | .wrong => (S.dims.rows - p.i) * S.producerRow + p.pc.offset
  | .volatileStore | .flagStore | .awaitCheck | .resultStore | .resetDeq =>
    (S.dims.rows - (p.i + 1)) * S.producerRow + p.pc.offset
  | .readDeq => p.left S + p.pc.offset + p.lag S q.deqPtr
  | .testLimit | .growLimit _ => p.left S + p.pc.offset + p.lag S p.localDeqPtr
  | _ => p.left S + p.pc.offset

theorem Setup.rows_left {i : Nat} (hi : i < S.dims.rows) (w : Nat) :
    (S.dims.rows - i) * w = (S.dims.rows - (i + 1)) * w + w := by
  rw [← Nat.succ_mul]
  congr 1
  omega

/-- What the rank relies on beyond the registers. -/
structure Producer.Batched (S : Setup) (q : SimpleSyncQueue S.N) (p : Producer S.N) : Prop where
  /-- the branch was chosen by a load of `enqPtr` that is still right -/
  chosen : ∀ ge, p.pc = .growLimit ge → ge = decide (p.localDeqPtr.val ≤ q.enqPtr.val)
  remembered : p.pc = .testDeq ∨ p.pc = .awaitDeq → S.freq = .rhtVolatilesImproved →
    p.localDeqPtr = slot (p.i * S.dims.cols + p.newLimit + 1)
  probes : p.pc = .awaitSlot → S.freq ≠ .rhtVolatilesImproved

/-- A producer that does not wait lowers its rank, by two when it stores in the queue. -/
theorem Producer.Ok.rank_lt {q q' : SimpleSyncQueue S.N} {p p' : Producer S.N}
    {evs : List (Event S.N)} (h : p.Ok S q) (hb : p.Batched S q) (hw : ¬ p.Spinning q)
    (hs : Producer.Step S q p q' p' evs) :
    p'.rank S q' < p.rank S q ∧
      (q'.content = q.content ∨ p'.rank S q' + 1 < p.rank S q) := by
  obtain ⟨pc, i, j, v, nl, ld, ne, cnt, res⟩ := p
  obtain ⟨henq, hpc⟩ := h
  obtain ⟨hchosen, hrem, hprobe⟩ := hb
  cases hs with
  | row hp hlt =>
    cases hp
    simp only [Producer.rank, Producer.left, ProducerPc.offset]
    rw [S.rows_left hlt]
    simp only [Setup.producerRow]
    exact ⟨by omega, .inl trivial⟩
  | finish hp =>
    cases hp
    simp only [Producer.rank, ProducerPc.offset]
    exact ⟨by omega, .inl trivial⟩
  | column l hp | index l hp | advanceIndex l hp | enqueueNext hp | enqueueRoom n hp
  | enqueueIndex n hp | nextEnq hp | deqSame hp | upToLimit hp | left hp =>
    cases hp
    simp only [Producer.rank, Producer.left, ProducerPc.offset]
    exact ⟨by omega, .inl trivial⟩
  | loopEnd l hp =>
    cases hp
    cases l with
    | upToLimit =>
      simp only [afterLoop]
      split <;> simp only [Producer.rank, Producer.left, ProducerPc.offset] <;>
        exact ⟨by omega, .inl trivial⟩
    | left | all =>
      simp only [Producer.rank, Producer.left, ProducerPc.offset, afterLoop]
      exact ⟨by omega, .inl trivial⟩
  | multiply l hp =>
    cases hp
    cases l <;>
      simp only [Producer.rank, Producer.left, ProducerPc.offset, reduceIte, reduceCtorEq] <;>
      exact ⟨by omega, .inl trivial⟩
  | put l k hp | enqueuePut n k hp =>
    cases hp
    simp only [Producer.rank, Producer.left, ProducerPc.offset]
    exact ⟨by omega, .inr (by omega)⟩
  | advance l k hp =>
    cases hp
    obtain ⟨hi, hj, -⟩ := hpc
    simp only [Producer.rank, Producer.left, ProducerPc.offset] at hj ⊢
    exact ⟨by omega, .inl trivial⟩
  | publish n hp =>
    cases hp
    obtain ⟨hi, hj, -⟩ := hpc
    simp only [Producer.rank, Producer.left, ProducerPc.offset] at hj ⊢
    exact ⟨by omega, .inl trivial⟩
  -- a producer that waits
  | enqueueWait n hp hne =>
    cases hp
    exact absurd hne hw
  | slotTaken hp hne =>
    cases hp
    exact absurd hne hw
  | deqWait hp heq =>
    cases hp
    exact absurd heq hw
  | await hp hzero =>
    cases hp
    exact absurd hzero hw
  -- the new limit
  | slotFree hp =>
    cases hp
    have hlag : ¬ (S.freq = .rhtVolatilesImproved ∧
        q.deqPtr = slot (i * S.dims.cols + nl + 1)) := fun h => hprobe rfl h.1
    simp only [Producer.rank, Producer.left, ProducerPc.offset, Producer.lag, if_neg hlag]
    exact ⟨by omega, .inl trivial⟩
  | deqMoved hp hne =>
    have hlag : ¬ (S.freq = .rhtVolatilesImproved ∧
        q.deqPtr = slot (i * S.dims.cols + nl + 1)) := by
      rintro ⟨himp, heq⟩
      exact hne ((hrem hp himp).trans heq.symm)
    rcases hp with hp | hp <;> cases hp <;>
      simp only [Producer.rank, Producer.left, ProducerPc.offset, Producer.lag, if_neg hlag] <;>
      exact ⟨by omega, .inl trivial⟩
  | readDeq hp | testLimit hp =>
    cases hp
    simp only [Producer.rank, Producer.left, ProducerPc.offset, Producer.lag]
    exact ⟨by omega, .inl trivial⟩
  | growLimit ge free hp hfree =>
    cases hp
    obtain ⟨hi, hj, hv, hl⟩ := hpc
    simp only at hj hl
    subst hl
    have hroom : free = room (slot (i * S.dims.cols + j)) ld := by
      rw [hfree, hchosen ge rfl, henq]
      simp only [decide_eq_true_eq]
      rfl
    have hpos := room_pos (slot (i * S.dims.cols + j) : Fin S.N) ld
    simp only [Producer.rank, Producer.left, ProducerPc.offset, Producer.lag]
    refine ⟨?_, .inl trivial⟩
    by_cases himp : S.freq = .rhtVolatilesImproved
    · simp only [himp, true_and, if_true]
      by_cases hlag : ld = slot (i * S.dims.cols + j + 1)
      · rw [if_pos hlag]
        omega
      · have htwo := two_le_room hlag
        rw [if_neg hlag]
        omega
    · simp only [himp, false_and, if_false]
      omega
  -- the end of a row
  | volatileStore hp | flagStore hp | checked hp | resultImproved hp =>
    cases hp
    simp only [Producer.rank, ProducerPc.offset]
    exact ⟨by omega, .inl trivial⟩
  | resultStore newLimit hp | resetDeq hp =>
    cases hp
    simp only [Producer.rank, ProducerPc.offset]
    exact ⟨by omega, .inl trivial⟩

theorem Producer.rank_congr {q q' : SimpleSyncQueue S.N} (p : Producer S.N)
    (h : q'.deqPtr = q.deqPtr) : p.rank S q' = p.rank S q := by
  unfold Producer.rank
  rw [h]

theorem Producer.lag_le (p : Producer S.N) (basis : Fin S.N) : p.lag S basis ≤ 7 := by
  unfold Producer.lag
  split <;> omega

/-- The consumer's moves may make a limit useless. -/
theorem Producer.rank_le (q q' : SimpleSyncQueue S.N) (p : Producer S.N) :
    p.rank S q' ≤ p.rank S q + 7 := by
  have hlag := p.lag_le q'.deqPtr
  unfold Producer.rank
  split <;> omega

/-! ## The rank of the consumer -/

/-- How far it is to the next column, from inside of a check. An occupied slot ends the polling. -/
def CheckPc.offset {N : Nat} (content : Fin N → Int) : CheckPc N → Nat
  | .index => 12
  | .read _ => 11
  | .spinIndex => 10
  | .spin k => if content k = alreadyConsumed then 10 else 9
  | .againIndex => 8
  | .again _ => 7
  | .clearIndex => 6
  | .clear _ => 5
  | .moveIndex => 4
  | .move _ => 3

/-- More than the steps of a row. -/
def Setup.consumerRow (S : Setup) : Nat := 20 * S.dims.cols + 20

/-- Rows and columns that are left. -/
def Consumer.left (S : Setup) (c : Consumer S.N) : Nat :=
  (S.dims.rows - (c.i + 1)) * S.consumerRow + 20 * (S.dims.cols - c.j)

def Consumer.rank (S : Setup) (q : SimpleSyncQueue S.N) (c : Consumer S.N) : Nat :=
  match c.pc with
  | .row => (S.dims.rows - c.i) * S.consumerRow + 1
  | .column => c.left S + 14
  | .multiply => c.left S + 13
  | .check e => c.left S + e.offset q.content
  | .awaitCheck => (S.dims.rows - (c.i + 1)) * S.consumerRow + 5
  | .readVolatile => (S.dims.rows - (c.i + 1)) * S.consumerRow + 4
  | .flagStore => (S.dims.rows - (c.i + 1)) * S.consumerRow + 3
  | .resultStore => (S.dims.rows - (c.i + 1)) * S.consumerRow + 2
  | .done | .softError _ | .wrong => 0

/-- A consumer that does not wait lowers its rank, by more than a useless limit costs the producer
when it moves `deqPtr`. -/
theorem Consumer.Ok.rank_lt {q q' : SimpleSyncQueue S.N} {c c' : Consumer S.N}
    {evs : List (Event S.N)} (h : c.Ok S q) (hw : ¬ c.Spinning q)
    (hs : Consumer.Step S q c q' c' evs) :
    c'.rank S q' < c.rank S q ∧
      (q'.deqPtr = q.deqPtr ∨ c'.rank S q' + 7 < c.rank S q) := by
  obtain ⟨pc, i, j, v, cnt, res⟩ := c
  obtain ⟨hdeq, hpc⟩ := h
  cases hs with
  | row hp hlt =>
    cases hp
    simp only [Consumer.rank, Consumer.left]
    rw [S.rows_left hlt]
    simp only [Setup.consumerRow]
    exact ⟨by omega, .inl trivial⟩
  | finish hp =>
    cases hp
    simp only [Consumer.rank]
    exact ⟨by omega, .inl trivial⟩
  | column hp | rowEnd hp =>
    cases hp
    simp only [Consumer.rank, Consumer.left]
    exact ⟨by omega, .inl trivial⟩
  | multiply hp =>
    cases hp
    simp only [Consumer.rank, Consumer.left, CheckPc.offset]
    exact ⟨by omega, .inl trivial⟩
  | index e e' hp hindex =>
    cases hp
    cases hindex with
    | spin =>
      -- the slot is occupied, else the thread would wait
      have hfull : ¬ q.content q.deqPtr = alreadyConsumed := hw
      simp only [Consumer.rank, Consumer.left, CheckPc.offset, if_neg hfull]
      exact ⟨by omega, .inl trivial⟩
    | read | again | clear | move =>
      simp only [Consumer.rank, Consumer.left, CheckPc.offset]
      exact ⟨by omega, .inl trivial⟩
  | empty k hp =>
    cases hp
    simp only [Consumer.rank, Consumer.left, CheckPc.offset]
    exact ⟨by omega, .inl trivial⟩
  | isMatch k hk =>
    rcases hk with hk | hk <;> cases hk <;> simp only <;> split <;>
      simp only [Consumer.rank, Consumer.left, CheckPc.offset] <;>
      exact ⟨by omega, .inl trivial⟩
  | mismatch k hk =>
    rcases hk with hk | hk <;> cases hk <;>
      simp only [Consumer.rank, Consumer.left, CheckPc.offset] <;>
      exact ⟨by omega, .inl trivial⟩
  | spin k hp hempty =>
    cases hp
    obtain ⟨hi, hj, hv, hk⟩ := hpc
    simp only at hk
    subst hk
    exact absurd ((congrArg q.content hdeq).trans hempty) hw
  | wake k hp hfull =>
    cases hp
    simp only [Consumer.rank, Consumer.left, CheckPc.offset, if_neg hfull]
    exact ⟨by omega, .inl trivial⟩
  | clear k hp =>
    cases hp
    simp only [Consumer.rank, Consumer.left, CheckPc.offset]
    exact ⟨by omega, .inl trivial⟩
  | move k hp =>
    cases hp
    obtain ⟨hi, hj, -⟩ := hpc
    simp only [Consumer.rank, Consumer.left, CheckPc.offset] at hj ⊢
    exact ⟨by omega, .inr (by omega)⟩
  | await hp hone =>
    cases hp
    exact absurd hone hw
  | asked hp | verify hp | flagStore hp =>
    cases hp
    simp only [Consumer.rank]
    exact ⟨by omega, .inl trivial⟩
  | volatileError hp =>
    cases hp
    simp only [Consumer.rank]
    exact ⟨by omega, .inl trivial⟩
  | resultStore hp =>
    cases hp
    simp only [Consumer.rank]
    exact ⟨by omega, .inl trivial⟩

theorem Consumer.rank_congr {q q' : SimpleSyncQueue S.N} (c : Consumer S.N)
    (h : q'.content = q.content) : c.rank S q' = c.rank S q := by
  unfold Consumer.rank
  rw [h]

/-- A store of the producer may take the occupied slot away from a polling consumer. -/
theorem Consumer.rank_le (q q' : SimpleSyncQueue S.N) (c : Consumer S.N) :
    c.rank S q' ≤ c.rank S q + 1 := by
  have hcheck (e : CheckPc S.N) : e.offset q'.content ≤ e.offset q.content + 1 := by
    cases e with
    | spin k =>
      simp only [CheckPc.offset]
      split <;> split <;> omega
    | _ => exact Nat.le_succ _
  unfold Consumer.rank
  split <;> try omega
  · next e _ =>
    have := hcheck e
    omega

/-! ## Polling -/

/-- A producer that waits changes nothing. -/
theorem Producer.Spinning.step {q q' : SimpleSyncQueue S.N} {p p' : Producer S.N}
    {evs : List (Event S.N)} (h : p.Spinning q) (hs : Producer.Step S q p q' p' evs) :
    q' = q ∧ p' = p := by
  obtain ⟨pc, i, j, v, nl, ld, ne, cnt, res⟩ := p
  cases hs with
  | enqueueWait n hp | slotTaken hp | deqWait hp | await hp =>
    cases hp
    exact ⟨rfl, rfl⟩
  | enqueueRoom n hp hfree | slotFree hp hfree =>
    cases hp
    exact absurd hfree h
  | deqMoved hp hne =>
    rcases hp with hp | hp <;> cases hp
    · exact h.elim
    · exact absurd h hne
  | checked hp hset =>
    cases hp
    exact absurd h hset
  | row hp | finish hp | column l hp | loopEnd l hp | multiply l hp | index l hp | put l k hp
  | advanceIndex l hp | advance l k hp | enqueueNext hp | enqueueIndex n hp | enqueuePut n k hp
  | publish n hp | nextEnq hp | deqSame hp | readDeq hp | testLimit hp | growLimit ge free hp
  | upToLimit hp | left hp | volatileStore hp | flagStore hp | resultStore newLimit hp
  | resultImproved hp | resetDeq hp =>
    cases hp
    exact h.elim

/-- A consumer that waits goes round in its loop. -/
theorem Consumer.Spinning.step {q q' : SimpleSyncQueue S.N} {c c' : Consumer S.N}
    {evs : List (Event S.N)} (hc : c.Ok S q) (h : c.Spinning q)
    (hs : Consumer.Step S q c q' c' evs) :
    q' = q ∧ c'.rank S q = c.rank S q ∧ c'.Spinning q := by
  obtain ⟨pc, i, j, v, cnt, res⟩ := c
  obtain ⟨hdeq, hpc⟩ := hc
  cases hs with
  | index e e' hp hindex =>
    cases hp
    cases hindex with
    | spin =>
      have hempty : q.content q.deqPtr = alreadyConsumed := h
      simp only [Consumer.rank, Consumer.left, CheckPc.offset, if_pos hempty, true_and]
      exact h
    | read | again | clear | move => exact h.elim
  | spin k hp hempty =>
    cases hp
    simp only [Consumer.rank, Consumer.left, CheckPc.offset, if_pos hempty, true_and]
    exact h
  | wake k hp hfull =>
    cases hp
    obtain ⟨hi, hj, hv, hk⟩ := hpc
    simp only at hk
    subst hk
    exact absurd ((congrArg q.content hdeq.symm).trans h) hfull
  | await hp =>
    cases hp
    exact ⟨rfl, rfl, h⟩
  | asked hp hone =>
    cases hp
    exact absurd h hone
  | isMatch k hk | mismatch k hk => rcases hk with hk | hk <;> cases hk <;> exact h.elim
  | row hp | finish hp | column hp | rowEnd hp | multiply hp | empty k hp | clear k hp | move k hp
  | volatileError hp | verify hp | flagStore hp | resultStore hp =>
    cases hp
    exact h.elim

/-! ## Both threads -/

/-- The consumer is in a SOFT ERROR exit. -/
def Reported (s : S.State) : Prop := ∃ e, s.snd.pc = .softError e

/-- Nothing more will happen. -/
def Ended (s : S.State) : Prop :=
  (s.fst.pc = .done ∧ s.snd.pc = .done) ∨ Reported s ∨ Deadlocked s

/-- The thread is done or waits. -/
def Idle (i : Side) (s : S.State) : Prop :=
  match i with
  | .fst => s.fst.pc = .done ∨ s.fst.Spinning s.mem
  | .snd => s.snd.pc = .done ∨ s.snd.Spinning s.mem

theorem producer_exec {q : SimpleSyncQueue S.N} {p : Producer S.N} (hd : p.pc ≠ .done)
    (hw : p.pc ≠ .wrong) :
    ∃ q' p' evs, (producer S.dims S.freq S.producerCalc p).exec q = some (q', p', evs) := by
  obtain ⟨pc, i, j, v, nl, ld, ne, cnt, res⟩ := p
  cases pc with
  | done => exact absurd rfl hd
  | wrong => exact absurd rfl hw
  | row | column l | testCols | resultStore =>
    simp only [producer]
    split <;> exact ⟨_, _, _, rfl⟩
  | enqueue e => cases e <;> exact ⟨_, _, _, rfl⟩
  | _ => exact ⟨_, _, _, rfl⟩

theorem consumer_exec {q : SimpleSyncQueue S.N} {c : Consumer S.N} (hd : c.pc ≠ .done)
    (hw : c.pc ≠ .wrong) (he : ∀ e, c.pc ≠ .softError e) :
    ∃ q' c' evs, (consumer S.dims S.freq S.consumerCalc c).exec q = some (q', c', evs) := by
  obtain ⟨pc, i, j, v, cnt, res⟩ := c
  cases pc with
  | done => exact absurd rfl hd
  | wrong => exact absurd rfl hw
  | softError e => exact absurd rfl (he e)
  | row | column =>
    simp only [consumer]
    split <;> exact ⟨_, _, _, rfl⟩
  | check e =>
    rw [consumer_check _ rfl]
    cases e <;> exact ⟨_, _, _, rfl⟩
  | _ => exact ⟨_, _, _, rfl⟩

theorem Producer.Ok.not_wrong {q : SimpleSyncQueue S.N} {p : Producer S.N} (h : p.Ok S q) :
    p.pc ≠ .wrong := by
  intro hpc
  have hfalse := h.2
  simp only [hpc] at hfalse

theorem Consumer.Ok.not_wrong {q : SimpleSyncQueue S.N} {c : Consumer S.N} (h : c.Ok S q) :
    c.pc ≠ .wrong := by
  intro hpc
  have hfalse := h.2
  simp only [hpc] at hfalse

theorem Producer.Ok.row_lt {q : SimpleSyncQueue S.N} {p : Producer S.N} (h : p.Ok S q)
    (hsp : p.Spinning q) : p.i < S.dims.rows := by
  obtain ⟨pc, i, j, v, nl, ld, ne, cnt, res⟩ := p
  obtain ⟨-, hpc⟩ := h
  cases pc with
  | awaitSlot | awaitDeq | awaitCheck => exact hpc.1
  | enqueue e =>
    cases e with
    | await n => exact hpc.1
    | _ => exact hsp.elim
  | _ => exact hsp.elim

theorem Consumer.Ok.row_lt {q : SimpleSyncQueue S.N} {c : Consumer S.N} (h : c.Ok S q)
    (hsp : c.Spinning q) : c.i < S.dims.rows := by
  obtain ⟨pc, i, j, v, cnt, res⟩ := c
  obtain ⟨-, hpc⟩ := h
  cases pc with
  | check e => exact hpc.1
  | awaitCheck => exact hpc.1
  | _ => exact hsp.elim

/-- No thread waits for one that has finished. -/
theorem Inv.ended_of_idle {s : S.State} (h : Inv S s) (hp : Idle .fst s) (hc : Idle .snd s) :
    Ended s := by
  obtain ⟨q, p, c⟩ := s
  have hpi := h.fst.2
  have hci := h.snd.2
  rcases hp with hp | hp <;> rcases hc with hc | hc
  · exact .inl ⟨hp, hc⟩
  · have hsync := h.working (by simp only at hp; simp [hp])
    have hack := (h.snd.spinning hc).1
    have hlt := h.snd.row_lt hc
    simp only at hp hsync hack hlt hpi
    simp only [Producer.requested, hp] at hsync hpi
    omega
  · have hlt := h.fst.row_lt hp
    simp only at hc hlt hci
    simp only [hc] at hci
    rcases h.fst.spinning hp with ⟨hpc, -⟩ | ⟨hpc, -⟩ | ⟨hpc, hflag, -⟩
    · have hsync := h.working
        (by rcases hpc with hpc | ⟨n, hpc⟩ <;> simp only at hpc <;> simp [hpc])
      rcases hpc with hpc | ⟨n, hpc⟩ <;> simp only at hpc <;>
        simp only [Producer.requested, Consumer.acked, hpc, hc] at hsync <;> omega
    · have hsync := h.working (by simp only at hpc; simp [hpc])
      simp only at hpc
      simp only [Producer.requested, Consumer.acked, hpc, hc] at hsync
      omega
    · have hsync := h.requested_eq hflag
      simp only at hpc
      simp only [Producer.requested, Consumer.acked, hpc, hc] at hsync
      omega
  · exact .inr (.inr ⟨hp, hc⟩)

/-! ## What the rank relies on -/

/-- Only the producer moves `enqPtr`. -/
theorem chosen {tr : List (Event S.N)} {s : S.State} (hS : S.Replicated)
    (h : S.system.Runs tr s) : ∀ ge, s.fst.pc = .growLimit ge →
      ge = decide (s.fst.localDeqPtr.val ≤ s.mem.enqPtr.val) := by
  refine h.rule (I := fun _ s => ∀ ge, s.fst.pc = .growLimit ge →
    ge = decide (s.fst.localDeqPtr.val ≤ s.mem.enqPtr.val)) ?_ ?_
  · intro ge hpc
    rw [(Setup.start_pc hS).1] at hpc
    cases hpc
  · intro i tr s s' evs _ ih _ hs ge hpc
    obtain ⟨q', p', rfl, rfl, hx⟩ | ⟨q', c', rfl, rfl, hx⟩ := Setup.step_cases hs
    · cases producer_cases hx with
      | testLimit => cases hpc; rfl
      | multiply l => cases l <;> cases hpc
      | loopEnd l =>
        cases l with
        | upToLimit =>
          simp only [afterLoop] at hpc
          split at hpc <;> cases hpc
        | left | all => cases hpc
      | _ => cases hpc
    · have hold := ih ge hpc
      cases consumer_cases hx <;> exact hold

theorem batched (hS : S.Replicated) {tr : List (Event S.N)} {s : S.State}
    (h : S.system.Runs tr s) : s.fst.Batched S s.mem where
  chosen := chosen hS h
  remembered hpc himp := by
    have hcr := (windowed himp h).credit
    have hl := (refines hS h).1.fst.2
    rcases hpc with hpc | hpc <;> simp only [HasCredit, Producer.Credit, hpc] at hcr <;>
      exact hcr.2.remembered himp
  probes hpc himp := by
    have hcr := (windowed himp h).credit
    simp only [HasCredit, Producer.Credit, hpc] at hcr
    rw [himp] at hcr
    exact absurd hcr.1 (by decide)

/-! ## Fair schedules -/

theorem live (hS : S.Replicated) : Live S.system id Ended
    (fun s => s.fst.rank S s.mem + s.snd.rank S s.mem) Idle where
  work := by
    intro i _ s hr hend hwork
    obtain ⟨tr, hruns⟩ := hr
    have hinv := (refines hS hruns).1
    have hno : ∀ e, s.snd.pc ≠ .softError e := fun e he => hend (.inr (.inl ⟨e, he⟩))
    cases i with
    | fst =>
      obtain ⟨hd, hsp⟩ := not_or.mp hwork
      obtain ⟨q', p', evs, hx⟩ := producer_exec (q := s.mem) hd hinv.fst.not_wrong
      refine ⟨_, evs, Program.step_fst hx (consumer_isExit hinv.snd.not_wrong hno), ?_⟩
      obtain ⟨hlt, hstore⟩ := hinv.fst.rank_lt (batched hS hruns) hsp (producer_cases hx)
      dsimp only
      rcases hstore with hcontent | hlt2
      · have hsnd := s.snd.rank_congr hcontent
        omega
      · have hsnd := s.snd.rank_le s.mem q'
        omega
    | snd =>
      obtain ⟨hd, hsp⟩ := not_or.mp hwork
      obtain ⟨q', c', evs, hx⟩ := consumer_exec (q := s.mem) hd hinv.snd.not_wrong hno
      refine ⟨_, evs, Program.step_snd hx (producer_isExit hinv.fst.not_wrong), ?_⟩
      obtain ⟨hlt, hmove⟩ := hinv.snd.rank_lt hsp (consumer_cases hx)
      dsimp only
      rcases hmove with hdeq | hlt7
      · have hfst := s.fst.rank_congr hdeq
        omega
      · have hfst := s.fst.rank_le s.mem q'
        omega
  wait := by
    intro i _ s s' evs hr _ hidle hs
    obtain ⟨tr, hruns⟩ := hr
    have hinv := (refines hS hruns).1
    obtain ⟨q', p', rfl, rfl, hx⟩ | ⟨q', c', rfl, rfl, hx⟩ := Setup.step_cases hs
    · rcases hidle with hd | hsp
      · simp only [producer, hd] at hx
        cases hx
      · obtain ⟨rfl, rfl⟩ := hsp.step (producer_cases hx)
        exact .inr ⟨rfl, fun _ => id⟩
    · have hidle' : Idle .snd s := hidle
      rcases hidle with hd | hsp
      · simp only [consumer, hd] at hx
        cases hx
      · obtain ⟨rfl, hrank, -⟩ := hsp.step hinv.snd (consumer_cases hx)
        refine .inr ⟨by dsimp only; omega, fun k hk => ?_⟩
        cases k with
        | fst => exact hk
        | snd => exact hidle'
  exists_working := by
    intro _ _ s hr hend
    obtain ⟨tr, hruns⟩ := hr
    by_contra hno
    refine hend ((refines hS hruns).1.ended_of_idle ?_ ?_)
    · by_contra hp
      exact hno ⟨.fst, hp⟩
    · by_contra hc
      exact hno ⟨.snd, hc⟩

theorem Ended.step (hS : S.Replicated) {i : Side} {s s' : S.State} {evs : List (Event S.N)}
    (hr : S.system.Reachable s) (h : Ended s) (hs : S.system.step i s = some (s', evs)) :
    Ended s' := by
  obtain ⟨tr, hruns⟩ := hr
  have hinv := (refines hS hruns).1
  rcases h with ⟨hp, hc⟩ | ⟨e, he⟩ | ⟨hp, hc⟩
  · obtain ⟨q', p', rfl, rfl, hx⟩ | ⟨q', c', rfl, rfl, hx⟩ := Setup.step_cases hs
    · simp only [producer, hp] at hx
      cases hx
    · simp only [consumer, hc] at hx
      cases hx
  · -- the process has ended
    have hexit : (consumer S.dims S.freq S.consumerCalc s.snd).isExit = true := by
      simp only [consumer, he]
      rfl
    have hex : S.program.exited s = true := by
      unfold Program.exited
      rw [show (S.program.snd s.snd).isExit = true from hexit, Bool.or_true]
    cases (Program.step_of_exited hex).symm.trans hs
  · obtain ⟨q', p', rfl, rfl, hx⟩ | ⟨q', c', rfl, rfl, hx⟩ := Setup.step_cases hs
    · obtain ⟨rfl, rfl⟩ := hp.step (producer_cases hx)
      exact .inr (.inr ⟨hp, hc⟩)
    · obtain ⟨rfl, -, hc'⟩ := hc.step hinv.snd (consumer_cases hx)
      exact .inr (.inr ⟨hp, hc'⟩)

end TsxProject
