import TsxProject.VectorMatrix.Refinement

/-!
# The credit of the producer

How far the producer may store without looking at the queue again. In the two RHT modes `newLimit`
is a credit computed from pointers that are slots, in `RHT_Volatiles` after a probe of
`content[(enqPtr + 1) % N]`, and the consumer moves on while it is computed. `Producer.Credit` says
what the registers are worth in entries, at each point of the program.

It is stated against `moved` and `cleared` of the consumer and stays true when these grow
(`Producer.Credit.mono`), so the consumer's steps need no argument.
-/

namespace TsxProject

open Infra Infra.Ring

variable {S : Setup}

/-- The credit a row starts with. -/
def Setup.window (S : Setup) : Nat := if S.freq = .rhtVolatilesImproved then S.N - 1 else S.N

theorem Setup.window_le (S : Setup) : S.window ≤ S.N := by
  unfold Setup.window
  split <;> omega

theorem Setup.le_window_succ (S : Setup) : S.N ≤ S.window + 1 := by
  unfold Setup.window
  split <;> omega

/-- The limit of the batch in row `i`. The mode without probe remembers the slot of `deqPtr` it
was computed from. -/
structure Limit (S : Setup) (i newLimit : Nat) (localDeqPtr : Fin S.N) (moved : Nat) : Prop where
  le : i * S.dims.cols + newLimit ≤ moved + S.window
  ge : S.window ≤ newLimit
  remembered : S.freq = .rhtVolatilesImproved →
    localDeqPtr = slot (i * S.dims.cols + newLimit + 1)

theorem Limit.mono {i newLimit moved moved' : Nat} {localDeqPtr : Fin S.N}
    (h : Limit S i newLimit localDeqPtr moved) (hm : moved ≤ moved') :
    Limit S i newLimit localDeqPtr moved' :=
  ⟨by have := h.le; omega, h.ge, h.remembered⟩

/-- The value of `deqPtr` that a new limit is computed from, `d` being its entry count. -/
def Basis (S : Setup) (i newLimit : Nat) (localDeqPtr : Fin S.N) (moved : Nat) : Prop :=
  ∃ d, d ≤ moved ∧ localDeqPtr = slot d ∧ i * S.dims.cols + newLimit < d + S.N ∧
    S.window ≤ newLimit

theorem Basis.mono {i newLimit moved moved' : Nat} {localDeqPtr : Fin S.N}
    (h : Basis S i newLimit localDeqPtr moved) (hm : moved ≤ moved') :
    Basis S i newLimit localDeqPtr moved' := by
  obtain ⟨d, hd, hl, hlt, hw⟩ := h
  exact ⟨d, by omega, hl, hlt, hw⟩

/-- The columns a loop may still store. -/
def LoopCredit (S : Setup) (i newLimit : Nat) (localDeqPtr : Fin S.N) (moved : Nat) :
    ColumnLoop → Prop
  | .upToLimit => S.freq ≠ .volatile ∧ Limit S i newLimit localDeqPtr moved
  | .left => S.freq ≠ .volatile ∧ i * S.dims.cols + S.dims.cols ≤ moved + S.window
  | .all => S.freq = .volatile

/-- What the producer may rely on, the consumer having moved past `moved` entries and cleared
`cleared` of them. -/
def Producer.Credit (S : Setup) (p : Producer S.N) (moved cleared : Nat) : Prop :=
  match p.pc with
  | .row =>
    S.freq ≠ .volatile → p.newLimit = S.window ∧
      (S.freq = .rhtVolatilesImproved → p.localDeqPtr = slot (p.i * S.dims.cols))
  | .column l | .multiply l => LoopCredit S p.i p.newLimit p.localDeqPtr moved l
  | .index l | .put l _ | .advanceIndex l | .advance l _ =>
    l ≠ .all ∧ LoopCredit S p.i p.newLimit p.localDeqPtr moved l
  | .enqueue (.index _) | .enqueue (.put _ _) =>
    S.freq = .volatile ∧ p.i * S.dims.cols + p.j + 1 < cleared + S.N
  | .enqueue _ => S.freq = .volatile
  | .nextEnq | .awaitSlot =>
    S.freq = .rhtVolatiles ∧ Limit S p.i p.newLimit p.localDeqPtr moved
  | .testDeq | .awaitDeq =>
    S.freq = .rhtVolatilesImproved ∧ Limit S p.i p.newLimit p.localDeqPtr moved
  | .readDeq =>
    S.freq ≠ .volatile ∧ p.i * S.dims.cols + p.newLimit < moved + S.N ∧ S.window ≤ p.newLimit
  | .testLimit => S.freq ≠ .volatile ∧ Basis S p.i p.newLimit p.localDeqPtr moved
  | .growLimit ge =>
    S.freq ≠ .volatile ∧ Basis S p.i p.newLimit p.localDeqPtr moved ∧
      ge = decide (p.localDeqPtr.val ≤ (slot (p.i * S.dims.cols + p.newLimit) : Fin S.N).val)
  | .testCols => S.freq ≠ .volatile ∧ Limit S p.i p.newLimit p.localDeqPtr moved
  | .resetDeq => S.freq = .rhtVolatilesImproved ∧ p.newLimit = S.window
  | .volatileStore | .flagStore | .awaitCheck | .resultStore | .done | .wrong => True

theorem LoopCredit.mono {i newLimit moved moved' : Nat} {localDeqPtr : Fin S.N} {l : ColumnLoop}
    (h : LoopCredit S i newLimit localDeqPtr moved l) (hm : moved ≤ moved') :
    LoopCredit S i newLimit localDeqPtr moved' l := by
  cases l with
  | upToLimit => exact ⟨h.1, h.2.mono hm⟩
  | left => exact ⟨h.1, by have := h.2; omega⟩
  | all => exact h

/-- The consumer's progress does no harm. -/
theorem Producer.Credit.mono {p : Producer S.N} {moved moved' cleared cleared' : Nat}
    (h : p.Credit S moved cleared) (hm : moved ≤ moved') (hc : cleared ≤ cleared') :
    p.Credit S moved' cleared' := by
  obtain ⟨pc, i, j, v, nl, ld, ne, cnt, res⟩ := p
  cases pc with
  | column l | multiply l => exact LoopCredit.mono h hm
  | index l | put l k | advanceIndex l | advance l k => exact ⟨h.1, h.2.mono hm⟩
  | enqueue e =>
    cases e with
    | index n | put n k =>
      obtain ⟨hf, hlt⟩ := h
      exact ⟨hf, by simp only at hlt ⊢; omega⟩
    | next | await n | publish n => exact h
  | nextEnq | awaitSlot | testDeq | awaitDeq | testCols => exact ⟨h.1, h.2.mono hm⟩
  | readDeq =>
    obtain ⟨hf, hlt, hw⟩ := h
    exact ⟨hf, by simp only at hlt ⊢; omega, hw⟩
  | testLimit => exact ⟨h.1, h.2.mono hm⟩
  | growLimit ge => exact ⟨h.1, h.2.1.mono hm, h.2.2⟩
  | row | resetDeq => exact h
  | volatileStore | flagStore | awaitCheck | resultStore | done | wrong => trivial

/-- The limit that `newLimit += …` computes: it brings the producer up to the slot it read from
`deqPtr`, or one slot before. -/
theorem Basis.limit {i newLimit moved : Nat} {localDeqPtr : Fin S.N}
    (h : Basis S i newLimit localDeqPtr moved) :
    Limit S i
      (newLimit + (if S.freq = .rhtVolatilesImproved
        then room (slot (i * S.dims.cols + newLimit)) localDeqPtr - 1
        else room (slot (i * S.dims.cols + newLimit)) localDeqPtr)) localDeqPtr moved := by
  obtain ⟨d, hd, rfl, hlt, hw⟩ := h
  have hpos := room_pos (slot (i * S.dims.cols + newLimit) : Fin S.N) (slot d)
  have hle := add_room_le (N := S.N) hlt
  have hslot := slot_add_room (N := S.N) (i * S.dims.cols + newLimit) d
  by_cases himp : S.freq = .rhtVolatilesImproved
  · have hwin : S.window = S.N - 1 := if_pos himp
    simp only [himp, if_true]
    refine ⟨by rw [hwin]; omega, by omega, ?_⟩
    intro _
    have hsum : i * S.dims.cols +
        (newLimit + (room (slot (i * S.dims.cols + newLimit) : Fin S.N) (slot d) - 1)) + 1 =
          i * S.dims.cols + newLimit +
            room (slot (i * S.dims.cols + newLimit) : Fin S.N) (slot d) := by
      omega
    rw [hsum, hslot]
  · have hwin : S.window = S.N := if_neg himp
    simp only [himp, if_false]
    exact ⟨by rw [hwin]; omega, by omega, fun h => absurd h himp⟩

/-- The credit of a new row: the consumer has moved past all earlier ones. -/
theorem Limit.start {i newLimit moved : Nat} {localDeqPtr : Fin S.N} (hnl : newLimit = S.window)
    (hld : S.freq = .rhtVolatilesImproved → localDeqPtr = slot (i * S.dims.cols))
    (hrow : i * S.dims.cols ≤ moved) : Limit S i newLimit localDeqPtr moved := by
  subst hnl
  refine ⟨Nat.add_le_add_right hrow _, Nat.le_refl _, ?_⟩
  intro himp
  have hpos : 1 ≤ S.N := Nat.pos_of_neZero _
  have hwin : S.window = S.N - 1 := if_pos himp
  rw [hld himp, hwin, Nat.add_assoc, Nat.sub_add_cancel hpos, slot_add_size]

/-! ## Steps of the producer -/

/--
The producer's own steps keep its credit. A row starts when the consumer has moved past all earlier
rows (`hrow`), and what the probes of the content are worth is an assumption here (`hprobe`); it
depends on the state of the queue.
-/
theorem Producer.Credit.step (hS : S.Replicated) {q q' : SimpleSyncQueue S.N}
    {p p' : Producer S.N} {evs : List (Event S.N)} {moved cleared : Nat} (hp : p.Ok S q)
    (h : p.Credit S moved cleared) (hdeq : q.deqPtr = slot moved)
    (hrow : p.pc = .row → p.i * S.dims.cols ≤ moved) (hcl : cleared ≤ moved + 1)
    (hprobe : S.freq ≠ .rhtVolatilesImproved →
      q.content (slot (p.written S.dims + 1)) = alreadyConsumed →
      p.written S.dims + 1 < cleared + S.N)
    (hs : Producer.Step S q p q' p' evs) : p'.Credit S moved cleared := by
  obtain ⟨pc, i, j, v, nl, ld, ne, cnt, res⟩ := p
  have hwle := S.window_le
  have hwge := S.le_window_succ
  obtain ⟨henq, hpc⟩ := hp
  simp only at hrow hprobe
  cases hs with
  | row hp =>
    cases hp
    by_cases hf : S.freq = .volatile
    · simp [Producer.Credit, LoopCredit, hf]
    · obtain ⟨hnl, hld⟩ := h hf
      simp only [hf, if_false]
      exact ⟨hf, Limit.start hnl hld (hrow rfl)⟩
  | finish | volatileStore | flagStore | await | checked => trivial
  | column l hp =>
    cases hp
    exact h
  | loopEnd l hp =>
    cases hp
    cases l with
    | upToLimit =>
      simp only [afterLoop]
      split
      · next himp => exact ⟨himp, h.2⟩
      · next himp => exact ⟨(hS.resolve_left h.1).resolve_right himp, h.2⟩
    | left | all => trivial
  | multiply l hp =>
    cases hp
    cases l with
    | upToLimit | left => exact ⟨by decide, h⟩
    | all => exact h
  | index l hp | put l k hp | advanceIndex l hp =>
    cases hp
    exact h
  | advance l k hp =>
    cases hp
    exact h.2
  | enqueueNext hp | enqueueWait n hp | enqueueIndex n hp | publish n hp | nextEnq hp =>
    cases hp
    exact h
  | enqueueRoom n hp hfree =>
    cases hp
    obtain ⟨hi, hj, hv, hn⟩ := hpc
    simp only at hn
    subst hn
    have hf : S.freq = .volatile := h
    exact ⟨hf, hprobe (by simp [hf]) hfree⟩
  | enqueuePut n k hp =>
    cases hp
    exact h.1
  | slotTaken hp =>
    cases hp
    exact h
  | slotFree hp hfree =>
    cases hp
    obtain ⟨hi, hj, hv, hl, hn⟩ := hpc
    obtain ⟨hf, hlim⟩ := h
    simp only at hl hn
    subst hl hn
    -- the probed slot is free; the slot before it, which the producer stores in, need not be
    have hroom := hprobe (by simp [hf]) hfree
    simp only [Producer.written, Producer.entry] at hroom
    exact ⟨by simp [hf], by simp only; omega, hlim.ge⟩
  | deqSame hp | deqWait hp =>
    cases hp
    exact h
  | deqMoved hp =>
    have hwait : S.freq = .rhtVolatilesImproved ∧ Limit S i nl ld moved := by
      rcases hp with hp | hp <;> cases hp <;> exact h
    obtain ⟨hf, hlim⟩ := hwait
    have hwin : S.window = S.N - 1 := if_pos hf
    have hle := hlim.le
    have hpos := Nat.pos_of_neZero S.N
    exact ⟨by simp [hf], by simp only; omega, hlim.ge⟩
  | readDeq hp =>
    -- from here on the consumer may move past the value that was read
    cases hp
    exact ⟨h.1, moved, Nat.le_refl _, hdeq, h.2⟩
  | testLimit hp =>
    cases hp
    obtain ⟨hi, hj, hv, hl⟩ := hpc
    simp only at hl
    subst hl
    refine ⟨h.1, h.2, ?_⟩
    simp only [henq, Producer.entry]
  | growLimit ge free hp hfree =>
    -- `enqPtr` is loaded again, but only this thread moves it
    cases hp
    obtain ⟨hi, hj, hv, hl⟩ := hpc
    simp only at hl
    subst hl hfree
    obtain ⟨hf, hbase, hge⟩ := h
    simp only at hbase hge
    refine ⟨hf, ?_⟩
    have hlim := hbase.limit
    simp only [hge, decide_eq_true_eq]
    rw [henq]
    exact hlim
  | upToLimit hp =>
    cases hp
    exact h
  | left hp hge =>
    cases hp
    obtain ⟨hf, hlim⟩ := h
    have hle := hlim.le
    exact ⟨hf, by simp only at hle hge ⊢; omega⟩
  | resultStore newLimit hp himp hnl =>
    refine fun hvol => ⟨?_, fun hc => absurd hc himp⟩
    rw [if_pos ((hS.resolve_left hvol).resolve_right himp)] at hnl
    exact hnl.trans (if_neg himp).symm
  | resultImproved hp himp => exact ⟨himp, (if_pos himp).symm⟩
  | resetDeq hp =>
    cases hp
    obtain ⟨hi, hj, hv, hl⟩ := hpc
    simp only at hj
    subst hj
    refine fun _ => ⟨h.2, fun _ => ?_⟩
    simp only [Nat.succ_mul]
    exact henq

/-- The room the credit leaves when the producer stores. -/
theorem Producer.Credit.room {q : SimpleSyncQueue S.N} {p : Producer S.N} {moved cleared : Nat}
    (hp : p.Ok S q) (h : p.Credit S moved cleared) (hst : p.Stores) :
    (S.freq = .volatile → p.written S.dims + 1 < cleared + S.N) ∧
      (S.freq ≠ .volatile → p.written S.dims < moved + S.window) := by
  obtain ⟨pc, i, j, v, nl, ld, ne, cnt, res⟩ := p
  cases pc with
  | put l k =>
    obtain ⟨-, hi, hj, hv, hl, hk⟩ := hp
    simp only at hj hl
    cases l with
    | upToLimit =>
      have hle := h.2.2.le
      simp only at hle
      exact ⟨fun hf => absurd hf h.2.1, fun _ => by
        have := (hl rfl).2
        simp only [Producer.written, Producer.entry]
        omega⟩
    | left =>
      have hle := h.2.2
      simp only at hle
      exact ⟨fun hf => absurd hf h.2.1, fun _ => by
        simp only [Producer.written, Producer.entry]
        omega⟩
    | all => exact absurd rfl h.1
  | enqueue e =>
    cases e with
    | put n k => exact ⟨fun _ => h.2, fun hne => absurd h.1 hne⟩
    | next | await n | index n | publish n => cases hst
  | _ => cases hst

/-! ## Both threads -/

theorem Consumer.Effect.moved_le {q q' : SimpleSyncQueue S.N} {c c' : Consumer S.N}
    {evs : List (Event S.N)} (h : Consumer.Effect S q c evs q' c') :
    c.moved S.dims ≤ c'.moved S.dims ∧ c.cleared S.dims ≤ c'.cleared S.dims := by
  show (c.progress S.dims).moved ≤ (c'.progress S.dims).moved ∧
    (c.progress S.dims).cleared ≤ (c'.progress S.dims).cleared
  cases h with
  | compare _ _ _ _ hprog =>
    rw [hprog]
    refine ⟨Nat.le_refl _, ?_⟩
    simp only [Consumer.progress]
    split <;> omega
  | clear _ _ _ _ _ hprog =>
    rw [hprog]
    exact ⟨Nat.le_refl _, Nat.le_succ _⟩
  | move _ _ hprog =>
    rw [hprog]
    exact ⟨Nat.le_succ _, Nat.le_refl _⟩
  | quiet hprog | verify _ _ _ _ _ _ hprog | ack _ _ hprog | consume _ _ hprog =>
    rw [hprog]
    exact ⟨Nat.le_refl _, Nat.le_refl _⟩

/-- The credit of the producer in a state, against the consumer's registers. -/
def HasCredit (S : Setup) (s : S.State) : Prop :=
  s.fst.Credit S (s.snd.moved S.dims) (s.snd.cleared S.dims)

theorem HasCredit.init (hS : S.Replicated) : HasCredit S S.system.init := by
  rcases hS with hf | hf | hf
  · simp [HasCredit, Setup.system, Program.system, Producer.start, Producer.Credit, hf]
  · simp [HasCredit, Setup.system, Program.system, Producer.start, Producer.Credit, Setup.window,
      hf]
  · simp [HasCredit, Setup.system, Program.system, Producer.start, Producer.Credit, Setup.window,
      hf]
    rfl

theorem HasCredit.step (hS : S.Replicated) {i : Side} {s s' : S.State} {evs : List (Event S.N)}
    (hinv : Inv S s) (hok : (view S s).Ok S.dims) (h : HasCredit S s)
    (hprobe : S.freq ≠ .rhtVolatilesImproved →
      s.mem.content (slot (s.fst.written S.dims + 1)) = alreadyConsumed →
      s.fst.written S.dims + 1 < s.snd.cleared S.dims + S.N)
    (hs : S.system.step i s = some (s', evs)) : HasCredit S s' := by
  obtain ⟨q', p', rfl, rfl, hx⟩ | ⟨q', c', rfl, rfl, hx⟩ := Setup.step_cases hs
  · refine Producer.Credit.step hS hinv.fst h hinv.snd.1 ?_ ?_ hprobe (producer_cases hx)
    · intro hpc
      have hsync := hinv.working (by simp [hpc])
      simp only [Producer.requested, hpc] at hsync
      rw [hsync]
      exact hok.acked_mul_le
    · exact Nat.le_trans hok.cleared_le hok.matched_le
  · have hle := (hinv.snd.effect (consumer_cases hx)).moved_le
    exact Producer.Credit.mono h hle.1 hle.2

end TsxProject
