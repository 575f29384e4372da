import TsxProject.Queues.SectionHandOver

/-!
# Progress of the calls of `SectionQueue`

How far a call has still to go, in terms of accesses, and what the other thread does to that.

* `enqueue` — `SectionQueue_Enqueue` for one argument
* `Pc.left` — what is left of a call
* `Caller.Ok.left_lt`, `Caller.Ok.spins` — a call goes on unless it waits, and then it stays
* `Inv.taken_le_full` — no more than the full sections can be taken
-/

namespace TsxProject

open Infra Infra.Ring

namespace SectionQueue

variable {K S : Nat} [NeZero K] [NeZero S]

/-- `SectionQueue_Enqueue(&sectionQueue, value)` -/
def enqueue (value : Int) (p : Caller K S) :
    Instr (SectionQueue K S) (Caller K S) (CallEvent K S) :=
  p.call .fst (.skip { p with pc := .awaitSection, value := value } []) fun s k =>
    .store (atContent s k) p.value { p with pc := .advanceIndex } [.accessed .fst s k p.value]

/-- It is what a caller with a list of values does. -/
theorem enqueuer_eq {vals : List Int} {value : Int} {p : Caller K S}
    (h : vals[p.n]? = some value) : enqueuer vals p = enqueue value p := by
  rw [enqueuer, h]
  rfl

variable {vals : List Int} {q q' : SectionQueue K S} {p p' c c' : Caller K S} {i : Side}
  {lim : Nat} {evs : List (CallEvent K S)}
  {start : Instr (SectionQueue K S) (Caller K S) (CallEvent K S)}
  {access : Fin K → Fin S → Instr (SectionQueue K S) (Caller K S) (CallEvent K S)}

/-! ## Returns -/

/-- A call of `SectionQueue_Enqueue` goes on or returns. -/
theorem Inv.enqueuer_returns (h : Inv vals ⟨q, p, c⟩)
    (hs : (enqueuer vals p).exec q = some (q', p', evs)) :
    (p'.pc ≠ .idle ∧ p'.n = p.n) ∨ p'.pc = .idle ∧ p'.n = p.n + 1 := by
  obtain ⟨v, n, v', rfl, rfl, -⟩ | ⟨s, k, v, n, rfl, rfl, -⟩ | ⟨-, -, -, heff⟩ :=
    h.enqueuer_cases hs
  · exact .inl ⟨by simp, rfl⟩
  · exact .inl ⟨by simp, rfl⟩
  · cases heff with
    | quiet _ hcall _ => exact .inl ⟨hcall.running, hcall.n⟩
    | handOver _ _ hcall _ _ _ => exact .inl ⟨hcall.running, hcall.n⟩
    | ret _ _ hpc _ =>
      rw [hpc]
      exact .inr ⟨rfl, rfl⟩

/-- A call of `SectionQueue_Dequeue` goes on or returns its value. -/
theorem Inv.dequeuer_returns (h : Inv vals ⟨q, p, c⟩)
    (hs : (dequeuer c).exec q = some (q', c', evs)) :
    (c'.pc ≠ .idle ∧ c'.n = c.n) ∨
      c'.pc = .idle ∧ c'.n = c.n + 1 ∧ evs = [.returned .snd c'.value] := by
  obtain ⟨v, n, rfl, rfl, -⟩ | ⟨s, k, v, n, rfl, rfl, -⟩ | ⟨-, -, heff⟩ := h.dequeuer_cases hs
  · exact .inl ⟨by simp, rfl⟩
  · exact .inl ⟨by simp, rfl⟩
  · cases heff with
    | quiet _ hcall _ => exact .inl ⟨hcall.running, hcall.n⟩
    | handOver _ _ hcall _ _ _ => exact .inl ⟨hcall.running, hcall.n⟩
    | ret _ _ hpc _ =>
      rw [hpc]
      exact .inr ⟨rfl, rfl, rfl⟩

/-! ## What is left of a call -/

/-- The section is polled in two places, which are one as long as it is not there. -/
def Pc.left (i : Side) (q : SectionQueue K S) : Pc K S → Nat
  | .idle => 13
  | .awaitSection => 12
  | .await s => if q.isReadMode s = mode i then 11 else 12
  | .accessSection => 10
  | .accessIndex _ => 9
  | .access _ _ => 8
  | .advanceIndex => 7
  | .advance _ => 6
  | .test => 5
  | .flagSection => 4
  | .flag _ => 3
  | .nextSection => 2
  | .next _ => 1

omit [NeZero K] [NeZero S] in
theorem Pc.left_pos (i : Side) (q : SectionQueue K S) (pc : Pc K S) : 0 < pc.left i q := by
  cases pc with
  | await s =>
    simp only [Pc.left]
    split <;> omega
  | _ => exact Nat.succ_pos _

/-- A call that does not wait goes on. -/
theorem Caller.Ok.left_lt (h : c.Ok i q lim) (hsp : ¬ c.Spinning i q)
    (hstart : start.exec q = some (q', c', evs) → c'.pc = .awaitSection)
    (haccess : ∀ s k, (access s k).exec q = some (q', c', evs) → c'.pc = .advanceIndex)
    (hs : (c.call i start access).exec q = some (q', c', evs)) :
    c'.pc = .idle ∨ c'.pc.left i q' < c.pc.left i q := by
  obtain ⟨pc, value, n⟩ := c
  cases pc with
  | idle =>
    rw [hstart hs]
    exact .inr (Nat.lt_succ_self _)
  | access s k =>
    rw [haccess s k hs]
    exact .inr (Nat.lt_succ_self _)
  | awaitSection =>
    cases hs
    have hflag : q.isReadMode (q.sectionOf i) = mode i := not_not.mp hsp
    have hleft : (Pc.await (q.sectionOf i) : Pc K S).left i q = 11 := if_pos hflag
    exact .inr (Nat.lt_of_le_of_lt (Nat.le_of_eq hleft) (Nat.lt_succ_self 11))
  | await s =>
    obtain rfl : s = slot (n / S) := h.regs
    have hflag : q.isReadMode (slot (n / S)) = mode i := by
      rw [← h.sec]
      exact not_not.mp hsp
    simp only [Caller.call, Instr.exec, atReadMode, hflag, if_true] at hs
    cases hs
    simp only [Pc.left, hflag, if_true]
    exact .inr (Nat.lt_succ_self 10)
  | test =>
    simp only [Caller.call, Instr.exec, atPtr] at hs
    split at hs <;> cases hs
    · exact .inr (Nat.lt_succ_self 4)
    · exact .inl rfl
  | next s =>
    cases hs
    exact .inl rfl
  | accessSection | accessIndex s | advanceIndex | advance k | flagSection | flag s
  | nextSection =>
    cases hs
    exact .inr (Nat.lt_succ_self _)

theorem Caller.Ok.enqueue_lt {v : Int} (h : p.Ok .fst q lim) (hsp : ¬ p.Spinning .fst q)
    (hs : (enqueue v p).exec q = some (q', p', evs)) :
    p'.pc = .idle ∨ p'.pc.left .fst q' < p.pc.left .fst q := by
  refine h.left_lt hsp ?_ ?_ hs
  · intro hx
    cases hx
    rfl
  · intro s k hx
    cases hx
    rfl

theorem Caller.Ok.dequeuer_lt (h : c.Ok .snd q lim) (hsp : ¬ c.Spinning .snd q)
    (hs : (dequeuer c).exec q = some (q', c', evs)) :
    c'.pc = .idle ∨ c'.pc.left .snd q' < c.pc.left .snd q := by
  refine h.left_lt hsp ?_ ?_ hs
  · intro hx
    cases hx
    rfl
  · intro s k hx
    cases hx
    rfl

/-- A call that waits stays where it is, and so does the queue. -/
theorem Caller.Ok.spins (h : c.Ok i q lim) (hsp : c.Spinning i q)
    (hs : (c.call i start access).exec q = some (q', c', evs)) :
    q' = q ∧ c'.Spinning i q ∧ c'.pc ≠ .idle ∧ c'.pc.left i q = c.pc.left i q := by
  obtain ⟨pc, value, n⟩ := c
  cases pc with
  | awaitSection =>
    cases hs
    have hflag : q.isReadMode (q.sectionOf i) ≠ mode i := hsp
    have hleft : (Pc.await (q.sectionOf i) : Pc K S).left i q = 12 := if_neg hflag
    exact ⟨rfl, hflag, by simp, hleft⟩
  | await s =>
    obtain rfl : s = slot (n / S) := h.regs
    have hflag : q.isReadMode (q.sectionOf i) ≠ mode i := hsp
    have hslot : q.isReadMode (slot (n / S)) ≠ mode i := by rwa [h.sec] at hflag
    simp only [Caller.call, Instr.exec, atReadMode, hslot, if_false] at hs
    cases hs
    refine ⟨rfl, hflag, by simp, ?_⟩
    simp only [Pc.left, hslot, if_false]
  | _ => exact hsp.elim

/-! ## What the other thread does -/

/-- A section that thread `i` may access stays so while the other thread moves. -/
def Keeps (i : Side) (q q' : SectionQueue K S) : Prop :=
  ∀ s, q.isReadMode s = mode i → q'.isReadMode s = mode i

omit [NeZero K] [NeZero S] in
theorem Keeps.left_le (h : Keeps i q q') (pc : Pc K S) : pc.left i q' ≤ pc.left i q := by
  cases pc with
  | await s =>
    simp only [Pc.left]
    by_cases hflag : q.isReadMode s = mode i
    · rw [if_pos (h s hflag), if_pos hflag]
    · rw [if_neg hflag]
      split <;> omega
  | _ => exact Nat.le_refl _

theorem Effect.keeps {j : Side} (h : Effect j lim q c q' c' evs) (hmode : (!mode j) = mode i) :
    Keeps i q q' := by
  intro s hs
  cases h with
  | quiet hsame _ _ =>
    rw [isReadMode_of_sections hsame]
    exact hs
  | handOver _ hflag _ _ _ _ =>
    rw [hflag]
    by_cases heq : s = slot c.handed
    · rw [heq, Function.update_self, hmode]
    · rw [Function.update_of_ne heq]
      exact hs
  | ret hsame _ _ _ =>
    rw [isReadMode_of_sections hsame]
    exact hs

theorem Inv.enqueuer_keeps (h : Inv vals ⟨q, p, c⟩)
    (hs : (enqueuer vals p).exec q = some (q', p', evs)) : Keeps .snd q q' := by
  obtain ⟨v, n, v', rfl, rfl, -, rfl, -⟩ | ⟨s, k, v, n, rfl, rfl, rfl, -⟩ | ⟨-, -, -, heff⟩ :=
    h.enqueuer_cases hs
  · exact fun _ => id
  · intro t ht
    rw [isReadMode_atContent]
    exact ht
  · exact heff.keeps rfl

theorem Inv.dequeuer_keeps (h : Inv vals ⟨q, p, c⟩)
    (hs : (dequeuer c).exec q = some (q', c', evs)) : Keeps .fst q q' := by
  obtain ⟨v, n, rfl, rfl, rfl, -⟩ | ⟨s, k, v, n, rfl, rfl, rfl, -⟩ | ⟨-, -, heff⟩ :=
    h.dequeuer_cases hs
  · exact fun _ => id
  · exact fun _ => id
  · exact heff.keeps rfl

/-! ## What can be taken -/

omit [NeZero K] in
theorem full_le {a b : Nat} (h : S * a ≤ b) : S * a ≤ S * (b / S) :=
  Nat.mul_le_mul_left S ((Nat.le_div_iff_mul_le (Nat.pos_of_neZero S)).mpr (by
    rwa [Nat.mul_comm] at h))

/-- Only the entries of full sections are taken. -/
theorem Inv.taken_le_full (h : Inv vals ⟨q, p, c⟩) (hp : p.n ≤ vals.length) :
    c.n ≤ S * (vals.length / S) := by
  obtain ⟨-, htaken, hhanded, -⟩ := h.taken_le
  have hstored : p.accessed ≤ vals.length := by
    by_cases hidle : p.pc = .idle
    · rw [Caller.accessed, hidle]
      exact hp
    · have hlt : p.n < vals.length := (List.getElem?_eq_some_iff.mp (h.value hidle)).1
      have hone : p.pc.accessed.toNat ≤ 1 := Bool.toNat_le _
      unfold Caller.accessed
      omega
  calc c.n ≤ c.accessed := Nat.le_add_right _ _
    _ ≤ S * p.handed := htaken
    _ ≤ S * (vals.length / S) := full_le (Nat.le_trans hhanded hstored)

end SectionQueue

end TsxProject
