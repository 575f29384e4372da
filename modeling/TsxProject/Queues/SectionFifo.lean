import TsxProject.Queues.SectionQueue

/-!
# `SectionQueue` refines a queue

The positions of the threads are counts that never wrap: entries accessed, and sections handed
over to the other thread. The flags are a ring of `K` sections (`SentinelRing.Queued`) between the
two counts of sections, the contents a ring of `S * K` entries (`flat`).

* `Caller.Ok.call_step` — what a step of a call can do, for both threads at once
* `refines_fifo` — the queue refines `Fifo` with capacity `S * K`
-/

namespace TsxProject

open Infra Infra.Ring

namespace SectionQueue

variable {K S : Nat} [NeZero K] [NeZero S]

/-! ## Where a thread stands -/

/-- The entry of the current call has been accessed. -/
def Pc.accessed : Pc K S → Bool
  | .idle | .awaitSection | .await _ | .accessSection | .accessIndex _ | .access _ _ => false
  | _ => true

/-- The wait of the current call is over. -/
def Pc.past : Pc K S → Bool
  | .idle | .awaitSection | .await _ => false
  | _ => true

/-- The current call is the last one in its section. -/
def Pc.closing : Pc K S → Bool
  | .flagSection | .flag _ | .nextSection | .next _ => true
  | _ => false

/-- Entries accessed. -/
def Caller.accessed (c : Caller K S) : Nat := c.n + c.pc.accessed.toNat

/-- The value that a call has in its hand after the access. -/
def Caller.hand (c : Caller K S) : Option Int := if c.pc.accessed then some c.value else none

/-- Entries that the index has moved past. -/
def Caller.advanced (c : Caller K S) : Nat :=
  match c.pc with
  | .test | .flagSection | .flag _ | .nextSection | .next _ => c.n + 1
  | _ => c.n

/-- Sections handed over. -/
def Caller.handed (c : Caller K S) : Nat :=
  match c.pc with
  | .nextSection | .next _ => c.n / S + 1
  | _ => c.n / S

/-- The thread may still access its section: the wait is over, in this call or in an earlier one
for the same section. -/
def Caller.Holding (c : Caller K S) : Prop := c.pc.past = true ∨ c.n % S ≠ 0

/-- `lim` sections have been handed to the thread so far. -/
structure Caller.Ok (c : Caller K S) (i : Side) (q : SectionQueue K S) (lim : Nat) : Prop where
  ptr : q.ptr i = slot c.advanced
  sec : q.sectionOf i = slot (c.n / S)
  room : c.Holding → c.n / S < lim
  full : c.pc.closing = true → S ∣ c.n + 1
  regs :
    match c.pc with
    | .await s | .accessIndex s | .flag s | .next s => s = slot (c.n / S)
    | .access s k => s = slot (c.n / S) ∧ k = slot c.n
    | .advance k => k = slot c.n
    | _ => True

/-! ### Arithmetic of sections -/

section Counts

omit [NeZero K]

omit [NeZero S] in
theorem div_succ_of_dvd {n : Nat} (h : S ∣ n + 1) :
    (n + 1) / S = n / S + 1 ∧ S * (n / S + 1) = n + 1 := by
  have hdiv : (n + 1) / S = n / S + 1 := Nat.succ_div_of_dvd h
  refine ⟨hdiv, ?_⟩
  rw [← hdiv]
  exact Nat.mul_div_cancel' h

theorem lt_of_div_lt {n lim : Nat} (h : n / S < lim) : n < S * lim := by
  rw [Nat.mul_comm]
  exact (Nat.div_lt_iff_lt_mul (Nat.pos_of_neZero S)).mp h

end Counts

namespace Caller.Ok

variable {c : Caller K S} {i : Side} {q q' : SectionQueue K S} {lim lim' : Nat}

/-- The other thread's progress does no harm. -/
theorem mono (h : c.Ok i q lim) (hp : q'.ptr i = q.ptr i) (hs : q'.sectionOf i = q.sectionOf i)
    (hle : lim ≤ lim') : c.Ok i q' lim' where
  ptr := hp.trans h.ptr
  sec := hs.trans h.sec
  room hc := Nat.lt_of_lt_of_le (h.room hc) hle
  full := h.full
  regs := h.regs

/-- Only whole sections are handed over. -/
theorem mul_handed_le (h : c.Ok i q lim) : S * c.handed ≤ c.accessed := by
  obtain ⟨pc, value, n⟩ := c
  have hle : S * (n / S) ≤ n := Nat.mul_div_le n S
  cases pc with
  | nextSection | next s =>
    have hfull := (div_succ_of_dvd (h.full rfl)).2
    exact Nat.le_of_eq hfull
  | _ => exact Nat.le_trans hle (Nat.le_add_right n _)

/-- Only sections that have been handed to the thread are accessed. -/
theorem accessed_le (h : c.Ok i q lim) (hle : c.handed ≤ lim) : c.accessed ≤ S * lim := by
  obtain ⟨pc, value, n⟩ := c
  by_cases hold : (⟨pc, value, n⟩ : Caller K S).Holding
  · have hlt : n < S * lim := lt_of_div_lt (h.room hold)
    have hone : pc.accessed.toNat ≤ 1 := Bool.toNat_le _
    simp only [Caller.accessed]
    omega
  · -- between two sections everything accessed has been handed over
    simp only [Caller.Holding, not_or, Bool.not_eq_true, ne_eq, not_not] at hold
    obtain ⟨hpast, hmod⟩ := hold
    have hn : S * (n / S) = n := by
      have := Nat.div_add_mod n S
      omega
    cases pc with
    | idle | awaitSection | await s =>
      calc n = S * (n / S) := hn.symm
        _ ≤ S * lim := Nat.mul_le_mul_left S hle
    | _ => cases hpast

end Caller.Ok

/-! ## What a step of a call does -/

section Frame

omit [NeZero K] [NeZero S]

/-- The other thread's index and section number stay. -/
def Frame (i : Side) (q q' : SectionQueue K S) : Prop :=
  ∀ j, j ≠ i → q'.ptr j = q.ptr j ∧ q'.sectionOf j = q.sectionOf j

theorem Frame.refl (i : Side) (q : SectionQueue K S) : Frame i q q := fun _ _ => ⟨rfl, rfl⟩

theorem frame_atPtr (i : Side) (q : SectionQueue K S) (k : Fin S) :
    Frame i q ((atPtr i).set k q) := by
  intro j hj
  rw [ptr_atPtr, sectionOf_atPtr]
  exact ⟨Function.update_of_ne hj k q.ptr, rfl⟩

theorem frame_atSection (i : Side) (q : SectionQueue K S) (s : Fin K) :
    Frame i q ((atSection i).set s q) := by
  intro j hj
  rw [ptr_atSection, sectionOf_atSection]
  exact ⟨rfl, Function.update_of_ne hj s q.sectionOf⟩

theorem frame_of_eq (i : Side) {q q' : SectionQueue K S} (hp : q'.ptr = q.ptr)
    (hs : q'.sectionOf = q.sectionOf) : Frame i q q' :=
  fun j _ => ⟨congrFun hp j, congrFun hs j⟩

end Frame

/-- The thread is still in its call, on the same side of the access. -/
structure SameCall (c c' : Caller K S) : Prop where
  running : c'.pc ≠ .idle
  acc : c'.pc.accessed = c.pc.accessed
  n : c'.n = c.n
  value : c'.value = c.value

/-- A step from `q` and `c`, other than the begin of a call and the access to an entry. -/
inductive Effect (i : Side) (lim : Nat) (q : SectionQueue K S) (c : Caller K S)
    (q' : SectionQueue K S) (c' : Caller K S) : List (CallEvent K S) → Prop where
  | quiet : q'.sections = q.sections → SameCall c c' → c'.handed = c.handed →
      Effect i lim q c q' c' []
  | handOver : q'.content = q.content →
      q'.isReadMode = Function.update q.isReadMode (slot c.handed) (!mode i) →
      SameCall c c' → c'.handed = c.handed + 1 → c.handed < lim → c.Owns i q (slot c.handed) →
      Effect i lim q c q' c' [.handedOver i (slot c.handed)]
  | ret : q'.sections = q.sections → c.pc.accessed = true → c' = ⟨.idle, c.value, c.n + 1⟩ →
      c'.handed = c.handed → Effect i lim q c q' c' [.returned i c.value]

variable {c c' : Caller K S} {i : Side} {q q' : SectionQueue K S} {lim : Nat}
  {evs : List (CallEvent K S)}
  {start : Instr (SectionQueue K S) (Caller K S) (CallEvent K S)}
  {access : Fin K → Fin S → Instr (SectionQueue K S) (Caller K S) (CallEvent K S)}

theorem Caller.Ok.call_step (h : c.Ok i q lim) (hflag : ∀ s, c.pc = .await s →
      q.isReadMode s = mode i → c.n / S < lim) (hstart : c.pc ≠ .idle)
    (haccess : ∀ s k, c.pc ≠ .access s k)
    (hs : (c.call i start access).exec q = some (q', c', evs)) :
    c'.Ok i q' lim ∧ Frame i q q' ∧ Effect i lim q c q' c' evs := by
  obtain ⟨pc, value, n⟩ := c
  obtain ⟨hptr, hsec, hroom, hfull, hregs⟩ := h
  simp only at hregs hflag hstart haccess
  cases pc with
  | idle => exact absurd rfl hstart
  | access s k => exact absurd rfl (haccess s k)
  | awaitSection =>
    cases hs
    exact ⟨⟨hptr, hsec, hroom, hfull, hsec⟩, Frame.refl i q,
      .quiet rfl ⟨by simp, rfl, rfl, rfl⟩ rfl⟩
  | await s =>
    simp only [Caller.call, Instr.exec, atReadMode] at hs
    split at hs <;> cases hs
    · next hmode =>
      exact ⟨⟨hptr, hsec, fun _ => hflag s rfl hmode, hfull, trivial⟩, Frame.refl i q,
        .quiet rfl ⟨by simp, rfl, rfl, rfl⟩ rfl⟩
    · exact ⟨⟨hptr, hsec, hroom, hfull, trivial⟩, Frame.refl i q,
        .quiet rfl ⟨by simp, rfl, rfl, rfl⟩ rfl⟩
  | accessSection =>
    cases hs
    exact ⟨⟨hptr, hsec, hroom, hfull, hsec⟩, Frame.refl i q,
      .quiet rfl ⟨by simp, rfl, rfl, rfl⟩ rfl⟩
  | accessIndex s =>
    cases hs
    exact ⟨⟨hptr, hsec, hroom, hfull, hregs, hptr⟩, Frame.refl i q,
      .quiet rfl ⟨by simp, rfl, rfl, rfl⟩ rfl⟩
  | advanceIndex =>
    cases hs
    exact ⟨⟨hptr, hsec, hroom, hfull, hptr⟩, Frame.refl i q,
      .quiet rfl ⟨by simp, rfl, rfl, rfl⟩ rfl⟩
  | advance k =>
    cases hs
    subst hregs
    refine ⟨⟨?_, ?_, hroom, hfull, trivial⟩, frame_atPtr i q _,
      .quiet (sections_atPtr i q _) ⟨by simp, rfl, rfl, rfl⟩ rfl⟩
    · rw [ptr_atPtr, Function.update_self, next_slot]
      rfl
    · rw [sectionOf_atPtr]
      exact hsec
  | test =>
    simp only [Caller.call, Instr.exec, atPtr] at hs
    split at hs <;> cases hs
    · next hzero =>
      have hdvd : S ∣ n + 1 := by
        have hslot : (slot (n + 1) : Fin S) = slot 0 := hptr.symm.trans hzero
        exact Nat.modEq_zero_iff_dvd.mp (slot_eq_iff.mp hslot)
      exact ⟨⟨hptr, hsec, hroom, fun _ => hdvd, trivial⟩, Frame.refl i q,
        .quiet rfl ⟨by simp, rfl, rfl, rfl⟩ rfl⟩
    · next hzero =>
      have hndvd : ¬ S ∣ n + 1 := by
        intro hdvd
        exact hzero (hptr.trans (slot_eq_iff.mpr (Nat.modEq_zero_iff_dvd.mpr hdvd)))
      have hdiv : (n + 1) / S = n / S := Nat.succ_div_of_not_dvd hndvd
      refine ⟨⟨hptr, ?_, ?_, fun hc => Bool.noConfusion hc, trivial⟩, Frame.refl i q,
        .ret rfl rfl rfl hdiv⟩
      · rw [hdiv]
        exact hsec
      · intro _
        rw [hdiv]
        exact hroom (.inl rfl)
  | flagSection =>
    cases hs
    exact ⟨⟨hptr, hsec, hroom, hfull, hsec⟩, Frame.refl i q,
      .quiet rfl ⟨by simp, rfl, rfl, rfl⟩ rfl⟩
  | flag s =>
    cases hs
    subst hregs
    exact ⟨⟨hptr, hsec, hroom, hfull, trivial⟩,
      frame_of_eq i (ptr_atReadMode q _ _) (sectionOf_atReadMode q _ _),
      .handOver (content_atReadMode q _ _) (isReadMode_atReadMode q _ _)
        ⟨by simp, rfl, rfl, rfl⟩ rfl (hroom (.inl rfl)) ⟨hsec, trivial⟩⟩
  | nextSection =>
    cases hs
    exact ⟨⟨hptr, hsec, hroom, hfull, hsec⟩, Frame.refl i q,
      .quiet rfl ⟨by simp, rfl, rfl, rfl⟩ rfl⟩
  | next s =>
    cases hs
    subst hregs
    obtain ⟨hdiv, -⟩ := div_succ_of_dvd (hfull rfl)
    refine ⟨⟨?_, ?_, ?_, fun hc => Bool.noConfusion hc, trivial⟩, frame_atSection i q _,
      .ret (sections_atSection i q _) rfl rfl hdiv⟩
    · rw [ptr_atSection]
      exact hptr
    · rw [sectionOf_atSection, Function.update_self, next_slot, hdiv]
    · rintro (hc | hmod)
      · cases hc
      · exact absurd (Nat.mod_eq_zero_of_dvd (hfull rfl)) hmod

/-! ## The invariant -/

/-- The values as a stream of entries. -/
def stream (vals : List Int) (x : Nat) : Int := vals.getD x 0

structure Inv (vals : List Int) (s : Calls K S) : Prop where
  fst : s.fst.Ok .fst s.mem (s.snd.handed + K)
  snd : s.snd.Ok .snd s.mem s.fst.handed
  value : s.fst.pc ≠ .idle → vals[s.fst.n]? = some s.fst.value
  flags : SentinelRing.Queued s.mem.isReadMode (fun _ => true) false s.snd.handed s.fst.handed
  holds : Holds (flat s.mem.content) (stream vals) (S * s.snd.handed) s.fst.accessed

/-- The abstract queue of a state. -/
def view (vals : List Int) (s : Calls K S) : Fifo Int where
  queue := segment (stream vals) s.snd.accessed s.fst.accessed
  hand := s.snd.hand

/-- What the abstract queue sees of an event. -/
def obs : CallEvent K S → Option (Fifo.Op Int)
  | .accessed .fst _ _ v => some (.enqueued v)
  | .returned .snd v => some (.returned (some v))
  | _ => none

theorem Inv.init (content : Fin K → Fin S → Int) (vals : List Int) :
    Inv vals (calls content vals).init where
  fst := ⟨rfl, by simp [calls, Program.system, SectionQueue.init, sectionOf],
    fun h => by simp [Caller.Holding, calls, Program.system, Pc.past] at h,
    fun h => Bool.noConfusion h, trivial⟩
  snd := ⟨rfl, by simp [calls, Program.system, SectionQueue.init, sectionOf],
    fun h => by simp [Caller.Holding, calls, Program.system, Pc.past] at h,
    fun h => Bool.noConfusion h, trivial⟩
  value h := absurd rfl h
  flags := by
    have h := SentinelRing.Queued.init (N := K) (fun _ => true) false
    simp only [calls, Program.system, Caller.handed, Nat.zero_div]
    exact h
  holds := by
    apply Holds.empty
    simp [calls, Program.system, Caller.accessed, Pc.accessed]

section Steps

variable {vals : List Int} {p p' : Caller K S}

section Sections

omit [NeZero K] [NeZero S]

theorem SameCall.accessed (h : SameCall c c') : c'.accessed = c.accessed := by
  rw [Caller.accessed, Caller.accessed, h.n, h.acc]

theorem SameCall.hand (h : SameCall c c') : c'.hand = c.hand := by
  rw [Caller.hand, Caller.hand, h.value, h.acc]

theorem isReadMode_of_sections (h : q'.sections = q.sections) : q'.isReadMode = q.isReadMode := by
  funext s
  rw [isReadMode, isReadMode, h]

theorem content_of_sections (h : q'.sections = q.sections) : q'.content = q.content := by
  funext s
  rw [SectionQueue.content, SectionQueue.content, h]

end Sections

theorem stream_eq {n : Nat} {v : Int} (h : vals[n]? = some v) : stream vals n = v := by
  rw [stream, List.getD_eq_getElem?_getD, h]
  rfl

/-- The counts after the first and after the last access of a section. -/
theorem Inv.taken_le (h : Inv vals ⟨q, p, c⟩) :
    S * c.handed ≤ c.accessed ∧ c.accessed ≤ S * p.handed ∧ S * p.handed ≤ p.accessed ∧
      p.accessed ≤ S * c.handed + S * K := by
  refine ⟨h.snd.mul_handed_le, h.snd.accessed_le h.flags.le, h.fst.mul_handed_le, ?_⟩
  rw [← Nat.mul_add]
  exact h.fst.accessed_le h.flags.lap

/-- The store of `SectionQueue_Enqueue` to the content. -/
theorem Inv.put {s : Fin K} {k : Fin S} {v : Int} {n : Nat}
    (h : Inv vals ⟨q, ⟨.access s k, v, n⟩, c⟩) :
    Inv vals ⟨(atContent s k).set v q, ⟨.advanceIndex, v, n⟩, c⟩ ∧
      Fifo.Step (S * K) (view vals ⟨q, ⟨.access s k, v, n⟩, c⟩) [.enqueued v]
        (view vals ⟨(atContent s k).set v q, ⟨.advanceIndex, v, n⟩, c⟩) := by
  obtain ⟨hlo, hle, hfull, -⟩ := h.taken_le
  obtain ⟨hp, hc, hval, hflags, hholds⟩ := h
  obtain ⟨rfl, rfl⟩ : s = slot (n / S) ∧ k = slot n := hp.regs
  have hv : stream vals n = v := stream_eq (hval (by simp))
  have hlap : n < S * c.handed + S * K := by
    rw [← Nat.mul_add]
    exact lt_of_div_lt (hp.room (.inl rfl))
  have hpush : Holds (flat ((atContent (slot (n / S)) (slot n)).set v q).content) (stream vals)
      (S * c.handed) (n + 1) := by
    rw [content_atContent, flat_update, ← hv]
    exact Holds.push hholds hlap
  refine ⟨⟨⟨?_, ?_, hp.room, hp.full, trivial⟩, hc.mono ?_ ?_ (Nat.le_refl _), fun _ => hval
    (by simp), ?_, hpush⟩, ?_⟩
  · rw [ptr_atContent]
    exact hp.ptr
  · rw [sectionOf_atContent]
    exact hp.sec
  · rw [ptr_atContent]
  · rw [sectionOf_atContent]
  · rw [isReadMode_atContent]
    exact hflags
  · have htaken : c.accessed ≤ n := Nat.le_trans hle hfull
    have hstep := Fifo.Step.push_segment (stream vals) c.hand htaken
      (show n - c.accessed < S * K by omega)
    rw [hv] at hstep
    exact hstep

/-- What a step of the enqueuing thread does: begin a call, store the entry, or go on. -/
theorem Inv.enqueuer_cases (h : Inv vals ⟨q, p, c⟩)
    (hs : (enqueuer vals p).exec q = some (q', p', evs)) :
    (∃ v n v', p = ⟨.idle, v, n⟩ ∧ p' = ⟨.awaitSection, v', n⟩ ∧ vals[n]? = some v' ∧ q' = q ∧
      evs = []) ∨
    (∃ s k v n, p = ⟨.access s k, v, n⟩ ∧ p' = ⟨.advanceIndex, v, n⟩ ∧
      q' = (atContent s k).set v q ∧ evs = [.accessed .fst s k v]) ∨
    p.pc ≠ .idle ∧ p'.Ok .fst q' (c.handed + K) ∧ Frame .fst q q' ∧
      Effect .fst (c.handed + K) q p q' p' evs := by
  by_cases hidle : p.pc = .idle
  · obtain ⟨pc, v, n⟩ := p
    obtain rfl : pc = .idle := hidle
    simp only [enqueuer, Caller.call] at hs
    split at hs
    · cases hs
    · next v' hv =>
      cases hs
      exact .inl ⟨v, n, v', rfl, rfl, hv, rfl, rfl⟩
  by_cases haccess : ∃ s k, p.pc = .access s k
  · obtain ⟨pc, v, n⟩ := p
    obtain ⟨s, k, rfl⟩ : ∃ s k, pc = .access s k := haccess
    cases hs
    exact .inr (.inl ⟨s, k, v, n, rfl, rfl, rfl, rfl⟩)
  refine .inr (.inr ⟨hidle, h.fst.call_step ?_ hidle (fun s k hpc => haccess ⟨s, k, hpc⟩) hs⟩)
  intro s hpc hfree
  obtain ⟨pc, v, n⟩ := p
  obtain rfl : pc = .await s := hpc
  obtain rfl : s = slot (n / S) := h.fst.regs
  exact h.flags.room_of_free hfree

theorem Inv.enqueuer_step (h : Inv vals ⟨q, p, c⟩)
    (hs : (enqueuer vals p).exec q = some (q', p', evs)) :
    Inv vals ⟨q', p', c⟩ ∧ (Fifo.spec Int (S * K)).StepOrStutter (view vals ⟨q, p, c⟩)
      (evs.filterMap obs) (view vals ⟨q', p', c⟩) := by
  obtain ⟨v, n, v', rfl, rfl, hv, rfl, rfl⟩ | ⟨s, k, v, n, rfl, rfl, rfl, rfl⟩ |
    ⟨hidle, hp', hframe, heff⟩ := h.enqueuer_cases hs
  · obtain ⟨hp, hc, hval, hflags, hholds⟩ := h
    exact ⟨⟨⟨hp.ptr, hp.sec, hp.room, hp.full, trivial⟩, hc, fun _ => hv, hflags, hholds⟩,
      .inr ⟨rfl, rfl⟩⟩
  · obtain ⟨hinv, hstep⟩ := h.put
    exact ⟨hinv, .inl hstep⟩
  obtain ⟨hp, hc, hval, hflags, hholds⟩ := h
  obtain ⟨hptr, hsec⟩ := hframe .snd (by simp)
  cases heff with
  | quiet hsame hcall hhand =>
    refine ⟨⟨hp', hc.mono hptr hsec (Nat.le_of_eq hhand.symm), fun _ => ?_, ?_, ?_⟩,
      .inr ⟨rfl, ?_⟩⟩
    · rw [hcall.n, hcall.value]
      exact hval hidle
    · rw [isReadMode_of_sections hsame, hhand]
      exact hflags
    · rw [content_of_sections hsame, hcall.accessed]
      exact hholds
    · rw [view, view, hcall.accessed]
  | handOver hcontent hflag hcall hhand hlt _ =>
    refine ⟨⟨hp', hc.mono hptr hsec (by rw [hhand]; exact Nat.le_succ _), fun _ => ?_, ?_, ?_⟩,
      .inr ⟨rfl, ?_⟩⟩
    · rw [hcall.n, hcall.value]
      exact hval hidle
    · rw [hflag, hhand]
      exact hflags.write hlt (by simp)
    · rw [hcontent, hcall.accessed]
      exact hholds
    · rw [view, view, hcall.accessed]
  | ret hsame hacc hpc hhand =>
    subst hpc
    have hacc' : (⟨.idle, p.value, p.n + 1⟩ : Caller K S).accessed = p.accessed := by
      rw [Caller.accessed, Caller.accessed, hacc]
      rfl
    refine ⟨⟨hp', hc.mono hptr hsec (Nat.le_of_eq hhand.symm), fun hne => absurd rfl hne, ?_, ?_⟩,
      .inr ⟨rfl, ?_⟩⟩
    · rw [isReadMode_of_sections hsame, hhand]
      exact hflags
    · rw [content_of_sections hsame, hacc']
      exact hholds
    · rw [view, view, hacc']

/-- The load of `SectionQueue_Dequeue` from the content. -/
theorem Inv.read {s : Fin K} {k : Fin S} {v : Int} {n : Nat}
    (h : Inv vals ⟨q, p, ⟨.access s k, v, n⟩⟩) :
    Inv vals ⟨q, p, ⟨.advanceIndex, q.content s k, n⟩⟩ ∧
      Fifo.Step (S * K) (view vals ⟨q, p, ⟨.access s k, v, n⟩⟩) []
        (view vals ⟨q, p, ⟨.advanceIndex, q.content s k, n⟩⟩) := by
  obtain ⟨hlo, -, hfull, -⟩ := h.taken_le
  obtain ⟨hp, hc, hval, hflags, hholds⟩ := h
  obtain ⟨rfl, rfl⟩ : s = slot (n / S) ∧ k = slot n := hc.regs
  refine ⟨⟨hp, ⟨hc.ptr, hc.sec, hc.room, hc.full, trivial⟩, hval, hflags, hholds⟩, ?_⟩
  have hlt : n < p.accessed := Nat.lt_of_lt_of_le (lt_of_div_lt (hc.room (.inl rfl))) hfull
  have hread : q.content (slot (n / S)) (slot n) = stream vals n := by
    rw [← flat_slot q.content]
    exact hholds n hlo hlt
  rw [hread]
  exact Fifo.Step.pop_segment (stream vals) (S * K) hlt

/-- What a step of the dequeuing thread does. -/
theorem Inv.dequeuer_cases (h : Inv vals ⟨q, p, c⟩)
    (hs : (dequeuer c).exec q = some (q', c', evs)) :
    (∃ v n, c = ⟨.idle, v, n⟩ ∧ c' = ⟨.awaitSection, v, n⟩ ∧ q' = q ∧ evs = []) ∨
    (∃ s k v n, c = ⟨.access s k, v, n⟩ ∧ c' = ⟨.advanceIndex, q.content s k, n⟩ ∧ q' = q ∧
      evs = [.accessed .snd s k (q.content s k)]) ∨
    c'.Ok .snd q' p.handed ∧ Frame .snd q q' ∧ Effect .snd p.handed q c q' c' evs := by
  by_cases hidle : c.pc = .idle
  · obtain ⟨pc, v, n⟩ := c
    obtain rfl : pc = .idle := hidle
    cases hs
    exact .inl ⟨v, n, rfl, rfl, rfl, rfl⟩
  by_cases haccess : ∃ s k, c.pc = .access s k
  · obtain ⟨pc, v, n⟩ := c
    obtain ⟨s, k, rfl⟩ : ∃ s k, pc = .access s k := haccess
    cases hs
    exact .inr (.inl ⟨s, k, v, n, rfl, rfl, rfl, rfl⟩)
  refine .inr (.inr (h.snd.call_step ?_ hidle (fun s k hpc => haccess ⟨s, k, hpc⟩) hs))
  intro s hpc hset
  obtain ⟨pc, v, n⟩ := c
  obtain rfl : pc = .await s := hpc
  obtain rfl : s = slot (n / S) := h.snd.regs
  refine (h.flags.read ?_).1
  show q.isReadMode (slot (n / S)) ≠ false
  rw [hset]
  simp [mode]

theorem Inv.dequeuer_step (h : Inv vals ⟨q, p, c⟩)
    (hs : (dequeuer c).exec q = some (q', c', evs)) :
    Inv vals ⟨q', p, c'⟩ ∧ (Fifo.spec Int (S * K)).StepOrStutter (view vals ⟨q, p, c⟩)
      (evs.filterMap obs) (view vals ⟨q', p, c'⟩) := by
  obtain ⟨v, n, rfl, rfl, rfl, rfl⟩ | ⟨s, k, v, n, rfl, rfl, rfl, rfl⟩ | ⟨hc', hframe, heff⟩ :=
    h.dequeuer_cases hs
  · obtain ⟨hp, hc, hval, hflags, hholds⟩ := h
    exact ⟨⟨hp, ⟨hc.ptr, hc.sec, hc.room, hc.full, trivial⟩, hval, hflags, hholds⟩,
      .inr ⟨rfl, rfl⟩⟩
  · obtain ⟨hinv, hstep⟩ := h.read
    exact ⟨hinv, .inl hstep⟩
  obtain ⟨hp, hc, hval, hflags, hholds⟩ := h
  obtain ⟨hptr, hsec⟩ := hframe .fst (by simp)
  cases heff with
  | quiet hsame hcall hhand =>
    refine ⟨⟨hp.mono hptr hsec (by rw [hhand]), hc', hval, ?_, ?_⟩, .inr ⟨rfl, ?_⟩⟩
    · rw [isReadMode_of_sections hsame, hhand]
      exact hflags
    · rw [content_of_sections hsame, hhand]
      exact hholds
    · rw [view, view, hcall.accessed, hcall.hand]
  | handOver hcontent hflag hcall hhand hlt _ =>
    have hle : c.handed ≤ c'.handed := by
      rw [hhand]
      exact Nat.le_succ _
    refine ⟨⟨hp.mono hptr hsec (Nat.add_le_add_right hle K), hc', hval, ?_, ?_⟩,
      .inr ⟨rfl, ?_⟩⟩
    · rw [hflag, hhand]
      exact hflags.clear hlt
    · rw [hcontent, hhand]
      exact hholds.mono (Nat.mul_le_mul_left S (Nat.le_succ _)) (Nat.le_refl _)
    · rw [view, view, hcall.accessed, hcall.hand]
  | ret hsame hacc hpc hhand =>
    subst hpc
    refine ⟨⟨hp.mono hptr hsec (by rw [hhand]), hc', hval, ?_, ?_⟩, .inl ?_⟩
    · rw [isReadMode_of_sections hsame, hhand]
      exact hflags
    · rw [content_of_sections hsame, hhand]
      exact hholds
    · -- the value leaves the hand
      have hcount : (⟨.idle, c.value, c.n + 1⟩ : Caller K S).accessed = c.accessed := by
        rw [Caller.accessed, Caller.accessed, hacc]
        rfl
      rw [view, view, hcount, Caller.hand, if_pos hacc]
      exact Fifo.Step.giveBack c.value

end Steps

theorem Inv.step {content : Fin K → Fin S → Int} {vals : List Int} {j : Side} {s s' : Calls K S}
    (h : Inv vals s) (hs : (calls content vals).step j s = some (s', evs)) :
    Inv vals s' ∧ (Fifo.spec Int (S * K)).StepOrStutter (view vals s) (evs.filterMap obs)
      (view vals s') := by
  obtain ⟨q, p, c⟩ := s
  obtain ⟨q', p', rfl, rfl, hx⟩ | ⟨q', c', rfl, rfl, hx⟩ := Program.step_cases hs
  · exact h.enqueuer_step hx
  · exact h.dequeuer_step hx

/-- **The queue refines a bounded queue of capacity `S * K`.** -/
theorem refines_fifo {content : Fin K → Fin S → Int} {vals : List Int}
    {tr : List (CallEvent K S)} {s : Calls K S} (h : (calls content vals).Runs tr s) :
    Inv vals s ∧ (Fifo.spec Int (S * K)).Runs (tr.filterMap obs) (view vals s) := by
  refine h.refines_obs (Inv.init content vals) ?_ fun hI _ hs => hI.step hs
  show view vals (calls content vals).init = ⟨[], none⟩
  rfl

end SectionQueue

end TsxProject
