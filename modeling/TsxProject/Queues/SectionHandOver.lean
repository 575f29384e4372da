import TsxProject.Queues.SectionFifo

/-!
# `SectionQueue`: exclusive sections, whole sections

What a caller of the queue of sections can rely on, and what it cannot.

* `sectionQueue_fifo` — first in, first out, and no section is at work for both threads
* `full_sections_returned` — only the values of full sections reach the other thread
-/

namespace TsxProject

open Infra Infra.Ring

namespace SectionQueue

variable {K S : Nat} [NeZero K] [NeZero S] {c c' : Caller K S} {i : Side}
  {q q' : SectionQueue K S} {lim : Nat} {evs : List (CallEvent K S)}

/-! ## What the trace records -/

omit [NeZero K] [NeZero S] in
theorem enqueued_obs (tr : List (CallEvent K S)) :
    Fifo.enqueued (tr.filterMap obs) = enqueued tr := by
  rw [Fifo.enqueued, List.filterMap_filterMap, enqueued]
  congr 1
  funext e
  rcases e with ⟨i, s, k, v⟩ | ⟨i, s⟩ | ⟨i, v⟩ <;> cases i <;> simp [obs]

omit [NeZero K] [NeZero S] in
theorem returned_obs (tr : List (CallEvent K S)) :
    Fifo.returned (tr.filterMap obs) = returned tr := by
  rw [Fifo.returned, List.filterMap_filterMap, returned]
  congr 1
  funext e
  rcases e with ⟨i, s, k, v⟩ | ⟨i, s⟩ | ⟨i, v⟩ <;> cases i <;> simp [obs]

/-- The counters and the trace say the same. -/
structure Recorded (vals : List Int) (tr : List (CallEvent K S)) (s : Calls K S) : Prop where
  enqueued : enqueued tr = vals.take s.fst.accessed
  completed : completed tr = vals.take s.fst.n
  bound : s.fst.n ≤ vals.length
  returned : (returned tr).length = s.snd.n

section Trace

omit [NeZero K] [NeZero S]

theorem enqueued_append (tr evs : List (CallEvent K S)) :
    enqueued (tr ++ evs) = enqueued tr ++ enqueued evs :=
  List.filterMap_append

theorem completed_append (tr evs : List (CallEvent K S)) :
    completed (tr ++ evs) = completed tr ++ completed evs :=
  List.filterMap_append

theorem returned_append (tr evs : List (CallEvent K S)) :
    returned (tr ++ evs) = returned tr ++ returned evs :=
  List.filterMap_append

end Trace

variable {vals : List Int} {p p' : Caller K S} {tr : List (CallEvent K S)}

omit [NeZero K] [NeZero S] in
/-- Steps without an event of these three kinds. -/
theorem Recorded.quiet {s s' : Calls K S} (h : Recorded vals tr s)
    (he : SectionQueue.enqueued evs = []) (hc : SectionQueue.completed evs = [])
    (hr : SectionQueue.returned evs = []) (ha : s'.fst.accessed = s.fst.accessed)
    (hn : s'.fst.n = s.fst.n) (hm : s'.snd.n = s.snd.n) : Recorded vals (tr ++ evs) s' where
  enqueued := by rw [enqueued_append, he, List.append_nil, ha, h.enqueued]
  completed := by rw [completed_append, hc, List.append_nil, hn, h.completed]
  bound := by rw [hn]; exact h.bound
  returned := by rw [returned_append, hr, List.append_nil, hm, h.returned]

theorem Recorded.enqueuer_step (hinv : Inv vals ⟨q, p, c⟩) (h : Recorded vals tr ⟨q, p, c⟩)
    (hs : (enqueuer vals p).exec q = some (q', p', evs)) :
    Recorded vals (tr ++ evs) ⟨q', p', c⟩ := by
  obtain ⟨v, n, v', rfl, rfl, hv, rfl, rfl⟩ | ⟨s, k, v, n, rfl, rfl, rfl, rfl⟩ |
    ⟨hidle, -, -, heff⟩ := hinv.enqueuer_cases hs
  · exact h.quiet rfl rfl rfl rfl rfl rfl
  · have hv : vals[n]? = some v := hinv.value (by simp)
    refine ⟨?_, ?_, h.bound, ?_⟩
    · show SectionQueue.enqueued _ = vals.take (n + 1)
      rw [enqueued_append, h.enqueued, List.take_add_one, hv]
      rfl
    · rw [completed_append, h.completed]
      exact List.append_nil _
    · rw [returned_append, List.length_append, h.returned]
      rfl
  have hv : vals[p.n]? = some p.value := hinv.value hidle
  cases heff with
  | quiet _ hcall _ => exact h.quiet rfl rfl rfl hcall.accessed hcall.n rfl
  | handOver _ _ hcall _ _ _ => exact h.quiet rfl rfl rfl hcall.accessed hcall.n rfl
  | ret _ hacc hpc _ =>
    subst hpc
    refine ⟨?_, ?_, (List.getElem?_eq_some_iff.mp hv).1, ?_⟩
    · rw [enqueued_append, h.enqueued, Caller.accessed, hacc]
      exact List.append_nil _
    · show SectionQueue.completed _ = vals.take (p.n + 1)
      rw [completed_append, h.completed, List.take_add_one, hv]
      rfl
    · rw [returned_append, List.length_append, h.returned]
      rfl

theorem Recorded.dequeuer_step (hinv : Inv vals ⟨q, p, c⟩) (h : Recorded vals tr ⟨q, p, c⟩)
    (hs : (dequeuer c).exec q = some (q', c', evs)) :
    Recorded vals (tr ++ evs) ⟨q', p, c'⟩ := by
  obtain ⟨v, n, rfl, rfl, rfl, rfl⟩ | ⟨s, k, v, n, rfl, rfl, rfl, rfl⟩ | ⟨-, -, heff⟩ :=
    hinv.dequeuer_cases hs
  · exact h.quiet rfl rfl rfl rfl rfl rfl
  · exact h.quiet rfl rfl rfl rfl rfl rfl
  cases heff with
  | quiet _ hcall _ => exact h.quiet rfl rfl rfl rfl rfl hcall.n
  | handOver _ _ hcall _ _ _ => exact h.quiet rfl rfl rfl rfl rfl hcall.n
  | ret _ hacc hpc _ =>
    subst hpc
    refine ⟨?_, ?_, h.bound, ?_⟩
    · rw [enqueued_append, h.enqueued]
      exact List.append_nil _
    · rw [completed_append, h.completed]
      exact List.append_nil _
    · rw [returned_append, List.length_append, h.returned]
      rfl

theorem recorded {content : Fin K → Fin S → Int} {s : Calls K S}
    (h : (calls content vals).Runs tr s) : Recorded vals tr s := by
  induction h with
  | init => exact ⟨rfl, rfl, Nat.zero_le _, rfl⟩
  | step hr _ hs ih =>
    have hinv := (refines_fifo hr).1
    obtain ⟨q', p', rfl, rfl, hx⟩ | ⟨q', c', rfl, rfl, hx⟩ := Program.step_cases hs
    · exact ih.enqueuer_step hinv hx
    · exact ih.dequeuer_step hinv hx

theorem returned_in_order {content : Fin K → Fin S → Int} {s : Calls K S}
    (h : (calls content vals).Runs tr s) : returned tr <+: enqueued tr := by
  have hpre := Fifo.returned_prefix (refines_fifo h).2
  rwa [enqueued_obs, returned_obs] at hpre

theorem enqueued_in_order {content : Fin K → Fin S → Int} {s : Calls K S}
    (h : (calls content vals).Runs tr s) : enqueued tr <+: vals := by
  rw [(recorded h).enqueued]
  exact List.take_prefix _ _

/-! ## Ownership -/

theorem Caller.Ok.owns (h : c.Ok i q lim) {s : Fin K} (ho : c.Owns i q s) :
    s = slot c.handed ∧ c.handed < lim := by
  obtain ⟨pc, v, n⟩ := c
  obtain ⟨hsec, hpc⟩ := ho
  have hslot : s = slot (n / S) := hsec.symm.trans h.sec
  -- between two accesses, the index is inside the section
  have hmid : q.ptr i = slot n → q.ptr i ≠ slot 0 → n / S < lim := by
    intro hptr hne
    refine h.room (.inr fun hmod => hne ?_)
    rw [hptr]
    exact slot_eq_iff.mpr hmod
  cases pc with
  | idle | awaitSection | await s => exact ⟨hslot, hmid h.ptr hpc⟩
  | nextSection | next s => exact hpc.elim
  | _ => exact ⟨hslot, h.room (.inl rfl)⟩

/-- No section is at work for both threads. -/
theorem Inv.exclusive (h : Inv vals ⟨q, p, c⟩) (s : Fin K) :
    ¬ (p.Owns .fst q s ∧ c.Owns .snd q s) := by
  rintro ⟨hp, hc⟩
  obtain ⟨hps, hplim⟩ := h.fst.owns hp
  obtain ⟨hcs, hclim⟩ := h.snd.owns hc
  exact slot_ne hclim hplim (hcs.symm.trans hps)

theorem Caller.Ok.spinning (h : c.Ok i q lim) (hsp : c.Spinning i q) :
    q.isReadMode (slot c.handed) ≠ mode i ∧ c.accessed = c.n ∧ c.handed = c.n / S := by
  obtain ⟨pc, v, n⟩ := c
  cases pc with
  | awaitSection | await s =>
    refine ⟨?_, rfl, rfl⟩
    have hflag : q.isReadMode (q.sectionOf i) ≠ mode i := hsp
    rwa [h.sec] at hflag
  | _ => exact hsp.elim

/-- The wait conditions cannot both hold. -/
theorem Inv.not_both_spinning (h : Inv vals ⟨q, p, c⟩) :
    ¬ (p.Spinning .fst q ∧ c.Spinning .snd q) := by
  rintro ⟨hp, hc⟩
  obtain ⟨hpset, -, -⟩ := h.fst.spinning hp
  obtain ⟨hcfree, -, -⟩ := h.snd.spinning hc
  have heq : c.handed = p.handed := h.flags.empty_iff.mp (by simpa [mode] using hcfree)
  rw [heq] at hcfree
  simp only [mode, ne_eq, Bool.not_eq_true, Bool.not_eq_false] at hpset hcfree
  rw [hcfree] at hpset
  cases hpset

/-- Who touches a section is at work in it. -/
theorem Inv.touches (h : Inv vals ⟨q, p, c⟩) {s' : Calls K S} {j : Side}
    (hs : (Program.step ⟨enqueuer vals, dequeuer⟩ j (⟨q, p, c⟩ : Calls K S)) = some (s', evs))
    {e : CallEvent K S} (he : e ∈ evs) {i : Side} {s : Fin K} (ht : e.touches = some (i, s)) :
    (thread ⟨q, p, c⟩ i).Owns i q s := by
  obtain ⟨q', p', rfl, rfl, hx⟩ | ⟨q', c', rfl, rfl, hx⟩ := Program.step_cases hs
  · obtain ⟨v, n, v', rfl, rfl, hv, rfl, rfl⟩ | ⟨s, k, v, n, rfl, rfl, rfl, rfl⟩ |
      ⟨-, -, -, heff⟩ := h.enqueuer_cases hx
    · cases he
    · obtain rfl := List.mem_singleton.mp he
      cases ht
      exact ⟨h.fst.sec.trans h.fst.regs.1.symm, trivial⟩
    · cases heff with
      | quiet => cases he
      | handOver _ _ _ _ _ ho =>
        obtain rfl := List.mem_singleton.mp he
        cases ht
        exact ho
      | ret =>
        obtain rfl := List.mem_singleton.mp he
        cases ht
  · obtain ⟨v, n, rfl, rfl, rfl, rfl⟩ | ⟨s, k, v, n, rfl, rfl, rfl, rfl⟩ | ⟨-, -, heff⟩ :=
      h.dequeuer_cases hx
    · cases he
    · obtain rfl := List.mem_singleton.mp he
      cases ht
      exact ⟨h.snd.sec.trans h.snd.regs.1.symm, trivial⟩
    · cases heff with
      | quiet => cases he
      | handOver _ _ _ _ _ ho =>
        obtain rfl := List.mem_singleton.mp he
        cases ht
        exact ho
      | ret =>
        obtain rfl := List.mem_singleton.mp he
        cases ht

/-! ## The main result -/

/-- What has been returned, and by how much the threads are apart between two operations. -/
theorem Inv.idle_bounds (h : Inv vals ⟨q, p, c⟩) (hp : p.pc = .idle) (hc : c.pc = .idle) :
    c.n ≤ S * (p.n / S) ∧ p.n ≤ S * (c.n / S + K) := by
  obtain ⟨-, htaken, -, hstored⟩ := h.taken_le
  obtain ⟨pc, v, n⟩ := p
  obtain ⟨pc', v', m⟩ := c
  obtain rfl : pc = .idle := hp
  obtain rfl : pc' = .idle := hc
  refine ⟨htaken, ?_⟩
  rw [Nat.mul_add]
  exact hstored

/--
**`SectionQueue` is a queue with exclusive sections.** For every list of values, whatever the
contents were before, and every interleaving:

* the values returned are those put into the queue, in order, as far as they have come; a value
  can be returned before the call that enqueues it has returned;
* no section is at work for both threads, and a thread stores to, reads from and flips the flag
  of the section it is at work in only;
* between operations, only full sections have been read, and at most `K` sections are ahead;
* the two threads never wait for each other.
-/
theorem sectionQueue_fifo {content : Fin K → Fin S → Int} {s : Calls K S}
    (h : (calls content vals).Runs tr s) :
    (returned tr <+: enqueued tr ∧ completed tr <+: enqueued tr ∧ enqueued tr <+: vals) ∧
    ((∀ σ, ¬ (s.fst.Owns .fst s.mem σ ∧ s.snd.Owns .snd s.mem σ)) ∧
      ∀ j s' evs, (calls content vals).step j s = some (s', evs) → ∀ e ∈ evs, ∀ i σ,
        e.touches = some (i, σ) → (thread s i).Owns i s.mem σ) ∧
    (s.fst.pc = .idle → s.snd.pc = .idle →
      (returned tr).length ≤ S * ((completed tr).length / S) ∧
      (completed tr).length ≤ S * ((returned tr).length / S + K)) ∧
    ¬ (s.fst.Spinning .fst s.mem ∧ s.snd.Spinning .snd s.mem) := by
  have hinv := (refines_fifo h).1
  have hrec := recorded h
  refine ⟨⟨returned_in_order h, ?_, enqueued_in_order h⟩, ⟨hinv.exclusive, ?_⟩, ?_,
    hinv.not_both_spinning⟩
  · rw [hrec.enqueued, hrec.completed]
    exact List.take_prefix_take_left (Nat.le_add_right _ _)
  · intro j s' evs hs e he i σ ht
    exact hinv.touches hs he ht
  · intro hp hc
    rw [hrec.completed, hrec.returned, List.length_take, Nat.min_eq_left hrec.bound]
    exact hinv.idle_bounds hp hc

theorem sectionQueue_fifo_small :
    ∃ tr s, (calls (K := 2) (S := 2) (fun _ _ => 0) [5, -1, 7]).Runs tr s ∧
      returned tr = [5, -1] ∧ returned tr <+: enqueued tr := by
  obtain ⟨tr, s, hr, hret⟩ := System.exists_runs
    (calls (K := 2) (S := 2) (fun _ _ => 0) [5, -1, 7]) (turns [(22, 9), (9, 13)])
    (fun tr _ => returned tr = [5, -1]) (by decide +kernel)
  exact ⟨tr, s, hr, hret, (sectionQueue_fifo hr).1.1⟩

/-! ## What the dequeuing thread cannot reach -/

/-- The dequeuing thread gets stuck with exactly the values of the full sections returned. -/
theorem Inv.returned_full (h : Inv vals ⟨q, p, c⟩) (hp : p.pc = .idle)
    (hc : c.Spinning .snd q) : c.n = S * (p.n / S) := by
  obtain ⟨hlo, htaken, -, -⟩ := h.taken_le
  obtain ⟨hfree, hacc, hhand⟩ := h.snd.spinning hc
  have heq : c.handed = p.handed := h.flags.empty_iff.mp (by simpa [mode] using hfree)
  have hpn : p.handed = p.n / S := by
    obtain ⟨pc, v, n⟩ := p
    obtain rfl : pc = .idle := hp
    rfl
  rw [hacc, heq, hpn] at hlo
  rw [hacc, hpn] at htaken
  exact Nat.le_antisymm htaken hlo

/-- How far a call has come. -/
def Pc.rank : Pc K S → Nat
  | .idle => 0
  | .awaitSection => 1
  | .await _ => 2
  | .accessSection => 3
  | .accessIndex _ => 4
  | .access _ _ => 5
  | .advanceIndex => 6
  | .advance _ => 7
  | .test => 8
  | .flagSection => 9
  | .flag _ => 10
  | .nextSection => 11
  | .next _ => 12

omit [NeZero K] [NeZero S] in
theorem Pc.rank_le (pc : Pc K S) : pc.rank ≤ 12 := by
  cases pc <;> simp [Pc.rank]

/-- The dequeuing thread comes nearer to its next return, unless it waits. -/
theorem Caller.Ok.dequeuer_progress (h : c.Ok .snd q lim) (hc : ¬ c.Spinning .snd q) :
    ∃ q' c' evs, (dequeuer c).exec q = some (q', c', evs) ∧
      13 * c.n + c.pc.rank < 13 * c'.n + c'.pc.rank := by
  obtain ⟨pc, v, n⟩ := c
  cases pc with
  | await s =>
    obtain rfl : s = slot (n / S) := h.regs
    have hflag : q.isReadMode (slot (n / S)) = mode .snd := by
      rw [← h.sec]
      exact not_not.mp hc
    refine ⟨q, ⟨.accessSection, v, n⟩, [], ?_, by simp [Pc.rank]⟩
    simp [dequeuer, Caller.call, Instr.exec, atReadMode, hflag]
  | test =>
    by_cases hzero : q.ptr .snd = slot 0
    · refine ⟨q, ⟨.flagSection, v, n⟩, [], ?_, by simp [Pc.rank]⟩
      simp [dequeuer, Caller.call, Instr.exec, atPtr, hzero]
    · refine ⟨q, ⟨.idle, v, n + 1⟩, [.returned .snd v], ?_, by simp [Pc.rank]; omega⟩
      simp [dequeuer, Caller.call, Instr.exec, atPtr, hzero]
  | next s => exact ⟨_, _, _, rfl, by simp [Pc.rank]; omega⟩
  | _ => exact ⟨_, _, _, rfl, by simp [Pc.rank]⟩

theorem enqueuer_isExit (vals : List Int) (p : Caller K S) (hp : p.pc = .idle) :
    (enqueuer vals p).isExit = false := by
  rw [enqueuer, Caller.call, hp]
  cases vals[p.n]? <;> rfl

/-- While the other thread rests, the dequeuing thread runs until it waits. -/
theorem exists_spinning {content : Fin K → Fin S → Int} {s : Calls K S}
    (h : (calls content vals).Runs tr s) (hp : s.fst.pc = .idle) :
    ∃ tr' s', (calls content vals).Runs (tr ++ tr') s' ∧ s'.fst = s.fst ∧
      s'.snd.Spinning .snd s'.mem := by
  obtain ⟨k, hk⟩ : ∃ k, 13 * (S * s.fst.handed + 1) ≤ 13 * s.snd.n + s.snd.pc.rank + k :=
    ⟨_, Nat.le_add_left _ _⟩
  induction k generalizing tr s with
  | zero =>
    -- no call starts once all full sections have been returned
    have hinv := (refines_fifo h).1
    obtain ⟨-, htaken, -, -⟩ := hinv.taken_le
    have hrank := s.snd.pc.rank_le
    have hle : s.snd.n ≤ s.snd.accessed := Nat.le_add_right _ _
    have : 13 * s.snd.n ≤ 13 * (S * s.fst.handed) := Nat.mul_le_mul_left 13 (by omega)
    omega
  | succ k ih =>
    by_cases hsp : s.snd.Spinning .snd s.mem
    · exact ⟨[], s, by rwa [List.append_nil], rfl, hsp⟩
    · obtain ⟨q, p, c⟩ := s
      have hinv := (refines_fifo h).1
      have hsnd : c.Ok .snd q p.handed := hinv.snd
      obtain ⟨q', c', evs, hx, hlt⟩ := hsnd.dequeuer_progress hsp
      have hstep : (calls content vals).step .snd ⟨q, p, c⟩ = some (⟨q', p, c'⟩, evs) :=
        Program.step_snd hx (enqueuer_isExit vals p hp)
      simp only at hk
      obtain ⟨tr', s', hr, hfst, hsp'⟩ := ih (h.step trivial hstep) hp (by simp only; omega)
      exact ⟨evs ++ tr', s', by rwa [← List.append_assoc], hfst, hsp'⟩

/--
**Values are returned by whole sections.** With the enqueuing thread between operations, the
dequeuing thread can go on until it has returned the values of all full sections. When it waits, it
has returned these and no others.
-/
theorem full_sections_returned {content : Fin K → Fin S → Int} {s : Calls K S}
    (h : (calls content vals).Runs tr s) (hp : s.fst.pc = .idle) :
    (s.snd.Spinning .snd s.mem →
      returned tr = (completed tr).take (S * ((completed tr).length / S))) ∧
    ∃ tr' s', (calls content vals).Runs (tr ++ tr') s' ∧ s'.fst = s.fst ∧
      returned (tr ++ tr') = (completed tr).take (S * ((completed tr).length / S)) := by
  have hstuck : ∀ {tr : List (CallEvent K S)} {s : Calls K S}, (calls content vals).Runs tr s →
      s.fst.pc = .idle → s.snd.Spinning .snd s.mem →
      returned tr = (completed tr).take (S * ((completed tr).length / S)) := by
    intro tr s h hp hc
    have hrec := recorded h
    have hlen : (returned tr).length = S * (s.fst.n / S) := by
      rw [hrec.returned]
      exact (refines_fifo h).1.returned_full hp hc
    have hle : S * (s.fst.n / S) ≤ s.fst.n := Nat.mul_div_le _ _
    rw [hrec.completed, List.length_take, Nat.min_eq_left hrec.bound, List.take_take,
      Nat.min_eq_left hle, ← hlen]
    exact List.prefix_iff_eq_take.mp ((returned_in_order h).trans (enqueued_in_order h))
  refine ⟨hstuck h hp, ?_⟩
  obtain ⟨tr', s', hr, hfst, hsp⟩ := exists_spinning h hp
  have hcomp : completed (tr ++ tr') = completed tr := by
    rw [(recorded hr).completed, (recorded h).completed, hfst]
  refine ⟨tr', s', hr, hfst, ?_⟩
  rw [← hcomp]
  exact hstuck hr (by rw [hfst]; exact hp) hsp

/-- A value that does not fill its section is not handed over. -/
theorem value_stranded :
    ∃ tr s, (calls (K := 4) (S := 1000) (fun _ _ => 0) [5]).Runs tr s ∧
      s.fst.pc = .idle ∧ completed tr = [5] ∧ returned tr = [] ∧ s.snd.Spinning .snd s.mem := by
  obtain ⟨tr, s, hr, hp, hcomp, hret, hpc, hflag⟩ := System.exists_runs
    (calls (K := 4) (S := 1000) (fun _ _ => 0) [5]) (turns [(9, 1)])
    (fun tr s => s.fst.pc = .idle ∧ completed tr = [5] ∧ returned tr = [] ∧
      s.snd.pc = .awaitSection ∧ s.mem.isReadMode (s.mem.sectionOf .snd) = false)
    (by decide +kernel)
  refine ⟨tr, s, hr, hp, hcomp, hret, ?_⟩
  rw [Caller.Spinning, hpc]
  simp [hflag, mode]

theorem full_sections_returned_small :
    ∃ tr s, (calls (K := 2) (S := 2) (fun _ _ => 0) [5, -1, 7]).Runs tr s ∧
      ∃ tr' s', (calls (K := 2) (S := 2) (fun _ _ => 0) [5, -1, 7]).Runs (tr ++ tr') s' ∧
        returned (tr ++ tr') = [5, -1] := by
  obtain ⟨tr, s, hr, hp, hcomp⟩ := System.exists_runs
    (calls (K := 2) (S := 2) (fun _ _ => 0) [5, -1, 7]) (turns [(31, 0)])
    (fun tr s => s.fst.pc = .idle ∧ completed tr = [5, -1, 7]) (by decide +kernel)
  obtain ⟨-, tr', s', hr', -, hret⟩ := full_sections_returned hr hp
  exact ⟨tr, s, hr, tr', s', hr', by rw [hret, hcomp]; rfl⟩

end SectionQueue

end TsxProject
