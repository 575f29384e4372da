import TsxProject.Replication.HyperReplicated

/-!
# When replication on hyper-threads is right

The hyper-thread is never a whole iteration ahead, for the barrier is between them. Up to the
first mismatch the ready flag says that it has stored its value. A mismatch leaves the flag set,
and from then on the main thread may compare with the value of the iteration before.

* `indexed` — which index a value is for
* `summed` — it does no harm to the sum if the value of the hyper-thread does not change after a
  mismatch
* `correct_of_agree` — and no harm at all if nothing comes after a mismatch
-/

namespace TsxProject

open Infra

namespace HyperReplicated

variable {calcFunc : CalcFunc} {numValues first : Nat} {t u : Fin 4} {p : Fin 2}
  {tr evs : List Event} {m m' : Memory} {s s' a b : Worker} {st : State} {w : Unit}

/-! ## Counting iterations -/

def Pc.waiting : Pc → Option Nat
  | .blocked _ phase => some phase
  | _ => none

/-- The calls of the barrier, in a thread whose range starts at `first`. -/
def Worker.calls (first : Nat) (s : Worker) : Nat :=
  match s.pc with
  | .wait .start => 0
  | .blocked .start _ => 1
  | .blocked .loop _ | .next => s.i - first + 2
  | _ => s.i - first + 1

/-- The iterations that a hyper-thread has stored a value for. -/
def Worker.stores (first : Nat) (s : Worker) : Nat :=
  match s.pc with
  | .setFinished | .wait .loop | .blocked .loop _ | .next => s.i - first + 1
  | _ => s.i - first

/-- The iterations that a main thread has compared values in. -/
def Worker.compared (first : Nat) (s : Worker) : Nat :=
  match s.pc with
  | .reset | .wait .loop | .blocked .loop _ | .next => s.i - first + 1
  | _ => s.i - first

/-- The iterations that a thread is through with but for the barrier. -/
def Worker.rounds (first : Nat) (s : Worker) : Nat :=
  match s.pc with
  | .wait .loop | .blocked .loop _ | .next => s.i - first + 1
  | _ => s.i - first

/-- In the body of the loop. -/
def Pc.body : Pc → Bool
  | .compute | .setFinished | .spin | .compare | .reset | .wait .loop | .blocked .loop _
  | .next => true
  | _ => false

/-- What a thread knows on its own. -/
structure Local (calcFunc : CalcFunc) (numValues : Nat) (t : Fin 4) (s : Worker) : Prop where
  endIndex : s.endIndex = rangeEnd numValues numPairs (pair t)
  ge : rangeStart numValues numPairs (pair t) ≤ s.i
  le : s.i ≤ s.endIndex
  lt : s.pc.body = true → s.i < s.endIndex
  start : s.pc = .wait .start ∨ (∃ phase, s.pc = .blocked .start phase) →
    s.i = rangeStart numValues numPairs (pair t)
  ended : s.pc = .store ∨ s.pc = .done → s.i = s.endIndex
  hyper : s.pc = .setFinished → isHyperThread t = true
  main : s.pc = .spin ∨ s.pc = .compare ∨ s.pc = .reset →
    isHyperThread t = false ∧ s.localTempResult = calcFunc t s.i

theorem Local.init (calcFunc : CalcFunc) (numValues : Nat) (t : Fin 4) :
    Local calcFunc numValues t (Worker.start numValues t) where
  endIndex := rfl
  ge := Nat.le_refl _
  le := rangeStart_le_end
  lt h := Bool.noConfusion h
  start _ := rfl
  ended h := by simp [Worker.start] at h
  hyper h := by simp [Worker.start] at h
  main h := by simp [Worker.start] at h

/-- A step inside of an iteration. -/
theorem Local.move (h : Local calcFunc numValues t s) (hi : s'.i = s.i)
    (hend : s'.endIndex = s.endIndex) (hlt : s'.pc.body = true → s.i < s.endIndex)
    (hstart : s'.pc = .wait .start ∨ (∃ phase, s'.pc = .blocked .start phase) →
      s.pc = .wait .start)
    (hover : s'.pc = .store ∨ s'.pc = .done → s.i = s.endIndex)
    (hhyper : s'.pc = .setFinished → isHyperThread t = true)
    (hmain : s'.pc = .spin ∨ s'.pc = .compare ∨ s'.pc = .reset →
      isHyperThread t = false ∧ s'.localTempResult = calcFunc t s.i) :
    Local calcFunc numValues t s' where
  endIndex := by rw [hend]; exact h.endIndex
  ge := by rw [hi]; exact h.ge
  le := by rw [hi, hend]; exact h.le
  lt hb := by rw [hi, hend]; exact hlt hb
  start hs := by rw [hi]; exact h.start (.inl (hstart hs))
  ended ho := by rw [hi, hend]; exact hover ho
  hyper := hhyper
  main hm := by rw [hi]; exact hmain hm

theorem Local.step (h : Local calcFunc numValues t s)
    (hs : (hyperReplicated calcFunc).next t w m s = some (m', s', evs)) :
    Local calcFunc numValues t s' := by
  have hbody : s.pc.body = true → s.i < s.endIndex := h.lt
  cases step_cases hs with
  | wait site hpc =>
    rw [hpc] at hbody
    cases site with
    | start =>
      exact h.move rfl rfl (fun hc => Bool.noConfusion hc) (fun _ => hpc) (by simp) (by simp)
        (by simp)
    | loop => exact h.move rfl rfl (fun _ => hbody rfl) (by simp) (by simp) (by simp) (by simp)
  | leave site phase hpc =>
    rw [hpc] at hbody
    cases site with
    | start =>
      exact h.move rfl rfl (fun hc => Bool.noConfusion hc) (by simp [Site.next])
        (by simp [Site.next]) (by simp [Site.next]) (by simp [Site.next])
    | loop =>
      exact h.move rfl rfl (fun _ => hbody rfl) (by simp [Site.next]) (by simp [Site.next])
        (by simp [Site.next]) (by simp [Site.next])
  | enter _ hlt => exact h.move rfl rfl (fun _ => hlt) (by simp) (by simp) (by simp) (by simp)
  | exit _ hge =>
    have hle := h.le
    exact h.move rfl rfl (fun hc => Bool.noConfusion hc) (by simp) (fun _ => by omega) (by simp)
      (by simp)
  | share hpc ht =>
    rw [hpc] at hbody
    exact h.move rfl rfl (fun _ => hbody rfl) (by simp) (by simp) (fun _ => ht) (by simp)
  | compute hpc ht =>
    rw [hpc] at hbody
    exact h.move rfl rfl (fun _ => hbody rfl) (by simp) (by simp) (by simp) (fun _ => ⟨ht, rfl⟩)
  | setFinished hpc | differ hpc | reset hpc =>
    rw [hpc] at hbody
    exact h.move rfl rfl (fun _ => hbody rfl) (by simp) (by simp) (by simp) (by simp)
  | spin => exact h
  | ready hpc =>
    have hmain := h.main (.inl hpc)
    rw [hpc] at hbody
    exact h.move rfl rfl (fun _ => hbody rfl) (by simp) (by simp) (by simp) (fun _ => hmain)
  | agree hpc =>
    have hmain := h.main (.inr (.inl hpc))
    rw [hpc] at hbody
    exact h.move rfl rfl (fun _ => hbody rfl) (by simp) (by simp) (by simp) (fun _ => hmain)
  | next hpc =>
    rw [hpc] at hbody
    exact ⟨h.endIndex, Nat.le_succ_of_le h.ge, hbody rfl, fun hc => Bool.noConfusion hc, by simp,
      by simp, by simp, by simp⟩
  | store hpc =>
    have hended := h.ended (.inl hpc)
    exact h.move rfl rfl (fun hc => Bool.noConfusion hc) (by simp) (fun _ => hended) (by simp)
      (by simp)

theorem local_invariant {ok : Fin 4 × Unit → State → Prop}
    (h : (system calcFunc numValues).RunsWhere ok tr st) (t : Fin 4) :
    Local calcFunc numValues t (st.regs t) := by
  refine Parallel.rule (P := hyperReplicated calcFunc)
    (I := fun t _ _ s => Local calcFunc numValues t s) (Local.init _ _) ?_ ?_ h t
  · intro t w tr s m r evs _ hI _ hs
    exact (hI t).step hs
  · intro t u w tr s m r evs _ hI _ _
    exact hI u

/-! ## The barrier of a pair -/

abbrev firstIndex (numValues : Nat) (p : Fin 2) : Nat := rangeStart numValues numPairs p

def party (numValues : Nat) (t : Fin 4) (s : Worker) : Party :=
  ⟨s.calls (firstIndex numValues (pair t)), s.pc.waiting⟩

theorem pair_main (p : Fin 2) : pair (main p) = p := Fin.ext (Nat.mod_eq_of_lt p.isLt)

theorem pair_hyper (p : Fin 2) : pair (hyper p) = p :=
  Fin.ext ((Nat.add_mod_right p 2).trans (Nat.mod_eq_of_lt p.isLt))

theorem main_ne_hyper (p : Fin 2) : main p ≠ hyper p := by
  rw [ne_eq, Fin.ext_iff]
  show ¬ p.val = p.val + 2
  omega

theorem pair_eq_iff : pair t = p ↔ t = main p ∨ t = hyper p := by
  simp only [pair, main, hyper, Fin.ext_iff]
  omega

theorem isHyperThread_main (p : Fin 2) : isHyperThread (main p) = false := by
  revert p
  decide

theorem isHyperThread_hyper (p : Fin 2) : isHyperThread (hyper p) = true := by
  revert p
  decide

theorem move (h : Local calcFunc numValues t s)
    (hs : (hyperReplicated calcFunc).next t w m s = some (m', s', evs)) :
    Move (m.barriers (pair t)) (party numValues t s) (m'.barriers (pair t))
      (party numValues t s') := by
  have hge : firstIndex numValues (pair t) ≤ s.i := h.ge
  -- most steps have nothing to do with the barrier
  have hstay : m'.barriers = m.barriers → s'.pc.waiting = s.pc.waiting →
      s'.calls (firstIndex numValues (pair t)) = s.calls (firstIndex numValues (pair t)) →
      Move (m.barriers (pair t)) (party numValues t s) (m'.barriers (pair t))
        (party numValues t s') := by
    intro hbar hwait hcalls
    rw [hbar, party, party, hwait, hcalls]
    exact .stay _
  cases step_cases hs with
  | wait site hpc =>
    have harrive := Move.arrive (b := m.barriers (pair t))
      (s.calls (firstIndex numValues (pair t)))
    simp only [Function.update_self]
    cases site with
    | start | loop => simpa [party, Worker.calls, hpc, Pc.waiting] using harrive
  | leave site phase hpc hphase =>
    have hleave := Move.leave (s.calls (firstIndex numValues (pair t))) phase hphase
    cases site with
    | start =>
      have hfirst := h.start (.inr ⟨phase, hpc⟩)
      simpa [party, Worker.calls, hpc, Pc.waiting, Site.next, hfirst] using hleave
    | loop => simpa [party, Worker.calls, hpc, Pc.waiting, Site.next] using hleave
  | enter hpc | exit hpc | share hpc | compute hpc | setFinished hpc | ready hpc | agree hpc
  | differ hpc | reset hpc | store hpc =>
    exact hstay rfl (by simp [hpc, Pc.waiting]) (by simp [Worker.calls, hpc])
  | spin => exact hstay rfl rfl rfl
  | next hpc =>
    refine hstay rfl (by simp [hpc, Pc.waiting]) ?_
    simp only [Worker.calls, hpc]
    omega

/-- A step concerns the pair of its thread only. -/
theorem next_frame (hs : (hyperReplicated calcFunc).next t w m s = some (m', s', evs))
    (hp : pair t ≠ p) :
    m'.globalTempResults p = m.globalTempResults p ∧
      m'.hyperThreadsFinished p = m.hyperThreadsFinished p ∧ m'.barriers p = m.barriers p := by
  cases step_cases hs <;> simp [Function.update_of_ne (Ne.symm hp)]

theorem paired {ok : Fin 4 × Unit → State → Prop}
    (h : (system calcFunc numValues).RunsWhere ok tr st) (p : Fin 2) :
    Paired (st.shared.barriers p) (party numValues (main p) (st.regs (main p)))
      (party numValues (hyper p) (st.regs (hyper p))) := by
  refine Parallel.paired (P := hyperReplicated calcFunc) (fun m => m.barriers p)
    (fun t _ s => party numValues t s) (main_ne_hyper p) Paired.init ?_ ?_ ?_ h
  · intro t w tr s m r evs hr ht hs
    obtain rfl : pair t = p := pair_eq_iff.mpr ht
    exact move (local_invariant hr t) hs
  · intro t u w tr m s m' s' evs r _ _
    rfl
  · intro t w m s m' s' evs hmain hhyper hs
    have hp : pair t ≠ p := fun hc => (pair_eq_iff.mp hc).elim hmain hhyper
    exact (next_frame hs hp).2.2

/-! ## The exchange of values -/

theorem calls_le_rounds (s : Worker) (first : Nat) : s.calls first ≤ s.rounds first + 1 := by
  cases hpc : s.pc with
  | wait site | blocked site phase => cases site <;> simp [Worker.calls, Worker.rounds, hpc]
  | _ => simp [Worker.calls, Worker.rounds, hpc]

theorem rounds_le_stores (s : Worker) (first : Nat) : s.rounds first ≤ s.stores first := by
  cases hpc : s.pc with
  | wait site | blocked site phase => cases site <;> simp [Worker.rounds, Worker.stores, hpc]
  | _ => simp [Worker.rounds, Worker.stores, hpc]

/-- A call of the barrier that has not returned counts for no value. -/
theorem stores_le_calls (h : Local calcFunc numValues t s) :
    s.stores (firstIndex numValues (pair t)) + (if s.pc.waiting = none then 0 else 1) ≤
      s.calls (firstIndex numValues (pair t)) := by
  have hfirst := h.start
  cases hpc : s.pc with
  | wait site | blocked site phase =>
    cases site <;> simp_all [Worker.stores, Worker.calls, Pc.waiting]
  | _ => simp [Worker.stores, Worker.calls, Pc.waiting, hpc]

/-- A hyper-thread is with its main thread or behind it. -/
theorem stores_le {ok : Fin 4 × Unit → State → Prop}
    (h : (system calcFunc numValues).RunsWhere ok tr st) (p : Fin 2) :
    (st.regs (hyper p)).stores (firstIndex numValues p) ≤
      (st.regs (main p)).calls (firstIndex numValues p) := by
  have hstores := stores_le_calls (local_invariant h (hyper p))
  have hpaired := (paired h p).symm
  have hsucc := hpaired.calls_le_succ
  simp only [party, pair_main, pair_hyper] at hstores hpaired hsucc
  by_cases hwait : (st.regs (hyper p)).pc.waiting = none
  · have hle := hpaired.calls_le hwait
    dsimp only at hle
    rw [if_pos hwait] at hstores
    omega
  · rw [if_neg hwait] at hstores
    omega

/-! ### The index of a value -/

@[simp] theorem lastIndex_calculated {i : Nat} :
    lastIndex t (tr ++ [.calculated u i]) = if u = t then some i else lastIndex t tr := by
  by_cases h : u = t <;> simp [lastIndex, Event.index, h]

@[simp] theorem lastIndex_compared {i : Nat} {v v' : Value} :
    lastIndex t (tr ++ [.compared u i v v']) = lastIndex t tr := by
  simp [lastIndex, Event.index]

/-- The index that the value of a thread is for: the value in the shared array, for a
hyper-thread, and the one that the thread is about to compare. -/
structure Indexed (numValues : Nat) (t : Fin 4) (tr : List Event) (s : Worker) : Prop where
  stored : isHyperThread t = true → ∀ k, s.stores (firstIndex numValues (pair t)) = k + 1 →
    lastIndex t tr = some (firstIndex numValues (pair t) + k)
  computed : s.pc = .spin ∨ s.pc = .compare → lastIndex t tr = some s.i

theorem Indexed.quiet (h : Indexed numValues t tr s)
    (hlast : lastIndex t (tr ++ evs) = lastIndex t tr)
    (hstores : s'.stores (firstIndex numValues (pair t)) =
      s.stores (firstIndex numValues (pair t)))
    (hpc : s'.pc = .spin ∨ s'.pc = .compare → s.pc = .spin ∧ s'.i = s.i) :
    Indexed numValues t (tr ++ evs) s' where
  stored := by rw [hlast, hstores]; exact h.stored
  computed hpc' := by
    obtain ⟨hspin, hi⟩ := hpc hpc'
    rw [hlast, hi]
    exact h.computed (.inl hspin)

theorem Indexed.step (h : Indexed numValues t tr s) (hl : Local calcFunc numValues t s)
    (hs : (hyperReplicated calcFunc).next t w m s = some (m', s', evs)) :
    Indexed numValues t (tr ++ evs) s' := by
  have hge : firstIndex numValues (pair t) ≤ s.i := hl.ge
  have hnil : lastIndex t (tr ++ []) = lastIndex t tr := by rw [List.append_nil]
  cases step_cases hs with
  | wait site hpc =>
    cases site <;> exact h.quiet hnil (by simp [Worker.stores, hpc]) (by simp)
  | leave site phase hpc =>
    cases site <;> exact h.quiet hnil (by simp [Worker.stores, hpc, Site.next])
      (by simp [Site.next])
  | enter hpc | exit hpc | setFinished hpc | store hpc =>
    exact h.quiet hnil (by simp [Worker.stores, hpc]) (by simp)
  | share hpc =>
    refine ⟨fun _ k hk => ?_, by simp⟩
    have hsame : s.i - firstIndex numValues (pair t) + 1 = k + 1 := hk
    rw [lastIndex_calculated, if_pos rfl]
    exact congrArg some (by omega)
  | compute hpc ht =>
    refine ⟨fun hhyper => ?_, fun _ => ?_⟩
    · rw [ht] at hhyper
      cases hhyper
    · rw [lastIndex_calculated, if_pos rfl]
  | spin hpc => exact h.quiet hnil rfl fun _ => ⟨hpc, rfl⟩
  | ready hpc => exact h.quiet hnil (by simp [Worker.stores, hpc]) fun _ => ⟨hpc, rfl⟩
  | agree hpc | differ hpc =>
    refine ⟨fun hhyper => ?_, by simp⟩
    rw [(hl.main (.inr (.inl hpc))).1] at hhyper
    cases hhyper
  | reset hpc =>
    refine ⟨fun hhyper => ?_, by simp⟩
    rw [(hl.main (.inr (.inr hpc))).1] at hhyper
    cases hhyper
  | next hpc =>
    refine h.quiet hnil ?_ (by simp)
    simp only [Worker.stores, hpc]
    omega

/-- Another thread neither computes nor compares for this one, nor stores its result. -/
theorem next_other (hs : (hyperReplicated calcFunc).next t w m s = some (m', s', evs))
    (hne : u ≠ t) : m'.results u = m.results u ∧ (∀ i v v', .compared u i v v' ∉ evs) ∧
      ∀ tr, lastIndex u (tr ++ evs) = lastIndex u tr := by
  cases step_cases hs <;> simp [hne, Ne.symm hne]

theorem indexed {ok : Fin 4 × Unit → State → Prop}
    (h : (system calcFunc numValues).RunsWhere ok tr st) (t : Fin 4) :
    Indexed numValues t tr (st.regs t) := by
  refine Parallel.rule (P := hyperReplicated calcFunc)
    (I := fun t tr _ s => Indexed numValues t tr s) ?_ ?_ ?_ h t
  · intro t
    refine ⟨fun _ k hk => ?_, by simp [Worker.start]⟩
    simp [Worker.stores, Worker.start] at hk
  · intro t w tr s m r evs hr hI _ hs
    exact (hI t).step (local_invariant hr t) hs
  · intro t u w tr s m r evs _ hI hne hs
    have hlast := (next_other hs hne).2.2 tr
    exact ⟨by rw [hlast]; exact (hI u).stored, by rw [hlast]; exact (hI u).computed⟩

/-! ### The flag -/

/-- The memory and the two threads `a` and `b` of pair `p`. The flag is right as long as the values
of all iterations that the main thread is through with agreed. -/
structure Exchange (calcFunc : CalcFunc) (numValues : Nat) (p : Fin 2) (m : Memory)
    (a b : Worker) : Prop where
  stored : ∀ j, b.stores (firstIndex numValues p) = j + 1 →
    m.globalTempResults p = calcFunc (hyper p) (firstIndex numValues p + j)
  flag : (∀ j, j < a.rounds (firstIndex numValues p) →
      calcFunc (main p) (firstIndex numValues p + j) =
        calcFunc (hyper p) (firstIndex numValues p + j)) →
    m.hyperThreadsFinished p =
        decide (a.rounds (firstIndex numValues p) < b.rounds (firstIndex numValues p)) ∧
      a.rounds (firstIndex numValues p) ≤ b.rounds (firstIndex numValues p)
  seen : a.pc = .compare ∨ a.pc = .reset → m.hyperThreadsFinished p = true

/-- After a mismatch the value of the hyper-thread does not change. -/
def Undisturbed (calcFunc : CalcFunc) (numValues : Nat) : Prop :=
  ∀ p k j, firstIndex numValues p ≤ k → k ≤ j → j + 1 < rangeEnd numValues numPairs p →
    calcFunc (main p) k ≠ calcFunc (hyper p) k →
    calcFunc (hyper p) (j + 1) = calcFunc (hyper p) j

/-- A main thread that compares is in the iteration of its index. -/
theorem compare_cases {ok : Fin 4 × Unit → State → Prop}
    (h : (system calcFunc numValues).RunsWhere ok tr st) (hpc : (st.regs (main p)).pc = .compare) :
    ∃ k, (st.regs (main p)).i = firstIndex numValues p + k ∧
      firstIndex numValues p + k < rangeEnd numValues numPairs p ∧
      (st.regs (main p)).rounds (firstIndex numValues p) = k ∧
      (st.regs (main p)).calls (firstIndex numValues p) = k + 1 := by
  have hlocal := local_invariant h (main p)
  have hge : firstIndex numValues p ≤ (st.regs (main p)).i := by
    have := hlocal.ge
    rwa [pair_main] at this
  have hlt : (st.regs (main p)).i < rangeEnd numValues numPairs p := by
    have hbody := hlocal.lt (by rw [hpc]; rfl)
    rwa [hlocal.endIndex, pair_main] at hbody
  obtain ⟨k, hk⟩ := Nat.exists_eq_add_of_le hge
  refine ⟨k, hk, by omega, ?_, ?_⟩
  · simp [Worker.rounds, hpc, hk]
  · simp [Worker.calls, hpc, hk]

/-- Up to the first mismatch the flag tells that the value is there. -/
theorem Exchange.stores_eq {k : Nat} {ok : Fin 4 × Unit → State → Prop}
    (hx : Exchange calcFunc numValues p st.shared (st.regs (main p)) (st.regs (hyper p)))
    (h : (system calcFunc numValues).RunsWhere ok tr st) (hpc : (st.regs (main p)).pc = .compare)
    (hk : (st.regs (main p)).i = firstIndex numValues p + k)
    (hall : ∀ j, j < k → calcFunc (main p) (firstIndex numValues p + j) =
      calcFunc (hyper p) (firstIndex numValues p + j)) :
    (st.regs (hyper p)).stores (firstIndex numValues p) = k + 1 := by
  obtain ⟨k', hk', -, hrounds, hcalls⟩ := compare_cases h hpc
  obtain rfl : k = k' := by omega
  have hstores := stores_le h p
  have hge := rounds_le_stores (st.regs (hyper p)) (firstIndex numValues p)
  have hflag := (hx.flag (by rw [hrounds]; exact hall)).1
  rw [hx.seen (.inl hpc), eq_comm, decide_eq_true_eq] at hflag
  omega

/-- A comparison is with the value for the same index, or for the one before after a mismatch. -/
theorem Exchange.value {ok : Fin 4 × Unit → State → Prop}
    (hx : Exchange calcFunc numValues p st.shared (st.regs (main p)) (st.regs (hyper p)))
    (hu : Undisturbed calcFunc numValues)
    (h : (system calcFunc numValues).RunsWhere ok tr st) (hpc : (st.regs (main p)).pc = .compare) :
    st.shared.globalTempResults p = calcFunc (hyper p) (st.regs (main p)).i := by
  obtain ⟨k, hk, hlt, hrounds, hcalls⟩ := compare_cases h hpc
  rw [hk]
  by_cases hall : ∀ j, j < k → calcFunc (main p) (firstIndex numValues p + j) =
      calcFunc (hyper p) (firstIndex numValues p + j)
  · exact hx.stored k (hx.stores_eq h hpc hk hall)
  · -- the value is there or the one before is, and they are the same
    simp only [not_forall] at hall
    obtain ⟨j, hj, hne⟩ := hall
    have hahead : (st.regs (main p)).calls (firstIndex numValues p) ≤
        (st.regs (hyper p)).calls (firstIndex numValues p) := by
      have hle := (paired h p).calls_le (by rw [party, hpc]; rfl)
      simpa only [party, pair_main, pair_hyper] using hle
    have hstores := stores_le h p
    have hge := rounds_le_stores (st.regs (hyper p)) (firstIndex numValues p)
    have hcalls' := calls_le_rounds (st.regs (hyper p)) (firstIndex numValues p)
    by_cases hthere : (st.regs (hyper p)).stores (firstIndex numValues p) = k + 1
    · exact hx.stored k hthere
    · obtain ⟨k, rfl⟩ : ∃ k', k = k' + 1 := ⟨k - 1, by omega⟩
      rw [hx.stored k (by omega)]
      exact (hu p _ (firstIndex numValues p + k) (Nat.le_add_right _ j) (by omega) (by omega)
        hne).symm

/-! ## Steps of the exchange -/

theorem Exchange.init (calcFunc : CalcFunc) (numValues : Nat) (p : Fin 2) :
    Exchange calcFunc numValues p ⟨fun _ => 0, fun _ => false, fun _ => .init, fun _ => 0⟩
      (Worker.start numValues (main p)) (Worker.start numValues (hyper p)) := by
  have hmain : (Worker.start numValues (main p)).rounds (firstIndex numValues p) = 0 := by
    simp [Worker.rounds, Worker.start, pair_main]
  have hhyper : (Worker.start numValues (hyper p)).rounds (firstIndex numValues p) = 0 := by
    simp [Worker.rounds, Worker.start, pair_hyper]
  have hstores : (Worker.start numValues (hyper p)).stores (firstIndex numValues p) = 0 := by
    simp [Worker.stores, Worker.start, pair_hyper]
  refine ⟨fun j hj => ?_, fun _ => ?_, fun hpc => ?_⟩
  · omega
  · rw [hmain, hhyper]
    exact ⟨rfl, Nat.le_refl 0⟩
  · rcases hpc with hpc | hpc <;> cases hpc

/-- A step of the main thread that leaves the flag alone and ends no iteration. -/
theorem Exchange.main_quiet {a' : Worker} (h : Exchange calcFunc numValues p m a b)
    (hrounds : a'.rounds (firstIndex numValues p) = a.rounds (firstIndex numValues p))
    (hstored : m'.globalTempResults = m.globalTempResults)
    (hflag : m'.hyperThreadsFinished = m.hyperThreadsFinished)
    (hseen : a'.pc = .compare ∨ a'.pc = .reset → m.hyperThreadsFinished p = true) :
    Exchange calcFunc numValues p m' a' b where
  stored := by rw [hstored]; exact h.stored
  flag := by rw [hflag, hrounds]; exact h.flag
  seen := by rw [hflag]; exact hseen

theorem Exchange.hyper_quiet {b' : Worker} (h : Exchange calcFunc numValues p m a b)
    (hrounds : b'.rounds (firstIndex numValues p) = b.rounds (firstIndex numValues p))
    (hstores : b'.stores (firstIndex numValues p) = b.stores (firstIndex numValues p))
    (hstored : m'.globalTempResults = m.globalTempResults)
    (hflag : m'.hyperThreadsFinished = m.hyperThreadsFinished) :
    Exchange calcFunc numValues p m' a b' where
  stored := by rw [hstored, hstores]; exact h.stored
  flag := by rw [hflag, hrounds]; exact h.flag
  seen := by rw [hflag]; exact h.seen

theorem Exchange.main_step (h : Exchange calcFunc numValues p m a b)
    (hl : Local calcFunc numValues (main p) a)
    (hstores : b.stores (firstIndex numValues p) ≤ a.calls (firstIndex numValues p))
    (hvalue : a.pc = .compare → m.globalTempResults p = calcFunc (hyper p) a.i)
    (hs : (hyperReplicated calcFunc).next (main p) w m a = some (m', s', evs)) :
    Exchange calcFunc numValues p m' s' b := by
  have hge : firstIndex numValues p ≤ a.i := by
    have := hl.ge
    rwa [pair_main] at this
  cases step_cases hs with
  | wait site hpc =>
    cases site <;> exact h.main_quiet (by simp [Worker.rounds, hpc]) rfl rfl (by simp)
  | leave site phase hpc =>
    cases site <;> exact h.main_quiet (by simp [Worker.rounds, hpc, Site.next]) rfl rfl
      (by simp [Site.next])
  | enter hpc | exit hpc | compute hpc | store hpc =>
    exact h.main_quiet (by simp [Worker.rounds, hpc]) rfl rfl (by simp)
  | share _ ht =>
    rw [isHyperThread_main] at ht
    cases ht
  | setFinished hpc =>
    have hhyper := hl.hyper hpc
    rw [isHyperThread_main] at hhyper
    cases hhyper
  | spin => exact h
  | ready hpc hflag =>
    rw [pair_main] at hflag
    exact h.main_quiet (by simp [Worker.rounds, hpc]) rfl rfl fun _ => hflag
  | agree hpc =>
    exact h.main_quiet (by simp [Worker.rounds, hpc]) rfl rfl fun _ => h.seen (.inl hpc)
  | differ hpc hne =>
    -- after a mismatch nothing is said about the flag
    rw [(hl.main (.inr (.inl hpc))).2, pair_main, hvalue hpc] at hne
    refine ⟨h.stored, fun hall => ?_, by simp⟩
    have hlast := hall (a.i - firstIndex numValues p) (by simp [Worker.rounds])
    rw [Nat.add_sub_cancel' hge] at hlast
    exact absurd hlast hne
  | reset hpc =>
    have hseen := h.seen (.inr hpc)
    have hrounds : a.rounds (firstIndex numValues p) = a.i - firstIndex numValues p := by
      simp [Worker.rounds, hpc]
    have hcalls : a.calls (firstIndex numValues p) = a.i - firstIndex numValues p + 1 := by
      simp [Worker.calls, hpc]
    have hle := rounds_le_stores b (firstIndex numValues p)
    have hrounds' : Worker.rounds (firstIndex numValues p) { a with pc := .wait .loop } =
        a.i - firstIndex numValues p + 1 := rfl
    refine ⟨h.stored, fun hall => ?_, by simp⟩
    rw [hrounds'] at hall
    obtain ⟨hflag, -⟩ := h.flag fun j hj => hall j (by omega)
    rw [hseen, eq_comm, decide_eq_true_eq] at hflag
    have hsame : b.rounds (firstIndex numValues p) = a.i - firstIndex numValues p + 1 := by omega
    rw [hrounds', hsame, pair_main]
    exact ⟨by simp, Nat.le_refl _⟩
  | next hpc =>
    refine h.main_quiet ?_ rfl rfl (by simp)
    simp only [Worker.rounds, hpc]
    omega

theorem Exchange.hyper_step (h : Exchange calcFunc numValues p m a b)
    (hl : Local calcFunc numValues (hyper p) b)
    (hs : (hyperReplicated calcFunc).next (hyper p) w m b = some (m', s', evs)) :
    Exchange calcFunc numValues p m' a s' := by
  have hge : firstIndex numValues p ≤ b.i := by
    have := hl.ge
    rwa [pair_hyper] at this
  -- what only a main thread does
  have hnot : ¬ (b.pc = .spin ∨ b.pc = .compare ∨ b.pc = .reset) := by
    intro hc
    have hmain := (hl.main hc).1
    rw [isHyperThread_hyper] at hmain
    cases hmain
  cases step_cases hs with
  | wait site hpc =>
    cases site <;> exact h.hyper_quiet (by simp [Worker.rounds, hpc])
      (by simp [Worker.stores, hpc]) rfl rfl
  | leave site phase hpc =>
    cases site <;> exact h.hyper_quiet (by simp [Worker.rounds, hpc, Site.next])
      (by simp [Worker.stores, hpc, Site.next]) rfl rfl
  | enter hpc | exit hpc | store hpc =>
    exact h.hyper_quiet (by simp [Worker.rounds, hpc]) (by simp [Worker.stores, hpc]) rfl rfl
  | share hpc =>
    have hrounds : Worker.rounds (firstIndex numValues p) { b with pc := .setFinished } =
        b.rounds (firstIndex numValues p) := by simp [Worker.rounds, hpc]
    refine ⟨fun j hj => ?_, by rw [hrounds]; exact h.flag, h.seen⟩
    have hsame : b.i - firstIndex numValues p + 1 = j + 1 := hj
    rw [show firstIndex numValues p + j = b.i by omega, pair_hyper]
    exact Function.update_self ..
  | compute _ ht =>
    rw [isHyperThread_hyper] at ht
    cases ht
  | setFinished hpc =>
    have hrounds : b.rounds (firstIndex numValues p) = b.i - firstIndex numValues p := by
      simp [Worker.rounds, hpc]
    have hrounds' : Worker.rounds (firstIndex numValues p) { b with pc := .wait .loop } =
        b.i - firstIndex numValues p + 1 := rfl
    have hstores : b.stores (firstIndex numValues p) =
        Worker.stores (firstIndex numValues p) { b with pc := .wait .loop } := by
      simp [Worker.stores, hpc]
    rw [pair_hyper]
    refine ⟨by rw [← hstores]; exact h.stored, fun hall => ?_, fun _ => ?_⟩
    · have hle := (h.flag hall).2
      rw [hrounds', decide_eq_true (by omega)]
      exact ⟨Function.update_self .., by omega⟩
    · exact Function.update_self ..
  | spin => exact h
  | ready hpc => exact absurd (.inl hpc) hnot
  | agree hpc | differ hpc => exact absurd (.inr (.inl hpc)) hnot
  | reset hpc => exact absurd (.inr (.inr hpc)) hnot
  | next hpc =>
    refine h.hyper_quiet ?_ ?_ rfl rfl
    · simp only [Worker.rounds, hpc]
      omega
    · simp only [Worker.stores, hpc]
      omega

theorem exchange {ok : Fin 4 × Unit → State → Prop} (hu : Undisturbed calcFunc numValues)
    (h : (system calcFunc numValues).RunsWhere ok tr st) (p : Fin 2) :
    Exchange calcFunc numValues p st.shared (st.regs (main p)) (st.regs (hyper p)) := by
  refine h.rule (I := fun _ st =>
    Exchange calcFunc numValues p st.shared (st.regs (main p)) (st.regs (hyper p)))
    (Exchange.init calcFunc numValues p) ?_
  intro l tr st st' evs hr ih _ hs
  obtain ⟨m, r, hx, rfl⟩ := Parallel.step_cases (P := hyperReplicated calcFunc) hs
  show Exchange calcFunc numValues p m (Function.update st.regs l.1 r (main p))
    (Function.update st.regs l.1 r (hyper p))
  by_cases hmain : l.1 = main p
  · rw [hmain] at hx
    rw [hmain, Function.update_self, Function.update_of_ne (main_ne_hyper p).symm]
    exact ih.main_step (local_invariant hr _) (stores_le hr p) (fun hpc => ih.value hu hr hpc) hx
  · by_cases hhyper : l.1 = hyper p
    · rw [hhyper] at hx
      rw [hhyper, Function.update_self, Function.update_of_ne (main_ne_hyper p)]
      exact ih.hyper_step (local_invariant hr _) hx
    · have hp : pair l.1 ≠ p := fun hc => (pair_eq_iff.mp hc).elim hmain hhyper
      obtain ⟨hstored, hflag, -⟩ := next_frame hx hp
      rw [Function.update_of_ne (Ne.symm hmain), Function.update_of_ne (Ne.symm hhyper)]
      exact ⟨by rw [hstored]; exact ih.stored, by rw [hflag]; exact ih.flag,
        by rw [hflag]; exact ih.seen⟩

/-! ## The sum -/

/-- The sum over the first `k` indices of pair `p`, where the values agree. -/
def agreeSum (calcFunc : CalcFunc) (numValues : Nat) (p : Fin 2) (k : Nat) : Value :=
  ∑ i ∈ (Finset.Ico (firstIndex numValues p) (firstIndex numValues p + k)).filter
    fun i => calcFunc (main p) i = calcFunc (hyper p) i, calcFunc (main p) i

theorem agreeSum_succ (calcFunc : CalcFunc) (numValues : Nat) (p : Fin 2) (k : Nat) :
    agreeSum calcFunc numValues p (k + 1) = agreeSum calcFunc numValues p k +
      if calcFunc (main p) (firstIndex numValues p + k) =
          calcFunc (hyper p) (firstIndex numValues p + k) then
        calcFunc (main p) (firstIndex numValues p + k)
      else 0 := by
  unfold agreeSum
  rw [Finset.sum_filter, Finset.sum_filter, ← Nat.add_assoc,
    Finset.sum_Ico_succ_top (Nat.le_add_right _ k)]

/-- What the main thread of pair `p` has done so far is right. -/
structure Summed (calcFunc : CalcFunc) (numValues : Nat) (p : Fin 2) (tr : List Event) (m : Memory)
    (s : Worker) : Prop where
  events : ∀ i v w, .compared (main p) i v w ∈ tr →
    v = calcFunc (main p) i ∧ w = calcFunc (hyper p) i
  sum : s.tempResult = agreeSum calcFunc numValues p (s.compared (firstIndex numValues p))
  result : s.pc = .done → m.results (main p) = toDouble s.tempResult.toInt

theorem Summed.init (m : Memory) :
    Summed calcFunc numValues p [] m (Worker.start numValues (main p)) where
  events i v w he := by cases he
  sum := by simp [Worker.start, Worker.compared, agreeSum, pair_main]
  result h := by simp [Worker.start] at h

/-- A step without a comparison. -/
theorem Summed.quiet (h : Summed calcFunc numValues p tr m s)
    (hevs : ∀ i v w, .compared (main p) i v w ∉ evs) (hsum : s'.tempResult = s.tempResult)
    (hcompared : s'.compared (firstIndex numValues p) = s.compared (firstIndex numValues p))
    (hresult : s'.pc = .done → m'.results (main p) = toDouble s'.tempResult.toInt) :
    Summed calcFunc numValues p (tr ++ evs) m' s' where
  events i v w he := by
    rcases List.mem_append.mp he with he | he
    · exact h.events i v w he
    · exact absurd he (hevs i v w)
  sum := by rw [hsum, hcompared]; exact h.sum
  result := hresult

theorem Summed.step (h : Summed calcFunc numValues p tr m s)
    (hl : Local calcFunc numValues (main p) s)
    (hvalue : s.pc = .compare → m.globalTempResults p = calcFunc (hyper p) s.i)
    (hs : (hyperReplicated calcFunc).next (main p) w m s = some (m', s', evs)) :
    Summed calcFunc numValues p (tr ++ evs) m' s' := by
  have hge : firstIndex numValues p ≤ s.i := by
    have := hl.ge
    rwa [pair_main] at this
  have hindex : firstIndex numValues p + (s.i - firstIndex numValues p) = s.i := by omega
  -- an event of the main thread, in an iteration that has not been counted yet
  have hcompare : s.pc = .compare →
      s.tempResult = agreeSum calcFunc numValues p (s.i - firstIndex numValues p) ∧
      ∀ i v w, .compared (main p) i v w ∈ tr ++ [.compared (main p) s.i s.localTempResult
        (m.globalTempResults (pair (main p)))] →
        v = calcFunc (main p) i ∧ w = calcFunc (hyper p) i := by
    intro hpc
    have hsum := h.sum
    simp only [Worker.compared, hpc] at hsum
    refine ⟨hsum, ?_⟩
    intro i v w he
    rcases List.mem_append.mp he with he | he
    · exact h.events i v w he
    · cases List.mem_singleton.mp he
      rw [pair_main]
      exact ⟨(hl.main (.inr (.inl hpc))).2, hvalue hpc⟩
  cases step_cases hs with
  | wait site hpc =>
    cases site <;> exact h.quiet (by simp) rfl (by simp [Worker.compared, hpc]) (by simp)
  | leave site phase hpc =>
    cases site <;> exact h.quiet (by simp) rfl (by simp [Worker.compared, hpc, Site.next])
      (by simp [Site.next])
  | enter hpc | exit hpc | share hpc | compute hpc | ready hpc | reset hpc =>
    exact h.quiet (by simp) rfl (by simp [Worker.compared, hpc]) (by simp)
  | setFinished hpc =>
    have hhyper := hl.hyper hpc
    rw [isHyperThread_main] at hhyper
    cases hhyper
  | spin hpc => exact h.quiet (by simp) rfl rfl (by simp [hpc])
  | agree hpc heq =>
    obtain ⟨hsum, hevents⟩ := hcompare hpc
    have hlocal := (hl.main (.inr (.inl hpc))).2
    rw [pair_main, hvalue hpc, hlocal] at heq
    refine ⟨hevents, ?_, by simp⟩
    show s.tempResult + s.localTempResult = agreeSum calcFunc numValues p _
    rw [Worker.compared]
    dsimp only
    rw [agreeSum_succ, hindex, if_pos heq, hsum, hlocal]
  | differ hpc hne =>
    obtain ⟨hsum, hevents⟩ := hcompare hpc
    rw [pair_main, hvalue hpc, (hl.main (.inr (.inl hpc))).2] at hne
    refine ⟨hevents, ?_, by simp⟩
    show s.tempResult = agreeSum calcFunc numValues p _
    rw [Worker.compared]
    dsimp only
    rw [agreeSum_succ, hindex, if_neg hne, hsum, add_zero]
  | next hpc =>
    refine h.quiet (by simp) rfl ?_ (by simp)
    simp only [Worker.compared, hpc]
    omega
  | store hpc =>
    exact h.quiet (by simp) rfl (by simp [Worker.compared, hpc]) fun _ => Function.update_self ..

theorem summed {ok : Fin 4 × Unit → State → Prop} (hu : Undisturbed calcFunc numValues)
    (h : (system calcFunc numValues).RunsWhere ok tr st) (p : Fin 2) :
    Summed calcFunc numValues p tr st.shared (st.regs (main p)) := by
  refine Parallel.rule (P := hyperReplicated calcFunc)
    (I := fun t tr m s => t = main p → Summed calcFunc numValues p tr m s) ?_ ?_ ?_ h (main p) rfl
  · rintro t rfl
    exact Summed.init _
  · rintro t w tr s m r evs hr hI _ hs rfl
    exact (hI _ rfl).step (local_invariant hr _) (fun hpc => (exchange hu hr p).value hu hr hpc) hs
  · rintro t u w tr s m r evs _ hI hne hs rfl
    obtain ⟨hresults, hevs, -⟩ := next_other hs hne
    have hsum := hI _ rfl
    refine ⟨fun i v w he => ?_, hsum.sum, fun hpc => by rw [hresults]; exact hsum.result hpc⟩
    rcases List.mem_append.mp he with he | he
    · exact hsum.events i v w he
    · exact absurd he (hevs i v w)

/-- What a main thread that is done has added up. -/
theorem tempResult_eq {ok : Fin 4 × Unit → State → Prop} (hu : Undisturbed calcFunc numValues)
    (h : (system calcFunc numValues).RunsWhere ok tr st) (hpc : (st.regs (main p)).pc = .done) :
    (st.regs (main p)).tempResult = ∑ i ∈ agreeing calcFunc numValues p, calcFunc (main p) i ∧
      st.shared.results (main p) = toDouble (st.regs (main p)).tempResult.toInt := by
  have hsummed := summed hu h p
  have hlocal := local_invariant h (main p)
  have hcompared : (st.regs (main p)).compared (firstIndex numValues p) =
      rangeEnd numValues numPairs p - firstIndex numValues p := by
    simp [Worker.compared, hpc, hlocal.ended (.inr hpc), hlocal.endIndex, pair_main]
  refine ⟨?_, hsummed.result hpc⟩
  rw [hsummed.sum, hcompared, agreeSum, Nat.add_sub_cancel' rangeStart_le_end]
  rfl

/-! ## Mismatches that nothing follows -/

/-- The values differ at the last index of a range at most. -/
def AgreeUntilLast (calcFunc : CalcFunc) (numValues : Nat) : Prop :=
  ∀ p k, firstIndex numValues p ≤ k → k + 1 < rangeEnd numValues numPairs p →
    calcFunc (main p) k = calcFunc (hyper p) k

theorem AgreeUntilLast.undisturbed (ha : AgreeUntilLast calcFunc numValues) :
    Undisturbed calcFunc numValues := by
  intro p k j hk hkj hj hne
  exact absurd (ha p k hk (by omega)) hne

/-- Then a main thread compares with the value for its index. -/
theorem sameIndex (ha : AgreeUntilLast calcFunc numValues)
    (h : (system calcFunc numValues).Runs tr st) (hpc : (st.regs (main p)).pc = .compare) :
    lastIndex (main p) tr = some (st.regs (main p)).i ∧
      lastIndex (hyper p) tr = some (st.regs (main p)).i := by
  obtain ⟨k, hk, hlt, -, -⟩ := compare_cases h hpc
  have hstores := (exchange ha.undisturbed h p).stores_eq h hpc hk
    fun j hj => ha p _ (Nat.le_add_right _ j) (by omega)
  have hstored := (indexed h (hyper p)).stored (isHyperThread_hyper p) k
  rw [pair_hyper] at hstored
  refine ⟨(indexed h (main p)).computed (.inr hpc), ?_⟩
  rw [hk]
  exact hstored hstores

theorem preceded_sameIndex (ha : AgreeUntilLast calcFunc numValues)
    (h : (system calcFunc numValues).Runs tr st) : Preceded SameIndex tr := by
  refine System.RunsWhere.preceded ?_ h
  intro l tr st st' evs hr _ hs
  obtain ⟨m, r, hx, -⟩ := Parallel.step_cases (P := hyperReplicated calcFunc) hs
  cases step_cases hx with
  | agree hpc | differ hpc =>
    refine ⟨Nat.le_refl 1, ?_⟩
    intro e he p i v w heq
    rw [List.mem_singleton.mp he] at heq
    injection heq with ht hi
    rw [← hi, ht]
    rw [ht] at hpc
    exact sameIndex ha hr hpc
  | _ => simp [SameIndex]

theorem correct_of_agree (ha : AgreeUntilLast calcFunc numValues)
    (h : (system calcFunc numValues).Runs tr st) : Correct calcFunc numValues tr st := by
  have hresult (p : Fin 2) (hpc : (st.regs (main p)).pc = .done) :
      st.shared.results (main p) =
        toDouble (∑ i ∈ agreeing calcFunc numValues p, calcFunc (main p) i).toInt := by
    obtain ⟨htemp, hres⟩ := tempResult_eq ha.undisturbed h hpc
    rw [hres, htemp]
  refine ⟨preceded_sameIndex ha h, fun p => (summed ha.undisturbed h p).events, hresult, ?_⟩
  intro p hpc hsmall
  rw [hresult p hpc, toDouble_sum hsmall]

end HyperReplicated

end TsxProject
