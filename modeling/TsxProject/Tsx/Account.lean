import Mathlib.Algebra.BigOperators.Fin
import Mathlib.Algebra.BigOperators.Ring.Finset
import TsxProject.Tsx.Transactions

/-!
# Every index is settled once

What a thread has settled is the interval from the start of its range to the index it is at, and
its `result` is the number of these indices plus the number of those with a faulty value.

* `Account` — the invariant of a thread that uses transactions
* `Sum` — the invariant of a thread that does not
* `transactions_account` — the main result
-/

namespace TsxProject

open Infra

namespace Transactions

open Tsx

variable {n T : Nat} {t u : Fin T} {tr evs : List (Event T)} {m m' : Memory} {s s' : Worker}
  {w : Choice}

/-! ## Counting in the trace -/

/-- How often thread `t` has settled index `i`. -/
def settledBy (t : Fin T) (i : Int) (tr : List (Event T)) : Nat :=
  tr.countP fun e => e.settles == some i && decide (e.owner = t)

/-- The faulty indices of thread `t`. -/
def faultyBy (t : Fin T) (tr : List (Event T)) : Nat :=
  tr.countP fun e => e.faulty && decide (e.owner = t)

theorem settledBy_append (t : Fin T) (i : Int) (tr evs : List (Event T)) :
    settledBy t i (tr ++ evs) = settledBy t i tr + settledBy t i evs :=
  List.countP_append

theorem faultyBy_append (t : Fin T) (tr evs : List (Event T)) :
    faultyBy t (tr ++ evs) = faultyBy t tr + faultyBy t evs :=
  List.countP_append

theorem settledBy_of_owner (h : ∀ e ∈ evs, e.owner = t) (hne : u ≠ t) (i : Int) :
    settledBy u i evs = 0 := by
  rw [settledBy, List.countP_eq_zero]
  intro e he
  simp [h e he, Ne.symm hne]

theorem faultyBy_of_owner (h : ∀ e ∈ evs, e.owner = t) (hne : u ≠ t) : faultyBy u evs = 0 := by
  rw [faultyBy, List.countP_eq_zero]
  intro e he
  simp [h e he, Ne.symm hne]

/-! ## With transactions -/

/-- The index that the loop is at, `i--` and `i++` undone. -/
def Worker.current (s : Worker) : Int :=
  match s.pc with
  | .next => s.i + 1
  | _ => s.i

/-- The thread works on index `i`. -/
def Pc.active : Pc → Bool
  | .transaction | .fallback _ | .calculate => true
  | _ => false

/-- The loop is over. -/
def Pc.over : Pc → Bool
  | .store | .done => true
  | _ => false

/-- The result of a thread so far, the value it is about to add included. -/
def Worker.total (s : Worker) (m : Memory) (t : Nat) : Int :=
  match s.pc with
  | .done => m.results t
  | .calculate => s.result + calculateValue m.errors s.i - 1
  | _ => s.result

structure Account (n T : Nat) (t : Fin T) (tr : List (Event T)) (m : Memory) (s : Worker) :
    Prop where
  endIndex : s.endIndex = rangeEnd n T t
  lo : rangeStart n T t ≤ s.current
  hi : s.current ≤ rangeEnd n T t
  active : s.pc.active = true → s.i < rangeEnd n T t
  ended : s.pc.over = true → s.current = rangeEnd n T t
  settled : ∀ i, settledBy t i tr = if rangeStart n T t ≤ i ∧ i < s.current then 1 else 0
  total : s.total m t = s.current - rangeStart n T t + faultyBy t tr

theorem Account.init (m : Memory) : Account n T t [] m (Worker.start n T t) where
  endIndex := rfl
  lo := Int.le_refl _
  hi := Int.ofNat_le.mpr rangeStart_le_end
  active h := by cases h
  ended h := by cases h
  settled i := by
    rw [if_neg]
    · rfl
    · rintro ⟨hlo, hhi⟩
      exact absurd (Int.lt_of_le_of_lt hlo hhi) (Int.lt_irrefl _)
  total := by simp [Worker.total, Worker.start, Worker.current, faultyBy]

/-- A step that settles nothing. -/
theorem Account.quiet (h : Account n T t tr m s) (hend : s'.endIndex = s.endIndex)
    (hcur : s'.current = s.current) (hactive : s'.pc.active = true → s'.i < rangeEnd n T t)
    (hover : s'.pc.over = true → s'.current = rangeEnd n T t)
    (hset : ∀ i, settledBy t i evs = 0)
    (htotal : s'.total m' t = s.total m t + faultyBy t evs) :
    Account n T t (tr ++ evs) m' s' where
  endIndex := hend.trans h.endIndex
  lo := by rw [hcur]; exact h.lo
  hi := by rw [hcur]; exact h.hi
  active := hactive
  ended := hover
  settled i := by rw [settledBy_append, hset, Nat.add_zero, hcur, h.settled]
  total := by
    rw [htotal, h.total, hcur, faultyBy_append]
    push_cast
    omega

/-- The current index is settled. -/
theorem Account.settle (h : Account n T t tr m s) (hend : s'.endIndex = s.endIndex)
    (hcur : s.current < rangeEnd n T t) (hcur' : s'.current = s.current + 1)
    (hactive : s'.pc.active = false) (hover : s'.pc.over = false)
    (hset : ∀ i, settledBy t i evs = if i = s.current then 1 else 0) (hfaulty : faultyBy t evs = 0)
    (htotal : s'.total m' t = s.total m t + 1) : Account n T t (tr ++ evs) m' s' where
  endIndex := hend.trans h.endIndex
  lo := by
    have := h.lo
    omega
  hi := by omega
  active hc := by rw [hactive] at hc; cases hc
  ended hc := by rw [hover] at hc; cases hc
  settled i := by
    have hlo := h.lo
    rw [settledBy_append, hset, h.settled, hcur']
    split <;> split <;> split <;> omega
  total := by
    rw [htotal, h.total, hcur', faultyBy_append, hfaulty]
    push_cast
    omega

/-- The events of a step are those of the thread that takes it. -/
theorem funcWithTM_owner (hs : (funcWithTM T).next t w m s = some (m', s', evs)) :
    ∀ e ∈ evs, e.owner = t := by
  cases funcWithTM_cases hs <;> simp [Event.owner]

/-- What a step does to the memory. -/
theorem funcWithTM_memory (hs : (funcWithTM T).next t w m s = some (m', s', evs)) :
    (∀ k, k ≠ t.val → m'.results k = m.results k) ∧
      ∀ j, m'.errors j = m.errors j ∨ s.pc.active = true ∧ j = s.i := by
  cases funcWithTM_cases hs with
  | retry st hpc | fallBack st hpc =>
    refine ⟨fun _ _ => rfl, ?_⟩
    intro j
    by_cases hj : j = s.i
    · exact .inr ⟨by rw [hpc]; rfl, hj⟩
    · exact .inl (Function.update_of_ne hj _ _)
  | store => exact ⟨fun k hk => Function.update_of_ne hk _ _, fun _ => .inl rfl⟩
  | _ => exact ⟨fun _ _ => rfl, fun _ => .inl rfl⟩

/-- Another thread's step. -/
theorem Account.other (h : Account n T u tr m s) {r : Worker} (hr : Account n T t tr m r)
    {r' : Worker} (hne : u ≠ t) (hs : (funcWithTM T).next t w m r = some (m', r', evs)) :
    Account n T u (tr ++ evs) m' s := by
  have howner := funcWithTM_owner hs
  obtain ⟨hres, herr⟩ := funcWithTM_memory hs
  refine h.quiet rfl rfl h.active h.ended (settledBy_of_owner howner hne) ?_
  rw [faultyBy_of_owner howner hne]
  unfold Worker.total
  split
  · simp [hres u.val fun heq => hne (Fin.ext heq)]
  · next hpc =>
    -- the ranges of the two threads have no index in common
    have hflag : m'.errors s.i = m.errors s.i := by
      refine (herr s.i).resolve_right ?_
      rintro ⟨hact, hi⟩
      have hlt := h.active (by rw [hpc]; rfl)
      have hlt' := hr.active hact
      have hlo := h.lo
      have hlo' := hr.lo
      have hcur : s.current = s.i := by simp [Worker.current, hpc]
      have hcur' : r.current = r.i := by
        unfold Worker.current
        split
        · next hnext => rw [hnext] at hact; cases hact
        · rfl
      rcases Nat.lt_or_gt_of_ne (fun heq => hne (Fin.ext heq)) with hut | htu
      · have := rangeEnd_le_start n hut t.isLt
        omega
      · have := rangeEnd_le_start n htu u.isLt
        omega
    simp [calculateValue, hflag]
  · simp

theorem settledBy_single (t : Fin T) (i : Int) (e : Event T) (he : e.owner = t) :
    settledBy t i [e] = if e.settles = some i then 1 else 0 := by
  simp [settledBy, List.countP_cons, he]

/-- An index settled by the event `e`. -/
theorem Account.settle_event {e : Event T} (h : Account n T t tr m s) (hpc : s.pc.active = true)
    (hcur : s.current = s.i) (hend : s'.endIndex = s.endIndex) (hpc' : s'.pc = .next)
    (hi' : s'.i = s.i) (he : e.owner = t) (hset : e.settles = some s.i) (hf : e.faulty = false)
    (htotal : s'.result = s.total m t + 1) : Account n T t (tr ++ [e]) m' s' := by
  refine h.settle hend ?_ ?_ (by rw [hpc']; rfl) (by rw [hpc']; rfl) (fun i => ?_) ?_ ?_
  · rw [hcur]
    exact h.active hpc
  · rw [hcur]
    simp [Worker.current, hpc', hi']
  · rw [settledBy_single t i e he, hset, hcur]
    by_cases hi : i = s.i
    · simp [hi]
    · simp [hi, Ne.symm hi]
  · simp [faultyBy, hf]
  · simp [Worker.total, hpc', htotal]

theorem Account.step (h : Account n T t tr m s)
    (hs : (funcWithTM T).next t w m s = some (m', s', evs)) :
    Account n T t (tr ++ evs) m' s' := by
  have hact := h.active
  have hcur : s.pc ≠ .next → s.current = s.i := by
    intro hpc
    unfold Worker.current
    split
    · next hc => exact absurd hc hpc
    · rfl
  cases funcWithTM_cases hs with
  | enter hpc hlt =>
    rw [h.endIndex] at hlt
    refine h.quiet rfl ?_ (fun _ => hlt) (fun hc => Bool.noConfusion hc) (fun j => ?_) ?_
    · simp [Worker.current, hpc]
    · simp [settledBy, Event.settles]
    · simp [Worker.total, faultyBy, Event.faulty, hpc]
  | exit hpc hge =>
    have hhi := h.hi
    have hend := h.endIndex
    rw [hcur (by rw [hpc]; simp)] at hhi
    refine h.quiet rfl ?_ (fun hc => Bool.noConfusion hc) (fun _ => ?_) (fun j => rfl) ?_
    · simp [Worker.current, hpc]
    · show s.i = _
      omega
    · simp [Worker.total, faultyBy, hpc]
  | abort st hpc =>
    rw [hpc] at hact
    refine h.quiet rfl ?_ (fun _ => hact rfl) (fun hc => Bool.noConfusion hc) (fun j => rfl) ?_
    · simp [Worker.current, hpc]
    · simp [Worker.total, faultyBy, hpc]
  | commit hpc hflag =>
    exact h.settle_event (by rw [hpc]; rfl) (hcur (by rw [hpc]; simp)) rfl rfl rfl rfl rfl rfl
      (by simp [Worker.total, hpc])
  | retry st hpc =>
    refine h.quiet rfl ?_ (fun hc => Bool.noConfusion hc) (fun hc => Bool.noConfusion hc)
      (fun j => ?_) ?_
    · simp [Worker.current, hpc]
    · simp [settledBy, Event.settles]
    · simp [Worker.total, faultyBy, Event.faulty, hpc]
  | fallBack st hpc =>
    rw [hpc] at hact
    refine h.quiet rfl ?_ (fun _ => hact rfl) (fun hc => Bool.noConfusion hc) (fun j => ?_) ?_
    · simp [Worker.current, hpc]
    · simp [settledBy, Event.settles]
    · -- the flag drawn for the index is the one that `calculate` reads
      simp only [Worker.total, faultyBy, Event.faulty, Event.owner, calculateValue, hpc,
        Function.update_self]
      cases draw w.rand <;> simp
      omega
  | calculate hpc =>
    exact h.settle_event (by rw [hpc]; rfl) (hcur (by rw [hpc]; simp)) rfl rfl rfl rfl rfl rfl
      (by simp [Worker.total, hpc])
  | next hpc =>
    refine h.quiet rfl ?_ (fun hc => Bool.noConfusion hc) (fun hc => Bool.noConfusion hc)
      (fun j => rfl) ?_
    · simp [Worker.current, hpc]
    · simp [Worker.total, faultyBy, hpc]
  | store hpc =>
    have hended := h.ended (by rw [hpc]; rfl)
    have hsame : Worker.current { s with pc := .done } = s.current := by
      simp [Worker.current, hpc]
    exact h.quiet rfl hsame (fun hc => Bool.noConfusion hc) (fun _ => hsame.trans hended)
      (fun j => rfl) (by simp [Worker.total, faultyBy, hpc])

theorem account {rand : Nat → Nat} {m₀ : Memory} {st : State T}
    (h : (system true n T rand m₀).Runs tr st) (t : Fin T) :
    Account n T t tr st.shared (st.regs t) := by
  refine Parallel.rule (P := funcWithTM T) (I := fun t tr m s => Account n T t tr m s)
    (fun t => Account.init _) ?_ ?_ h t
  · intro t w tr s m r evs _ hI _ hs
    exact (hI t).step hs
  · intro t u w tr s m r evs _ hI hne hs
    exact (hI u).other (hI t) hne hs

/-! ## Sums over the threads -/

theorem sumResults_eq (results : Nat → Int) (k : Nat) :
    sumResults results k = ∑ t ∈ Finset.range k, results t := by
  induction k with
  | zero => rfl
  | succ k ih => rw [Finset.sum_range_succ, ← ih, sumResults]

theorem finalResult_eq (m : Memory) : finalResult T m = ∑ t : Fin T, m.results t := by
  rw [finalResult, sumResults_eq, Finset.sum_range]

/-- Sums over the ranges of all threads are sums over the array. -/
theorem sum_ranges (hT : 0 < T) (f : Nat → Int) :
    ∑ t : Fin T, ∑ i ∈ Finset.Ico (rangeStart n T t) (rangeEnd n T t), f i =
      ∑ i ∈ Finset.range n, f i := by
  rw [← sum_range_lengths hT f, Finset.sum_range]

theorem count_settled (i : Int) (tr : List (Event T)) :
    (settled tr).count i = ∑ t, settledBy t i tr := by
  rw [settled, List.count_filterMap]
  exact countP_eq_sum Event.owner (fun e => e.settles == some i) tr

/-- Every index is settled exactly once. -/
theorem count_settled_of_finished {rand : Nat → Nat} {m₀ : Memory} {st : State T} (hT : 0 < T)
    (h : (system true n T rand m₀).Runs tr st) (hdone : Finished st) (i : Int) :
    (settled tr).count i = if 0 ≤ i ∧ i < n then 1 else 0 := by
  have hone : ∀ t : Fin T, (settledBy t i tr : Int) =
      ∑ j ∈ Finset.Ico (rangeStart n T t) (rangeEnd n T t), if i = (j : Int) then 1 else 0 := by
    intro t
    have hacc := account h t
    rw [hacc.settled i, hacc.ended (by rw [hdone t]; rfl)]
    by_cases hi : ∃ j : Nat, i = j
    · obtain ⟨j, rfl⟩ := hi
      simp [Finset.sum_ite_eq]
    · rw [Finset.sum_eq_zero fun j _ => if_neg fun heq => hi ⟨j, heq⟩, if_neg]
      · rfl
      · rintro ⟨hlo, -⟩
        exact hi ⟨i.toNat, by omega⟩
  have hsum : ((settled tr).count i : Int) =
      ∑ j ∈ Finset.range n, if i = (j : Int) then 1 else 0 := by
    rw [count_settled, ← sum_ranges hT]
    push_cast
    exact Finset.sum_congr rfl fun t _ => hone t
  by_cases hi : ∃ j : Nat, i = j
  · obtain ⟨j, rfl⟩ := hi
    simp only [Nat.cast_inj, Finset.sum_ite_eq, Finset.mem_range] at hsum
    split at hsum
    · rw [if_pos (by omega)]
      omega
    · rw [if_neg (by omega)]
      omega
  · rw [Finset.sum_eq_zero fun j _ => if_neg fun heq => hi ⟨j, heq⟩] at hsum
    rw [if_neg]
    · omega
    · rintro ⟨hlo, -⟩
      exact hi ⟨i.toNat, by omega⟩

theorem finalResult_of_finished {rand : Nat → Nat} {m₀ : Memory} {st : State T} (hT : 0 < T)
    (h : (system true n T rand m₀).Runs tr st) (hdone : Finished st) :
    finalResult T st.shared = n + faulty tr := by
  have hres : ∀ t : Fin T, st.shared.results t =
      (∑ _j ∈ Finset.Ico (rangeStart n T t) (rangeEnd n T t), 1) + (faultyBy t tr : Int) := by
    intro t
    have hacc := account h t
    have htotal := hacc.total
    rw [hacc.ended (by rw [hdone t]; rfl)] at htotal
    have hle : rangeStart n T t ≤ rangeEnd n T t := rangeStart_le_end
    simp only [Worker.total, hdone t] at htotal
    simp only [Finset.sum_const, Nat.card_Ico, mul_one, nsmul_eq_mul]
    omega
  have hfaulty : faulty tr = ∑ t, faultyBy t tr := countP_eq_sum Event.owner Event.faulty tr
  rw [finalResult_eq, Finset.sum_congr rfl fun t _ => hres t, Finset.sum_add_distrib,
    sum_ranges hT, hfaulty]
  simp

/-! ## Without transactions -/

/-- The value that the thread function computes for index `i`. -/
def valueAt (m : Memory) (i : Nat) : Int := calculateValue m.errors (m.values i)

/-- Before the index it is at, the thread has added up the values of its range. -/
structure Sum (n T : Nat) (m₀ : Memory) (t : Fin T) (m : Memory) (s : Worker) : Prop where
  endIndex : s.endIndex = rangeEnd n T t
  errors : m.errors = m₀.errors
  values : m.values = m₀.values
  sum : ∃ k : Nat, s.current = k ∧ rangeStart n T t ≤ k ∧ k ≤ rangeEnd n T t ∧
    (s.pc.active = true → k < rangeEnd n T t) ∧ (s.pc.over = true → k = rangeEnd n T t) ∧
    (match s.pc with
      | .done => m.results t
      | _ => s.result) = ∑ i ∈ Finset.Ico (rangeStart n T t) k, valueAt m₀ i

theorem Sum.init (m : Memory) : Sum n T m t m (Worker.start n T t) where
  endIndex := rfl
  errors := rfl
  values := rfl
  sum := ⟨rangeStart n T t, rfl, Nat.le_refl _, rangeStart_le_end, fun hc => Bool.noConfusion hc,
    fun hc => Bool.noConfusion hc, by simp [Worker.start]⟩

theorem Sum.step {m₀ : Memory} (h : Sum n T m₀ t m s) (hs : Step t m s m' s' evs) :
    Sum n T m₀ t m' s' := by
  obtain ⟨hend, herr, hval, k, hcur, hlo, hhi, hact, hover, hsum⟩ := h
  rw [Worker.current.eq_def] at hcur
  cases hs with
  | enter hpc hlt =>
    rw [hpc] at hcur hsum
    have hcur : s.i = k := hcur
    exact ⟨hend, herr, hval, k, hcur, hlo, hhi, fun _ => by omega,
      fun hc => Bool.noConfusion hc, hsum⟩
  | exit hpc hge =>
    rw [hpc] at hcur hsum
    have hcur : s.i = k := hcur
    exact ⟨hend, herr, hval, k, hcur, hlo, hhi, fun hc => Bool.noConfusion hc,
      fun _ => by omega, hsum⟩
  | calculate hpc =>
    rw [hpc] at hcur hact hsum
    have hcur : s.i = k := hcur
    have hlt := hact rfl
    refine ⟨hend, herr, hval, k + 1, by simp [Worker.current, hcur], by omega, hlt,
      fun hc => Bool.noConfusion hc, fun hc => Bool.noConfusion hc, ?_⟩
    rw [Finset.sum_Ico_succ_top hlo, ← hsum, valueAt, herr, hval, hcur]
  | next hpc =>
    rw [hpc] at hcur hsum
    exact ⟨hend, herr, hval, k, hcur, hlo, hhi, fun hc => Bool.noConfusion hc,
      fun hc => Bool.noConfusion hc, hsum⟩
  | store hpc =>
    rw [hpc] at hcur hover hsum
    refine ⟨hend, herr, hval, k, hcur, hlo, hhi, fun hc => Bool.noConfusion hc,
      fun _ => hover rfl, ?_⟩
    rw [← hsum]
    exact Function.update_self ..

/-- Another thread's step stores to another result. -/
theorem Sum.other {m₀ : Memory} (h : Sum n T m₀ u m s) {r r' : Worker} (hne : u ≠ t)
    (hs : Step t m r m' r' evs) : Sum n T m₀ u m' s := by
  have hmem : m'.errors = m.errors ∧ m'.values = m.values ∧ m'.results u = m.results u := by
    cases hs with
    | enter | exit | calculate | next => exact ⟨rfl, rfl, rfl⟩
    | store => exact ⟨rfl, rfl, Function.update_of_ne (fun heq => hne (Fin.ext heq)) _ _⟩
  obtain ⟨herr, hval, hres⟩ := hmem
  refine ⟨h.endIndex, herr.trans h.errors, hval.trans h.values, ?_⟩
  rw [hres]
  exact h.sum

theorem sum_invariant {rand : Nat → Nat} {m₀ : Memory} {st : State T}
    (h : (system false n T rand m₀).Runs tr st) (t : Fin T) :
    Sum n T (initValues n rand m₀) t st.shared (st.regs t) := by
  refine Parallel.rule (P := func T)
    (I := fun t _ m s => Sum n T (initValues n rand m₀) t m s) (fun t => Sum.init _) ?_ ?_ h t
  · intro t w tr s m r evs _ hI _ hs
    exact (hI t).step (func_cases hs)
  · intro t u w tr s m r evs _ hI hne hs
    exact (hI u).other hne (func_cases hs)

/-- What `Transactions_InitValues` leaves in the arrays. -/
theorem initValuesLoop_apply (rand : Nat → Nat) (m : Memory) {k i : Nat} (hi : i < k) :
    (initValuesLoop rand k m).values i = i ∧
      (initValuesLoop rand k m).errors i = draw (rand i) := by
  induction k with
  | zero => cases hi
  | succ k ih =>
    by_cases hik : i = k
    · subst hik
      exact ⟨Function.update_self .., Function.update_self ..⟩
    · have hne : (i : Int) ≠ (k : Int) := fun heq => hik (Int.ofNat_inj.mp heq)
      obtain ⟨hval, herr⟩ := ih (by omega)
      exact ⟨(Function.update_of_ne hne _ _).trans hval, (Function.update_of_ne hne _ _).trans herr⟩

theorem errorsInjected_eq (rand : Nat → Nat) (m : Memory) (k : Nat) :
    ((initValuesLoop rand k m).errorsInjected : Int) =
      m.errorsInjected + ∑ i ∈ Finset.range k, if draw (rand i) then 1 else 0 := by
  induction k with
  | zero => simp [initValuesLoop]
  | succ k ih =>
    rw [Finset.sum_range_succ, ← add_assoc, ← ih, initValuesLoop]
    dsimp only
    split <;> simp

/-- The values of a fault-free computation, and one more for each error injected. -/
theorem sum_valueAt (n : Nat) (rand : Nat → Nat) (m : Memory) :
    ∑ i ∈ Finset.range n, valueAt (initValues n rand m) i =
      n + (initValues n rand m).errorsInjected := by
  have hvalue : ∀ i ∈ Finset.range n, valueAt (initValues n rand m) i =
      1 + if draw (rand i) then 1 else 0 := by
    intro i hi
    obtain ⟨hval, herr⟩ := initValuesLoop_apply rand { m with errorsInjected := 0 }
      (Finset.mem_range.mp hi)
    simp only [valueAt, initValues, hval, herr, calculateValue]
    split <;> rfl
  have hinjected := errorsInjected_eq rand { m with errorsInjected := 0 } n
  simp only [initValues] at hvalue ⊢
  rw [Finset.sum_congr rfl hvalue, Finset.sum_add_distrib, hinjected]
  simp

theorem finalResult_plain {rand : Nat → Nat} {m₀ : Memory} {st : State T} (hT : 0 < T)
    (h : (system false n T rand m₀).Runs tr st) (hdone : Finished st) :
    finalResult T st.shared = n + (initValues n rand m₀).errorsInjected := by
  have hres : ∀ t : Fin T, st.shared.results t =
      ∑ i ∈ Finset.Ico (rangeStart n T t) (rangeEnd n T t), valueAt (initValues n rand m₀) i := by
    intro t
    obtain ⟨-, -, -, k, -, -, -, -, hover, hsum⟩ := sum_invariant h t
    rw [hover (by rw [hdone t]; rfl), hdone t] at hsum
    exact hsum
  rw [finalResult_eq, Finset.sum_congr rfl fun t _ => hres t, sum_ranges hT, sum_valueAt]

theorem returned_eq_one (n T : Nat) (m : Memory) : returned n T m = 1 ↔ finalResult T m = n := by
  unfold returned
  split <;> simp_all

/-- A transaction does not commit over a set flag. -/
theorem not_flagged_of_committed {i v : Int}
    (hs : (funcWithTM T).next t w m s = some (m', s', evs)) (he : .committed u i v ∈ evs) :
    m.errors i = false := by
  cases funcWithTM_cases hs with
  | commit hpc hflag =>
    obtain ⟨-, rfl, -⟩ : u = t ∧ i = s.i ∧ v = 1 := by simpa using he
    exact hflag
  | _ => simp at he

/--
**`Transactions_Test` accounts for every index exactly once.** For every number of threads and of
values, every stream of `rand()` and so every array of flags, every outcome of the transactions
and every interleaving:

* no transaction commits a value for an index whose flag is set;
* when all threads have finished, each index has been settled once, the result is the number of
  values plus the number of indices that fell back with their flag drawn again, and the test
  passes if and only if there are none of these;
* without transactions, the same holds with the errors injected at the start.
-/
theorem transactions_account (hT : 0 < T) (n : Nat) (rand : Nat → Nat) (m₀ : Memory) :
    (∀ tr st, (system true n T rand m₀).Runs tr st →
      (∀ l st' evs, (system true n T rand m₀).step l st = some (st', evs) →
        ∀ t i v, .committed t i v ∈ evs → st.shared.errors i = false) ∧
      (Finished st →
        (∀ i : Int, (settled tr).count i = if 0 ≤ i ∧ i < n then 1 else 0) ∧
        finalResult T st.shared = n + faulty tr ∧
        (returned n T st.shared = 1 ↔ faulty tr = 0))) ∧
    ∀ tr st, (system false n T rand m₀).Runs tr st → Finished st →
      finalResult T st.shared = n + (initValues n rand m₀).errorsInjected ∧
      (returned n T st.shared = 1 ↔ (initValues n rand m₀).errorsInjected = 0) := by
  refine ⟨fun tr st h => ⟨?_, fun hdone => ?_⟩, fun tr st h hdone => ?_⟩
  · intro l st' evs hs t i v he
    obtain ⟨m, r, hx, -⟩ := Parallel.step_cases (P := funcWithTM T) hs
    exact not_flagged_of_committed hx he
  · have hfinal := finalResult_of_finished hT h hdone
    refine ⟨count_settled_of_finished hT h hdone, hfinal, ?_⟩
    rw [returned_eq_one, hfinal]
    omega
  · have hfinal := finalResult_plain hT h hdone
    refine ⟨hfinal, ?_⟩
    rw [returned_eq_one, hfinal]
    omega

/-- Two threads and two values. With transactions, both flags are set at first: thread 0 draws its
flag again and commits, and thread 1 falls back after an abort of the hardware, with its flag set
again. Without them, one of the flags is set. -/
theorem transactions_account_small :
    (∃ tr st,
      (system true 2 2 (fun _ => 1) ⟨fun _ => 0, fun _ => false, fun _ => 0, 0⟩).Runs tr st ∧
      Finished st ∧ (∀ i : Int, (settled tr).count i = if 0 ≤ i ∧ i < 2 then 1 else 0) ∧
      finalResult 2 st.shared = 2 + 1 ∧ returned 2 2 st.shared ≠ 1) ∧
    ∃ tr st, (system false 2 2 id ⟨fun _ => 0, fun _ => false, fun _ => 0, 0⟩).Runs tr st ∧
      Finished st ∧ finalResult 2 st.shared = 2 + 1 ∧ returned 2 2 st.shared ≠ 1 := by
  constructor
  · obtain ⟨tr, st, hr, hdone, hfaulty⟩ := System.exists_runs
      (system true 2 2 (fun _ => 1) ⟨fun _ => 0, fun _ => false, fun _ => 0, 0⟩)
      ((List.replicate 7
        [(0, ⟨.completes, 0⟩), (1, ⟨.aborts ⟨0, of_decide_eq_true rfl⟩, 1⟩)]).flatten ++
        List.replicate 2 (0, ⟨.completes, 0⟩))
      (fun tr st => (∀ t, (st.regs t).pc = .done) ∧ faulty tr = 1) (by decide +kernel)
    have haccount := (transactions_account Nat.two_pos 2 (fun _ => 1)
      ⟨fun _ => 0, fun _ => false, fun _ => 0, 0⟩).1 tr st hr
    obtain ⟨hcount, hfinal, hreturned⟩ := haccount.2 hdone
    rw [hfaulty] at hfinal hreturned
    exact ⟨tr, st, hr, hdone, hcount, hfinal, mt hreturned.mp (by decide)⟩
  · obtain ⟨tr, st, hr, hdone⟩ := System.exists_runs
      (system false 2 2 id ⟨fun _ => 0, fun _ => false, fun _ => 0, 0⟩)
      (List.replicate 5 [(0, ⟨.completes, 0⟩), (1, ⟨.completes, 0⟩)]).flatten
      (fun _ st => ∀ t, (st.regs t).pc = .done) (by decide +kernel)
    obtain ⟨hfinal, hreturned⟩ := (transactions_account Nat.two_pos 2 id
      ⟨fun _ => 0, fun _ => false, fun _ => 0, 0⟩).2 tr st hr hdone
    exact ⟨tr, st, hr, hdone, hfinal, mt hreturned.mp (by decide +kernel)⟩

end Transactions

end TsxProject
