import TsxProject.Infra.Fairness
import TsxProject.Tsx.Account

/-!
# The end of the recovery

At one index, `Thread_FuncWithTM` retries explicit aborts five times at most. How often it retries
because `_XABORT_RETRY` is set is up to the hardware.

* `fair_recovery` — if the flag is set finitely often, then all threads finish, and `account` says
  with which result
* `exists_livelock` — if it is always set, they go on for ever
-/

namespace TsxProject

open Infra

namespace Transactions

open Tsx

variable {n T : Nat} {t : Fin T} {tr evs : List (Event T)} {m m' : Memory} {s s' : Worker}
  {w : Choice} {st : AbortStatus} {rand : Nat → Nat} {m₀ : Memory}

/-- The hardware does not ask for a retry. -/
def Choice.Final (w : Choice) : Prop :=
  ∀ st, w.outcome = .aborts st → isRetryPossible st.bits = false

/-! ## The rank of a thread -/

/-- How far it is to the next test of the status. -/
def Pc.offset : Pc → Nat
  | .fallback st => if isRetryPossible st.bits then 7 else 3
  | .next => 6
  | .loop => 5
  | .transaction => 4
  | .calculate => 2
  | .store => 1
  | .done => 0

/-- The indices that are left come first, and then the retries that are left for this one. -/
def Worker.rank (s : Worker) : Nat :=
  (s.endIndex - s.current).toNat * 64 + (5 - s.retriedTimes) * 8 + s.pc.offset

theorem retriedTimes_le (st : AbortStatus) (s : Worker) :
    s.retriedTimes ≤ (s.retries st).2 := by
  unfold Worker.retries
  split
  · split <;> exact Nat.le_succ _
  · exact Nat.le_refl _

/-- A retry that the hardware has not asked for is one of the five. -/
theorem retries_budget (hretry : (s.retries st).1 = true)
    (hfinal : isRetryPossible st.bits = false) :
    s.retriedTimes < 5 ∧ (s.retries st).2 = s.retriedTimes + 1 := by
  unfold Worker.retries at hretry ⊢
  split at hretry
  · split at hretry
    · next hexplicit hlt =>
      rw [if_pos hexplicit, if_pos hlt]
      exact ⟨hlt, rfl⟩
    · rw [hfinal] at hretry
      cases hretry
  · rw [hfinal] at hretry
    cases hretry

theorem StepWithTM.rank_lt (hs : StepWithTM t w m s m' s' evs) (hw : w.Final)
    (hlt : s.pc.active = true → s.i < s.endIndex) : s'.rank < s.rank := by
  unfold Worker.rank
  cases hs with
  | enter hpc | exit hpc | next hpc | store hpc =>
    simp only [Pc.offset, Worker.current, hpc]
    omega
  | abort st hpc hst =>
    have hfinal : isRetryPossible st.bits = false := by
      rcases hst with hst | rfl
      · exact hw st hst
      · decide
    simp only [Pc.offset, Worker.current, hpc, hfinal, Bool.false_eq_true, if_false]
    omega
  | commit hpc | calculate hpc =>
    rw [hpc] at hlt
    have hmore := hlt rfl
    simp only [Pc.offset, Worker.current, hpc]
    omega
  | retry st hpc hretry =>
    have hle := retriedTimes_le st s
    simp only [Pc.offset, Worker.current, hpc]
    cases hfinal : isRetryPossible st.bits with
    | true =>
      rw [if_pos rfl]
      omega
    | false =>
      obtain ⟨hfive, heq⟩ := retries_budget hretry hfinal
      rw [if_neg Bool.false_ne_true]
      omega
  | fallBack st hpc =>
    have hle := retriedTimes_le st s
    simp only [Pc.offset, Worker.current, hpc]
    split <;> omega

theorem exists_next (hpc : s.pc ≠ .done) (t : Fin T) (w : Choice) (m : Memory) :
    (funcWithTM T).next t w m s ≠ none := by
  intro hnone
  unfold funcWithTM at hnone
  cases hp : s.pc with
  | done => exact hpc hp
  | loop | fallback st =>
    simp only [hp] at hnone
    split at hnone <;> cases hnone
  | transaction =>
    simp only [hp] at hnone
    split at hnone
    · cases hnone
    · split at hnone <;> cases hnone
  | calculate | next | store =>
    simp only [hp] at hnone
    cases hnone

theorem next_done (hpc : s.pc = .done) : (funcWithTM T).next t w m s = none := by
  simp only [funcWithTM, hpc]

/-! ## All threads finish -/

theorem exists_work {st : State T} (hr : (system true n T rand m₀).Reachable st) (hw : w.Final)
    (hnot : ¬ (st.regs t).pc = .done) :
    ∃ m r evs, (funcWithTM T).next t w st.shared (st.regs t) = some (m, r, evs) ∧
      r.rank < (st.regs t).rank := by
  obtain ⟨tr, hr⟩ := hr
  have hacc := account hr t
  obtain ⟨⟨m, r, evs⟩, hs⟩ := Option.ne_none_iff_exists'.mp (exists_next hnot t w st.shared)
  refine ⟨m, r, evs, hs, (funcWithTM_cases hs).rank_lt hw fun hactive => ?_⟩
  rw [hacc.endIndex]
  exact hacc.active hactive

/-- **The recovery ends.** If from some moment on the hardware asks for no more retries, every fair
schedule brings all threads to their ends, whatever transactions abort and whatever errors are
injected; then each index has been settled once. -/
theorem fair_recovery (hT : 0 < T) {sched : Nat → Fin T × Choice} (hfair : Fair Prod.fst sched)
    {k : Nat} (hfinal : ∀ m, k ≤ m → (sched m).2.Final) :
    ∃ N, ∀ m, N ≤ m →
      Finished ((system true n T rand m₀).play sched m).1 ∧
      (∀ i : Int, (settled ((system true n T rand m₀).play sched m).2).count i =
        if 0 ≤ i ∧ i < n then 1 else 0) ∧
      finalResult T ((system true n T rand m₀).play sched m).1.shared =
        n + faulty ((system true n T rand m₀).play sched m).2 := by
  obtain ⟨N, hN⟩ := Parallel.fair_done (P := funcWithTM T)
    ⟨initValues n rand m₀, Worker.start n T⟩ (fun l _ => l.2.Final) (fun s => s.pc = .done)
    Worker.rank exists_work next_done hfair hfinal
  refine ⟨N, fun m hm => ⟨hN m hm, ?_, ?_⟩⟩
  · exact count_settled_of_finished hT (System.runs_play m) (hN m hm)
  · exact finalResult_of_finished hT (System.runs_play m) (hN m hm)

/-- The first three turns of each thread abort and ask for a retry. -/
theorem fair_recovery_two : ∃ N, ∀ m, N ≤ m →
    let s := (system true 5 2 (fun _ => 1) ⟨fun _ => 0, fun _ => false, fun _ => 0, 0⟩).play
      (fun j => ((roundRobin 1 j).1,
        ⟨if j < 6 then .aborts ⟨xabortRetry, by decide⟩ else .completes, 0⟩)) m
    Finished s.1 ∧ (∀ i : Int, (settled s.2).count i = if 0 ≤ i ∧ i < (5 : Nat) then 1 else 0) ∧
      finalResult 2 s.1.shared = (5 : Nat) + faulty s.2 := by
  refine fair_recovery (k := 6) (by decide) (fair_roundRobin 1) ?_
  intro m hm st hst
  rw [if_neg (Nat.not_lt.mpr hm)] at hst
  cases hst

/-! ## The hardware may prevent it -/

/-- An abort that asks for a retry. -/
def retryLater : AbortStatus := ⟨xabortRetry, by decide⟩

/-- A thread that has not got beyond its first index. -/
def Stuck (n T : Nat) (t : Fin T) (s : Worker) : Prop :=
  s.endIndex = rangeEnd n T t ∧ s.current = rangeStart n T t ∧
    (s.pc = .loop ∨ s.pc = .transaction ∨ s.pc = .fallback retryLater ∨ s.pc = .next)

theorem Stuck.step (h : Stuck n T t s) (hlt : rangeStart n T t < rangeEnd n T t)
    (hw : w.outcome = .aborts retryLater)
    (hs : (funcWithTM T).next t w m s = some (m', s', evs)) : Stuck n T t s' := by
  obtain ⟨hend, hcur, hpc⟩ := h
  unfold Worker.current at hcur
  unfold funcWithTM at hs
  rcases hpc with hpc | hpc | hpc | hpc
  · simp only [hpc] at hs hcur
    have hmore : s.i < s.endIndex := by
      rw [hend, hcur]
      exact Int.ofNat_lt.mpr hlt
    rw [if_pos hmore] at hs
    cases hs
    exact ⟨hend, hcur, .inr (.inl rfl)⟩
  · simp only [hpc, hw] at hs hcur
    cases hs
    exact ⟨hend, hcur, .inr (.inr (.inl rfl))⟩
  · have hretry : (s.retries retryLater).1 = true := by
      unfold Worker.retries
      rw [if_neg (by decide)]
      show isRetryPossible retryLater.bits = true
      decide
    simp only [hpc, hretry, if_true] at hs hcur
    cases hs
    refine ⟨hend, ?_, .inr (.inr (.inr rfl))⟩
    show s.i - 1 + 1 = _
    omega
  · simp only [hpc] at hs hcur
    cases hs
    exact ⟨hend, hcur, .inl rfl⟩

theorem stuck {st : State T} (hlt : rangeStart n T t < rangeEnd n T t)
    (h : (system true n T rand m₀).RunsWhere (fun l _ => l.2.outcome = .aborts retryLater) tr st) :
    Stuck n T t (st.regs t) := by
  refine Parallel.rule (P := funcWithTM T)
    (I := fun t _ _ s => rangeStart n T t < rangeEnd n T t → Stuck n T t s) ?_ ?_ ?_ h t hlt
  · intro t _
    exact ⟨rfl, rfl, .inl rfl⟩
  · intro t w tr s m r evs _ hI hw hs hlt
    exact (hI t hlt).step hlt hw hs
  · intro t u w tr s m r evs _ hI _ _
    exact hI u

theorem not_finished_of_retries (hT : 0 < T) (hn : 0 < n) {st : State T}
    (h : (system true n T rand m₀).RunsWhere (fun l _ => l.2.outcome = .aborts retryLater) tr st) :
    ¬ Finished st := by
  intro hdone
  -- a thread with index 0 in its range
  obtain ⟨t, ⟨ht, hle, hlt⟩, -⟩ := existsUnique_range hT hn
  obtain ⟨-, -, hpc⟩ := stuck (t := ⟨t, ht⟩) (Nat.lt_of_le_of_lt hle hlt) h
  rw [hdone] at hpc
  rcases hpc with hpc | hpc | hpc | hpc <;> cases hpc

theorem settled_of_retries {st : State T}
    (h : (system true n T rand m₀).RunsWhere (fun l _ => l.2.outcome = .aborts retryLater) tr st) :
    settled tr = [] := by
  rw [List.eq_nil_iff_forall_not_mem]
  intro i
  rw [← List.count_eq_zero, count_settled]
  refine Finset.sum_eq_zero fun t _ => ?_
  have hacc := account (h.mono fun _ _ _ => trivial) t
  rw [hacc.settled]
  refine if_neg ?_
  rintro ⟨hle, hlt⟩
  by_cases hrange : rangeStart n T t < rangeEnd n T t
  · have hcur := (stuck hrange h).2.1
    omega
  · have hhi := hacc.hi
    omega

/-- **Nothing bounds the retries of the hardware.** There is a fair schedule on which every
transaction is answered with an abort that asks for a retry, and then no index is ever settled and
the threads never finish. -/
theorem exists_livelock (hT : 0 < T) (hn : 0 < n) (rand : Nat → Nat) (m₀ : Memory) :
    ∃ sched : Nat → Fin T × Choice, Fair Prod.fst sched ∧
      (∀ j, (sched j).2.outcome = .aborts retryLater) ∧
      ∀ m, ¬ Finished ((system true n T rand m₀).play sched m).1 ∧
        settled ((system true n T rand m₀).play sched m).2 = [] := by
  obtain ⟨T, rfl⟩ : ∃ k, T = k + 1 := ⟨T - 1, by omega⟩
  refine ⟨fun j => ((roundRobin T j).1, ⟨.aborts retryLater, 0⟩), fair_roundRobin T, fun _ => rfl,
    fun m => ?_⟩
  exact ⟨not_finished_of_retries hT hn (System.runsWhere_play (fun _ => rfl) m),
    settled_of_retries (System.runsWhere_play (fun _ => rfl) m)⟩

theorem exists_livelock_two : ∃ sched : Nat → Fin 2 × Choice, Fair Prod.fst sched ∧
    (∀ j, (sched j).2.outcome = .aborts retryLater) ∧ ∀ m,
    let s := (system true 1 2 (fun _ => 0) ⟨fun _ => 0, fun _ => false, fun _ => 0, 0⟩).play sched m
    ¬ Finished s.1 ∧ settled s.2 = [] :=
  exists_livelock (by decide) (by decide) _ _

end Transactions

end TsxProject
