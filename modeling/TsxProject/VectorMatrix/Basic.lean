import Mathlib.Algebra.BigOperators.Group.Finset.Basic
import Mathlib.Algebra.Order.BigOperators.Group.Finset
import Mathlib.Tactic.Linarith
import TsxProject.Queues.SimpleSyncQueue

/-!
# Vector times matrix: sizes, data and the sequential reference

What the two replicated threads of `VectorMatrixMult.c` compute, before any communication.

* `ExecMode`, `numRuns` — what `Vector_Matrix_MultAux` can do, and how often it does it
* `Dims` — the compile-time sizes, with the source's assumption on them
* `Calc` — what one thread does to `thisValue` in a column; a soft error is a `Calc` of its own
* `Workload` — a vector and a matrix as `Vector_Matrix_Init` fills them
* `notReplicated` — `Vector_Matrix_NotReplicated`
-/

namespace TsxProject

open Infra

/-- `ExecMode` of `Queues.h`. -/
inductive ExecMode where
  | notReplicated
  | replicatedSameThread
  | replicatedThreadsOptimally
  | replicatedThreads
  deriving DecidableEq, Repr

/-- `NUM_RUNS` of `Queues.h`. -/
def numRuns : Nat := 5

/-- `SIMPLE_SYNC_QUEUE_SIZE`, `MATRIX_COLS` and `MATRIX_ROWS`. -/
structure Dims where
  queueSize : Nat
  cols : Nat
  rows : Nat
  two_le : 2 ≤ queueSize
  /-- "this is one BIG assumption: SIMPLE_SYNC_QUEUE_SIZE < MATRIX_COLS" -/
  size_lt : queueSize < cols

instance (d : Dims) : NeZero d.queueSize := ⟨by have := d.two_le; omega⟩

/-- The smallest queue and the shortest rows. -/
def Dims.small (rows : Nat) : Dims where
  queueSize := 2
  cols := 3
  rows := rows
  two_le := by decide
  size_lt := by decide

theorem Dims.cols_pos (d : Dims) : 0 < d.cols := by
  have := d.size_lt
  omega

/-! ## What a thread computes -/

/-- Row, column and the old `thisValue` to the new one: the statement
`thisValue += vector[j] * matrix[i][j]`, or what a soft error makes of it. -/
abbrev Calc := Nat → Nat → Int → Int

namespace Calc

/-- `thisValue` after the first `j` columns of row `i`. -/
def sum (f : Calc) (i : Nat) : Nat → Int
  | 0 => 0
  | j + 1 => f i j (f.sum i j)

/-- `thisValue` after column `j`: the value put in the queue, or compared with it. -/
def value (f : Calc) (i j : Nat) : Int := f.sum i (j + 1)

/-- The value of the whole row. -/
def final (f : Calc) (d : Dims) (i : Nat) : Int := f.sum i d.cols

/-- The values as one stream, entry after entry and row after row. -/
def entry (f : Calc) (d : Dims) (x : Nat) : Int := f.value (x / d.cols) (x % d.cols)

/-- A soft error that leaves `v` in `thisValue` after column `j` of row `i`. -/
def corrupt (f : Calc) (i j : Nat) (v : Int) : Calc := fun i' j' thisValue =>
  if i' = i ∧ j' = j then v else f i' j' thisValue

@[simp] theorem sum_zero (f : Calc) (i : Nat) : f.sum i 0 = 0 := rfl

/-- Any values can be what a thread computes. -/
theorem exists_value_eq (p : Nat → Nat → Int) : ∃ f : Calc, ∀ i j, f.value i j = p i j :=
  ⟨fun i j _ => p i j, fun _ _ => rfl⟩

theorem entry_mul_add (f : Calc) (d : Dims) (i : Nat) {j : Nat} (hj : j < d.cols) :
    f.entry d (i * d.cols + j) = f.value i j := by
  rw [entry, Nat.add_comm, Nat.add_mul_div_right _ _ d.cols_pos, Nat.div_eq_of_lt hj,
    Nat.zero_add, Nat.add_mul_mod_self_right, Nat.mod_eq_of_lt hj]

end Calc

/-! ## Fault-free data -/

/-- What `Vector_Matrix_Init` leaves in `vector` and `matrix`: `rand() % 10000 + 1`. -/
structure Workload (d : Dims) where
  vector : Nat → Int
  matrix : Nat → Nat → Int
  vector_pos : ∀ j, j < d.cols → 1 ≤ vector j
  vector_le : ∀ j, j < d.cols → vector j ≤ 10000
  matrix_pos : ∀ i j, i < d.rows → j < d.cols → 1 ≤ matrix i j
  matrix_le : ∀ i j, i < d.rows → j < d.cols → matrix i j ≤ 10000

namespace Workload

variable {d : Dims} (w : Workload d)

/-- The workload whose entries are all 1. -/
def ones (d : Dims) : Workload d where
  vector _ := 1
  matrix _ _ := 1
  vector_pos _ _ := by decide
  vector_le _ _ := by decide
  matrix_pos _ _ _ _ := by decide
  matrix_le _ _ _ _ := by decide

/-- `thisValue += vector[j] * matrix[i][j]` -/
def faultFree : Calc := fun i j thisValue => thisValue + w.vector j * w.matrix i j

theorem sum_eq (i j : Nat) :
    w.faultFree.sum i j = ∑ k ∈ Finset.range j, w.vector k * w.matrix i k := by
  induction j with
  | zero => rfl
  | succ j ih =>
    rw [Finset.sum_range_succ, ← ih]
    rfl

variable {w}

theorem product_pos {i j : Nat} (hi : i < d.rows) (hj : j < d.cols) :
    1 ≤ w.vector j * w.matrix i j :=
  one_le_mul_of_one_le_of_one_le (w.vector_pos j hj) (w.matrix_pos i j hi hj)

/-- The prefix sums of a row grow strictly. -/
theorem sum_lt_sum {i j k : Nat} (hi : i < d.rows) (hjk : j < k) (hk : k ≤ d.cols) :
    w.faultFree.sum i j < w.faultFree.sum i k := by
  induction k with
  | zero => omega
  | succ k ih =>
    have hstep : w.faultFree.sum i (k + 1) = w.faultFree.sum i k + w.vector k * w.matrix i k := rfl
    have hpos := w.product_pos hi (show k < d.cols by omega)
    by_cases he : j = k
    · subst he
      omega
    · have := ih (by omega) (by omega)
      omega

/-- The values of a row grow strictly, as entries of the stream. -/
theorem entry_lt_entry {i x y : Nat} (hi : i < d.rows)
    (hx : i * d.cols ≤ x) (hxy : x < y) (hy : y < (i + 1) * d.cols) :
    w.faultFree.entry d x < w.faultFree.entry d y := by
  obtain ⟨a, rfl⟩ := Nat.exists_eq_add_of_le hx
  obtain ⟨b, rfl⟩ := Nat.exists_eq_add_of_le (Nat.le_trans hx (Nat.le_of_lt hxy))
  rw [Nat.succ_mul] at hy
  rw [Calc.entry_mul_add _ _ _ (by omega), Calc.entry_mul_add _ _ _ (by omega)]
  exact w.sum_lt_sum hi (by omega) (by omega)

theorem value_pos {i j : Nat} (hi : i < d.rows) (hj : j < d.cols) : 0 < w.faultFree.value i j :=
  w.sum_lt_sum (j := 0) hi (Nat.succ_pos j) hj

theorem product_le {i j : Nat} (hi : i < d.rows) (hj : j < d.cols) :
    w.vector j * w.matrix i j ≤ 10000 * 10000 :=
  mul_le_mul (w.vector_le j hj) (w.matrix_le i j hi hj)
    (by have := w.matrix_pos i j hi hj; omega) (by norm_num)

theorem sum_le {i j : Nat} (hi : i < d.rows) (hj : j ≤ d.cols) :
    w.faultFree.sum i j ≤ 100000000 * j := by
  induction j with
  | zero => simp
  | succ j ih =>
    have hstep : w.faultFree.sum i (j + 1) = w.faultFree.sum i j + w.vector j * w.matrix i j := rfl
    have hle := w.product_le hi (show j < d.cols by omega)
    have := ih (by omega)
    push_cast
    omega

/-- No overflow: the column count is an `int`, so every prefix sum fits a `long`, and exact
integers are what the machine computes. -/
theorem sum_lt_long (hcols : d.cols < 2 ^ 31) {i j : Nat} (hi : i < d.rows) (hj : j ≤ d.cols) :
    w.faultFree.sum i j < 2 ^ 63 := by
  have := w.sum_le hi hj
  omega

end Workload

/-! ## `Vector_Matrix_NotReplicated` -/

section NotReplicated

variable {d : Dims} (w : Workload d)

/-- The inner loop over the first `j` columns, adding to `producerVectorResult[i]` in place. -/
def notReplicatedRow (i : Nat) : Nat → (Nat → Int) → Nat → Int
  | 0, result => result
  | j + 1, result =>
    let r := notReplicatedRow i j result
    Function.update r i (r i + w.vector j * w.matrix i j)

/-- The outer loop over the first `i` rows. -/
def notReplicatedRows : Nat → (Nat → Int) → Nat → Int
  | 0, result => result
  | i + 1, result =>
    notReplicatedRow w i d.cols (Function.update (notReplicatedRows i result) i 0)

/-- `Vector_Matrix_NotReplicated`, from what `producerVectorResult` holds before. -/
def notReplicated (result : Nat → Int) : Nat → Int := notReplicatedRows w d.rows result

theorem notReplicatedRow_eq (i j : Nat) (result : Nat → Int) :
    notReplicatedRow w i j result = Function.update result i (result i + w.faultFree.sum i j) := by
  induction j with
  | zero => simp [notReplicatedRow]
  | succ j ih =>
    rw [notReplicatedRow, ih]
    simp only [Function.update_self, Function.update_idem]
    congr 1
    rw [Int.add_assoc]
    rfl

theorem notReplicatedRows_apply (n : Nat) (result : Nat → Int) {i : Nat} (hi : i < n) :
    notReplicatedRows w n result i = w.faultFree.final d i := by
  induction n with
  | zero => omega
  | succ n ih =>
    rw [notReplicatedRows, notReplicatedRow_eq]
    by_cases he : i = n
    · subst he
      simp [Calc.final]
    · rw [Function.update_of_ne he, Function.update_of_ne he]
      exact ih (by omega)

/-- `Vector_Matrix_NotReplicated` computes the product, whatever the array held before. -/
theorem notReplicated_apply (result : Nat → Int) {i : Nat} (hi : i < d.rows) :
    notReplicated w result i = w.faultFree.final d i :=
  notReplicatedRows_apply w d.rows result hi

end NotReplicated

end TsxProject
