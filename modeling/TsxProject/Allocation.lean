import TsxProject.Infra.Heap
import TsxProject.VectorMatrix.Basic

/-!
# What the tests allocate

Every call of `malloc` and of `free`, and what is read or written between them: the threads of
`ThreadUtils.c`, the `results` of `TestTSX.c`, the queue's content and the matrix of
`VectorMatrixMult.c`. The pointers are globals that outlive the blocks: no test resets one after
its `free`, and two of them free what an earlier test has left behind.

A test gives `none` where it runs into undefined behaviour. What the threads compute is left out,
with the text of `TSX_GetTransactionAbortMessage`, which is freed where it was printed, and the
pointer to a local variable in `THREAD_UTILS_Threads[0]` is not followed. What the runs of
`Vector_Matrix_MultAux` compute is added in `VectorMatrix/Checksum.lean`.

* `runTests_iff` — which sequences of tests are safe
-/

namespace TsxProject

open Infra Infra.Heap

namespace Allocation

/-- `QueueType` of `Queues.h`. -/
inductive QueueType where
  | simple
  | simpleSync
  | sectioned
  | lynxq
  deriving DecidableEq, Repr

structure Globals where
  heap : Heap
  /-- `THREAD_UTILS_Threads` -/
  threads : Ptr
  /-- `THREAD_UTILS_NUM_THREADS` -/
  numThreads : Int
  results : Ptr
  /-- `simpleSyncQueue.content` -/
  content : Ptr
  matrix : Ptr
  queueType : QueueType

/-- Globals are zero when the program starts. -/
def Globals.start : Globals where
  heap := Heap.empty
  threads := .null
  numThreads := 0
  results := .null
  content := .null
  matrix := .null
  queueType := .simple

/-- The accesses are all to live blocks. -/
def Globals.check (g : Globals) (accesses : Bool) : Option Globals :=
  if accesses then some g else none

/-- A loop. -/
def repeated (f : Globals → Option Globals) : Nat → Globals → Option Globals
  | 0, g => some g
  | k + 1, g => (f g).bind (repeated f k)

/-! ## `ThreadUtils.c` -/

/-- `THREAD_UTILS_CreateThreads` -/
def createThreads (g : Globals) : Option Globals := do
  let h ← (g.heap.malloc g.numThreads).2.store 0 .foreign (g.heap.malloc g.numThreads).1
  let h ← mallocEach (g.heap.malloc g.numThreads).1 1 1 (g.numThreads - 1).toNat h
  some { g with heap := h, threads := (g.heap.malloc g.numThreads).1 }

/-- `THREAD_UTILS_DestroyThreads` -/
def destroyThreads (g : Globals) : Option Globals := do
  let h ← freeEach g.threads 1 (g.numThreads - 1).toNat g.heap
  let h ← h.free g.threads
  some { g with heap := h }

/-- `pthread_create` and `pthread_join` use `*THREAD_UTILS_Threads[j]`. -/
def threadValid (g : Globals) (j : Nat) : Bool :=
  (g.heap.load g.threads j).any fun p => g.heap.valid p 0

/-- `THREAD_UTILS_StartThreads`; the routine is what thread `j` accesses. -/
def startThreads (routine : Nat → Bool) (g : Globals) : Option Globals :=
  g.check (routine 0 &&
    (List.range' 1 (g.numThreads - 1).toNat).all fun j => threadValid g j && routine j)

/-! ## `TestTSX.c` and `TestAtomicOps.c` -/

/-- `Transactions_InitValues` -/
def transactionsInitValues (g : Globals) : Option Globals :=
  let g' := { g with
    heap := (g.heap.malloc g.numThreads).2, results := (g.heap.malloc g.numThreads).1 }
  g'.check ((List.range g.numThreads.toNat).all fun i => g'.heap.valid g'.results i)

/-- `Transactions_DestroyValues` -/
def transactionsDestroyValues (g : Globals) : Option Globals := do
  let h ← g.heap.free g.results
  some { g with heap := h }

/-- `Atomicity_Test` -/
def atomicityTest (nTimes : Int) (g : Globals) : Option Globals := do
  let g ← createThreads { g with numThreads := 15 }
  let g ← repeated (startThreads fun _ => true) nTimes.toNat g
  destroyThreads g

/-- `Replication_Tests`; the call of `Transactions_InitValues` is commented out. -/
def replicationTests (g : Globals) : Option Globals := do
  let g ← createThreads { g with numThreads := 2 }
  let g ← startThreads (fun _ => true) g
  let g ← destroyThreads g
  transactionsDestroyValues g

/-- `Transactions_Test`; thread `t` stores `results[t]`. -/
def transactionsTest (numThreads : Int) (g : Globals) : Option Globals := do
  let g ← transactionsInitValues { g with numThreads := numThreads }
  let g ← createThreads g
  let g ← startThreads (fun t => g.heap.valid g.results t) g
  let g ← g.check ((List.range numThreads.toNat).all fun i => g.heap.valid g.results i)
  let g ← destroyThreads g
  transactionsDestroyValues g

/-- `AtomicOps_Test` -/
def atomicOpsTest (g : Globals) : Option Globals := do
  let g ← createThreads { g with numThreads := 2 }
  let g ← startThreads (fun _ => true) g
  destroyThreads g

/-! ## `Queues.c` and `VectorMatrixMult.c` -/

section VectorMatrix

variable (d : Dims)

/-- All of the queue's content can be accessed. -/
def contentValid (g : Globals) : Bool :=
  (List.range d.queueSize).all fun i => g.heap.valid g.content i

/-- `matrix[i][j]` can be accessed, for all rows and columns. -/
def matrixValid (g : Globals) : Bool :=
  (List.range d.rows).all fun i => (g.heap.load g.matrix i).any fun p =>
    (List.range d.cols).all fun j => g.heap.valid p j

/-- `simpleSyncQueue = SimpleSyncQueue_Init()` -/
def simpleSyncQueueInit (g : Globals) : Option Globals :=
  let g' := { g with
    heap := (g.heap.malloc d.queueSize).2, content := (g.heap.malloc d.queueSize).1 }
  g'.check (contentValid d g')

/-- `SimpleSyncQueue_Destroy` -/
def simpleSyncQueueDestroy (g : Globals) : Option Globals :=
  if g.content ≠ .null then do
    let h ← g.heap.free g.content
    some { g with heap := h }
  else some g

/-- `Vector_Matrix_Init` -/
def vectorMatrixInit (g : Globals) : Option Globals := do
  let h ← mallocEach (g.heap.malloc d.rows).1 d.cols 0 d.rows (g.heap.malloc d.rows).2
  let g := { g with heap := h, matrix := (g.heap.malloc d.rows).1 }
  g.check (matrixValid d g)

/-- `Vector_Matrix_ReplicatedThreads` -/
def vectorMatrixReplicatedThreads (g : Globals) : Option Globals := do
  let g ← simpleSyncQueueInit d g
  let g ← createThreads { g with numThreads := 2 }
  g.check (threadValid g 1 && matrixValid d g && contentValid d g)

/-- The `switch` of `Vector_Matrix_MultAux`. -/
def runMode (g : Globals) : ExecMode → Option Globals
  | .notReplicated | .replicatedSameThread => g.check (matrixValid d g)
  | .replicatedThreads => vectorMatrixReplicatedThreads d g
  | .replicatedThreadsOptimally => some g

/-- `if(queueType == QueueType_SimpleSync) SimpleSyncQueue_Destroy(&simpleSyncQueue)` -/
def destroyQueue (g : Globals) : Option Globals :=
  if g.queueType = .simpleSync then simpleSyncQueueDestroy g else some g

/-- The body of the loop of `Vector_Matrix_MultAux`. -/
def multAuxRun (executionMode : ExecMode) (g : Globals) : Option Globals := do
  let g ← runMode d g executionMode
  let g ← destroyQueue g
  destroyThreads g

/-- `Vector_Matrix_MultAux` -/
def vectorMatrixMultAux (executionMode : ExecMode) : Globals → Option Globals :=
  repeated (multAuxRun d executionMode) numRuns

/-- `Vector_Matrix_Mult` -/
def vectorMatrixMult (g : Globals) : Option Globals := do
  let g ← vectorMatrixInit d g
  let g ← vectorMatrixMultAux d .notReplicated { g with queueType := .simpleSync }
  let g ← vectorMatrixMultAux d .replicatedThreads g
  let g ← vectorMatrixMultAux d .replicatedThreads g
  let h ← freeEach g.matrix 0 d.rows g.heap
  let h ← h.free g.matrix
  some { g with heap := h }

/-- The tests that a `main` can call. -/
inductive TestCall where
  | atomicity (nTimes : Int)
  | replication
  | transactions (numThreads : Int)
  | atomicOps
  | vectorMatrix
  deriving DecidableEq, Repr

def TestCall.run : TestCall → Globals → Option Globals
  | .atomicity nTimes => atomicityTest nTimes
  | .replication => replicationTests
  | .transactions numThreads => transactionsTest numThreads
  | .atomicOps => atomicOpsTest
  | .vectorMatrix => vectorMatrixMult d

/-- One test after the other. -/
def runTests : List TestCall → Globals → Option Globals
  | [], g => some g
  | c :: cs, g => (c.run d g).bind (runTests cs)

end VectorMatrix

/-! ## The threads -/

variable {d : Dims} {g g' : Globals} {old : Nat → Option Block} {n b i : Nat} {v : Block}

theorem check_true {accesses : Bool} (h : accesses = true) : g.check accesses = some g := if_pos h

/-- A loop whose body changes nothing. -/
theorem repeated_of_eq {f : Globals → Option Globals} (h : f g = some g) (k : Nat) :
    repeated f k g = some g := by
  induction k with
  | zero => rfl
  | succ k ih => rw [repeated, h, Option.bind_some, ih]

/-- A loop whose body keeps a property. -/
theorem repeated_rule {f : Globals → Option Globals} {P : Globals → Prop}
    (h : ∀ g, P g → ∃ g', f g = some g' ∧ P g') (k : Nat) (hg : P g) :
    ∃ g', repeated f k g = some g' ∧ P g' := by
  induction k generalizing g with
  | zero => exact ⟨g, rfl, hg⟩
  | succ k ih =>
    obtain ⟨g₁, h₁, hg₁⟩ := h g hg
    obtain ⟨g', h', hg'⟩ := ih hg₁
    exact ⟨g', by rw [repeated, h₁, Option.bind_some, h'], hg'⟩

/-- The threads are there, besides the blocks `old`. -/
structure HasThreads (old : Nat → Option Block) (g : Globals) : Prop where
  one_le : 1 ≤ g.numThreads
  array : ∃ a, g.threads = .block a ∧
    OwnedArray old g.heap a a g.numThreads.toNat 1 1 g.numThreads.toNat

theorem createThreads_eq (hn : 1 ≤ g.numThreads) :
    ∃ g', createThreads g = some g' ∧ HasThreads g.heap.block g' ∧
      g' = { g with heap := g'.heap, threads := g'.threads } := by
  have hlen : 1 + (g.numThreads - 1).toNat = g.numThreads.toNat := by omega
  have halloc := OwnedArray.alloc g.heap g.numThreads.toNat 1 1 g.heap.next rfl
  obtain ⟨h₁, hs, hnext, hown⟩ := halloc.store (i := 0) (by omega) (by omega) .foreign
  rw [next_alloc] at hnext
  obtain ⟨h₂, hm, -, hown₂⟩ := hown.mallocEach (g.numThreads - 1).toNat hnext (Nat.le_refl 1)
    (by omega)
  rw [hlen] at hown₂
  refine ⟨{ g with heap := h₂, threads := .block g.heap.next }, ?_, ⟨hn, _, rfl, hown₂⟩, rfl⟩
  rw [createThreads, malloc_of_nonneg g.heap (by omega)]
  simp only [hs, hm, Option.bind_eq_bind, Option.bind_some]

theorem createThreads_none (hn : g.numThreads < 1) : createThreads g = none := by
  rcases Int.lt_or_le g.numThreads 0 with hneg | hnonneg
  · rw [createThreads, malloc_of_neg g.heap hneg]
    rfl
  · -- the array has no cell
    have hzero : g.numThreads = 0 := by omega
    rw [createThreads, malloc_of_nonneg g.heap hnonneg, hzero]
    simp [store, block_alloc_self]

theorem HasThreads.threadValid (h : HasThreads old g) (hi : 1 ≤ i)
    (hi' : i < g.numThreads.toNat) : threadValid g i = true := by
  obtain ⟨-, a, ha, hown⟩ := h
  obtain ⟨v, hv, hsize⟩ := hown.live i hi hi'
  rw [Allocation.threadValid, ha, hown.load (Nat.le_refl _) hi hi', Option.any_some]
  exact valid_block hv (by omega)

theorem HasThreads.startThreads (h : HasThreads old g) {routine : Nat → Bool}
    (hr : ∀ t, t < g.numThreads.toNat → routine t = true) : startThreads routine g = some g := by
  have hn := h.one_le
  refine check_true ?_
  rw [Bool.and_eq_true, List.all_eq_true]
  refine ⟨hr 0 (by omega), ?_⟩
  intro j hj
  rw [List.mem_range'_1] at hj
  rw [h.threadValid hj.1 (by omega), hr j (by omega)]
  rfl

/-- The array of threads is gone, and its pointer points nowhere. -/
structure Dangling (g : Globals) (b : Nat) : Prop where
  threads : g.threads = .block b
  lt_next : b < g.heap.next
  gone : g.heap.block b = none

theorem HasThreads.destroyThreads (h : HasThreads old g) :
    ∃ g' b, Allocation.destroyThreads g = some g' ∧ g'.heap.block = old ∧ Dangling g' b ∧
      g' = { g with heap := g'.heap } := by
  obtain ⟨hn, a, ha, hown⟩ := h
  obtain ⟨h₁, hf, hnext, hown₁⟩ := hown.freeEach (g.numThreads - 1).toNat (by omega) (Nat.le_refl _)
  obtain ⟨h₂, hf', hnext', hold⟩ := hown₁.free
  refine ⟨{ g with heap := h₂ }, a, ?_, hold, ⟨ha, ?_, ?_⟩, rfl⟩
  · simp only [Allocation.destroyThreads, ha, hf, hf', Option.bind_eq_bind, Option.bind_some]
  · obtain ⟨cell, hb, -⟩ := hown.array
    show a < h₂.next
    rw [hnext', hnext]
    exact Heap.lt_next hb
  · show h₂.block a = none
    rw [hold]
    exact hown.fresh a (Nat.le_refl a)

/-- Destroying threads that are gone frees a block a second time. -/
theorem destroyThreads_dangling (ht : g.threads = .block b) (hb : g.heap.block b = none) :
    destroyThreads g = none := by
  rw [destroyThreads, ht]
  cases (g.numThreads - 1).toNat with
  | zero => simp [freeEach, free_dangling hb]
  | succ k => simp [freeEach, load_dangling hb]

/-- No threads were ever created. -/
theorem destroyThreads_null (ht : g.threads = .null) (hn : g.numThreads = 0) :
    destroyThreads g = some g := by
  obtain ⟨h, threads, n, r, c, m, q⟩ := g
  obtain rfl : threads = .null := ht
  obtain rfl : n = 0 := hn
  rfl

/-- What is done while there are threads, and allocates nothing. -/
theorem threads_session (body : Globals → Option Globals) (hn : 1 ≤ g.numThreads)
    (hbody : ∀ g', HasThreads g.heap.block g' →
      g' = { g with heap := g'.heap, threads := g'.threads } → body g' = some g') :
    ∃ g' b, (createThreads g).bind (fun g => (body g).bind destroyThreads) = some g' ∧
      g'.heap.block = g.heap.block ∧ Dangling g' b ∧
      g' = { g with heap := g'.heap, threads := g'.threads } := by
  obtain ⟨g₁, hc, hthreads, hg₁⟩ := createThreads_eq hn
  obtain ⟨g₂, b, hd, hold, hdangling, hg₂⟩ := hthreads.destroyThreads
  refine ⟨g₂, b, ?_, hold, hdangling, ?_⟩
  · rw [hc, Option.bind_some, hbody g₁ hthreads hg₁, Option.bind_some, hd]
  · rw [hg₂, hg₁]

/-! ## Tests with threads -/

/-- Between two tests nothing is allocated, and what pointers there are point nowhere. Where no
threads were created, there was no queue either. -/
structure Idle (g : Globals) : Prop where
  empty : g.heap.block = fun _ => none
  threads : g.threads = .null ∧ g.numThreads = 0 ∧ g.content = .null ∨ ∃ b, Dangling g b
  results : g.results = .null ∨ ∃ b, g.results = .block b

/-- After a test. -/
structure Tested (c : TestCall) (g g' : Globals) : Prop where
  empty : g'.heap.block = fun _ => none
  threads : ∃ b, Dangling g' b
  results : (∀ n, c ≠ .transactions n) ∧ g'.results = g.results ∨
    ∃ n b, c = .transactions n ∧ g'.results = .block b

theorem Tested.idle {c : TestCall} (h : Tested c g g') (hg : Idle g) : Idle g' := by
  obtain ⟨hempty, hthreads, hresults⟩ := h
  refine ⟨hempty, .inr hthreads, ?_⟩
  rcases hresults with ⟨-, hr⟩ | ⟨-, b, -, hr⟩
  · rw [hr]
    exact hg.results
  · exact .inr ⟨b, hr⟩

theorem transactionsDestroyValues_null (hr : g.results = .null) :
    transactionsDestroyValues g = some g := by
  obtain ⟨h, t, n, r, c, m, q⟩ := g
  obtain rfl : r = .null := hr
  rfl

theorem transactionsDestroyValues_dangling (hr : g.results = .block b)
    (hb : g.heap.block b = none) : transactionsDestroyValues g = none := by
  rw [transactionsDestroyValues, hr, free_dangling hb]
  rfl

theorem transactionsDestroyValues_block (hr : g.results = .block b)
    (hb : g.heap.block b = some v) :
    transactionsDestroyValues g = some { g with heap := g.heap.set b none } := by
  rw [transactionsDestroyValues, hr, free_block hb, ← hr]
  rfl

theorem atomicity_tested (hg : Idle g) (nTimes : Int) :
    ∃ g', atomicityTest nTimes g = some g' ∧ Tested (.atomicity nTimes) g g' := by
  obtain ⟨g', b, hs, hold, hdangling, heq⟩ := threads_session
    (g := { g with numThreads := 15 }) (repeated (startThreads fun _ => true) nTimes.toNat)
    (by simp) fun g' hthreads _ =>
      repeated_of_eq (hthreads.startThreads fun _ _ => rfl) nTimes.toNat
  exact ⟨g', hs, hold.trans hg.empty, ⟨b, hdangling⟩, .inl ⟨by simp, by rw [heq]⟩⟩

theorem atomicOps_tested (hg : Idle g) :
    ∃ g', atomicOpsTest g = some g' ∧ Tested .atomicOps g g' := by
  obtain ⟨g', b, hs, hold, hdangling, heq⟩ := threads_session
    (g := { g with numThreads := 2 }) (startThreads fun _ => true)
    (by simp) fun g' hthreads _ => hthreads.startThreads fun _ _ => rfl
  exact ⟨g', hs, hold.trans hg.empty, ⟨b, hdangling⟩, .inl ⟨by simp, by rw [heq]⟩⟩

/-- `Replication_Tests` frees `results`, whoever has allocated it. -/
theorem replicationTests_eq (g : Globals) :
    ∃ g' b, replicationTests g = transactionsDestroyValues g' ∧ g'.heap.block = g.heap.block ∧
      Dangling g' b ∧ g'.results = g.results := by
  obtain ⟨g', b, hs, hold, hdangling, heq⟩ := threads_session
    (g := { g with numThreads := 2 }) (startThreads fun _ => true)
    (by simp) fun g' hthreads _ => hthreads.startThreads fun _ _ => rfl
  refine ⟨g', b, ?_, hold, hdangling, by rw [heq]⟩
  obtain ⟨g₁, hc, hs⟩ := Option.bind_eq_some_iff.mp hs
  obtain ⟨g₂, hb, hs⟩ := Option.bind_eq_some_iff.mp hs
  simp only [replicationTests, hc, hb, hs, Option.bind_eq_bind, Option.bind_some]

theorem replication_tested (hg : Idle g) (hr : g.results = .null) :
    ∃ g', replicationTests g = some g' ∧ Tested .replication g g' := by
  obtain ⟨g', b, hs, hold, hdangling, hres⟩ := replicationTests_eq g
  refine ⟨g', ?_, hold.trans hg.empty, ⟨b, hdangling⟩, .inl ⟨by simp, hres⟩⟩
  rw [hs, transactionsDestroyValues_null (hres.trans hr)]

theorem replication_none (hg : Idle g) (hr : g.results ≠ .null) : replicationTests g = none := by
  obtain ⟨g', b, hs, hold, -, hres⟩ := replicationTests_eq g
  rcases hg.results with hnull | ⟨r, hblock⟩
  · exact absurd hnull hr
  · have hgone : g'.heap.block r = none := by rw [hold, hg.empty]
    rw [hs, transactionsDestroyValues_dangling (hres.trans hblock) hgone]

theorem transactionsInitValues_eq (hn : 0 ≤ g.numThreads) :
    transactionsInitValues g = some { g with
      heap := g.heap.alloc g.numThreads.toNat, results := .block g.heap.next } := by
  rw [transactionsInitValues, malloc_of_nonneg g.heap hn]
  refine check_true (List.all_eq_true.mpr fun i hi => ?_)
  exact valid_block (block_alloc_self ..) (List.mem_range.mp hi)

theorem transactions_tested (hg : Idle g) (hn : 1 ≤ n) :
    ∃ g', transactionsTest n g = some g' ∧ Tested (.transactions n) g g' := by
  have hinit := transactionsInitValues_eq (g := { g with numThreads := n }) (Int.natCast_nonneg n)
  have hlive : (g.heap.alloc n).block g.heap.next = some ⟨n, fun _ => none⟩ := block_alloc_self ..
  obtain ⟨g', b, hs, hold, ⟨hthreads, hlt, -⟩, heq⟩ := threads_session
    (g := { g with
      numThreads := n, heap := g.heap.alloc n, results := .block g.heap.next })
    (fun g' => (startThreads (fun t => g'.heap.valid g'.results t) g').bind fun g' =>
      g'.check ((List.range n).all fun i => g'.heap.valid g'.results i))
    (by show 1 ≤ (n : Int); omega) fun g' hthreads heq => by
      have hvalid : ∀ t, t < n → g'.heap.valid g'.results t = true := by
        intro t ht
        obtain ⟨-, a, -, hown⟩ := hthreads
        rw [heq]
        exact valid_block (hown.keeps _ _ hlive) ht
      have hnum : g'.numThreads.toNat = n := by
        rw [heq]
        rfl
      rw [hthreads.startThreads fun t ht => hvalid t (hnum ▸ ht), Option.bind_some]
      exact check_true (List.all_eq_true.mpr fun i hi => hvalid i (List.mem_range.mp hi))
  have hres : g'.results = .block g.heap.next := by rw [heq]
  have hfree := transactionsDestroyValues_block hres (by rw [hold]; exact hlive)
  have hempty : (g'.heap.set g.heap.next none).block = fun _ => none := by
    funext c
    by_cases hc : c = g.heap.next
    · rw [hc, block_set_self]
      exact lt_next (by rw [hold]; exact hlive)
    · rw [block_set_ne hc, hold]
      show (g.heap.alloc n).block c = none
      rw [block_alloc_ne hc, hg.empty]
  refine ⟨{ g' with heap := g'.heap.set g.heap.next none }, ?_, hempty,
    ⟨b, hthreads, ?_, congrFun hempty b⟩, .inr ⟨n, g.heap.next, rfl, hres⟩⟩
  · obtain ⟨g₁, hc, hs⟩ := Option.bind_eq_some_iff.mp hs
    obtain ⟨g₃, hb, hd⟩ := Option.bind_eq_some_iff.mp hs
    obtain ⟨g₂, hst, hck⟩ := Option.bind_eq_some_iff.mp hb
    simp only [transactionsTest, hinit, Option.bind_eq_bind, Option.bind_some, Int.toNat_natCast,
      hc, hst, hck, hd, hfree]
  · show b < (g'.heap.set g.heap.next none).next
    rw [next_set]
    exact hlt

theorem transactionsInitValues_numThreads (h : transactionsInitValues g = some g') :
    g'.numThreads = g.numThreads := by
  rw [transactionsInitValues, Globals.check] at h
  split at h
  · cases h
    rfl
  · cases h

theorem transactions_none {n : Int} (hn : n < 1) : transactionsTest n g = none := by
  rw [transactionsTest, Option.bind_eq_bind, Option.bind_eq_none_iff]
  intro g' hg'
  have hnum : g'.numThreads = n := transactionsInitValues_numThreads hg'
  rw [createThreads_none (hnum.trans_lt hn), Option.bind_none]

/-! ## The multiplication -/

/-- The matrix is there, besides the blocks `old`. -/
def HasMatrix (d : Dims) (old : Nat → Option Block) (g : Globals) : Prop :=
  ∃ a, g.matrix = .block a ∧ OwnedArray old g.heap a (a + 1) d.rows d.cols 0 d.rows

/-- The rows can be read, whatever was allocated since. -/
theorem HasMatrix.valid (h : HasMatrix d old g) (hm : g'.matrix = g.matrix)
    (hk : Keeps g.heap.block g'.heap) : matrixValid d g' = true := by
  obtain ⟨a, ha, hown⟩ := h
  rw [matrixValid, hm, ha, List.all_eq_true]
  intro i hi
  have hlt := List.mem_range.mp hi
  obtain ⟨v, hv, hsize⟩ := hown.live i (Nat.zero_le i) hlt
  rw [hk.load (hown.load (Nat.le_refl _) (Nat.zero_le i) hlt), Option.any_some, List.all_eq_true]
  intro j hj
  refine hk.valid (valid_block hv ?_)
  rw [hsize]
  exact List.mem_range.mp hj

theorem vectorMatrixInit_eq (g : Globals) :
    ∃ g', vectorMatrixInit d g = some g' ∧ HasMatrix d g.heap.block g' ∧
      (∀ b, b < g.heap.next → g'.heap.block b = g.heap.block b) ∧
      g' = { g with heap := g'.heap, matrix := g'.matrix } := by
  have halloc := OwnedArray.alloc g.heap d.rows d.cols 0 (g.heap.next + 1) rfl
  obtain ⟨h, hm, -, hown⟩ := halloc.mallocEach d.rows (next_alloc ..) (Nat.le_refl 0) (by omega)
  rw [Nat.zero_add] at hown
  have hhas : HasMatrix d g.heap.block { g with heap := h, matrix := .block g.heap.next } :=
    ⟨_, rfl, hown⟩
  refine ⟨{ g with heap := h, matrix := .block g.heap.next }, ?_, hhas, ?_, rfl⟩
  · rw [vectorMatrixInit, malloc_of_nonneg g.heap (Int.natCast_nonneg d.rows)]
    simp only [Int.toNat_natCast, hm, Option.bind_eq_bind, Option.bind_some]
    exact check_true (hhas.valid rfl (Keeps.refl h))
  · intro b hb
    exact hown.frame b (by omega) fun i _ _ => by omega

theorem simpleSyncQueueInit_eq (g : Globals) :
    simpleSyncQueueInit d g = some { g with
      heap := g.heap.alloc d.queueSize, content := .block g.heap.next } := by
  rw [simpleSyncQueueInit, malloc_of_nonneg g.heap (Int.natCast_nonneg d.queueSize)]
  refine check_true (List.all_eq_true.mpr fun i hi => ?_)
  exact valid_block (block_alloc_self ..) (List.mem_range.mp hi)

theorem destroyQueue_null (hc : g.content = .null) : destroyQueue g = some g := by
  rw [destroyQueue, simpleSyncQueueDestroy, if_neg (not_not.mpr hc), ite_self]

theorem destroyQueue_dangling (h : destroyQueue g = some g') (ht : g.threads = .block b)
    (hb : g.heap.block b = none) : g'.threads = .block b ∧ g'.heap.block b = none := by
  have hself : some g = some g' → g'.threads = .block b ∧ g'.heap.block b = none := by
    intro he
    cases he
    exact ⟨ht, hb⟩
  rw [destroyQueue, simpleSyncQueueDestroy] at h
  split at h
  · split at h
    · obtain ⟨h₁, hf, he⟩ := Option.bind_eq_some_iff.mp h
      cases he
      exact ⟨ht, free_keeps_none hf hb⟩
    · exact hself h
  · exact hself h

/-- A run with threads leaves the blocks as they were. -/
theorem multAuxRun_threads (hm : HasMatrix d old g) (hq : g.queueType = .simpleSync) :
    ∃ g' b, multAuxRun d .replicatedThreads g = some g' ∧ g'.heap.block = g.heap.block ∧
      Dangling g' b ∧ g'.matrix = g.matrix ∧ g'.results = g.results ∧
      g'.queueType = g.queueType := by
  have hlive : (g.heap.alloc d.queueSize).block g.heap.next = some ⟨d.queueSize, fun _ => none⟩ :=
    block_alloc_self ..
  obtain ⟨g₁, hc, hthreads, heq⟩ := createThreads_eq (g := { g with
    heap := g.heap.alloc d.queueSize, content := .block g.heap.next, numThreads := 2 }) (by simp)
  obtain ⟨hn, a, ha, hown⟩ := id hthreads
  have hcontent : g₁.content = .block g.heap.next := by rw [heq]
  have hvalid : (threadValid g₁ 1 && matrixValid d g₁ && contentValid d g₁) = true := by
    rw [Bool.and_eq_true, Bool.and_eq_true]
    refine ⟨⟨hthreads.threadValid (Nat.le_refl 1) ?_, hm.valid ?_ ?_⟩, ?_⟩
    · rw [heq]
      exact Nat.one_lt_two
    · rw [heq]
    · exact ((Keeps.refl g.heap).alloc d.queueSize).trans hown.keeps
    · rw [contentValid, hcontent]
      refine List.all_eq_true.mpr fun i hi => ?_
      exact valid_block (hown.keeps _ _ hlive) (List.mem_range.mp hi)
  -- the queue's content is freed while the threads are still there
  obtain ⟨h₂, hf, -, hown₂⟩ := hown.free_other hlive
  have hthreads₂ : HasThreads _ { g₁ with heap := h₂ } := ⟨hn, a, ha, hown₂⟩
  obtain ⟨g₃, b, hd, hold, hdangling, heq₃⟩ := hthreads₂.destroyThreads
  refine ⟨g₃, b, ?_, ?_, hdangling, ?_, ?_, ?_⟩
  · have hq₁ : g₁.queueType = .simpleSync := by
      rw [heq]
      exact hq
    have hdestroy : destroyQueue g₁ = some { g₁ with heap := h₂ } := by
      rw [destroyQueue, if_pos hq₁, simpleSyncQueueDestroy, if_pos (by rw [hcontent]; simp),
        hcontent, hf]
      rfl
    simp only [multAuxRun, runMode, vectorMatrixReplicatedThreads, simpleSyncQueueInit_eq, hc,
      check_true hvalid, hdestroy, hd, Option.bind_eq_bind, Option.bind_some]
  · rw [hold]
    funext c
    by_cases hc : c = g.heap.next
    · rw [hc, Function.update_self, block_eq_none (Nat.le_refl _)]
    · rw [Function.update_of_ne hc]
      exact block_alloc_ne hc _
  · rw [heq₃, heq]
  · rw [heq₃, heq]
  · rw [heq₃, heq]

/-- The other modes allocate nothing. -/
theorem runMode_same {mode : ExecMode} (hmode : mode ≠ .replicatedThreads)
    (h : runMode d g mode = some g') : g' = g := by
  cases mode with
  | replicatedThreads => exact absurd rfl hmode
  | replicatedThreadsOptimally =>
    cases h
    rfl
  | notReplicated | replicatedSameThread =>
    rw [runMode, Globals.check] at h
    split at h <;> cases h
    rfl

/-- Without threads nothing changes, as long as there were none before. -/
theorem multAuxRun_null {mode : ExecMode} (hmode : mode ≠ .replicatedThreads)
    (hm : HasMatrix d old g) (ht : g.threads = .null) (hn : g.numThreads = 0)
    (hc : g.content = .null) : multAuxRun d mode g = some g := by
  have hrun : runMode d g mode = some g := by
    cases mode with
    | replicatedThreads => exact absurd rfl hmode
    | replicatedThreadsOptimally => rfl
    | notReplicated | replicatedSameThread => exact check_true (hm.valid rfl (Keeps.refl g.heap))
  simp only [multAuxRun, hrun, destroyQueue_null hc, destroyThreads_null ht hn,
    Option.bind_eq_bind, Option.bind_some]

/-- Without threads, those of an earlier run or test are destroyed again. -/
theorem multAuxRun_dangling {mode : ExecMode} (hmode : mode ≠ .replicatedThreads)
    (ht : g.threads = .block b) (hb : g.heap.block b = none) : multAuxRun d mode g = none := by
  rw [multAuxRun, Option.bind_eq_bind, Option.bind_eq_none_iff]
  intro g₁ hg₁
  obtain rfl := runMode_same hmode hg₁
  rw [Option.bind_eq_none_iff]
  intro g₂ hg₂
  obtain ⟨ht₂, hb₂⟩ := destroyQueue_dangling hg₂ ht hb
  exact destroyThreads_dangling ht₂ hb₂

/-- What holds between two runs of the multiplication. -/
structure Multiplying (d : Dims) (old : Nat → Option Block) (r : Ptr) (g : Globals) : Prop where
  matrix : HasMatrix d old g
  results : g.results = r
  queueType : g.queueType = .simpleSync

theorem Multiplying.run {r : Ptr} (h : Multiplying d old r g) :
    ∃ g', multAuxRun d .replicatedThreads g = some g' ∧
      Multiplying d old r g' ∧ ∃ b, Dangling g' b := by
  obtain ⟨⟨a, ha, hown⟩, hr, hq⟩ := h
  obtain ⟨g', b, hs, hblock, hdangling, hm, hres, hqt⟩ := multAuxRun_threads ⟨a, ha, hown⟩ hq
  exact ⟨g', hs, ⟨⟨a, hm.trans ha, hown.congr hblock⟩, hres.trans hr, hqt.trans hq⟩, b, hdangling⟩

theorem Multiplying.multAux {r : Ptr} (h : Multiplying d old r g) :
    ∃ g', vectorMatrixMultAux d .replicatedThreads g = some g' ∧
      Multiplying d old r g' ∧ ∃ b, Dangling g' b := by
  obtain ⟨g₁, h₁, hg₁⟩ := h.run
  obtain ⟨g', h', hg'⟩ := repeated_rule (fun g hg => Multiplying.run hg.1) 4 hg₁
  refine ⟨g', ?_, hg'⟩
  rw [vectorMatrixMultAux, numRuns, repeated, h₁, Option.bind_some, h']

theorem vectorMatrix_tested (hg : Idle g) (ht : g.threads = .null) :
    ∃ g', vectorMatrixMult d g = some g' ∧ Tested .vectorMatrix g g' := by
  have hnull : g.numThreads = 0 ∧ g.content = .null := by
    rcases hg.threads with ⟨-, hn, hc⟩ | ⟨b, hb, -⟩
    · exact ⟨hn, hc⟩
    · rw [ht] at hb
      cases hb
  obtain ⟨g₁, hi, hm₁, -, heq₁⟩ := vectorMatrixInit_eq (d := d) g
  have hbase : vectorMatrixMultAux d .notReplicated { g₁ with queueType := .simpleSync } =
      some { g₁ with queueType := .simpleSync } := by
    refine repeated_of_eq (@multAuxRun_null d _ g.heap.block _ (by decide) ?_ ?_ ?_ ?_) numRuns
    · exact hm₁
    · rw [heq₁]
      exact ht
    · rw [heq₁]
      exact hnull.1
    · rw [heq₁]
      exact hnull.2
  have hstart : Multiplying d g.heap.block g.results { g₁ with queueType := .simpleSync } :=
    ⟨hm₁, by rw [heq₁], rfl⟩
  obtain ⟨g₂, h₂, hg₂, -⟩ := hstart.multAux
  obtain ⟨g₃, h₃, ⟨⟨a, ha, hown⟩, hr, -⟩, b, hthreads, hlt, -⟩ := hg₂.multAux
  obtain ⟨h₄, hf, hnext, hown₄⟩ := hown.freeEach d.rows (Nat.zero_add _) (Nat.le_refl _)
  obtain ⟨h₅, hf', hnext', hold⟩ := hown₄.free
  have hempty : h₅.block = fun _ => none := hold.trans hg.empty
  refine ⟨{ g₃ with heap := h₅ }, ?_, hempty, ⟨b, hthreads, ?_, congrFun hempty b⟩,
    .inl ⟨by simp, hr⟩⟩
  · simp only [vectorMatrixMult, hi, hbase, h₂, h₃, ha, hf, hf', Option.bind_eq_bind,
      Option.bind_some]
  · show b < h₅.next
    rw [hnext', hnext]
    exact hlt

theorem vectorMatrix_none (hg : Idle g) (ht : g.threads ≠ .null) :
    vectorMatrixMult d g = none := by
  rcases hg.threads with ⟨hnull, -⟩ | ⟨b, hb, hlt, hgone⟩
  · exact absurd hnull ht
  · obtain ⟨g₁, hi, -, hframe, heq₁⟩ := vectorMatrixInit_eq (d := d) g
    -- nothing that `Vector_Matrix_Init` has allocated is where the threads were
    have hgone₁ : g₁.heap.block b = none := (hframe b hlt).trans hgone
    have hthreads : g₁.threads = .block b := by
      rw [heq₁]
      exact hb
    have hrun :
        vectorMatrixMultAux d .notReplicated { g₁ with queueType := .simpleSync } = none := by
      have hfirst : multAuxRun d .notReplicated { g₁ with queueType := .simpleSync } = none :=
        multAuxRun_dangling (by decide) hthreads hgone₁
      rw [vectorMatrixMultAux, numRuns, repeated, hfirst, Option.bind_none]
    simp only [vectorMatrixMult, hi, hrun, Option.bind_eq_bind, Option.bind_some, Option.bind_none]

/-! ## Sequences of tests -/

/-- The thread count is positive. -/
def TestCall.Valid : TestCall → Prop
  | .transactions numThreads => 1 ≤ numThreads
  | _ => True

/-- The second test can be called after the first. -/
def MayFollow : TestCall → TestCall → Prop
  | _, .vectorMatrix => False
  | .transactions _, .replication => False
  | _, _ => True

/-- The test can be called with these globals. -/
def Fits (g : Globals) : TestCall → Prop
  | .vectorMatrix => g.threads = .null
  | .replication => g.results = .null
  | .transactions numThreads => 1 ≤ numThreads
  | _ => True

/-- **What one test does.** -/
theorem run_tested (hg : Idle g) {c : TestCall} (hc : Fits g c) :
    ∃ g', c.run d g = some g' ∧ Tested c g g' := by
  cases c with
  | atomicity nTimes => exact atomicity_tested hg nTimes
  | replication => exact replication_tested hg hc
  | transactions numThreads =>
    have hn : 1 ≤ numThreads := hc
    obtain ⟨n, rfl⟩ := Int.eq_ofNat_of_zero_le (by omega : 0 ≤ numThreads)
    exact transactions_tested hg (by omega)
  | atomicOps => exact atomicOps_tested hg
  | vectorMatrix => exact vectorMatrix_tested hg hc

theorem run_none (hg : Idle g) {c : TestCall} (hc : ¬ Fits g c) : c.run d g = none := by
  cases c with
  | replication => exact replication_none hg hc
  | transactions numThreads => exact transactions_none (Int.not_le.mp hc)
  | vectorMatrix => exact vectorMatrix_none hg hc
  | atomicity | atomicOps => exact absurd trivial hc

/-- A test that has run restricts those that come after it. -/
theorem Tested.fits_iff {c c' : TestCall} (h : Tested c g g') :
    Fits g' c' ↔ Fits g c' ∧ MayFollow c c' := by
  obtain ⟨-, ⟨b, hthreads, -⟩, hresults⟩ := h
  cases c' with
  | vectorMatrix => simp [Fits, MayFollow, hthreads]
  | replication =>
    rcases hresults with ⟨hc, hr⟩ | ⟨n, b, rfl, hr⟩
    · cases c with
      | transactions n => exact absurd rfl (hc n)
      | atomicity | replication | atomicOps | vectorMatrix => simp [Fits, MayFollow, hr]
    · simp [Fits, MayFollow, hr]
  | atomicity | transactions | atomicOps => simp [Fits, MayFollow]

theorem Idle.start : Idle .start := ⟨rfl, .inl ⟨rfl, rfl, rfl⟩, .inl rfl⟩

theorem fits_start (c : TestCall) : Fits .start c ↔ c.Valid := by
  cases c <;> simp [Fits, TestCall.Valid, Globals.start]

theorem runTests_fits_iff {cs : List TestCall} (hg : Idle g) :
    (runTests d cs g).isSome = true ↔ (∀ c ∈ cs, Fits g c) ∧ cs.Pairwise MayFollow := by
  induction cs generalizing g with
  | nil => simp [runTests]
  | cons c cs ih =>
    rw [List.forall_mem_cons, List.pairwise_cons, runTests]
    by_cases hc : Fits g c
    · obtain ⟨g', hrun, htested⟩ := run_tested (d := d) hg hc
      have hrest : (∀ c' ∈ cs, Fits g' c') ↔
          (∀ c' ∈ cs, Fits g c') ∧ ∀ c' ∈ cs, MayFollow c c' := by
        simp only [htested.fits_iff]
        exact forall₂_and
      rw [hrun, Option.bind_some, ih (htested.idle hg), hrest]
      constructor
      · rintro ⟨⟨hfits, hmay⟩, hpairs⟩
        exact ⟨⟨hc, hfits⟩, hmay, hpairs⟩
      · rintro ⟨⟨-, hfits⟩, hmay, hpairs⟩
        exact ⟨⟨hfits, hmay⟩, hpairs⟩
    · rw [run_none hg hc]
      simp [hc]

theorem runTests_idle {cs : List TestCall} (hg : Idle g) (hrun : runTests d cs g = some g') :
    Idle g' := by
  induction cs generalizing g with
  | nil =>
    cases hrun
    exact hg
  | cons c cs ih =>
    obtain ⟨g₁, h₁, hrun⟩ := Option.bind_eq_some_iff.mp hrun
    by_cases hc : Fits g c
    · obtain ⟨g₂, h₂, htested⟩ := run_tested (d := d) hg hc
      obtain rfl : g₂ = g₁ := Option.some.inj (h₂.symm.trans h₁)
      exact ih (htested.idle hg) hrun
    · rw [run_none hg hc] at h₁
      cases h₁

variable (d) in
/--
**Which sequences of tests are safe.** The multiplication destroys threads that it has not created,
and must be the first of the tests; `Replication_Tests` frees `results` that it has not allocated,
and must not come after `Transactions_Test`; a thread count must be positive. Then no block is
freed twice or used after it was freed, and none is left at the end.
-/
theorem runTests_iff (cs : List TestCall) :
    ((runTests d cs .start).isSome = true ↔ (∀ c ∈ cs, c.Valid) ∧ cs.Pairwise MayFollow) ∧
      ∀ g, runTests d cs .start = some g → ∀ b, g.heap.block b = none := by
  constructor
  · simp only [runTests_fits_iff Idle.start, fits_start]
  · intro g hrun b
    rw [(runTests_idle Idle.start hrun).empty]

/-- What `main` calls is safe, a second time it is not. -/
example : (runTests (Dims.small 1) [.vectorMatrix] .start).isSome = true ∧
    (runTests (Dims.small 1) [.vectorMatrix, .vectorMatrix] .start).isSome = false := by decide

end Allocation

end TsxProject
