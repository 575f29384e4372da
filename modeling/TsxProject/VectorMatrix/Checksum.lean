import TsxProject.Allocation
import TsxProject.VectorMatrix.Refinement

/-!
# The checksum of `Vector_Matrix_MultAux`

The execution modes share the two result vectors. `Vector_Matrix_MultAux` adds up
`producerVectorResult` after each of its runs, in `replicatedSameThread` only the rows in which
`consumerVectorResult` agrees; but `Vector_Matrix_ReplicatedSameThread` stores to the first vector
alone.

A run prints its sum only after it has destroyed the queue and the threads. Those are there in
`replicatedThreads` alone, and the first run in another mode after such a run frees them again: it
is the last one.

* `MultAuxCalls` — a program's calls of `Vector_Matrix_MultAux`, with the sums that they compute
  and print
* `MultAuxCalls.isSome_iff` — the sequences of modes that come to their end
* `checksum_iff` — the sequences of modes for which every sum is the exact one
-/

namespace TsxProject

open Infra Allocation

/-- The global result vectors. -/
structure VectorResults where
  producerVectorResult : Nat → Int
  consumerVectorResult : Nat → Int

/-- Globals are zero when the program starts. -/
def VectorResults.start : VectorResults := ⟨fun _ => 0, fun _ => 0⟩

variable {d : Dims} (w : Workload d)

/-! ## `Vector_Matrix_ReplicatedSameThread` -/

/-- The inner loop over the first `j` columns; `none` stands for "Soft error encountered!!!!" and
the end of the process. -/
def replicatedSameThreadRow (i : Nat) : Nat → (Nat → Int) → Option (Nat → Int)
  | 0, result => some result
  | j + 1, result =>
    (replicatedSameThreadRow i j result).bind fun r =>
      let v1 := w.vector j * w.matrix i j
      let v2 := w.vector j * w.matrix i j
      if v1 = v2 then some (Function.update r i (r i + v1)) else none

/-- The outer loop over the first `i` rows. -/
def replicatedSameThreadRows : Nat → (Nat → Int) → Option (Nat → Int)
  | 0, result => some result
  | i + 1, result =>
    (replicatedSameThreadRows i result).bind fun r =>
      replicatedSameThreadRow w i d.cols (Function.update r i 0)

/-- `Vector_Matrix_ReplicatedSameThread`, from what `producerVectorResult` holds before. -/
def replicatedSameThread (result : Nat → Int) : Option (Nat → Int) :=
  replicatedSameThreadRows w d.rows result

theorem replicatedSameThreadRow_eq (i j : Nat) (result : Nat → Int) :
    replicatedSameThreadRow w i j result = some (notReplicatedRow w i j result) := by
  induction j with
  | zero => rfl
  | succ j ih => simp [replicatedSameThreadRow, notReplicatedRow, ih]

/-- Without faults, the second computation changes nothing. -/
theorem replicatedSameThread_eq (result : Nat → Int) :
    replicatedSameThread w result = some (notReplicated w result) := by
  have hrows : ∀ n, replicatedSameThreadRows w n result = some (notReplicatedRows w n result) := by
    intro n
    induction n with
    | zero => rfl
    | succ n ih =>
      rw [replicatedSameThreadRows, ih, Option.bind_some, replicatedSameThreadRow_eq]
      rfl
  exact hrows d.rows

/-! ## `Vector_Matrix_MultAux` -/

/-- Both result vectors hold the row products. -/
structure VectorResults.Complete (r : VectorResults) : Prop where
  producer : ∀ i, i < d.rows → r.producerVectorResult i = w.faultFree.final d i
  consumer : ∀ i, i < d.rows → r.consumerVectorResult i = w.faultFree.final d i

/-- The `switch` over the mode: what a run does to the result vectors. Of
`Vector_Matrix_ReplicatedThreads` the runs that complete are taken. -/
inductive RunMode : ExecMode → VectorResults → VectorResults → Prop where
  | notReplicated (r : VectorResults) : RunMode .notReplicated r
      { r with producerVectorResult := notReplicated w r.producerVectorResult }
  | replicatedSameThread {r : VectorResults} {result : Nat → Int} :
      replicatedSameThread w r.producerVectorResult = some result →
      RunMode .replicatedSameThread r { r with producerVectorResult := result }
  | replicatedThreads {r r' : VectorResults} : r'.Complete w → RunMode .replicatedThreads r r'
  | default (r : VectorResults) : RunMode .replicatedThreadsOptimally r r

/-- The loops over the first `i` rows that compute `matrixSum`. -/
def sumRows (mode : ExecMode) (r : VectorResults) : Nat → Int
  | 0 => 0
  | i + 1 =>
    if mode = .replicatedSameThread then
      if r.producerVectorResult i = r.consumerVectorResult i then
        sumRows mode r i + r.producerVectorResult i
      else sumRows mode r i
    else sumRows mode r i + r.producerVectorResult i

/-- What a run reports. -/
inductive Report where
  /-- `matrixSum` is computed -/
  | computed (matrixSum : Int)
  /-- and printed -/
  | printed (matrixSum : Int)
  deriving DecidableEq

/-- The program between two runs. -/
structure MultMemory where
  globals : Globals
  vectors : VectorResults

/-- The body of the loop over the runs, which is `multAuxRun` with what is computed in it. There is
no memory after undefined behaviour. -/
inductive MultAuxRun (mode : ExecMode) (p : MultMemory) :
    List Report → Option MultMemory → Prop where
  | fault : runMode d p.globals mode = none → MultAuxRun mode p [] none
  /-- the queue or the threads are freed again, before the `printf` -/
  | freed {g : Globals} {r : VectorResults} :
      runMode d p.globals mode = some g → RunMode w mode p.vectors r →
      (destroyQueue g).bind destroyThreads = none →
      MultAuxRun mode p [.computed (sumRows mode r d.rows)] none
  | printed {g g' : Globals} {r : VectorResults} :
      runMode d p.globals mode = some g → RunMode w mode p.vectors r →
      (destroyQueue g).bind destroyThreads = some g' →
      MultAuxRun mode p
        [.computed (sumRows mode r d.rows), .printed (sumRows mode r d.rows)] (some ⟨g', r⟩)

/-- One run after the other. -/
inductive MultAuxRuns : List ExecMode → MultMemory → List Report → Option MultMemory → Prop where
  | nil (p : MultMemory) : MultAuxRuns [] p [] (some p)
  | stop {mode : ExecMode} {modes : List ExecMode} {p : MultMemory} {out : List Report} :
      MultAuxRun w mode p out none → MultAuxRuns (mode :: modes) p out none
  | cons {mode : ExecMode} {modes : List ExecMode} {p p' : MultMemory} {out out' : List Report}
      {last : Option MultMemory} :
      MultAuxRun w mode p out (some p') → MultAuxRuns modes p' out' last →
      MultAuxRuns (mode :: modes) p (out ++ out') last

/-- `Vector_Matrix_MultAux` -/
def MultAux (mode : ExecMode) : MultMemory → List Report → Option MultMemory → Prop :=
  MultAuxRuns w (List.replicate numRuns mode)

/-- One call of `Vector_Matrix_MultAux` after the other, after `Vector_Matrix_Init`. -/
def MultAuxCalls (queueType : QueueType) (modes : List ExecMode) (out : List Report)
    (last : Option MultMemory) : Prop :=
  ∃ g, vectorMatrixInit d { Globals.start with queueType := queueType } = some g ∧
    MultAuxRuns w (modes.flatMap (List.replicate numRuns)) ⟨g, .start⟩ out last

/-- The sum over all rows of the exact dot product of the row with the vector. -/
def exactSum : Int := ∑ i ∈ Finset.range d.rows, ∑ j ∈ Finset.range d.cols,
  w.vector j * w.matrix i j

variable {w}

theorem exactSum_eq : exactSum w = ∑ i ∈ Finset.range d.rows, w.faultFree.final d i := by
  rw [exactSum]
  refine Finset.sum_congr rfl fun i _ => ?_
  exact (w.sum_eq i d.cols).symm

/-- A complete run of the two threads is a run of its mode. -/
theorem RunMode.of_done {S : Setup} {w : Workload S.dims} (hS : S.Replicated)
    (hw : S.FaultFree w) {tr : List (Event S.N)} {s : S.State} (h : S.system.Runs tr s)
    (hp : s.fst.pc = .done) (hc : s.snd.pc = .done) :
    RunMode w .replicatedThreads ⟨S.producerResult, S.consumerResult⟩
      ⟨s.fst.producerVectorResult, s.snd.consumerVectorResult⟩ := by
  have hres := fun i hi => (results hS h).of_done (refines hS h).1 hp hc (i := i) hi
  obtain ⟨hpc, hcc⟩ := hw
  refine .replicatedThreads ⟨fun i hi => ?_, fun i hi => ?_⟩
  · rw [← hpc]
    exact (hres i hi).1
  · rw [← hcc]
    exact (hres i hi).2

/-! ## One run -/

variable {mode : ExecMode} {modes modes' : List ExecMode} {r r' : VectorResults}
  {p p' : MultMemory} {out out' : List Report} {last : Option MultMemory} {queueType : QueueType}

/-- `consumerVectorResult` holds the row products. -/
def VectorResults.Checked (w : Workload d) (r : VectorResults) : Prop :=
  ∀ i, i < d.rows → r.consumerVectorResult i = w.faultFree.final d i

/-- After a run, the first vector holds the row products. -/
theorem RunMode.producer_eq (h : RunMode w mode r r')
    (hmode : mode ≠ .replicatedThreadsOptimally) {i : Nat} (hi : i < d.rows) :
    r'.producerVectorResult i = w.faultFree.final d i := by
  cases h with
  | notReplicated => exact notReplicated_apply w _ hi
  | replicatedSameThread hres =>
    rw [replicatedSameThread_eq] at hres
    cases hres
    exact notReplicated_apply w _ hi
  | replicatedThreads hc => exact hc.producer i hi
  | default => exact absurd rfl hmode

/-- Only `replicatedThreads` stores to the second vector. -/
theorem RunMode.consumer_eq (h : RunMode w mode r r') (hmode : mode ≠ .replicatedThreads) :
    r'.consumerVectorResult = r.consumerVectorResult := by
  cases h with
  | replicatedThreads => exact absurd rfl hmode
  | _ => rfl

theorem RunMode.checked (h : RunMode w mode r r')
    (hr : mode = .replicatedThreads ∨ r.Checked w) : r'.Checked w := by
  by_cases hmode : mode = .replicatedThreads
  · subst hmode
    cases h with
    | replicatedThreads hc => exact hc.consumer
  · intro i hi
    rw [h.consumer_eq hmode]
    exact hr.resolve_left hmode i hi

/-- The sum of a run is exact, in `replicatedSameThread` if the second vector is complete too. -/
theorem RunMode.sumRows_eq (h : RunMode w mode r r')
    (hmode : mode ≠ .replicatedThreadsOptimally)
    (hr : mode = .replicatedSameThread → r'.Checked w) :
    sumRows mode r' d.rows = exactSum w := by
  have hsum : ∀ n ≤ d.rows, sumRows mode r' n = ∑ i ∈ Finset.range n, w.faultFree.final d i := by
    intro n hn
    induction n with
    | zero => rfl
    | succ n ih =>
      have hprod := h.producer_eq hmode (show n < d.rows by omega)
      rw [Finset.sum_range_succ, ← ih (by omega), ← hprod, sumRows]
      by_cases hsame : mode = .replicatedSameThread
      · have hcons := hr hsame n (by omega)
        rw [if_pos hsame, if_pos (hprod.trans hcons.symm)]
      · rw [if_neg hsame]
  rw [hsum d.rows (Nat.le_refl _), exactSum_eq]

/-- The sum of `replicatedSameThread` over an untouched second vector. -/
theorem RunMode.sumRows_zero (h : RunMode w .replicatedSameThread r r')
    (hr : ∀ i, r.consumerVectorResult i = 0) : sumRows .replicatedSameThread r' d.rows = 0 := by
  have hsum : ∀ n ≤ d.rows, sumRows .replicatedSameThread r' n = 0 := by
    intro n hn
    induction n with
    | zero => rfl
    | succ n ih =>
      have hlt : n < d.rows := by omega
      have hprod := h.producer_eq (by simp) hlt
      have hpos : 0 < w.faultFree.final d n := w.sum_lt_sum (j := 0) hlt d.cols_pos (Nat.le_refl _)
      have hne : r'.producerVectorResult n ≠ r'.consumerVectorResult n := by
        rw [hprod, h.consumer_eq (by simp), hr n]
        omega
      rw [sumRows, if_pos rfl, if_neg hne]
      exact ih (by omega)
  exact hsum d.rows (Nat.le_refl _)

theorem exactSum_pos (hrows : 0 < d.rows) : 0 < exactSum w := by
  rw [exactSum_eq]
  refine Finset.sum_pos (fun i hi => ?_) (Finset.nonempty_range_iff.mpr (by omega))
  exact w.sum_lt_sum (j := 0) (Finset.mem_range.mp hi) d.cols_pos (Nat.le_refl _)

/-! ## What is allocated -/

/-- The blocks are those of `multAuxRun`. -/
theorem MultAuxRun.globals_eq (h : MultAuxRun w mode p out last) :
    multAuxRun d mode p.globals = last.map MultMemory.globals := by
  unfold multAuxRun
  cases h with
  | fault hmode => rw [hmode, Option.map_none]; rfl
  | freed hmode _ hfree => rw [hmode, Option.map_none]; exact hfree
  | printed hmode _ hfree => rw [hmode, Option.map_some]; exact hfree

/-- The blocks are those of `vectorMatrixMultAux`. -/
theorem MultAux.globals_eq (h : MultAux w mode p out last) :
    vectorMatrixMultAux d mode p.globals = last.map MultMemory.globals := by
  unfold MultAux at h
  unfold vectorMatrixMultAux
  generalize numRuns = k at h ⊢
  induction k generalizing p out with
  | zero =>
    cases h
    rfl
  | succ k ih =>
    rw [List.replicate_succ] at h
    rw [repeated]
    cases h with
    | stop hrun =>
      rw [hrun.globals_eq]
      rfl
    | cons hrun hrest =>
      rw [hrun.globals_eq]
      exact ih hrest

/-- Before the first run with threads. -/
structure Untouched (d : Dims) (p : MultMemory) : Prop where
  matrix : ∃ old, HasMatrix d old p.globals
  threads : p.globals.threads = .null
  numThreads : p.globals.numThreads = 0
  content : p.globals.content = .null
  consumer : ∀ i, p.vectors.consumerVectorResult i = 0

theorem Untouched.start {g : Globals}
    (hg : vectorMatrixInit d { Globals.start with queueType := queueType } = some g) :
    Untouched d ⟨g, .start⟩ ∧ g.queueType = queueType := by
  obtain ⟨g', hg', hmatrix, -, heq⟩ :=
    vectorMatrixInit_eq (d := d) { Globals.start with queueType := queueType }
  obtain rfl : g' = g := Option.some.inj (hg'.symm.trans hg)
  rw [heq] at hmatrix ⊢
  exact ⟨⟨⟨_, hmatrix⟩, rfl, rfl, rfl, fun _ => rfl⟩, rfl⟩

theorem MultAuxRun.consumer_eq (h : MultAuxRun w mode p out (some p'))
    (hmode : mode ≠ .replicatedThreads) :
    p'.vectors.consumerVectorResult = p.vectors.consumerVectorResult := by
  cases h with
  | printed _ hrun _ => exact hrun.consumer_eq hmode

theorem Untouched.run (h : Untouched d p) (hmode : mode ≠ .replicatedThreads)
    (hrun : MultAuxRun w mode p out last) :
    ∃ p', last = some p' ∧ Untouched d p' ∧ p'.globals = p.globals := by
  obtain ⟨⟨old, hmatrix⟩, hthreads, hnum, hcontent, hconsumer⟩ := h
  have hsame := hrun.globals_eq
  rw [multAuxRun_null hmode hmatrix hthreads hnum hcontent] at hsame
  obtain ⟨p', rfl, heq⟩ := Option.map_eq_some_iff.mp hsame.symm
  refine ⟨p', rfl, ⟨?_, ?_, ?_, ?_, ?_⟩, heq⟩
  · rw [heq]
    exact ⟨old, hmatrix⟩
  · rw [heq, hthreads]
  · rw [heq, hnum]
  · rw [heq, hcontent]
  · rw [hrun.consumer_eq hmode]
    exact hconsumer

theorem Untouched.runs (h : Untouched d p) (hruns : MultAuxRuns w modes p out last)
    (hmodes : .replicatedThreads ∉ modes) : ∃ p', last = some p' ∧ Untouched d p' := by
  induction hruns with
  | nil p => exact ⟨p, rfl, h⟩
  | stop hrun =>
    rw [List.mem_cons, not_or] at hmodes
    obtain ⟨p', hlast, -⟩ := h.run (Ne.symm hmodes.1) hrun
    cases hlast
  | cons hrun _ ih =>
    rw [List.mem_cons, not_or] at hmodes
    obtain ⟨p', hlast, hp', -⟩ := h.run (Ne.symm hmodes.1) hrun
    cases hlast
    exact ih hp' hmodes.2

/-! ## Which calls come to their end -/

/-- No other mode comes after `replicatedThreads`. -/
def ThreadsLast (modes : List ExecMode) : Prop :=
  modes.Pairwise fun mode mode' => mode = .replicatedThreads → mode' = .replicatedThreads

/-- After a run with threads all further runs must be such runs. -/
theorem MultAuxRuns.isSome_of_dangling {old : Nat → Option Block} {results : Ptr}
    (h : MultAuxRuns w modes p out last) (hm : Multiplying d old results p.globals)
    (hd : ∃ b, Dangling p.globals b) :
    last.isSome = true ↔ ∀ mode ∈ modes, mode = .replicatedThreads := by
  induction h with
  | nil => simp
  | @stop mode _ _ _ hrun =>
    have hne : mode ≠ .replicatedThreads := by
      rintro rfl
      obtain ⟨g, hg, -⟩ := hm.run
      rw [hrun.globals_eq] at hg
      cases hg
    simp [hne]
  | @cons mode _ _ _ _ _ _ hrun _ ih =>
    have hg := hrun.globals_eq
    by_cases hmode : mode = .replicatedThreads
    · subst hmode
      obtain ⟨g, hg', hm', hd'⟩ := hm.run
      obtain rfl : g = _ := Option.some.inj (hg'.symm.trans hg)
      rw [ih hm' hd', List.forall_mem_cons, and_iff_right rfl]
    · obtain ⟨b, hthreads, -, hgone⟩ := hd
      rw [multAuxRun_dangling hmode hthreads hgone] at hg
      cases hg

theorem MultAuxRuns.isSome_of_untouched (h : MultAuxRuns w modes p out last) (hu : Untouched d p)
    (hq : p.globals.queueType = .simpleSync) : last.isSome = true ↔ ThreadsLast modes := by
  induction h with
  | nil => simp [ThreadsLast]
  | @stop mode _ p _ hrun =>
    by_cases hmode : mode = .replicatedThreads
    · subst hmode
      obtain ⟨old, hmatrix⟩ := hu.matrix
      obtain ⟨g, hg, -⟩ := Multiplying.run ⟨hmatrix, rfl, hq⟩
      rw [hrun.globals_eq] at hg
      cases hg
    · obtain ⟨p', hlast, -⟩ := hu.run hmode hrun
      cases hlast
  | @cons mode _ _ _ _ _ _ hrun hrest ih =>
    unfold ThreadsLast at ih ⊢
    rw [List.pairwise_cons]
    by_cases hmode : mode = .replicatedThreads
    · subst hmode
      obtain ⟨old, hmatrix⟩ := hu.matrix
      obtain ⟨g, hg, hm', hd'⟩ := Multiplying.run ⟨hmatrix, rfl, hq⟩
      obtain rfl : g = _ := Option.some.inj (hg.symm.trans hrun.globals_eq)
      rw [hrest.isSome_of_dangling hm' hd']
      constructor
      · intro hall
        exact ⟨fun mode' hmem _ => hall mode' hmem,
          List.pairwise_of_forall_mem_list fun _ _ mode' hmem _ => hall mode' hmem⟩
      · rintro ⟨hall, -⟩ mode' hmem
        exact hall mode' hmem rfl
    · obtain ⟨p', hlast, hu', heq⟩ := hu.run hmode hrun
      cases hlast
      rw [ih hu' (by rw [heq]; exact hq)]
      exact (and_iff_right fun _ _ hthreads => absurd hthreads hmode).symm

theorem threadsLast_flatMap :
    ThreadsLast (modes.flatMap (List.replicate numRuns)) ↔ ThreadsLast modes := by
  unfold ThreadsLast
  rw [List.pairwise_flatMap]
  simp [numRuns]

/-- **Which sequences of calls come to their end**: those in which no other mode comes after
`replicatedThreads`. All others end in undefined behaviour. -/
theorem MultAuxCalls.isSome_iff (h : MultAuxCalls w .simpleSync modes out last) :
    last.isSome = true ↔ ThreadsLast modes := by
  obtain ⟨g, hg, hruns⟩ := h
  obtain ⟨hu, hq⟩ := Untouched.start hg
  rw [hruns.isSome_of_untouched hu hq, threadsLast_flatMap]

/-! ## Sequences of runs -/

theorem MultAuxRun.checked (h : MultAuxRun w mode p out (some p'))
    (hr : mode = .replicatedThreads ∨ p.vectors.Checked w) : p'.vectors.Checked w := by
  cases h with
  | printed _ hrun _ => exact hrun.checked hr

theorem MultAuxRun.computed_eq (h : MultAuxRun w mode p out last)
    (hmode : mode ≠ .replicatedThreadsOptimally)
    (hr : mode = .replicatedSameThread → p.vectors.Checked w) {x : Int}
    (hx : .computed x ∈ out) : x = exactSum w := by
  have hsum : ∀ r, RunMode w mode p.vectors r → sumRows mode r d.rows = exactSum w :=
    fun r hrun => hrun.sumRows_eq hmode fun hsame => hrun.checked (.inr (hr hsame))
  cases h with
  | fault => cases hx
  | freed _ hrun _ =>
    obtain rfl : x = _ := by simpa using hx
    exact hsum _ hrun
  | printed _ hrun _ =>
    obtain rfl : x = _ := by simpa using hx
    exact hsum _ hrun

/-- What is printed has been computed. -/
theorem MultAuxRun.computed_of_printed (h : MultAuxRun w mode p out last) {x : Int}
    (hx : .printed x ∈ out) : .computed x ∈ out := by
  cases h with
  | fault => cases hx
  | freed => simp at hx
  | printed => simpa using hx

theorem MultAuxRuns.computed_of_printed (h : MultAuxRuns w modes p out last) {x : Int}
    (hx : .printed x ∈ out) : .computed x ∈ out := by
  induction h with
  | nil => cases hx
  | stop hrun => exact hrun.computed_of_printed hx
  | cons hrun _ ih =>
    rcases List.mem_append.mp hx with hx | hx
    · exact List.mem_append_left _ (hrun.computed_of_printed hx)
    · exact List.mem_append_right _ (ih hx)

/-- Every `replicatedSameThread` has a `replicatedThreads` before it. -/
def Covered (modes : List ExecMode) : Prop :=
  ∀ pre post, modes = pre ++ .replicatedSameThread :: post → .replicatedThreads ∈ pre

theorem covered_cons :
    Covered (mode :: modes) ↔
      mode = .replicatedThreads ∨ mode ≠ .replicatedSameThread ∧ Covered modes := by
  constructor
  · intro h
    by_cases hmode : mode = .replicatedThreads
    · exact .inl hmode
    · refine .inr ⟨?_, fun pre post heq => ?_⟩
      · rintro rfl
        exact List.not_mem_nil (h [] modes rfl)
      · have hmem := h (mode :: pre) post (by rw [heq]; rfl)
        exact (List.mem_cons.mp hmem).resolve_left (Ne.symm hmode)
  · rintro h pre post heq
    cases pre with
    | nil =>
      obtain ⟨rfl, -⟩ := List.cons.inj heq
      rcases h with h | ⟨hne, -⟩
      · cases h
      · exact absurd rfl hne
    | cons mode' pre =>
      obtain ⟨rfl, hrest⟩ := List.cons.inj heq
      rcases h with rfl | ⟨-, hcov⟩
      · exact List.mem_cons_self
      · exact List.mem_cons_of_mem _ (hcov pre post hrest)

theorem Covered.replicate_append (h : Covered modes) (hne : mode ≠ .replicatedSameThread)
    (k : Nat) : Covered (List.replicate k mode ++ modes) := by
  induction k with
  | zero => exact h
  | succ k ih => exact covered_cons.mpr (.inr ⟨hne, ih⟩)

theorem Covered.flatMap (h : Covered modes) :
    Covered (modes.flatMap (List.replicate numRuns)) := by
  induction modes with
  | nil => exact h
  | cons mode modes ih =>
    rw [List.flatMap_cons]
    rcases covered_cons.mp h with rfl | ⟨hne, hcov⟩
    · exact covered_cons.mpr (.inl rfl)
    · exact (ih hcov).replicate_append hne numRuns

/-- Once the second vector is complete, or before a run needs it, every sum is exact. -/
theorem MultAuxRuns.computed_eq (h : MultAuxRuns w modes p out last)
    (hmodes : ∀ mode ∈ modes, mode ≠ .replicatedThreadsOptimally)
    (hr : p.vectors.Checked w ∨ Covered modes) {x : Int} (hx : .computed x ∈ out) :
    x = exactSum w := by
  have hcheck : ∀ {mode modes} {r : VectorResults}, r.Checked w ∨ Covered (mode :: modes) →
      mode = .replicatedSameThread → r.Checked w := by
    rintro mode modes r (hr | hcov) rfl
    · exact hr
    · rcases covered_cons.mp hcov with hmode | ⟨hne, -⟩
      · cases hmode
      · exact absurd rfl hne
  induction h with
  | nil => cases hx
  | stop hrun => exact hrun.computed_eq (hmodes _ List.mem_cons_self) (hcheck hr) hx
  | cons hrun _ ih =>
    rcases List.mem_append.mp hx with hx | hx
    · exact hrun.computed_eq (hmodes _ List.mem_cons_self) (hcheck hr) hx
    · refine ih (fun mode hm => hmodes mode (List.mem_cons_of_mem _ hm)) ?_ hx
      rcases hr with hr | hcov
      · exact .inl (hrun.checked (.inr hr))
      · rcases covered_cons.mp hcov with rfl | ⟨-, hcov⟩
        · exact .inl (hrun.checked (.inl rfl))
        · exact .inr hcov

/-- The two sums of a run of `replicatedSameThread` over an untouched second vector. -/
theorem Untouched.sameThread (h : Untouched d p)
    (hrun : MultAuxRun w .replicatedSameThread p out (some p')) :
    out = [.computed 0, .printed 0] := by
  cases hrun with
  | printed _ hrun _ => rw [hrun.sumRows_zero h.consumer]

theorem Untouched.sameThread_runs {k : Nat} (h : Untouched d p)
    (hruns : MultAuxRuns w (List.replicate k .replicatedSameThread) p out last) :
    out = (List.replicate k [.computed 0, .printed 0]).flatten := by
  induction k generalizing p out with
  | zero =>
    cases hruns
    rfl
  | succ k ih =>
    rw [List.replicate_succ] at hruns
    cases hruns with
    | stop hrun =>
      obtain ⟨p', hlast, -⟩ := h.run (by decide) hrun
      cases hlast
    | cons hrun hrest =>
      obtain ⟨p', hlast, hp', -⟩ := h.run (by decide) hrun
      cases hlast
      rw [h.sameThread hrun, ih hp' hrest]
      rfl

/-- A run after which there is another one has computed and printed a sum. -/
theorem MultAuxRuns.length_eq (h : MultAuxRuns w modes p out (some p')) :
    out.length = 2 * modes.length := by
  generalize hend : some p' = after at h
  induction h with
  | nil => rfl
  | stop => cases hend
  | cons hrun _ ih =>
    rw [List.length_append, ih hend, List.length_cons]
    cases hrun
    simp only [List.length_cons, List.length_nil]
    omega

/-- Some run of each mode completes. -/
theorem RunMode.exists (w : Workload d) (mode : ExecMode) (r : VectorResults) :
    ∃ r', RunMode w mode r r' := by
  cases mode with
  | notReplicated => exact ⟨_, .notReplicated r⟩
  | replicatedSameThread => exact ⟨_, .replicatedSameThread (replicatedSameThread_eq w _)⟩
  | replicatedThreadsOptimally => exact ⟨_, .default r⟩
  | replicatedThreads =>
    exact ⟨⟨w.faultFree.final d, w.faultFree.final d⟩,
      .replicatedThreads ⟨fun _ _ => rfl, fun _ _ => rfl⟩⟩

theorem MultAuxRun.exists (w : Workload d) (mode : ExecMode) (p : MultMemory) :
    ∃ out last, MultAuxRun w mode p out last := by
  obtain ⟨r, hrun⟩ := RunMode.exists w mode p.vectors
  cases hmode : runMode d p.globals mode with
  | none => exact ⟨[], none, .fault hmode⟩
  | some g =>
    cases hfree : (destroyQueue g).bind destroyThreads with
    | none => exact ⟨_, none, .freed hmode hrun hfree⟩
    | some g' => exact ⟨_, _, .printed hmode hrun hfree⟩

theorem MultAuxRuns.exists (w : Workload d) (modes : List ExecMode) (p : MultMemory) :
    ∃ out last, MultAuxRuns w modes p out last := by
  induction modes generalizing p with
  | nil => exact ⟨[], some p, .nil p⟩
  | cons mode modes ih =>
    obtain ⟨out, last, hrun⟩ := MultAuxRun.exists w mode p
    cases last with
    | none => exact ⟨out, none, .stop hrun⟩
    | some p' =>
      obtain ⟨out', last, hrest⟩ := ih p'
      exact ⟨out ++ out', last, .cons hrun hrest⟩

theorem MultAuxRuns.append (h : MultAuxRuns w modes p out (some p'))
    (h' : MultAuxRuns w modes' p' out' last) :
    MultAuxRuns w (modes ++ modes') p (out ++ out') last := by
  generalize hend : some p' = after at h
  induction h with
  | nil =>
    cases hend
    exact h'
  | stop => cases hend
  | cons hrun _ ih =>
    rw [List.append_assoc]
    exact .cons hrun (ih hend)

theorem MultAuxCalls.exists (w : Workload d) (queueType : QueueType) (modes : List ExecMode) :
    ∃ out last, MultAuxCalls w queueType modes out last := by
  obtain ⟨g, hg, -⟩ := vectorMatrixInit_eq (d := d) { Globals.start with queueType := queueType }
  obtain ⟨out, last, hruns⟩ :=
    MultAuxRuns.exists w (modes.flatMap (List.replicate numRuns)) ⟨g, .start⟩
  exact ⟨out, last, g, hg, hruns⟩

/-- A `replicatedSameThread` without a `replicatedThreads` before it prints 0. -/
theorem MultAuxCalls.exists_zero (w : Workload d) (queueType : QueueType)
    {pre post : List ExecMode} (hpre : .replicatedThreads ∉ pre) :
    ∃ out last, MultAuxCalls w queueType (pre ++ .replicatedSameThread :: post) out last ∧
      .printed 0 ∈ out := by
  obtain ⟨g, hg, -⟩ := vectorMatrixInit_eq (d := d) { Globals.start with queueType := queueType }
  obtain ⟨out₁, last₁, h₁⟩ :=
    MultAuxRuns.exists w (pre.flatMap (List.replicate numRuns)) ⟨g, .start⟩
  obtain ⟨p, rfl, hp⟩ := (Untouched.start hg).1.runs h₁ (by simpa [numRuns] using hpre)
  obtain ⟨out₂, last₂, hrun⟩ := MultAuxRun.exists w .replicatedSameThread p
  obtain ⟨p', rfl, -, -⟩ := hp.run (by decide) hrun
  obtain ⟨out₃, last₃, hrest⟩ := MultAuxRuns.exists w
    (List.replicate 4 .replicatedSameThread ++ post.flatMap (List.replicate numRuns)) p'
  refine ⟨out₁ ++ (out₂ ++ out₃), last₃, ⟨g, hg, ?_⟩,
    List.mem_append_right out₁ (List.mem_append_left out₃ ?_)⟩
  · rw [List.flatMap_append]
    exact h₁.append (.cons hrun hrest)
  · rw [hp.sameThread hrun]
    exact List.mem_cons_of_mem _ List.mem_cons_self

/--
**When the modes report the same checksum.** For every vector, matrix, type of the queue and
sequence of calls in the three modes, all sums that are computed in any execution are exact if and
only if there are no rows, or every call with `replicatedSameThread` comes after one with
`replicatedThreads`. It is the same with the sums that are printed.
-/
theorem checksum_iff (w : Workload d) (queueType : QueueType) (modes : List ExecMode)
    (hmodes : ∀ mode ∈ modes, mode ≠ .replicatedThreadsOptimally) :
    ((∀ out last, MultAuxCalls w queueType modes out last →
        ∀ x, .computed x ∈ out → x = exactSum w) ↔ d.rows = 0 ∨ Covered modes) ∧
      ((∀ out last, MultAuxCalls w queueType modes out last →
        ∀ x, .printed x ∈ out → x = exactSum w) ↔ d.rows = 0 ∨ Covered modes) := by
  have hcomputed : d.rows = 0 ∨ Covered modes → ∀ out last,
      MultAuxCalls w queueType modes out last → ∀ x, .computed x ∈ out → x = exactSum w := by
    rintro hcov out last ⟨g, hg, hruns⟩ x hx
    refine hruns.computed_eq (fun mode hm => ?_) ?_ hx
    · obtain ⟨mode', hm', hmem⟩ := List.mem_flatMap.mp hm
      rw [List.eq_of_mem_replicate hmem]
      exact hmodes mode' hm'
    · rcases hcov with hrows | hcov
      · exact .inl fun i hi => absurd hi (by omega)
      · exact .inr hcov.flatMap
  have hprinted : (∀ out last, MultAuxCalls w queueType modes out last →
      ∀ x, .printed x ∈ out → x = exactSum w) → d.rows = 0 ∨ Covered modes := by
    intro h
    by_contra hnot
    simp only [not_or, Covered, not_forall] at hnot
    obtain ⟨hrows, pre, post, rfl, hpre⟩ := hnot
    obtain ⟨out, last, hcalls, hzero⟩ := MultAuxCalls.exists_zero w queueType hpre
    have hexact := h out last hcalls 0 hzero
    have hpos := exactSum_pos (w := w) (by omega)
    omega
  have hweaken : (∀ out last, MultAuxCalls w queueType modes out last →
      ∀ x, .computed x ∈ out → x = exactSum w) → ∀ out last,
      MultAuxCalls w queueType modes out last → ∀ x, .printed x ∈ out → x = exactSum w := by
    rintro h out last ⟨g, hg, hruns⟩ x hx
    exact h out last ⟨g, hg, hruns⟩ x (hruns.computed_of_printed hx)
  exact ⟨⟨fun h => hprinted (hweaken h), hcomputed⟩, ⟨hprinted, fun h => hweaken (hcomputed h)⟩⟩

/-- `notReplicated`, then `replicatedThreads`: ten sums are computed and printed, all of them
exact. -/
theorem checksum_iff_small :
    ∃ out last, MultAuxCalls (Workload.ones (Dims.small 1)) .simpleSync
        [.notReplicated, .replicatedThreads] out last ∧ last.isSome = true ∧ out.length = 20 ∧
      (∀ x, .computed x ∈ out → x = 3) ∧ ∀ x, .printed x ∈ out → x = 3 := by
  obtain ⟨out, last, h⟩ := MultAuxCalls.exists (Workload.ones (Dims.small 1)) .simpleSync
    [.notReplicated, .replicatedThreads]
  have hlast : last.isSome = true := h.isSome_iff.mpr (by simp [ThreadsLast])
  have hiff := checksum_iff (Workload.ones (Dims.small 1)) .simpleSync
    [.notReplicated, .replicatedThreads] (by decide)
  have hcov : Covered [.notReplicated, .replicatedThreads] :=
    covered_cons.mpr (.inr ⟨by decide, covered_cons.mpr (.inl rfl)⟩)
  have hexact : exactSum (Workload.ones (Dims.small 1)) = 3 := by decide
  refine ⟨out, last, h, hlast, ?_, fun x hx => ?_, fun x hx => ?_⟩
  · obtain ⟨p, rfl⟩ := Option.isSome_iff_exists.mp hlast
    obtain ⟨g, -, hruns⟩ := h
    exact hruns.length_eq
  · exact (hiff.1.mpr (.inr hcov) out last h x hx).trans hexact
  · exact (hiff.2.mpr (.inr hcov) out last h x hx).trans hexact

/-- The first call is one with `replicatedSameThread`: its sums are 0 instead of 3. -/
theorem checksum_zero :
    ∃ out last, MultAuxCalls (Workload.ones (Dims.small 1)) .simpleSync [.replicatedSameThread]
        out last ∧
      out = (List.replicate 5 [.computed 0, .printed 0]).flatten ∧
      exactSum (Workload.ones (Dims.small 1)) = 3 := by
  obtain ⟨out, last, g, hg, h⟩ := MultAuxCalls.exists (Workload.ones (Dims.small 1)) .simpleSync
    [.replicatedSameThread]
  exact ⟨out, last, ⟨g, hg, h⟩, (Untouched.start hg).1.sameThread_runs h, by decide⟩

end TsxProject
