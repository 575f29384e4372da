import Mathlib.Data.List.Basic
import Mathlib.Logic.Function.Basic

/-!
# A heap with `malloc` and `free`

Blocks are numbered in the order they are allocated and a number is never given out again, so that
a pointer to a freed block stays without one. An operation that the language leaves undefined (a
second `free`, an access outside of a live block, a load of what was never stored) gives `none`:
that a program gives `some` says that there is none of them, and that the heap is empty after it
says that nothing is lost.

Of what a block holds, only pointers are kept. Allocation fails for negative sizes only.

* `OwnedArray` — an array whose cells hold blocks of their own
* `OwnedArray.mallocEach`, `OwnedArray.freeEach`, `OwnedArray.free` — its life
-/

namespace Infra

inductive Ptr where
  | null
  | block (b : Nat)
  /-- an address that no allocation has returned -/
  | foreign
  deriving DecidableEq, Repr

structure Block where
  size : Nat
  /-- the pointers stored in it -/
  cell : Nat → Option Ptr

/-- The blocks allocated so far, without those that were freed. -/
structure Heap where
  blocks : List (Option Block)

namespace Heap

def empty : Heap := ⟨[]⟩

/-- The block of the next allocation. -/
def next (h : Heap) : Nat := h.blocks.length

def block (h : Heap) (b : Nat) : Option Block := h.blocks[b]?.join

def set (h : Heap) (b : Nat) (v : Option Block) : Heap := ⟨h.blocks.set b v⟩

/-- Room for `size` cells, none of them stored yet. -/
def alloc (h : Heap) (size : Nat) : Heap := ⟨h.blocks ++ [some ⟨size, fun _ => none⟩]⟩

def malloc (h : Heap) (size : Int) : Ptr × Heap :=
  if size < 0 then (.null, h) else (.block h.next, h.alloc size.toNat)

def free (h : Heap) : Ptr → Option Heap
  | .null => some h
  | .block b => if (h.block b).isSome then some (h.set b none) else none
  | .foreign => none

/-- Cell `i` can be read and written. -/
def valid (h : Heap) : Ptr → Nat → Bool
  | .block b, i => (h.block b).any fun v => i < v.size
  | _, _ => false

/-- The pointer stored in cell `i`. -/
def load (h : Heap) : Ptr → Nat → Option Ptr
  | .block b, i => (h.block b).bind fun v => if i < v.size then v.cell i else none
  | _, _ => none

def store (h : Heap) (i : Nat) (q : Ptr) : Ptr → Option Heap
  | .block b =>
    (h.block b).bind fun v =>
      if i < v.size then
        some (h.set b (some { v with cell := fun j => if j = i then some q else v.cell j }))
      else none
  | _ => none

/-- `a[i] = malloc(size)` for `k` cells, from cell `i` on. -/
def mallocEach (a : Ptr) (size : Nat) : Nat → Nat → Heap → Option Heap
  | _, 0, h => some h
  | i, k + 1, h => do
    let h ← (h.malloc size).2.store i (h.malloc size).1 a
    mallocEach a size (i + 1) k h

/-- `free(a[i])` for `k` cells, from cell `i` on. -/
def freeEach (a : Ptr) : Nat → Nat → Heap → Option Heap
  | _, 0, h => some h
  | i, k + 1, h => do
    let p ← h.load a i
    let h ← h.free p
    freeEach a (i + 1) k h

variable {h h' : Heap} {a b i n size base lo hi : Nat} {old : Nat → Option Block} {v : Block}

/-! ## Blocks -/

@[simp] theorem next_set (h : Heap) (b : Nat) (w : Option Block) : (h.set b w).next = h.next :=
  List.length_set

@[simp] theorem next_alloc (h : Heap) (n : Nat) : (h.alloc n).next = h.next + 1 := by
  simp [next, alloc]

theorem block_eq_none (hb : h.next ≤ b) : h.block b = none := by
  rw [block, List.getElem?_eq_none hb]
  rfl

theorem lt_next (hb : h.block b = some v) : b < h.next := by
  by_contra hle
  rw [block_eq_none (Nat.not_lt.mp hle)] at hb
  cases hb

theorem block_set_self (hb : b < h.next) (w : Option Block) : (h.set b w).block b = w := by
  rw [block, set, List.getElem?_set_self hb]
  rfl

theorem block_set_ne (hne : a ≠ b) (w : Option Block) : (h.set b w).block a = h.block a := by
  rw [block, set, List.getElem?_set_ne (Ne.symm hne)]
  rfl

theorem block_alloc_self (h : Heap) (n : Nat) :
    (h.alloc n).block h.next = some ⟨n, fun _ => none⟩ := by
  simp [block, alloc, next]

theorem block_alloc_ne (hne : b ≠ h.next) (n : Nat) : (h.alloc n).block b = h.block b := by
  rcases Nat.lt_or_gt_of_ne hne with hlt | hgt
  · rw [block, alloc, List.getElem?_append_left hlt]
    rfl
  · rw [block_eq_none (Nat.le_of_lt hgt), block_eq_none]
    rw [next_alloc]
    exact hgt

/-! ## Operations -/

theorem malloc_of_nonneg {size : Int} (h : Heap) (hs : 0 ≤ size) :
    h.malloc size = (.block h.next, h.alloc size.toNat) :=
  if_neg (Int.not_lt.mpr hs)

theorem malloc_of_neg {size : Int} (h : Heap) (hs : size < 0) : h.malloc size = (.null, h) :=
  if_pos hs

/-- What is left of a freed block is nothing. -/
theorem free_block (hb : h.block b = some v) : h.free (.block b) = some (h.set b none) := by
  simp [free, hb]

theorem free_dangling (hb : h.block b = none) : h.free (.block b) = none := by
  simp [free, hb]

theorem free_keeps_none {p : Ptr} (hf : h.free p = some h') (hb : h.block b = none) :
    h'.block b = none := by
  cases p with
  | null =>
    cases hf
    exact hb
  | block c =>
    rw [free] at hf
    split at hf <;> cases hf
    by_cases hbc : b = c
    · by_cases hlt : c < h.next
      · rw [hbc, block_set_self hlt]
      · rw [hbc, block_eq_none]
        rw [next_set]
        exact Nat.not_lt.mp hlt
    · rw [block_set_ne hbc, hb]
  | foreign => cases hf

theorem valid_block (hb : h.block b = some v) (hi : i < v.size) : h.valid (.block b) i = true := by
  simp [valid, hb, hi]

theorem load_block (hb : h.block b = some v) (hi : i < v.size) :
    h.load (.block b) i = v.cell i := by
  simp [load, hb, hi]

theorem load_dangling (hb : h.block b = none) (i : Nat) : h.load (.block b) i = none := by
  simp [load, hb]

theorem store_block (hb : h.block b = some v) (hi : i < v.size) (q : Ptr) :
    h.store i q (.block b) =
      some (h.set b (some { v with cell := fun j => if j = i then some q else v.cell j })) := by
  simp [store, hb, hi]

/-! ## Heaps that keep what was there -/

/-- The blocks `old` are still there. -/
def Keeps (old : Nat → Option Block) (h : Heap) : Prop := ∀ b v, old b = some v → h.block b = some v

theorem Keeps.refl (h : Heap) : Keeps h.block h := fun _ _ hb => hb

theorem Keeps.trans (hk : Keeps old h) (hk' : Keeps h.block h') : Keeps old h' := by
  intro b v hb
  exact hk' b v (hk b v hb)

theorem Keeps.alloc (hk : Keeps old h) (n : Nat) : Keeps old (h.alloc n) := by
  intro b v hb
  have hlt := lt_next (hk b v hb)
  rw [block_alloc_ne (Nat.ne_of_lt hlt)]
  exact hk b v hb

theorem Keeps.valid (hk : Keeps h.block h') {p : Ptr} (hv : h.valid p i = true) :
    h'.valid p i = true := by
  cases p with
  | block b =>
    cases hb : h.block b with
    | none => simp [Heap.valid, hb] at hv
    | some v =>
      simp only [Heap.valid, hb] at hv
      simp only [Heap.valid, hk b v hb]
      exact hv
  | null | foreign => cases hv

theorem Keeps.load (hk : Keeps h.block h') {p q : Ptr} (hl : h.load p i = some q) :
    h'.load p i = some q := by
  cases p with
  | block b =>
    cases hb : h.block b with
    | none => simp [Heap.load, hb] at hl
    | some v =>
      simp only [Heap.load, hb] at hl
      simp only [Heap.load, hk b v hb]
      exact hl
  | null | foreign => cases hl

/-! ## An array of blocks -/

/--
Besides the blocks `old` there is the array `a` of `n` cells, and the cells from `lo` to `hi` hold
blocks of `size` cells of their own, which were allocated one after the other.
-/
structure OwnedArray (old : Nat → Option Block) (h : Heap) (a base n size lo hi : Nat) :
    Prop where
  lt_base : a < base + lo
  fresh : ∀ b, a ≤ b → old b = none
  array : ∃ cell, h.block a = some ⟨n, cell⟩ ∧
    ∀ i, lo ≤ i → i < hi → cell i = some (.block (base + i))
  live : ∀ i, lo ≤ i → i < hi → ∃ v, h.block (base + i) = some v ∧ v.size = size
  frame : ∀ b, b ≠ a → (∀ i, lo ≤ i → i < hi → b ≠ base + i) → h.block b = old b

namespace OwnedArray

/-- A new array. -/
theorem alloc (h : Heap) (n size lo base : Nat) (hbase : base + lo = h.next + 1) :
    OwnedArray h.block (h.alloc n) h.next base n size lo lo where
  lt_base := by omega
  fresh _ := block_eq_none
  array := ⟨_, block_alloc_self h n, fun i hlo hhi => by omega⟩
  live i hlo hhi := by omega
  frame b hb _ := block_alloc_ne hb n

theorem keeps (hown : OwnedArray old h a base n size lo hi) : Keeps old h := by
  intro b v hb
  have hlt : b < a := by
    by_contra hle
    rw [hown.fresh b (Nat.not_lt.mp hle)] at hb
    cases hb
  have hbase := hown.lt_base
  rw [hown.frame b (by omega) fun i _ _ => by omega]
  exact hb

/-- Only the blocks matter. -/
theorem congr (hown : OwnedArray old h a base n size lo hi) (hblock : h'.block = h.block) :
    OwnedArray old h' a base n size lo hi := by
  obtain ⟨h1, h3, h4, h5, h6⟩ := hown
  rw [← hblock] at h4 h5 h6
  exact ⟨h1, h3, h4, h5, h6⟩

theorem load (hown : OwnedArray old h a base n size lo hi) (hhi : hi ≤ n) (hlo : lo ≤ i)
    (hi' : i < hi) : h.load (.block a) i = some (.block (base + i)) := by
  obtain ⟨cell, hb, hcell⟩ := hown.array
  rw [load_block hb (Nat.lt_of_lt_of_le hi' hhi)]
  exact hcell i hlo hi'

/-- A store in a cell before those that hold blocks. -/
theorem store (hown : OwnedArray old h a base n size lo hi) (hi' : i < lo) (hn : i < n) (q : Ptr) :
    ∃ h', h.store i q (.block a) = some h' ∧ h'.next = h.next ∧
      OwnedArray old h' a base n size lo hi := by
  obtain ⟨h1, h3, ⟨cell, hb, hcell⟩, h5, h6⟩ := hown
  refine ⟨_, store_block hb hn q, next_set .., ⟨h1, h3, ⟨_, block_set_self (lt_next hb) _, ?_⟩,
    ?_, ?_⟩⟩
  · intro j hlo hhi
    rw [if_neg (by omega)]
    exact hcell j hlo hhi
  · intro j hlo hhi
    rw [block_set_ne (by omega)]
    exact h5 j hlo hhi
  · intro b hne hout
    rw [block_set_ne hne]
    exact h6 b hne hout

/-- One more cell gets its block. -/
theorem malloc_store (hown : OwnedArray old h a base n size lo hi) (hnext : h.next = base + hi)
    (hle : lo ≤ hi) (hn : hi < n) :
    ∃ h', (h.alloc size).store hi (.block h.next) (.block a) = some h' ∧
      h'.next = base + (hi + 1) ∧ OwnedArray old h' a base n size lo (hi + 1) := by
  obtain ⟨h1, h3, ⟨cell, hb, hcell⟩, h5, h6⟩ := hown
  have hba : (h.alloc size).block a = some ⟨n, cell⟩ := by
    rw [block_alloc_ne (Nat.ne_of_lt (lt_next hb))]
    exact hb
  refine ⟨_, store_block hba hn _, ?_,
    ⟨h1, h3, ⟨_, block_set_self (lt_next hba) _, ?_⟩, ?_, ?_⟩⟩
  · rw [next_set, next_alloc, hnext]
    rfl
  · intro i hlo hhi
    by_cases hi' : i = hi
    · rw [if_pos hi', hnext, hi']
    · rw [if_neg hi']
      exact hcell i hlo (by omega)
  · intro i hlo hhi
    rw [block_set_ne (by omega)]
    by_cases hi' : i = hi
    · rw [hi', ← hnext]
      exact ⟨_, block_alloc_self h size, rfl⟩
    · rw [block_alloc_ne (by omega)]
      exact h5 i hlo (by omega)
  · intro b hne hout
    rw [block_set_ne hne, block_alloc_ne]
    · exact h6 b hne fun i hlo hhi => hout i hlo (by omega)
    · rw [hnext]
      exact hout hi hle (Nat.lt_succ_self hi)

theorem mallocEach (k : Nat)
    (hown : OwnedArray old h a base n size lo hi) (hnext : h.next = base + hi) (hle : lo ≤ hi)
    (hn : hi + k ≤ n) :
    ∃ h', Heap.mallocEach (.block a) size hi k h = some h' ∧ h'.next = base + (hi + k) ∧
      OwnedArray old h' a base n size lo (hi + k) := by
  induction k generalizing h hi with
  | zero => exact ⟨h, rfl, hnext, hown⟩
  | succ k ih =>
    obtain ⟨h₁, hs, hnext₁, hown₁⟩ := hown.malloc_store hnext hle (by omega)
    obtain ⟨h', hs', hnext', hown'⟩ := ih hown₁ hnext₁ (by omega) (by omega)
    rw [Nat.add_right_comm, Nat.add_assoc] at hnext' hown'
    refine ⟨h', ?_, hnext', hown'⟩
    simp only [Heap.mallocEach, malloc_of_nonneg h (Int.natCast_nonneg size),
      Int.toNat_natCast, hs, Option.bind_eq_bind,
      Option.bind_some]
    exact hs'

/-- One cell's block is freed. -/
theorem free_load (hown : OwnedArray old h a base n size lo hi) (hlt : lo < hi) :
    ∃ h', h.free (.block (base + lo)) = some h' ∧ h'.next = h.next ∧
      OwnedArray old h' a base n size (lo + 1) hi := by
  obtain ⟨h1, h3, ⟨cell, hb, hcell⟩, h5, h6⟩ := hown
  obtain ⟨v, hv, -⟩ := h5 lo (Nat.le_refl lo) hlt
  refine ⟨_, free_block hv, next_set .., ⟨by omega, h3, ⟨cell, ?_, ?_⟩, ?_, ?_⟩⟩
  · rw [block_set_ne (by omega)]
    exact hb
  · intro i hlo hhi
    exact hcell i (by omega) hhi
  · intro i hlo hhi
    rw [block_set_ne (by omega)]
    exact h5 i (by omega) hhi
  · intro b hne hout
    by_cases hb' : b = base + lo
    · rw [hb', block_set_self (lt_next hv), h3 _ (by omega)]
    · rw [block_set_ne hb']
      refine h6 b hne fun i hlo hhi => ?_
      by_cases hi' : i = lo
      · rw [hi']
        exact hb'
      · exact hout i (by omega) hhi

theorem freeEach (k : Nat) (hown : OwnedArray old h a base n size lo hi) (hhi : lo + k = hi)
    (hn : hi ≤ n) :
    ∃ h', Heap.freeEach (.block a) lo k h = some h' ∧ h'.next = h.next ∧
      OwnedArray old h' a base n size hi hi := by
  induction k generalizing h lo with
  | zero =>
    obtain rfl : lo = hi := hhi
    exact ⟨h, rfl, rfl, hown⟩
  | succ k ih =>
    obtain ⟨h₁, hf, hnext₁, hown₁⟩ := hown.free_load (by omega)
    obtain ⟨h', hs', hnext', hown'⟩ := ih hown₁ (by omega)
    refine ⟨h', ?_, hnext'.trans hnext₁, hown'⟩
    simp only [Heap.freeEach, hown.load hn (Nat.le_refl lo) (by omega), hf, Option.bind_eq_bind,
      Option.bind_some]
    exact hs'

/-- One of the other blocks is freed. -/
theorem free_other (hown : OwnedArray old h a base n size lo hi) (hb : old b = some v) :
    ∃ h', h.free (.block b) = some h' ∧ h'.next = h.next ∧
      OwnedArray (Function.update old b none) h' a base n size lo hi := by
  have hlt : b < a := by
    by_contra hle
    rw [hown.fresh b (Nat.not_lt.mp hle)] at hb
    cases hb
  have hlive := hown.keeps b v hb
  obtain ⟨h1, h3, ⟨cell, ha, hcell⟩, h5, h6⟩ := hown
  refine ⟨_, free_block hlive, next_set .., ⟨h1, ?_, ⟨cell, ?_, hcell⟩, ?_, ?_⟩⟩
  · intro c hc
    rw [Function.update_of_ne (by omega)]
    exact h3 c hc
  · rw [block_set_ne (by omega)]
    exact ha
  · intro i hlo hhi
    rw [block_set_ne (by omega)]
    exact h5 i hlo hhi
  · intro c hne hout
    by_cases hcb : c = b
    · rw [hcb, block_set_self (lt_next hlive), Function.update_self]
    · rw [block_set_ne hcb, Function.update_of_ne hcb]
      exact h6 c hne hout

/-- The array is freed, and what is left is what there was before. -/
theorem free (hown : OwnedArray old h a base n size hi hi) :
    ∃ h', h.free (.block a) = some h' ∧ h'.next = h.next ∧ h'.block = old := by
  obtain ⟨-, h3, ⟨cell, hb, -⟩, -, h6⟩ := hown
  refine ⟨_, free_block hb, next_set .., funext fun b => ?_⟩
  by_cases hba : b = a
  · rw [hba, block_set_self (lt_next hb), h3 a (Nat.le_refl a)]
  · rw [block_set_ne hba]
    exact h6 b hba fun i hlo hhi => by omega

end OwnedArray

end Heap

end Infra
