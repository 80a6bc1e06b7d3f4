import Blockparser.Lib.Bytes
import Blockparser.Lib.FreeList

/-! The memory manager: paged pools with a garbage list each, and the byte
buffers and pointer arrays with a hidden header that are cut from them. -/
namespace Blockparser.MemoryManager
open FreeList

/-- An address: an offset into one block obtained from malloc. Block 0 is null. -/
structure Addr where
  block : Nat
  offset : Nat
deriving DecidableEq, Repr

def Addr.add (a : Addr) (n : Nat) : Addr := ⟨a.block, a.offset + n⟩
def Addr.sub (a : Addr) (n : Nat) : Addr := ⟨a.block, a.offset - n⟩

@[simp] theorem Addr.sub_add (a : Addr) (n : Nat) : (a.add n).sub n = a := by
  simp [Addr.add, Addr.sub]

abbrev Hash256 := {bs : List UInt8 // bs.length = 32}

abbrev Hash160 := {bs : List UInt8 // bs.length = 20}

instance : LawfulBEq Hash256 := inferInstance

instance : LawfulBEq Hash160 := inferInstance

def nullHash : Hash256 := ⟨List.replicate 32 0, by simp⟩

/- The (length, page size) and (count, page size) pairs of POPULAR_LENGTH_LIST
   and POPULAR_OUTPUT_LIST. -/
def popularLengthList : List (Nat × Nat) :=
  [(10, 30), (14, 30), (15, 200), (32, 1000), (34, 2000), (42, 200), (44, 1000),
   (46, 200), (51, 100), (76, 2000), (80, 200), (114, 30), (144, 300), (210, 1000)]

def popularOutputList : List (Nat × Nat) :=
  [(1, 1000), (2, 1000), (3, 1000), (4, 1000), (5, 1000), (6, 1000), (7, 1000),
   (8, 1000), (9, 1000), (10, 1000), (11, 1000), (12, 1000)]

def lengthOther : Nat := 14
def outputNumberCount : Nat := 12

def enumToLength : List Int := popularLengthList.map fun e => (e.1 : Int)

/-- The instances of `PagedAllocator`. -/
inductive PoolType
  | uint256 | uint160 | txChunk | chunk | block
  | nBytes (i : Nat)
  | nPtrs (i : Nat)
  | other (size : Nat) -- of any other type, by its size less 1
deriving DecidableEq, Repr

def PoolType.sizeof : PoolType → Nat
  | .uint256 => 32
  | .uint160 => 20
  | .txChunk => 8
  | .chunk => 32
  | .block => 40
  | .nBytes i => (popularLengthList.getD i (0, 0)).1 + 1
  | .nPtrs i => 8 * ((popularOutputList.getD i (0, 0)).1 + 1)
  | .other size => size + 1

def PoolType.kPageSize : PoolType → Nat
  | .nBytes i => (popularLengthList.getD i (0, 1)).2
  | .nPtrs i => (popularOutputList.getD i (0, 1)).2
  | _ => 16384

def PoolType.kPageByteSize (T : PoolType) : Nat := T.sizeof * T.kPageSize

theorem PoolType.sizeof_pos (T : PoolType) : 0 < T.sizeof := by
  cases T <;> simp [PoolType.sizeof]

theorem PoolType.kPageSize_pos (T : PoolType) : 0 < T.kPageSize := by
  have hall : ∀ l : List (Nat × Nat), (∀ e ∈ l, 0 < e.2) → ∀ i, 0 < (l.getD i (0, 1)).2 := by
    intro l hl i
    rw [List.getD_eq_getElem?_getD]
    cases hi : l[i]? with
    | none => exact Nat.one_pos
    | some e => exact hl e (List.mem_of_getElem? hi)
  cases T with
  | nBytes i => exact hall popularLengthList (by decide) i
  | nPtrs i => exact hall popularOutputList (by decide) i
  | _ => exact Nat.zero_lt_succ _

theorem PoolType.kPageByteSize_pos (T : PoolType) : 0 < T.kPageByteSize :=
  Nat.mul_pos T.sizeof_pos T.kPageSize_pos

/-- `garbageCollection` has the back of the vector at its head. -/
structure PagedAllocator where
  garbageCollection : List Addr
  pool : Addr
  poolEnd : Addr

/-- What stands at the start of an allocated block. A buffer and a pointer array
carry their header in front of the bytes and the pointers. -/
inductive Cell
  | zero
  | hash256 (v : Hash256)
  | txChunk (mRawData : Addr)
  | buffer (header : Nat) (data : List UInt8)
  | ptrs (header : Int) (slots : Nat → Option Addr)

def Cell.hash : Cell → Hash256
  | .hash256 v => v
  | _ => nullHash

def Cell.mRawData : Cell → Addr
  | .txChunk a => a
  | _ => ⟨0, 0⟩

def Cell.header : Cell → Nat
  | .buffer header _ => header
  | _ => 0

def Cell.data : Cell → List UInt8
  | .buffer _ data => data
  | _ => []

def Cell.length : Cell → Int
  | .ptrs header _ => header
  | _ => 0

def Cell.slots : Cell → Nat → Option Addr
  | .ptrs _ slots => slots
  | _ => fun _ => none

@[simp] theorem Cell.hash_hash256 (v : Hash256) : (Cell.hash256 v).hash = v := rfl
@[simp] theorem Cell.mRawData_txChunk (a : Addr) : (Cell.txChunk a).mRawData = a := rfl
@[simp] theorem Cell.data_buffer (n : Nat) (bs : List UInt8) : (Cell.buffer n bs).data = bs := rfl
@[simp] theorem Cell.length_ptrs (n : Int) (f : Nat → Option Addr) : (Cell.ptrs n f).length = n :=
  rfl
@[simp] theorem Cell.slots_ptrs (n : Int) (f : Nat → Option Addr) : (Cell.ptrs n f).slots = f :=
  rfl

/-- The static counters of the memory manager. -/
structure Counters where
  uniqueTXTotalSize : UInt32
  uniqueTXTotalNumber : UInt32
  uniquePtrsTotalSize : Int
  uniquePtrsTotalNumber : Int

/-- `sizes` are the bytes that malloc was asked for, block by block. -/
structure Heap where
  nextBlock : Nat
  sizes : Nat → Nat
  pools : PoolType → PagedAllocator
  cells : Addr → Cell
  counters : Counters

def Heap.count (h : Heap) (f : Counters → Counters) : Heap :=
  { h with counters := f h.counters }

def Heap.write (h : Heap) (a : Addr) (c : Cell) : Heap :=
  { h with cells := Function.update h.cells a c }

/-- A fresh block; its contents are whatever stood there. -/
def Heap.malloc (h : Heap) (size : Nat) : Addr × Heap :=
  (⟨h.nextBlock, 0⟩, { h with
    nextBlock := h.nextBlock + 1
    sizes := Function.update h.sizes h.nextBlock size })

/-- A new page for pool `T`, set to zero. -/
def Heap.newPage (h : Heap) (T : PoolType) : Heap :=
  { h with
    nextBlock := h.nextBlock + 1
    sizes := Function.update h.sizes h.nextBlock T.kPageByteSize
    pools := Function.update h.pools T
      ({ h.pools T with pool := ⟨h.nextBlock, 0⟩, poolEnd := ⟨h.nextBlock, T.kPageByteSize⟩ })
    cells := fun a => if a.block = h.nextBlock then .zero else h.cells a }

/-- Cut the next `sizeof(T)` bytes off the page of pool `T`. -/
def Heap.carve (h : Heap) (T : PoolType) : Addr × Heap :=
  ((h.pools T).pool,
    { h with
      pools := Function.update h.pools T
        ({ h.pools T with pool := (h.pools T).pool.add T.sizeof }) })

def Heap.setGarbage (h : Heap) (T : PoolType) (l : List Addr) : Heap :=
  { h with pools := Function.update h.pools T ({ h.pools T with garbageCollection := l }) }

/-- `PagedAllocator<T>::alloc` -/
def Heap.alloc (h : Heap) (T : PoolType) : Addr × Heap :=
  match (h.pools T).garbageCollection with
  | [] =>
    let h := if (h.pools T).poolEnd.offset ≤ (h.pools T).pool.offset then h.newPage T else h
    h.carve T
  | result :: rest =>
    (result, h.setGarbage T rest)

/-- `PagedAllocator<T>::free` -/
def Heap.free (h : Heap) (T : PoolType) (obj : Addr) : Heap :=
  h.setGarbage T (obj :: (h.pools T).garbageCollection)

/-- `allocTX`; `none` where `_size + 1` is no size malloc can serve: a negative
`_size`, or the largest int. -/
def allocTX (h : Heap) (size : Int) : Option (Addr × Heap) :=
  let h := h.count fun c => { c with uniqueTXTotalNumber := c.uniqueTXTotalNumber + 1 }
  match enumToLength.findIdx? (· == size) with
  | some i =>
    let r := h.alloc (.nBytes i)
    some (r.1.add 1, r.2.write r.1 (.buffer i (r.2.cells r.1).data))
  | none =>
    if 0 ≤ size ∧ size + 1 < 2 ^ 31 then
      let r := h.malloc (size + 1).toNat
      let h := r.2.count fun c =>
        { c with uniqueTXTotalSize := c.uniqueTXTotalSize + UInt32.ofNat (size + 1).toNat }
      some (r.1.add 1, h.write r.1 (.buffer lengthOther (h.cells r.1).data))
    else none

/-- `freeTX`: the header byte in front of `tx` names the pool. -/
def freeTX (h : Heap) (tx : Addr) : Heap :=
  let h := h.count fun c => { c with uniqueTXTotalNumber := c.uniqueTXTotalNumber - 1 }
  let lengthIndex := (h.cells (tx.sub 1)).header
  if lengthIndex < lengthOther then h.free (.nBytes lengthIndex) (tx.sub 1) else h

/-- `allocPtrs`; `none` where `allocPtrsFuncs[_size-1]` is outside the table, and
where `_size + 1` overflows. -/
def allocPtrs (h : Heap) (size : Int) : Option (Addr × Heap) :=
  let h := h.count fun c => { c with uniquePtrsTotalNumber := c.uniquePtrsTotalNumber + 1 }
  if size ≤ (outputNumberCount : Int) then
    if 1 ≤ size then
      let r := h.alloc (.nPtrs (size - 1).toNat)
      some (r.1.add 8, r.2.write r.1 (.ptrs size (r.2.cells r.1).slots))
    else none
  else if size + 1 < 2 ^ 31 then
    let r := h.malloc (8 * (size + 1)).toNat
    let h := r.2.count fun c =>
      { c with uniquePtrsTotalSize := c.uniquePtrsTotalSize + (size + 1) * 8 }
    some (r.1.add 8, h.write r.1 (.ptrs size (h.cells r.1).slots))
  else none

/-- `freePtrs`; the size is added to the total here as it is in `allocPtrs`. -/
def freePtrs (h : Heap) (ptrs : Addr) : Option Heap :=
  let h := h.count fun c => { c with uniquePtrsTotalNumber := c.uniquePtrsTotalNumber - 1 }
  let length : Int := (h.cells (ptrs.sub 8)).length
  if 0 ≤ length ∧ length ≤ (outputNumberCount : Int) then
    if 1 ≤ length then some (h.free (.nPtrs (length - 1).toNat) (ptrs.sub 8)) else none
  else some (h.count fun c =>
    { c with uniquePtrsTotalSize := c.uniquePtrsTotalSize + (length + 1) * 8 })

def countNonNullPtrs (h : Heap) (ptrs : Addr) : Nat :=
  let c := h.cells (ptrs.sub 8)
  ((List.range c.length.toNat).filter fun i => (c.slots i).isSome).length

/-- Cut or recycled so far: below the cursor of the page it lies in. -/
def Heap.abs (h : Heap) : Alloc Addr PoolType where
  issued := {a | a.block < h.nextBlock ∧
    ∀ T, a.block = (h.pools T).pool.block → a.offset < (h.pools T).pool.offset}
  free := fun T => (h.pools T).garbageCollection

/-- Every pool cuts from a page of its own; a pool without a page is used up. -/
structure Heap.WellFormed (h : Heap) : Prop where
  page_lt : ∀ T, (h.pools T).pool.block < h.nextBlock
  page_unique : ∀ T T', (h.pools T).pool.block = (h.pools T').pool.block →
    (h.pools T).pool.block ≠ 0 → T = T'
  null_full : ∀ T, (h.pools T).pool.block = 0 →
    (h.pools T).poolEnd.offset ≤ (h.pools T).pool.offset

/-- The blocks of `live` are allocated and not given back. -/
structure Heap.Valid (h : Heap) (live : Set Addr) : Prop where
  wf : h.WellFormed
  owns : Owns h.abs live

/-- The heap of a fresh process. -/
def Heap.start : Heap where
  nextBlock := 1
  sizes := fun _ => 0
  pools := fun _ => ⟨[], ⟨0, 0⟩, ⟨0, 0⟩⟩
  cells := fun _ => .zero
  counters := ⟨0, 0, 0, 0⟩

theorem Heap.start_valid : Heap.start.Valid ∅ where
  wf := ⟨fun _ => Nat.one_pos, fun _ _ _ h => absurd rfl h, fun _ _ => Nat.le_refl _⟩
  owns := ⟨Set.empty_subset _, fun _ _ h => absurd h List.not_mem_nil,
    fun _ _ _ => Set.notMem_empty _, fun _ => List.nodup_nil,
    fun _ _ _ h => absurd h List.not_mem_nil⟩

theorem Heap.malloc_wf {h : Heap} (hw : h.WellFormed) (size : Nat) :
    (h.malloc size).2.WellFormed where
  page_lt T := Nat.lt_succ_of_lt (hw.page_lt T)
  page_unique := hw.page_unique
  null_full := hw.null_full

theorem Heap.malloc_takes {h : Heap} (hw : h.WellFormed) (size : Nat) :
    Takes h.abs (h.malloc size).2.abs (h.malloc size).1 := by
  refine Takes.fresh ?_ ⟨Nat.lt_succ_self _, ?_⟩ rfl ?_
  · rintro ⟨hlt, -⟩
    exact Nat.lt_irrefl _ hlt
  · intro T hT
    exact absurd hT (Nat.ne_of_gt (hw.page_lt T))
  · rintro a ⟨hlt, ha⟩
    exact ⟨Nat.lt_succ_of_lt hlt, ha⟩

theorem Heap.newPage_wf {h : Heap} (hw : h.WellFormed) (T : PoolType) :
    (h.newPage T).WellFormed := by
  refine ⟨?_, ?_, ?_⟩
  · intro T'
    by_cases hT : T' = T
    · subst hT; simp [Heap.newPage]
    · simpa [Heap.newPage, hT] using Nat.lt_succ_of_lt (hw.page_lt T')
  · intro T₁ T₂
    by_cases h1 : T₁ = T
    · by_cases h2 : T₂ = T
      · intro _ _; rw [h1, h2]
      · subst h1
        intro he
        have := hw.page_lt T₂
        simp [Heap.newPage, h2] at he
        omega
    · by_cases h2 : T₂ = T
      · subst h2
        intro he
        have := hw.page_lt T₁
        simp [Heap.newPage, h1] at he
        omega
      · simpa [Heap.newPage, h1, h2] using hw.page_unique T₁ T₂
  · intro T'
    by_cases hT : T' = T
    · subst hT
      intro h0
      have := hw.page_lt T'
      simp [Heap.newPage] at h0
      omega
    · simpa [Heap.newPage, hT] using hw.null_full T'

theorem Heap.newPage_issued {h : Heap} (T : PoolType) :
    h.abs.issued ⊆ (h.newPage T).abs.issued := by
  rintro a ⟨hlt, ha⟩
  refine ⟨Nat.lt_succ_of_lt hlt, ?_⟩
  intro T'
  by_cases hT : T' = T
  · subst hT
    intro hb
    simp [Heap.newPage] at hb
    omega
  · simpa [Heap.newPage, hT] using ha T'

theorem Heap.newPage_room {h : Heap} (hw : h.WellFormed) (T : PoolType) :
    ((h.newPage T).pools T).pool.block ≠ 0 := by
  have := hw.page_lt T
  simp [Heap.newPage]
  omega

theorem Heap.carve_wf {h : Heap} (hw : h.WellFormed) (T : PoolType)
    (hp : (h.pools T).pool.block ≠ 0) : (h.carve T).2.WellFormed := by
  have hblock : ∀ T', ((h.carve T).2.pools T').pool.block = (h.pools T').pool.block := by
    intro T'
    by_cases hT : T' = T
    · subst hT; simp [Heap.carve, Addr.add]
    · simp [Heap.carve, hT]
  refine ⟨?_, ?_, ?_⟩
  · intro T'
    rw [hblock]
    exact hw.page_lt T'
  · intro T₁ T₂
    rw [hblock, hblock]
    exact hw.page_unique T₁ T₂
  · intro T' h0
    rw [hblock] at h0
    have hT : T' ≠ T := by rintro rfl; exact hp h0
    simpa [Heap.carve, hT] using hw.null_full T' h0

theorem Heap.carve_new {h : Heap} (T : PoolType) : (h.carve T).1 ∉ h.abs.issued := by
  rintro ⟨-, ha⟩
  exact Nat.lt_irrefl _ (ha T rfl)

theorem Heap.carve_issued {h : Heap} (hw : h.WellFormed) (T : PoolType)
    (hp : (h.pools T).pool.block ≠ 0) :
    insert (h.carve T).1 h.abs.issued ⊆ (h.carve T).2.abs.issued := by
  have hother : ∀ T' (a : Addr), T' ≠ T → a.block = ((h.carve T).2.pools T').pool.block →
      a.block = (h.pools T').pool.block := by
    intro T' a hT hb
    simpa [Heap.carve, hT] using hb
  rintro a (rfl | ⟨hlt, ha⟩)
  · refine ⟨hw.page_lt T, ?_⟩
    intro T' hb
    by_cases hT : T' = T
    · subst hT
      simpa [Heap.carve, Addr.add] using T'.sizeof_pos
    · exact absurd (hw.page_unique T T' (hother T' _ hT hb) hp).symm hT
  · refine ⟨hlt, ?_⟩
    intro T' hb
    by_cases hT : T' = T
    · subst hT
      have := ha T' (by simpa [Heap.carve, Addr.add] using hb)
      simp only [Heap.carve, Addr.add, Function.update_self]
      omega
    · have := ha T' (hother T' a hT hb)
      simpa [Heap.carve, hT] using this

theorem Heap.carve_free {h : Heap} (T : PoolType) : (h.carve T).2.abs.free = h.abs.free := by
  funext T'
  by_cases hT : T' = T
  · subst hT; simp [Heap.abs, Heap.carve]
  · simp [Heap.abs, Heap.carve, hT]

theorem Heap.newPage_free {h : Heap} (T : PoolType) : (h.newPage T).abs.free = h.abs.free := by
  funext T'
  by_cases hT : T' = T
  · subst hT; simp [Heap.abs, Heap.newPage]
  · simp [Heap.abs, Heap.newPage, hT]

theorem Heap.setGarbage_pool (h : Heap) (T : PoolType) (l : List Addr) (T' : PoolType) :
    ((h.setGarbage T l).pools T').pool = (h.pools T').pool ∧
    ((h.setGarbage T l).pools T').poolEnd = (h.pools T').poolEnd := by
  by_cases hT : T' = T
  · subst hT; simp [Heap.setGarbage]
  · simp [Heap.setGarbage, hT]

theorem Heap.setGarbage_wf {h : Heap} (hw : h.WellFormed) (T : PoolType) (l : List Addr) :
    (h.setGarbage T l).WellFormed := by
  refine ⟨?_, ?_, ?_⟩
  · intro T'
    rw [(h.setGarbage_pool T l T').1]
    exact hw.page_lt T'
  · intro T₁ T₂
    rw [(h.setGarbage_pool T l T₁).1, (h.setGarbage_pool T l T₂).1]
    exact hw.page_unique T₁ T₂
  · intro T'
    rw [(h.setGarbage_pool T l T').1, (h.setGarbage_pool T l T').2]
    exact hw.null_full T'

theorem Heap.setGarbage_abs (h : Heap) (T : PoolType) (l : List Addr) :
    (h.setGarbage T l).abs = ⟨h.abs.issued, Function.update h.abs.free T l⟩ := by
  have hpool : ∀ T', ((h.setGarbage T l).pools T').pool = (h.pools T').pool :=
    fun T' => (h.setGarbage_pool T l T').1
  simp only [Heap.abs, hpool, Alloc.mk.injEq]
  refine ⟨rfl, ?_⟩
  funext T'
  by_cases hT : T' = T
  · subst hT; simp [Heap.setGarbage]
  · simp [Heap.setGarbage, hT]

/-- `alloc` hands out an address nobody owns and writes to no issued block. -/
theorem Heap.alloc_spec {h : Heap} (hw : h.WellFormed) (T : PoolType) :
    (h.alloc T).2.WellFormed ∧ Takes h.abs (h.alloc T).2.abs (h.alloc T).1 ∧
    ∀ a ∈ h.abs.issued, (h.alloc T).2.cells a = h.cells a := by
  unfold Heap.alloc
  cases hg : (h.pools T).garbageCollection with
  | cons result rest =>
    refine ⟨Heap.setGarbage_wf hw T rest, ?_, fun _ _ => rfl⟩
    dsimp only
    rw [Heap.setGarbage_abs]
    exact Takes.reuse T rest hg rfl (fun _ ha => ha)
  | nil =>
    dsimp only
    split
    · have hroom := Heap.newPage_room hw T
      have hiss := Heap.carve_issued (Heap.newPage_wf hw T) T hroom
      refine ⟨Heap.carve_wf (Heap.newPage_wf hw T) T hroom, ?_, ?_⟩
      · refine Takes.fresh ?_ (hiss (Set.mem_insert _ _)) ?_ ?_
        · exact fun ha => Heap.carve_new T (Heap.newPage_issued T ha)
        · rw [Heap.carve_free, Heap.newPage_free]
        · exact (Heap.newPage_issued T).trans ((Set.subset_insert _ _).trans hiss)
      · rintro a ⟨hlt, -⟩
        have hne : a.block ≠ h.nextBlock := Nat.ne_of_lt hlt
        simp [Heap.carve, Heap.newPage, hne]
    · have hroom : (h.pools T).pool.block ≠ 0 := fun h0 => absurd (hw.null_full T h0) ‹_›
      have hiss := Heap.carve_issued hw T hroom
      refine ⟨Heap.carve_wf hw T hroom, ?_, fun _ _ => rfl⟩
      exact Takes.fresh (Heap.carve_new T) (hiss (Set.mem_insert _ _)) (Heap.carve_free T)
        ((Set.subset_insert _ _).trans hiss)

/-- The free list of the hash pool. Its cells keep their contents until the pool
hands them out again. -/
def Heap.hashGarbage (h : Heap) : List Addr := (h.pools .uint256).garbageCollection

/-- The owned blocks and the free hash cells. -/
def Heap.held (h : Heap) (live : Set Addr) : Set Addr := {a | a ∈ live ∨ a ∈ h.hashGarbage}

theorem Heap.alloc_garbage (h : Heap) {T T' : PoolType} (hT : T' ≠ T) :
    ((h.alloc T).2.pools T').garbageCollection = (h.pools T').garbageCollection := by
  unfold Heap.alloc
  cases (h.pools T).garbageCollection with
  | cons result rest => simp [Heap.setGarbage, hT]
  | nil =>
    dsimp only
    split <;> simp [Heap.carve, Heap.newPage, hT]

/-- The hash pool hands out the cell it got back last. -/
theorem Heap.alloc_hashGarbage (h : Heap) :
    (h.alloc .uint256).2.hashGarbage = h.hashGarbage.tail ∧
    ∀ d ds, h.hashGarbage = d :: ds → (h.alloc .uint256).1 = d := by
  unfold Heap.alloc Heap.hashGarbage
  cases hg : (h.pools .uint256).garbageCollection with
  | cons result rest =>
    refine ⟨by simp [Heap.setGarbage], ?_⟩
    intro d ds hd
    exact (List.cons.inj hd).1
  | nil =>
    refine ⟨?_, fun d ds hd => nomatch hd⟩
    dsimp only
    split <;> simp [Heap.carve, Heap.newPage, hg]

theorem Heap.Valid.alloc {h : Heap} {live : Set Addr} (hv : h.Valid live) (T : PoolType) :
    (h.alloc T).1 ∉ live ∧ (h.alloc T).2.Valid (insert (h.alloc T).1 live) ∧
    ∀ a ∈ live, (h.alloc T).2.cells a = h.cells a := by
  obtain ⟨hw, ht, hc⟩ := Heap.alloc_spec hv.wf T
  exact ⟨hv.owns.notMem_of_takes ht, ⟨hw, hv.owns.takes ht⟩,
    fun a ha => hc a (hv.owns.issued ha)⟩

/-- A pool never hands out an address that another pool has on its free list. -/
theorem Heap.Valid.alloc_notMem_garbage {h : Heap} {live : Set Addr} (hv : h.Valid live)
    {T T' : PoolType} (hT : T' ≠ T) : (h.alloc T).1 ∉ (h.pools T').garbageCollection := by
  intro hmem
  obtain ⟨-, ht, -⟩ := Heap.alloc_spec hv.wf T
  cases ht with
  | fresh hnew => exact hnew (hv.owns.free_issued T' _ hmem)
  | reuse i l hfree hfree' =>
    have hi : i = T' := hv.owns.free_unique i T' _ (by rw [hfree]; exact List.mem_cons_self ..) hmem
    subst hi
    have hsame : (h.alloc T).2.abs.free i = h.abs.free i := h.alloc_garbage hT
    rw [hfree', Function.update_self, hfree] at hsame
    exact absurd (congrArg List.length hsame) (by simp)

/-- An allocation from a pool other than the hash pool. -/
theorem Heap.Valid.alloc_held {h : Heap} {live : Set Addr} (hv : h.Valid live) {T : PoolType}
    (hT : PoolType.uint256 ≠ T) :
    (h.alloc T).1 ∉ h.held live ∧ (h.alloc T).2.Valid (insert (h.alloc T).1 live) ∧
    (h.alloc T).2.hashGarbage = h.hashGarbage ∧
    ∀ a ∈ h.held live, (h.alloc T).2.cells a = h.cells a := by
  obtain ⟨hn, hval, hc⟩ := hv.alloc T
  refine ⟨?_, hval, h.alloc_garbage hT, ?_⟩
  · intro h
    cases h with
    | inl ha =>
      exact hn ha
    | inr ha =>
      exact hv.alloc_notMem_garbage hT ha
  · rintro a (ha | ha)
    · exact hc a ha
    · exact (Heap.alloc_spec hv.wf T).2.2 a (hv.owns.free_issued .uint256 a ha)

theorem Heap.Valid.malloc {h : Heap} {live : Set Addr} (hv : h.Valid live) (size : Nat) :
    (h.malloc size).1 ∉ h.held live ∧
      (h.malloc size).2.Valid (insert (h.malloc size).1 live) := by
  have ht := Heap.malloc_takes hv.wf size
  refine ⟨?_, Heap.malloc_wf hv.wf size, hv.owns.takes ht⟩
  intro h
  cases h with
  | inl ha =>
    exact hv.owns.notMem_of_takes ht ha
  | inr ha =>
    have hlt := (hv.owns.free_issued .uint256 _ ha).1
    exact Nat.lt_irrefl _ hlt

theorem Heap.Valid.free {h : Heap} {live : Set Addr} (hv : h.Valid live) (T : PoolType)
    {a : Addr} (ha : a ∈ live) : (h.free T a).Valid (live \ {a}) := by
  refine ⟨Heap.setGarbage_wf hv.wf T _, hv.owns.returns (i := T) ha ?_⟩
  rw [Heap.free, Heap.setGarbage_abs]
  exact ⟨rfl, fun _ hb => hb⟩

theorem Heap.free_hashGarbage (h : Heap) {T : PoolType} (hT : PoolType.uint256 ≠ T) (a : Addr) :
    (h.free T a).hashGarbage = h.hashGarbage := by
  simp [Heap.hashGarbage, Heap.free, Heap.setGarbage, hT]

theorem Heap.free_hashGarbage_self (h : Heap) (a : Addr) :
    (h.free .uint256 a).hashGarbage = a :: h.hashGarbage := by
  simp [Heap.hashGarbage, Heap.free, Heap.setGarbage]

theorem Heap.Valid.shrink {h : Heap} {live live' : Set Addr} (hv : h.Valid live)
    (hs : live' ⊆ live) : h.Valid live' := ⟨hv.wf, hv.owns.shrink hs⟩

theorem Heap.Valid.count {h : Heap} {live : Set Addr} (hv : h.Valid live)
    (f : Counters → Counters) : (h.count f).Valid live :=
  ⟨⟨hv.wf.page_lt, hv.wf.page_unique, hv.wf.null_full⟩, hv.owns⟩

theorem Heap.Valid.write {h : Heap} {live : Set Addr} (hv : h.Valid live) (a : Addr) (c : Cell) :
    (h.write a c).Valid live :=
  ⟨⟨hv.wf.page_lt, hv.wf.page_unique, hv.wf.null_full⟩, hv.owns⟩

@[simp] theorem Heap.write_self (h : Heap) (a : Addr) (c : Cell) : (h.write a c).cells a = c := by
  simp [Heap.write]

theorem Heap.write_of_ne (h : Heap) {a b : Addr} (c : Cell) (hab : b ≠ a) :
    (h.write a c).cells b = h.cells b := by
  simp [Heap.write, hab]

/-- A write to a block that is not in `live` leaves the blocks of `live` alone. -/
theorem Heap.write_of_notMem {h : Heap} {live : Set Addr} {a : Addr} (c : Cell) (ha : a ∉ live) :
    ∀ b ∈ live, (h.write a c).cells b = h.cells b :=
  fun _ hb => h.write_of_ne c (fun he => ha (he ▸ hb))

/-- `allocTX` hands out a block nobody holds, with room for a header in front. -/
theorem allocTX_spec {h : Heap} {live : Set Addr} (hv : h.Valid live) {size : Int}
    (h0 : 0 ≤ size) (h1 : size + 1 < 2 ^ 31) :
    ∃ a h', allocTX h size = some (a.add 1, h') ∧ a ∉ h.held live ∧ h'.Valid (insert a live) ∧
      h'.hashGarbage = h.hashGarbage ∧ ∀ b ∈ h.held live, h'.cells b = h.cells b := by
  unfold allocTX
  have hv' := hv.count fun c => { c with uniqueTXTotalNumber := c.uniqueTXTotalNumber + 1 }
  cases enumToLength.findIdx? (· == size) with
  | some i =>
    obtain ⟨hn, hval, hg, hc⟩ := hv'.alloc_held (T := .nBytes i) (by simp)
    refine ⟨_, _, rfl, hn, hval.write _ _, hg, ?_⟩
    intro b hb
    rw [Heap.write_of_notMem _ hn b hb, hc b hb]
    rfl
  | none =>
    obtain ⟨hn, hval⟩ := hv'.malloc (size + 1).toNat
    simp only [h0, h1, and_self, if_true]
    refine ⟨_, _, rfl, hn, (hval.count _).write _ _, rfl, ?_⟩
    intro b hb
    rw [Heap.write_of_notMem _ hn b hb]
    rfl

theorem freeTX_spec {h : Heap} {live : Set Addr} (hv : h.Valid live) {a : Addr} (ha : a ∈ live) :
    (freeTX h (a.add 1)).Valid (live \ {a}) ∧ (freeTX h (a.add 1)).cells = h.cells ∧
      (freeTX h (a.add 1)).hashGarbage = h.hashGarbage := by
  unfold freeTX
  simp only [Addr.sub_add]
  have hv' := hv.count fun c => { c with uniqueTXTotalNumber := c.uniqueTXTotalNumber - 1 }
  split
  · exact ⟨hv'.free _ ha, rfl, Heap.free_hashGarbage _ (by simp) _⟩
  · exact ⟨hv'.shrink Set.sdiff_subset, rfl, rfl⟩

theorem allocPtrs_spec {h : Heap} {live : Set Addr} (hv : h.Valid live) {size : Int}
    (h0 : 1 ≤ size) (h1 : size + 1 < 2 ^ 31) :
    ∃ a h', allocPtrs h size = some (a.add 8, h') ∧ a ∉ h.held live ∧ h'.Valid (insert a live) ∧
      (h'.cells a).length = size ∧ h'.hashGarbage = h.hashGarbage ∧
      ∀ b ∈ h.held live, h'.cells b = h.cells b := by
  unfold allocPtrs
  have hv' := hv.count fun c => { c with uniquePtrsTotalNumber := c.uniquePtrsTotalNumber + 1 }
  by_cases hs : size ≤ (outputNumberCount : Int)
  · simp only [hs, h0, if_true]
    obtain ⟨hn, hval, hg, hc⟩ := hv'.alloc_held (T := .nPtrs (size - 1).toNat) (by simp)
    refine ⟨_, _, rfl, hn, hval.write _ _, by rw [Heap.write_self]; rfl, hg, ?_⟩
    intro b hb
    rw [Heap.write_of_notMem _ hn b hb, hc b hb]
    rfl
  · simp only [hs, h1, if_true, if_false]
    obtain ⟨hn, hval⟩ := hv'.malloc (8 * (size + 1)).toNat
    refine ⟨_, _, rfl, hn, (hval.count _).write _ _, by rw [Heap.write_self]; rfl, rfl, ?_⟩
    intro b hb
    rw [Heap.write_of_notMem _ hn b hb]
    rfl

theorem freePtrs_spec {h : Heap} {live : Set Addr} (hv : h.Valid live) {a : Addr} (ha : a ∈ live)
    (hl : 1 ≤ (h.cells a).length) :
    ∃ h', freePtrs h (a.add 8) = some h' ∧ h'.Valid (live \ {a}) ∧ h'.cells = h.cells ∧
      h'.hashGarbage = h.hashGarbage := by
  unfold freePtrs
  simp only [Addr.sub_add]
  have hv' := hv.count fun c => { c with uniquePtrsTotalNumber := c.uniquePtrsTotalNumber - 1 }
  split
  · rw [if_pos (show 1 ≤ ((h.count _).cells a).length from hl)]
    exact ⟨_, rfl, hv'.free _ ha, rfl, Heap.free_hashGarbage _ (by simp) _⟩
  · exact ⟨_, rfl, (hv'.count _).shrink Set.sdiff_subset, rfl, rfl⟩

end Blockparser.MemoryManager
