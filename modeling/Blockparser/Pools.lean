import Blockparser.MemoryManager
import Mathlib.Logic.Relation

/-! The memory manager under any sequence of calls: where the blocks in use lie, and which
pool gets each of them back. -/
namespace Blockparser.Pools
open MemoryManager FreeList

inductive Request
  | bytes (size : Int)
  | pointers (size : Int)
  | object (T : PoolType)
deriving DecidableEq

/-- The hidden bytes in front of a result. -/
def Request.header : Request → Nat
  | .bytes _ => 1
  | .pointers _ => 8
  | .object _ => 0

def Request.size : Request → Nat
  | .bytes size => size.toNat
  | .pointers size => 8 * size.toNat
  | .object T => T.sizeof

def Request.room (r : Request) : Nat := r.header + r.size

/-- The pool of the request's size class; the other requests go to malloc. -/
def Request.pool : Request → Option PoolType
  | .bytes size => (enumToLength.findIdx? (· == size)).map .nBytes
  | .pointers size =>
    if size ≤ (outputNumberCount : Int) then some (.nPtrs (size - 1).toNat) else none
  | .object T => some T

/-- A result that was not freed. -/
structure Live where
  addr : Addr
  request : Request
deriving DecidableEq

/-- The block that was handed out, from its header on. -/
def Live.start (e : Live) : Addr := e.addr.sub e.request.header

structure Client where
  heap : Heap
  live : List Live

def Client.start : Client := ⟨Heap.start, []⟩

/-- What the header of a block says. -/
def Live.tag (e : Live) (c : Cell) : Option Int :=
  match e.request with
  | .bytes _ => some c.header
  | .pointers _ => some c.length
  | .object _ => none

/-- A call of the memory manager, or writes that leave the headers alone. -/
inductive Step : Client → Client → Prop
  | allocTX {s : Client} {size : Int} {p : Addr} {h : Heap} (hsize : 1 ≤ size)
      (halloc : allocTX s.heap size = some (p, h)) : Step s ⟨h, ⟨p, .bytes size⟩ :: s.live⟩
  | freeTX {s : Client} {size : Int} {p : Addr} (hlive : ⟨p, .bytes size⟩ ∈ s.live) :
      Step s ⟨freeTX s.heap p, s.live.erase ⟨p, .bytes size⟩⟩
  | allocPtrs {s : Client} {size : Int} {p : Addr} {h : Heap} (hsize : 1 ≤ size)
      (halloc : allocPtrs s.heap size = some (p, h)) : Step s ⟨h, ⟨p, .pointers size⟩ :: s.live⟩
  | freePtrs {s : Client} {size : Int} {p : Addr} {h : Heap} (hlive : ⟨p, .pointers size⟩ ∈ s.live)
      (hfree : freePtrs s.heap p = some h) : Step s ⟨h, s.live.erase ⟨p, .pointers size⟩⟩
  | alloc {s : Client} (T : PoolType) :
      Step s ⟨(s.heap.alloc T).2, ⟨(s.heap.alloc T).1, .object T⟩ :: s.live⟩
  | free {s : Client} {T : PoolType} {p : Addr} (hlive : ⟨p, .object T⟩ ∈ s.live) :
      Step s ⟨s.heap.free T p, s.live.erase ⟨p, .object T⟩⟩
  | write {s : Client} (cells : Addr → Cell)
      (hkeep : ∀ e ∈ s.live, e.tag (cells e.start) = e.tag (s.heap.cells e.start)) :
      Step s ⟨{ s.heap with cells := cells }, s.live⟩

def Reachable (s : Client) : Prop := Relation.ReflTransGen Step .start s

/-- The blocks have no byte in common, headers included. -/
def Live.Disjoint (e e' : Live) : Prop :=
  e.start.block ≠ e'.start.block ∨ e.start.offset + e.request.room ≤ e'.start.offset ∨
    e'.start.offset + e'.request.room ≤ e.start.offset

/-- The block lies in one block of malloc, a page of its pool if it has one. -/
structure Fits (h : Heap) (e : Live) : Prop where
  header : e.addr = e.start.add e.request.header
  inside : e.start.offset + e.request.room ≤ h.sizes e.start.block
  page : ∀ T, e.request.pool = some T → h.sizes e.start.block = T.kPageByteSize

/-- The two heaps differ at most in what the blocks hold. -/
structure Same (h h' : Heap) : Prop where
  nextBlock : h'.nextBlock = h.nextBlock
  sizes : h'.sizes = h.sizes
  pools : h'.pools = h.pools

/-- The block at `a` is the last one on the free list of `T`, or is cut from its page, which is
a new one when the last is used up. -/
inductive TakenFrom (h h' : Heap) (T : PoolType) (a : Addr) : Prop
  | recycled (rest : List Addr) (hg : (h.pools T).garbageCollection = a :: rest)
      (hpools : h'.pools = Function.update h.pools T
        { h.pools T with garbageCollection := rest })
      (hblocks : h'.nextBlock = h.nextBlock ∧ h'.sizes = h.sizes)
  | cut (hg : (h.pools T).garbageCollection = [])
      (hroom : (h.pools T).pool.offset < (h.pools T).poolEnd.offset) (ha : a = (h.pools T).pool)
      (hpools : h'.pools = Function.update h.pools T { h.pools T with pool := a.add T.sizeof })
      (hblocks : h'.nextBlock = h.nextBlock ∧ h'.sizes = h.sizes)
  | newPage (hg : (h.pools T).garbageCollection = [])
      (hfull : (h.pools T).poolEnd.offset ≤ (h.pools T).pool.offset) (ha : a = ⟨h.nextBlock, 0⟩)
      (hpools : h'.pools = Function.update h.pools T
        ⟨[], a.add T.sizeof, ⟨h.nextBlock, T.kPageByteSize⟩⟩)
      (hblocks : h'.nextBlock = h.nextBlock + 1 ∧
        h'.sizes = Function.update h.sizes h.nextBlock T.kPageByteSize)

/-- The block at `a` is malloc's next. -/
structure Malloced (h h' : Heap) (size : Nat) (a : Addr) : Prop where
  next : a = ⟨h.nextBlock, 0⟩
  nextBlock : h'.nextBlock = h.nextBlock + 1
  sizes : h'.sizes = Function.update h.sizes h.nextBlock size
  pools : h'.pools = h.pools

/-- The block at `a` comes from the pool of the request, or from malloc. -/
def Taken (h h' : Heap) (r : Request) (a : Addr) : Prop :=
  match r.pool with
  | some T => TakenFrom h h' T a
  | none => Malloced h h' r.room a

/-- The block at `a` is put on the free list of `T`, and nothing else changes. -/
structure PutOn (h h' : Heap) (T : PoolType) (a : Addr) : Prop where
  garbage : (h'.pools T).garbageCollection = a :: (h.pools T).garbageCollection
  page : (h'.pools T).pool = (h.pools T).pool ∧ (h'.pools T).poolEnd = (h.pools T).poolEnd
  others : ∀ T', T' ≠ T → h'.pools T' = h.pools T'
  nextBlock : h'.nextBlock = h.nextBlock
  sizes : h'.sizes = h.sizes

/-- The block at `a` goes on the free list of the pool of the request; one of malloc is left
where it is. -/
def GivenBack (h h' : Heap) (r : Request) (a : Addr) : Prop :=
  match r.pool with
  | some T => PutOn h h' T a
  | none => Same h h'

/-- Where a pool may hand out a block: `owner` says whose page a block of malloc is. -/
structure Placed (owner : Nat → Option PoolType) (T : PoolType) (a : Addr) : Prop where
  owner : owner a.block = some T
  aligned : T.sizeof ∣ a.offset
  inside : a.offset + T.sizeof ≤ T.kPageByteSize

/-- The pages of the pools, the places where they are cut next and the free lists. -/
structure Pages (h : Heap) (owner : Nat → Option PoolType) : Prop where
  lt : ∀ b T, owner b = some T → b < h.nextBlock
  size : ∀ b T, owner b = some T → h.sizes b = T.kPageByteSize
  cursor : ∀ T, (h.pools T).pool.block ≠ 0 → owner (h.pools T).pool.block = some T ∧
    T.sizeof ∣ (h.pools T).pool.offset ∧ (h.pools T).poolEnd.offset = T.kPageByteSize
  garbage : ∀ T, ∀ a ∈ (h.pools T).garbageCollection, Placed owner T a

/-- The header names the class of the request. -/
def Live.Tagged (e : Live) (c : Cell) : Prop :=
  match e.request with
  | .bytes size => 1 ≤ size ∧
      c.header = (enumToLength.findIdx? (· == size)).getD lengthOther
  | .pointers size => 1 ≤ size ∧ c.length = size
  | .object _ => True

/-- What is known of a block in use. -/
structure Served (h : Heap) (owner : Nat → Option PoolType) (e : Live) : Prop where
  header : e.addr = e.start.add e.request.header
  pooled : ∀ T, e.request.pool = some T → Placed owner T e.start
  malloced : e.request.pool = none → owner e.start.block = none ∧ e.start.offset = 0 ∧
    h.sizes e.start.block = e.request.room
  tag : e.Tagged (h.cells e.start)

def starts (live : List Live) : Set Addr := {a | ∃ e ∈ live, e.start = a}

structure Inv (s : Client) (owner : Nat → Option PoolType) : Prop where
  valid : s.heap.Valid (starts s.live)
  nodup : (s.live.map Live.start).Nodup
  pages : Pages s.heap owner
  served : ∀ e ∈ s.live, Served s.heap owner e

variable {s s' : Client} {h h' : Heap} {owner owner' : Nat → Option PoolType} {e e' : Live}
  {a : Addr} {T : PoolType} {r : Request}

theorem start_inv : Inv .start fun _ => none := by
  refine ⟨?_, List.nodup_nil, ?_, ?_⟩
  · simpa [Client.start, starts] using Heap.start_valid
  · refine ⟨?_, ?_, ?_, ?_⟩
    · intro b T hb
      cases hb
    · intro b T hb
      cases hb
    · intro T hT
      exact absurd rfl hT
    · intro T a ha
      cases ha
  · intro e he
    cases he

theorem Same.valid {live : Set Addr} (hs : Same h h') (hv : h.Valid live) : h'.Valid live := by
  have habs : h'.abs = h.abs := by
    unfold Heap.abs
    rw [hs.nextBlock, hs.pools]
  refine ⟨⟨?_, ?_, ?_⟩, habs ▸ hv.owns⟩
  · rw [hs.nextBlock, hs.pools]
    exact hv.wf.page_lt
  · rw [hs.pools]
    exact hv.wf.page_unique
  · rw [hs.pools]
    exact hv.wf.null_full

theorem Same.page (hs : Same h h') (hp : Pages h owner) : Pages h' owner := by
  refine ⟨?_, ?_, ?_, ?_⟩
  · rw [hs.nextBlock]
    exact hp.lt
  · rw [hs.sizes]
    exact hp.size
  · rw [hs.pools]
    exact hp.cursor
  · rw [hs.pools]
    exact hp.garbage

theorem alloc_of_garbage {rest : List Addr} (hg : (h.pools T).garbageCollection = a :: rest) :
    h.alloc T = (a, h.setGarbage T rest) := by
  unfold Heap.alloc
  rw [hg]

theorem alloc_of_room (hg : (h.pools T).garbageCollection = [])
    (hroom : (h.pools T).pool.offset < (h.pools T).poolEnd.offset) : h.alloc T = h.carve T := by
  unfold Heap.alloc
  rw [hg]
  exact congrArg (Heap.carve · T) (if_neg (Nat.not_le.mpr hroom))

theorem alloc_of_full (hg : (h.pools T).garbageCollection = [])
    (hfull : (h.pools T).poolEnd.offset ≤ (h.pools T).pool.offset) :
    h.alloc T = (h.newPage T).carve T := by
  unfold Heap.alloc
  rw [hg]
  exact congrArg (Heap.carve · T) (if_pos hfull)

theorem carve_newPage_addr (h : Heap) (T : PoolType) :
    ((h.newPage T).carve T).1 = ⟨h.nextBlock, 0⟩ := by
  simp [Heap.carve, Heap.newPage]

theorem carve_newPage_pools (hg : (h.pools T).garbageCollection = []) :
    ((h.newPage T).carve T).2.pools = Function.update h.pools T
      ⟨[], (⟨h.nextBlock, 0⟩ : Addr).add T.sizeof, ⟨h.nextBlock, T.kPageByteSize⟩⟩ := by
  simp only [Heap.carve, Heap.newPage, Function.update_self, Function.update_idem, hg]

/-- A pool hands out a block in one of the three ways. -/
theorem takenFrom_iff : TakenFrom h h' T a ↔ a = (h.alloc T).1 ∧ Same (h.alloc T).2 h' := by
  constructor
  · intro ht
    cases ht with
    | recycled rest hg hpools hblocks =>
      rw [alloc_of_garbage hg]
      exact ⟨rfl, hblocks.1, hblocks.2, hpools⟩
    | cut hg hroom ha hpools hblocks =>
      subst ha
      rw [alloc_of_room hg hroom]
      exact ⟨rfl, hblocks.1, hblocks.2, hpools⟩
    | newPage hg hfull ha hpools hblocks =>
      subst ha
      rw [alloc_of_full hg hfull, carve_newPage_addr]
      exact ⟨rfl, hblocks.1, hblocks.2, hpools.trans (carve_newPage_pools hg).symm⟩
  · intro ht
    obtain ⟨rfl, hsame⟩ := ht
    cases hg : (h.pools T).garbageCollection with
    | cons result rest =>
      rw [alloc_of_garbage hg] at hsame ⊢
      exact .recycled rest hg hsame.pools ⟨hsame.nextBlock, hsame.sizes⟩
    | nil =>
      by_cases hfull : (h.pools T).poolEnd.offset ≤ (h.pools T).pool.offset
      · rw [alloc_of_full hg hfull] at hsame ⊢
        rw [carve_newPage_addr]
        exact .newPage hg hfull rfl (hsame.pools.trans (carve_newPage_pools hg))
          ⟨hsame.nextBlock, hsame.sizes⟩
      · have hroom := Nat.lt_of_not_le hfull
        rw [alloc_of_room hg hroom] at hsame ⊢
        exact .cut hg hroom rfl hsame.pools ⟨hsame.nextBlock, hsame.sizes⟩

theorem putOn_iff : PutOn h h' T a ↔ Same (h.free T a) h' := by
  constructor
  · intro hp
    refine ⟨hp.nextBlock, hp.sizes, ?_⟩
    funext T'
    by_cases hT : T' = T
    · subst hT
      have hself : (h.free T' a).pools T' =
          { h.pools T' with garbageCollection := a :: (h.pools T').garbageCollection } :=
        Function.update_self ..
      rw [hself, ← hp.garbage]
      dsimp only
      rw [← hp.page.1, ← hp.page.2]
    · rw [hp.others T' hT]
      exact (Function.update_of_ne hT ..).symm
  · intro hs
    refine ⟨?_, ?_, ?_, hs.nextBlock, hs.sizes⟩
    · rw [hs.pools]
      simp [Heap.free, Heap.setGarbage]
    · rw [hs.pools]
      exact h.setGarbage_pool T _ T
    · intro T' hT
      rw [hs.pools]
      exact Function.update_of_ne hT ..

/-- A block that is handed out has the size of its pool, or of its request. -/
theorem sizeof_pool (hp : r.pool = some T) (hsize : ∀ n, r = .pointers n → 1 ≤ n)
    (hbytes : ∀ n, r = .bytes n → 1 ≤ n) : T.sizeof = r.room := by
  cases r with
  | bytes size =>
    obtain ⟨i, hi, rfl⟩ := Option.map_eq_some_iff.mp hp
    obtain ⟨hlt, heq, -⟩ := List.findIdx?_eq_some_iff_getElem.mp hi
    have hlen : i < popularLengthList.length := by simpa [enumToLength] using hlt
    have hsz : ((popularLengthList.getD i (0, 0)).1 : Int) = size := by
      rw [List.getD_eq_getElem?_getD, List.getElem?_eq_getElem hlen]
      simpa [enumToLength] using heq
    simp only [PoolType.sizeof, Request.room, Request.header, Request.size]
    omega
  | pointers size =>
    have h1 := hsize size rfl
    rw [Request.pool] at hp
    split at hp
    · next hle =>
      cases hp
      have hle' : size ≤ 12 := hle
      have hall : ∀ n, n < 12 → (popularOutputList.getD n (0, 0)).1 = n + 1 := by decide
      simp only [PoolType.sizeof, Request.room, Request.header, Request.size]
      rw [hall _ (by omega)]
      omega
    · cases hp
  | object T' =>
    cases hp
    exact (Nat.zero_add _).symm

theorem kPageByteSize_dvd (T : PoolType) : T.sizeof ∣ T.kPageByteSize := Dvd.intro _ rfl

theorem Pages.carve (hp : Pages h owner) (hroom : (h.pools T).pool.block ≠ 0)
    (hlt : (h.pools T).pool.offset < (h.pools T).poolEnd.offset) :
    Pages (h.carve T).2 owner ∧ Placed owner T (h.carve T).1 := by
  obtain ⟨howner, halign, hend⟩ := hp.cursor T hroom
  have hinside : (h.pools T).pool.offset + T.sizeof ≤ T.kPageByteSize := by
    -- the page is a whole number of blocks, and the place to cut from is one too
    obtain ⟨i, hi⟩ := halign
    obtain ⟨n, hn⟩ := kPageByteSize_dvd T
    rw [hend, hn, hi] at hlt
    have hin : i < n := Nat.lt_of_mul_lt_mul_left hlt
    rw [hn, hi, ← Nat.mul_succ]
    exact Nat.mul_le_mul_left _ hin
  refine ⟨⟨hp.lt, hp.size, ?_, ?_⟩, howner, halign, hinside⟩
  · intro T' hT'
    by_cases hT : T' = T
    · subst hT
      simp only [Heap.carve, Addr.add, Function.update_self]
      exact ⟨howner, Nat.dvd_add halign (Nat.dvd_refl _), hend⟩
    · simp only [Heap.carve, Function.update_of_ne hT] at hT' ⊢
      exact hp.cursor T' hT'
  · intro T' a ha
    by_cases hT : T' = T
    · subst hT
      simp only [Heap.carve, Function.update_self] at ha
      exact hp.garbage T' a ha
    · simp only [Heap.carve, Function.update_of_ne hT] at ha
      exact hp.garbage T' a ha

theorem Placed.extend (hp : Pages h owner) (ha : Placed owner T a) (x : Option PoolType) :
    Placed (Function.update owner h.nextBlock x) T a := by
  have hne : a.block ≠ h.nextBlock := Nat.ne_of_lt (hp.lt _ _ ha.owner)
  refine ⟨?_, ha.aligned, ha.inside⟩
  rw [Function.update_of_ne hne]
  exact ha.owner

theorem Pages.newPage (hp : Pages h owner) (T : PoolType) :
    Pages (h.newPage T) (Function.update owner h.nextBlock (some T)) := by
  refine ⟨?_, ?_, ?_, ?_⟩
  · intro b T' hb
    by_cases hne : b = h.nextBlock
    · subst hne
      exact Nat.lt_succ_self _
    · rw [Function.update_of_ne hne] at hb
      exact Nat.lt_succ_of_lt (hp.lt b T' hb)
  · intro b T' hb
    by_cases hne : b = h.nextBlock
    · subst hne
      rw [Function.update_self] at hb
      cases hb
      exact Function.update_self ..
    · rw [Function.update_of_ne hne] at hb
      simp only [Heap.newPage, Function.update_of_ne hne]
      exact hp.size b T' hb
  · intro T' hT'
    by_cases hT : T' = T
    · subst hT
      simp only [Heap.newPage, Function.update_self]
      exact ⟨trivial, Nat.dvd_zero _, trivial⟩
    · simp only [Heap.newPage, Function.update_of_ne hT] at hT' ⊢
      obtain ⟨howner, hrest⟩ := hp.cursor T' hT'
      have hne : (h.pools T').pool.block ≠ h.nextBlock := Nat.ne_of_lt (hp.lt _ _ howner)
      rw [Function.update_of_ne hne]
      exact ⟨howner, hrest⟩
  · intro T' a ha
    have hmem : a ∈ (h.pools T').garbageCollection := by
      by_cases hT : T' = T
      · subst hT
        simpa [Heap.newPage] using ha
      · simpa [Heap.newPage, hT] using ha
    exact (hp.garbage T' a hmem).extend hp _

theorem Pages.setGarbage (hp : Pages h owner) {l : List Addr} (hl : ∀ a ∈ l, Placed owner T a) :
    Pages (h.setGarbage T l) owner := by
  refine ⟨hp.lt, hp.size, ?_, ?_⟩
  · intro T' hT'
    rw [(h.setGarbage_pool T l T').1] at hT' ⊢
    rw [(h.setGarbage_pool T l T').2]
    exact hp.cursor T' hT'
  · intro T' a ha
    by_cases hT : T' = T
    · subst hT
      exact hl a (by simpa [Heap.setGarbage] using ha)
    · exact hp.garbage T' a (by simpa [Heap.setGarbage, hT] using ha)

/-- What a pool hands out lies in a page of its own. -/
theorem Pages.alloc (hp : Pages h owner) (hw : h.WellFormed) (T : PoolType) :
    ∃ owner', Pages (h.alloc T).2 owner' ∧ Placed owner' T (h.alloc T).1 ∧
      ∀ b, b < h.nextBlock → owner' b = owner b ∧ (h.alloc T).2.sizes b = h.sizes b := by
  unfold Heap.alloc
  cases hg : (h.pools T).garbageCollection with
  | cons result rest =>
    have hall : ∀ a ∈ result :: rest, Placed owner T a := by
      rw [← hg]
      exact hp.garbage T
    exact ⟨owner, hp.setGarbage fun a ha => hall a (List.mem_cons_of_mem _ ha),
      hall result (List.mem_cons_self ..), fun _ _ => ⟨rfl, rfl⟩⟩
  | nil =>
    dsimp only
    split
    · obtain ⟨hpages, hplaced⟩ := (hp.newPage T).carve (T := T) (Heap.newPage_room hw T)
        (by simpa [Heap.newPage] using T.kPageByteSize_pos)
      refine ⟨_, hpages, hplaced, ?_⟩
      intro b hb
      have hne : b ≠ h.nextBlock := Nat.ne_of_lt hb
      simp [Heap.carve, Heap.newPage, hne]
    · next hn =>
      have hroom : (h.pools T).pool.block ≠ 0 := fun h0 => hn (hw.null_full T h0)
      obtain ⟨hpages, hplaced⟩ := hp.carve hroom (Nat.lt_of_not_le hn)
      exact ⟨owner, hpages, hplaced, fun _ _ => ⟨rfl, rfl⟩⟩

theorem Pages.malloc (hp : Pages h owner) (size : Nat) :
    Pages (h.malloc size).2 owner ∧ owner (h.malloc size).1.block = none := by
  have hnone : owner h.nextBlock = none := by
    cases ho : owner h.nextBlock with
    | none => rfl
    | some T => exact absurd (hp.lt _ T ho) (Nat.lt_irrefl _)
  refine ⟨⟨fun b T hb => Nat.lt_succ_of_lt (hp.lt b T hb), ?_, hp.cursor, hp.garbage⟩, hnone⟩
  intro b T hb
  have hne : b ≠ h.nextBlock := Nat.ne_of_lt (hp.lt b T hb)
  simp only [Heap.malloc, Function.update_of_ne hne]
  exact hp.size b T hb

theorem starts_cons (e : Live) (live : List Live) : starts (e :: live) = insert e.start (starts live) := by
  ext a
  simp [starts, eq_comm]

theorem starts_lt (hi : Inv s owner) (he : e ∈ s.live) : e.start.block < s.heap.nextBlock :=
  (hi.valid.owns.issued ⟨e, he, rfl⟩).1

theorem Live.Tagged.keep {c c' : Cell} (ht : e.Tagged c) (htag : e.tag c' = e.tag c) :
    e.Tagged c' := by
  obtain ⟨p, r⟩ := e
  cases r with
  | bytes size =>
    have hh : c'.header = c.header := by simpa [Live.tag] using htag
    exact ⟨ht.1, hh.trans ht.2⟩
  | pointers size =>
    have hh : c'.length = c.length := by simpa [Live.tag] using htag
    exact ⟨ht.1, hh.trans ht.2⟩
  | object T => trivial

/-- A block in use keeps its place and its header while others come and go. -/
theorem Served.keep (hs : Served h owner e) (howner : owner' e.start.block = owner e.start.block)
    (hsize : h'.sizes e.start.block = h.sizes e.start.block)
    (htag : e.tag (h'.cells e.start) = e.tag (h.cells e.start)) : Served h' owner' e := by
  refine ⟨hs.header, ?_, ?_, ?_⟩
  · intro T hT
    obtain ⟨ho, halign, hinside⟩ := hs.pooled T hT
    exact ⟨howner.trans ho, halign, hinside⟩
  · intro hn
    rw [howner, hsize]
    exact hs.malloced hn
  · exact hs.tag.keep htag

/-- Where the block of a new request lies, and that the pages of the others stay theirs. -/
theorem Inv.places (hi : Inv s owner) {e : Live} (hheader : e.addr = e.start.add e.request.header)
    (ht : Taken s.heap h' e.request e.start) (htag : e.Tagged (h'.cells e.start)) :
    ∃ owner', e.start ∉ starts s.live ∧ h'.Valid (insert e.start (starts s.live)) ∧
      Pages h' owner' ∧ Served h' owner' e ∧ ∀ b, b < s.heap.nextBlock →
        owner' b = owner b ∧ h'.sizes b = s.heap.sizes b := by
  unfold Taken at ht
  cases hp : e.request.pool with
  | some T =>
    rw [hp] at ht
    obtain ⟨ha, hsame⟩ := takenFrom_iff.mp ht
    obtain ⟨hnot, hvalid, -⟩ := hi.valid.alloc T
    obtain ⟨owner', hpages, hplaced, hrest⟩ := hi.pages.alloc hi.valid.wf T
    rw [← ha] at hnot hvalid hplaced
    refine ⟨owner', hnot, hsame.valid hvalid, hsame.page hpages, ⟨hheader, ?_, ?_, htag⟩, ?_⟩
    · intro T' hT'
      cases hp.symm.trans hT'
      exact hplaced
    · intro hn
      cases hp.symm.trans hn
    · rw [hsame.sizes]
      exact hrest
  | none =>
    rw [hp] at ht
    have ha : e.start = (s.heap.malloc e.request.room).1 := ht.next
    have hsame : Same (s.heap.malloc e.request.room).2 h' := ⟨ht.nextBlock, ht.sizes, ht.pools⟩
    obtain ⟨hnot, hvalid⟩ := hi.valid.malloc e.request.room
    obtain ⟨hpages, hnone⟩ := hi.pages.malloc e.request.room
    rw [← ha] at hnot hvalid hnone
    refine ⟨owner, fun hm => hnot (Or.inl hm), hsame.valid hvalid, hsame.page hpages,
      ⟨hheader, ?_, ?_, htag⟩, ?_⟩
    · intro T hT
      cases hp.symm.trans hT
    · intro _
      refine ⟨hnone, by rw [ha]; rfl, ?_⟩
      rw [hsame.sizes, ha]
      exact Function.update_self ..
    · intro b hb
      have hne : b ≠ s.heap.nextBlock := Nat.ne_of_lt hb
      rw [hsame.sizes]
      simp [Heap.malloc, hne]

/-- A call that takes a block for a request, with its header written, keeps the invariant. -/
theorem Inv.take (hi : Inv s owner) {e : Live} (hheader : e.addr = e.start.add e.request.header)
    (ht : Taken s.heap h' e.request e.start)
    (hcells : ∀ a ∈ starts s.live, h'.cells a = s.heap.cells a)
    (htag : e.Tagged (h'.cells e.start)) :
    e.start ∉ starts s.live ∧ ∃ owner', Inv ⟨h', e :: s.live⟩ owner' := by
  obtain ⟨owner', hnot, hvalid, hpages, hserved, hrest⟩ := hi.places hheader ht htag
  refine ⟨hnot, owner', ?_, ?_, hpages, ?_⟩
  · rw [starts_cons]
    exact hvalid
  · refine List.nodup_cons.mpr ⟨?_, hi.nodup⟩
    intro hm
    obtain ⟨e', he', heq⟩ := List.mem_map.mp hm
    exact hnot ⟨e', he', heq⟩
  · intro e' he'
    cases List.mem_cons.mp he' with
    | inl heq =>
      rw [heq]
      exact hserved
    | inr hmem =>
      obtain ⟨ho, hsz⟩ := hrest _ (starts_lt hi hmem)
      exact (hi.served e' hmem).keep ho hsz (by rw [hcells _ ⟨e', hmem, rfl⟩])

theorem starts_erase (hn : (s.live.map Live.start).Nodup) (he : e ∈ s.live) :
    starts (s.live.erase e) = starts s.live \ {e.start} := by
  have hnd : s.live.Nodup := List.Nodup.of_map _ hn
  ext a
  constructor
  · rintro ⟨e', he', rfl⟩
    obtain ⟨hne, hmem⟩ := (hnd.mem_erase_iff).mp he'
    refine ⟨⟨e', hmem, rfl⟩, ?_⟩
    intro heq
    exact hne (List.inj_on_of_nodup_map hn hmem he heq)
  · rintro ⟨⟨e', he', rfl⟩, hne⟩
    refine ⟨e', (hnd.mem_erase_iff).mpr ⟨?_, he'⟩, rfl⟩
    intro heq
    exact hne (by rw [heq]; rfl)

theorem Pages.free (hp : Pages h owner) (ha : Placed owner T a) : Pages (h.free T a) owner := by
  apply hp.setGarbage
  intro b hb
  cases List.mem_cons.mp hb with
  | inl heq =>
    rw [heq]
    exact ha
  | inr hmem => exact hp.garbage T b hmem

/-- A call that gives a block back to the pool of its request keeps the invariant. -/
theorem Inv.giveBack (hi : Inv s owner) (he : e ∈ s.live)
    (hb : GivenBack s.heap h' e.request e.start) (hcells : h'.cells = s.heap.cells) :
    Inv ⟨h', s.live.erase e⟩ owner := by
  have hnew : h'.Valid (starts s.live \ {e.start}) ∧ Pages h' owner ∧
      h'.sizes = s.heap.sizes := by
    unfold GivenBack at hb
    cases hp : e.request.pool with
    | some T =>
      rw [hp] at hb
      have hsame := putOn_iff.mp hb
      exact ⟨hsame.valid (hi.valid.free T ⟨e, he, rfl⟩),
        hsame.page (hi.pages.free ((hi.served e he).pooled T hp)), hsame.sizes⟩
    | none =>
      rw [hp] at hb
      exact ⟨hb.valid (hi.valid.shrink Set.sdiff_subset), hb.page hi.pages, hb.sizes⟩
  obtain ⟨hvalid, hpages, hsizes⟩ := hnew
  refine ⟨?_, ?_, hpages, ?_⟩
  · rw [starts_erase hi.nodup he]
    exact hvalid
  · exact hi.nodup.sublist (List.erase_sublist.map Live.start)
  · intro e' he'
    exact (hi.served e' (List.mem_of_mem_erase he')).keep rfl (by rw [hsizes]) (by rw [hcells])

theorem Same.refl (h : Heap) : Same h h := ⟨rfl, rfl, rfl⟩

theorem count_alloc (h : Heap) (f : Counters → Counters) (T : PoolType) :
    (h.count f).alloc T = ((h.alloc T).1, (h.alloc T).2.count f) := by
  unfold Heap.alloc
  have hpool : ((h.count f).pools T) = h.pools T := rfl
  rw [hpool]
  cases (h.pools T).garbageCollection with
  | nil =>
    dsimp only
    split <;> rfl
  | cons result rest => rfl

variable {live : Set Addr} {size : Int} {p : Addr}

/-- What an allocation for `r` with the result `p` does. -/
structure Serves (h h' : Heap) (live : Set Addr) (e : Live) : Prop where
  header : e.addr = e.start.add e.request.header
  taken : Taken h h' e.request e.start
  cells : ∀ a ∈ live, h'.cells a = h.cells a
  tag : e.Tagged (h'.cells e.start)

theorem allocTX_serves (hv : h.Valid live) (hsize : 1 ≤ size)
    (halloc : allocTX h size = some (p, h')) : Serves h h' live ⟨p, .bytes size⟩ := by
  unfold allocTX at halloc
  cases hi : enumToLength.findIdx? (· == size) with
  | some i =>
    obtain ⟨hnot, -, hcells⟩ := hv.alloc (.nBytes i)
    simp only [hi, count_alloc, Option.some.injEq, Prod.mk.injEq] at halloc
    obtain ⟨rfl, rfl⟩ := halloc
    have hstart : Live.start ⟨(h.alloc (.nBytes i)).1.add 1, .bytes size⟩ =
        (h.alloc (.nBytes i)).1 := Addr.sub_add _ 1
    refine ⟨by rw [hstart]; rfl, ?_, ?_, ?_⟩
    · simp only [Taken, Request.pool, hi, Option.map_some, hstart]
      exact takenFrom_iff.mpr ⟨rfl, rfl, rfl, rfl⟩
    · intro a ha
      rw [Heap.write_of_notMem _ hnot a ha]
      exact hcells a ha
    · rw [hstart, Heap.write_self]
      exact ⟨hsize, by rw [hi]; rfl⟩
  | none =>
    have hnot : (h.malloc (size + 1).toNat).1 ∉ live := fun hm =>
      (hv.malloc (size + 1).toNat).1 (Or.inl hm)
    simp only [hi] at halloc
    split at halloc
    · next hbound =>
      simp only [Option.some.injEq, Prod.mk.injEq] at halloc
      obtain ⟨rfl, rfl⟩ := halloc
      have hstart : Live.start ⟨(h.malloc (size + 1).toNat).1.add 1, .bytes size⟩ =
          (h.malloc (size + 1).toNat).1 := Addr.sub_add _ 1
      have hroom : (size + 1).toNat = Request.room (.bytes size) := by
        simp only [Request.room, Request.header, Request.size]
        omega
      refine ⟨by exact (congrArg (·.add 1) hstart).symm, ?_, ?_, ?_⟩
      · simp only [Taken, Request.pool, hi, Option.map_none]
        rw [← hroom]
        exact ⟨hstart, rfl, rfl, rfl⟩
      · intro a ha
        exact Heap.write_of_notMem _ hnot a ha
      · refine ⟨hsize, ?_⟩
        rw [hi]
        exact congrArg Cell.header (Heap.write_self _ (h.malloc (size + 1).toNat).1 _)
    · cases halloc

theorem allocPtrs_serves (hv : h.Valid live) (hsize : 1 ≤ size)
    (halloc : allocPtrs h size = some (p, h')) : Serves h h' live ⟨p, .pointers size⟩ := by
  unfold allocPtrs at halloc
  dsimp only at halloc
  by_cases hle : size ≤ (outputNumberCount : Int)
  · obtain ⟨hnot, -, hcells⟩ := hv.alloc (.nPtrs (size - 1).toNat)
    rw [if_pos hle, if_pos hsize] at halloc
    simp only [count_alloc, Option.some.injEq, Prod.mk.injEq] at halloc
    obtain ⟨rfl, rfl⟩ := halloc
    have hstart : Live.start ⟨(h.alloc (.nPtrs (size - 1).toNat)).1.add 8, .pointers size⟩ =
        (h.alloc (.nPtrs (size - 1).toNat)).1 := Addr.sub_add _ 8
    refine ⟨by rw [hstart]; rfl, ?_, ?_, ?_⟩
    · simp only [Taken, Request.pool, if_pos hle, hstart]
      exact takenFrom_iff.mpr ⟨rfl, rfl, rfl, rfl⟩
    · intro a ha
      rw [Heap.write_of_notMem _ hnot a ha]
      exact hcells a ha
    · rw [hstart, Heap.write_self]
      exact ⟨hsize, rfl⟩
  · rw [if_neg hle] at halloc
    split at halloc
    · have hnot : (h.malloc (8 * (size + 1)).toNat).1 ∉ live := fun hm =>
        (hv.malloc (8 * (size + 1)).toNat).1 (Or.inl hm)
      simp only [Option.some.injEq, Prod.mk.injEq] at halloc
      obtain ⟨rfl, rfl⟩ := halloc
      have hstart : Live.start ⟨(h.malloc (8 * (size + 1)).toNat).1.add 8, .pointers size⟩ =
          (h.malloc (8 * (size + 1)).toNat).1 := Addr.sub_add _ 8
      have hroom : (8 * (size + 1)).toNat = Request.room (.pointers size) := by
        simp only [Request.room, Request.header, Request.size]
        omega
      refine ⟨by exact (congrArg (·.add 8) hstart).symm, ?_, ?_, ?_⟩
      · simp only [Taken, Request.pool, if_neg hle]
        rw [← hroom]
        exact ⟨hstart, rfl, rfl, rfl⟩
      · intro a ha
        exact Heap.write_of_notMem _ hnot a ha
      · refine ⟨hsize, ?_⟩
        exact congrArg Cell.length (Heap.write_self _ (h.malloc (8 * (size + 1)).toNat).1 _)
    · cases halloc

theorem alloc_serves (hv : h.Valid live) (T : PoolType) :
    Serves h (h.alloc T).2 live ⟨(h.alloc T).1, .object T⟩ :=
  ⟨rfl, takenFrom_iff.mpr ⟨rfl, Same.refl _⟩, (hv.alloc T).2.2, trivial⟩

/-- freeTX finds the pool of the block in its header. -/
theorem freeTX_givesBack (hs : Served h owner ⟨p, .bytes size⟩) :
    GivenBack h (freeTX h p) (.bytes size) (Live.start ⟨p, .bytes size⟩) ∧
      (freeTX h p).cells = h.cells := by
  have hheader : (h.cells (p.sub 1)).header =
      (enumToLength.findIdx? (· == size)).getD lengthOther := hs.tag.2
  unfold freeTX GivenBack
  dsimp only [Request.pool]
  cases hi : enumToLength.findIdx? (· == size) with
  | some i =>
    have hlt : i < lengthOther := (List.findIdx?_eq_some_iff_getElem.mp hi).1
    rw [hi] at hheader
    have hcount : ∀ f, ((h.count f).cells (p.sub 1)).header = i := fun _ => hheader
    rw [hcount, if_pos hlt]
    exact ⟨putOn_iff.mpr ⟨rfl, rfl, rfl⟩, rfl⟩
  | none =>
    rw [hi] at hheader
    have hcount : ∀ f, ((h.count f).cells (p.sub 1)).header = lengthOther := fun _ => hheader
    rw [hcount, if_neg (Nat.lt_irrefl _)]
    exact ⟨⟨rfl, rfl, rfl⟩, rfl⟩

theorem freePtrs_givesBack (hs : Served h owner ⟨p, .pointers size⟩) :
    ∃ h', freePtrs h p = some h' ∧
      GivenBack h h' (.pointers size) (Live.start ⟨p, .pointers size⟩) ∧ h'.cells = h.cells := by
  have hsize : 1 ≤ size := hs.tag.1
  have hlength : (h.cells (p.sub 8)).length = size := hs.tag.2
  have hcount : ∀ f, ((h.count f).cells (p.sub 8)).length = size := fun _ => hlength
  unfold freePtrs GivenBack
  dsimp only [Request.pool]
  rw [hcount]
  by_cases hle : size ≤ (outputNumberCount : Int)
  · rw [if_pos ⟨by omega, hle⟩, if_pos hsize, if_pos hle]
    exact ⟨_, rfl, putOn_iff.mpr ⟨rfl, rfl, rfl⟩, rfl⟩
  · rw [if_neg fun h => hle h.2, if_neg hle]
    exact ⟨_, rfl, ⟨rfl, rfl, rfl⟩, rfl⟩

/-- One call keeps the blocks apart. -/
theorem Step.inv (hstep : Step s s') (hi : ∃ owner, Inv s owner) : ∃ owner, Inv s' owner := by
  obtain ⟨owner, hi⟩ := hi
  cases hstep with
  | allocTX hsize halloc =>
    have ht := allocTX_serves hi.valid hsize halloc
    exact (hi.take ht.header ht.taken ht.cells ht.tag).2
  | freeTX hlive =>
    obtain ⟨hb, hcells⟩ := freeTX_givesBack (hi.served _ hlive)
    exact ⟨owner, hi.giveBack hlive hb hcells⟩
  | allocPtrs hsize halloc =>
    have ht := allocPtrs_serves hi.valid hsize halloc
    exact (hi.take ht.header ht.taken ht.cells ht.tag).2
  | freePtrs hlive hfree =>
    obtain ⟨h', hh', hb, hcells⟩ := freePtrs_givesBack (hi.served _ hlive)
    cases hfree.symm.trans hh'
    exact ⟨owner, hi.giveBack hlive hb hcells⟩
  | alloc T =>
    have ht := alloc_serves hi.valid T
    exact (hi.take ht.header ht.taken ht.cells ht.tag).2
  | free hlive => exact ⟨owner, hi.giveBack hlive (putOn_iff.mpr (Same.refl _)) rfl⟩
  | write cells hkeep =>
    have hsame : Same s.heap { s.heap with cells := cells } := ⟨rfl, rfl, rfl⟩
    refine ⟨owner, hsame.valid hi.valid, hi.nodup, hsame.page hi.pages, ?_⟩
    intro e he
    exact (hi.served e he).keep rfl rfl (hkeep e he)

theorem Reachable.inv (hr : Reachable s) : ∃ owner, Inv s owner := by
  induction hr with
  | refl => exact ⟨_, start_inv⟩
  | tail _ hstep ih => exact hstep.inv ih

theorem Served.size_pos (hs : Served h owner e) :
    (∀ n, e.request = .pointers n → 1 ≤ n) ∧ ∀ n, e.request = .bytes n → 1 ≤ n := by
  have ht := hs.tag
  obtain ⟨p, r⟩ := e
  constructor
  · rintro n rfl
    exact ht.1
  · rintro n rfl
    exact ht.1

theorem Served.fits (hs : Served h owner e) (hp : Pages h owner) : Fits h e := by
  refine ⟨hs.header, ?_, ?_⟩
  · cases hpool : e.request.pool with
    | some T =>
      obtain ⟨howner, -, hinside⟩ := hs.pooled T hpool
      rw [hp.size _ T howner, ← sizeof_pool hpool hs.size_pos.1 hs.size_pos.2]
      exact hinside
    | none =>
      obtain ⟨-, h0, hsize⟩ := hs.malloced hpool
      omega
  · intro T hpool
    exact hp.size _ T (hs.pooled T hpool).owner

theorem addr_ext {a b : Addr} (hblock : a.block = b.block) (hoffset : a.offset = b.offset) :
    a = b := by
  cases a
  cases b
  cases hblock
  cases hoffset
  rfl

/-- Two different multiples of `n` are at least `n` apart. -/
theorem dvd_apart {n i j : Nat} (hi : n ∣ i) (hj : n ∣ j) (hne : i ≠ j) : i + n ≤ j ∨ j + n ≤ i := by
  obtain ⟨a, rfl⟩ := hi
  obtain ⟨b, rfl⟩ := hj
  have hab : a ≠ b := by
    intro he
    exact hne (by rw [he])
  rw [← Nat.mul_succ, ← Nat.mul_succ]
  cases Nat.lt_or_gt_of_ne hab with
  | inl hlt => exact Or.inl (Nat.mul_le_mul_left n hlt)
  | inr hlt => exact Or.inr (Nat.mul_le_mul_left n hlt)

/-- Blocks in one page are cut in the same size, and a block of malloc serves one request. -/
theorem Served.disjoint (hs : Served h owner e) (hs' : Served h owner e')
    (hne : e.start ≠ e'.start) : e.Disjoint e' := by
  by_cases hblock : e.start.block = e'.start.block
  · right
    have hoff : e.start.offset ≠ e'.start.offset := fun heq => hne (addr_ext hblock heq)
    cases hpool : e.request.pool with
    | some T =>
      obtain ⟨howner, halign, -⟩ := hs.pooled T hpool
      have hpool' : e'.request.pool = some T := by
        cases hp' : e'.request.pool with
        | some T' =>
          have howner' := (hs'.pooled T' hp').owner
          rw [← hblock] at howner'
          exact howner'.symm.trans howner
        | none =>
          have howner' := (hs'.malloced hp').1
          rw [← hblock, howner] at howner'
          cases howner'
      rw [← sizeof_pool hpool hs.size_pos.1 hs.size_pos.2,
        ← sizeof_pool hpool' hs'.size_pos.1 hs'.size_pos.2]
      exact dvd_apart halign (hs'.pooled T hpool').aligned hoff
    | none =>
      obtain ⟨howner, h0, -⟩ := hs.malloced hpool
      cases hp' : e'.request.pool with
      | some T' =>
        have howner' := (hs'.pooled T' hp').owner
        rw [← hblock, howner] at howner'
        cases howner'
      | none =>
        have h0' := (hs'.malloced hp').2.1
        exact absurd (h0.trans h0'.symm) hoff
  · exact Or.inl hblock

/-- The free of a block is defined and reaches the pool the block was taken from. -/
def Freeable (h : Heap) (e : Live) : Prop :=
  match e.request with
  | .bytes _ => GivenBack h (freeTX h e.addr) e.request e.start
  | .pointers _ => ∃ h', freePtrs h e.addr = some h' ∧ GivenBack h h' e.request e.start
  | .object T => GivenBack h (h.free T e.addr) e.request e.start

theorem Served.freeable (hs : Served h owner e) : Freeable h e := by
  obtain ⟨p, r⟩ := e
  cases r with
  | bytes size => exact (freeTX_givesBack hs).1
  | pointers size =>
    obtain ⟨h', hh', hb, -⟩ := freePtrs_givesBack hs
    exact ⟨h', hh', hb⟩
  | object T => exact putOn_iff.mpr (Same.refl _)

/-- A step that adds a block is an allocation. -/
theorem Step.serves (hi : Inv s owner) (hstep : Step s s') (hlive : s'.live = e :: s.live) :
    Serves s.heap s'.heap (starts s.live) e := by
  have hlength : s'.live.length = s.live.length + 1 := by rw [hlive, List.length_cons]
  have herase : ∀ x, (s.live.erase x).length ≠ s.live.length + 1 := by
    intro x
    have := List.length_erase_le (l := s.live) (a := x)
    omega
  cases hstep with
  | allocTX hsize halloc =>
    cases (List.cons.inj hlive).1
    exact allocTX_serves hi.valid hsize halloc
  | freeTX => exact absurd hlength (herase _)
  | allocPtrs hsize halloc =>
    cases (List.cons.inj hlive).1
    exact allocPtrs_serves hi.valid hsize halloc
  | freePtrs => exact absurd hlength (herase _)
  | alloc T =>
    cases (List.cons.inj hlive).1
    exact alloc_serves hi.valid T
  | free => exact absurd hlength (herase _)
  | write cells => exact absurd hlength (Nat.ne_of_lt (Nat.lt_succ_self _))

theorem Inv.pairwise (hi : Inv s owner) : s.live.Pairwise Live.Disjoint := by
  have hne := List.pairwise_map.mp hi.nodup
  exact hne.imp_of_mem fun he he' hne => (hi.served _ he).disjoint (hi.served _ he') hne

/-- After any calls: the blocks in use have no byte in common, each has room for what was
asked and for its header inside one page or one block of malloc, and its free reaches the
pool of its class; a call that adds a block takes it from that pool, clear of the others,
and there is one for every size whose header still fits an int. -/
theorem pools_safe (s : Client) (hr : Reachable s) :
    s.live.Pairwise Live.Disjoint ∧ (∀ e ∈ s.live, Fits s.heap e ∧ Freeable s.heap e) ∧
      (∀ s' e, Step s s' → s'.live = e :: s.live →
        Taken s.heap s'.heap e.request e.start ∧ ∀ e' ∈ s.live, e.Disjoint e') ∧
      ∀ size : Int, 1 ≤ size → size + 1 < 2 ^ 31 →
        (allocTX s.heap size).isSome ∧ (allocPtrs s.heap size).isSome := by
  obtain ⟨owner, hi⟩ := hr.inv
  refine ⟨hi.pairwise, ?_, ?_, ?_⟩
  · intro e he
    exact ⟨(hi.served e he).fits hi.pages, (hi.served e he).freeable⟩
  · intro s' e hstep hlive
    obtain ⟨owner', hi'⟩ := hstep.inv ⟨owner, hi⟩
    have hpair := hi'.pairwise
    rw [hlive] at hpair
    exact ⟨(hstep.serves hi hlive).taken, (List.pairwise_cons.mp hpair).1⟩
  · intro size h1 hlt
    obtain ⟨a, h', ha, -⟩ := allocTX_spec hi.valid (by omega) hlt
    obtain ⟨b, h'', hb, -⟩ := allocPtrs_spec hi.valid h1 hlt
    rw [ha, hb]
    exact ⟨rfl, rfl⟩

theorem Reachable.allocTX (hr : Reachable s) (hsize : 1 ≤ size) (hlt : size + 1 < 2 ^ 31) :
    ∃ e h, e.request = .bytes size ∧ Step s ⟨h, e :: s.live⟩ := by
  obtain ⟨owner, hi⟩ := hr.inv
  obtain ⟨a, h, ha, -⟩ := allocTX_spec hi.valid (by omega) hlt
  exact ⟨⟨a.add 1, .bytes size⟩, h, rfl, .allocTX hsize ha⟩

/-- One of two buffers is freed, and the next of its class is in its place, clear of the
other. -/
theorem pools_safe_reused : ∃ (s s' : Client) (e e' other : Live), Reachable s ∧
    s.live = [other, e] ∧ Step s ⟨freeTX s.heap e.addr, [other]⟩ ∧
    Step ⟨freeTX s.heap e.addr, [other]⟩ s' ∧ s'.live = [e', other] ∧
    e'.start = e.start ∧ e'.Disjoint other := by
  obtain ⟨e, h, he, hstep⟩ := @Reachable.allocTX .start 10 .refl (by decide) (by decide)
  have hone : Reachable ⟨h, [e]⟩ := .single hstep
  obtain ⟨other, h', -, hstep'⟩ := @Reachable.allocTX _ 10 hone (by decide) (by decide)
  have htwo : Reachable ⟨h', [other, e]⟩ := hone.tail hstep'
  obtain ⟨p, r⟩ := e
  cases he
  have hne : other ≠ ⟨p, .bytes 10⟩ := by
    intro heq
    have hdisj := (List.pairwise_cons.mp (pools_safe _ htwo).1).1 _ (List.mem_singleton_self _)
    rw [heq] at hdisj
    simp [Live.Disjoint, Request.room, Request.header, Request.size] at hdisj
  have herase : [other, ⟨p, .bytes 10⟩].erase (⟨p, .bytes 10⟩ : Live) = [other] := by
    rw [List.erase_cons_tail (by simpa using hne), List.erase_cons_head]
  have hfree : Step ⟨h', [other, ⟨p, .bytes 10⟩]⟩ ⟨freeTX h' p, [other]⟩ := by
    have hstep := @Step.freeTX ⟨h', [other, ⟨p, .bytes 10⟩]⟩ 10 p
      (List.mem_cons_of_mem _ (List.mem_singleton_self _))
    rw [herase] at hstep
    exact hstep
  have hback : GivenBack h' (freeTX h' p) (.bytes 10) (Live.start ⟨p, .bytes 10⟩) :=
    ((pools_safe _ htwo).2.1 ⟨p, .bytes 10⟩
      (List.mem_cons_of_mem _ (List.mem_singleton_self _))).2
  have hthree : Reachable ⟨freeTX h' p, [other]⟩ := htwo.tail hfree
  obtain ⟨e', h'', he', hstep''⟩ := @Reachable.allocTX _ 10 hthree (by decide) (by decide)
  obtain ⟨htaken, hclear⟩ := (pools_safe _ hthree).2.2.1 _ e' hstep'' rfl
  refine ⟨_, _, _, e', other, htwo, rfl, hfree, hstep'', rfl, ?_,
    hclear other (List.mem_singleton_self _)⟩
  rw [he'] at htaken
  have hgarbage := hback.garbage
  cases htaken with
  | recycled rest hg => exact (List.cons.inj (hg.symm.trans hgarbage)).1
  | cut hg => nomatch hg.symm.trans hgarbage
  | newPage hg => nomatch hg.symm.trans hgarbage

end Blockparser.Pools
