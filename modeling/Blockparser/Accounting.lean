import Blockparser.Pools

/-! The counters of the memory manager against the buffers and the arrays in use. -/
namespace Blockparser.Accounting
open MemoryManager Pools

/-- What is in use after some calls, and what was freed by them. -/
structure Ledger extends Client where
  freed : List Live

def Ledger.start : Ledger := ⟨.start, []⟩

/-- A call of one of the four functions, or writes that leave the headers alone. -/
inductive Step : Ledger → Ledger → Prop
  | allocTX {s : Ledger} {size : Int} {p : Addr} {h : Heap}
      (halloc : allocTX s.heap size = some (p, h)) :
      Step s ⟨⟨h, ⟨p, .bytes size⟩ :: s.live⟩, s.freed⟩
  | freeTX {s : Ledger} {size : Int} {p : Addr} (hlive : ⟨p, .bytes size⟩ ∈ s.live) :
      Step s ⟨⟨freeTX s.heap p, s.live.erase ⟨p, .bytes size⟩⟩, ⟨p, .bytes size⟩ :: s.freed⟩
  | allocPtrs {s : Ledger} {size : Int} {p : Addr} {h : Heap} (hsize : 1 ≤ size)
      (halloc : allocPtrs s.heap size = some (p, h)) :
      Step s ⟨⟨h, ⟨p, .pointers size⟩ :: s.live⟩, s.freed⟩
  | freePtrs {s : Ledger} {size : Int} {p : Addr} {h : Heap}
      (hlive : ⟨p, .pointers size⟩ ∈ s.live) (hfree : freePtrs s.heap p = some h) :
      Step s ⟨⟨h, s.live.erase ⟨p, .pointers size⟩⟩, ⟨p, .pointers size⟩ :: s.freed⟩
  | write {s : Ledger} (cells : Addr → Cell)
      (hkeep : ∀ e ∈ s.live, e.tag (cells e.start) = e.tag (s.heap.cells e.start)) :
      Step s ⟨⟨{ s.heap with cells := cells }, s.live⟩, s.freed⟩

def Reachable (s : Ledger) : Prop := Relation.ReflTransGen Step .start s

/-- One for each byte buffer. -/
def buffers : Request → Nat
  | .bytes _ => 1
  | _ => 0

/-- One for each pointer array. -/
def arrays : Request → Nat
  | .pointers _ => 1
  | _ => 0

/-- The size of a byte buffer that no pool serves. -/
def bufferSize (r : Request) : Nat :=
  match r with
  | .bytes size => if r.pool = none then size.toNat + 1 else 0
  | _ => 0

/-- The size of a pointer array that no pool serves. -/
def arraySize (r : Request) : Nat :=
  match r with
  | .pointers size => if r.pool = none then (size.toNat + 1) * 8 else 0
  | _ => 0

def total (f : Request → Nat) (es : List Live) : Nat := (es.map fun e => f e.request).sum

/-- The `long long` that is left of a sum of `size_t`. -/
def asLongLong (n : Int) : Int := (BitVec.ofInt 64 n).toInt

/-- The counters tell what is in use. -/
structure Right (s : Ledger) : Prop where
  ptrsNumber : s.heap.counters.uniquePtrsTotalNumber = total arrays s.live
  txNumber : s.heap.counters.uniqueTXTotalNumber.toNat = total buffers s.live
  ptrsSize : asLongLong s.heap.counters.uniquePtrsTotalSize = total arraySize s.live
  txSize : s.heap.counters.uniqueTXTotalSize.toNat = total bufferSize s.live

/-- The totals fit their counters. -/
structure Fits (s : Ledger) : Prop where
  txNumber : total buffers s.live < 2 ^ 32
  ptrsSize : total arraySize s.live < 2 ^ 63
  txSize : total bufferSize s.live < 2 ^ 32

/-- The sizes that were freed without a pool wrap around to nothing: so they do where no such
block was freed. -/
structure Unseen (s : Ledger) : Prop where
  ptrsSize : 2 ^ 63 ∣ total arraySize s.freed
  txSize : 2 ^ 32 ∣ total bufferSize s.freed

/-- What the counters hold. -/
structure Booked (s : Ledger) : Prop where
  ptrsNumber : s.heap.counters.uniquePtrsTotalNumber = total arrays s.live
  txNumber : s.heap.counters.uniqueTXTotalNumber = UInt32.ofNat (total buffers s.live)
  ptrsSize : s.heap.counters.uniquePtrsTotalSize =
    total arraySize s.live + 2 * total arraySize s.freed
  txSize : s.heap.counters.uniqueTXTotalSize =
    UInt32.ofNat (total bufferSize s.live + total bufferSize s.freed)

/-- The counters with a request more. -/
structure Added (c c' : Counters) (r : Request) : Prop where
  ptrsNumber : c'.uniquePtrsTotalNumber = c.uniquePtrsTotalNumber + arrays r
  txNumber : c'.uniqueTXTotalNumber = c.uniqueTXTotalNumber + UInt32.ofNat (buffers r)
  ptrsSize : c'.uniquePtrsTotalSize = c.uniquePtrsTotalSize + arraySize r
  txSize : c'.uniqueTXTotalSize = c.uniqueTXTotalSize + UInt32.ofNat (bufferSize r)

/-- The counters after a request was freed: of the sizes, that of an array is added once more
and that of a buffer stays. -/
structure Removed (c c' : Counters) (r : Request) : Prop where
  ptrsNumber : c'.uniquePtrsTotalNumber = c.uniquePtrsTotalNumber - arrays r
  txNumber : c'.uniqueTXTotalNumber = c.uniqueTXTotalNumber - UInt32.ofNat (buffers r)
  ptrsSize : c'.uniquePtrsTotalSize = c.uniquePtrsTotalSize + arraySize r
  txSize : c'.uniqueTXTotalSize = c.uniqueTXTotalSize

/-- The blocks in use are apart, and a pointer array has its length in front. -/
structure Kept (s : Ledger) : Prop where
  valid : s.heap.Valid (starts s.live)
  nodup : (s.live.map Live.start).Nodup
  header : ∀ e ∈ s.live, e.addr = e.start.add e.request.header
  length : ∀ e ∈ s.live, ∀ size, e.request = .pointers size →
    1 ≤ size ∧ (s.heap.cells e.start).length = size

variable {s s' : Ledger} {h h' : Heap} {e : Live} {es : List Live} {size : Int} {p : Addr}

@[simp] theorem total_cons (f : Request → Nat) (e : Live) (es : List Live) :
    total f (e :: es) = f e.request + total f es := by
  simp [total]

/-- A block in use counts once. -/
theorem total_erase (f : Request → Nat) (he : e ∈ es) :
    total f es = f e.request + total f (es.erase e) := by
  have hperm := (List.perm_cons_erase he).map fun e : Live => f e.request
  rw [← total_cons]
  exact hperm.sum_eq

theorem alloc_counters (h : Heap) (T : PoolType) : (h.alloc T).2.counters = h.counters := by
  unfold Heap.alloc
  cases (h.pools T).garbageCollection with
  | cons result rest => rfl
  | nil =>
    dsimp only
    split <;> rfl

/-- A size that is served is the size of a pool or leaves room for the header. -/
theorem allocTX_size {r : Addr × Heap} (halloc : allocTX h size = some r) :
    0 ≤ size ∧ size + 1 < 2 ^ 31 := by
  unfold allocTX at halloc
  dsimp only at halloc
  cases hi : enumToLength.findIdx? (· == size) with
  | some i =>
    have hall : ∀ n ∈ enumToLength, 0 ≤ n ∧ n + 1 < 2 ^ 31 := by decide
    obtain ⟨hlt, heq, -⟩ := List.findIdx?_eq_some_iff_getElem.mp hi
    rw [← eq_of_beq heq]
    exact hall _ (List.getElem_mem hlt)
  | none =>
    rw [hi] at halloc
    dsimp only at halloc
    split at halloc
    · next hsize => exact hsize
    · cases halloc

theorem allocTX_added (halloc : allocTX h size = some (p, h')) :
    Added h.counters h'.counters (.bytes size) := by
  obtain ⟨h0, -⟩ := allocTX_size halloc
  unfold allocTX at halloc
  dsimp only at halloc
  cases hi : enumToLength.findIdx? (· == size) with
  | some i =>
    have hpool : Request.pool (.bytes size) ≠ none := by simp [Request.pool, hi]
    have hsize : bufferSize (.bytes size) = 0 := if_neg hpool
    rw [hi] at halloc
    cases halloc
    refine ⟨?_, ?_, ?_, ?_⟩ <;> simp only [Heap.write, alloc_counters, Heap.count]
    · exact (Int.add_zero _).symm
    · rfl
    · exact (Int.add_zero _).symm
    · rw [hsize]
      exact (UInt32.add_zero _).symm
  | none =>
    have hpool : Request.pool (.bytes size) = none := by simp [Request.pool, hi]
    have hsize : bufferSize (.bytes size) = (size + 1).toNat := by
      rw [bufferSize, if_pos hpool]
      omega
    rw [hi] at halloc
    dsimp only at halloc
    split at halloc
    · cases halloc
      refine ⟨(Int.add_zero _).symm, rfl, (Int.add_zero _).symm, ?_⟩
      rw [hsize]
      rfl
    · cases halloc

theorem allocPtrs_size {r : Addr × Heap} (hsize : 1 ≤ size) (halloc : allocPtrs h size = some r) :
    size + 1 < 2 ^ 31 := by
  unfold allocPtrs at halloc
  dsimp only at halloc
  split at halloc
  · next hle =>
    have hle' : size ≤ 12 := hle
    omega
  · split at halloc
    · next hlt => exact hlt
    · cases halloc

theorem arraySize_pooled (hle : size ≤ (outputNumberCount : Int)) :
    arraySize (.pointers size) = 0 := by
  simp [arraySize, Request.pool, hle]

theorem arraySize_malloced (hsize : 1 ≤ size) (hle : ¬size ≤ (outputNumberCount : Int)) :
    (arraySize (.pointers size) : Int) = (size + 1) * 8 := by
  simp only [arraySize, Request.pool, if_neg hle, if_true]
  omega

theorem allocPtrs_added (hsize : 1 ≤ size) (halloc : allocPtrs h size = some (p, h')) :
    Added h.counters h'.counters (.pointers size) := by
  unfold allocPtrs at halloc
  dsimp only at halloc
  by_cases hle : size ≤ (outputNumberCount : Int)
  · rw [if_pos hle, if_pos hsize] at halloc
    cases halloc
    refine ⟨?_, ?_, ?_, ?_⟩ <;> simp only [Heap.write, alloc_counters, Heap.count]
    · rfl
    · exact (UInt32.add_zero _).symm
    · rw [arraySize_pooled hle]
      exact (Int.add_zero _).symm
    · exact (UInt32.add_zero _).symm
  · rw [if_neg hle] at halloc
    split at halloc
    · cases halloc
      refine ⟨rfl, (UInt32.add_zero _).symm, ?_, (UInt32.add_zero _).symm⟩
      rw [arraySize_malloced hsize hle]
      rfl
    · cases halloc

theorem freeTX_removed (h : Heap) (p : Addr) (size : Int) :
    Removed h.counters (freeTX h p).counters (.bytes size) := by
  have hcounters : (freeTX h p).counters = { h.counters with
      uniqueTXTotalNumber := h.counters.uniqueTXTotalNumber - 1 } := by
    unfold freeTX
    dsimp only
    split <;> rfl
  rw [hcounters]
  exact ⟨(Int.sub_zero _).symm, rfl, (Int.add_zero _).symm, rfl⟩

theorem freePtrs_removed (hsize : 1 ≤ size) (hlength : (h.cells (p.sub 8)).length = size)
    (hfree : freePtrs h p = some h') : Removed h.counters h'.counters (.pointers size) := by
  have hcount : ∀ f, ((h.count f).cells (p.sub 8)).length = size := fun _ => hlength
  unfold freePtrs at hfree
  dsimp only at hfree
  rw [hcount] at hfree
  by_cases hle : size ≤ (outputNumberCount : Int)
  · rw [if_pos ⟨by omega, hle⟩, if_pos hsize] at hfree
    cases hfree
    refine ⟨rfl, (UInt32.sub_zero _).symm, ?_, rfl⟩
    rw [arraySize_pooled hle]
    exact (Int.add_zero _).symm
  · rw [if_neg fun hboth => hle hboth.2] at hfree
    cases hfree
    refine ⟨rfl, (UInt32.sub_zero _).symm, ?_, rfl⟩
    rw [arraySize_malloced hsize hle]
    rfl

/-- A block that is handed out apart from the others, with room for its header. -/
theorem Kept.handOut (hk : Kept s) {a : Addr} {r : Request}
    (hnew : a ∉ s.heap.held (starts s.live)) (hvalid : h'.Valid (insert a (starts s.live)))
    (hcells : ∀ b ∈ s.heap.held (starts s.live), h'.cells b = s.heap.cells b)
    (hlength : ∀ size, r = .pointers size → 1 ≤ size ∧ (h'.cells a).length = size) :
    Kept ⟨⟨h', ⟨a.add r.header, r⟩ :: s.live⟩, s.freed⟩ := by
  have hstart : Live.start ⟨a.add r.header, r⟩ = a := Addr.sub_add a r.header
  refine ⟨?_, ?_, ?_, ?_⟩
  · rw [starts_cons, hstart]
    exact hvalid
  · refine List.nodup_cons.mpr ⟨?_, hk.nodup⟩
    intro hm
    obtain ⟨e', he', heq⟩ := List.mem_map.mp hm
    exact hnew (Or.inl ⟨e', he', heq.trans hstart⟩)
  · intro e' he'
    cases List.mem_cons.mp he' with
    | inl heq => rw [heq, hstart]
    | inr hmem => exact hk.header e' hmem
  · intro e' he'
    cases List.mem_cons.mp he' with
    | inl heq =>
      rw [heq, hstart]
      exact hlength
    | inr hmem =>
      rw [hcells _ (Or.inl ⟨e', hmem, rfl⟩)]
      exact hk.length e' hmem

/-- A block that is given back leaves the others where they are. -/
theorem Kept.giveBack (hk : Kept s) (he : e ∈ s.live) (hvalid : h'.Valid (starts s.live \ {e.start}))
    (hcells : h'.cells = s.heap.cells) (freed : List Live) :
    Kept ⟨⟨h', s.live.erase e⟩, freed⟩ := by
  refine ⟨?_, ?_, ?_, ?_⟩
  · rw [starts_erase hk.nodup he]
    exact hvalid
  · exact hk.nodup.sublist (List.erase_sublist.map Live.start)
  · intro e' he'
    exact hk.header e' (List.mem_of_mem_erase he')
  · intro e' he'
    rw [hcells]
    exact hk.length e' (List.mem_of_mem_erase he')

/-- One call keeps the blocks apart. -/
theorem Step.kept (hstep : Step s s') (hk : Kept s) : Kept s' := by
  cases hstep with
  | @allocTX size p h halloc =>
    obtain ⟨h0, hlt⟩ := allocTX_size halloc
    obtain ⟨a, h', ha, hnew, hvalid, -, hcells⟩ := allocTX_spec hk.valid h0 hlt
    cases halloc.symm.trans ha
    refine hk.handOut (r := .bytes size) hnew hvalid hcells ?_
    intro n hn
    cases hn
  | @freeTX size p hlive =>
    have hheader : p = (Live.start ⟨p, .bytes size⟩).add 1 := hk.header _ hlive
    obtain ⟨hvalid, hcells, -⟩ := freeTX_spec hk.valid ⟨_, hlive, rfl⟩
    rw [← hheader] at hvalid hcells
    exact hk.giveBack hlive hvalid hcells _
  | @allocPtrs size p h hsize halloc =>
    have hlt := allocPtrs_size hsize halloc
    obtain ⟨a, h', ha, hnew, hvalid, hlength, -, hcells⟩ := allocPtrs_spec hk.valid hsize hlt
    cases halloc.symm.trans ha
    refine hk.handOut (r := .pointers size) hnew hvalid hcells ?_
    intro n hn
    cases hn
    exact ⟨hsize, hlength⟩
  | @freePtrs size p h hlive hfree =>
    have hheader : p = (Live.start ⟨p, .pointers size⟩).add 8 := hk.header _ hlive
    obtain ⟨h1, hlength⟩ := hk.length _ hlive size rfl
    obtain ⟨h', hh', hvalid, hcells, -⟩ := freePtrs_spec hk.valid ⟨_, hlive, rfl⟩ (by rwa [hlength])
    rw [← hheader] at hh'
    cases hfree.symm.trans hh'
    exact hk.giveBack hlive hvalid hcells _
  | write cells hkeep =>
    have hsame : Same s.heap { s.heap with cells := cells } := ⟨rfl, rfl, rfl⟩
    refine ⟨hsame.valid hk.valid, hk.nodup, hk.header, ?_⟩
    intro e he size hsize
    obtain ⟨h1, hlength⟩ := hk.length e he size hsize
    have htag := hkeep e he
    simp only [Live.tag, hsize, Option.some.injEq] at htag
    exact ⟨h1, htag.trans hlength⟩

theorem Booked.take (hb : Booked s) (ha : Added s.heap.counters h'.counters e.request) :
    Booked ⟨⟨h', e :: s.live⟩, s.freed⟩ := by
  refine ⟨?_, ?_, ?_, ?_⟩
  · rw [ha.ptrsNumber, hb.ptrsNumber, total_cons]
    push_cast
    ring
  · rw [ha.txNumber, hb.txNumber, total_cons, Nat.add_comm, UInt32.ofNat_add]
  · rw [ha.ptrsSize, hb.ptrsSize, total_cons]
    push_cast
    ring
  · rw [ha.txSize, hb.txSize, total_cons, ← UInt32.ofNat_add]
    congr 1
    ring

/-- What was freed stays in the sizes: a buffer once, an array twice. -/
theorem Booked.giveBack (hb : Booked s) (he : e ∈ s.live)
    (hr : Removed s.heap.counters h'.counters e.request) :
    Booked ⟨⟨h', s.live.erase e⟩, e :: s.freed⟩ := by
  refine ⟨?_, ?_, ?_, ?_⟩
  · rw [hr.ptrsNumber, hb.ptrsNumber, total_erase arrays he]
    push_cast
    ring
  · rw [hr.txNumber, hb.txNumber, total_erase buffers he, Nat.add_comm, UInt32.ofNat_add]
    exact UInt32.add_sub_cancel _ _
  · rw [hr.ptrsSize, hb.ptrsSize, total_erase arraySize he, total_cons]
    push_cast
    ring
  · rw [hr.txSize, hb.txSize, total_erase bufferSize he, total_cons]
    congr 1
    ring

theorem Step.booked (hstep : Step s s') (hk : Kept s) (hb : Booked s) : Booked s' := by
  cases hstep with
  | allocTX halloc => exact hb.take (allocTX_added halloc)
  | freeTX hlive => exact hb.giveBack hlive (freeTX_removed _ _ _)
  | allocPtrs hsize halloc => exact hb.take (allocPtrs_added hsize halloc)
  | freePtrs hlive hfree =>
    obtain ⟨h1, hlength⟩ := hk.length _ hlive _ rfl
    exact hb.giveBack hlive (freePtrs_removed h1 hlength hfree)
  | write cells hkeep => exact ⟨hb.ptrsNumber, hb.txNumber, hb.ptrsSize, hb.txSize⟩

theorem Reachable.booked (hr : Reachable s) : Kept s ∧ Booked s := by
  induction hr with
  | refl =>
    refine ⟨⟨?_, List.nodup_nil, ?_, ?_⟩, rfl, rfl, rfl, rfl⟩
    · simpa [Ledger.start, Client.start, starts] using Heap.start_valid
    · intro e he
      cases he
    · intro e he
      cases he
  | tail _ hstep ih => exact ⟨hstep.kept ih.1, hstep.booked ih.1 ih.2⟩

/-- A 32-bit counter that holds `n + k` tells `n`. -/
theorem ofNat_add_eq_iff (n k : Nat) :
    (UInt32.ofNat (n + k)).toNat = n ↔ n < 2 ^ 32 ∧ 2 ^ 32 ∣ k := by
  rw [UInt32.toNat_ofNat']
  omega

theorem asLongLong_eq_iff (n k : Nat) :
    asLongLong (n + 2 * k) = n ↔ n < 2 ^ 63 ∧ 2 ^ 63 ∣ k := by
  rw [asLongLong, BitVec.toInt_ofInt, Int.bmod_def]
  omega

theorem Booked.right_iff (hb : Booked s) : Right s ↔ Fits s ∧ Unseen s := by
  have hnumber : s.heap.counters.uniqueTXTotalNumber.toNat = total buffers s.live ↔
      total buffers s.live < 2 ^ 32 := by
    have hiff := ofNat_add_eq_iff (total buffers s.live) 0
    rw [hb.txNumber]
    exact hiff.trans (and_iff_left (Nat.dvd_zero _))
  have hptrs := asLongLong_eq_iff (total arraySize s.live) (total arraySize s.freed)
  have htx := ofNat_add_eq_iff (total bufferSize s.live) (total bufferSize s.freed)
  rw [← hb.ptrsSize] at hptrs
  rw [← hb.txSize] at htx
  constructor
  · intro hr
    have hp := hptrs.mp hr.ptrsSize
    have ht := htx.mp hr.txSize
    exact ⟨⟨hnumber.mp hr.txNumber, hp.1, ht.1⟩, hp.2, ht.2⟩
  · intro hboth
    obtain ⟨hf, hu⟩ := hboth
    exact ⟨hb.ptrsNumber, hnumber.mpr hf.txNumber, hptrs.mpr ⟨hf.ptrsSize, hu.ptrsSize⟩,
      htx.mpr ⟨hf.txSize, hu.txSize⟩⟩

theorem total_eq_zero {f : Request → Nat} (h : ∀ e ∈ es, f e.request = 0) : total f es = 0 := by
  refine List.sum_eq_zero ?_
  intro n hn
  obtain ⟨e, he, rfl⟩ := List.mem_map.mp hn
  exact h e he

theorem arraySize_eq_zero {r : Request} (h : r.pool ≠ none) : arraySize r = 0 := by
  cases r with
  | pointers size => exact if_neg h
  | bytes size => rfl
  | object T => rfl

theorem bufferSize_eq_zero {r : Request} (h : r.pool ≠ none) : bufferSize r = 0 := by
  cases r with
  | bytes size => exact if_neg h
  | pointers size => rfl
  | object T => rfl

/-- Blocks that went back to a pool were never in the sizes. -/
theorem unseen_of_pooled (h : ∀ e ∈ s.freed, e.request.pool ≠ none) : Unseen s := by
  refine ⟨?_, ?_⟩
  · rw [total_eq_zero fun e he => arraySize_eq_zero (h e he)]
    exact Nat.dvd_zero _
  · rw [total_eq_zero fun e he => bufferSize_eq_zero (h e he)]
    exact Nat.dvd_zero _

/-- After any calls the counters tell what is in use exactly where it fits them and the sizes
that were freed without a pool do not show; those never do while all that is freed goes back
to a pool. -/
theorem counters_right_iff (s : Ledger) (hr : Reachable s) :
    (Right s ↔ Fits s ∧ Unseen s) ∧
      ((∀ e ∈ s.freed, e.request.pool ≠ none) → (Right s ↔ Fits s)) := by
  have hiff := hr.booked.2.right_iff
  refine ⟨hiff, ?_⟩
  intro hpooled
  rw [hiff]
  exact and_iff_left (unseen_of_pooled hpooled)

/-- An array of 5 pointers is freed, one of 13 is in use. -/
theorem counters_right_iff_freed : ∃ s, Reachable s ∧ s.freed.length = 1 ∧ s.live.length = 1 ∧
    Right s := by
  have h5 : (1 : Int) ≤ 5 := by decide
  have h13 : (1 : Int) ≤ 13 := by decide
  obtain ⟨a, h, ha, -, hv, hl, -⟩ := allocPtrs_spec Heap.start_valid h5 (by decide)
  obtain ⟨h', hh', hv', -⟩ := freePtrs_spec hv (Set.mem_insert a ∅) (by rwa [hl])
  obtain ⟨b, h'', hb, -⟩ := allocPtrs_spec hv' h13 (by decide)
  have hone : Reachable ⟨⟨h, [⟨a.add 8, .pointers 5⟩]⟩, []⟩ := .single (.allocPtrs h5 ha)
  have htwo := hone.tail (.freePtrs (List.mem_cons_self ..) hh')
  have hthree := htwo.tail (.allocPtrs h13 hb)
  rw [List.erase_cons_head] at hthree
  have hpooled : ∀ e ∈ [(⟨a.add 8, .pointers 5⟩ : Live)], e.request.pool ≠ none := by
    intro e he
    have hpool : Request.pool (.pointers 5) ≠ none := by decide
    rw [List.mem_singleton.mp he]
    exact hpool
  have hright := (counters_right_iff _ hthree).2 hpooled
  have hnone : 0 < 2 ^ 32 := by decide
  have hone : 112 < 2 ^ 63 := by decide
  exact ⟨_, hthree, rfl, rfl, hright.mpr ⟨hnone, hone, hnone⟩⟩

/-- Once an array of 13 pointers and a buffer of 11 bytes are freed, nothing is in use, but
UniquePtrsTotalSize is twice the size of the one and UniqueTXTotalSize the size of the other. -/
theorem freed_remain : ∃ s, Reachable s ∧ s.live = [] ∧
    s.heap.counters.uniquePtrsTotalSize = 224 ∧ s.heap.counters.uniqueTXTotalSize = 12 ∧
      ¬Right s := by
  have h13 : (1 : Int) ≤ 13 := by decide
  have h11 : (0 : Int) ≤ 11 := by decide
  obtain ⟨a, h, ha, -, hv, hl, -⟩ := allocPtrs_spec Heap.start_valid h13 (by decide)
  obtain ⟨h', hh', hv', -⟩ := freePtrs_spec hv (Set.mem_insert a ∅) (by rwa [hl])
  obtain ⟨b, h'', hb, -⟩ := allocTX_spec hv' h11 (by decide)
  have hone : Reachable ⟨⟨h, [⟨a.add 8, .pointers 13⟩]⟩, []⟩ := .single (.allocPtrs h13 ha)
  have htwo := hone.tail (.freePtrs (List.mem_cons_self ..) hh')
  have hthree := htwo.tail (.allocTX hb)
  have hfour := hthree.tail (.freeTX (List.mem_cons_self ..))
  rw [List.erase_cons_head, List.erase_cons_head] at hfour
  have hbooked := (Reachable.booked hfour).2
  have hsize : (freeTX h'' (b.add 1)).counters.uniqueTXTotalSize = 12 := hbooked.txSize
  refine ⟨_, hfour, rfl, hbooked.ptrsSize, hsize, ?_⟩
  intro hright
  have htotal : (freeTX h'' (b.add 1)).counters.uniqueTXTotalSize.toNat = 0 := hright.txSize
  rw [hsize] at htotal
  exact absurd htotal (by decide)

end Blockparser.Accounting
