import Blockparser.Decode

/-! A transaction with upstream data: every input that is no generation input takes
its output out of the store, and the outputs of the transaction go in. -/
namespace Blockparser.Upstream
open Bytes Trace FreeList MemoryManager Blockparser.Parser Cursor Format Utxo Store Decode

/-- The store holds the ledger, and the cells of `K` keep what `K` says: each is held
besides, the key of an entry, or free in the hash pool. -/
structure Kept (loc : Role → Addr) (X : Set Addr) (K : Addr → Hash256 → Prop) (L : TXOs)
    (s : State) : Prop where
  holding : Holding loc X L s.heap
  keys : ∀ t, L t ≠ none → K (loc (.key t)) t
  keep : ∀ a v, K a v → s.heap.cells a = .hash256 v ∧
    (a ∈ X ∨ (∃ t, L t ≠ none ∧ a = loc (.key t)) ∨ a ∈ s.heap.hashGarbage)

def mapEntry (loc : Role → Addr) (t : Hash256) : Addr × Addr := (loc (.key t), loc (.txo t))

/-- gTXOMap has the entries of the ledger, behind those of `new`. -/
def Mapped (new : List (Addr × Addr)) (loc : Role → Addr) (L : TXOs) (s : State) : Prop :=
  ∃ ts : List Hash256, ts.Nodup ∧ (∀ t, t ∈ ts ↔ L t ≠ none) ∧
    s.gTXOMap = new ++ ts.map (mapEntry loc)

structure Rep (loc : Role → Addr) (X : Set Addr) (K : Addr → Hash256 → Prop) (L : TXOs)
    (s : State) : Prop extends Kept loc X K L s where
  mapped : Mapped [] loc L s

variable {loc : Role → Addr} {X : Set Addr} {K : Addr → Hash256 → Prop} {L : TXOs} {s : State}
  {t : Hash256} {i : Nat} {o : TxOutput} {e : Entry TxOutput} {env : Env} {m : Memory} {p : Ptr}
  {h : HashPtr} {arg : HashArg}

theorem Kept.view (hs : Kept loc X K L s) {a : Addr} {v : Hash256} (hK : K a v) :
    (s.heap.cells a).hash = v := by
  rw [(hs.keep a v hK).1]
  rfl

theorem Kept.logged (hs : Kept loc X K L s) (cs : List Call) (vs : List (Addr → Hash256)) :
    Kept loc X K L { s with calls := cs, views := vs } :=
  ⟨hs.holding, hs.keys, hs.keep⟩

theorem rep_watches : Watches K (Rep loc X K L) where
  emit _ cs vs hs := ⟨hs.toKept.logged cs vs, hs.mapped⟩
  view _ hs _ _ := hs.toKept.view

theorem key_mem (he : L t = some e) : Role.key t ∈ roles L := by simp [roles, Role.Filled, he]
theorem txo_mem (he : L t = some e) : Role.txo t ∈ roles L := by simp [roles, Role.Filled, he]
theorem ptrs_mem (he : L t = some e) : Role.ptrs t ∈ roles L := by simp [roles, Role.Filled, he]

/-- The cells of `K` are none of the blocks a role other than a key has. -/
theorem Kept.ne_loc (hs : Kept loc X K L s) {a : Addr} {v : Hash256} (hK : K a v) {r : Role}
    (hr : r ∈ roles L) (hk : ∀ t, r ≠ .key t) : a ≠ loc r := by
  intro he
  subst he
  rcases (hs.keep _ v hK).2 with hX | ⟨t, ht, he⟩ | hg
  · exact hs.holding.apart r hr hX
  · exact hk t (hs.holding.inj hr (show Role.key t ∈ roles L from ht) he)
  · exact hs.holding.valid.owns.free_dead .uint256 _ hg (hs.holding.mem_live hr)

/-- The cells of `K` are held: an allocation elsewhere leaves them alone. -/
theorem Kept.held (hs : Kept loc X K L s) {a : Addr} {v : Hash256} (hK : K a v) :
    a ∈ s.heap.held (loc '' roles L ∪ X) := by
  rcases (hs.keep _ v hK).2 with hX | ⟨t, ht, rfl⟩ | hg
  · exact Or.inl (Or.inr hX)
  · exact Or.inl (hs.holding.mem_live (show Role.key t ∈ roles L from ht))
  · exact Or.inr hg

theorem Kept.key_hash (hs : Kept loc X K L s) (ht : L t ≠ none) :
    (s.heap.cells (loc (.key t))).hash = t := hs.view (hs.keys t ht)

/-- A block handed out is held besides, and what was kept stays kept. -/
theorem Kept.alloc (hs : Kept loc X K L s) {b : Addr} {s' : State}
    (hn : b ∉ s.heap.held (loc '' roles L ∪ X))
    (hv : s'.heap.Valid (insert b (loc '' roles L ∪ X)))
    (hg : s'.heap.hashGarbage = s.heap.hashGarbage)
    (hc : ∀ c ∈ s.heap.held (loc '' roles L ∪ X), s'.heap.cells c = s.heap.cells c) :
    Kept loc (insert b X) K L s' where
  holding := by
    refine ⟨hs.holding.inj, ?_, ?_, ?_⟩
    · intro r hr hX
      cases hX with
      | inl he => exact hn (Or.inl (Or.inl ⟨r, hr, he⟩))
      | inr hX => exact hs.holding.apart r hr hX
    · rwa [Set.union_insert]
    · intro r hr
      rw [hc _ (Or.inl (hs.holding.mem_live hr))]
      exact hs.holding.shows r hr
  keys := hs.keys
  keep := by
    intro a v hK
    obtain ⟨hcell, hwhere⟩ := hs.keep a v hK
    rw [hc a (hs.held hK), hg]
    exact ⟨hcell, hwhere.imp_left Or.inr⟩

/-- A block just handed out is no cell of `K`. -/
theorem Kept.ne_alloc (hs : Kept loc X K L s) {b : Addr}
    (hn : b ∉ s.heap.held (loc '' roles L ∪ X)) {a : Addr} {v : Hash256} (hK : K a v) : a ≠ b := by
  intro he
  subst he
  exact hn (hs.held hK)

/-- A write to a block held besides that is no cell of `K`. -/
theorem Kept.write (hs : Kept loc X K L s) {b : Addr} (hb : b ∈ X) (hK : ∀ a v, K a v → a ≠ b)
    (c : Cell) : Kept loc X K L { s with heap := s.heap.write b c } where
  holding := by
    refine ⟨hs.holding.inj, hs.holding.apart, hs.holding.valid.write b c, ?_⟩
    intro r hr
    have hne : loc r ≠ b := fun he => hs.holding.apart r hr (he ▸ hb)
    rw [Heap.write_of_ne _ _ hne]
    exact hs.holding.shows r hr
  keys := hs.keys
  keep := by
    intro a v hKa
    rw [Heap.write_of_ne _ _ (hK a v hKa)]
    exact hs.keep a v hKa

/-- A block held besides that is no cell of `K` need not be held. -/
theorem Kept.drop {b : Addr} (hs : Kept loc (insert b X) K L s) (hK : ∀ a v, K a v → a ≠ b) :
    Kept loc X K L s where
  holding := hs.holding.shrink (Set.subset_insert b X)
  keys := hs.keys
  keep := by
    intro a v hKa
    obtain ⟨hcell, hwhere⟩ := hs.keep a v hKa
    refine ⟨hcell, ?_⟩
    cases hwhere with
    | inl hX => exact Or.inl (hX.resolve_left (hK a v hKa))
    | inr hu => exact Or.inr hu

/-- The look-up in gTXOMap finds the entry of the ledger. -/
theorem Rep.findTXO (hs : Rep loc X K L s) (t : Hash256) :
    findTXO s t = if L t = none then none else some (mapEntry loc t) := by
  obtain ⟨ts, hnd, hmem, hmap⟩ := hs.mapped
  rw [Parser.findTXO, hmap, List.nil_append, List.find?_map]
  by_cases ht : L t = none
  · rw [if_pos ht, Option.map_eq_none_iff, List.find?_eq_none]
    intro u hu
    have hul := (hmem u).mp hu
    have hut : u ≠ t := by
      intro he
      subst he
      exact hul ht
    simp [mapEntry, hs.toKept.key_hash hul, hut]
  · rw [if_neg ht, Option.map_eq_some_iff]
    refine ⟨t, ?_, rfl⟩
    rw [List.find?_eq_some_iff_append]
    obtain ⟨pre, post, hts⟩ := List.append_of_mem ((hmem t).mpr ht)
    refine ⟨by simp [mapEntry, hs.toKept.key_hash ht], pre, post, hts, ?_⟩
    intro u hu
    have hul := (hmem u).mp (by rw [hts]; exact List.mem_append_left _ hu)
    have hut : u ≠ t := by
      intro he
      subst he
      rw [hts, List.nodup_append] at hnd
      exact hnd.2.2 u hu u (by simp) rfl
    simp [mapEntry, hs.toKept.key_hash hul, hut]

theorem eraseP_eq_erase {ts : List Hash256} {q : Hash256 → Bool}
    (hq : ∀ u ∈ ts, q u = true ↔ u = t) : ts.eraseP q = ts.erase t := by
  induction ts with
  | nil => rfl
  | cons u us ih =>
    have hu := hq u (by simp)
    have hus := ih fun w hw => hq w (by simp [hw])
    by_cases hut : u = t
    · rw [List.eraseP_cons_of_pos (hu.mpr hut), hut, List.erase_cons_head]
    · have hqu : ¬q u = true := fun hq => hut (hu.mp hq)
      rw [List.eraseP_cons_of_neg hqu, List.erase_cons_tail (fun hq => hut (beq_iff_eq.mp hq)), hus]

theorem countNonNullPtrs_eq_zero (h : Heap) (a : Addr) :
    countNonNullPtrs h (a.add 8) = 0 ↔
      ∀ i : Nat, (i : Int) < (h.cells a).length → (h.cells a).slots i = none := by
  simp only [countNonNullPtrs, Addr.sub_add, List.length_eq_zero_iff, List.filter_eq_nil_iff,
    List.mem_range, Option.not_isSome_iff_eq_none]
  constructor
  · intro h i hi
    exact h i (by omega)
  · intro h i hi
    exact h i (by omega)

/-- What the blocks of an entry hold, as the code reads them. -/
structure Slot (loc : Role → Addr) (L : TXOs) (s : State) (t : Hash256) (i : Nat)
    (e : Entry TxOutput) (o : TxOutput) : Prop where
  entry : L t = some e
  unspent : L.unspent t i = some o
  lt : i < e.slots.length
  chunk : (s.heap.cells (loc (.txo t))).mRawData = (loc (.ptrs t)).add 8
  length : (s.heap.cells (loc (.ptrs t))).length = e.slots.length
  slots : ∀ j, j < e.slots.length → (s.heap.cells (loc (.ptrs t))).slots j =
    if (L.unspent t j).isSome then some ((loc (.raw t j)).add 1) else none
  data : (s.heap.cells (loc (.raw t i))).data = o.encode

theorem Kept.slot (hs : Kept loc X K L s) (hL : L.Complete) (ho : L.unspent t i = some o) :
    ∃ e, Slot loc L s t i e o := by
  obtain ⟨e, he, hslot⟩ := Ledger.unspent_iff.mp ho
  have hfull := (hL t e he).1
  obtain ⟨hlen, hslots⟩ := hs.holding.shows _ (ptrs_mem he) e he
  have hchunk : s.heap.cells (loc (.txo t)) = .txChunk ((loc (.ptrs t)).add 8) :=
    hs.holding.shows _ (txo_mem he)
  exact ⟨e, he, ho, (List.getElem?_eq_some_iff.mp hslot).1, by rw [hchunk]; rfl,
    by rw [hlen, hfull], hslots, hs.holding.shows (.raw t i) ⟨o, ho⟩ o ho⟩

/-- The heap once an output has been handed to the callback and freed. -/
def afterFree (loc : Role → Addr) (h : Heap) (t : Hash256) (i : Nat) : Heap :=
  (freeTX h ((loc (.raw t i)).add 1)).write (loc (.ptrs t))
    (.ptrs (h.cells (loc (.ptrs t))).length
      (Function.update (h.cells (loc (.ptrs t))).slots i none))

/-- The state then, with the edge issued. -/
def afterEdge (loc : Role → Addr) (s : State) (t : Hash256) (i : Nat) (c : Call) : State :=
  { s with
    heap := afterFree loc s.heap t i
    calls := s.calls ++ [c]
    views := s.views ++ [fun a => (s.heap.cells a).hash] }

theorem Kept.afterFree_spec (hs : Kept loc X K L s) (hsl : Slot loc L s t i e o) :
    (afterFree loc s.heap t i).Valid ((loc '' roles L ∪ X) \ {loc (.raw t i)}) ∧
    (afterFree loc s.heap t i).cells = Function.update s.heap.cells (loc (.ptrs t))
      (.ptrs (s.heap.cells (loc (.ptrs t))).length
        (Function.update (s.heap.cells (loc (.ptrs t))).slots i none)) ∧
    (afterFree loc s.heap t i).hashGarbage = s.heap.hashGarbage := by
  obtain ⟨hv, hc, hg⟩ := freeTX_spec hs.holding.valid
    (hs.holding.mem_live (show Role.raw t i ∈ roles L from ⟨o, hsl.unspent⟩))
  refine ⟨hv.write _ _, ?_, hg⟩
  rw [afterFree, Heap.write, hc]

/-- The spending branch, up to the count of what is left. -/
theorem spendUpstream_eq (hs : Kept loc X K L s) (hsl : Slot loc L s t i e o) {q : Ptr}
    (ht : Memory.hash m q = t) (harg : h.arg s.heap = arg) (n : Nat) (ip : Ptr) (isz : Nat) :
    spendUpstream m q (loc (.key t)) (loc (.txo t)) i h n ip isz s =
      onlyIf (countNonNullPtrs (afterFree loc s.heap t i) ((loc (.ptrs t)).add 8) == 0)
        (dropUpstream t (loc (.key t)) (loc (.txo t)))
        (afterEdge loc s t i (.edge o.value.toNat ⟨none, some t⟩ i o.script o.script.length arg n
          (read m ip isz) isz)) := by
  have hlt : (i : Int) < (s.heap.cells (loc (.ptrs t))).length := by
    rw [hsl.length]
    exact_mod_cast hsl.lt
  have hslot : loadSlot s.heap ((loc (.ptrs t)).add 8) i =
      some (some ((loc (.raw t i)).add 1)) := by
    rw [loadSlot, Addr.sub_add]
    simp [hlt, hsl.slots i hsl.lt, hsl.unspent]
  have hcells := (freeTX_spec hs.holding.valid
    (hs.holding.mem_live (show Role.raw t i ∈ roles L from ⟨o, hsl.unspent⟩))).2.1
  have hstore : storeSlot (freeTX s.heap ((loc (.raw t i)).add 1)) ((loc (.ptrs t)).add 8) i none =
      some (afterFree loc s.heap t i) := by
    rw [storeSlot, Addr.sub_add, hcells]
    simp [hlt, afterFree]
  have hbuf : Holds (bufferMemory s.heap ((loc (.raw t i)).add 1)) 0 o.encode := by
    rw [bufferMemory, Addr.sub_add, hsl.data]
    exact read_ofList _ _
  obtain ⟨hvalue, hsize, hscript, -⟩ := output_of_holds hbuf
  have hout : parseOutput false true (bufferMemory s.heap ((loc (.raw t i)).add 1)) 0
      (.ofBytes m q) i h n (read m ip isz) isz s =
      .ok (outputNext (bufferMemory s.heap ((loc (.raw t i)).add 1)) 0)
        { s with
          calls := s.calls ++ [.edge
            (load (bufferMemory s.heap ((loc (.raw t i)).add 1)) 0 8)
            ⟨none, some (Memory.hash m q)⟩ i
            (read (bufferMemory s.heap ((loc (.raw t i)).add 1))
              (loadVarInt (bufferMemory s.heap ((loc (.raw t i)).add 1)) (0 + 8)).2
              (loadVarInt (bufferMemory s.heap ((loc (.raw t i)).add 1)) (0 + 8)).1)
            (loadVarInt (bufferMemory s.heap ((loc (.raw t i)).add 1)) (0 + 8)).1
            (h.arg s.heap) n (read m ip isz) isz]
          views := s.views ++ [fun a => (s.heap.cells a).hash] } := rfl
  rw [hvalue, hsize, hscript, ht, harg] at hout
  simp only [spendUpstream, getState, run_bind, hsl.chunk, hslot, defined, run_pure, hout, hstore,
    setHeap, ht]
  rfl

/-- The count of what is left is zero exactly when the entry dies. -/
theorem countNonNull_afterFree (hs : Kept loc X K L s) (hsl : Slot loc L s t i e o) :
    countNonNullPtrs (afterFree loc s.heap t i) ((loc (.ptrs t)).add 8) = 0 ↔
      (e.spend i).live = false := by
  have hun : ∀ j, j < e.slots.length → ((Function.update
      (s.heap.cells (loc (.ptrs t))).slots i none) j = none ↔
        (e.spend i).slots[j]?.join = none) := by
    intro j hj
    by_cases hji : j = i
    · subst hji
      simp [Entry.spend, hj]
    · rw [Function.update_of_ne hji, hsl.slots j hj, Ledger.unspent, hsl.entry]
      simp only [Option.bind_some, Entry.spend, List.getElem?_set_ne (Ne.symm hji)]
      by_cases hx : e.slots[j]?.join = none
      · simp [hx]
      · obtain ⟨o', ho'⟩ := Option.ne_none_iff_exists'.mp hx
        simp [ho']
  rw [countNonNullPtrs_eq_zero, (hs.afterFree_spec hsl).2.1, Function.update_self]
  simp only [Cell.length_ptrs, Cell.slots_ptrs, hsl.length, Nat.cast_lt]
  rw [← Bool.not_eq_true, Entry.live_iff]
  constructor
  · rintro hall ⟨j, o', hj⟩
    have hjl : j < e.slots.length := by
      simpa [Entry.spend] using (List.getElem?_eq_some_iff.mp hj).1
    have := (hun j hjl).mp (hall j hjl)
    rw [hj] at this
    cases this
  · intro hno j hj
    rw [hun j hj]
    by_contra hne
    obtain ⟨o', ho'⟩ := Option.ne_none_iff_exists'.mp hne
    exact hno ⟨j, o', Option.join_eq_some_iff.mp ho'⟩

/-- Cells of `K` do not change while a slot is freed. -/
theorem Kept.afterFree_cells (hs : Kept loc X K L s) (hsl : Slot loc L s t i e o) {a : Addr}
    {v : Hash256} (hK : K a v) : (afterFree loc s.heap t i).cells a = .hash256 v := by
  rw [(hs.afterFree_spec hsl).2.1,
    Function.update_of_ne (hs.ne_loc hK (ptrs_mem hsl.entry) (by simp))]
  exact (hs.keep a v hK).1

theorem Rep.afterEdge_live (hs : Rep loc X K L s) (hsl : Slot loc L s t i e o)
    (hlive : (e.spend i).live = true) (c : Call) :
    Rep loc X K (L.spend t i) (afterEdge loc s t i c) := by
  obtain ⟨hv, hc, hg⟩ := hs.toKept.afterFree_spec hsl
  have hdom : ∀ u, L.spend t i u ≠ none ↔ L u ≠ none := by
    intro u
    by_cases hu : u = t
    · subst hu
      simp [Ledger.spend_self, hsl.entry, hlive]
    · rw [Ledger.spend_of_ne hu]
  refine ⟨⟨hs.holding.spend hsl.entry hsl.unspent hlive hc hv, ?_, ?_⟩, ?_⟩
  · intro u hu
    exact hs.keys u ((hdom u).mp hu)
  · intro a v hK
    refine ⟨hs.toKept.afterFree_cells hsl hK, ?_⟩
    rcases (hs.keep a v hK).2 with hX | ⟨u, hu, ha⟩ | hgm
    · exact Or.inl hX
    · exact Or.inr (Or.inl ⟨u, (hdom u).mpr hu, ha⟩)
    · refine Or.inr (Or.inr ?_)
      show a ∈ (afterFree loc s.heap t i).hashGarbage
      rwa [hg]
  · obtain ⟨ts, hnd, hmem, hmap⟩ := hs.mapped
    exact ⟨ts, hnd, fun u => (hmem u).trans (hdom u).symm, hmap⟩

/-- The last output of an entry: dropUpstream gives all its blocks back. -/
theorem Rep.dropUpstream_run (hs : Rep loc X K L s) (hsl : Slot loc L s t i e o)
    (hlive : (e.spend i).live = false) (c : Call) :
    ∃ s', dropUpstream t (loc (.key t)) (loc (.txo t)) (afterEdge loc s t i c) = .ok () s' ∧
      Rep loc X K (L.spend t i) s' ∧ s'.calls = (afterEdge loc s t i c).calls ∧
      s'.views = (afterEdge loc s t i c).views ∧
      s'.heap.hashGarbage = loc (.key t) :: s.heap.hashGarbage := by
  obtain ⟨hv, hc, hg⟩ := hs.toKept.afterFree_spec hsl
  have hh := hs.holding
  have hkey := key_mem hsl.entry
  have htxo := txo_mem hsl.entry
  have hptrs := ptrs_mem hsl.entry
  have hraw : Role.raw t i ∈ roles L := ⟨o, hsl.unspent⟩
  have hmem : ∀ {r q : Role}, r ∈ roles L → q ∈ roles L → r ≠ q → loc r ≠ loc q :=
    fun hr hq => hh.ne_loc hr hq
  have hchunk : ((afterFree loc s.heap t i).cells (loc (.txo t))).mRawData =
      (loc (.ptrs t)).add 8 := by
    rw [hc, Function.update_of_ne (hmem htxo hptrs (by simp))]
    exact hsl.chunk
  have hlen : 1 ≤ ((afterFree loc s.heap t i).cells (loc (.ptrs t))).length := by
    have hlt := hsl.lt
    rw [hc, Function.update_self, Cell.length_ptrs, hsl.length]
    omega
  obtain ⟨h₁, hfree, hv₁, hc₁, hg₁⟩ := freePtrs_spec hv
    ⟨hh.mem_live hptrs, hmem hptrs hraw (by simp)⟩ hlen
  have hv₂ := hv₁.free .txChunk (a := loc (.txo t))
    ⟨⟨hh.mem_live htxo, hmem htxo hraw (by simp)⟩, hmem htxo hptrs (by simp)⟩
  have hv₃ := hv₂.free .uint256 (a := loc (.key t))
    ⟨⟨⟨hh.mem_live hkey, hmem hkey hraw (by simp)⟩, hmem hkey hptrs (by simp)⟩,
      hmem hkey htxo (by simp)⟩
  have hcells : ((h₁.free .txChunk (loc (.txo t))).free .uint256 (loc (.key t))).cells =
      (afterFree loc s.heap t i).cells := hc₁
  have hgarb : ((h₁.free .txChunk (loc (.txo t))).free .uint256 (loc (.key t))).hashGarbage =
      loc (.key t) :: s.heap.hashGarbage := by
    rw [Heap.free_hashGarbage_self, Heap.free_hashGarbage _ (by simp), hg₁, hg]
  refine ⟨{ afterEdge loc s t i c with
    heap := (h₁.free .txChunk (loc (.txo t))).free .uint256 (loc (.key t))
    gTXOMap := s.gTXOMap.eraseP fun e => ((afterFree loc s.heap t i).cells e.1).hash = t },
    ?_, ⟨⟨?_, ?_, ?_⟩, ?_⟩, rfl, rfl, hgarb⟩
  · simp only [dropUpstream, getState, run_bind, setMap, setHeap]
    rw [show (afterEdge loc s t i c).heap = afterFree loc s.heap t i from rfl, hchunk, hfree]
    rfl
  · refine hh.drop hsl.entry hlive ?_ ?_
    · intro r hr hrt
      rw [hcells, hc, Function.update_of_ne (hmem hr hptrs fun he => hrt (by rw [he]; rfl))]
    · refine hv₃.shrink ?_
      rintro a ⟨ha, hd⟩
      have hout : ∀ {r : Role}, r ∈ roles L → r.tx = t → a ≠ loc r :=
        fun hr hrt he => hd ⟨_, ⟨hr, hrt⟩, he.symm⟩
      exact ⟨⟨⟨⟨ha, hout hraw rfl⟩, hout hptrs rfl⟩, hout htxo rfl⟩, hout hkey rfl⟩
  · intro u hu
    exact hs.keys u (Ledger.spend_subset hu)
  · intro a v hK
    refine ⟨?_, ?_⟩
    · rw [hcells]
      exact hs.toKept.afterFree_cells hsl hK
    · rw [hgarb]
      rcases (hs.keep a v hK).2 with hX | ⟨u, hu, rfl⟩ | hgm
      · exact Or.inl hX
      · by_cases hut : u = t
        · subst hut
          exact Or.inr (Or.inr (List.mem_cons_self ..))
        · exact Or.inr (Or.inl ⟨u, by rwa [Ledger.spend_of_ne hut], rfl⟩)
      · exact Or.inr (Or.inr (List.mem_cons_of_mem _ hgm))
  · obtain ⟨ts, hnd, hmem', hmap⟩ := hs.mapped
    have hnone : L.spend t i t = none := by simp [Ledger.spend_self, hsl.entry, hlive]
    refine ⟨ts.erase t, hnd.erase t, ?_, ?_⟩
    · intro u
      rw [hnd.mem_erase_iff, hmem']
      by_cases hu : u = t
      · subst hu
        simp [hnone]
      · simp [hu, Ledger.spend_of_ne hu]
    · show List.eraseP _ s.gTXOMap = _
      rw [hmap, List.nil_append, List.nil_append, List.eraseP_map]
      congr 1
      refine eraseP_eq_erase ?_
      intro u hu
      have hK := hs.keys u ((hmem' u).mp hu)
      simp [mapEntry, hs.toKept.afterFree_cells hsl hK]

/-- An input's spend: the edge carries the output, which leaves the ledger. -/
theorem spendUpstream_runs (hL : L.Complete) (ho : L.unspent t i = some o) {q : Ptr}
    (ht : Memory.hash m q = t) (harg : ∀ s, Rep loc X K L s → h.arg s.heap = arg) (n : Nat)
    (ip : Ptr) (isz : Nat) :
    Runs (Logs K) (Rep loc X K L) (Rep loc X K (L.spend t i))
      (spendUpstream m q (loc (.key t)) (loc (.txo t)) i h n ip isz)
      [.edge o.value.toNat ⟨none, some t⟩ i o.script o.script.length arg n (read m ip isz) isz]
      () := by
  intro s hs
  obtain ⟨e, hsl⟩ := hs.toKept.slot hL ho
  rw [spendUpstream_eq hs.toKept hsl ht (harg s hs)]
  have hview : ∀ a v, K a v → (s.heap.cells a).hash = v := fun a v hK => hs.toKept.view hK
  have hcount := countNonNull_afterFree hs.toKept hsl
  cases hlive : (e.spend i).live with
  | true =>
    have hne : (countNonNullPtrs (afterFree loc s.heap t i) ((loc (.ptrs t)).add 8) == 0) = false := by
      simpa [hlive] using hcount
    rw [hne]
    refine ⟨_, rfl, hs.afterEdge_live hsl hlive _, rfl, ⟨_, rfl, rfl, ?_⟩, [], ?_, by simp⟩
    · intro f hf
      rw [List.mem_singleton.mp hf]
      exact hview
    · exact (hs.toKept.afterFree_spec hsl).2.2
  | false =>
    have heq : (countNonNullPtrs (afterFree loc s.heap t i) ((loc (.ptrs t)).add 8) == 0) = true := by
      simpa [hlive] using hcount
    rw [heq]
    obtain ⟨s', hr, hrep, hcalls, hviews, hgarb⟩ := hs.dropUpstream_run hsl hlive
      (.edge o.value.toNat ⟨none, some t⟩ i o.script o.script.length arg n (read m ip isz) isz)
    refine ⟨s', hr, hrep, hcalls, ⟨_, hviews, rfl, ?_⟩, [loc (.key t)], hgarb, ?_⟩
    · intro f hf
      rw [List.mem_singleton.mp hf]
      exact hview
    · intro d hd
      rw [List.mem_singleton.mp hd]
      exact ⟨t, hs.keys t (by simp [hsl.entry])⟩

/-- The edge of an input that spends the output it names. -/
def edgeCall (h : HashArg) (L : TXOs) (i : Nat) (x : TxInput) : List Call :=
  if x.prevHash = nullHash then []
  else match L.unspent x.prevHash x.prevIndex.toNat with
    | some o => [.edge o.value.toNat ⟨none, some x.prevHash⟩ x.prevIndex.toNat o.script
        o.script.length h i x.script x.script.length]
    | none => []

/-- A generation input, or one that names an unspent output. -/
def Spends (L : TXOs) (x : TxInput) : Prop :=
  x.prevHash = nullHash ∨ ∃ o, L.unspent x.prevHash x.prevIndex.toNat = some o

/-- The store during the inputs of a transaction. -/
def Full (loc : Role → Addr) (X : Set Addr) (K : Addr → Hash256 → Prop) (L : TXOs) (s : State) :
    Prop := Rep loc X K L s ∧ L.Complete

theorem full_watches : Watches K (Full loc X K L) where
  emit s cs vs hs := ⟨rep_watches.emit s cs vs hs.1, hs.2⟩
  view s hs := rep_watches.view s hs.1

theorem parseInput_runs (hneed : env.gNeedUpstream = true)
    (harg : ∀ L s, Rep loc X K L s → h.arg s.heap = arg) {x : TxInput}
    (hm : Holds m p x.encode) (hx : Spends L x) (i : Nat) :
    Runs (Logs K) (Full loc X K L) (Full loc X K (spendInput L x)) (parseInput env false m h i p)
      (inputCalls x (edgeCall arg L i x) p) (p + x.encode.length) := by
  obtain ⟨hhash, hidx, hsize, hscript, hnext⟩ := input_of_holds hm
  refine (emit_runs full_watches _).bind (logging K) ?_
  have hend := fun L' => emit_pure_runs (@full_watches loc X K L')
    (.endInput (inputNext m p)) (inputNext m p)
  rw [← hnext]
  by_cases hnull : x.prevHash = nullHash
  · -- a generation input: nothing is looked up
    have hspend : spendInput L x = L := by simp [spendInput, hnull]
    have hedge : edgeCall arg L i x = [] := by simp [edgeCall, hnull]
    have hfind : Runs (Logs K) (Full loc X K L) (Full loc X K L) (findUpstream env false m p) []
        none := by
      refine runs_of_quiet fun s hs => ⟨s, ?_, hs, rfl, rfl, rfl⟩
      simp [findUpstream, hneed, hhash, hnull]
    rw [hspend, hedge]
    exact hfind.bind (logging K) (hend L)
  · obtain ⟨o, ho⟩ := hx.resolve_left hnull
    have hspend : spendInput L x = L.spend x.prevHash x.prevIndex.toNat := by
      simp [spendInput, hnull]
    have hedge : edgeCall arg L i x = [.edge o.value.toNat ⟨none, some x.prevHash⟩
        x.prevIndex.toNat o.script o.script.length arg i x.script x.script.length] := by
      simp [edgeCall, hnull, ho]
    have hentry : L x.prevHash ≠ none := by
      obtain ⟨e, he, -⟩ := Ledger.unspent_iff.mp ho
      simp [he]
    have hfind : Runs (Logs K) (Full loc X K L) (Full loc X K L) (findUpstream env false m p) []
        (some (mapEntry loc x.prevHash)) := by
      refine runs_of_quiet fun s hs => ⟨s, ?_, hs, rfl, rfl, rfl⟩
      simp [findUpstream, hneed, hhash, hnull, getState, run_bind, hs.1.findTXO, hentry]
    have hsp : Runs (Logs K) (Full loc X K L) (Full loc X K (L.spend x.prevHash x.prevIndex.toNat))
        (spendUpstream m p (loc (.key x.prevHash)) (loc (.txo x.prevHash)) x.prevIndex.toNat h i
          (loadVarInt m (p + 36)).2 x.script.length) (edgeCall arg L i x) () := by
      intro s hs
      obtain ⟨s', hr, hrep, hlog⟩ := @spendUpstream_runs loc X K _ _ _ _ _ _ _ hs.2 ho _ hhash
        (harg L) i (loadVarInt m (p + 36)).2 x.script.length s hs.1
      rw [hscript] at hlog
      rw [hedge]
      exact ⟨s', hr, ⟨hrep, hs.2.spend _ _⟩, hlog⟩
    rw [← hsize, ← hidx] at hsp
    rw [hspend]
    refine hfind.bind (logging K) (v := []) (hsp.bind (logging K) ?_)
    rw [hidx]
    exact hend _

/-- The chunk of `t` is at `a` and has no pointer array yet, the key cell is `k`. -/
structure Chunked (loc : Role → Addr) (K : Addr → Hash256 → Prop) (L : TXOs) (k : Addr)
    (t : Hash256) (a : Addr) (s : State) : Prop extends Kept loc {a, k} K L s where
  key : K k t
  new : ∀ c v, K c v → c ≠ a

/-- A new entry of `t` stands before those of the ledger. -/
structure Opened (loc : Role → Addr) (K : Addr → Hash256 → Prop) (L : TXOs) (k : Addr)
    (t : Hash256) (a : Addr) (s : State) : Prop extends Chunked loc K L k t a s where
  mapped : Mapped [(k, a)] loc L s
  fresh : L t = none

theorem chunked_watches {k a : Addr} : Watches K (Chunked loc K L k t a) where
  emit _ cs vs hs := ⟨hs.toKept.logged cs vs, hs.key, hs.new⟩
  view _ hs _ _ := hs.toKept.view

theorem opened_watches {k a : Addr} : Watches K (Opened loc K L k t a) where
  emit s cs vs hs := ⟨chunked_watches.emit s cs vs hs.toChunked, hs.mapped, hs.fresh⟩
  view _ hs _ _ := hs.toKept.view

/-- newTXO hands out a chunk. It only adds to gTXOMap when no entry has the same hash. -/
theorem newTXO_runs (hneed : env.gNeedUpstream = true) {k : Addr} (hK : K k t)
    (hs : Kept loc {k} K L s) :
    ∃ a s', newTXO env false (.ofCell k) s = .ok (some a) s' ∧ Chunked loc K L k t a s' ∧
      ((∀ e ∈ s.gTXOMap, ∃ u, u ≠ t ∧ K e.1 u) → s'.gTXOMap = (k, a) :: s.gTXOMap) ∧
      Logs K [] s s' := by
  obtain ⟨hna, hv, hg, hc⟩ := hs.holding.valid.alloc_held (T := .txChunk) (by simp)
  have hkept : ∀ {a v}, K a v → (s.heap.alloc .txChunk).2.cells a = .hash256 v := fun hKa => by
    rw [hc _ (hs.held hKa)]
    exact (hs.keep _ _ hKa).1
  have hprog : newTXO env false (.ofCell k) s = .ok (some (s.heap.alloc .txChunk).1) { s with
      heap := (s.heap.alloc .txChunk).2
      gTXOMap :=
        if s.gTXOMap.any fun e => ((s.heap.alloc .txChunk).2.cells e.1).hash =
          ((s.heap.alloc .txChunk).2.cells k).hash
        then s.gTXOMap.map fun e => if ((s.heap.alloc .txChunk).2.cells e.1).hash =
          ((s.heap.alloc .txChunk).2.cells k).hash then (e.1, (s.heap.alloc .txChunk).1) else e
        else (k, (s.heap.alloc .txChunk).1) :: s.gTXOMap } := by
    unfold newTXO
    rw [hneed]
    rfl
  refine ⟨_, _, hprog, ⟨hs.alloc hna hv hg hc, hK, fun c v hKc => hs.ne_alloc hna hKc⟩, ?_,
    ⟨by simp, ⟨[], by simp, rfl, by simp⟩, [], hg, by simp⟩⟩
  intro hother
  refine if_neg ?_
  rw [List.any_eq_true]
  rintro ⟨e, he, hsame⟩
  obtain ⟨u, hu, hKu⟩ := hother e he
  simp [hkept hKu, hkept hK, hu] at hsame

theorem newTXO_run (hneed : env.gNeedUpstream = true) {k : Addr} (hK : K k t) (hn : L t = none)
    (hs : Rep loc {k} K L s) :
    ∃ a s', newTXO env false (.ofCell k) s = .ok (some a) s' ∧ Opened loc K L k t a s' ∧
      Logs K [] s s' := by
  obtain ⟨a, s', hr, hch, hmap', hlog⟩ := newTXO_runs hneed hK hs.toKept
  obtain ⟨ts, hnd, hmem, hmap⟩ := hs.mapped
  refine ⟨a, s', hr, ⟨hch, ⟨ts, hnd, hmem, ?_⟩, hn⟩, hlog⟩
  rw [hmap', hmap]
  · rfl
  · intro e he
    rw [hmap, List.nil_append] at he
    obtain ⟨u, hu, rfl⟩ := List.mem_map.mp he
    have hul := (hmem u).mp hu
    exact ⟨u, fun hut => hul (hut ▸ hn), hs.keys u hul⟩

theorem toInt_of_lt {n : Nat} (hn : n < 2 ^ 31) : toInt n = n := by
  rw [toInt, BitVec.toInt_eq_toNat_cond]
  simp
  omega

/-- The chunk at `a` has the pointer array at `b`, with room for `N` outputs. -/
structure Storing (loc : Role → Addr) (K : Addr → Hash256 → Prop) (L : TXOs) (k : Addr)
    (t : Hash256) (N : Nat) (a b : Addr) (s : State) : Prop extends Kept loc {b, a, k} K L s where
  key : K k t
  newChunk : ∀ c v, K c v → c ≠ a
  newPtrs : ∀ c v, K c v → c ≠ b
  ne : b ≠ a
  chunk : s.heap.cells a = .txChunk (b.add 8)
  length : (s.heap.cells b).length = N

theorem storing_watches {k a b : Addr} {N : Nat} : Watches K (Storing loc K L k t N a b) where
  emit _ cs vs hs :=
    ⟨hs.toKept.logged cs vs, hs.key, hs.newChunk, hs.newPtrs, hs.ne, hs.chunk, hs.length⟩
  view _ hs _ _ := hs.toKept.view

theorem allocRawData_run {k a : Addr} {N : Nat} (h1 : 1 ≤ N) (hN : N + 1 < 2 ^ 31)
    (hs : Chunked loc K L k t a s) :
    ∃ b h, allocRawData a N s = .ok () { s with heap := h } ∧
      Storing loc K L k t N a b { s with heap := h } ∧ h.hashGarbage = s.heap.hashGarbage := by
  have hint : toInt N = N := toInt_of_lt (by omega)
  obtain ⟨b, h₁, halloc, hnb, hv, hlen, hg, hc⟩ := allocPtrs_spec hs.holding.valid
    (show (1 : Int) ≤ (N : Int) by omega) (by omega)
  have hba : b ≠ a := fun he => hnb (Or.inl (Or.inr (Or.inl he)))
  have hkept : Kept loc {b, a, k} K L { s with heap := h₁ } := hs.toKept.alloc hnb hv hg hc
  refine ⟨b, h₁.write a (.txChunk (b.add 8)), ?_,
    ⟨hkept.write (Or.inr (Or.inl rfl)) hs.new _, hs.key, hs.new,
      fun c v hK => hs.toKept.ne_alloc hnb hK, hba, Heap.write_self .., ?_⟩, hg⟩
  · simp only [allocRawData, getState, run_bind, hint, halloc, defined, run_pure]
    rfl
  · show ((h₁.write a (.txChunk (b.add 8))).cells b).length = N
    rw [Heap.write_of_ne _ _ hba, hlen]

/-- The heap once the bytes of output `n` are at `c` and slot `n` of the array at `b` points
to them. -/
def afterStore (h h₁ : Heap) (b : Addr) (n : Nat) (c : Addr) (bytes : List UInt8) : Heap :=
  (copyTX h₁ (c.add 1) bytes).write b (.ptrs (h.cells b).length
    (Function.update (h.cells b).slots n (some (c.add 1))))

/-- Keeping an output takes one block for its bytes. -/
theorem storeOutput_run {a b : Addr} {n : Nat} (hv : s.heap.Valid X) (ha : a ∈ X) (hb : b ∈ X)
    (hchunk : s.heap.cells a = .txChunk (b.add 8)) (hn : (n : Int) < (s.heap.cells b).length)
    (hfit : o.encode.length + 1 < 2 ^ 31) (hm : Holds m p o.encode) :
    ∃ c h₁, c ∉ s.heap.held X ∧ h₁.Valid (insert c X) ∧ h₁.hashGarbage = s.heap.hashGarbage ∧
      (∀ d ∈ s.heap.held X, h₁.cells d = s.heap.cells d) ∧
      storeOutput m a n p (p + o.encode.length) s =
        .ok () { s with heap := afterStore s.heap h₁ b n c o.encode } := by
  have hint : toInt (p + (o.encode.length : Int) - p).toNat = o.encode.length := by
    rw [show (p + (o.encode.length : Int) - p).toNat = o.encode.length by omega]
    exact toInt_of_lt (by omega)
  obtain ⟨c, h₁, halloc, hnc, hv₁, hg, hc⟩ := allocTX_spec hv
    (show (0 : Int) ≤ (o.encode.length : Int) by omega) (by omega)
  have hbytes : read m p o.encode.length = o.encode := hm
  have hcopy : ∀ {d}, d ∈ s.heap.held X →
      (copyTX h₁ (c.add 1) o.encode).cells d = s.heap.cells d := fun hd => by
    rw [copyTX, Addr.sub_add, Heap.write_of_notMem _ hnc _ hd, hc _ hd]
  have hptr : ((copyTX h₁ (c.add 1) o.encode).cells a).mRawData = b.add 8 := by
    rw [hcopy (Or.inl ha), hchunk]
    rfl
  have hstore : storeSlot (copyTX h₁ (c.add 1) o.encode) (b.add 8) n (some (c.add 1)) =
      some (afterStore s.heap h₁ b n c o.encode) := by
    rw [storeSlot, Addr.sub_add, hcopy (Or.inl hb), if_pos hn]
    rfl
  refine ⟨c, h₁, hnc, hv₁, hg, hc, ?_⟩
  simp only [storeOutput, getState, run_bind, hint, halloc, defined, run_pure, Int.toNat_natCast,
    hbytes, hptr, hstore]
  rfl

theorem afterStore_of_ne {h h₁ : Heap} {b c d : Addr} {n : Nat} {bytes : List UInt8} (hb : d ≠ b)
    (hc : d ≠ c) : (afterStore h h₁ b n c bytes).cells d = h₁.cells d := by
  rw [afterStore, Heap.write_of_ne _ _ hb, copyTX, Addr.sub_add, Heap.write_of_ne _ _ hc]

/-- Each output finds the chunk and its array as the first one did. -/
theorem Storing.storeOutput_runs {k a b : Addr} {N n : Nat} (hlt : n < N)
    (hfit : o.encode.length + 1 < 2 ^ 31) (hm : Holds m p o.encode) :
    Runs (Logs K) (Storing loc K L k t N a b) (Storing loc K L k t N a b)
      (storeOutput m a n p (p + o.encode.length)) [] () := by
  refine runs_of_quiet ?_
  intro s hs
  have ha : a ∈ loc '' roles L ∪ {b, a, k} := Or.inr (Or.inr (Or.inl rfl))
  have hb : b ∈ loc '' roles L ∪ {b, a, k} := Or.inr (Or.inl rfl)
  have hroom : (n : Int) < (s.heap.cells b).length := by
    rw [hs.length]
    exact_mod_cast hlt
  obtain ⟨c, h₁, hnc, hv, hg, hc, hrun⟩ :=
    storeOutput_run hs.holding.valid ha hb hs.chunk hroom hfit hm
  have hac : a ≠ c := fun he => hnc (Or.inl (he ▸ ha))
  have hnew : ∀ d v, K d v → d ≠ c := fun d v hK => hs.toKept.ne_alloc hnc hK
  have hkept : Kept loc (insert c {b, a, k}) K L { s with heap := h₁ } :=
    hs.toKept.alloc hnc hv hg hc
  have hcopied := hkept.write (Set.mem_insert c _) hnew (.buffer (h₁.cells c).header o.encode)
  have hstored := hcopied.write (Or.inr (Or.inl rfl)) hs.newPtrs (.ptrs (s.heap.cells b).length
    (Function.update (s.heap.cells b).slots n (some (c.add 1))))
  refine ⟨_, hrun, ⟨?_, hs.key, hs.newChunk, hs.newPtrs, hs.ne, ?_, ?_⟩, rfl, rfl, hg⟩
  · have hdone := hstored.drop hnew
    rwa [← Addr.sub_add c 1] at hdone
  · show (afterStore s.heap h₁ b n c o.encode).cells a = _
    rw [afterStore_of_ne hs.ne.symm hac, hc _ (Or.inl ha), hs.chunk]
  · show ((afterStore s.heap h₁ b n c o.encode).cells b).length = N
    rw [afterStore, Heap.write_self, Cell.length_ptrs, hs.length]

/-- The store while the outputs of `t` are kept: the entry has room for `N`. -/
def Filling (K : Addr → Hash256 → Prop) (L : TXOs) (k : Addr) (t : Hash256) (N : Nat) (a : Addr)
    (os : List TxOutput) (s : State) : Prop :=
  ∃ loc, Rep loc ∅ K (TXOs.begin L t N os) s ∧ loc (.txo t) = a ∧ K k t

theorem filling_watches {k a : Addr} {N : Nat} {os : List TxOutput} :
    Watches K (Filling K L k t N a os) where
  emit s cs vs := by
    rintro ⟨loc, hrep, ha⟩
    exact ⟨loc, rep_watches.emit s cs vs hrep, ha⟩
  view s := by
    rintro ⟨loc, hrep, -⟩
    exact rep_watches.view s hrep

/-- With its pointer array in place, a new entry is one of the ledger's. -/
theorem Storing.filling {k a b : Addr} {N : Nat} (hs : Storing loc K L k t N a b s)
    (hmapped : Mapped [(k, a)] loc L s) (hfresh : L t = none) : Filling K L k t N a [] s := by
  have hh := hs.holding
  have hna : a ∉ loc '' roles L ∪ {k} := by
    rintro (⟨r, hr, he⟩ | he)
    · exact hh.apart r hr (Or.inr (Or.inl he))
    · exact hs.newChunk k t hs.key he.symm
  have hnb : b ∉ insert a (loc '' roles L ∪ {k}) := by
    rintro (he | ⟨r, hr, he⟩ | he)
    · exact hs.ne he
    · exact hh.apart r hr (Or.inl he)
    · exact hs.newPtrs k t hs.key he.symm
  have hsmall : Holding loc {k} L s.heap :=
    hh.shrink ((Set.subset_insert a {k}).trans (Set.subset_insert b {a, k}))
  have hlive : s.heap.Valid (insert b (insert a (loc '' roles L ∪ {k}))) := by
    rw [← Set.union_insert, ← Set.union_insert]
    exact hh.valid
  have hother : ∀ {u}, L u ≠ none → u ≠ t := by
    intro u hu he
    subst he
    exact hu hfresh
  have hkey : place loc t k a b (.key t) = k := by simp [place]
  have htxo : place loc t k a b (.txo t) = a := by simp [place]
  have hentry : ∀ {u}, u ≠ t → mapEntry (place loc t k a b) u = mapEntry loc u := fun hu => by
    simp [mapEntry, place, hu]
  refine ⟨place loc t k a b, ⟨⟨?_, ?_, ?_⟩, ?_⟩, htxo, hs.key⟩
  · have hb' := hsmall.begin hfresh (N := N) rfl (hs.keep k t hs.key).1 hna hnb hlive
      (fun _ _ => rfl) hs.chunk hs.length
    rwa [Set.sdiff_self] at hb'
  · intro u hu
    by_cases hut : u = t
    · rw [hut, hkey]
      exact hs.key
    · have hul : L u ≠ none := by rwa [begin_same u hut] at hu
      have hkeys := hs.keys u hul
      rwa [← show (mapEntry (place loc t k a b) u).1 = loc (.key u) by rw [hentry hut]; rfl] at hkeys
  · intro c v hK
    obtain ⟨hcell, hwhere⟩ := hs.keep c v hK
    refine ⟨hcell, ?_⟩
    rcases hwhere with (hX | hX | hX) | ⟨u, hu, he⟩ | hgm
    · exact absurd hX (hs.newPtrs c v hK)
    · exact absurd hX (hs.newChunk c v hK)
    · exact Or.inr (Or.inl ⟨t, by simp [TXOs.begin], by rw [hkey]; exact hX⟩)
    · have hut := hother hu
      refine Or.inr (Or.inl ⟨u, by rwa [begin_same u hut], ?_⟩)
      rw [he]
      exact (congrArg Prod.fst (hentry hut)).symm
    · exact Or.inr (Or.inr hgm)
  · obtain ⟨ts, hnd, hmem, hmap⟩ := hmapped
    refine ⟨t :: ts, ?_, ?_, ?_⟩
    · refine List.nodup_cons.mpr ⟨fun ht => ?_, hnd⟩
      exact (hmem t).mp ht hfresh
    · intro u
      by_cases hut : u = t
      · simp [hut, TXOs.begin]
      · rw [begin_same u hut, ← hmem]
        simp [hut]
    · have hts : ts.map (mapEntry (place loc t k a b)) = ts.map (mapEntry loc) :=
        List.map_congr_left fun u hu => hentry (hother ((hmem u).mp hu))
      rw [List.map_cons, hts, hmap]
      simp [mapEntry, hkey, htxo]

theorem allocRawData_runs {k a : Addr} {N : Nat} (h1 : 1 ≤ N) (hN : N + 1 < 2 ^ 31) :
    Runs (Logs K) (Opened loc K L k t a) (Filling K L k t N a []) (allocRawData a N) [] () := by
  refine runs_of_quiet ?_
  intro s hs
  obtain ⟨b, h, hrun, hst, hg⟩ := allocRawData_run h1 hN hs.toChunked
  exact ⟨_, hrun, hst.filling hs.mapped hs.fresh, rfl, rfl, hg⟩

theorem storeOutput_runs {k a : Addr} {N : Nat} {os : List TxOutput} (hlt : os.length < N)
    (hfit : o.encode.length + 1 < 2 ^ 31) (hm : Holds m p o.encode) :
    Runs (Logs K) (Filling K L k t N a os) (Filling K L k t N a (os ++ [o]))
      (storeOutput m a os.length p (p + o.encode.length)) [] () := by
  refine runs_of_quiet ?_
  rintro s ⟨loc, hs, rfl, hk⟩
  have hh := hs.holding
  have hself : TXOs.begin L t N os t = some ⟨N, os.map some⟩ := by simp [TXOs.begin]
  have hmem := ptrs_mem hself
  have hroom : (os.length : Int) < (s.heap.cells (loc (.ptrs t))).length := by
    rw [(hh.shows _ hmem _ hself).1]
    exact_mod_cast hlt
  obtain ⟨c, h₁, hnc, hv, hg, hc, hrun⟩ := storeOutput_run hh.valid
    (hh.mem_live (txo_mem hself)) (hh.mem_live hmem) (hh.shows _ (txo_mem hself)) hroom hfit hm
  have hnlive : c ∉ loc '' roles (TXOs.begin L t N os) ∪ ∅ := fun hm => hnc (Or.inl hm)
  have hsame : ∀ {d}, d ∈ s.heap.held (loc '' roles (TXOs.begin L t N os) ∪ ∅) → d ≠ loc (.ptrs t) →
      (afterStore s.heap h₁ (loc (.ptrs t)) os.length c o.encode).cells d = s.heap.cells d := by
    intro d hd hdp
    have hdc : d ≠ c := fun he => hnc (he ▸ hd)
    rw [afterStore_of_ne hdp hdc, hc _ hd]
  have hentry : ∀ u, mapEntry (Function.update loc (.raw t os.length) c) u = mapEntry loc u :=
    fun u => by simp [mapEntry]
  have hdom : ∀ u, TXOs.begin L t N (os ++ [o]) u ≠ none ↔ TXOs.begin L t N os u ≠ none := by
    intro u
    by_cases hu : u = t <;> simp [TXOs.begin, hu]
  refine ⟨_, hrun, ⟨Function.update loc (.raw t os.length) c, ⟨⟨?_, ?_, ?_⟩, ?_⟩, by simp, hk⟩,
    rfl, rfl, hg⟩
  · refine hh.fill hnlive ((hv.write _ _).write _ _) ?_ (Heap.write_self ..) ?_
    · intro r hr hrp
      exact hsame (Or.inl (hh.mem_live hr)) (hh.ne_loc hr hmem hrp)
    · have hcp : c ≠ loc (.ptrs t) := fun he => hnlive (he ▸ hh.mem_live hmem)
      rw [afterStore, Heap.write_of_ne _ _ hcp, copyTX, Addr.sub_add, Heap.write_self]
      rfl
  · intro u hu
    have hkeys := hs.keys u ((hdom u).mp hu)
    rwa [← show Function.update loc (.raw t os.length) c (.key u) = loc (.key u) from
      congrArg Prod.fst (hentry u)] at hkeys
  · intro d v hK
    obtain ⟨hcell, hwhere⟩ := hs.keep d v hK
    refine ⟨?_, ?_⟩
    · show (afterStore s.heap h₁ (loc (.ptrs t)) os.length c o.encode).cells d = _
      rw [hsame (hs.toKept.held hK) (hs.toKept.ne_loc hK hmem (by simp)), hcell]
    · rcases hwhere with hX | ⟨u, hu, he⟩ | hgm
      · exact Or.inl hX
      · refine Or.inr (Or.inl ⟨u, (hdom u).mpr hu, ?_⟩)
        rw [he]
        exact (congrArg Prod.fst (hentry u)).symm
      · refine Or.inr (Or.inr ?_)
        show d ∈ h₁.hashGarbage
        rwa [hg]
  · obtain ⟨ts, hnd, hmem', hmap⟩ := hs.mapped
    refine ⟨ts, hnd, fun u => (hmem' u).trans (hdom u).symm, ?_⟩
    rw [List.map_congr_left fun u _ => hentry u]
    exact hmap

/-- The counts and sizes that fit the int they are cast to. -/
def Fits (t : Tx) : Prop :=
  t.outputs.length + 1 < 2 ^ 31 ∧ ∀ o ∈ t.outputs, o.encode.length + 1 < 2 ^ 31

instance (t : Tx) : Decidable (Fits t) :=
  inferInstanceAs (Decidable (t.outputs.length + 1 < 2 ^ 31 ∧
    ∀ o ∈ t.outputs, o.encode.length + 1 < 2 ^ 31))

/-- The ledger after a transaction. -/
def afterTX (L : TXOs) (id : Hash256) (t : Tx) : TXOs :=
  Ledger.create (t.inputs.foldl spendInput L) id t.outputs

theorem arg_ofCell {P : State → Prop} (hP : Watches K P) (hs : P s) {k : Addr} {id : Hash256}
    (hK : K k id) : (HashPtr.ofCell k).arg s.heap = ⟨some k, some id⟩ := by
  simp [HashPtr.arg, HashPtr.ofCell, hP.view s hs k id hK]

/-- The transaction, from what is known of the store while its outputs are kept: `Q` once
its chunk is at `a`, `J` once the first outputs are in the chunk. -/
theorem upstream_runs {k : Addr} {id : Hash256} {t : Tx} {Q : Addr → State → Prop}
    {J : Addr → List TxOutput → State → Prop} (hneed : env.gNeedUpstream = true) (hK : K k id)
    (hsp : AllInputs Spends L t.inputs) (hQ : ∀ a, Watches K (Q a)) (hJ : ∀ a os, Watches K (J a os))
    (hnew : ∀ s, Full loc {k} K (t.inputs.foldl spendInput L) s → ∃ a s',
      newTXO env false (.ofCell k) s = .ok (some a) s' ∧ Q a s' ∧ Logs K [] s s')
    (halloc : ∀ a, Runs (Logs K) (Q a) (J a []) (allocRawData a t.outputs.length) [] ())
    (hkeep : ∀ a os o p, os.length < t.outputs.length → o ∈ t.outputs → Holds m p o.encode →
      Runs (Logs K) (J a os) (J a (os ++ [o])) (storeOutput m a os.length p (p + o.encode.length))
        [] ()) (hm : Holds m p (t.encode env.coin)) :
    Runs (Logs K) (Full loc {k} K L) (fun s => ∃ a, J a t.outputs s)
      (parseTXBody env false m p (.ofCell k))
      (txCalls env.coin (edgeCall ⟨some k, some id⟩) ⟨some k, some id⟩ L t p)
      (p + (t.encode env.coin).length) := by
  have harg : ∀ {P : State → Prop} {s}, Watches K P → P s →
      (HashPtr.ofCell k).arg s.heap = ⟨some k, some id⟩ := fun hP hs => arg_ofCell hP hs hK
  refine parseTXBody_runs (I := Full loc {k} K) (Q := fun txo s => ∃ a, txo = some a ∧ Q a s)
    (J := fun txo os s => ∃ a, txo = some a ∧ J a os s)
    (fun _ => full_watches) ?_ ?_ (fun s hs => harg full_watches hs) ?_ ?_ hsp ?_ ?_ ?_ ?_ hm
  · refine fun txo => ⟨?_, ?_⟩
    · rintro s cs vs ⟨a, ha, hs⟩
      exact ⟨a, ha, (hQ a).emit s cs vs hs⟩
    · rintro s ⟨a, -, hs⟩
      exact (hQ a).view s hs
  · refine fun txo os => ⟨?_, ?_⟩
    · rintro s cs vs ⟨a, ha, hs⟩
      exact ⟨a, ha, (hJ a os).emit s cs vs hs⟩
    · rintro s ⟨a, -, hs⟩
      exact (hJ a os).view s hs
  · rintro txo os s ⟨a, -, hs⟩
    exact harg (hJ a os) hs
  · intro L i p x hx hok
    exact parseInput_runs hneed (fun _ _ hs => harg rep_watches hs) hx hok i
  · intro s hs
    obtain ⟨a, s', hr, ho, hl⟩ := hnew s hs
    exact ⟨some a, s', hr, ⟨a, rfl, ho⟩, hl⟩
  · rintro txo s ⟨a, rfl, hs⟩
    obtain ⟨s', hr, hf, hl⟩ := halloc a s hs
    exact ⟨s', hr, ⟨a, rfl, hf⟩, hl⟩
  · rintro txo os o q hpre hq s ⟨a, rfl, hs⟩
    have hlen := hpre.length_le
    rw [List.length_append, List.length_singleton] at hlen
    obtain ⟨s', hr, hf, hl⟩ :=
      hkeep a os o q (by omega) (hpre.subset (by simp)) hq s hs
    exact ⟨s', hr, ⟨a, rfl, hf⟩, hl⟩
  · rintro txo s ⟨a, -, hs⟩
    exact ⟨a, hs⟩

/-- Whatever entry the id had before, the calls are those of the transaction. -/
theorem body_decodes {k : Addr} {id : Hash256} {t : Tx} (hneed : env.gNeedUpstream = true)
    (hK : K k id) (hsp : AllInputs Spends L t.inputs) (hfit : Fits t) (hout : t.outputs ≠ [])
    (hm : Holds m p (t.encode env.coin)) :
    Runs (Logs K) (Full loc {k} K L) (fun _ => True) (parseTXBody env false m p (.ofCell k))
      (txCalls env.coin (edgeCall ⟨some k, some id⟩) ⟨some k, some id⟩ L t p)
      (p + (t.encode env.coin).length) := by
  have hpos : 1 ≤ t.outputs.length := List.length_pos_of_ne_nil hout
  refine (upstream_runs (Q := Chunked loc K (t.inputs.foldl spendInput L) k id)
    (J := fun a _ s => ∃ b, Storing loc K (t.inputs.foldl spendInput L) k id t.outputs.length a b s)
    hneed hK hsp (fun a => chunked_watches) ?_ ?_ ?_ ?_ hm).post fun _ _ => trivial
  · refine fun a _ => ⟨?_, ?_⟩
    · rintro s cs vs ⟨b, hs⟩
      exact ⟨b, storing_watches.emit s cs vs hs⟩
    · rintro s ⟨b, hs⟩
      exact storing_watches.view s hs
  · intro s hs
    obtain ⟨a, s', hr, hch, -, hlog⟩ := newTXO_runs hneed hK hs.1.toKept
    exact ⟨a, s', hr, hch, hlog⟩
  · refine fun a => runs_of_quiet fun s hs => ?_
    obtain ⟨b, h, hrun, hst, hg⟩ := allocRawData_run hpos hfit.1 hs
    exact ⟨_, hrun, ⟨b, hst⟩, rfl, rfl, hg⟩
  · rintro a os o q hlt ho hq s ⟨b, hs⟩
    obtain ⟨s', hr, hst, hlog⟩ := Storing.storeOutput_runs hlt (hfit.2 o ho) hq s hs
    exact ⟨s', hr, ⟨b, hst⟩, hlog⟩

theorem body_runs {k : Addr} {id : Hash256} {t : Tx} (hneed : env.gNeedUpstream = true)
    (hK : K k id) (hsp : AllInputs Spends L t.inputs) (hfit : Fits t) (hout : t.outputs ≠ [])
    (hfresh : t.inputs.foldl spendInput L id = none) (hm : Holds m p (t.encode env.coin)) :
    Runs (Logs K) (Full loc {k} K L) (fun s => ∃ loc, Rep loc ∅ K (afterTX L id t) s)
      (parseTXBody env false m p (.ofCell k))
      (txCalls env.coin (edgeCall ⟨some k, some id⟩) ⟨some k, some id⟩ L t p)
      (p + (t.encode env.coin).length) := by
  have hpos : 1 ≤ t.outputs.length := List.length_pos_of_ne_nil hout
  refine (upstream_runs (Q := Opened loc K (t.inputs.foldl spendInput L) k id)
    (J := Filling K (t.inputs.foldl spendInput L) k id t.outputs.length) hneed hK hsp (fun a => opened_watches) (fun a os => filling_watches)
    (fun s hs => newTXO_run hneed hK hfresh hs.1) (fun a => allocRawData_runs hpos hfit.1)
    (fun a os o q hlt ho hq => storeOutput_runs hlt (hfit.2 o ho) hq) hm).post ?_
  rintro s ⟨a, loc, hs, -⟩
  exact ⟨loc, hs⟩

/-- `K`, and the cell `k` besides. -/
def withKey (K : Addr → Hash256 → Prop) (k : Addr) (id : Hash256) (a : Addr) (v : Hash256) : Prop :=
  K a v ∨ a = k ∧ v = id

/-- The pre-scan puts the hash of exactly the transaction's bytes into a fresh cell. -/
theorem hashTX_run {t : Tx} (hneed : env.gNeedUpstream = true) (hs : Rep loc ∅ K L s)
    (hnew : ∀ v, ¬K (s.heap.alloc .uint256).1 v) (hm : Holds m p (t.encode env.coin)) :
    ∃ s', hashTX env m p s = .ok (.ofCell (s.heap.alloc .uint256).1) s' ∧
      Rep loc {(s.heap.alloc .uint256).1}
        (withKey K (s.heap.alloc .uint256).1 (env.sha256Twice (t.encode env.coin))) L s' ∧
      s'.calls = s.calls ∧ s'.views = s.views ∧
      s'.heap.hashGarbage = s.heap.hashGarbage.tail := by
  obtain ⟨hn, hv, hc⟩ := hs.holding.valid.alloc .uint256
  obtain ⟨htail, hhead⟩ := s.heap.alloc_hashGarbage
  have hissued := (Heap.alloc_spec hs.holding.valid.wf .uint256).2.2
  rw [Set.union_empty] at hn hv hc
  have hskip := fun s => @parseTXBody_skip env m s p
  rw [txNext_of_holds hm] at hskip
  have hlen : (p + ((t.encode env.coin).length : Int) - p).toNat = (t.encode env.coin).length := by
    omega
  have hbytes : read m p (t.encode env.coin).length = t.encode env.coin := hm
  refine ⟨{ s with
    heap := (s.heap.alloc .uint256).2.write (s.heap.alloc .uint256).1
      (.hash256 (env.sha256Twice (t.encode env.coin))) }, ?_, ⟨⟨⟨hs.holding.inj, ?_, ?_, ?_⟩, ?_, ?_⟩,
    hs.mapped⟩, rfl, rfl, htail⟩
  · simp only [hashTX, hneed, if_true, getState, run_bind, setHeap, hskip, hlen, hbytes]
    rfl
  · intro r hr he
    exact hn ⟨r, hr, he⟩
  · rw [Set.union_singleton]
    exact hv.write _ _
  · intro r hr
    have hr' : loc r ∈ loc '' roles L := ⟨r, hr, rfl⟩
    show r.Shows loc L ((Heap.write _ _ _).cells (loc r))
    rw [Heap.write_of_notMem _ hn _ hr', hc _ hr']
    exact hs.holding.shows r hr
  · intro t ht
    exact Or.inl (hs.keys t ht)
  · rintro a v (hK | ⟨rfl, rfl⟩)
    · have hne : a ≠ (s.heap.alloc .uint256).1 := by
        intro he
        subst he
        exact hnew v hK
      obtain ⟨hcell, hwhere⟩ := hs.keep a v hK
      refine ⟨?_, ?_⟩
      · show (Heap.write _ _ _).cells a = _
        rw [Heap.write_of_ne _ _ hne, ← hcell]
        rcases hs.toKept.held hK with (⟨r, hr, rfl⟩ | hX) | hg
        · exact hc _ ⟨r, hr, rfl⟩
        · exact absurd hX (Set.notMem_empty a)
        · exact hissued a (hs.holding.valid.owns.free_issued .uint256 a hg)
      · rcases hwhere with hX | hu | hg
        · exact absurd hX (Set.notMem_empty a)
        · exact Or.inr (Or.inl hu)
        · refine Or.inr (Or.inr ?_)
          show a ∈ (s.heap.alloc .uint256).2.hashGarbage
          rw [htail]
          obtain ⟨d, ds, hds⟩ := List.exists_cons_of_ne_nil (List.ne_nil_of_mem hg)
          rw [hds] at hg ⊢
          cases List.mem_cons.mp hg with
          | inl he =>
            subst he
            exact absurd (hhead _ _ hds).symm hne
          | inr hg =>
            exact hg
    · exact ⟨Heap.write_self .., Or.inl rfl⟩

theorem parseTX_run {t : Tx} (hneed : env.gNeedUpstream = true) (hs : Rep loc ∅ K L s)
    (hL : L.Complete) (hnew : ∀ v, ¬K (s.heap.alloc .uint256).1 v)
    (hsp : AllInputs Spends L t.inputs) (hfit : Fits t) (hout : t.outputs ≠ [])
    (hfresh : t.inputs.foldl spendInput L (env.sha256Twice (t.encode env.coin)) = none)
    (hm : Holds m p (t.encode env.coin)) :
    ∃ k s₁ s', k = (s.heap.alloc .uint256).1 ∧
      parseTX env false m p s = .ok (p + (t.encode env.coin).length) s' ∧
      s₁.calls = s.calls ∧ s₁.views = s.views ∧ s₁.heap.hashGarbage = s.heap.hashGarbage.tail ∧
      (∃ loc, Rep loc ∅ (withKey K k (env.sha256Twice (t.encode env.coin)))
        (afterTX L (env.sha256Twice (t.encode env.coin)) t) s') ∧
      Logs (withKey K k (env.sha256Twice (t.encode env.coin)))
        (txCalls env.coin (edgeCall ⟨some k, some (env.sha256Twice (t.encode env.coin))⟩)
          ⟨some k, some (env.sha256Twice (t.encode env.coin))⟩ L t p) s₁ s' := by
  obtain ⟨s₁, hr, hrep, hcalls, hviews, htail⟩ := hashTX_run hneed hs hnew hm
  obtain ⟨s', hr', hrep', hlog⟩ := body_runs hneed (Or.inr ⟨rfl, rfl⟩) hsp hfit hout hfresh hm s₁
    ⟨hrep, hL⟩
  refine ⟨_, s₁, s', rfl, ?_, hcalls, hviews, htail, hrep', hlog⟩
  exact (run_bind_ok hr).trans hr'

end Blockparser.Upstream
