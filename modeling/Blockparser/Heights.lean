import Blockparser.Headers
import Blockparser.Lib.Forest

/-! Pass 2: every block that is connected to the null block gets its height. -/
namespace Blockparser.Heights
open Bytes MemoryManager Blockparser.Parser BlockIndex Headers Forest

/-- `outOfFuel` is a loop that did not end in the number of turns allowed for it. -/
inductive Fault
  | sysErrFatal | undefined | outOfFuel
deriving DecidableEq

structure State extends Index where
  gMaxHeight : Int
  gMaxBlock : Option BlockRef
  lateLinks : Nat

def State.setPrev (s : State) (b : BlockRef) (p : Option BlockRef) : State :=
  { s with blocks := Function.update s.blocks b { s.blocks b with prev := p } }

def State.setNext (s : State) (b : BlockRef) (n : Option BlockRef) : State :=
  { s with blocks := Function.update s.blocks b { s.blocks b with next := n } }

def State.setHeight (s : State) (b : BlockRef) (h : Int) : State :=
  { s with blocks := Function.update s.blocks b { s.blocks b with height := h } }

/-- `b->height = height` and the comparison with the greatest height so far. -/
def State.number (s : State) (b : BlockRef) (height : Int) : State :=
  let s := s.setHeight b height
  if s.gMaxHeight < height then { s with gMaxHeight := height, gMaxBlock := some b } else s

variable (coin : Coin) (files : List (List UInt8))

/-- The buffer findBlockParent fills from the place of the block in its file. -/
def readBlockHeader (c : Chunk) : Except Fault Memory :=
  match c.blockFile.bind (files[·]?) with
  | none => .error .undefined
  | some content =>
    let buf := readFile content c.offset coin.gHeaderSize
    -- an offset past the largest off64_t is negative for lseek64
    if 2 ^ 63 ≤ c.offset then .error .sysErrFatal
    else if buf.length < coin.gHeaderSize then .error .sysErrFatal
    else .ok (ofList buf fun _ => 0)

def findBlockParent (s : State) (b : BlockRef) : Except Fault State :=
  match readBlockHeader coin files (s.blocks b).chunk with
  | .error e => .error e
  | .ok buf =>
    match s.gBlockMap (Memory.hash buf 4) with
    | none => .ok s
    | some p => .ok (s.setPrev b (some p))

/-- The first loop of computeBlockHeight: the numbered block it ends at, or `none` for
the return at a block without a parent. -/
def climb : Nat → State → BlockRef → Except Fault (State × Option BlockRef)
  | 0, _, _ => .error .outOfFuel
  | fuel + 1, s, b =>
    if (s.blocks b).height < 0 then
      match (s.blocks b).prev with
      | some p => climb fuel (s.setNext p (some b)) p
      | none =>
        match findBlockParent coin files s b with
        | .error e => .error e
        | .ok s =>
          let s := { s with lateLinks := s.lateLinks + 1 }
          match (s.blocks b).prev with
          | none => .ok (s, none)
          | some p => climb fuel (s.setNext p (some b)) p
    else .ok (s, some b)

/-- The second loop: back down to `block`, numbering on the way. -/
def descend (block : BlockRef) : Nat → State → BlockRef → Int → Except Fault State
  | 0, _, _, _ => .error .outOfFuel
  | fuel + 1, s, b, height =>
    let s := s.number b height
    let next := (s.blocks b).next
    let s := s.setNext b none
    if block = b then .ok s
    else
      match next with
      | none => .error .undefined
      | some c => descend block fuel s c (height + 1)

def computeBlockHeight (fuel : Nat) (s : State) (block : BlockRef) : Except Fault State :=
  if gNullBlock = block then .ok s
  else
    match climb coin files fuel s block with
    | .error e => .error e
    | .ok (s, none) => .ok s
    | .ok (s, some b) => descend block fuel s b (s.blocks b).height

/-- `order` is the order in which the hash table is walked. -/
def computeBlockHeights (fuel : Nat) : List BlockRef → State → Except Fault State
  | [], s => .ok s
  | block :: order, s =>
    match computeBlockHeight coin files fuel s block with
    | .error e => .error e
    | .ok s => computeBlockHeights fuel order s

/-- The parent hash in the header of a block. -/
def parentHash (c : Chunk) : Option Hash256 :=
  match readBlockHeader coin files c with
  | .ok buf => some (Memory.hash buf 4)
  | .error _ => none

/-- The block of the table that the header names as parent. -/
def parent (s : Index) (b : BlockRef) : Option BlockRef :=
  if b = gNullBlock then none else (parentHash coin files (s.blocks b).chunk).bind s.gBlockMap

/-- A state pass 2 may start from: `order` lists the blocks of the table, none but the
null block has a height, and a link that is there is the right one. -/
structure Built (s : State) (order : List BlockRef) : Prop where
  nodup : order.Nodup
  mem_iff : ∀ b, b ∈ order ↔ ∃ h, s.gBlockMap h = some b
  keys : ∀ h b, s.gBlockMap h = some b → (s.blocks b).hash = h
  null : s.gBlockMap nullHash = some gNullBlock
  nullHeight : (s.blocks gNullBlock).height = 0
  height : ∀ b ∈ order, b ≠ gNullBlock → (s.blocks b).height = -1
  readable : ∀ b ∈ order, b ≠ gNullBlock →
    ∃ buf, readBlockHeader coin files (s.blocks b).chunk = .ok buf
  prev : ∀ b ∈ order, (s.blocks b).prev = none ∨
    (s.blocks b).prev = parent coin files s.toIndex b
  next : ∀ b ∈ order, (s.blocks b).next = none
  acyclic : Acyclic (parent coin files s.toIndex)
  maxHeight : s.gMaxHeight = 0
  maxBlock : s.gMaxBlock = none

section
variable (s : State) (b c : BlockRef) (p n : Option BlockRef) (h : Int)

@[simp] theorem setPrev_height : ((s.setPrev b p).blocks c).height = (s.blocks c).height := by
  by_cases hc : c = b <;> simp [State.setPrev, hc]

@[simp] theorem setPrev_next : ((s.setPrev b p).blocks c).next = (s.blocks c).next := by
  by_cases hc : c = b <;> simp [State.setPrev, hc]

@[simp] theorem setPrev_chunk : ((s.setPrev b p).blocks c).chunk = (s.blocks c).chunk := by
  by_cases hc : c = b <;> simp [State.setPrev, hc]

@[simp] theorem setPrev_prev :
    ((s.setPrev b p).blocks c).prev = if c = b then p else (s.blocks c).prev := by
  by_cases hc : c = b <;> simp [State.setPrev, hc]

@[simp] theorem setNext_height : ((s.setNext b n).blocks c).height = (s.blocks c).height := by
  by_cases hc : c = b <;> simp [State.setNext, hc]

@[simp] theorem setNext_prev : ((s.setNext b n).blocks c).prev = (s.blocks c).prev := by
  by_cases hc : c = b <;> simp [State.setNext, hc]

@[simp] theorem setNext_chunk : ((s.setNext b n).blocks c).chunk = (s.blocks c).chunk := by
  by_cases hc : c = b <;> simp [State.setNext, hc]

@[simp] theorem setNext_next :
    ((s.setNext b n).blocks c).next = if c = b then n else (s.blocks c).next := by
  by_cases hc : c = b <;> simp [State.setNext, hc]

theorem number_blocks : (s.number b h).blocks = (s.setHeight b h).blocks := by
  unfold State.number
  dsimp only
  split <;> rfl

@[simp] theorem number_height :
    ((s.number b h).blocks c).height = if c = b then h else (s.blocks c).height := by
  by_cases hc : c = b <;> simp [number_blocks, State.setHeight, hc]

@[simp] theorem number_prev : ((s.number b h).blocks c).prev = (s.blocks c).prev := by
  by_cases hc : c = b <;> simp [number_blocks, State.setHeight, hc]

@[simp] theorem number_next : ((s.number b h).blocks c).next = (s.blocks c).next := by
  by_cases hc : c = b <;> simp [number_blocks, State.setHeight, hc]

@[simp] theorem number_chunk : ((s.number b h).blocks c).chunk = (s.blocks c).chunk := by
  by_cases hc : c = b <;> simp [number_blocks, State.setHeight, hc]

@[simp] theorem number_gBlockMap : (s.number b h).gBlockMap = s.gBlockMap := by
  unfold State.number
  dsimp only
  split <;> rfl

end

variable {coin files} {s₀ s : State} {order : List BlockRef}

/-- What pass 2 keeps: a numbered block has its depth for height and a numbered parent
it is linked to, and the greatest height is that of `gMaxBlock`. -/
structure Inv (coin : Coin) (files : List (List UInt8)) (s₀ : State) (order : List BlockRef)
    (s : State) : Prop where
  map : s.gBlockMap = s₀.gBlockMap
  chunk : ∀ b, (s.blocks b).chunk = (s₀.blocks b).chunk
  null : (s.blocks gNullBlock).height = 0
  prev : ∀ b ∈ order, (s.blocks b).prev = none ∨
    (s.blocks b).prev = parent coin files s₀.toIndex b
  height : ∀ b ∈ order, (s.blocks b).height = -1 ∨
    ∃ n : Nat, (s.blocks b).height = n ∧ Depth (parent coin files s₀.toIndex) gNullBlock b n
  linked : ∀ b ∈ order, b ≠ gNullBlock → 0 ≤ (s.blocks b).height →
    ∃ p, (s.blocks b).prev = some p ∧ 0 ≤ (s.blocks p).height
  le_max : ∀ b ∈ order, (s.blocks b).height ≤ s.gMaxHeight
  max : (s.gMaxBlock = none ∧ s.gMaxHeight = 0) ∨
    ∃ m ∈ order, s.gMaxBlock = some m ∧ (s.blocks m).height = s.gMaxHeight ∧ 0 < s.gMaxHeight

/-- No numbered block other than those of `P` has a `next`. -/
def CleanBut (order : List BlockRef) (P : BlockRef → Prop) (s : State) : Prop :=
  ∀ c ∈ order, 0 ≤ (s.blocks c).height → ¬P c → (s.blocks c).next = none

/-- Down from `b`, `next` and `prev` run along `path`, through blocks not numbered yet. -/
def Linked (s : State) : BlockRef → List BlockRef → Prop
  | _, [] => True
  | b, c :: cs => (s.blocks b).next = some c ∧ (s.blocks c).prev = some b ∧
    (s.blocks c).height < 0 ∧ Linked s c cs

theorem parent_mem (hb : Built coin files s₀ order) {b p : BlockRef}
    (hp : parent coin files s₀.toIndex b = some p) : p ∈ order := by
  unfold parent at hp
  split at hp
  · cases hp
  · obtain ⟨h, -, hh⟩ := Option.bind_eq_some_iff.mp hp
    exact (hb.mem_iff p).mpr ⟨h, hh⟩

theorem Linked.congr {s t : State} {b : BlockRef} {path : List BlockRef} (h : Linked s b path)
    (hnext : ∀ c ∈ b :: path, (t.blocks c).next = (s.blocks c).next)
    (hprev : ∀ c ∈ path, (t.blocks c).prev = (s.blocks c).prev)
    (hheight : ∀ c ∈ path, (t.blocks c).height = (s.blocks c).height) : Linked t b path := by
  induction path generalizing b with
  | nil => trivial
  | cons c cs ih =>
    obtain ⟨h1, h2, h3, h4⟩ := h
    refine ⟨?_, ?_, ?_, ih h4 ?_ ?_ ?_⟩
    · rw [hnext b (by simp), h1]
    · rw [hprev c (by simp), h2]
    · rw [hheight c (by simp)]
      exact h3
    · intro d hd
      exact hnext d (List.mem_cons_of_mem b hd)
    · intro d hd
      exact hprev d (List.mem_cons_of_mem c hd)
    · intro d hd
      exact hheight d (List.mem_cons_of_mem c hd)

theorem Built.inv (hb : Built coin files s₀ order) : Inv coin files s₀ order s₀ where
  map := rfl
  chunk _ := rfl
  null := hb.nullHeight
  prev := hb.prev
  height b hm := by
    by_cases hn : b = gNullBlock
    · subst hn
      exact Or.inr ⟨0, hb.nullHeight, Depth.root⟩
    · exact Or.inl (hb.height b hm hn)
  linked b hm hn h0 := by
    rw [hb.height b hm hn] at h0
    omega
  le_max b hm := by
    rw [hb.maxHeight]
    by_cases hn : b = gNullBlock
    · rw [hn, hb.nullHeight]
    · rw [hb.height b hm hn]
      omega
  max := Or.inl ⟨hb.maxBlock, hb.maxHeight⟩

theorem Inv.setNext (hi : Inv coin files s₀ order s) (b : BlockRef) (n : Option BlockRef) :
    Inv coin files s₀ order (s.setNext b n) where
  map := hi.map
  chunk c := by simpa using hi.chunk c
  null := by simpa using hi.null
  prev c hc := by simpa using hi.prev c hc
  height c hc := by simpa using hi.height c hc
  linked c hc hn h0 := by simpa using hi.linked c hc hn (by simpa using h0)
  le_max c hc := by
    rw [setNext_height]
    exact hi.le_max c hc
  max := by
    simp only [setNext_height]
    exact hi.max

theorem Inv.lateLinks (hi : Inv coin files s₀ order s) (n : Nat) :
    Inv coin files s₀ order { s with lateLinks := n } :=
  ⟨hi.map, hi.chunk, hi.null, hi.prev, hi.height, hi.linked, hi.le_max, hi.max⟩

/-- A late link, to the parent. -/
theorem Inv.setPrev (hi : Inv coin files s₀ order s) {b : BlockRef} {p : BlockRef}
    (hp : parent coin files s₀.toIndex b = some p) (hneg : (s.blocks b).height < 0) :
    Inv coin files s₀ order (s.setPrev b (some p)) where
  map := hi.map
  chunk c := by simpa using hi.chunk c
  null := by simpa using hi.null
  prev c hc := by
    by_cases hcb : c = b
    · subst hcb
      simp [hp]
    · simpa [hcb] using hi.prev c hc
  height c hc := by simpa using hi.height c hc
  linked c hc hn h0 := by
    rw [setPrev_height] at h0
    have hcb : c ≠ b := by
      intro he
      subst he
      omega
    simpa [hcb] using hi.linked c hc hn h0
  le_max c hc := by
    rw [setPrev_height]
    exact hi.le_max c hc
  max := by
    simp only [setPrev_height]
    exact hi.max

theorem findBlockParent_spec (hb : Built coin files s₀ order) (hi : Inv coin files s₀ order s)
    {b : BlockRef} (hm : b ∈ order) (hn : b ≠ gNullBlock) :
    (parent coin files s₀.toIndex b = none ∧ findBlockParent coin files s b = .ok s) ∨
      ∃ p, parent coin files s₀.toIndex b = some p ∧
        findBlockParent coin files s b = .ok (s.setPrev b (some p)) := by
  obtain ⟨buf, hbuf⟩ := hb.readable b hm hn
  have hparent : parent coin files s₀.toIndex b = s₀.gBlockMap (Memory.hash buf 4) := by
    simp [parent, hn, parentHash, hbuf]
  rw [hparent, findBlockParent, hi.chunk, hbuf, hi.map]
  dsimp only
  cases hfind : s₀.gBlockMap (Memory.hash buf 4) with
  | none => exact Or.inl ⟨rfl, rfl⟩
  | some p => exact Or.inr ⟨p, rfl, rfl⟩

theorem Inv.ne_null (hi : Inv coin files s₀ order s) {b : BlockRef}
    (hneg : (s.blocks b).height < 0) : b ≠ gNullBlock := by
  intro he
  subst he
  rw [hi.null] at hneg
  omega

/-- One turn of the first loop at a block that is not numbered: it ends without a parent,
or goes on from the parent. -/
theorem climb_turn (hb : Built coin files s₀ order) (hi : Inv coin files s₀ order s)
    {b : BlockRef} (hm : b ∈ order) (hneg : (s.blocks b).height < 0) (fuel : Nat) :
    (parent coin files s₀.toIndex b = none ∧ ∃ n,
      climb coin files (fuel + 1) s b = .ok ({ s with lateLinks := n }, none)) ∨
    ∃ p s', parent coin files s₀.toIndex b = some p ∧ Inv coin files s₀ order s' ∧
      climb coin files (fuel + 1) s b = climb coin files fuel (s'.setNext p (some b)) p ∧
      (s'.blocks b).prev = some p ∧ (∀ c, c ≠ b → (s'.blocks c).prev = (s.blocks c).prev) ∧
      (∀ c, (s'.blocks c).next = (s.blocks c).next) ∧
      ∀ c, (s'.blocks c).height = (s.blocks c).height := by
  have hn := hi.ne_null hneg
  rw [climb, if_pos hneg]
  cases hprev : (s.blocks b).prev with
  | some p =>
    have hp : parent coin files s₀.toIndex b = some p := by
      cases hi.prev b hm with
      | inl h => cases hprev.symm.trans h
      | inr h => rw [← h, hprev]
    exact Or.inr ⟨p, s, hp, hi, rfl, hprev, fun _ _ => rfl, fun _ => rfl, fun _ => rfl⟩
  | none =>
    obtain ⟨hp, hfind⟩ | ⟨p, hp, hfind⟩ := findBlockParent_spec hb hi hm hn
    · rw [hfind]
      exact Or.inl ⟨hp, s.lateLinks + 1, by simp [hprev]⟩
    · rw [hfind]
      refine Or.inr ⟨p, { s.setPrev b (some p) with lateLinks := _ }, hp,
        (hi.setPrev hp hneg).lateLinks _, by simp; rfl, by simp, ?_, by simp, by simp⟩
      intro c hc
      simp [hc]

/-- The first loop ends at a numbered block, with the way down linked, or at a block
without a parent, and then the block it started from is not connected. -/
theorem climb_spec (hb : Built coin files s₀ order) {b : BlockRef} {path : List BlockRef}
    {fuel : Nat} (hi : Inv coin files s₀ order s) (hclean : CleanBut order (· = b) s)
    (hlink : Linked s b path) (hdesc : Descends (parent coin files s₀.toIndex) b path)
    (hmem : ∀ c ∈ b :: path, c ∈ order) (hfuel : order.length < fuel + path.length) :
    ∃ s' o, climb coin files fuel s b = .ok (s', o) ∧ Inv coin files s₀ order s' ∧
      (∀ c, (s'.blocks c).height = (s.blocks c).height) ∧
      match o with
      | none => CleanBut order (fun _ => False) s' ∧
          ¬Connected (parent coin files s₀.toIndex) gNullBlock b
      | some r => CleanBut order (· = r) s' ∧ 0 ≤ (s.blocks r).height ∧
          ∃ path', Linked s' r path' ∧ Descends (parent coin files s₀.toIndex) r path' ∧
            (∀ c ∈ r :: path', c ∈ order) ∧ (b :: path) <:+ (r :: path') := by
  induction fuel generalizing s b path with
  | zero =>
    have hnd := hdesc.nodup hb.acyclic
    have hle := (List.subperm_of_subset hnd hmem).length_le
    rw [List.length_cons] at hle
    omega
  | succ fuel ih =>
    have hbm := hmem b (by simp)
    by_cases hneg : (s.blocks b).height < 0
    · obtain ⟨hp, n, hclimb⟩ | ⟨p, s', hp, hi', hclimb, hprev, hprevs, hnexts, hheights⟩ :=
        climb_turn hb hi hbm hneg fuel
      · refine ⟨_, none, hclimb, hi.lateLinks n, fun _ => rfl, ?_, ?_⟩
        · intro c hc h0 _
          refine hclean c hc h0 ?_
          intro he
          subst he
          have h0' : 0 ≤ (s.blocks c).height := h0
          omega
        · exact not_connected (hi.ne_null hneg) hp
      · -- the path grows by `b`, and `b` was below the new block from the start
        have hdesc' : Descends (parent coin files s₀.toIndex) p (b :: path) := ⟨hp, hdesc⟩
        have hnd := hdesc'.nodup hb.acyclic
        have hne : ∀ c ∈ b :: path, c ≠ p := fun c hc hcp => (List.nodup_cons.mp hnd).1 (hcp ▸ hc)
        have hbp : ∀ c ∈ path, c ≠ b := fun c hc hcb =>
          (List.nodup_cons.mp (List.nodup_cons.mp hnd).2).1 (hcb ▸ hc)
        have hlink' : Linked (s'.setNext p (some b)) p (b :: path) := by
          refine ⟨by simp, by simpa using hprev, by simpa [hheights] using hneg, ?_⟩
          refine hlink.congr ?_ ?_ ?_
          · intro c hc
            simp [hne c hc, hnexts]
          · intro c hc
            simp [hprevs c (hbp c hc)]
          · intro c _
            simp [hheights]
        have hclean' : CleanBut order (· = p) (s'.setNext p (some b)) := by
          intro c hc h0 hcp
          rw [setNext_height, hheights] at h0
          have hcb : c ≠ b := by
            intro he
            subst he
            omega
          simpa [hcp, hnexts] using hclean c hc h0 hcb
        have hmem' : ∀ c ∈ p :: b :: path, c ∈ order := by
          intro c hc
          cases hc with
          | head => exact parent_mem hb hp
          | tail _ hc => exact hmem c hc
        obtain ⟨s'', o, hrun, hinv, hsame, hres⟩ :=
          ih (hi'.setNext p (some b)) hclean' hlink' hdesc' hmem' (by simp; omega)
        refine ⟨s'', o, hclimb.trans hrun, hinv, ?_, ?_⟩
        · intro c
          rw [hsame, setNext_height, hheights]
        · cases o with
          | none =>
            rw [connected_step (hi.ne_null hneg) hp]
            exact hres
          | some r =>
            obtain ⟨hcl, h0, path', hl, hd, hm', hsuf⟩ := hres
            rw [setNext_height, hheights] at h0
            exact ⟨hcl, h0, path', hl, hd, hm', (List.suffix_cons p (b :: path)).trans hsuf⟩
    · refine ⟨s, some b, by rw [climb, if_neg hneg], hi, fun _ => rfl, hclean, by omega, path,
        hlink, hdesc, hmem, List.suffix_refl _⟩

variable {b : BlockRef} {n : Nat}

theorem number_max (s : State) (b : BlockRef) (h : Int) :
    ((s.number b h).gMaxHeight = h ∧ (s.number b h).gMaxBlock = some b ∧ s.gMaxHeight < h) ∨
      ((s.number b h).gMaxHeight = s.gMaxHeight ∧ (s.number b h).gMaxBlock = s.gMaxBlock ∧
        h ≤ s.gMaxHeight) := by
  unfold State.number
  dsimp only
  split
  · next hlt => exact Or.inl ⟨rfl, rfl, hlt⟩
  · next hle => exact Or.inr ⟨rfl, rfl, Int.not_lt.mp hle⟩

/-- Giving a block its depth, once its parent has a height. -/
theorem Inv.number (hi : Inv coin files s₀ order s) (hm : b ∈ order)
    (hd : Depth (parent coin files s₀.toIndex) gNullBlock b n)
    (hp : b ≠ gNullBlock → ∃ p, (s.blocks b).prev = some p ∧ 0 ≤ (s.blocks p).height) :
    Inv coin files s₀ order (s.number b n) where
  map := by simpa using hi.map
  chunk c := by simpa using hi.chunk c
  null := by
    rw [number_height]
    split
    · next h =>
      subst h
      rw [hd.unique Depth.root]
      rfl
    · exact hi.null
  prev c hc := by simpa using hi.prev c hc
  height c hc := by
    rw [number_height]
    split
    · next h => exact Or.inr ⟨n, rfl, h ▸ hd⟩
    · exact hi.height c hc
  linked c hc hn h0 := by
    have hpos : ∀ p, 0 ≤ (s.blocks p).height → 0 ≤ ((s.number b n).blocks p).height := by
      intro p h
      rw [number_height]
      split
      · omega
      · exact h
    rw [number_prev]
    rw [number_height] at h0
    split at h0
    · next h =>
      subst h
      obtain ⟨p, hprev, h⟩ := hp hn
      exact ⟨p, hprev, hpos p h⟩
    · obtain ⟨p, hprev, h⟩ := hi.linked c hc hn h0
      exact ⟨p, hprev, hpos p h⟩
  le_max c hc := by
    have hle := hi.le_max c hc
    rw [number_height]
    cases number_max s b n with
    | inl h =>
      rw [h.1]
      split <;> omega
    | inr h =>
      rw [h.1]
      split <;> omega
  max := by
    have h0 : 0 ≤ s.gMaxHeight := by
      obtain ⟨-, h⟩ | ⟨_, -, -, -, h⟩ := hi.max <;> omega
    cases number_max s b n with
    | inl h => exact Or.inr ⟨b, hm, h.2.1, by simp [h.1], by omega⟩
    | inr h =>
      rw [h.1, h.2.1]
      obtain hnone | ⟨m, hmm, hmax, hheight, hpos⟩ := hi.max
      · exact Or.inl hnone
      · refine Or.inr ⟨m, hmm, hmax, ?_, hpos⟩
        rw [number_height]
        split
        · next hmb =>
          subst hmb
          obtain h' | ⟨k, hk, hdk⟩ := hi.height m hm
          · omega
          · rw [← hheight, hk, hd.unique hdk]
        · exact hheight

/-- One turn of the second loop: `b` gets its height and loses its link. -/
theorem visit_spec (hi : Inv coin files s₀ order s) (hclean : CleanBut order (· = b) s)
    (hm : b ∈ order) (hd : Depth (parent coin files s₀.toIndex) gNullBlock b n)
    (hp : b ≠ gNullBlock → ∃ p, (s.blocks b).prev = some p ∧ 0 ≤ (s.blocks p).height) :
    Inv coin files s₀ order ((s.number b n).setNext b none) ∧
      CleanBut order (fun _ => False) ((s.number b n).setNext b none) ∧
      (((s.number b n).setNext b none).blocks b).height = n ∧
      ∀ c, 0 ≤ (s.blocks c).height →
        0 ≤ (((s.number b n).setNext b none).blocks c).height := by
  refine ⟨(hi.number hm hd hp).setNext b none, ?_, by simp, ?_⟩
  · intro c hc h0 _
    by_cases hcb : c = b
    · simp [hcb]
    · simp only [setNext_height, number_height, hcb, if_false] at h0
      simpa [hcb] using hclean c hc h0 hcb
  · intro c h0
    rw [setNext_height, number_height]
    split
    · omega
    · exact h0

/-- The second loop numbers the whole way down and clears the links it came by. -/
theorem descend_spec (hb : Built coin files s₀ order) {block : BlockRef}
    {path : List BlockRef} {fuel : Nat} (hi : Inv coin files s₀ order s)
    (hclean : CleanBut order (· = b) s) (hlink : Linked s b path)
    (hdesc : Descends (parent coin files s₀.toIndex) b path) (hmem : ∀ c ∈ b :: path, c ∈ order)
    (hlast : [block] <:+ b :: path)
    (hd : Depth (parent coin files s₀.toIndex) gNullBlock b n)
    (hp : b ≠ gNullBlock → ∃ p, (s.blocks b).prev = some p ∧ 0 ≤ (s.blocks p).height)
    (hfuel : path.length < fuel) :
    ∃ s', descend block fuel s b n = .ok s' ∧ Inv coin files s₀ order s' ∧
      CleanBut order (fun _ => False) s' ∧ 0 ≤ (s'.blocks block).height ∧
      ∀ c, 0 ≤ (s.blocks c).height → 0 ≤ (s'.blocks c).height := by
  induction path generalizing s b n fuel with
  | nil =>
    obtain ⟨hinv, hcl, hheight, hmono⟩ := visit_spec hi hclean (hmem b (by simp)) hd hp
    obtain ⟨k, rfl⟩ : ∃ k, fuel = k + 1 := ⟨fuel - 1, by simp at hfuel; omega⟩
    have hblock := eq_of_last_singleton hlast
    subst hblock
    exact ⟨_, by rw [descend, if_pos rfl], hinv, hcl, by rw [hheight]; omega, hmono⟩
  | cons c cs ih =>
    obtain ⟨hinv, hcl, hheight, hmono⟩ := visit_spec hi hclean (hmem b (by simp)) hd hp
    obtain ⟨k, rfl⟩ : ∃ k, fuel = k + 1 := ⟨fuel - 1, by omega⟩
    have hk : cs.length < k := by
      rw [List.length_cons] at hfuel
      omega
    obtain ⟨hnext, hprev, hneg, hlink'⟩ := hlink
    have hnd := hdesc.nodup hb.acyclic
    have hne : ∀ d ∈ c :: cs, d ≠ b := fun d hdm hdb => (List.nodup_cons.mp hnd).1 (hdb ▸ hdm)
    have hlast' := last_tail hlast
    have hblock : block ≠ b := hne block (hlast'.subset (by simp))
    -- `c` is the child of `b`, so it lies one step deeper and its parent has a height now
    have hdc : Depth (parent coin files s₀.toIndex) gNullBlock c (n + 1) :=
      Depth.step (hi.ne_null hneg) hdesc.1 hd
    have hpc : c ≠ gNullBlock → ∃ p, (((s.number b n).setNext b none).blocks c).prev = some p ∧
        0 ≤ (((s.number b n).setNext b none).blocks p).height :=
      fun _ => ⟨b, by simpa using hprev, by rw [hheight]; omega⟩
    have hclean' : CleanBut order (· = c) ((s.number b n).setNext b none) :=
      fun d hdm h0 _ => hcl d hdm h0 id
    have hlinkc : Linked ((s.number b n).setNext b none) c cs := by
      refine hlink'.congr ?_ ?_ ?_
      · intro d hdm
        simp [hne d hdm]
      · intro d _
        simp
      · intro d hdm
        simp [hne d (List.mem_cons_of_mem c hdm)]
    obtain ⟨s', hrun, hres⟩ := ih hinv hclean' hlinkc hdesc.2
      (fun d hdm => hmem d (List.mem_cons_of_mem b hdm)) hlast' hdc hpc hk
    refine ⟨s', ?_, hres.1, hres.2.1, hres.2.2.1, fun d h0 => hres.2.2.2 d (hmono d h0)⟩
    rw [descend, if_neg hblock]
    simpa [hnext] using hrun

/-- One call numbers the block if it is connected and takes no height away. -/
theorem computeBlockHeight_spec (hb : Built coin files s₀ order) {block : BlockRef} {fuel : Nat}
    (hi : Inv coin files s₀ order s) (hclean : CleanBut order (fun _ => False) s)
    (hm : block ∈ order) (hfuel : order.length < fuel) :
    ∃ s', computeBlockHeight coin files fuel s block = .ok s' ∧ Inv coin files s₀ order s' ∧
      CleanBut order (fun _ => False) s' ∧
      (Connected (parent coin files s₀.toIndex) gNullBlock block → 0 ≤ (s'.blocks block).height) ∧
      ∀ c, 0 ≤ (s.blocks c).height → 0 ≤ (s'.blocks c).height := by
  by_cases hnull : gNullBlock = block
  · refine ⟨s, by rw [computeBlockHeight, if_pos hnull], hi, hclean, fun _ => ?_, fun _ h => h⟩
    rw [← hnull, hi.null]
  · obtain ⟨s', o, hrun, hinv, hsame, hres⟩ := climb_spec hb hi
      (fun c hc h0 _ => hclean c hc h0 id) (show Linked s block [] from trivial) trivial
      (by simpa using hm) (show order.length < fuel + 0 by simpa using hfuel)
    rw [computeBlockHeight, if_neg hnull, hrun]
    cases o with
    | none =>
      obtain ⟨hcl, hconn⟩ := hres
      exact ⟨s', rfl, hinv, hcl, fun h => absurd h hconn, fun c h => by rwa [hsame]⟩
    | some r =>
      obtain ⟨hcl, h0, path, hlink, hdesc, hmem, hsuf⟩ := hres
      have hr := hmem r (by simp)
      rw [← hsame] at h0
      obtain hneg | ⟨n, hn, hd⟩ := hinv.height r hr
      · omega
      · have hlen : path.length < fuel := by
          have hle := (List.subperm_of_subset (hdesc.nodup hb.acyclic) hmem).length_le
          rw [List.length_cons] at hle
          omega
        obtain ⟨s'', hrun', hinv', hcl', hblock, hmono⟩ := descend_spec hb hinv hcl hlink hdesc hmem
          hsuf hd (fun hne => hinv.linked r hr hne h0) hlen
        refine ⟨s'', ?_, hinv', hcl', fun _ => hblock, fun c h => hmono c (by rwa [hsame])⟩
        dsimp only
        rw [hn]
        exact hrun'

theorem computeBlockHeights_spec (hb : Built coin files s₀ order) {fuel : Nat}
    (hfuel : order.length < fuel) (todo : List BlockRef) (htodo : ∀ b ∈ todo, b ∈ order)
    (hi : Inv coin files s₀ order s) (hclean : CleanBut order (fun _ => False) s) :
    ∃ s', computeBlockHeights coin files fuel todo s = .ok s' ∧ Inv coin files s₀ order s' ∧
      CleanBut order (fun _ => False) s' ∧
      (∀ b ∈ todo, Connected (parent coin files s₀.toIndex) gNullBlock b →
        0 ≤ (s'.blocks b).height) ∧
      ∀ c, 0 ≤ (s.blocks c).height → 0 ≤ (s'.blocks c).height := by
  induction todo generalizing s with
  | nil => exact ⟨s, rfl, hi, hclean, by simp, fun _ h => h⟩
  | cons b todo ih =>
    obtain ⟨s', hrun, hinv, hcl, hblock, hmono⟩ :=
      computeBlockHeight_spec hb hi hclean (htodo b (by simp)) hfuel
    obtain ⟨s'', hrun', hinv', hcl', hall, hmono'⟩ :=
      ih (fun c hc => htodo c (List.mem_cons_of_mem b hc)) hinv hcl
    refine ⟨s'', ?_, hinv', hcl', ?_, fun c h => hmono' c (hmono c h)⟩
    · rw [computeBlockHeights, hrun]
      exact hrun'
    · intro c hc hconn
      cases hc with
      | head => exact hmono' b (hblock hconn)
      | tail _ hc => exact hall c hc hconn

/-- The state pass 2 leaves. -/
structure Done (coin : Coin) (files : List (List UInt8)) (s₀ : State) (order : List BlockRef)
    (s : State) : Prop extends Inv coin files s₀ order s where
  clean : ∀ b ∈ order, 0 ≤ (s.blocks b).height → (s.blocks b).next = none
  numbered : ∀ b ∈ order, Connected (parent coin files s₀.toIndex) gNullBlock b →
    0 ≤ (s.blocks b).height

theorem Built.done (hb : Built coin files s₀ order) {fuel : Nat} (hfuel : order.length < fuel) :
    ∃ s, computeBlockHeights coin files fuel order s₀ = .ok s ∧ Done coin files s₀ order s := by
  obtain ⟨s, hrun, hinv, hcl, hall, -⟩ := computeBlockHeights_spec hb hfuel order
    (fun _ h => h) hb.inv (fun c hc _ _ => hb.next c hc)
  exact ⟨s, hrun, hinv, fun b hm h0 => hcl b hm h0 id, hall⟩

end Blockparser.Heights
