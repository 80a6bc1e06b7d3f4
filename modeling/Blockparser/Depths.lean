import Blockparser.Heights

/-! After pass 2 the heights are depths, in whatever order the table is walked and the
blocks were found. -/
namespace Blockparser.Heights
open Bytes MemoryManager Blockparser.Parser BlockIndex Headers Forest

variable {coin : Coin} {files : List (List UInt8)} {s₀ s : State} {order : List BlockRef}
  {b : BlockRef} {n : Nat}

theorem Done.height_eq (hs : Done coin files s₀ order s) (hm : b ∈ order)
    (hd : Depth (parent coin files s₀.toIndex) gNullBlock b n) : (s.blocks b).height = n := by
  have h0 := hs.numbered b hm ⟨n, hd⟩
  obtain hneg | ⟨k, hk, hdk⟩ := hs.height b hm
  · omega
  · rw [hk, hdk.unique hd]

theorem Done.height_orphan (hs : Done coin files s₀ order s) (hm : b ∈ order)
    (hn : ¬Connected (parent coin files s₀.toIndex) gNullBlock b) :
    (s.blocks b).height = -1 := by
  obtain hneg | ⟨k, -, hdk⟩ := hs.height b hm
  · exact hneg
  · exact absurd ⟨k, hdk⟩ hn

theorem Built.null_mem (hb : Built coin files s₀ order) : gNullBlock ∈ order :=
  (hb.mem_iff gNullBlock).mpr ⟨nullHash, hb.null⟩

/-- The greatest height is the height of some block of the table. -/
theorem Done.max_mem (hb : Built coin files s₀ order) (hs : Done coin files s₀ order s) :
    ∃ m ∈ order, (s.blocks m).height = s.gMaxHeight := by
  obtain ⟨-, h0⟩ | ⟨m, hm, -, hmax, -⟩ := hs.max
  · exact ⟨gNullBlock, hb.null_mem, by rw [hs.null, h0]⟩
  · exact ⟨m, hm, hmax⟩

/-- What the heights are: the depths of the connected blocks. -/
structure Numbered (coin : Coin) (files : List (List UInt8)) (s₀ : State)
    (order : List BlockRef) (s : State) : Prop where
  height : ∀ b ∈ order, ∀ n, Depth (parent coin files s₀.toIndex) gNullBlock b n →
    (s.blocks b).height = n
  orphan : ∀ b ∈ order, ¬Connected (parent coin files s₀.toIndex) gNullBlock b →
    (s.blocks b).height < 0
  next : ∀ b ∈ order, Connected (parent coin files s₀.toIndex) gNullBlock b →
    (s.blocks b).next = none
  max : (∃ b ∈ order, b ≠ gNullBlock ∧ Connected (parent coin files s₀.toIndex) gNullBlock b) →
    ∃ m ∈ order, s.gMaxBlock = some m ∧
      Connected (parent coin files s₀.toIndex) gNullBlock m ∧
      (s.blocks m).height = s.gMaxHeight ∧
      ∀ b ∈ order, (s.blocks b).height ≤ s.gMaxHeight

/-- With a connected block besides the null block there is a `gMaxBlock`. -/
theorem Done.maxBlock (hs : Done coin files s₀ order s) (hm : b ∈ order) (hne : b ≠ gNullBlock)
    (hc : Connected (parent coin files s₀.toIndex) gNullBlock b) :
    ∃ m ∈ order, ∃ k : Nat, s.gMaxBlock = some m ∧ (s.blocks m).height = s.gMaxHeight ∧
      s.gMaxHeight = k ∧ 0 < k ∧ Depth (parent coin files s₀.toIndex) gNullBlock m k := by
  obtain ⟨n, hd⟩ := hc
  have hle := hs.le_max b hm
  rw [hs.height_eq hm hd] at hle
  have hpos := hd.pos hne
  obtain ⟨-, h0⟩ | ⟨m, hmm, hmax, hheight, -⟩ := hs.max
  · omega
  · obtain hneg | ⟨k, hk, hdk⟩ := hs.height m hmm
    · omega
    · exact ⟨m, hmm, k, hmax, hheight, by omega, by omega, hdk⟩

theorem Done.numberedBlocks (hs : Done coin files s₀ order s) :
    Numbered coin files s₀ order s where
  height _ hm _ hd := hs.height_eq hm hd
  orphan b hm hn := by
    rw [hs.height_orphan hm hn]
    omega
  next b hm hc := hs.clean b hm (hs.numbered b hm hc)
  max := by
    rintro ⟨b, hm, hne, hc⟩
    obtain ⟨m, hmm, k, hmax, hheight, -, -, hdk⟩ := hs.maxBlock hm hne hc
    exact ⟨m, hmm, hmax, ⟨k, hdk⟩, hheight, hs.le_max⟩

/-- Two block tables over the same headers, wherever the blocks stand. -/
structure SameHeaders (coin : Coin) (files₁ : List (List UInt8)) (s₁ : State)
    (files₂ : List (List UInt8)) (s₂ : State) : Prop where
  hashes : ∀ h, (s₁.gBlockMap h).isSome = (s₂.gBlockMap h).isSome
  parents : ∀ h b₁ b₂, s₁.gBlockMap h = some b₁ → s₂.gBlockMap h = some b₂ → h ≠ nullHash →
    parentHash coin files₁ (s₁.blocks b₁).chunk = parentHash coin files₂ (s₂.blocks b₂).chunk

section
variable {files₁ files₂ : List (List UInt8)} {s₁ s₂ t₁ t₂ : State}
  {order₁ order₂ : List BlockRef}

theorem SameHeaders.symm (h : SameHeaders coin files₁ s₁ files₂ s₂) :
    SameHeaders coin files₂ s₂ files₁ s₁ where
  hashes k := (h.hashes k).symm
  parents k b₁ b₂ h₁ h₂ hk := (h.parents k b₂ b₁ h₂ h₁ hk).symm

theorem Built.eq_null_iff (hb : Built coin files s₀ order) {h : Hash256}
    (hh : s₀.gBlockMap h = some b) : b = gNullBlock ↔ h = nullHash := by
  constructor
  · intro he
    subst he
    rw [← hb.keys h _ hh, hb.keys nullHash _ hb.null]
  · intro he
    subst he
    exact (Option.some.inj (hb.null.symm.trans hh)).symm

/-- The depth of a block is fixed by the headers. -/
theorem SameHeaders.depth (h : SameHeaders coin files₁ s₁ files₂ s₂)
    (hb₁ : Built coin files₁ s₁ order₁) (hb₂ : Built coin files₂ s₂ order₂) {b₁ : BlockRef}
    (hd : Depth (parent coin files₁ s₁.toIndex) gNullBlock b₁ n) :
    ∀ k b₂, s₁.gBlockMap k = some b₁ → s₂.gBlockMap k = some b₂ →
      Depth (parent coin files₂ s₂.toIndex) gNullBlock b₂ n := by
  induction hd with
  | root =>
    intro k b₂ hk₁ hk₂
    have hk := (hb₁.eq_null_iff hk₁).mp rfl
    rw [(hb₂.eq_null_iff hk₂).mpr hk]
    exact Depth.root
  | @step b p n hne hp _ ih =>
    intro k b₂ hk₁ hk₂
    have hk : k ≠ nullHash := fun hk => hne ((hb₁.eq_null_iff hk₁).mpr hk)
    have hne₂ : b₂ ≠ gNullBlock := fun hb => hk ((hb₂.eq_null_iff hk₂).mp hb)
    rw [parent, if_neg hne] at hp
    obtain ⟨q, hq, hfind⟩ := Option.bind_eq_some_iff.mp hp
    obtain ⟨p₂, hp₂⟩ := Option.isSome_iff_exists.mp (by rw [← h.hashes q, hfind]; rfl)
    refine Depth.step hne₂ ?_ (ih q p₂ hfind hp₂)
    rw [parent, if_neg hne₂, ← h.parents k b b₂ hk₁ hk₂ hk, hq]
    exact hp₂

theorem SameHeaders.height (h : SameHeaders coin files₁ s₁ files₂ s₂)
    (hb₁ : Built coin files₁ s₁ order₁) (hb₂ : Built coin files₂ s₂ order₂)
    (ht₁ : Done coin files₁ s₁ order₁ t₁) (ht₂ : Done coin files₂ s₂ order₂ t₂) {k : Hash256}
    {b₁ b₂ : BlockRef} (hk₁ : s₁.gBlockMap k = some b₁) (hk₂ : s₂.gBlockMap k = some b₂) :
    (t₂.blocks b₂).height = (t₁.blocks b₁).height := by
  have hm₁ := (hb₁.mem_iff b₁).mpr ⟨k, hk₁⟩
  have hm₂ := (hb₂.mem_iff b₂).mpr ⟨k, hk₂⟩
  by_cases hc : Connected (parent coin files₁ s₁.toIndex) gNullBlock b₁
  · obtain ⟨n, hd⟩ := hc
    rw [ht₁.height_eq hm₁ hd, ht₂.height_eq hm₂ (h.depth hb₁ hb₂ hd k b₂ hk₁ hk₂)]
  · have hc₂ : ¬Connected (parent coin files₂ s₂.toIndex) gNullBlock b₂ := fun ⟨n, hd⟩ =>
      hc ⟨n, h.symm.depth hb₂ hb₁ hd k b₁ hk₂ hk₁⟩
    rw [ht₁.height_orphan hm₁ hc, ht₂.height_orphan hm₂ hc₂]

theorem SameHeaders.max_le (h : SameHeaders coin files₁ s₁ files₂ s₂)
    (hb₁ : Built coin files₁ s₁ order₁) (hb₂ : Built coin files₂ s₂ order₂)
    (ht₁ : Done coin files₁ s₁ order₁ t₁) (ht₂ : Done coin files₂ s₂ order₂ t₂) :
    t₁.gMaxHeight ≤ t₂.gMaxHeight := by
  obtain ⟨m, hm, hmax⟩ := ht₁.max_mem hb₁
  obtain ⟨k, hk⟩ := (hb₁.mem_iff m).mp hm
  obtain ⟨m₂, hk₂⟩ := Option.isSome_iff_exists.mp (by rw [← h.hashes k, hk]; rfl)
  rw [← hmax, ← h.height hb₁ hb₂ ht₁ ht₂ hk hk₂]
  exact ht₂.le_max m₂ ((hb₂.mem_iff m₂).mpr ⟨k, hk₂⟩)

end

/-- Heights are depths, in whatever order the table is walked and the blocks were found. -/
theorem computeBlockHeights_depths (coin : Coin) (files : List (List UInt8)) (s : State)
    (order : List BlockRef) (fuel : Nat) (hb : Built coin files s order)
    (hfuel : order.length < fuel) :
    ∃ t, computeBlockHeights coin files fuel order s = .ok t ∧ Numbered coin files s order t ∧
      ∀ files₂ s₂ order₂ fuel₂, Built coin files₂ s₂ order₂ → order₂.length < fuel₂ →
        SameHeaders coin files s files₂ s₂ →
        ∃ t₂, computeBlockHeights coin files₂ fuel₂ order₂ s₂ = .ok t₂ ∧
          t₂.gMaxHeight = t.gMaxHeight ∧
          ∀ k b b₂, s.gBlockMap k = some b → s₂.gBlockMap k = some b₂ →
            (t₂.blocks b₂).height = (t.blocks b).height := by
  obtain ⟨t, hrun, ht⟩ := hb.done hfuel
  refine ⟨t, hrun, ht.numberedBlocks, ?_⟩
  intro files₂ s₂ order₂ fuel₂ hb₂ hfuel₂ hsame
  obtain ⟨t₂, hrun₂, ht₂⟩ := hb₂.done hfuel₂
  refine ⟨t₂, hrun₂, ?_, fun k b b₂ hk hk₂ => hsame.height hb hb₂ ht ht₂ hk hk₂⟩
  exact Int.le_antisymm (hsame.symm.max_le hb₂ hb ht₂ ht) (hsame.max_le hb hb₂ ht ht₂)

/-- A header that names `p` as parent. -/
def headerOn (p : UInt8) : List UInt8 :=
  List.replicate 4 0 ++ List.replicate 32 p ++ List.replicate 44 0

def keyOf (k : UInt8) : Hash256 := ⟨List.replicate 32 k, by simp⟩

/-- Three headers: a first block, its child, and a block whose parent is not known. -/
def smallFile : List UInt8 := headerOn 0 ++ headerOn 1 ++ headerOn 9

/-- The first block is linked, its child is linked late, the third block is an orphan. -/
def smallTable : State where
  blocks b :=
    match b with
    | 1 => Block.init (keyOf 1) (some 0) 80 (some 0) 0
    | 2 => Block.init (keyOf 2) (some 0) 80 none 80
    | 3 => Block.init (keyOf 3) (some 0) 80 none 160
    | _ => { Block.init nullHash none 0 none 0 with height := 0 }
  nbAlloc := 4
  gBlockMap h :=
    if h = nullHash then some 0 else if h = keyOf 1 then some 1 else if h = keyOf 2 then some 2
    else if h = keyOf 3 then some 3 else none
  gMaxHeight := 0
  gMaxBlock := none
  lateLinks := 0

theorem smallTable_parent (b : BlockRef) : parent .bitcoin [smallFile] smallTable.toIndex b =
    if b = 1 then some 0 else if b = 2 then some 1 else none := by
  match b with
  | 0 => rfl
  | 1 => decide +kernel
  | 2 => decide +kernel
  | 3 => decide +kernel
  | n + 4 => simp [parent, gNullBlock, smallTable, parentHash, readBlockHeader, Block.init]

theorem smallTable_find {h : Hash256} {b : BlockRef} (hf : smallTable.gBlockMap h = some b) :
    (h, b) ∈ [(nullHash, 0), (keyOf 1, 1), (keyOf 2, 2), (keyOf 3, 3)] := by
  unfold smallTable at hf
  dsimp only at hf
  split at hf
  · next hh => simp_all
  · split at hf
    · next hh => simp_all
    · split at hf
      · next hh => simp_all
      · split at hf
        · next hh => simp_all
        · cases hf

theorem smallTable_built : Built .bitcoin [smallFile] smallTable [2, 3, 1, 0] where
  nodup := by decide
  mem_iff b := by
    constructor
    · have hall : ∀ b ∈ [2, 3, 1, 0], ∃ h ∈ [nullHash, keyOf 1, keyOf 2, keyOf 3],
          smallTable.gBlockMap h = some b := by decide +kernel
      intro hb
      obtain ⟨h, -, hf⟩ := hall b hb
      exact ⟨h, hf⟩
    · rintro ⟨h, hf⟩
      have hm := smallTable_find hf
      simp at hm
      simp
      tauto
  keys h b hf := by
    have hall : ∀ x ∈ [(nullHash, 0), (keyOf 1, 1), (keyOf 2, 2), (keyOf 3, 3)],
        (smallTable.blocks x.2).hash = x.1 := by decide +kernel
    exact hall (h, b) (smallTable_find hf)
  null := by decide +kernel
  nullHeight := rfl
  height := by decide
  readable := by
    have hall : ∀ b ∈ [2, 3, 1, 0], b ≠ gNullBlock →
        (readBlockHeader .bitcoin [smallFile] (smallTable.blocks b).chunk).toOption.isSome := by
      decide +kernel
    intro b hb hn
    have hb' := hall b hb hn
    cases hr : readBlockHeader .bitcoin [smallFile] (smallTable.blocks b).chunk with
    | ok buf => exact ⟨buf, rfl⟩
    | error e =>
      rw [hr] at hb'
      cases hb'
  prev := by decide +kernel
  next := by decide
  acyclic := by
    refine acyclic_of_rank id fun b p hp => ?_
    rw [smallTable_parent] at hp
    split at hp
    · cases hp
      simp_all
    · split at hp
      · cases hp
        simp_all
      · cases hp
  maxHeight := rfl
  maxBlock := rfl

theorem computeBlockHeights_depths_smallTable :
    ∃ t, computeBlockHeights .bitcoin [smallFile] 5 [2, 3, 1, 0] smallTable = .ok t ∧
      Numbered .bitcoin [smallFile] smallTable [2, 3, 1, 0] t := by
  obtain ⟨t, hrun, hnum, -⟩ := computeBlockHeights_depths .bitcoin [smallFile] smallTable
    [2, 3, 1, 0] 5 smallTable_built (by decide)
  exact ⟨t, hrun, hnum⟩

end Blockparser.Heights
