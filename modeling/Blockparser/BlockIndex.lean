import Blockparser.Parser

/-! The block index: the blocks found in the block files and the hash table over
them, as pass 1 builds it and the later passes link it. -/
namespace Blockparser.BlockIndex
open Bytes MemoryManager Blockparser.Parser

/-- The bytes of a block in its file. The null block has no file. -/
structure Chunk where
  blockFile : Option Nat
  size : Nat
  offset : Nat
deriving DecidableEq

structure Block where
  chunk : Chunk
  hash : Hash256
  height : Int
  prev : Option BlockRef
  next : Option BlockRef
deriving DecidableEq

def Block.init (hash : Hash256) (blockFile : Option Nat) (size : Nat) (prev : Option BlockRef)
    (offset : Nat) : Block :=
  ⟨⟨blockFile, size, offset⟩, hash, -1, prev, none⟩

/-- The blocks by reference, how many `Block::alloc` has handed out, and `gBlockMap`
as a finite map. -/
structure Index where
  blocks : BlockRef → Block
  nbAlloc : Nat
  gBlockMap : Hash256 → Option BlockRef

/-- The reference of the first block that is allocated. -/
def gNullBlock : BlockRef := 0

/-- `buildNullBlock` on the empty index. -/
def buildNullBlock : Index where
  blocks _ := { Block.init nullHash none 0 none 0 with height := 0 }
  nbAlloc := 1
  gBlockMap := Function.update (fun _ => none) nullHash (some gNullBlock)

/-- `Block::alloc`, `init` and `gBlockMap[hash] = block`. -/
def Index.register (s : Index) (hash : Hash256) (blockFile : Option Nat) (size : Nat)
    (prev : Option BlockRef) (offset : Nat) : Index where
  blocks := Function.update s.blocks s.nbAlloc (Block.init hash blockFile size prev offset)
  nbAlloc := s.nbAlloc + 1
  gBlockMap := Function.update s.gBlockMap hash (some s.nbAlloc)

/-- Blocks are only added, and those added are of file `f` or a later one. -/
structure Grows (f : Nat) (s t : Index) : Prop where
  le : s.nbAlloc ≤ t.nbAlloc
  same : ∀ b < s.nbAlloc, t.blocks b = s.blocks b
  added : ∀ b, s.nbAlloc ≤ b → b < t.nbAlloc →
    ∃ g, f ≤ g ∧ (t.blocks b).chunk.blockFile = some g

variable {f g : Nat} {s t u : Index}

theorem Grows.refl (f : Nat) (s : Index) : Grows f s s where
  le := Nat.le_refl _
  same _ _ := rfl
  added _ h₁ h₂ := absurd h₂ (Nat.not_lt.mpr h₁)

theorem Grows.trans (hst : Grows f s t) (htu : Grows g t u) (hfg : f ≤ g) : Grows f s u where
  le := Nat.le_trans hst.le htu.le
  same b hb := by
    rw [htu.same b (Nat.lt_of_lt_of_le hb hst.le), hst.same b hb]
  added b h₁ h₂ := by
    by_cases hb : b < t.nbAlloc
    · rw [htu.same b hb]
      exact hst.added b h₁ hb
    · obtain ⟨i, hi, hfile⟩ := htu.added b (by omega) h₂
      exact ⟨i, by omega, hfile⟩

theorem Grows.register (s : Index) (hash : Hash256) (f size : Nat) (prev : Option BlockRef)
    (offset : Nat) : Grows f s (s.register hash (some f) size prev offset) where
  le := Nat.le_succ _
  same b hb := Function.update_of_ne (Nat.ne_of_lt hb) _ _
  added b h₁ h₂ := by
    have hb : b = s.nbAlloc := by
      simp only [Index.register] at h₂
      omega
    exact ⟨f, Nat.le_refl _, by simp [Index.register, Block.init, hb]⟩

end Blockparser.BlockIndex
