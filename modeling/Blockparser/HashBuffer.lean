import Blockparser.MultiSigKeys

/-! The caller's memory in solveOutputScript: the hash it is given has 20 bytes, and 32 bytes
are cleared there. -/
namespace Blockparser.HashBuffer
open Bytes MemoryManager Script
open MultiSig (digestsOf)

/-- solveOutputScript on the caller's memory. `pubKeyHash` and `addrType` are the pointers it
gets; the script is read from a memory of its own. -/
def solveInto (d : Digests) (s : ScriptPtr) (scriptSize : Nat) (m : Memory)
    (pubKeyHash addrType : Int) : Int × Memory :=
  let m := store m pubKeyHash (List.replicate 32 0)
  if isPubKeyHashScript s scriptSize then
    (0, store (store m pubKeyHash (read s 3 20)) addrType [0])
  else if isPubKeyScript s scriptSize 65 then
    (1, store (store m pubKeyHash (pubKeyHashOf d s 65).1) addrType [0])
  else if isPubKeyScript s scriptSize 33 then
    (2, store (store m pubKeyHash (pubKeyHashOf d s 33).1) addrType [0])
  else if isScriptHashScript s scriptSize then
    (3, store (store m pubKeyHash (read s 2 20)) addrType [5])
  else
    match isMultiSig s scriptSize with
    | some (needed, n, addresses) =>
      (4, store (store m pubKeyHash (packMultiSig d addresses needed n).1) addrType [8])
    | none =>
      if isP2PoolScript s then (-2, m)
      else if isCommentScript s scriptSize 0 then (-3, m)
      else if isChallengeScript s then (-4, m)
      else (-1, m)

/-- What follows the 20 bytes of the hash is as it was, and so is addrType where the script is
not solved. -/
structure FillsOnlyHash (m m' : Memory) (pubKeyHash addrType result : Int) : Prop where
  behind : ∀ a, pubKeyHash + 20 ≤ a → a ≠ addrType → m' a = m a
  addrType : result < 0 → m' addrType = m addrType

/-- The forms of a script that solveOutputScript solves. -/
def IsSolvable (s : ScriptPtr) (scriptSize : Nat) : Prop :=
  isPubKeyHashScript s scriptSize ∨ isPubKeyScript s scriptSize 65 ∨
    isPubKeyScript s scriptSize 33 ∨ isScriptHashScript s scriptSize ∨
    (isMultiSig s scriptSize).isSome = true

/-- The 12 bytes behind the hash are 0, but for an addrType that is written. -/
def ClearBehind (s : ScriptPtr) (scriptSize : Nat) (m : Memory) (pubKeyHash addrType : Int) :
    Prop :=
  ∀ a, pubKeyHash + 20 ≤ a → a < pubKeyHash + 32 →
    m a = 0 ∨ a = addrType ∧ IsSolvable s scriptSize

variable {d : Digests} {s : ScriptPtr} {size : Nat} {m : Memory} {pubKeyHash addrType a : Int}

/-- What solveOutputScript makes of the script is what it writes. -/
theorem solveInto_eq (d : Digests) (s : ScriptPtr) (size : Nat) (m : Memory)
    (pubKeyHash addrType : Int) :
    let r := solveOutputScript d s size (m addrType)
    let cleared := store m pubKeyHash (List.replicate 32 0)
    solveInto d s size m pubKeyHash addrType = (r.scriptType,
      if r.scriptType < 0 then cleared
      else store (store cleared pubKeyHash r.pubKeyHash.1) addrType [r.addrType]) := by
  dsimp only
  unfold solveInto solveOutputScript
  dsimp only
  split
  · rfl
  · split
    · rfl
    · split
      · rfl
      · split
        · rfl
        · cases isMultiSig s size with
          | some r => rfl
          | none =>
            simp only [solveRest]
            split
            · rfl
            · split
              · rfl
              · split <;> rfl

theorem isSolvable_iff (d : Digests) (b : UInt8) :
    IsSolvable s size ↔ 0 ≤ (solveOutputScript d s size b).scriptType := by
  unfold IsSolvable solveOutputScript
  split
  · next h => simp [h]
  · next h1 =>
    split
    · next h => simp [h]
    · next h2 =>
      split
      · next h => simp [h]
      · next h3 =>
        split
        · next h => simp [h]
        · next h4 =>
          cases isMultiSig s size with
          | some r => simp
          | none =>
            have hneg := MultiSig.solveRest_scriptType s size b
            simp [h1, h2, h3, h4, hneg]

/-- What the call leaves of a byte outside the 20 of the hash. -/
theorem solveInto_apply (hout : a < pubKeyHash ∨ pubKeyHash + 20 ≤ a)
    (h : a = addrType → ¬IsSolvable s size) :
    (solveInto d s size m pubKeyHash addrType).2 a =
      store m pubKeyHash (List.replicate 32 0) a := by
  rw [solveInto_eq]
  dsimp only
  split
  · rfl
  · next hpos =>
    have hsolved : IsSolvable s size := (isSolvable_iff d (m addrType)).mpr (by omega)
    have hne : a ≠ addrType := fun heq => h heq hsolved
    have hlen := (solveOutputScript d s size (m addrType)).pubKeyHash.2
    rw [store_of_disjoint (by rw [List.length_singleton]; omega),
      store_of_disjoint (by rw [hlen]; exact hout)]

theorem result_neg_iff :
    (solveInto d s size m pubKeyHash addrType).1 < 0 ↔ ¬IsSolvable s size := by
  rw [solveInto_eq, isSolvable_iff d (m addrType), not_le]

/-- Outside the 32 bytes that are cleared only addrType is written, and that for a solved
script. -/
theorem solveInto_outside (hout : a < pubKeyHash ∨ pubKeyHash + 32 ≤ a)
    (h : a = addrType → ¬IsSolvable s size) :
    (solveInto d s size m pubKeyHash addrType).2 a = m a := by
  rw [solveInto_apply (by omega) h, store_of_disjoint (by rw [List.length_replicate]; omega)]

/-- The 12 bytes behind the hash are cleared. -/
theorem solveInto_behind (h20 : pubKeyHash + 20 ≤ a) (h32 : a < pubKeyHash + 32)
    (h : a = addrType → ¬IsSolvable s size) :
    (solveInto d s size m pubKeyHash addrType).2 a = 0 := by
  rw [solveInto_apply (by omega) h, store_replicate (by omega) h32]

theorem clearBehind_of_fills
    (h : FillsOnlyHash m (solveInto d s size m pubKeyHash addrType).2 pubKeyHash addrType
      (solveInto d s size m pubKeyHash addrType).1) : ClearBehind s size m pubKeyHash addrType := by
  intro a h20 h32
  by_cases hsolved : a = addrType ∧ IsSolvable s size
  · exact Or.inr hsolved
  · left
    have hzero := solveInto_behind (d := d) (m := m) h20 h32 fun heq hs => hsolved ⟨heq, hs⟩
    by_cases heq : a = addrType
    · have hneg : (solveInto d s size m pubKeyHash addrType).1 < 0 :=
        result_neg_iff.mpr fun hs => hsolved ⟨heq, hs⟩
      rw [← hzero, heq, h.addrType hneg]
    · rw [← hzero, h.behind a h20 heq]

/-- Bytes that are 0 do not change when they are cleared. -/
theorem solveInto_kept (hclear : ClearBehind s size m pubKeyHash addrType)
    (hout : a < pubKeyHash ∨ pubKeyHash + 20 ≤ a) (h : a = addrType → ¬IsSolvable s size) :
    (solveInto d s size m pubKeyHash addrType).2 a = m a := by
  by_cases h32 : a < pubKeyHash ∨ pubKeyHash + 32 ≤ a
  · exact solveInto_outside h32 h
  · have h20 : pubKeyHash + 20 ≤ a := by omega
    rw [solveInto_behind h20 (by omega) h]
    cases hclear a h20 (by omega) with
    | inl hzero => exact hzero.symm
    | inr hsolved => exact absurd hsolved.2 (h hsolved.1)

/-- A call only fills the hash exactly where the 12 bytes behind it are 0 already: they are
what the call writes too much. A caller with 32 bytes for the hash loses nothing. -/
theorem fillsOnlyHash_iff (d : Digests) (s : ScriptPtr) (size : Nat) (m : Memory)
    (pubKeyHash addrType : Int) (hout : addrType < pubKeyHash ∨ pubKeyHash + 20 ≤ addrType) :
    (FillsOnlyHash m (solveInto d s size m pubKeyHash addrType).2 pubKeyHash addrType
        (solveInto d s size m pubKeyHash addrType).1 ↔
      ClearBehind s size m pubKeyHash addrType) ∧
    ∀ a, a < pubKeyHash ∨ pubKeyHash + 32 ≤ a → a ≠ addrType →
      (solveInto d s size m pubKeyHash addrType).2 a = m a := by
  refine ⟨⟨clearBehind_of_fills, ?_⟩, fun a ha hne => solveInto_outside ha fun heq => absurd heq hne⟩
  intro hclear
  constructor
  · intro a h20 hne
    exact solveInto_kept hclear (Or.inr h20) fun heq => absurd heq hne
  · intro hneg
    exact solveInto_kept hclear hout fun _ => result_neg_iff.mp hneg

/-- A script that pays to a hash of sevens. -/
def paying : ScriptPtr :=
  surrounded ([0x76, 0xA9, 20] ++ List.replicate 20 7 ++ [0x88, 0xAC]) 0

theorem fillsOnlyHash_iff_paying :
    FillsOnlyHash (fun _ => 0) (solveInto (digestsOf hashZero) paying 25 (fun _ => 0) 0 20).2 0 20
      (solveInto (digestsOf hashZero) paying 25 (fun _ => 0) 0 20).1 := by
  have hiff := fillsOnlyHash_iff (digestsOf hashZero) paying 25 (fun _ => 0) 0 20 (by decide)
  exact hiff.1.mpr fun a _ _ => Or.inl rfl

/-- The byte behind the hash is lost. -/
theorem solveInto_loses :
    (solveInto (digestsOf hashZero) paying 25 (fun _ => 1) 0 64).1 = 0 ∧
    (solveInto (digestsOf hashZero) paying 25 (fun _ => 1) 0 64).2 20 = 0 ∧
    ¬FillsOnlyHash (fun _ => 1) (solveInto (digestsOf hashZero) paying 25 (fun _ => 1) 0 64).2 0 64
      (solveInto (digestsOf hashZero) paying 25 (fun _ => 1) 0 64).1 := by
  have hzero : (solveInto (digestsOf hashZero) paying 25 (fun _ => 1) 0 64).2 20 = 0 :=
    solveInto_behind (by decide) (by decide) fun heq => absurd heq (by decide)
  refine ⟨?_, hzero, ?_⟩
  · rw [solveInto, if_pos (by decide)]
  · intro hfills
    have hkept := hfills.behind 20 (by decide) (by decide)
    rw [hzero] at hkept
    exact absurd hkept (by decide)

end Blockparser.HashBuffer
