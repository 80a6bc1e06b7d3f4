import Blockparser.Lib.Window
import Blockparser.Parser

/-! Output scripts: the push decoder, the script walkers and solveOutputScript. A script
is given by a pointer and a size, and the code may read on either side of it. -/
namespace Blockparser.Script
open Bytes MemoryManager

/-- What a script pointer reads: byte `i` behind it, or before it. -/
abbrev ScriptPtr := Memory

structure Digests where
  sha256 : List UInt8 → Hash256
  rmd160 : List UInt8 → Hash160

/-- What solveOutputScript makes of a script: its result and the two buffers it fills. -/
@[ext] structure Solved where
  scriptType : Int
  pubKeyHash : Hash160
  addrType : UInt8
deriving DecidableEq

structure Push where
  ok : Bool
  dataSize : Nat
  p : Int

def isImmediate (c : UInt8) : Prop := 0 < c ∧ c < 79

instance (c : UInt8) : Decidable (isImmediate c) := by unfold isImmediate; infer_instance

/-- The size a push opcode announces, and the cursor behind it. -/
def pushSize (s : ScriptPtr) (c : UInt8) (p : Int) : Nat × Int :=
  if c ≤ 75 then (c.toNat, p)
  else if c = 76 then (load s p 1, p + 1)
  else if c = 77 then (load s p 2, p + 2)
  else (load s p 4, p + 4)

def getOpPushData (s : ScriptPtr) (p : Int) : Push :=
  let c := s p
  if isImmediate c then
    let r := pushSize s c (p + 1)
    if 512 * 1024 < r.1 then ⟨false, r.1, r.2⟩ else ⟨true, r.1, r.2 + r.1⟩
  else ⟨false, 0, p⟩

variable {s : ScriptPtr} {p e : Int}

theorem pushSize_ge (s : ScriptPtr) (c : UInt8) (p : Int) : p ≤ (pushSize s c p).2 := by
  unfold pushSize
  split
  · exact Int.le_refl p
  · split
    · dsimp only; omega
    · split <;> dsimp only <;> omega

theorem getOpPushData_ge (s : ScriptPtr) (p : Int) : p ≤ (getOpPushData s p).p := by
  have hge := pushSize_ge s (s p) (p + 1)
  unfold getOpPushData
  dsimp only
  split
  · split <;> dsimp only <;> omega
  · exact Int.le_refl p

theorem getOpPushData_gt (h : (getOpPushData s p).ok = true) : p < (getOpPushData s p).p := by
  unfold getOpPushData at h ⊢
  dsimp only at h ⊢
  split at h
  · split at h
    · cases h
    · next hc hs =>
      have hge := pushSize_ge s (s p) (p + 1)
      rw [if_pos hc, if_neg hs]
      dsimp only
      omega
  · cases h

def isCommentScript (s : ScriptPtr) (e p : Int) : Bool :=
  if p < e then
    if isImmediate (s p) then
      if _h : (getOpPushData s p).ok = true then isCommentScript s e (getOpPushData s p).p
      else false
    else if s p = 0x6A then isCommentScript s e (p + 1)
    else false
  else true
termination_by (e - p).toNat
decreasing_by
  · have := getOpPushData_gt _h
    omega
  · omega

/-- The 20 bytes in front of the cursor. -/
def keyBefore (s : ScriptPtr) (p : Int) : Hash160 := ⟨read s (p - 20) 20, by simp⟩

/-- The key loop of isMultiSig: the cursor and the addresses at the break, or `none` for
the return inside the loop. -/
def multiSigKeys (s : ScriptPtr) (e p : Int) (addresses : List Hash160) :
    Option (Int × List Hash160) :=
  if _he : e ≤ (getOpPushData s p).p then none
  else if _h : (getOpPushData s p).ok = true then
    multiSigKeys s e (getOpPushData s p).p (addresses ++ [keyBefore s (getOpPushData s p).p])
  else some ((getOpPushData s p).p, addresses)
termination_by (e - p).toNat
decreasing_by
  have := getOpPushData_gt _h
  omega

/-- `OP_1` to `OP_16` stand for their number. -/
def opNumber (c : UInt8) : Int := (c.toNat : Int) - 0x50

/-- `m`, `n` and the addresses of a multisig script. -/
def isMultiSig (s : ScriptPtr) (scriptSize : Nat) : Option (Int × Int × List Hash160) :=
  if scriptSize ≤ 5 then none
  else
    let m := opNumber (s 0)
    if ¬(1 ≤ m ∧ m ≤ 16) then none
    else
      match multiSigKeys s scriptSize 1 [] with
      | none => none
      | some (p, addresses) =>
        let n := opNumber (s p)
        if ¬(1 ≤ n ∧ n ≤ 16) ∨ n ≠ addresses.length then none
        else if s (p + 1) = 0xAE ∧ m ≤ n ∧ p + 2 = scriptSize then some (m, n, addresses)
        else none

/-- `Compare160`: byte by byte, true for equal arrays. -/
def compare160 (a b : Hash160) : Bool :=
  let rec go : List UInt8 → List UInt8 → Bool
    | a :: as, b :: bs => if a = b then go as bs else a < b
    | _, _ => true
  go a.1 b.1

/-- What packMultiSig hashes: the two numbers and the sorted addresses. -/
def multiSigData (addresses : List Hash160) (m n : Int) : List UInt8 :=
  UInt8.ofInt m :: UInt8.ofInt n :: (addresses.mergeSort compare160).flatMap Subtype.val

def packMultiSig (d : Digests) (addresses : List Hash160) (m n : Int) : Hash160 :=
  d.rmd160 (multiSigData addresses m n)

def hashZero : Hash160 := ⟨List.replicate 20 0, by simp⟩

/-- The scripts p2pool created for a while. -/
def isP2PoolScript (s : ScriptPtr) : Prop :=
  s 0 = 0x73 ∧ s 1 = 0x63 ∧ s 2 = 0x72 ∧ s 3 = 0x69 ∧ s 4 = 0x70 ∧ s 5 = 0x74

instance (s : ScriptPtr) : Decidable (isP2PoolScript s) := by unfold isP2PoolScript; infer_instance

/-- A challenge that pays to the hash of nothing. -/
def isChallengeScript (s : ScriptPtr) : Prop :=
  s 0 = 0x76 ∧ s 1 = 0xA9 ∧ s 2 = 0x00 ∧ s 3 = 0x88 ∧ s 4 = 0xAC

instance (s : ScriptPtr) : Decidable (isChallengeScript s) := by
  unfold isChallengeScript; infer_instance

/-- The most common output script, that pays to the hash of a public key. -/
def isPubKeyHashScript (s : ScriptPtr) (scriptSize : Nat) : Prop :=
  s 0 = 0x76 ∧ s 1 = 0xA9 ∧ s 2 = 20 ∧ s (scriptSize - 2) = 0x88 ∧ s (scriptSize - 1) = 0xAC ∧
    scriptSize = 25

/-- A script that pays to an explicit public key of `len` bytes. -/
def isPubKeyScript (s : ScriptPtr) (scriptSize len : Nat) : Prop :=
  s 0 = UInt8.ofNat len ∧ s (scriptSize - 1) = 0xAC ∧ scriptSize = len + 2

/-- A script that pays to the hash of a script. -/
def isScriptHashScript (s : ScriptPtr) (scriptSize : Nat) : Prop :=
  s 0 = 0xA9 ∧ s 1 = 20 ∧ s (scriptSize - 1) = 0x87 ∧ scriptSize = 23

instance (s : ScriptPtr) (n : Nat) : Decidable (isPubKeyHashScript s n) := by
  unfold isPubKeyHashScript; infer_instance

instance (s : ScriptPtr) (n k : Nat) : Decidable (isPubKeyScript s n k) := by
  unfold isPubKeyScript; infer_instance

instance (s : ScriptPtr) (n : Nat) : Decidable (isScriptHashScript s n) := by
  unfold isScriptHashScript; infer_instance

def pubKeyHashOf (d : Digests) (s : ScriptPtr) (len : Nat) : Hash160 :=
  d.rmd160 (d.sha256 (read s 1 len)).1

/-- The part of solveOutputScript behind the standard scripts. -/
def solveRest (s : ScriptPtr) (scriptSize : Nat) (addrType : UInt8) : Solved :=
  if isP2PoolScript s then ⟨-2, hashZero, addrType⟩
  else if isCommentScript s scriptSize 0 then ⟨-3, hashZero, addrType⟩
  else if isChallengeScript s then ⟨-4, hashZero, addrType⟩
  else ⟨-1, hashZero, addrType⟩

/-- `addrType` is what the caller's buffer holds before the call. -/
def solveOutputScript (d : Digests) (s : ScriptPtr) (scriptSize : Nat) (addrType : UInt8) :
    Solved :=
  if isPubKeyHashScript s scriptSize then ⟨0, ⟨read s 3 20, by simp⟩, 0⟩
  else if isPubKeyScript s scriptSize 65 then ⟨1, pubKeyHashOf d s 65, 0⟩
  else if isPubKeyScript s scriptSize 33 then ⟨2, pubKeyHashOf d s 33, 0⟩
  else if isScriptHashScript s scriptSize then ⟨3, ⟨read s 2 20, by simp⟩, 5⟩
  else
    match isMultiSig s scriptSize with
    | some (m, n, addresses) => ⟨4, packMultiSig d addresses m n, 8⟩
    | none => solveRest s scriptSize addrType

/-! What the walkers read of a script of `n` bytes. -/

variable {t : ScriptPtr} {n q : Int}

/-- The number of bytes a push opcode loads for the size. -/
def pushWidth (c : UInt8) : Nat :=
  if c ≤ 75 then 0 else if c = 76 then 1 else if c = 77 then 2 else 4

theorem pushSize_snd (s : ScriptPtr) (c : UInt8) (p : Int) :
    (pushSize s c p).2 = p + pushWidth c := by
  unfold pushSize pushWidth
  split
  · simp
  · split
    · rfl
    · split <;> rfl

theorem pushSize_congr (h : Agree n s t) (hp : 0 ≤ p) {c : UInt8} (hw : p + pushWidth c ≤ n) :
    pushSize s c p = pushSize t c p := by
  unfold pushSize
  unfold pushWidth at hw
  split
  · rfl
  · next h75 =>
    rw [if_neg h75] at hw
    split
    · next h76 => rw [h.load hp (by simpa [h76] using hw)]
    · next h76 =>
      rw [if_neg h76] at hw
      split
      · next h77 => rw [h.load hp (by simpa [h77] using hw)]
      · next h77 => rw [h.load hp (by simpa [h77] using hw)]

theorem getOpPushData_inside (h : Agree n s t) (hp : 0 ≤ p) (hw : p + 1 + pushWidth (s p) ≤ n) :
    getOpPushData s p = getOpPushData t p := by
  have hw0 : 0 ≤ (pushWidth (s p) : Int) := by omega
  have hc := h p hp (by omega)
  unfold getOpPushData
  dsimp only
  rw [← hc, pushSize_congr h (by omega) hw]

/-- A push reads only the script, or its size runs over the end and so does the cursor. -/
theorem getOpPushData_agree (h : Agree n s t) (hp : 0 ≤ p) (hn : p < n) :
    getOpPushData s p = getOpPushData t p ∨
      (n < (getOpPushData s p).p ∧ n < (getOpPushData t p).p) := by
  by_cases hw : p + 1 + pushWidth (s p) ≤ n
  · exact Or.inl (getOpPushData_inside h hp hw)
  · unfold getOpPushData
    rw [← h p hp hn]
    dsimp only
    by_cases hc : isImmediate (s p)
    · rw [if_pos hc, if_pos hc]
      refine Or.inr ⟨?_, ?_⟩
      · split <;> simp only [pushSize_snd] <;> omega
      · split <;> simp only [pushSize_snd] <;> omega
    · rw [if_neg hc, if_neg hc]
      exact Or.inl rfl

/-- The comment walk gets from one cursor to the other. -/
inductive Reaches (s : ScriptPtr) (n : Int) : Int → Int → Prop
  | refl (p : Int) : Reaches s n p p
  | opReturn {p q : Int} : p < n → s p = 0x6A → Reaches s n (p + 1) q → Reaches s n p q
  | push {p q : Int} : p < n → (getOpPushData s p).ok = true →
      Reaches s n (getOpPushData s p).p q → Reaches s n p q

theorem ok_isImmediate (h : (getOpPushData s p).ok = true) : isImmediate (s p) := by
  unfold getOpPushData at h
  by_contra hc
  simp [hc] at h

theorem not_isImmediate_return : ¬isImmediate 0x6A := by decide

theorem isCommentScript_end (s : ScriptPtr) (h : n ≤ p) : isCommentScript s n p = true := by
  rw [isCommentScript, if_neg (by omega)]

theorem isCommentScript_return (hp : p < n) (h : s p = 0x6A) :
    isCommentScript s n p = isCommentScript s n (p + 1) := by
  rw [isCommentScript, if_pos hp, h, if_neg not_isImmediate_return, if_pos rfl]

theorem isCommentScript_push (hp : p < n) (h : (getOpPushData s p).ok = true) :
    isCommentScript s n p = isCommentScript s n (getOpPushData s p).p := by
  rw [isCommentScript, if_pos hp, if_pos (ok_isImmediate h), dif_pos h]

theorem Reaches.isCommentScript_eq (h : Reaches s n p q) :
    isCommentScript s n p = isCommentScript s n q := by
  induction h with
  | refl => rfl
  | opReturn hp hc _ ih => rw [isCommentScript_return hp hc, ih]
  | push hp hok _ ih => rw [isCommentScript_push hp hok, ih]

theorem Reaches.le (h : Reaches s n p q) : p ≤ q := by
  induction h with
  | refl => omega
  | opReturn _ _ _ ih => omega
  | push _ hok _ ih =>
    have := getOpPushData_gt hok
    omega

theorem Reaches.congr (ha : Agree n s t) (h : Reaches s n p q) (hp : 0 ≤ p) (hq : q < n) :
    Reaches t n p q := by
  induction h with
  | refl p => exact Reaches.refl p
  | @opReturn p q hpn hc hr ih =>
    refine Reaches.opReturn hpn ?_ (ih (by omega) hq)
    rw [← ha p hp hpn, hc]
  | @push p q hpn hok hr ih =>
    have hgt := getOpPushData_gt hok
    have hle := hr.le
    have heq : getOpPushData s p = getOpPushData t p := by
      cases getOpPushData_agree ha hp hpn with
      | inl heq => exact heq
      | inr hout => omega
    refine Reaches.push hpn (by rwa [← heq]) ?_
    rw [← heq]
    exact ih (by omega) hq

/-- At `q` stands an `OP_PUSHDATA4` whose size runs over the end of the script, and what
there is of the size is small. -/
def Truncated (s : ScriptPtr) (n q : Int) : Prop :=
  q < n ∧ n < q + 5 ∧ s q = 0x4E ∧ load s (q + 1) 4 ≤ 512 * 1024

/-- A size of one or two bytes is always small enough, so the cursor passes the end. -/
theorem push_overrun (hc : isImmediate (s p)) (h78 : s p ≠ 78) (hn : p < n)
    (hw : n < p + 1 + pushWidth (s p)) :
    (getOpPushData s p).ok = true ∧ n < (getOpPushData s p).p := by
  have hwide : ¬s p ≤ 75 := by
    intro h75
    simp only [pushWidth, h75, if_true] at hw
    omega
  have hsmall : (pushSize s (s p) (p + 1)).1 ≤ 512 * 1024 := by
    unfold pushSize
    rw [if_neg hwide]
    split
    · have := load_lt s (p + 1) 1
      dsimp only
      omega
    · next h76 =>
      split
      · have := load_lt s (p + 1) 2
        dsimp only
        omega
      · next h77 =>
        -- the only push opcode left is the one excluded
        refine absurd (UInt8.toNat_inj.mp ?_) h78
        have h79 := hc.2
        have h75' := UInt8.not_le.mp hwide
        have h76' : (s p).toNat ≠ 76 := fun h => h76 (UInt8.toNat_inj.mp h)
        have h77' : (s p).toNat ≠ 77 := fun h => h77 (UInt8.toNat_inj.mp h)
        rw [UInt8.lt_iff_toNat_lt] at h79 h75'
        simp at h79 h75' ⊢
        omega
  unfold getOpPushData
  dsimp only
  rw [if_pos hc, if_neg (by omega)]
  simp only [pushSize_snd, true_and]
  omega

theorem getOpPushData_78 (h : s p = 78) : getOpPushData s p =
    if 512 * 1024 < load s (p + 1) 4 then ⟨false, load s (p + 1) 4, p + 5⟩
    else ⟨true, load s (p + 1) 4, p + 5 + load s (p + 1) 4⟩ := by
  have hsize : pushSize s 78 (p + 1) = (load s (p + 1) 4, p + 5) := by
    rw [show p + 5 = p + 1 + 4 by ring]
    rfl
  unfold getOpPushData
  dsimp only
  rw [h, if_pos (by decide), hsize]

/-- Unless the walk over the script alone meets a truncated size, it gives the same
result whatever lies around the script. -/
theorem isCommentScript_congr (ha : Agree n s t) (h0 : ∀ i, n ≤ i → t i = 0) (hp : 0 ≤ p)
    (htr : ∀ q, Reaches t n p q → ¬Truncated t n q) :
    isCommentScript s n p = isCommentScript t n p := by
  fun_induction isCommentScript t n p with
  | case1 p hpn hc hok ih =>
    have hcs : isImmediate (s p) := by rwa [ha p hp hpn]
    have htrue : (getOpPushData s p).ok = true → isCommentScript s n p =
        isCommentScript s n (getOpPushData s p).p := isCommentScript_push hpn
    by_cases hw : p + 1 + pushWidth (s p) ≤ n
    · have heq := getOpPushData_inside ha hp hw
      have hgt := getOpPushData_gt hok
      rw [htrue (by rwa [heq]), heq]
      exact ih (by omega) fun q hq => htr q (.push hpn hok hq)
    · have h78 : s p ≠ 78 := by
        intro h78
        have ht78 : t p = 78 := by rw [← ha p hp hpn, h78]
        refine htr p (.refl p) ⟨hpn, ?_, ht78, ?_⟩
        · simp only [h78, pushWidth] at hw
          norm_num at hw
          omega
        · rw [getOpPushData_78 ht78] at hok
          split at hok
          · cases hok
          · omega
      obtain ⟨hoks, hps⟩ := push_overrun hcs h78 hpn (by omega)
      have heqc := ha p hp hpn
      obtain ⟨-, hpt⟩ := push_overrun hc (by rwa [← heqc]) hpn (by rw [← heqc]; omega)
      rw [htrue hoks, isCommentScript_end s (by omega), isCommentScript_end t (by omega)]
  | case2 p hpn hc hok =>
    have hcs : isImmediate (s p) := by rwa [ha p hp hpn]
    have hoks : ¬(getOpPushData s p).ok = true := by
      by_cases hw : p + 1 + pushWidth (s p) ≤ n
      · rwa [getOpPushData_inside ha hp hw]
      · have heqc := ha p hp hpn
        by_cases h78 : s p = 78
        · have ht78 : t p = 78 := by rw [← heqc, h78]
          have hle : load t (p + 1) 4 ≤ load s (p + 1) 4 := by
            refine load_mono fun i hi => ?_
            by_cases hin : p + 1 + (i : Int) < n
            · rw [ha _ (by omega) hin]
              exact UInt8.le_refl _
            · rw [h0 _ (by omega)]
              exact UInt8.zero_le
          rw [getOpPushData_78 ht78] at hok
          rw [getOpPushData_78 h78]
          split at hok
          · rw [if_pos (by omega)]
            exact Bool.false_ne_true
          · exact absurd rfl hok
        · exact absurd (push_overrun hc (by rwa [← heqc]) hpn (by rw [← heqc]; omega)).1 hok
    rw [isCommentScript, if_pos hpn, if_pos hcs, dif_neg hoks]
  | case3 p hpn hc hret ih =>
    rw [isCommentScript_return hpn (by rwa [ha p hp hpn])]
    exact ih (by omega) fun q hq => htr q (.opReturn hpn hret hq)
  | case4 p hpn hc hret =>
    rw [isCommentScript, if_pos hpn, ha p hp hpn, if_neg hc, if_neg hret]
  | case5 p hpn => exact isCommentScript_end s (by omega)

/-- The cursors behind the keys of a multisig script, and the cursor at the break. -/
def keyEnds (s : ScriptPtr) (e p : Int) : Option (Int × List Int) :=
  if _he : e ≤ (getOpPushData s p).p then none
  else if _h : (getOpPushData s p).ok = true then
    (keyEnds s e (getOpPushData s p).p).map fun r => (r.1, (getOpPushData s p).p :: r.2)
  else some ((getOpPushData s p).p, [])
termination_by (e - p).toNat
decreasing_by
  have := getOpPushData_gt _h
  omega

theorem multiSigKeys_eq (s : ScriptPtr) (e p : Int) (addresses : List Hash160) :
    multiSigKeys s e p addresses =
      (keyEnds s e p).map fun r => (r.1, addresses ++ r.2.map (keyBefore s)) := by
  fun_induction multiSigKeys s e p addresses with
  | case1 p addresses he =>
    rw [keyEnds, dif_pos he]
    rfl
  | case2 p addresses he hok ih =>
    rw [keyEnds, dif_neg he, dif_pos hok, ih]
    cases keyEnds s e (getOpPushData s p).p with
    | none => rfl
    | some r => simp
  | case3 p addresses he hok =>
    rw [keyEnds, dif_neg he, dif_neg hok]
    simp

/-- Where the keys end depends on the script alone. -/
theorem keyEnds_congr (ha : Agree n s t) (hp : 0 ≤ p) (hn : p < n) :
    keyEnds s n p = keyEnds t n p := by
  fun_induction keyEnds s n p with
  | case1 p he =>
    rw [keyEnds, dif_pos ?_]
    cases getOpPushData_agree ha hp hn with
    | inl heq => rwa [← heq]
    | inr hout => omega
  | case2 p he hok ih =>
    have hgt := getOpPushData_gt hok
    cases getOpPushData_agree ha hp hn with
    | inl heq =>
      have ht : keyEnds t n p = (keyEnds t n (getOpPushData t p).p).map
          fun r => (r.1, (getOpPushData t p).p :: r.2) := by
        rw [keyEnds, dif_neg (by rwa [← heq]), dif_pos (by rwa [← heq])]
      rw [ht, ih (by omega) (by omega), heq]
    | inr hout => omega
  | case3 p he hok =>
    cases getOpPushData_agree ha hp hn with
    | inl heq => rw [keyEnds, dif_neg (by rwa [← heq]), dif_neg (by rwa [← heq]), heq]
    | inr hout => omega

/-- Keys and break lie inside the script. -/
theorem keyEnds_lt {r : Int × List Int} (h : keyEnds s n p = some r) (hp : 0 ≤ p) :
    (0 ≤ r.1 ∧ r.1 < n) ∧ ∀ x ∈ r.2, 0 < x ∧ x < n := by
  fun_induction keyEnds s n p generalizing r with
  | case1 p he => cases h
  | case2 p he hok ih =>
    have hgt := getOpPushData_gt hok
    obtain ⟨r', hr', rfl⟩ := Option.map_eq_some_iff.mp h
    obtain ⟨hbreak, hends⟩ := ih hr' (by omega)
    refine ⟨hbreak, ?_⟩
    intro x hx
    cases List.mem_cons.mp hx with
    | inl hx => omega
    | inr hx => exact hends x hx
  | case3 p he hok =>
    cases h
    have hge := getOpPushData_ge s p
    exact ⟨⟨by omega, by omega⟩, by simp⟩

/-- isMultiSig with the ends of the keys in place of the addresses. -/
def multiSigShape (s : ScriptPtr) (scriptSize : Nat) : Option (Int × Int × List Int) :=
  if scriptSize ≤ 5 then none
  else
    let m := opNumber (s 0)
    if ¬(1 ≤ m ∧ m ≤ 16) then none
    else
      match keyEnds s scriptSize 1 with
      | none => none
      | some (p, ends) =>
        let n := opNumber (s p)
        if ¬(1 ≤ n ∧ n ≤ 16) ∨ n ≠ ends.length then none
        else if s (p + 1) = 0xAE ∧ m ≤ n ∧ p + 2 = scriptSize then some (m, n, ends)
        else none

theorem isMultiSig_eq (s : ScriptPtr) (scriptSize : Nat) :
    isMultiSig s scriptSize =
      (multiSigShape s scriptSize).map fun r => (r.1, r.2.1, r.2.2.map (keyBefore s)) := by
  unfold isMultiSig multiSigShape
  rw [multiSigKeys_eq]
  split
  · rfl
  · dsimp only
    split
    · rfl
    · cases keyEnds s scriptSize 1 with
      | none => rfl
      | some r =>
        simp only [Option.map_some, List.nil_append, List.length_map]
        split
        · rfl
        · split <;> rfl

/-- Acceptance, the two numbers and the places of the keys depend on the script alone. -/
theorem multiSigShape_congr {size : Nat} (ha : Agree size s t) :
    multiSigShape s size = multiSigShape t size := by
  unfold multiSigShape
  by_cases h5 : size ≤ 5
  · rw [if_pos h5, if_pos h5]
  · rw [if_neg h5, if_neg h5, ha 0 (by omega) (by omega),
      keyEnds_congr ha (by omega) (by omega)]
    dsimp only
    split
    · rfl
    · cases hk : keyEnds t size 1 with
      | none => rfl
      | some r =>
        obtain ⟨⟨hr0, hrn⟩, -⟩ := keyEnds_lt hk (by omega)
        dsimp only
        rw [ha r.1 hr0 hrn]
        split
        · rfl
        · -- the byte behind the last number is read outside only when it is not the last
          by_cases hend : r.1 + 2 = size
          · rw [ha (r.1 + 1) (by omega) (by omega)]
          · rw [if_neg (by tauto), if_neg (by tauto)]

theorem multiSigShape_ends {size : Nat} {r : Int × Int × List Int}
    (h : multiSigShape s size = some r) : ∀ x ∈ r.2.2, 0 < x ∧ x < size := by
  unfold multiSigShape at h
  split at h
  · cases h
  · dsimp only at h
    split at h
    · cases h
    · split at h
      · cases h
      · next hk =>
        have hends := (keyEnds_lt hk (by omega)).2
        split at h
        · cases h
        · split at h
          · cases h
            exact hends
          · cases h

theorem keyBefore_congr (ha : Agree n s t) {x : Int} (h20 : 20 ≤ x) (hx : x < n) :
    keyBefore s x = keyBefore t x :=
  Subtype.ext (ha.read (by omega) (by omega))

/-- Without a key that ends before offset 20 a multisig script is read from itself. -/
theorem isMultiSig_congr {size : Nat} (ha : Agree size s t)
    (hlong : ∀ r, multiSigShape t size = some r → ∀ x ∈ r.2.2, 20 ≤ x) :
    isMultiSig s size = isMultiSig t size := by
  rw [isMultiSig_eq, isMultiSig_eq, multiSigShape_congr ha]
  cases hm : multiSigShape t size with
  | none => rfl
  | some r =>
    have hends := multiSigShape_ends hm
    have hkeys : r.2.2.map (keyBefore s) = r.2.2.map (keyBefore t) := by
      refine List.map_congr_left fun x hx => ?_
      exact keyBefore_congr ha (hlong r hm x hx) (hends x hx).2
    simp [hkeys]

end Blockparser.Script
