import Blockparser.Script

/-! Which scripts solveOutputScript classifies by their own bytes: exactly those it solves
without a look at the bytes before and behind them. -/
namespace Blockparser.Classification
open Bytes MemoryManager Script

def p2PoolPattern : List UInt8 := [0x73, 0x63, 0x72, 0x69, 0x70, 0x74]
def challengePattern : List UInt8 := [0x76, 0xA9, 0x00, 0x88, 0xAC]

theorem isP2PoolScript_iff (s : ScriptPtr) : isP2PoolScript s ↔ Holds s 0 p2PoolPattern := by
  simp [isP2PoolScript, p2PoolPattern, holds_cons]

theorem isChallengeScript_iff (s : ScriptPtr) :
    isChallengeScript s ↔ Holds s 0 challengePattern := by
  simp [isChallengeScript, challengePattern, holds_cons]

/-- The scripts solveOutputScript solves without a look at the bytes around them. It is
not shorter than a pattern it begins, the comment walk meets no truncated size (with zeros
around the script), and no key of a multisig script ends less than 20 bytes behind its
start. -/
structure Contained (script : List UInt8) : Prop where
  p2pool : script <+: p2PoolPattern → p2PoolPattern.length ≤ script.length
  challenge : script <+: challengePattern → challengePattern.length ≤ script.length
  comment : ∀ q, Reaches (surrounded script 0) script.length 0 q →
    ¬Truncated (surrounded script 0) script.length q
  multiSig : ∀ r, multiSigShape (surrounded script 0) script.length = some r → ∀ x ∈ r.2.2, 20 ≤ x

/-- The type and the hash depend on the bytes of the script alone. -/
def ByScriptAlone (script : List UInt8) : Prop :=
  ∀ (d : Digests) (addrType : UInt8) (s t : ScriptPtr), Holds s 0 script → Holds t 0 script →
    (solveOutputScript d s script.length addrType).scriptType =
        (solveOutputScript d t script.length addrType).scriptType ∧
      (solveOutputScript d s script.length addrType).pubKeyHash =
        (solveOutputScript d t script.length addrType).pubKeyHash

section
variable {s t : ScriptPtr} {p : Int} {size : Nat} {script : List UInt8} {d : Digests}
  {addrType : UInt8}

/-- What solveOutputScript can return: one of the five types with its address type, or
what is left for the rest. -/
theorem solveOutputScript_cases (d : Digests) (addrType : UInt8) (s : ScriptPtr) (size : Nat) :
    (∃ h, solveOutputScript d s size addrType = ⟨0, h, 0⟩) ∨
    (∃ h, solveOutputScript d s size addrType = ⟨1, h, 0⟩) ∨
    (∃ h, solveOutputScript d s size addrType = ⟨2, h, 0⟩) ∨
    (∃ h, solveOutputScript d s size addrType = ⟨3, h, 5⟩) ∨
    (∃ h, solveOutputScript d s size addrType = ⟨4, h, 8⟩) ∨
    solveOutputScript d s size addrType = solveRest s size addrType := by
  unfold solveOutputScript
  split
  · exact Or.inl ⟨_, rfl⟩
  · split
    · exact Or.inr (Or.inl ⟨_, rfl⟩)
    · split
      · exact Or.inr (Or.inr (Or.inl ⟨_, rfl⟩))
      · split
        · exact Or.inr (Or.inr (Or.inr (Or.inl ⟨_, rfl⟩)))
        · cases isMultiSig s size with
          | some r => exact Or.inr (Or.inr (Or.inr (Or.inr (Or.inl ⟨_, rfl⟩))))
          | none => exact Or.inr (Or.inr (Or.inr (Or.inr (Or.inr rfl))))

/-- The rest is never solved, and a comment is the only script with -3. -/
theorem solveRest_spec (s : ScriptPtr) (size : Nat) (addrType : UInt8) :
    (solveRest s size addrType).scriptType < 0 ∧ (solveRest s size addrType).addrType = addrType ∧
      ((solveRest s size addrType).scriptType = -3 → isCommentScript s size 0 = true) := by
  unfold solveRest
  split
  · dsimp only
    exact ⟨by decide, rfl, fun h => absurd h (by decide)⟩
  · split
    · next hco =>
      dsimp only
      exact ⟨by decide, rfl, fun _ => hco⟩
    · split
      · dsimp only
        exact ⟨by decide, rfl, fun h => absurd h (by decide)⟩
      · dsimp only
        exact ⟨by decide, rfl, fun h => absurd h (by decide)⟩

/-- The address type goes with the script type. -/
theorem solveOutputScript_addrType (d : Digests) (addrType : UInt8) (s : ScriptPtr) (size : Nat) :
    (solveOutputScript d s size addrType).addrType =
      if (solveOutputScript d s size addrType).scriptType < 0 then addrType
      else if (solveOutputScript d s size addrType).scriptType = 3 then 5
      else if (solveOutputScript d s size addrType).scriptType = 4 then 8 else 0 := by
  obtain ⟨h, he⟩ | ⟨h, he⟩ | ⟨h, he⟩ | ⟨h, he⟩ | ⟨h, he⟩ | he :=
    solveOutputScript_cases d addrType s size
  · rw [he]
    rfl
  · rw [he]
    rfl
  · rw [he]
    rfl
  · rw [he]
    rfl
  · rw [he]
    rfl
  · obtain ⟨hneg, haddr, -⟩ := solveRest_spec s size addrType
    rw [he, haddr, if_pos hneg]

theorem ByScriptAlone.solve_eq (h : ByScriptAlone script) (d : Digests) (addrType : UInt8)
    (hs : Holds s 0 script) (ht : Holds t 0 script) :
    solveOutputScript d s script.length addrType =
      solveOutputScript d t script.length addrType := by
  obtain ⟨htype, hhash⟩ := h d addrType s t hs ht
  have haddr := solveOutputScript_addrType d addrType s script.length
  rw [htype, ← solveOutputScript_addrType] at haddr
  exact Solved.ext htype hhash haddr

theorem isPubKeyHashScript_congr (ha : Agree size s t) :
    isPubKeyHashScript s size ↔ isPubKeyHashScript t size := by
  unfold isPubKeyHashScript
  by_cases hn : size = 25
  · subst hn
    rw [ha 0 (by omega) (by omega), ha 1 (by omega) (by omega), ha 2 (by omega) (by omega),
      ha _ (by omega) (show ((25 : Nat) : Int) - 2 < _ by omega),
      ha _ (by omega) (show ((25 : Nat) : Int) - 1 < _ by omega)]
  · simp [hn]

theorem isPubKeyScript_congr (ha : Agree size s t) (len : Nat) :
    isPubKeyScript s size len ↔ isPubKeyScript t size len := by
  unfold isPubKeyScript
  by_cases hn : size = len + 2
  · rw [ha 0 (by omega) (by omega), ha (size - 1) (by omega) (by omega)]
  · simp [hn]

theorem isScriptHashScript_congr (ha : Agree size s t) :
    isScriptHashScript s size ↔ isScriptHashScript t size := by
  unfold isScriptHashScript
  by_cases hn : size = 23
  · subst hn
    rw [ha 0 (by omega) (by omega), ha 1 (by omega) (by omega),
      ha _ (by omega) (show ((23 : Nat) : Int) - 1 < _ by omega)]
  · simp [hn]

theorem pubKeyHashOf_congr (ha : Agree size s t) {len : Nat} (h : len + 2 ≤ size) :
    pubKeyHashOf d s len = pubKeyHashOf d t len := by
  rw [pubKeyHashOf, pubKeyHashOf, ha.read (by omega) (by omega)]

theorem solveRest_congr (hs : Holds s 0 script) (hc : Contained script) :
    solveRest s script.length addrType =
      solveRest (surrounded script 0) script.length addrType := by
  have ht := holds_surrounded script 0
  have ha := agree_of_holds hs ht
  have h0 : ∀ i : Int, (script.length : Int) ≤ i → surrounded script 0 i = 0 :=
    fun _ hi => surrounded_outside script 0 (Or.inr hi)
  have hp2 : isP2PoolScript s ↔ isP2PoolScript (surrounded script 0) := by
    rw [isP2PoolScript_iff, isP2PoolScript_iff, holds_congr hs ht hc.p2pool]
  have hch : isChallengeScript s ↔ isChallengeScript (surrounded script 0) := by
    rw [isChallengeScript_iff, isChallengeScript_iff, holds_congr hs ht hc.challenge]
  have hco := isCommentScript_congr ha h0 (Int.le_refl 0) hc.comment
  simp only [solveRest, hp2, hch, hco]

/-- A contained script is solved as if nothing stood around it. -/
theorem solveOutputScript_surrounded (d : Digests) (addrType : UInt8) (hs : Holds s 0 script)
    (hc : Contained script) :
    solveOutputScript d s script.length addrType =
      solveOutputScript d (surrounded script 0) script.length addrType := by
  have ht := holds_surrounded script 0
  have ha := agree_of_holds hs ht
  have hms := isMultiSig_congr ha hc.multiSig
  have h1 := isPubKeyHashScript_congr ha
  have h2 := isPubKeyScript_congr ha 65
  have h3 := isPubKeyScript_congr ha 33
  have h4 := isScriptHashScript_congr ha
  unfold solveOutputScript
  by_cases hp1 : isPubKeyHashScript (surrounded script 0) script.length
  · have hread := ha.read (show (0 : Int) ≤ 3 by omega)
      (show 3 + ((20 : Nat) : Int) ≤ script.length by rw [hp1.2.2.2.2.2]; omega)
    rw [if_pos (h1.mpr hp1), if_pos hp1]
    simp only [hread]
  · rw [if_neg (mt h1.mp hp1), if_neg hp1]
    by_cases hp2 : isPubKeyScript (surrounded script 0) script.length 65
    · rw [if_pos (h2.mpr hp2), if_pos hp2, pubKeyHashOf_congr ha (by rw [hp2.2.2])]
    · rw [if_neg (mt h2.mp hp2), if_neg hp2]
      by_cases hp3 : isPubKeyScript (surrounded script 0) script.length 33
      · rw [if_pos (h3.mpr hp3), if_pos hp3, pubKeyHashOf_congr ha (by rw [hp3.2.2])]
      · rw [if_neg (mt h3.mp hp3), if_neg hp3]
        by_cases hp4 : isScriptHashScript (surrounded script 0) script.length
        · have hread := ha.read (show (0 : Int) ≤ 2 by omega)
            (show 2 + ((20 : Nat) : Int) ≤ script.length by rw [hp4.2.2.2]; omega)
          rw [if_pos (h4.mpr hp4), if_pos hp4]
          simp only [hread]
        · rw [if_neg (mt h4.mp hp4), if_neg hp4, hms, solveRest_congr hs hc]

/-- What is not a standard script and no multisig script falls to the rest. -/
theorem solveOutputScript_rest (h1 : ¬isPubKeyHashScript s size) (h2 : ¬isPubKeyScript s size 65)
    (h3 : ¬isPubKeyScript s size 33) (h4 : ¬isScriptHashScript s size)
    (h5 : isMultiSig s size = none) :
    solveOutputScript d s size addrType = solveRest s size addrType := by
  rw [solveOutputScript, if_neg h1, if_neg h2, if_neg h3, if_neg h4, h5]

theorem solveOutputScript_short (hn : size ≤ 5) :
    solveOutputScript d s size addrType = solveRest s size addrType := by
  refine solveOutputScript_rest ?_ ?_ ?_ ?_ (by rw [isMultiSig, if_pos hn])
  · rintro ⟨-, -, -, -, -, h⟩
    omega
  · rintro ⟨-, -, h⟩
    omega
  · rintro ⟨-, -, h⟩
    omega
  · rintro ⟨-, -, -, h⟩
    omega

/-- A beginning of the p2pool pattern is solved with the bytes behind it. -/
theorem ByScriptAlone.p2pool (h : ByScriptAlone script) (hpre : script <+: p2PoolPattern) :
    p2PoolPattern.length ≤ script.length := by
  by_contra hlt
  have hlen : script.length ≤ 5 := by
    simp [p2PoolPattern] at hlt
    omega
  have hs := holds_surrounded p2PoolPattern 0
  have ht := holds_surrounded script 1
  have heq := h.solve_eq ⟨fun _ => nullHash, fun _ => hashZero⟩ 0 (holds_of_isPrefix hpre hs) ht
  rw [solveOutputScript_short hlen, solveOutputScript_short hlen, solveRest, solveRest,
    if_pos ((isP2PoolScript_iff _).mpr hs), if_neg ?_] at heq
  · have htype := congrArg Solved.scriptType heq
    split at htype
    · cases htype
    · split at htype <;> cases htype
  · rw [isP2PoolScript_iff]
    exact not_holds_surrounded (by omega) (by decide)

/-- The first byte of a beginning of the challenge pattern. -/
theorem ByScriptAlone.challenge (h : ByScriptAlone script)
    (hpre : script <+: challengePattern) : challengePattern.length ≤ script.length := by
  by_contra hlt
  have hlen : script.length ≤ 5 := by
    simp [challengePattern] at hlt
    omega
  have hpos : 0 < script.length := by
    by_contra h0
    have hnil : script = [] := List.length_eq_zero_iff.mp (by omega)
    have hp := h.p2pool (by rw [hnil]; exact List.nil_prefix)
    simp [p2PoolPattern] at hp
    omega
  have hs := holds_surrounded challengePattern 0
  have hs' := holds_of_isPrefix hpre hs
  have ht := holds_surrounded script 1
  have ha := agree_of_holds hs' ht
  have heq := h.solve_eq ⟨fun _ => nullHash, fun _ => hashZero⟩ 0 hs' ht
  have hfirst : surrounded challengePattern 0 0 = 0x76 := rfl
  have hfirst' : surrounded script 1 0 = 0x76 := by rw [← ha 0 (by omega) (by omega), hfirst]
  have hrest : ∀ u : ScriptPtr, u 0 = 0x76 → solveRest u script.length 0 =
      if isChallengeScript u then ⟨-4, hashZero, 0⟩ else ⟨-1, hashZero, 0⟩ := by
    intro u hu
    have hp2 : ¬isP2PoolScript u := by
      rintro ⟨h0, -⟩
      rw [hu] at h0
      exact absurd h0 (by decide)
    have hco : isCommentScript u script.length 0 = false := by
      rw [isCommentScript, if_pos (by omega), hu, if_neg (by decide), if_neg (by decide)]
    rw [solveRest, if_neg hp2, hco, if_neg (by decide)]
  rw [solveOutputScript_short hlen, solveOutputScript_short hlen, hrest _ hfirst, hrest _ hfirst',
    if_pos ((isChallengeScript_iff _).mpr hs), if_neg ?_] at heq
  · cases congrArg Solved.scriptType heq
  · rw [isChallengeScript_iff]
    exact not_holds_surrounded (by omega) (by decide)

theorem getOpPushData_key (len : Nat) (h0 : 0 < len) (h75 : len ≤ 75) (hs : s p = UInt8.ofNat len) :
    getOpPushData s p = ⟨true, len, p + 1 + len⟩ := by
  have hlen : (UInt8.ofNat len).toNat = len := by simp; omega
  have hc : isImmediate (s p) := by
    rw [hs]
    constructor
    · rw [UInt8.lt_iff_toNat_lt, hlen]
      exact h0
    · rw [UInt8.lt_iff_toNat_lt, hlen]
      exact Nat.lt_of_le_of_lt h75 (by decide)
  have hle : UInt8.ofNat len ≤ 75 := by
    rw [UInt8.le_iff_toNat_le, hlen]
    exact h75
  unfold getOpPushData
  dsimp only
  rw [if_pos hc, hs, pushSize, if_pos hle, hlen, if_neg (by omega)]

/-- A script that pays to a public key is no comment: OP_CHECKSIG stands behind the key. -/
theorem isPubKeyScript_not_comment {len : Nat} (h0 : 0 < len) (h75 : len ≤ 75)
    (h : isPubKeyScript s size len) : isCommentScript s size 0 = false := by
  obtain ⟨hfirst, hlast, hsize⟩ := h
  have hpush := getOpPushData_key len h0 h75 hfirst
  have hend : (size : Int) - 1 = 0 + 1 + len := by omega
  rw [isCommentScript_push (by omega) (by rw [hpush]), hpush]
  dsimp only
  rw [isCommentScript, if_pos (by omega), ← hend, hlast, if_neg (by decide), if_neg (by decide)]

/-- A comment starts with a push or with OP_RETURN. -/
theorem comment_first (hco : isCommentScript s size 0 = true) (hpos : 0 < size) :
    isImmediate (s 0) ∨ s 0 = 0x6A := by
  rw [isCommentScript, if_pos (by omega)] at hco
  by_cases hc : isImmediate (s 0)
  · exact Or.inl hc
  · rw [if_neg hc] at hco
    by_cases hret : s 0 = 0x6A
    · exact Or.inr hret
    · rw [if_neg hret] at hco
      cases hco

theorem opNumber_iff (c : UInt8) : (1 ≤ opNumber c ∧ opNumber c ≤ 16) ↔
    0x51 ≤ c.toNat ∧ c.toNat ≤ 0x60 := by
  unfold opNumber
  omega

theorem multiSig_first {r : Int × Int × List Int} (h : multiSigShape s size = some r) :
    5 < size ∧ 0x51 ≤ (s 0).toNat ∧ (s 0).toNat ≤ 0x60 := by
  unfold multiSigShape at h
  split at h
  · cases h
  · next h5 =>
    dsimp only at h
    split at h
    · cases h
    · next hm =>
      rw [not_not, opNumber_iff] at hm
      exact ⟨by omega, hm⟩

theorem isMultiSig_none (h : multiSigShape s size = none) : isMultiSig s size = none := by
  rw [isMultiSig_eq, h]
  rfl

/-- A comment is solved as one. -/
theorem solveOutputScript_comment (hco : isCommentScript s size 0 = true) (hpos : 0 < size) :
    solveOutputScript d s size addrType = ⟨-3, hashZero, addrType⟩ := by
  have hfirst := comment_first hco hpos
  have hno : ∀ c : UInt8, 79 ≤ c → c ≠ 0x6A → s 0 ≠ c := by
    intro c hc hret hs
    rw [hs] at hfirst
    cases hfirst with
    | inl himm => exact absurd himm.2 (UInt8.not_lt.mpr hc)
    | inr h => exact hret h
  have hms : multiSigShape s size = none := by
    by_contra hsome
    obtain ⟨r, hr⟩ := Option.ne_none_iff_exists'.mp hsome
    obtain ⟨-, h51, h60⟩ := multiSig_first hr
    refine hno (s 0) ?_ ?_ rfl
    · rw [UInt8.le_iff_toNat_le]
      exact Nat.le_trans (by decide) h51
    · intro hret
      rw [hret] at h60
      exact absurd h60 (by decide)
  rw [solveOutputScript_rest, solveRest, if_neg, if_pos hco]
  · exact fun h => hno 0x73 (by decide) (by decide) h.1
  · exact fun h => hno 0x76 (by decide) (by decide) h.1
  · intro h
    rw [isPubKeyScript_not_comment (by omega) (by omega) h] at hco
    cases hco
  · intro h
    rw [isPubKeyScript_not_comment (by omega) (by omega) h] at hco
    cases hco
  · exact fun h => hno 0xA9 (by decide) (by decide) h.1
  · exact isMultiSig_none hms

/-- Only a comment is solved as one. -/
theorem comment_of_scriptType (h : (solveOutputScript d s size addrType).scriptType = -3) :
    isCommentScript s size 0 = true := by
  obtain ⟨g, he⟩ | ⟨g, he⟩ | ⟨g, he⟩ | ⟨g, he⟩ | ⟨g, he⟩ | he :=
    solveOutputScript_cases d addrType s size
  · rw [he] at h
    cases h
  · rw [he] at h
    cases h
  · rw [he] at h
    cases h
  · rw [he] at h
    cases h
  · rw [he] at h
    cases h
  · rw [he] at h
    exact (solveRest_spec s size addrType).2.2 h

/-- With bytes of all ones behind the script a truncated size is too large. -/
theorem load_truncated {q : Int} (hq : q < script.length) (hend : (script.length : Int) < q + 5) :
    512 * 1024 < load (surrounded script 0xFF) (q + 1) 4 := by
  have hlast := surrounded_outside script 0xFF (i := q + 1 + 1 + 1 + 1) (Or.inr (by omega))
  have hmax : (0xFF : UInt8).toNat = 255 := rfl
  simp only [load, Bytes.read, leNat, hlast, hmax]
  omega

/-- A truncated size is small with zeros behind the script, and too large with ones. -/
theorem ByScriptAlone.comment (h : ByScriptAlone script) (q : Int)
    (hr : Reaches (surrounded script 0) script.length 0 q) :
    ¬Truncated (surrounded script 0) script.length q := by
  rintro ⟨hq, hend, h78, hsmall⟩
  have hq0 := hr.le
  have hs := holds_surrounded script 0
  have ht := holds_surrounded script 0xFF
  have ha := agree_of_holds hs ht
  have hcs : isCommentScript (surrounded script 0) script.length 0 = true := by
    have hpush := getOpPushData_78 h78
    rw [if_neg (by omega)] at hpush
    rw [hr.isCommentScript_eq, isCommentScript_push hq (by rw [hpush]), hpush]
    refine isCommentScript_end _ ?_
    dsimp only
    omega
  have hct : isCommentScript (surrounded script 0xFF) script.length 0 = false := by
    have h78' : surrounded script 0xFF q = 78 := by rw [← ha q hq0 hq, h78]
    have hpush := getOpPushData_78 h78'
    rw [if_pos (load_truncated hq hend)] at hpush
    have hok : ¬(getOpPushData (surrounded script 0xFF) q).ok = true := by simp [hpush]
    rw [(hr.congr ha (Int.le_refl 0) hq).isCommentScript_eq, isCommentScript, if_pos hq,
      if_pos (by rw [h78']; decide), dif_neg hok]
  have heq := h.solve_eq ⟨fun _ => nullHash, fun _ => hashZero⟩ 0 hs ht
  rw [solveOutputScript_comment hcs (by omega)] at heq
  rw [comment_of_scriptType (by rw [← heq])] at hct
  cases hct

/-! Two multisig scripts with a short key: the bytes before the script end up in the
hashed data. -/

theorem weight_keyBefore_le (script : List UInt8) (x : Int) :
    weight (keyBefore (surrounded script 0) x).1 ≤ weight (keyBefore (surrounded script 1) x).1 :=
  weight_read_le (surrounded_le script 1) _

theorem weight_keyBefore_lt (script : List UInt8) {x : Int} (h20 : x < 20) :
    weight (keyBefore (surrounded script 0) x).1 < weight (keyBefore (surrounded script 1) x).1 := by
  refine weight_read_lt (surrounded_le script 1) ?_
  rw [surrounded_outside script 0 (by omega), surrounded_outside script 1 (by omega)]
  decide

/-- The sort does not change the weight. -/
theorem weight_multiSigData (addresses : List Hash160) (m n : Int) :
    weight (multiSigData addresses m n) = (UInt8.ofInt m).toNat + ((UInt8.ofInt n).toNat +
      (addresses.map fun a => weight a.1).sum) := by
  have hperm := (List.mergeSort_perm addresses compare160).map fun a => weight a.1
  have hflat : ∀ l : List Hash160, weight (l.flatMap Subtype.val) =
      (l.map fun a => weight a.1).sum := by
    intro l
    induction l with
    | nil => rfl
    | cons a l ih =>
      rw [List.flatMap_cons, weight, List.map_append, List.sum_append, List.map_cons,
        List.sum_cons, ← ih]
      rfl
  rw [← hperm.sum_eq, ← hflat]
  rfl

theorem multiSigData_ne (script : List UInt8) {ends : List Int} {x : Int} (hx : x ∈ ends)
    (h20 : x < 20) (m n : Int) :
    multiSigData (ends.map (keyBefore (surrounded script 0))) m n ≠
      multiSigData (ends.map (keyBefore (surrounded script 1))) m n := by
  intro heq
  have hsum := congrArg weight heq
  rw [weight_multiSigData, weight_multiSigData, List.map_map, List.map_map] at hsum
  have hlt := List.sum_lt_sum (l := ends)
    ((fun a : Hash160 => weight a.1) ∘ keyBefore (surrounded script 0))
    ((fun a : Hash160 => weight a.1) ∘ keyBefore (surrounded script 1))
    (fun y _ => weight_keyBefore_le script y) ⟨x, hx, weight_keyBefore_lt script h20⟩
  omega

theorem solveOutputScript_multiSig {r : Int × Int × List Int}
    (h : multiSigShape s size = some r) : solveOutputScript d s size addrType =
      ⟨4, d.rmd160 (multiSigData (r.2.2.map (keyBefore s)) r.1 r.2.1), 8⟩ := by
  obtain ⟨-, h51, h60⟩ := multiSig_first h
  have hno : ∀ c : UInt8, (c.toNat < 0x51 ∨ 0x60 < c.toNat) → s 0 ≠ c := by
    intro c hc hs
    rw [hs] at h51 h60
    omega
  have hms : isMultiSig s size = some (r.1, r.2.1, r.2.2.map (keyBefore s)) := by
    rw [isMultiSig_eq, h]
    rfl
  rw [solveOutputScript, if_neg, if_neg, if_neg, if_neg, hms]
  · rfl
  · exact fun h => hno 0xA9 (by decide) h.1
  · exact fun h => hno 33 (by decide) h.1
  · exact fun h => hno 65 (by decide) h.1
  · exact fun h => hno 0x76 (by decide) h.1

/-- A digest that tells the data of the two runs apart exists. -/
theorem ByScriptAlone.multiSig (h : ByScriptAlone script) {r : Int × Int × List Int}
    (hr : multiSigShape (surrounded script 0) script.length = some r) {x : Int} (hx : x ∈ r.2.2) :
    20 ≤ x := by
  by_contra h20
  have hs := holds_surrounded script 0
  have ht := holds_surrounded script 1
  have hr' := hr
  rw [multiSigShape_congr (agree_of_holds hs ht)] at hr'
  have hne := multiSigData_ne script hx (by omega) r.1 r.2.1
  have heq := h.solve_eq ⟨fun _ => nullHash, fun l =>
      if l = multiSigData (r.2.2.map (keyBefore (surrounded script 0))) r.1 r.2.1 then hashZero
      else ⟨List.replicate 20 1, by simp⟩⟩ 0 hs ht
  rw [solveOutputScript_multiSig hr, solveOutputScript_multiSig hr'] at heq
  simp only [if_pos, if_neg hne.symm, Solved.mk.injEq, true_and, and_true] at heq
  exact absurd heq (by decide)

/-- solveOutputScript classifies a script by its bytes alone exactly if the script is
contained. -/
theorem byScriptAlone_iff (script : List UInt8) : ByScriptAlone script ↔ Contained script := by
  constructor
  · intro h
    exact ⟨h.p2pool, h.challenge, h.comment, fun _ hr _ hx => h.multiSig hr hx⟩
  · intro hc d addrType s t hs ht
    have heq := (solveOutputScript_surrounded d addrType hs hc).trans
      (solveOutputScript_surrounded d addrType ht hc).symm
    rw [heq]
    exact ⟨rfl, rfl⟩

/-- The first three bytes of the p2pool script are taken for it where the block goes on
with the other three, and for an unknown script where it goes on with zeros. -/
theorem not_byScriptAlone_p2pool : ¬ByScriptAlone [0x73, 0x63, 0x72] := by
  intro h
  have heq := (h ⟨fun _ => nullHash, fun _ => hashZero⟩ 0 (surrounded p2PoolPattern 0)
    (surrounded [0x73, 0x63, 0x72] 0) rfl rfl).1
  have hs : (solveOutputScript ⟨fun _ => nullHash, fun _ => hashZero⟩ (surrounded p2PoolPattern 0)
      3 0).scriptType = -2 := by
    rw [solveOutputScript_short (by decide), solveRest, if_pos (by decide)]
  have ht : (solveOutputScript ⟨fun _ => nullHash, fun _ => hashZero⟩
      (surrounded [0x73, 0x63, 0x72] 0) 3 0).scriptType = -1 := by
    have hco : ¬isCommentScript (surrounded [0x73, 0x63, 0x72] 0) (3 : Nat) 0 = true := by
      rw [isCommentScript, if_pos (by decide), if_neg (by decide), if_neg (by decide)]
      exact Bool.false_ne_true
    rw [solveOutputScript_short (by decide), solveRest, if_neg (by decide), if_neg hco,
      if_neg (by decide)]
  exact absurd (hs.symm.trans (heq.trans ht)) (by decide)

end

end Blockparser.Classification
