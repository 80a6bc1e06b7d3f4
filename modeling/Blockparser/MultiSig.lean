import Blockparser.Script

/-! The grammar of multisig scripts: a number, complete pushes of keys, the number of the
keys and the opcode that checks them. -/
namespace Blockparser.MultiSig
open Bytes MemoryManager Script

/-- A data push that is complete: its opcode announces the length of its data, itself or
by the little-endian number behind it. -/
structure KeyPush where
  opcode : UInt8
  data : List UInt8
  immediate : isImmediate opcode
  announced : if opcode ≤ 75 then data.length = opcode.toNat
    else data.length < 256 ^ pushWidth opcode
  small : data.length ≤ 512 * 1024

def KeyPush.encode (k : KeyPush) : List UInt8 :=
  k.opcode :: (leBytes (pushWidth k.opcode) k.data.length ++ k.data)

/-- `OP_n`. -/
def opCode (n : Nat) : UInt8 := UInt8.ofNat (0x50 + n)

/-- The head of a push that announces more than a push may hold. -/
def BigHead (junk : List UInt8) : Prop :=
  ∃ size, 512 * 1024 < size ∧ size < 2 ^ 32 ∧ junk = 0x4E :: leBytes 4 size

/-- `OP_m`, the keys, `junk`, `OP_n` and `OP_CHECKMULTISIG`, and nothing more. -/
structure Form (m : Nat) (keys : List KeyPush) (junk script : List UInt8) : Prop where
  one_le : 1 ≤ m
  le_keys : m ≤ keys.length
  keys_le : keys.length ≤ 16
  script_eq : script =
    opCode m :: (keys.flatMap KeyPush.encode ++ (junk ++ [opCode keys.length, 0xAE]))

/-- isMultiSig recognises the grammar on this script: it accepts it when it has the form,
and what it returns are the numbers of the form and one address for each key. -/
def Recognised (s : ScriptPtr) (scriptSize : Nat) : Prop :=
  ((isMultiSig s scriptSize).isSome = true ↔
    ∃ m keys, Form m keys [] (read s 0 scriptSize)) ∧
  ∀ r, isMultiSig s scriptSize = some r → ∃ m keys, Form m keys [] (read s 0 scriptSize) ∧
    r.1 = m ∧ r.2.1 = keys.length ∧ r.2.2.length = keys.length

/-- The cursors behind the keys that stand at `p`. -/
def endsOf (p : Int) : List KeyPush → List Int
  | [] => []
  | k :: keys => (p + k.encode.length) :: endsOf (p + k.encode.length) keys

variable {s : ScriptPtr} {p e : Int}

@[simp] theorem length_endsOf (p : Int) (keys : List KeyPush) :
    (endsOf p keys).length = keys.length := by
  induction keys generalizing p with
  | nil => rfl
  | cons k keys ih => simp [endsOf, ih]

theorem KeyPush.length_encode (k : KeyPush) :
    k.encode.length = 1 + pushWidth k.opcode + k.data.length := by
  simp [KeyPush.encode]
  omega

theorem pushSize_fst (s : ScriptPtr) (c : UInt8) (p : Int) :
    (pushSize s c p).1 = if c ≤ 75 then c.toNat else load s p (pushWidth c) := by
  unfold pushSize pushWidth
  split
  · rfl
  · split
    · rfl
    · split <;> rfl

/-- The number that stands for the data in front of it. -/
theorem KeyPush.pushSize_eq (k : KeyPush)
    (h : Holds s p (leBytes (pushWidth k.opcode) k.data.length)) :
    (pushSize s k.opcode p).1 = k.data.length := by
  have hann := k.announced
  rw [pushSize_fst]
  split
  · next h75 =>
    rw [if_pos h75] at hann
    exact hann.symm
  · next h75 =>
    rw [if_neg h75] at hann
    exact load_of_holds h hann

theorem getOpPushData_encode (k : KeyPush) (h : Holds s p k.encode) :
    getOpPushData s p = ⟨true, k.data.length, p + k.encode.length⟩ := by
  obtain ⟨hc, hrest⟩ := holds_cons.mp h
  have hsize := k.pushSize_eq (holds_append.mp hrest).1
  have hsmall := k.small
  unfold getOpPushData
  dsimp only
  rw [hc, if_pos k.immediate, hsize, if_neg (by omega), pushSize_snd, k.length_encode]
  congr 1
  push_cast
  ring

theorem getOpPushData_ok (himm : isImmediate (s p)) :
    (getOpPushData s p).ok = true ↔ (pushSize s (s p) (p + 1)).1 ≤ 512 * 1024 := by
  unfold getOpPushData
  dsimp only
  rw [if_pos himm]
  split
  · simp
    omega
  · simp
    omega

/-- What a push that is not too big leaves behind the cursor. -/
theorem exists_keyPush (h : (getOpPushData s p).ok = true) :
    ∃ k : KeyPush, Holds s p k.encode := by
  have himm := ok_isImmediate h
  have hsmall := (getOpPushData_ok himm).mp h
  generalize hsz : (pushSize s (s p) (p + 1)).1 = size at hsmall
  have hfst := pushSize_fst s (s p) (p + 1)
  rw [hsz] at hfst
  let data := read s (p + 1 + pushWidth (s p)) size
  have hlen : data.length = size := length_read _ _ _
  have hann : if s p ≤ 75 then data.length = (s p).toNat
      else data.length < 256 ^ pushWidth (s p) := by
    rw [hlen]
    split
    · next h75 => rwa [if_pos h75] at hfst
    · next h75 =>
      rw [if_neg h75] at hfst
      rw [hfst]
      exact load_lt _ _ _
  refine ⟨⟨s p, data, himm, hann, by rw [hlen]; exact hsmall⟩, ?_⟩
  refine holds_cons.mpr ⟨rfl, holds_append.mpr ⟨?_, ?_⟩⟩
  · -- the bytes loaded for the size are the bytes of the size
    dsimp only
    rw [hlen]
    unfold Holds
    rw [length_leBytes]
    by_cases h75 : s p ≤ 75
    · have h0 : pushWidth (s p) = 0 := by simp [pushWidth, h75]
      rw [h0]
      rfl
    · rw [if_neg h75] at hfst
      rw [hfst, load, leBytes_leNat]
      simp
  · dsimp only
    rw [length_leBytes]
    unfold Holds
    rw [hlen]

/-- Where the key loop breaks: in front of no push, or behind a size that is too big. -/
def Break (s : ScriptPtr) (junk : List UInt8) (q : Int) : Prop :=
  (junk = [] ∧ ¬isImmediate (s q)) ∨ BigHead junk

theorem getOpPushData_break_opcode (h : ¬isImmediate (s p)) :
    (getOpPushData s p).ok = false ∧ (getOpPushData s p).p = p := by
  unfold getOpPushData
  dsimp only
  rw [if_neg h]
  exact ⟨rfl, rfl⟩

theorem getOpPushData_break_big {junk : List UInt8} (hbig : BigHead junk) (h : Holds s p junk) :
    (getOpPushData s p).ok = false ∧ (getOpPushData s p).p = p + junk.length := by
  obtain ⟨size, hlt, h32, rfl⟩ := hbig
  obtain ⟨hc, hrest⟩ := holds_cons.mp h
  rw [getOpPushData_78 hc, load_of_holds hrest (by omega), if_pos hlt]
  exact ⟨rfl, by simp⟩

/-- A size of one or two bytes is never too big. -/
theorem pushSize_big {c : UInt8} (himm : isImmediate c)
    (h : 512 * 1024 < (pushSize s c p).1) : c = 0x4E := by
  rw [pushSize_fst] at h
  have hlt := c.toNat_lt
  split at h
  · omega
  · next h75 =>
    have hload := load_lt s p (pushWidth c)
    by_contra h78
    have hwidth : pushWidth c ≤ 2 := by
      have h79 := UInt8.lt_iff_toNat_lt.mp himm.2
      have h75' := UInt8.lt_iff_toNat_lt.mp (UInt8.not_le.mp h75)
      have h78' : c.toNat ≠ 78 := fun h => h78 (UInt8.toNat_inj.mp h)
      unfold pushWidth
      rw [if_neg h75]
      split
      · omega
      · next h76 =>
        have h76' : c.toNat ≠ 76 := fun h => h76 (UInt8.toNat_inj.mp h)
        rw [if_pos]
        refine UInt8.toNat_inj.mp ?_
        simp at h79 h75' ⊢
        omega
    have hpow : 256 ^ pushWidth c ≤ 256 ^ 2 := Nat.pow_le_pow_right (by norm_num) hwidth
    omega

/-- A size that is too big has four bytes. -/
theorem exists_bigHead (himm : isImmediate (s p))
    (h : 512 * 1024 < (pushSize s (s p) (p + 1)).1) : ∃ junk, BigHead junk ∧ Holds s p junk := by
  have hc := pushSize_big himm h
  have hload : (pushSize s (s p) (p + 1)).1 = load s (p + 1) 4 := by
    rw [hc]
    rfl
  have hlt := load_lt s (p + 1) 4
  refine ⟨0x4E :: leBytes 4 (load s (p + 1) 4), ⟨load s (p + 1) 4, by omega, by omega, rfl⟩,
    holds_cons.mpr ⟨hc, ?_⟩⟩
  unfold Holds
  rw [length_leBytes, load, leBytes_leNat]
  simp

theorem exists_break (h : ¬(getOpPushData s p).ok = true) :
    ∃ junk, Holds s p junk ∧ Break s junk (p + junk.length) := by
  by_cases himm : isImmediate (s p)
  · rw [getOpPushData_ok himm] at h
    obtain ⟨junk, hbig, hh⟩ := exists_bigHead himm (Nat.lt_of_not_le h)
    exact ⟨junk, hh, Or.inr hbig⟩
  · exact ⟨[], holds_nil _ _, Or.inl ⟨rfl, by simpa using himm⟩⟩

theorem getOpPushData_break {junk : List UInt8} (h : Holds s p junk)
    (hb : Break s junk (p + junk.length)) :
    (getOpPushData s p).ok = false ∧ (getOpPushData s p).p = p + junk.length := by
  cases hb with
  | inl hnone =>
    obtain ⟨rfl, himm⟩ := hnone
    simpa using getOpPushData_break_opcode (by simpa using himm)
  | inr hbig => exact getOpPushData_break_big hbig h

/-- The loop walks over the keys that stand in the script, up to the break. -/
theorem keyEnds_of_holds {junk : List UInt8} (keys : List KeyPush)
    (h : Holds s p (keys.flatMap KeyPush.encode ++ junk))
    (hb : Break s junk (p + (keys.flatMap KeyPush.encode ++ junk).length))
    (he : p + (keys.flatMap KeyPush.encode ++ junk).length < e) :
    keyEnds s e p =
      some (p + (keys.flatMap KeyPush.encode ++ junk).length, endsOf p keys) := by
  induction keys generalizing p with
  | nil =>
    simp only [List.flatMap_nil, List.nil_append] at h hb he ⊢
    obtain ⟨hok, hp⟩ := getOpPushData_break h hb
    rw [keyEnds, dif_neg (by omega), dif_neg (by simp [hok]), hp]
    rfl
  | cons k keys ih =>
    rw [List.flatMap_cons, List.append_assoc] at h hb he ⊢
    obtain ⟨hk, hrest⟩ := holds_append.mp h
    have hpush := getOpPushData_encode k hk
    have hassoc : ∀ n : Nat, p + ((k.encode.length + n : Nat) : Int) =
        p + k.encode.length + n := by
      intro n
      push_cast
      ring
    rw [List.length_append, hassoc] at hb he ⊢
    have hrec := ih hrest hb he
    have hlt : ¬e ≤ (getOpPushData s p).p := by
      rw [hpush]
      dsimp only
      omega
    rw [keyEnds, dif_neg hlt, dif_pos (by rw [hpush]), hpush, hrec]
    rfl

/-- Conversely the loop has walked over keys, and broke inside the script. -/
theorem exists_keys {r : Int × List Int} (h : keyEnds s e p = some r) :
    ∃ keys junk, Holds s p (keys.flatMap KeyPush.encode ++ junk) ∧ Break s junk r.1 ∧
      r.1 = p + (keys.flatMap KeyPush.encode ++ junk).length ∧ r.1 < e ∧
      r.2 = endsOf p keys := by
  fun_induction keyEnds s e p generalizing r with
  | case1 p he => cases h
  | case2 p he hok ih =>
    obtain ⟨r', hr', rfl⟩ := Option.map_eq_some_iff.mp h
    obtain ⟨k, hk⟩ := exists_keyPush hok
    rw [getOpPushData_encode k hk] at hr' ih
    obtain ⟨keys, junk, hh, hb, hr1, hlt, hr2⟩ := ih hr'
    refine ⟨k :: keys, junk, ?_, hb, ?_, hlt, ?_⟩
    · rw [List.flatMap_cons, List.append_assoc]
      exact holds_append.mpr ⟨hk, hh⟩
    · rw [List.flatMap_cons, List.append_assoc, List.length_append, hr1]
      push_cast
      ring
    · rw [endsOf, getOpPushData_encode k hk, hr2]
  | case3 p he hok =>
    cases h
    obtain ⟨junk, hh, hb⟩ := exists_break hok
    obtain ⟨-, hp⟩ := getOpPushData_break hh hb
    refine ⟨[], junk, by simpa using hh, ?_, by simpa using hp, by omega, rfl⟩
    rwa [hp]

theorem opNumber_opCode {n : Nat} (h : n ≤ 16) : opNumber (opCode n) = n := by
  unfold opNumber opCode
  rw [UInt8.toNat_ofNat']
  omega

theorem exists_opCode {c : UInt8} (h1 : 1 ≤ opNumber c) (h16 : opNumber c ≤ 16) :
    ∃ n, 1 ≤ n ∧ n ≤ 16 ∧ c = opCode n ∧ opNumber c = n := by
  unfold opNumber at h1 h16 ⊢
  refine ⟨c.toNat - 0x50, by omega, by omega, ?_, by omega⟩
  unfold opCode
  rw [show 0x50 + (c.toNat - 0x50) = c.toNat by omega, UInt8.ofNat_toNat]

theorem not_isImmediate_opCode {n : Nat} (h : n ≤ 16) : ¬isImmediate (opCode n) := by
  intro himm
  have h79 := UInt8.lt_iff_toNat_lt.mp himm.2
  unfold opCode at h79
  rw [UInt8.toNat_ofNat'] at h79
  simp at h79
  omega

/-- What may stand between the keys and their number for the walk to get there. -/
def Skipped (junk : List UInt8) : Prop := junk = [] ∨ BigHead junk

section Form
variable {m : Nat} {keys : List KeyPush} {junk : List UInt8} {size : Nat}

theorem Form.size_eq (h : Form m keys junk (read s 0 size)) :
    size = 1 + ((keys.flatMap KeyPush.encode ++ junk).length + 2) := by
  have hlen := congrArg List.length h.script_eq
  simp at hlen ⊢
  omega

theorem Form.holds (h : Form m keys junk (read s 0 size)) :
    s 0 = opCode m ∧ Holds s 1 (keys.flatMap KeyPush.encode ++ junk) ∧
      s (1 + (keys.flatMap KeyPush.encode ++ junk).length) = opCode keys.length ∧
      s (1 + (keys.flatMap KeyPush.encode ++ junk).length + 1) = 0xAE := by
  have hall : Holds s 0 (opCode m :: ((keys.flatMap KeyPush.encode ++ junk) ++
      [opCode keys.length, 0xAE])) := by
    have heq := h.script_eq
    rw [← List.append_assoc] at heq
    rw [← heq]
    unfold Holds
    rw [length_read]
  obtain ⟨hm, hrest⟩ := holds_cons.mp hall
  obtain ⟨hkeys, htail⟩ := holds_append.mp hrest
  obtain ⟨hn, htail⟩ := holds_cons.mp htail
  obtain ⟨hop, -⟩ := holds_cons.mp htail
  exact ⟨hm, hkeys, hn, hop⟩

theorem Form.keyEnds_eq (h : Form m keys junk (read s 0 size)) (hj : Skipped junk) :
    keyEnds s size 1 =
      some (1 + ((keys.flatMap KeyPush.encode ++ junk).length : Int), endsOf 1 keys) := by
  have hsize := h.size_eq
  obtain ⟨-, hkeys, hn, -⟩ := h.holds
  refine keyEnds_of_holds keys hkeys ?_ (by omega)
  cases hj with
  | inl hnil => exact Or.inl ⟨hnil, by rw [hn]; exact not_isImmediate_opCode h.keys_le⟩
  | inr hbig => exact Or.inr hbig

/-- A script of the form is accepted, also with a size that is too big behind its keys. -/
theorem Form.isMultiSig_eq (h : Form m keys junk (read s 0 size)) (hj : Skipped junk)
    (h5 : 5 < size) : isMultiSig s size =
      some ((m : Int), (keys.length : Int), (endsOf 1 keys).map (keyBefore s)) := by
  have hsize := h.size_eq
  have h1 := h.one_le
  have hle := h.le_keys
  have h16 := h.keys_le
  obtain ⟨hm, -, hn, hop⟩ := h.holds
  have hkeys := multiSigKeys_eq s size 1 []
  rw [h.keyEnds_eq hj] at hkeys
  simp only [Option.map_some, List.nil_append] at hkeys
  unfold isMultiSig
  rw [if_neg (by omega)]
  dsimp only
  rw [hm, opNumber_opCode (by omega), if_neg (by omega), hkeys]
  dsimp only
  rw [hn, hop, opNumber_opCode h16, if_neg, if_pos]
  · exact ⟨rfl, by omega, by omega⟩
  · simp
    omega

end Form

/-- What is accepted has the form. -/
theorem form_of_isMultiSig {size : Nat} {r : Int × Int × List Hash160}
    (h : isMultiSig s size = some r) : ∃ m keys junk, Skipped junk ∧
      Form m keys junk (read s 0 size) ∧
      r = ((m : Int), (keys.length : Int), (endsOf 1 keys).map (keyBefore s)) := by
  unfold isMultiSig at h
  split at h
  · cases h
  · dsimp only at h
    rw [multiSigKeys_eq] at h
    split at h
    · cases h
    · next h5 hm =>
      push Not at hm
      obtain ⟨m, hm1, -, hcm, hmn⟩ := exists_opCode hm.1 hm.2
      cases hk : keyEnds s size 1 with
      | none =>
        rw [hk] at h
        cases h
      | some b =>
        obtain ⟨keys, junk, hh, hb, hb1, hlt, hb2⟩ := exists_keys hk
        rw [hk] at h
        simp only [Option.map_some, List.nil_append, List.length_map] at h
        split at h
        · cases h
        · next hn =>
          push Not at hn
          obtain ⟨⟨hn1, hn16⟩, hlen⟩ := hn
          obtain ⟨n, -, h16, hcn, hnn⟩ := exists_opCode hn1 hn16
          rw [hb2, length_endsOf] at hlen
          split at h
          · next hlast =>
            obtain ⟨hop, hle, hend⟩ := hlast
            cases h
            have hnk : n = keys.length := by omega
            subst hnk
            refine ⟨m, keys, junk, ?_, ⟨hm1, by omega, h16, ?_⟩, ?_⟩
            · cases hb with
              | inl hnone => exact Or.inl hnone.1
              | inr hbig => exact Or.inr hbig
            · have hall : Holds s 0 (opCode m :: (keys.flatMap KeyPush.encode ++
                  (junk ++ [opCode keys.length, 0xAE]))) := by
                refine holds_cons.mpr ⟨hcm, ?_⟩
                rw [← List.append_assoc]
                refine holds_append.mpr ⟨hh, ?_⟩
                rw [show (0 : Int) + 1 + (keys.flatMap KeyPush.encode ++ junk).length = b.1 by
                  rw [hb1]; ring]
                exact holds_cons.mpr ⟨hcn, holds_cons.mpr ⟨hop, holds_nil _ _⟩⟩
              rw [← hall]
              congr 1
              simp only [List.length_cons, List.length_append, List.length_nil] at hb1 ⊢
              omega
            · rw [hmn, hnn, hb2]
          · cases h

theorem getLast_endsOf (p : Int) (keys : List KeyPush) :
    (endsOf p keys).getLastD p = p + (keys.flatMap KeyPush.encode).length := by
  induction keys generalizing p with
  | nil => simp [endsOf]
  | cons k keys ih =>
    rw [endsOf, List.getLastD_cons, ih, List.flatMap_cons, List.length_append]
    push_cast
    ring

/-- A script has at most one form. -/
theorem Form.junk_length {size m m' : Nat} {keys keys' : List KeyPush} {junk junk' : List UInt8}
    (h : Form m keys junk (read s 0 size)) (hj : Skipped junk)
    (h' : Form m' keys' junk' (read s 0 size)) (hj' : Skipped junk') :
    junk.length = junk'.length := by
  have heq : some (1 + ((keys.flatMap KeyPush.encode ++ junk).length : Int), endsOf 1 keys) =
      some (1 + ((keys'.flatMap KeyPush.encode ++ junk').length : Int), endsOf 1 keys') := by
    rw [← h.keyEnds_eq hj, ← h'.keyEnds_eq hj']
  obtain ⟨hend, hends⟩ := Prod.mk.inj (Option.some.inj heq)
  have hlast := getLast_endsOf 1 keys
  rw [hends, getLast_endsOf] at hlast
  simp only [List.length_append] at hend
  omega

theorem BigHead.length_eq {junk : List UInt8} (h : BigHead junk) : junk.length = 5 := by
  obtain ⟨size, -, -, rfl⟩ := h
  simp

/-- A size that is too big in front of the number of the keys is not seen. -/
theorem not_recognised_of_bigHead {size m : Nat} {keys : List KeyPush} {junk : List UInt8}
    (h5 : 5 < size) (hbig : BigHead junk) (h : Form m keys junk (read s 0 size)) :
    ¬Recognised s size := by
  intro hrec
  have hsome : (isMultiSig s size).isSome = true := by
    rw [h.isMultiSig_eq (Or.inr hbig) h5]
    rfl
  obtain ⟨m', keys', h'⟩ := hrec.1.mp hsome
  have hlen := h.junk_length (Or.inr hbig) h' (Or.inl rfl)
  rw [hbig.length_eq] at hlen
  cases hlen

theorem direct_opcode {n : Nat} (h0 : 0 < n) (h75 : n ≤ 75) :
    isImmediate (UInt8.ofNat n) ∧ UInt8.ofNat n ≤ 75 ∧ (UInt8.ofNat n).toNat = n := by
  have hn : (UInt8.ofNat n).toNat = n := by
    rw [UInt8.toNat_ofNat']
    omega
  refine ⟨⟨?_, ?_⟩, ?_, hn⟩
  · rw [UInt8.lt_iff_toNat_lt, hn]
    exact h0
  · rw [UInt8.lt_iff_toNat_lt, hn]
    exact Nat.lt_of_le_of_lt h75 (by decide)
  · rw [UInt8.le_iff_toNat_le, hn]
    exact h75

/-- The push of a key of at most 75 bytes, whose opcode is its length. -/
def KeyPush.direct (data : List UInt8) (h0 : 0 < data.length) (h75 : data.length ≤ 75) :
    KeyPush where
  opcode := UInt8.ofNat data.length
  data := data
  immediate := (direct_opcode h0 h75).1
  announced := (if_pos (direct_opcode h0 h75).2.1).mpr (direct_opcode h0 h75).2.2.symm
  small := Nat.le_trans h75 (Nat.le_of_ble_eq_true rfl)

theorem KeyPush.encode_direct {data : List UInt8} (h0 : 0 < data.length)
    (h75 : data.length ≤ 75) :
    (KeyPush.direct data h0 h75).encode = UInt8.ofNat data.length :: data := by
  have hw : pushWidth (UInt8.ofNat data.length) = 0 := if_pos (direct_opcode h0 h75).2.1
  simp [KeyPush.encode, KeyPush.direct, hw, leBytes]

/-- `OP_1`, a key of one byte, a push of 4294967295 bytes that is not there, `OP_1` and
`OP_CHECKMULTISIG`. -/
def bigHeadScript : List UInt8 := [0x51, 1, 0xAA, 0x4E, 0xFF, 0xFF, 0xFF, 0xFF, 0x51, 0xAE]

theorem bigHead_ffffffff : BigHead [0x4E, 0xFF, 0xFF, 0xFF, 0xFF] :=
  ⟨0xFFFFFFFF, by norm_num, by norm_num, by decide⟩

theorem form_bigHeadScript : Form 1 [KeyPush.direct [0xAA] (by decide) (by decide)]
    [0x4E, 0xFF, 0xFF, 0xFF, 0xFF] (read (surrounded bigHeadScript 0) 0 10) := by
  refine ⟨by decide, by decide, by decide, ?_⟩
  rw [show read (surrounded bigHeadScript 0) 0 10 = bigHeadScript from
    holds_surrounded bigHeadScript 0]
  decide

/-- isMultiSig recognises the grammar on every script but those with the head of a push
that is too big between the keys and their number. -/
theorem recognised_iff (s : ScriptPtr) (size : Nat) (h5 : 5 < size) :
    Recognised s size ↔
      ¬∃ m keys junk, BigHead junk ∧ Form m keys junk (read s 0 size) := by
  constructor
  · rintro hrec ⟨m, keys, junk, hbig, h⟩
    exact not_recognised_of_bigHead h5 hbig h hrec
  · intro hno
    have hform : ∀ r, isMultiSig s size = some r → ∃ m keys, Form m keys [] (read s 0 size) ∧
        r.1 = m ∧ r.2.1 = keys.length ∧ r.2.2.length = keys.length := by
      intro r hr
      obtain ⟨m, keys, junk, hj, h, rfl⟩ := form_of_isMultiSig hr
      cases hj with
      | inl hnil =>
        subst hnil
        exact ⟨m, keys, h, rfl, rfl, by simp⟩
      | inr hbig => exact absurd ⟨m, keys, junk, hbig, h⟩ hno
    refine ⟨⟨?_, ?_⟩, hform⟩
    · intro hsome
      obtain ⟨r, hr⟩ := Option.isSome_iff_exists.mp hsome
      obtain ⟨m, keys, h, -⟩ := hform r hr
      exact ⟨m, keys, h⟩
    · rintro ⟨m, keys, h⟩
      rw [h.isMultiSig_eq (Or.inl rfl) h5]
      rfl

theorem recognised_iff_two_bytes :
    5 < 6 ∧ (Recognised (surrounded [0x51, 2, 0xAA, 0xBB, 0x51, 0xAE] 0) 6 ↔
      ¬∃ m keys junk, BigHead junk ∧
        Form m keys junk (read (surrounded [0x51, 2, 0xAA, 0xBB, 0x51, 0xAE] 0) 0 6)) :=
  ⟨by decide, recognised_iff _ 6 (by decide)⟩

/-- That script is accepted, but its last push is not there. -/
theorem not_recognised_bigHeadScript : ¬Recognised (surrounded bigHeadScript 0) 10 :=
  not_recognised_of_bigHead (by decide) bigHead_ffffffff form_bigHeadScript

end Blockparser.MultiSig
