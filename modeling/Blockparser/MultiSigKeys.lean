import Blockparser.Classification
import Blockparser.Lib.Mpi
import Blockparser.Lib.WeakOrder
import Blockparser.MultiSig

/-! The address of a multisig script: what is kept of its keys, and which scripts get the
same bytes to hash. -/
namespace Blockparser.MultiSig
open Bytes MemoryManager Script Mpi WeakOrder

/-! `Compare160` compares the arrays as big-endian numbers. -/

theorem beNat_cons (b : UInt8) (bs : List UInt8) :
    beNat (b :: bs) = 256 ^ bs.length * b.toNat + beNat bs := by
  have hone : beNat [b] = b.toNat := by simp [beNat, leNat]
  rw [← List.singleton_append, beNat_append, hone, Nat.add_comm]

/-- The first byte that differs decides, as it does for the numbers. -/
theorem compare160_go_iff {as bs : List UInt8} (hlen : as.length = bs.length) :
    compare160.go as bs = true ↔ beNat as ≤ beNat bs := by
  induction as generalizing bs with
  | nil =>
    rw [List.length_eq_zero_iff.mp hlen.symm]
    simp [compare160.go]
  | cons a as ih =>
    cases bs with
    | nil => cases hlen
    | cons b bs =>
      have hrest : as.length = bs.length := Nat.succ.inj hlen
      have has := beNat_lt as
      have hbs := beNat_lt bs
      rw [beNat_cons, beNat_cons, compare160.go, hrest]
      rw [hrest] at has
      by_cases hab : a = b
      · rw [if_pos hab, hab, ih hrest]
        omega
      · have hne : a.toNat ≠ b.toNat := fun h => hab (UInt8.toNat_inj.mp h)
        rw [if_neg hab, decide_eq_true_iff, UInt8.lt_iff_toNat_lt]
        generalize 256 ^ bs.length = k at has hbs ⊢
        constructor
        · intro hlt
          nlinarith
        · intro hle
          by_contra hlt
          have hgt : b.toNat + 1 ≤ a.toNat := by omega
          nlinarith

theorem beNat_val_injective : Function.Injective fun a : Hash160 => beNat a.1 := by
  intro a b h
  exact Subtype.ext (beNat_inj (by rw [a.2, b.2]) h)

/-- Equal arrays are taken for ordered. -/
theorem compare160_atMost : AtMost compare160 fun a : Hash160 => beNat a.1 :=
  fun a b => compare160_go_iff (by rw [a.2, b.2])

/-- Sorted by `Compare160`. -/
def Ordered (addresses : List Hash160) : Prop :=
  addresses.Pairwise fun a b => compare160 a b = true

theorem ordered_mergeSort (addresses : List Hash160) :
    Ordered (addresses.mergeSort compare160) := by
  refine List.pairwise_mergeSort ?_ ?_ addresses
  · intro a b c hab hbc
    exact compare160_atMost.trans hab hbc
  · intro a b
    rw [Bool.or_eq_true]
    exact compare160_atMost.total a b

/-- The order of the addresses is all that a sort takes away. -/
theorem Ordered.eq_of_perm {as bs : List Hash160} (ha : Ordered as) (hb : Ordered bs)
    (hperm : as.Perm bs) : as = bs := by
  refine List.Perm.eq_of_pairwise ?_ ha hb hperm
  intro a b _ _ hab hba
  exact beNat_val_injective (compare160_atMost.key_eq hab hba)

/-- Equal lists of addresses are equal byte by byte. -/
theorem flatMap_val_inj {as bs : List Hash160}
    (h : as.flatMap Subtype.val = bs.flatMap Subtype.val) : as = bs := by
  induction as generalizing bs with
  | nil =>
    cases bs with
    | nil => rfl
    | cons b bs =>
      have hlen := congrArg List.length h
      rw [List.flatMap_cons, List.length_append, b.2, List.flatMap_nil, List.length_nil] at hlen
      omega
  | cons a as ih =>
    cases bs with
    | nil =>
      have hlen := congrArg List.length h
      rw [List.flatMap_cons, List.length_append, a.2, List.flatMap_nil, List.length_nil] at hlen
      omega
    | cons b bs =>
      rw [List.flatMap_cons, List.flatMap_cons] at h
      obtain ⟨hhead, htail⟩ := List.append_inj h (by rw [a.2, b.2])
      rw [Subtype.ext hhead, ih htail]

theorem toNat_ofInt {m : Nat} (hm : m ≤ 16) : (UInt8.ofInt m).toNat = m := by
  have hmod : ((m : Int) % 2 ^ 8).toNat = m := by omega
  rw [UInt8.ofInt, hmod, UInt8.toNat_ofNat']
  omega

theorem ofInt_inj {m m' : Nat} (hm : m ≤ 16) (hm' : m' ≤ 16)
    (h : UInt8.ofInt m = UInt8.ofInt m') : m = m' := by
  rw [← toNat_ofInt hm, ← toNat_ofInt hm', h]

/-- What is hashed tells the numbers and the addresses, but not their order. -/
theorem multiSigData_inj {as bs : List Hash160} {m m' n n' : Nat} (hm : m ≤ 16) (hm' : m' ≤ 16)
    (hn : n ≤ 16) (hn' : n' ≤ 16) :
    multiSigData as m n = multiSigData bs m' n' ↔ m = m' ∧ n = n' ∧ as.Perm bs := by
  have hperm := List.mergeSort_perm as compare160
  have hperm' := List.mergeSort_perm bs compare160
  constructor
  · intro h
    simp only [multiSigData, List.cons.injEq] at h
    obtain ⟨h1, h2, h3⟩ := h
    refine ⟨ofInt_inj hm hm' h1, ofInt_inj hn hn' h2, ?_⟩
    exact hperm.symm.trans ((flatMap_val_inj h3) ▸ hperm')
  · intro h
    obtain ⟨rfl, rfl, hab⟩ := h
    have hsort := (ordered_mergeSort as).eq_of_perm (ordered_mergeSort bs)
      (hperm.trans (hab.trans hperm'.symm))
    rw [multiSigData, multiSigData, hsort]

/-! What is kept of a key. -/

theorem length_keyTail (data : List UInt8) :
    ((List.replicate 20 0 ++ data).drop data.length).length = 20 := by
  rw [List.length_drop, List.length_append, List.length_replicate]
  omega

/-- The last 20 bytes of a key. -/
def keyTail (data : List UInt8) : Hash160 :=
  ⟨(List.replicate 20 0 ++ data).drop data.length, length_keyTail data⟩

theorem keyTail_eq {data : List UInt8} (h : 20 ≤ data.length) :
    (keyTail data).1 = data.drop (data.length - 20) := by
  have hzero : (List.replicate 20 (0 : UInt8)).drop data.length = [] :=
    List.drop_eq_nil_of_le (by rwa [List.length_replicate])
  simp only [keyTail, List.drop_append, hzero, List.nil_append, List.length_replicate]

/-- The bytes in front of the cursor behind a key are its last ones. -/
theorem keyBefore_eq {s : ScriptPtr} {p : Int} {data : List UInt8} (h : Holds s p data)
    (h20 : 20 ≤ data.length) : keyBefore s (p + data.length) = keyTail data := by
  have hsplit : Holds s p (data.take (data.length - 20) ++ data.drop (data.length - 20)) := by
    rwa [List.take_append_drop]
  obtain ⟨-, htail⟩ := holds_append.mp hsplit
  have hlen : (data.take (data.length - 20)).length = data.length - 20 := by
    rw [List.length_take]
    omega
  have hdrop : (data.drop (data.length - 20)).length = 20 := by
    rw [List.length_drop]
    omega
  have hp : p + ((data.length - 20 : Nat) : Int) = p + data.length - 20 := by omega
  refine Subtype.ext ?_
  rw [keyTail_eq h20, ← htail, hlen, hdrop, hp, keyBefore]

/-- The addresses that the key loop collects. -/
theorem keyTails_eq {s : ScriptPtr} {p : Int} {keys : List KeyPush} {junk : List UInt8}
    (h : Holds s p (keys.flatMap KeyPush.encode ++ junk))
    (h20 : ∀ k ∈ keys, 20 ≤ k.data.length) :
    (endsOf p keys).map (keyBefore s) = keys.map fun k => keyTail k.data := by
  induction keys generalizing p with
  | nil => rfl
  | cons k keys ih =>
    rw [List.flatMap_cons, List.append_assoc] at h
    obtain ⟨hk, hrest⟩ := holds_append.mp h
    obtain ⟨-, hdata⟩ := holds_cons.mp hk
    obtain ⟨-, hdata⟩ := holds_append.mp hdata
    have hkey := keyBefore_eq hdata (h20 k List.mem_cons_self)
    have hend : p + 1 + ((leBytes (pushWidth k.opcode) k.data.length).length : Int) +
        k.data.length = p + k.encode.length := by
      rw [k.length_encode, length_leBytes]
      push_cast
      ring
    rw [hend] at hkey
    rw [endsOf, List.map_cons, List.map_cons, hkey,
      ih hrest fun k' hk' => h20 k' (List.mem_cons_of_mem k hk')]

section Keys
variable {s : ScriptPtr} {m : Nat} {keys : List KeyPush} {junk : List UInt8} {size : Nat}

/-- With keys of 20 bytes and more a script is long enough. -/
theorem Form.long (h : Form m keys junk (read s 0 size)) (h20 : ∀ k ∈ keys, 20 ≤ k.data.length) :
    5 < size := by
  have hsize := h.size_eq
  have h1 := h.one_le
  have hle := h.le_keys
  cases keys with
  | nil =>
    rw [List.length_nil] at hle
    omega
  | cons k keys =>
    have hk := h20 k List.mem_cons_self
    have hlen := k.length_encode
    rw [List.flatMap_cons, List.append_assoc, List.length_append] at hsize
    omega

theorem Form.isMultiSig_tails (h : Form m keys junk (read s 0 size)) (hj : Skipped junk)
    (h20 : ∀ k ∈ keys, 20 ≤ k.data.length) : isMultiSig s size =
      some ((m : Int), (keys.length : Int), keys.map fun k => keyTail k.data) := by
  rw [h.isMultiSig_eq hj (h.long h20), keyTails_eq h.holds.2.1 h20]

/-- What packMultiSig gives rmd160. -/
def packedData (s : ScriptPtr) (size : Nat) : Option (List UInt8) :=
  (isMultiSig s size).map fun r => multiSigData r.2.2 r.1 r.2.1

theorem solveOutputScript_packed {data : List UInt8} (h : packedData s size = some data)
    (d : Digests) (addrType : UInt8) :
    solveOutputScript d s size addrType = ⟨4, d.rmd160 data, 8⟩ := by
  obtain ⟨r, hr, rfl⟩ := Option.map_eq_some_iff.mp h
  rw [isMultiSig_eq] at hr
  obtain ⟨r', hr', rfl⟩ := Option.map_eq_some_iff.mp hr
  exact Classification.solveOutputScript_multiSig hr'

theorem Form.packedData_eq (h : Form m keys junk (read s 0 size)) (hj : Skipped junk)
    (h20 : ∀ k ∈ keys, 20 ≤ k.data.length) : packedData s size =
      some (multiSigData (keys.map fun k => keyTail k.data) m keys.length) := by
  rw [packedData, h.isMultiSig_tails hj h20]
  rfl

end Keys

/-- The multisig script of some keys. -/
def multiSigScript (m : Nat) (keys : List KeyPush) : List UInt8 :=
  opCode m :: (keys.flatMap KeyPush.encode ++ [opCode keys.length, 0xAE])

theorem form_multiSigScript {s : ScriptPtr} {m : Nat} {keys : List KeyPush} (h1 : 1 ≤ m)
    (hm : m ≤ keys.length) (h16 : keys.length ≤ 16) (hs : Holds s 0 (multiSigScript m keys)) :
    Form m keys [] (read s 0 (multiSigScript m keys).length) :=
  ⟨h1, hm, h16, hs⟩

theorem multiSigScript_packed {s : ScriptPtr} {m : Nat} {keys : List KeyPush} (h1 : 1 ≤ m)
    (hm : m ≤ keys.length) (h16 : keys.length ≤ 16) (h20 : ∀ k ∈ keys, 20 ≤ k.data.length)
    (hs : Holds s 0 (multiSigScript m keys)) :
    packedData s (multiSigScript m keys).length =
      some (multiSigData (keys.map fun k => keyTail k.data) m keys.length) :=
  (form_multiSigScript h1 hm h16 hs).packedData_eq (Or.inl rfl) h20

theorem map_keyTail_perm {keys keys' : List KeyPush}
    (h : (keys'.map KeyPush.data).Perm (keys.map KeyPush.data)) :
    (keys'.map fun k => keyTail k.data).Perm (keys.map fun k => keyTail k.data) := by
  have htails := h.map keyTail
  rwa [List.map_map, List.map_map] at htails

/-- The scripts of some keys pay to one address in every order of the keys, and whichever
way the addresses are sorted. -/
theorem solveOutputScript_perm (d : Digests) {s s' : ScriptPtr} {m : Nat}
    {keys keys' : List KeyPush} (h1 : 1 ≤ m) (hm : m ≤ keys.length) (h16 : keys.length ≤ 16)
    (h20 : ∀ k ∈ keys, 20 ≤ k.data.length)
    (hperm : (keys'.map KeyPush.data).Perm (keys.map KeyPush.data))
    (hs : Holds s 0 (multiSigScript m keys)) (hs' : Holds s' 0 (multiSigScript m keys'))
    (addrType addrType' : UInt8) :
    ∃ pubKeyHash,
      solveOutputScript d s (multiSigScript m keys).length addrType = ⟨4, pubKeyHash, 8⟩ ∧
      solveOutputScript d s' (multiSigScript m keys').length addrType' = ⟨4, pubKeyHash, 8⟩ ∧
      ∀ sorted : List Hash160, sorted.Perm (keys.map fun k => keyTail k.data) →
        Ordered sorted → pubKeyHash = d.rmd160 (UInt8.ofInt m :: UInt8.ofInt keys.length ::
          sorted.flatMap Subtype.val) := by
  have hlen : keys'.length = keys.length := by simpa using hperm.length_eq
  have h20' : ∀ k ∈ keys', 20 ≤ k.data.length := by
    intro k hk
    obtain ⟨k', hk', heq⟩ := List.mem_map.mp (hperm.subset (List.mem_map_of_mem hk))
    rw [← heq]
    exact h20 k' hk'
  have hdata := multiSigScript_packed h1 hm h16 h20 hs
  have hdata' := multiSigScript_packed h1 (by omega) (by omega) h20' hs'
  have heq := (multiSigData_inj (show m ≤ 16 by omega) (by omega) (show keys'.length ≤ 16 by omega)
    h16).mpr ⟨rfl, hlen, map_keyTail_perm hperm⟩
  rw [heq] at hdata'
  refine ⟨_, solveOutputScript_packed hdata d addrType,
    solveOutputScript_packed hdata' d addrType', ?_⟩
  intro sorted hsorted hord
  have hmerge := List.mergeSort_perm (keys.map fun k => keyTail k.data) compare160
  rw [multiSigData, (ordered_mergeSort _).eq_of_perm hord (hmerge.trans hsorted.symm)]

/-- The same number of keys needed, of the same keys in some order. -/
def SameKeys (m m' : Nat) (keys keys' : List KeyPush) : Prop :=
  m = m' ∧ keys.length = keys'.length ∧
    (keys.map KeyPush.data).Perm (keys'.map KeyPush.data)

/-- The keys differ, but not in the number needed and not in the bytes that are kept. -/
def KeptAlike (m m' : Nat) (keys keys' : List KeyPush) : Prop :=
  m = m' ∧ (keys.map fun k => keyTail k.data).Perm (keys'.map fun k => keyTail k.data) ∧
    ¬(keys.map KeyPush.data).Perm (keys'.map KeyPush.data)

/-- A public key, compressed or not, by its length. -/
def IsPubKey (k : KeyPush) : Prop := k.data.length = 33 ∨ k.data.length = 65

theorem IsPubKey.long {k : KeyPush} (h : IsPubKey k) : 20 ≤ k.data.length := by
  cases h with
  | inl h => omega
  | inr h => omega

section PubKeys
variable {s s' : ScriptPtr} {size size' m m' : Nat} {keys keys' : List KeyPush}
  {junk junk' : List UInt8}

/-- What is hashed are the numbers and the last bytes of the keys. -/
theorem packedData_eq_iff (h : Form m keys junk (read s 0 size)) (hj : Skipped junk)
    (h' : Form m' keys' junk' (read s' 0 size')) (hj' : Skipped junk')
    (hkeys : ∀ k ∈ keys, IsPubKey k) (hkeys' : ∀ k ∈ keys', IsPubKey k) :
    packedData s size = packedData s' size' ↔
      m = m' ∧ (keys.map fun k => keyTail k.data).Perm (keys'.map fun k => keyTail k.data) := by
  have h1 := h.le_keys
  have h2 := h'.le_keys
  have h3 := h.keys_le
  have h4 := h'.keys_le
  rw [h.packedData_eq hj fun k hk => (hkeys k hk).long,
    h'.packedData_eq hj' fun k hk => (hkeys' k hk).long, Option.some.injEq,
    multiSigData_inj (by omega) (by omega) h3 h4]
  constructor
  · intro hall
    exact ⟨hall.1, hall.2.2⟩
  · intro hall
    refine ⟨hall.1, ?_, hall.2⟩
    simpa using hall.2.length_eq

end PubKeys

/-- The keys of a script that solveOutputScript takes for a multisig script. -/
def KeysOf (s : ScriptPtr) (size m : Nat) (keys : List KeyPush) : Prop :=
  ∃ junk, Skipped junk ∧ Form m keys junk (read s 0 size)

theorem solveRest_scriptType (s : ScriptPtr) (size : Nat) (addrType : UInt8) :
    (solveRest s size addrType).scriptType < 0 := by
  unfold solveRest
  split
  · norm_num
  · split
    · norm_num
    · split <;> norm_num

theorem exists_keysOf {d : Digests} {s : ScriptPtr} {size : Nat} {addrType : UInt8}
    (h4 : (solveOutputScript d s size addrType).scriptType = 4) :
    ∃ m keys, KeysOf s size m keys := by
  unfold solveOutputScript at h4
  split at h4
  · cases h4
  · split at h4
    · cases h4
    · split at h4
      · cases h4
      · split at h4
        · cases h4
        · split at h4
          · next hms =>
            obtain ⟨m, keys, junk, hj, h, -⟩ := form_of_isMultiSig hms
            exact ⟨m, keys, junk, hj, h⟩
          · have hneg := solveRest_scriptType s size addrType
            omega

theorem sameKeys_of_packedData {s s' : ScriptPtr} {size size' m m' : Nat}
    {keys keys' : List KeyPush} (h : KeysOf s size m keys) (h' : KeysOf s' size' m' keys')
    (hkeys : ∀ k ∈ keys, IsPubKey k) (hkeys' : ∀ k ∈ keys', IsPubKey k)
    (hno : ¬KeptAlike m m' keys keys') (heq : packedData s size = packedData s' size') :
    SameKeys m m' keys keys' := by
  obtain ⟨junk, hj, h⟩ := h
  obtain ⟨junk', hj', h'⟩ := h'
  obtain ⟨hm, htails⟩ := (packedData_eq_iff h hj h' hj' hkeys hkeys').mp heq
  have hperm : (keys.map KeyPush.data).Perm (keys'.map KeyPush.data) := by
    by_contra hdiff
    exact hno ⟨hm, htails, hdiff⟩
  exact ⟨hm, by simpa using htails.length_eq, hperm⟩

theorem packedData_of_keptAlike {s s' : ScriptPtr} {size size' m m' : Nat}
    {keys keys' : List KeyPush} (h : KeysOf s size m keys) (h' : KeysOf s' size' m' keys')
    (hkeys : ∀ k ∈ keys, IsPubKey k) (hkeys' : ∀ k ∈ keys', IsPubKey k)
    (halike : KeptAlike m m' keys keys') :
    packedData s size = packedData s' size' ∧ ¬SameKeys m m' keys keys' := by
  obtain ⟨junk, hj, h⟩ := h
  obtain ⟨junk', hj', h'⟩ := h'
  refine ⟨(packedData_eq_iff h hj h' hj' hkeys hkeys').mpr ⟨halike.1, halike.2.1⟩, ?_⟩
  intro hsame
  exact halike.2.2 hsame.2.2

/-- Of two scripts of public keys that solve to a multisig address the hashed bytes tell
the keys, unless the keys differ in their first bytes only. -/
theorem sameKeys_iff (d : Digests) {s s' : ScriptPtr} {size size' : Nat} {addrType addrType' : UInt8}
    (h4 : (solveOutputScript d s size addrType).scriptType = 4)
    (h4' : (solveOutputScript d s' size' addrType').scriptType = 4) :
    (∃ m keys, KeysOf s size m keys) ∧ (∃ m keys, KeysOf s' size' m keys) ∧
    ∀ m m' keys keys', KeysOf s size m keys → KeysOf s' size' m' keys' →
      (∀ k ∈ keys, IsPubKey k) → (∀ k ∈ keys', IsPubKey k) →
      ((packedData s size = packedData s' size' → SameKeys m m' keys keys') ↔
        ¬KeptAlike m m' keys keys') := by
  refine ⟨exists_keysOf h4, exists_keysOf h4', ?_⟩
  intro m m' keys keys' h h' hkeys hkeys'
  constructor
  · intro hsame halike
    obtain ⟨heq, hdiff⟩ := packedData_of_keptAlike h h' hkeys hkeys' halike
    exact hdiff (hsame heq)
  · intro hno heq
    exact sameKeys_of_packedData h h' hkeys hkeys' hno heq

/-- The compressed keys of the generator of secp256k1 and of its inverse. -/
def generatorKey (sign : UInt8) : List UInt8 :=
  [sign, 0x79, 0xBE, 0x66, 0x7E, 0xF9, 0xDC, 0xBB, 0xAC, 0x55, 0xA0, 0x62, 0x95, 0xCE, 0x87, 0x0B,
   0x07, 0x02, 0x9B, 0xFC, 0xDB, 0x2D, 0xCE, 0x28, 0xD9, 0x59, 0xF2, 0x81, 0x5B, 0x16, 0xF8, 0x17,
   0x98]

theorem length_generatorKey (sign : UInt8) : (generatorKey sign).length = 33 := rfl

def generatorPush (sign : UInt8) : KeyPush :=
  KeyPush.direct (generatorKey sign) (Nat.lt_of_sub_eq_succ (length_generatorKey sign))
    (Nat.le_of_ble_eq_true rfl)

/-- The 1-of-1 script of such a key. -/
def generatorScript (sign : UInt8) : List UInt8 := multiSigScript 1 [generatorPush sign]

theorem length_generatorScript (sign : UInt8) : (generatorScript sign).length = 37 := by
  unfold generatorScript multiSigScript generatorPush
  rw [List.flatMap_cons, KeyPush.encode_direct]
  rfl

theorem keysOf_generatorScript (sign : UInt8) :
    KeysOf (surrounded (generatorScript sign) 0) 37 1 [generatorPush sign] := by
  refine ⟨[], Or.inl rfl, ?_⟩
  rw [← length_generatorScript sign]
  exact form_multiSigScript (Nat.le_refl 1) (Nat.le_refl 1) (by simp)
    (holds_surrounded (generatorScript sign) 0)

theorem isPubKey_generatorPush (sign : UInt8) :
    ∀ k ∈ [generatorPush sign], IsPubKey k := by
  intro k hk
  rw [List.mem_singleton.mp hk]
  exact Or.inl (length_generatorKey sign)

theorem solve_generatorScript (d : Digests) (sign addrType : UInt8) :
    (solveOutputScript d (surrounded (generatorScript sign) 0) 37 addrType).scriptType = 4 := by
  obtain ⟨junk, hj, hform⟩ := keysOf_generatorScript sign
  have hdata := hform.packedData_eq hj fun k hk => (isPubKey_generatorPush sign k hk).long
  rw [solveOutputScript_packed hdata]

theorem keptAlike_generator : KeptAlike 1 1 [generatorPush 2] [generatorPush 3] := by
  refine ⟨rfl, List.Perm.of_eq (by decide), ?_⟩
  intro hperm
  have hkey := List.perm_singleton.mp hperm
  exact absurd hkey (by decide)

/-- RIPEMD-160 on one input. -/
def digestsOf (digest : Hash160) : Digests := ⟨fun _ => nullHash, fun _ => digest⟩

theorem solveOutputScript_perm_generator : ∃ d pubKeyHash,
    solveOutputScript d
      (surrounded (multiSigScript 1 [generatorPush 2, generatorPush 3]) 0) 71 0 =
        ⟨4, pubKeyHash, 8⟩ ∧
    solveOutputScript d
      (surrounded (multiSigScript 1 [generatorPush 3, generatorPush 2]) 0) 71 0 =
        ⟨4, pubKeyHash, 8⟩ := by
  let digest : Hash160 := ⟨[0xE3, 0x06, 0x12, 0x99, 0x27, 0x48, 0xEA, 0x19, 0x5B, 0xCD, 0xEF, 0x77,
    0x8B, 0x55, 0x40, 0xDB, 0xF2, 0xB1, 0xD3, 0x39], by decide⟩
  have h2 : 1 ≤ [generatorPush 2, generatorPush 3].length := by decide
  have hperm : ([generatorPush 3, generatorPush 2].map KeyPush.data).Perm
      ([generatorPush 2, generatorPush 3].map KeyPush.data) := List.Perm.swap _ _ _
  obtain ⟨h, hs, hs', -⟩ := solveOutputScript_perm (digestsOf digest) (Nat.le_refl 1) h2
    (by decide) (by decide) hperm
    (holds_surrounded (multiSigScript 1 [generatorPush 2, generatorPush 3]) 0)
    (holds_surrounded (multiSigScript 1 [generatorPush 3, generatorPush 2]) 0) 0 0
  exact ⟨_, h, hs, hs'⟩

/-- The 1-of-2 script of two such keys. -/
def pairScript (sign sign' : UInt8) : List UInt8 :=
  multiSigScript 1 [generatorPush sign, generatorPush sign']

theorem length_pairScript (sign sign' : UInt8) : (pairScript sign sign').length = 71 := by
  unfold pairScript multiSigScript generatorPush
  rw [List.flatMap_cons, List.flatMap_cons, KeyPush.encode_direct, KeyPush.encode_direct]
  rfl

theorem keysOf_pairScript (sign sign' : UInt8) :
    KeysOf (surrounded (pairScript sign sign') 0) 71 1 [generatorPush sign, generatorPush sign'] := by
  refine ⟨[], Or.inl rfl, ?_⟩
  rw [← length_pairScript sign sign']
  exact form_multiSigScript (Nat.le_refl 1) (by simp) (by simp)
    (holds_surrounded (pairScript sign sign') 0)

theorem isPubKey_pair (sign sign' : UInt8) :
    ∀ k ∈ [generatorPush sign, generatorPush sign'], IsPubKey k := by
  intro k hk
  cases List.mem_cons.mp hk with
  | inl hk => exact isPubKey_generatorPush sign k (List.mem_singleton.mpr hk)
  | inr hk => exact isPubKey_generatorPush sign' k hk

theorem solve_pairScript (d : Digests) (sign sign' addrType : UInt8) :
    (solveOutputScript d (surrounded (pairScript sign sign') 0) 71 addrType).scriptType = 4 := by
  obtain ⟨junk, hj, hform⟩ := keysOf_pairScript sign sign'
  have hdata := hform.packedData_eq hj fun k hk => (isPubKey_pair sign sign' k hk).long
  rw [solveOutputScript_packed hdata]

/-- Two scripts with the same two keys, in either order. -/
theorem sameKeys_iff_pair :
    packedData (surrounded (pairScript 2 3) 0) 71 = packedData (surrounded (pairScript 3 2) 0) 71 ∧
    SameKeys 1 1 [generatorPush 2, generatorPush 3] [generatorPush 3, generatorPush 2] := by
  have hd : Digests := ⟨fun _ => nullHash, fun _ => keyTail (generatorKey 2)⟩
  have hkeys := keysOf_pairScript 2 3
  have hkeys' := keysOf_pairScript 3 2
  have hpub := isPubKey_pair 2 3
  have hpub' := isPubKey_pair 3 2
  have hperm : ([generatorPush 2, generatorPush 3].map KeyPush.data).Perm
      ([generatorPush 3, generatorPush 2].map KeyPush.data) := List.Perm.swap _ _ _
  have heq : packedData (surrounded (pairScript 2 3) 0) 71 =
      packedData (surrounded (pairScript 3 2) 0) 71 := by
    obtain ⟨junk, hj, hform⟩ := hkeys
    obtain ⟨junk', hj', hform'⟩ := hkeys'
    exact (packedData_eq_iff hform hj hform' hj' hpub hpub').mpr ⟨rfl, map_keyTail_perm hperm⟩
  have hiff := (sameKeys_iff hd (solve_pairScript hd 2 3 0) (solve_pairScript hd 3 2 0)).2.2 1 1 _ _
    hkeys hkeys' hpub hpub'
  refine ⟨heq, hiff.mpr ?_ heq⟩
  intro halike
  exact halike.2.2 hperm

/-- A key and its inverse have one address. -/
theorem packedData_generator :
    KeysOf (surrounded (generatorScript 2) 0) 37 1 [generatorPush 2] ∧
    KeysOf (surrounded (generatorScript 3) 0) 37 1 [generatorPush 3] ∧
    (∀ d addrType sign,
      (solveOutputScript d (surrounded (generatorScript sign) 0) 37 addrType).scriptType = 4) ∧
    packedData (surrounded (generatorScript 2) 0) 37 =
      packedData (surrounded (generatorScript 3) 0) 37 ∧
    ¬SameKeys 1 1 [generatorPush 2] [generatorPush 3] := by
  have h := keysOf_generatorScript 2
  have h' := keysOf_generatorScript 3
  refine ⟨h, h', fun d addrType sign => solve_generatorScript d sign addrType, ?_⟩
  exact packedData_of_keptAlike h h' (isPubKey_generatorPush 2) (isPubKey_generatorPush 3)
    keptAlike_generator

/-- `Compare160` is transitive and leaves no two arrays incomparable, it is asymmetric and
the order of the big-endian numbers exactly for different arrays, and it takes every array
for smaller than itself. So it is a strict weak ordering of no addresses at all, and between
different places of a list it answers as one exactly where no address is repeated. -/
theorem compare160_strictWeak_iff (a b c : Hash160) (addresses : List Hash160) :
    compare160 a a = true ∧
      ((compare160 a b = true → compare160 b a = false) ↔ a ≠ b) ∧
      (compare160 a b = true → compare160 b c = true → compare160 a c = true) ∧
      (Incomparable compare160 a b → Incomparable compare160 b c →
        Incomparable compare160 a c) ∧
      ((compare160 a b = true ↔ beNat a.1 < beNat b.1) ↔ a ≠ b) ∧
      (SortDefined compare160 addresses ↔ addresses = []) ∧
      (DefinedApart compare160 addresses ↔ addresses.Nodup) := by
  have hcomp := compare160_atMost
  have hne : beNat a.1 ≠ beNat b.1 ↔ a ≠ b := beNat_val_injective.ne_iff
  refine ⟨hcomp.self a, ?_, fun hab hbc => hcomp.trans hab hbc,
    fun hab => absurd hab hcomp.not_incomparable, ?_, hcomp.sortDefined_iff, ?_⟩
  · rw [← hne]
    exact hcomp.asymm_iff
  · rw [← hne]
    exact hcomp.lt_iff
  · rw [hcomp.definedApart_iff]
    exact List.nodup_map_iff beNat_val_injective

/-- A script with one key twice: packMultiSig sorts two equal addresses, and `Compare160`
takes each of them for smaller than the other. -/
theorem compare160_repeatedKey : ∃ h : Hash160,
    isMultiSig (surrounded (multiSigScript 1 [generatorPush 2, generatorPush 2]) 0) 71 =
      some (1, 2, [h, h]) ∧
      compare160 h h = true ∧ ¬SortDefined compare160 [h, h] ∧ ¬DefinedApart compare160 [h, h] := by
  have hform : Form 1 [generatorPush 2, generatorPush 2] []
      (read (surrounded (multiSigScript 1 [generatorPush 2, generatorPush 2]) 0) 0 71) :=
    form_multiSigScript (Nat.le_refl 1) (by decide) (by decide) (holds_surrounded _ 0)
  have h20 : ∀ k ∈ [generatorPush 2, generatorPush 2], 20 ≤ k.data.length := by
    intro k hk
    cases List.mem_cons.mp hk with
    | inl h => exact (isPubKey_generatorPush 2 k (List.mem_singleton.mpr h)).long
    | inr h => exact (isPubKey_generatorPush 2 k h).long
  refine ⟨keyTail (generatorKey 2), hform.isMultiSig_tails (Or.inl rfl) h20, by decide, ?_, ?_⟩
  · rw [compare160_atMost.sortDefined_iff]
    exact List.cons_ne_nil _ _
  · rw [compare160_atMost.definedApart_iff]
    simp

end Blockparser.MultiSig
