import Blockparser.CheckedAddress
import Blockparser.Lib.Radix
import Blockparser.KeyList
import Mathlib.Data.List.TakeWhile

/-! EncodeBase58 and DecodeBase58, which convert between bytes and digits in an array of a
length estimated beforehand. -/
namespace Blockparser.Base58
open Bytes Mpi Radix Address Hex MemoryManager Blockparser.Parser

/-- The locale is "C". -/
def isspace (c : UInt8) : Bool := c = 0x20 ∨ (0x09 ≤ c ∧ c ≤ 0x0D)

def pszBase58 : List UInt8 :=
  ['1', '2', '3', '4', '5', '6', '7', '8', '9', 'A', 'B', 'C', 'D', 'E', 'F', 'G', 'H', 'J', 'K',
    'L', 'M', 'N', 'P', 'Q', 'R', 'S', 'T', 'U', 'V', 'W', 'X', 'Y', 'Z', 'a', 'b', 'c', 'd', 'e',
    'f', 'g', 'h', 'i', 'j', 'k', 'm', 'n', 'o', 'p', 'q', 'r', 's', 't', 'u', 'v', 'w', 'x', 'y',
    'z'].map Char.toUInt8

/-- Digit by digit "b256 = b256 * 58 + ch"; `none` is a character that is no digit. -/
def decodeDigits : (psz b256 : List UInt8) → Option (List UInt8 × List UInt8)
  | [], b256 => some (b256, [])
  | c :: psz, b256 =>
    if isspace c then some (b256, c :: psz)
    else
      match pszBase58.idxOf? c with
      | none => none
      | some ch => decodeDigits psz (mulAdd 58 256 b256 ch).2

/-- The source counts `zeroes` in an int, so this is about strings with fewer than 2^31 of them. -/
def decodeBase58 (str : List UInt8) : Option (List UInt8) :=
  let psz := (cString str).dropWhile isspace
  let zeroes := (psz.takeWhile fun c => c = 0x31).length
  let psz := psz.dropWhile fun c => c = 0x31
  let b256 := List.replicate (psz.length * 733 / 1000 + 1) 0
  match decodeDigits psz b256 with
  | none => none
  | some (b256, psz) =>
    if psz.dropWhile isspace ≠ [] then none
    else some (List.replicate zeroes 0 ++ strip b256)

/-- An int again: fewer than 2^31 bytes in front are zero. -/
def encodeBase58 (bytes : List UInt8) : List UInt8 :=
  let zeroes := (bytes.takeWhile fun b => b = 0).length
  let bytes := bytes.dropWhile fun b => b = 0
  let b58 := List.replicate (bytes.length * 138 / 100 + 1) 0
  let b58 := bytes.foldl (fun b58 ch => (mulAdd 256 58 b58 ch.toNat).2) b58
  List.replicate zeroes 0x31 ++ (strip b58).map fun d => pszBase58.getD d.toNat 0

/-- 138 digits of base 58 hold 100 bytes, so the array is long enough. -/
theorem encode_room (n : Nat) : 256 ^ n ≤ 58 ^ (n * 138 / 100 + 1) := by
  refine (Nat.pow_le_pow_iff_left (by decide : 100 ≠ 0)).mp ?_
  calc (256 ^ n) ^ 100 = (256 ^ 100) ^ n := pow_right_comm 256 n 100
    _ ≤ (58 ^ 138) ^ n := Nat.pow_le_pow_left (by norm_num) n
    _ = 58 ^ (138 * n) := (pow_mul 58 138 n).symm
    _ ≤ 58 ^ ((n * 138 / 100 + 1) * 100) := Nat.pow_le_pow_right (by decide) (by omega)
    _ = (58 ^ (n * 138 / 100 + 1)) ^ 100 := pow_mul 58 _ 100

/-- 733 bytes hold 1000 digits. -/
theorem decode_room (n : Nat) : 58 ^ n ≤ 256 ^ (n * 733 / 1000 + 1) := by
  refine (Nat.pow_le_pow_iff_left (by decide : 1000 ≠ 0)).mp ?_
  calc (58 ^ n) ^ 1000 = (58 ^ 1000) ^ n := pow_right_comm 58 n 1000
    _ ≤ (256 ^ 733) ^ n := Nat.pow_le_pow_left (by decide +kernel) n
    _ = 256 ^ (733 * n) := (pow_mul 256 733 n).symm
    _ ≤ 256 ^ ((n * 733 / 1000 + 1) * 1000) := Nat.pow_le_pow_right (by decide) (by omega)
    _ = (256 ^ (n * 733 / 1000 + 1)) ^ 1000 := pow_mul 256 _ 1000

theorem value_zeros (base n : Nat) : value base (List.replicate n 0) = 0 := by
  induction n with
  | zero => rfl
  | succ n ih =>
    rw [List.replicate_succ, value_cons, ih]
    simp

theorem beNat_eq_value (bs : List UInt8) : beNat bs = value 256 bs := by
  induction bs with
  | nil => rfl
  | cons b bs ih =>
    have hcons := beNat_append [b] bs
    rw [List.singleton_append] at hcons
    have hb : beNat [b] = b.toNat := by simp [beNat, leNat]
    rw [hcons, value_cons, ih, hb]
    ring

/-- Converted into an array that is long enough, a number keeps its value. -/
theorem convert_value (mul base : Nat) (hbase : 0 < base) (h256 : base ≤ 256) {ds : List UInt8}
    (hds : ∀ d ∈ ds, d.toNat < mul) {k : Nat} (hroom : mul ^ ds.length ≤ base ^ k) :
    value base (convert mul base ds (List.replicate k 0)) = value mul ds ∧
      ∀ d ∈ convert mul base ds (List.replicate k 0), d.toNat < base := by
  have hzero : ∀ d ∈ List.replicate k (0 : UInt8), d.toNat < base := by
    intro d hd
    rw [List.eq_of_mem_replicate hd]
    exact hbase
  obtain ⟨-, hlt, hv⟩ := convert_spec hbase h256 hds hzero (by
    rw [value_zeros, Nat.zero_add, Nat.one_mul, List.length_replicate]
    exact hroom)
  rw [value_zeros, Nat.zero_mul, Nat.zero_add] at hv
  exact ⟨hv, hlt⟩

/-- The digits of a number without zeros in front. -/
theorem map_strip {ds : List UInt8} (h : ∀ d ∈ ds, d.toNat < 58) :
    (strip ds).map (fun d => b58Digit d.toNat) = (b58Loop (value 58 ds)).reverse := by
  have hes : ∀ es : List UInt8, (∀ d ∈ es, d.toNat < 58) →
      (∀ d es', es = d :: es' → 0 < d.toNat) →
      es.map (fun d => b58Digit d.toNat) = (b58Loop (value 58 es)).reverse := by
    intro es
    induction es using List.reverseRecOn with
    | nil =>
      intro _ _
      rw [value_nil, b58Loop, if_pos rfl]
      rfl
    | append_singleton es d ih =>
      intro hlt hhead
      have hd : d.toNat < 58 := hlt d (by simp)
      have hval : value 58 (es ++ [d]) = value 58 es * 58 + d.toNat := by
        rw [value_append, value_cons]
        simp
      have hpos : 0 < value 58 es * 58 + d.toNat := by
        cases es with
        | nil =>
          have := hhead d [] rfl
          omega
        | cons e es =>
          have he := hhead e (es ++ [d]) rfl
          rw [value_cons]
          have : 0 < e.toNat * 58 ^ es.length := Nat.mul_pos he (by positivity)
          omega
      rw [List.map_append, ih (fun d' hd' => hlt d' (List.mem_append_left _ hd')), hval,
        b58Loop_digit hd hpos]
      · rfl
      · intro d' es' heq
        exact hhead d' (es' ++ [d]) (by rw [heq]; rfl)
  rw [hes (strip ds) (fun d hd => h d (mem_strip hd)) (fun d es' heq => head_strip heq),
    value_strip]

/-- EncodeBase58 writes a digit for each zero byte in front, and the digits of the number. -/
theorem encode_eq (bytes : List UInt8) :
    encodeBase58 bytes =
      List.replicate (leadingZeros bytes) (b58Digit 0) ++ (b58Loop (beNat bytes)).reverse := by
  obtain ⟨hv, hlt⟩ := convert_value 256 58 (by decide) (by decide)
    (fun d (_ : d ∈ strip bytes) => d.toNat_lt) (encode_room _)
  have hmap := map_strip hlt
  rw [hv, value_strip, ← beNat_eq_value] at hmap
  unfold encodeBase58
  exact congrArg (List.replicate (leadingZeros bytes) (b58Digit 0) ++ ·) hmap

theorem takeWhile_zero (bs : List UInt8) :
    bs.takeWhile (fun b => decide (b = 0)) = List.replicate (leadingZeros bs) 0 := by
  refine List.eq_replicate_iff.mpr ⟨rfl, ?_⟩
  intro b hb
  simpa using List.all_eq_true.mp List.all_takeWhile b hb

theorem zeros_strip (bs : List UInt8) : bs = List.replicate (leadingZeros bs) 0 ++ strip bs := by
  rw [← takeWhile_zero, strip, List.takeWhile_append_dropWhile]

theorem idxOf_digit {i : Nat} (hi : i < 58) : pszBase58.idxOf? (b58Digit i) = some i := by
  have h : ∀ j : Fin 58, pszBase58.idxOf? (b58Digit j) = some j.1 := by decide
  exact h ⟨i, hi⟩

theorem digit_of_idxOf {c : UInt8} {i : Nat} (h : pszBase58.idxOf? c = some i) :
    i < 58 ∧ c = b58Digit i := by
  have hall : ∀ c : UInt8, ∀ i ∈ pszBase58.idxOf? c, i < 58 ∧ c = b58Digit i := by
    apply forall_byte
    decide +kernel
  exact hall c i h

theorem digit_not_space {i : Nat} (hi : i < 58) : isspace (b58Digit i) = false := by
  have h : ∀ j : Fin 58, isspace (b58Digit j) = false := by decide
  exact h ⟨i, hi⟩

/-- The loop reads digits up to the end or a space. -/
theorem decodeDigits_some {psz buf b rest : List UInt8}
    (h : decodeDigits psz buf = some (b, rest)) :
    ∃ ds : List UInt8, (∀ d ∈ ds, d.toNat < 58) ∧
      psz = ds.map (fun d => b58Digit d.toNat) ++ rest ∧ b = convert 58 256 ds buf ∧
      rest.takeWhile (fun c => !isspace c) = [] := by
  induction psz generalizing buf with
  | nil =>
    cases h
    exact ⟨[], by simp, rfl, rfl, rfl⟩
  | cons c psz ih =>
    unfold decodeDigits at h
    split at h
    · next hsp =>
      cases h
      exact ⟨[], by simp, rfl, rfl, by simp [hsp]⟩
    · split at h
      · nomatch h
      · next ch hch =>
        obtain ⟨hlt, rfl⟩ := digit_of_idxOf hch
        obtain ⟨ds, hds, hpsz, hb, hrest⟩ := ih h
        have hnat : (UInt8.ofNat ch).toNat = ch := by
          rw [UInt8.toNat_ofNat']
          exact Nat.mod_eq_of_lt (by omega)
        refine ⟨UInt8.ofNat ch :: ds, ?_, ?_, ?_, hrest⟩
        · intro d hd
          rcases List.mem_cons.mp hd with rfl | hd
          · rw [hnat]
            exact hlt
          · exact hds d hd
        · rw [List.map_cons, hnat, List.cons_append, ← hpsz]
        · rw [hb]
          simp only [convert, List.foldl_cons, hnat]

theorem decodeDigits_digits {ds : List UInt8} (hds : ∀ d ∈ ds, d.toNat < 58)
    {rest : List UInt8} (hrest : ∀ c ∈ rest, isspace c = true) (buf : List UInt8) :
    decodeDigits (ds.map (fun d => b58Digit d.toNat) ++ rest) buf =
      some (convert 58 256 ds buf, rest) := by
  induction ds generalizing buf with
  | nil =>
    cases rest with
    | nil => rfl
    | cons c rest =>
      rw [List.map_nil, List.nil_append, decodeDigits, if_pos (hrest c List.mem_cons_self)]
      rfl
  | cons d ds ih =>
    have hd := hds d List.mem_cons_self
    rw [List.map_cons, List.cons_append, decodeDigits, if_neg (by rw [digit_not_space hd]; simp),
      idxOf_digit hd]
    exact ih (fun d' hd' => hds d' (List.mem_cons_of_mem d hd')) _

/-- What a prefix that is skipped leaves. -/
theorem dropWhile_append {p : UInt8 → Bool} {as : List UInt8} (bs : List UInt8)
    (has : ∀ a ∈ as, p a = true)
    (hbs : ∀ b bs', bs = b :: bs' → p b = false) :
    (as ++ bs).dropWhile p = bs ∧ (as ++ bs).takeWhile p = as := by
  have hnil : bs.dropWhile p = bs ∧ bs.takeWhile p = [] := by
    cases bs with
    | nil => exact ⟨rfl, rfl⟩
    | cons b bs =>
      have hb := hbs b bs rfl
      exact ⟨List.dropWhile_cons_of_neg (by simp [hb]), List.takeWhile_cons_of_neg (by simp [hb])⟩
  rw [List.dropWhile_append_of_pos has, List.takeWhile_append_of_pos has, hnil.1, hnil.2,
    List.append_nil]
  exact ⟨rfl, rfl⟩

theorem head_dropWhile {p : UInt8 → Bool} {cs cs' : List UInt8} {c : UInt8}
    (h : cs.dropWhile p = c :: cs') : p c = false := by
  have hhead := List.head?_dropWhile_not p cs
  rw [h] at hhead
  simpa using hhead

/-- Digits that do not begin with the digit zero are those of a stripped number. -/
theorem strip_digits {ds : List UInt8}
    (h : ∀ c cs, ds.map (fun d => b58Digit d.toNat) = c :: cs → c ≠ b58Digit 0) :
    strip ds = ds := by
  cases ds with
  | nil => rfl
  | cons d ds =>
    have hd := h _ _ rfl
    have hne : d ≠ 0 := by
      intro h0
      rw [h0] at hd
      exact hd rfl
    exact List.dropWhile_cons_of_neg (by simpa using hne)

theorem strip_zeros_append (n : Nat) (ds : List UInt8) :
    strip (List.replicate n 0 ++ strip ds) = strip ds ∧
      leadingZeros (List.replicate n 0 ++ strip ds) = n := by
  have hzeros : ∀ d ∈ List.replicate n (0 : UInt8), decide (d = 0) = true := by
    intro d hd
    simpa using List.eq_of_mem_replicate hd
  obtain ⟨hdrop, htake⟩ := dropWhile_append (strip ds) hzeros (by
    intro d es heq
    exact head_dropWhile heq)
  refine ⟨hdrop, ?_⟩
  rw [leadingZeros, htake, List.length_replicate]

/-- The digits EncodeBase58 gives are those DecodeBase58 read. -/
theorem encode_of_digits {ds : List UInt8} (hds : ∀ d ∈ ds, d.toNat < 58) (hstrip : strip ds = ds)
    {k : Nat} (hroom : 58 ^ ds.length ≤ 256 ^ k) (zeroes : Nat) :
    encodeBase58 (List.replicate zeroes 0 ++ strip (convert 58 256 ds (List.replicate k 0))) =
      List.replicate zeroes (b58Digit 0) ++ ds.map fun d => b58Digit d.toNat := by
  obtain ⟨hv, -⟩ := convert_value 58 256 (by decide) (Nat.le_refl 256) hds hroom
  obtain ⟨hstrip', hzeros⟩ := strip_zeros_append zeroes (convert 58 256 ds (List.replicate k 0))
  have hnum : beNat (List.replicate zeroes 0 ++ strip (convert 58 256 ds (List.replicate k 0))) =
      value 58 ds := by
    rw [beNat_eq_value, ← value_strip, hstrip', value_strip, hv]
  rw [encode_eq, hzeros, hnum, ← map_strip hds, hstrip]

/-- What is accepted is the string of the bytes between spaces. -/
theorem encode_of_decode {str bs : List UInt8} (h : decodeBase58 str = some bs) :
    ∃ sp sp' : List UInt8, (∀ c ∈ sp, isspace c = true) ∧ (∀ c ∈ sp', isspace c = true) ∧
      cString str = sp ++ encodeBase58 bs ++ sp' := by
  unfold decodeBase58 at h
  dsimp only at h
  generalize hpsz : (cString str).dropWhile isspace = psz at h
  generalize hdig : psz.dropWhile (fun c => decide (c = 0x31)) = digits at h
  split at h
  · nomatch h
  · next b256 rest heq =>
    split at h
    · nomatch h
    · next hend =>
      obtain ⟨ds, hds, hmap, rfl, -⟩ := decodeDigits_some heq
      have hlen : ds.length ≤ digits.length := by rw [hmap]; simp
      have hroom : 58 ^ ds.length ≤ 256 ^ (digits.length * 733 / 1000 + 1) :=
        Nat.le_trans (decode_room _) (Nat.pow_le_pow_right (by decide) (by omega))
      have hstrip : strip ds = ds := by
        refine strip_digits fun c cs hc => ?_
        rw [hmap, hc] at hdig
        exact of_decide_eq_false (head_dropWhile hdig)
      have hones : psz.takeWhile (fun c => decide (c = 0x31)) = List.replicate
          (psz.takeWhile fun c => decide (c = 0x31)).length (b58Digit 0) := by
        refine List.eq_replicate_iff.mpr ⟨rfl, fun c hc => ?_⟩
        exact of_decide_eq_true (List.all_eq_true.mp List.all_takeWhile c hc)
      cases h
      refine ⟨(cString str).takeWhile isspace, rest, ?_, ?_, ?_⟩
      · exact fun c hc => List.all_eq_true.mp List.all_takeWhile c hc
      · exact List.dropWhile_eq_nil_iff.mp (not_not.mp hend)
      · rw [encode_of_digits hds hstrip hroom, ← hones, List.append_assoc, List.append_assoc,
          ← hmap, ← hdig, List.takeWhile_append_dropWhile, ← hpsz,
          List.takeWhile_append_dropWhile]

/-- The digits of a number, as the encoder finds them. -/
theorem exists_digits (n : Nat) : ∃ ds : List UInt8, (∀ d ∈ ds, d.toNat < 58) ∧ strip ds = ds ∧
    value 58 ds = n ∧ (b58Loop n).reverse = ds.map fun d => b58Digit d.toNat := by
  obtain ⟨hv, hlt⟩ := convert_value 256 58 (by decide) (by decide)
    (fun d (_ : d ∈ beBytes n n) => d.toNat_lt) (encode_room _)
  have hn : value 256 (beBytes n n) = n := by
    rw [← beNat_eq_value]
    exact beNat_beBytes n n (Nat.lt_pow_self (by decide))
  rw [hn] at hv
  refine ⟨_, fun d hd => hlt d (mem_strip hd), ?_, ?_, ?_⟩
  · exact (strip_zeros_append 0 _).1
  · rw [value_strip, hv]
  · rw [map_strip hlt, hv]

/-- The first of the digits is not zero. -/
theorem head_digits {ds : List UInt8} (hds : ∀ d ∈ ds, d.toNat < 58) (hstrip : strip ds = ds)
    {c : UInt8} {cs : List UInt8} (h : ds.map (fun d => b58Digit d.toNat) = c :: cs) :
    c ≠ b58Digit 0 := by
  cases ds with
  | nil => nomatch h
  | cons d ds =>
    cases h
    exact b58Digit_ne (head_strip hstrip) (hds d List.mem_cons_self)

/-- What the loops of DecodeBase58 give, once the spaces in front are gone. -/
theorem decode_of_dropWhile {str tail ds : List UInt8} {zeroes : Nat}
    (hds : ∀ d ∈ ds, d.toNat < 58) (hstrip : strip ds = ds)
    (htail : ∀ c ∈ tail, isspace c = true)
    (h : (cString str).dropWhile isspace = List.replicate zeroes (b58Digit 0) ++
      (ds.map (fun d => b58Digit d.toNat) ++ tail)) :
    ∃ k, 58 ^ ds.length ≤ 256 ^ k ∧ decodeBase58 str =
      some (List.replicate zeroes 0 ++ strip (convert 58 256 ds (List.replicate k 0))) := by
  have hones : ∀ c ∈ List.replicate zeroes (b58Digit 0), decide (c = 0x31) = true := by
    intro c hc
    exact decide_eq_true (List.eq_of_mem_replicate hc)
  obtain ⟨hdrop, htake⟩ := dropWhile_append
      (ds.map (fun d => b58Digit d.toNat) ++ tail) hones (by
    intro c cs heq
    cases hmap : ds.map (fun d => b58Digit d.toNat) with
    | nil =>
      rw [hmap, List.nil_append] at heq
      have hsp := htail c (by rw [heq]; exact List.mem_cons_self)
      refine decide_eq_false ?_
      intro h1
      rw [h1] at hsp
      nomatch hsp
    | cons c' cs' =>
      rw [hmap] at heq
      cases heq
      exact decide_eq_false (head_digits hds hstrip hmap))
  refine ⟨(ds.map (fun d => b58Digit d.toNat) ++ tail).length * 733 / 1000 + 1, ?_, ?_⟩
  · refine Nat.le_trans (decode_room _) (Nat.pow_le_pow_right (by decide) ?_)
    simp only [List.length_append, List.length_map]
    omega
  · unfold decodeBase58
    dsimp only
    rw [h, hdrop, htake, decodeDigits_digits hds htail, List.length_replicate]
    dsimp only
    rw [if_neg (not_not.mpr (List.dropWhile_eq_nil_iff.mpr htail))]

/-- The string of some bytes, with spaces around it, is read back. -/
theorem decode_encode {str : List UInt8} (sp : List UInt8) {bs : List UInt8} (sp' : List UInt8)
    (hsp : ∀ c ∈ sp, isspace c = true) (hsp' : ∀ c ∈ sp', isspace c = true)
    (h : cString str = sp ++ encodeBase58 bs ++ sp') : decodeBase58 str = some bs := by
  obtain ⟨ds, hds, hstrip, hval, hmap⟩ := exists_digits (beNat bs)
  have henc : encodeBase58 bs = List.replicate (leadingZeros bs) (b58Digit 0) ++
      ds.map fun d => b58Digit d.toNat := by rw [encode_eq, hmap]
  have hdigit : ∀ c ∈ encodeBase58 bs, isspace c = false := by
    intro c hc
    rw [henc] at hc
    cases List.mem_append.mp hc with
    | inl hc =>
      rw [List.eq_of_mem_replicate hc]
      exact digit_not_space (by decide)
    | inr hc =>
      obtain ⟨d, hd, rfl⟩ := List.mem_map.mp hc
      exact digit_not_space (hds d hd)
  -- without digits the spaces on both sides are skipped at once
  have hdrop : ∃ tail : List UInt8, (∀ c ∈ tail, isspace c = true) ∧
      (cString str).dropWhile isspace = encodeBase58 bs ++ tail := by
    rw [h]
    cases hcs : encodeBase58 bs with
    | nil =>
      refine ⟨[], by simp, List.dropWhile_eq_nil_iff.mpr ?_⟩
      intro c hc
      rw [List.append_nil] at hc
      exact (List.mem_append.mp hc).elim (hsp c) (hsp' c)
    | cons c cs =>
      refine ⟨sp', hsp', ?_⟩
      rw [List.append_assoc]
      refine (dropWhile_append _ hsp ?_).1
      intro b bs' heq
      cases heq
      exact hdigit c (by rw [hcs]; exact List.mem_cons_self)
  obtain ⟨tail, htail, hdrop⟩ := hdrop
  rw [henc, List.append_assoc] at hdrop
  obtain ⟨k, hroom, hdec⟩ := decode_of_dropWhile hds hstrip htail hdrop
  obtain ⟨hv, -⟩ := convert_value 58 256 (by decide) (Nat.le_refl 256) hds hroom
  have hbytes : strip (convert 58 256 ds (List.replicate k 0)) = strip bs := by
    refine strip_unique (fun d _ => d.toNat_lt) (fun d _ => d.toNat_lt) ?_
    rw [hv, hval, beNat_eq_value]
  rw [hdec, hbytes, ← zeros_strip]

/-- DecodeBase58 accepts the strings EncodeBase58 writes, with spaces around them, and gives
the bytes that were written. -/
theorem decodeBase58_iff (str bs : List UInt8) :
    decodeBase58 str = some bs ↔
      ∃ sp sp' : List UInt8, (∀ c ∈ sp, isspace c = true) ∧ (∀ c ∈ sp', isspace c = true) ∧
        cString str = sp ++ encodeBase58 bs ++ sp' := by
  refine ⟨encode_of_decode, ?_⟩
  intro ⟨sp, sp', hsp, hsp', h⟩
  exact decode_encode sp sp' hsp hsp' h

/-! The digits summed up in a BIGNUM. -/

theorem sumDigits_cString (str : List UInt8) (n : Nat) :
    sumDigits n (str ++ [0]) = sumDigits n (cString str ++ [0]) := by
  induction str generalizing n with
  | nil => rfl
  | cons c str ih =>
    unfold cString
    by_cases h0 : c = 0
    · rw [h0, List.takeWhile_cons_of_neg (by simp)]
      rfl
    · rw [List.takeWhile_cons_of_pos (by simpa using h0), List.cons_append, List.cons_append,
        sumDigits, sumDigits, if_neg h0, if_neg h0]
      cases fromB58Digit c with
      | none => rfl
      | some dg => exact ih _

theorem nul_not_mem (str : List UInt8) : 0 ∉ cString str := by
  intro h
  have := List.all_eq_true.mp List.all_takeWhile 0 h
  nomatch this

theorem cString_eq {str : List UInt8} (h : 0 ∉ str) : cString str = str := by
  refine List.takeWhile_eq_self_iff.mpr ?_
  intro c hc
  simpa using fun h0 : c = 0 => h (h0 ▸ hc)

theorem isB58_not_space {str : List UInt8} (h : IsB58 str) : ∀ c ∈ str, isspace c = false := by
  intro c hc
  obtain ⟨i, hi, rfl⟩ := exists_digit (h c hc)
  exact digit_not_space hi

/-- Every string of digits is the string of some bytes. -/
theorem encode_surjective {str : List UInt8} (h : IsB58 str) : ∃ bs, encodeBase58 bs = str := by
  obtain ⟨n, -, hstr⟩ := exists_number h
  obtain ⟨hstrip, hzeros⟩ := strip_zeros_append (ones str) (beBytes n n)
  refine ⟨List.replicate (ones str) 0 ++ strip (beBytes n n), ?_⟩
  have hnum : beNat (List.replicate (ones str) 0 ++ strip (beBytes n n)) = n := by
    rw [beNat_eq_value, ← value_strip, hstrip, value_strip, ← beNat_eq_value]
    exact beNat_beBytes n n (Nat.lt_pow_self (by decide))
  rw [encode_eq, hzeros, hnum, ← hstr]

/-- Where there are no spaces, addrToHash160 finds the number of the bytes DecodeBase58 gives,
and fails where it fails. -/
theorem sumDigits_iff (str : List UInt8) (n : Nat) :
    sumDigits 0 (str ++ [0]) = some n ↔
      ∃ bs, decodeBase58 str = some bs ∧ beNat bs = n ∧ ∀ c ∈ cString str, isspace c = false := by
  have henc : ∀ bs, sumDigits 0 (encodeBase58 bs ++ [0]) = some (beNat bs) := by
    intro bs
    rw [encode_eq, List.append_assoc, sumDigits_zeros, sumDigits_b58Loop]
    rfl
  rw [sumDigits_cString]
  constructor
  · intro hsum
    by_cases hb58 : IsB58 (cString str)
    · obtain ⟨bs, hbs⟩ := encode_surjective hb58
      have hdec : decodeBase58 str = some bs := decode_encode [] [] (by simp)
        (by simp) (by rw [hbs, List.nil_append, List.append_nil])
      rw [← hbs, henc, Option.some.injEq] at hsum
      exact ⟨bs, hdec, hsum, isB58_not_space hb58⟩
    · rw [KeyList.sumDigits_none (nul_not_mem str) hb58] at hsum
      nomatch hsum
  · intro ⟨bs, hdec, hn, hsp⟩
    obtain ⟨sp, sp', hspaces, hspaces', hstr⟩ := encode_of_decode hdec
    have hnil : ∀ sp₁ : List UInt8, (∀ c ∈ sp₁, isspace c = true) → (∀ c ∈ sp₁, c ∈ cString str) →
        sp₁ = [] := by
      intro sp₁ hspace hmem
      refine List.eq_nil_iff_forall_not_mem.mpr fun c hc => ?_
      exact Bool.false_ne_true ((hsp c (hmem c hc)).symm.trans (hspace c hc))
    rw [hnil sp hspaces (by simp +contextual [hstr]), hnil sp' hspaces' (by simp +contextual [hstr]),
      List.nil_append, List.append_nil] at hstr
    rw [hstr, henc, hn]

end Blockparser.Base58
