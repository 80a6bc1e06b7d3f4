import Blockparser.Address
import Blockparser.Lib.Segments

/-! Decoding of arbitrary strings of base 58 digits: which of them are accepted, and where
the decoded bytes are written. -/
namespace Blockparser.Address
open Bytes Mpi MemoryManager Blockparser.Parser

/-- A string of base 58 digits. -/
def IsB58 (addr : List UInt8) : Prop := ∀ c ∈ addr, c ∈ b58Digits

instance (addr : List UInt8) : Decidable (IsB58 addr) := List.decidableBAll _ addr

/-- The number of digits in front that stand for zero. -/
def ones (addr : List UInt8) : Nat := (addr.takeWhile fun c => c = b58Digit 0).length

theorem exists_digit {c : UInt8} (h : c ∈ b58Digits) : ∃ i, i < 58 ∧ c = b58Digit i := by
  obtain ⟨i, hi, hc⟩ := List.mem_iff_getElem.mp h
  refine ⟨i, hi, ?_⟩
  rw [b58Digit, List.getD_eq_getElem?_getD, List.getElem?_eq_getElem hi, hc]
  rfl

theorem b58Digit_ne {i : Nat} (h0 : 0 < i) (hi : i < 58) : b58Digit i ≠ b58Digit 0 := by
  have h : ∀ j : Fin 58, 0 < j.1 → b58Digit j.1 ≠ b58Digit 0 := by decide
  exact h ⟨i, hi⟩ h0

/-- One more digit at the end of a number. -/
theorem b58Loop_digit {n i : Nat} (hi : i < 58) (h : 0 < n * 58 + i) :
    (b58Loop (n * 58 + i)).reverse = (b58Loop n).reverse ++ [b58Digit i] := by
  have hdiv : (n * 58 + i) / 58 = n := by omega
  have hmod : (n * 58 + i) % 58 = i := by omega
  rw [b58Loop, if_neg (by omega), hdiv, hmod, List.reverse_cons]

theorem sumDigits_pos {n : Nat} {addr : List UInt8} (hn : 0 < n) (h : IsB58 addr) :
    ∃ N, sumDigits n (addr ++ [0]) = some N ∧
      (b58Loop N).reverse = (b58Loop n).reverse ++ addr := by
  induction addr generalizing n with
  | nil => exact ⟨n, by rfl, by simp⟩
  | cons c addr ih =>
    obtain ⟨i, hi, rfl⟩ := exists_digit (h c List.mem_cons_self)
    have hrest : IsB58 addr := fun c' hc' => h c' (List.mem_cons_of_mem _ hc')
    obtain ⟨N, hsum, hloop⟩ := ih (show 0 < n * 58 + i by omega) hrest
    refine ⟨N, ?_, ?_⟩
    · rw [List.cons_append, sumDigits_b58Digit hi, hsum]
    · rw [hloop, b58Loop_digit hi (by omega), List.append_assoc]
      rfl

/-- A string is the digits of its number behind digits that stand for zero. -/
theorem exists_number {addr : List UInt8} (h : IsB58 addr) :
    ∃ N, sumDigits 0 (addr ++ [0]) = some N ∧
      addr = List.replicate (ones addr) (b58Digit 0) ++ (b58Loop N).reverse := by
  induction addr with
  | nil =>
    refine ⟨0, rfl, ?_⟩
    rw [b58Loop, if_pos rfl]
    rfl
  | cons c addr ih =>
    obtain ⟨i, hi, rfl⟩ := exists_digit (h c List.mem_cons_self)
    have hrest : IsB58 addr := fun c' hc' => h c' (List.mem_cons_of_mem _ hc')
    cases Nat.eq_zero_or_pos i with
    | inl h0 =>
      subst h0
      obtain ⟨N, hsum, heq⟩ := ih hrest
      have hones : ones (b58Digit 0 :: addr) = ones addr + 1 := by
        unfold ones
        rw [List.takeWhile_cons_of_pos (by simp)]
        rfl
      refine ⟨N, ?_, ?_⟩
      · rw [List.cons_append, sumDigits_b58Digit hi, ← hsum]
      · rw [hones, List.replicate_succ, List.cons_append, ← heq]
    | inr hpos =>
      obtain ⟨N, hsum, hloop⟩ := sumDigits_pos hpos hrest
      have hones : ones (b58Digit i :: addr) = 0 := by
        unfold ones
        rw [List.takeWhile_cons_of_neg (by simpa using b58Digit_ne hpos hi)]
        rfl
      have hdigit := b58Loop_digit (n := 0) hi (by omega)
      rw [Nat.zero_mul, Nat.zero_add] at hdigit
      refine ⟨N, ?_, ?_⟩
      · rw [List.cons_append, sumDigits_b58Digit hi, ← hsum]
        congr 1
        omega
      · rw [hones, hloop, hdigit]
        simp [b58Loop]

/-- A string of digits is told by its number and the digits in front. -/
theorem digits_inj {a b N M : Nat}
    (h : List.replicate a (b58Digit 0) ++ (b58Loop N).reverse =
      List.replicate b (b58Digit 0) ++ (b58Loop M).reverse) : a = b ∧ N = M := by
  have hsum := congrArg (fun addr => sumDigits 0 (addr ++ [0])) h
  have hnum : ∀ k n : Nat,
      sumDigits 0 (List.replicate k (b58Digit 0) ++ (b58Loop n).reverse ++ [0]) = some n := by
    intro k n
    rw [List.append_assoc, sumDigits_zeros, sumDigits_b58Loop]
    rfl
  rw [hnum, hnum, Option.some.injEq] at hsum
  subst hsum
  have hlen := congrArg List.length h
  simp only [List.length_append, List.length_replicate] at hlen
  exact ⟨by omega, rfl⟩

/-! The strings that are accepted. -/

variable (sha256 : List UInt8 → Hash256) (coin : Coin)

/-- The first four bytes of the double digest of version and hash. -/
def checkSum (hash160 : Hash160) : List UInt8 :=
  (sha256Twice sha256 (getCoinType coin :: hash160.1)).take 4

/-- What an address stands for: the version, the hash and the checksum. -/
def addrPayload (hash160 : Hash160) : List UInt8 :=
  getCoinType coin :: (hash160.1 ++ checkSum sha256 coin hash160)

/-- The Base58Check encoding of version and hash. -/
def base58Check (hash160 : Hash160) : List UInt8 :=
  List.replicate (leadingZeros (addrPayload sha256 coin hash160)) (b58Digit 0) ++
    (b58Loop (beNat (addrPayload sha256 coin hash160))).reverse

/-- The number fits the buffer, and its last bytes as they are read are a hash and its
checksum. -/
structure Checked (sum : Nat) (hash160 : Hash160) : Prop where
  size : mpiSize sum ≤ 26
  hash : hash160.1 = beBytes 20 (sum / 256 ^ 4)
  check : lastFour (bn2mpi sum) = checkSum sha256 coin hash160

/-- Another string than the address of its hash: in front of the hash stands another number
than the version, or the checksum is read from the length of the number, or there are more
or fewer digits in front than zero bytes. -/
def Impostor (addr : List UInt8) : Prop :=
  ∃ sum hash160, sumDigits 0 (addr ++ [0]) = some sum ∧ Checked sha256 coin sum hash160 ∧
    (sum / 256 ^ 24 ≠ (getCoinType coin).toNat ∨ (0 < sum ∧ sum < 2 ^ 23) ∨
      ones addr ≠ leadingZeros (addrPayload sha256 coin hash160))

/-- Whatever the buffers hold, a string is accepted only as the address of the hash. -/
def OnlyRealAddress (addr : List UInt8) : Prop :=
  ∀ (buf out out' : Memory), addrToHash160 sha256 coin buf out (addr ++ [0]) true =
    some (true, out') → ∃ hash160 : Hash160, read out' 0 20 = hash160.1 ∧
      addr = base58Check sha256 coin hash160

variable {sha256 coin} {sum : Nat} {hash160 : Hash160}

@[simp] theorem length_checkSum : (checkSum sha256 coin hash160).length = 4 := by
  simp [checkSum]

theorem beNat_addrPayload : beNat (addrPayload sha256 coin hash160) =
    beNat (checkSum sha256 coin hash160) + 256 ^ 4 * (beNat hash160.1 +
      256 ^ 20 * (getCoinType coin).toNat) := by
  have hcons : addrPayload sha256 coin hash160 =
      ([getCoinType coin] ++ hash160.1) ++ checkSum sha256 coin hash160 := rfl
  have hone : beNat [getCoinType coin] = (getCoinType coin).toNat := by simp [beNat, leNat]
  rw [hcons, beNat_append, beNat_append, length_checkSum, length_hash160, hone]

/-- The last four bytes of a number that is shorter take in its length. -/
theorem beNat_lastFour_short (hpos : 0 < sum) (hlt : mpiSize sum < 4) :
    beNat (lastFour (bn2mpi sum)) ≠ sum := by
  have hsz : 0 < mpiSize sum := by
    by_contra h0
    have hlt := lt_mpiSize sum
    rw [show mpiSize sum = 0 by omega, pow_zero] at hlt
    omega
  have hdata := beNat_drop_bn2mpi sum
  have hsplit : lastFour (bn2mpi sum) =
      (beBytes 4 (mpiSize sum)).drop (mpiSize sum) ++ (bn2mpi sum).drop 4 := by
    have htake : (bn2mpi sum).take 4 = beBytes 4 (mpiSize sum) := by
      rw [bn2mpi, List.take_left' (by simp)]
    rw [lastFour, length_bn2mpi, show 4 + mpiSize sum - 4 = mpiSize sum by omega, ← htake]
    conv_lhs => rw [← List.take_append_drop 4 (bn2mpi sum)]
    rw [List.drop_append_of_le_length (by simp; omega)]
  have hlen : 0 < beNat ((beBytes 4 (mpiSize sum)).drop (mpiSize sum)) := by
    have hcases : mpiSize sum = 1 ∨ mpiSize sum = 2 ∨ mpiSize sum = 3 := by omega
    cases hcases with
    | inl h => rw [h]; decide
    | inr h =>
      cases h with
      | inl h => rw [h]; decide
      | inr h => rw [h]; decide
  rw [hsplit, beNat_append, hdata]
  have hprod := Nat.mul_pos (Nat.pow_pos (n := ((bn2mpi sum).drop 4).length)
    (show 0 < 256 by omega)) hlen
  omega

/-- The number is that of an address exactly when the version stands in front and the
checksum was not read from the length. -/
theorem Checked.number_iff (h : Checked sha256 coin sum hash160) :
    sum = beNat (addrPayload sha256 coin hash160) ↔
      sum / 256 ^ 24 = (getCoinType coin).toNat ∧ ¬(0 < sum ∧ sum < 2 ^ 23) := by
  have hshort := mpiSize_le_iff (n := sum) (show 0 < 3 by omega)
  have hhash : beNat hash160.1 = sum / 256 ^ 4 % 256 ^ 20 := by rw [h.hash, beNat_beBytes_mod]
  have hcheck := beNat_lt (checkSum sha256 coin hash160)
  rw [length_checkSum] at hcheck
  rw [beNat_addrPayload, hhash, ← h.check]
  rw [← h.check] at hcheck
  by_cases hlong : 4 ≤ mpiSize sum
  · rw [lastFour_bn2mpi hlong, beNat_beBytes_mod]
    omega
  · by_cases h0 : sum = 0
    · subst h0
      have hzero : beNat (lastFour (bn2mpi 0)) = 0 := by decide
      rw [hzero]
      omega
    · have hne := beNat_lastFour_short (Nat.pos_of_ne_zero h0) (by omega)
      omega

/-- What is accepted: numbers that end with a hash and its checksum. -/
theorem accepted_checked {buf out out' : Memory} {addr : List UInt8}
    (hsum : sumDigits 0 addr = some sum)
    (h : addrToHash160 sha256 coin buf out addr true = some (true, out')) :
    ∃ hash160 : Hash160, read out' 0 20 = hash160.1 ∧ Checked sha256 coin sum hash160 := by
  rw [addrToHash160, hsum, Option.map_some, Option.some.injEq] at h
  by_cases hsize : mpiSize sum ≤ 26
  · obtain ⟨out'', hread, hspec⟩ := sumToHash160_spec sha256 coin buf out hsize
    rw [hspec] at h
    obtain ⟨hok, rfl⟩ := Prod.mk.inj h
    refine ⟨⟨beBytes 20 (sum / 256 ^ 4), length_beBytes _ _⟩, hread, hsize, rfl, ?_⟩
    exact (of_decide_eq_true hok).symm
  · unfold sumToHash160 at h
    dsimp only at h
    rw [length_bn2mpi, if_pos (by omega)] at h
    cases h

theorem Checked.accepted (h : Checked sha256 coin sum hash160) {addr : List UInt8}
    (hsum : sumDigits 0 addr = some sum) (buf out : Memory) : ∃ out',
    addrToHash160 sha256 coin buf out addr true = some (true, out') ∧
      read out' 0 20 = hash160.1 := by
  obtain ⟨out', hread, hspec⟩ := sumToHash160_spec sha256 coin buf out h.size
  rw [← h.hash] at hread hspec
  refine ⟨out', ?_, hread⟩
  rw [addrToHash160, hsum, Option.map_some, hspec, h.check]
  simp [checkSum]

theorem Checked.unique {h h' : Hash160} (hc : Checked sha256 coin sum h)
    (hc' : Checked sha256 coin sum h') : h = h' :=
  Subtype.ext (hc.hash.trans hc'.hash.symm)

/-- A string with a checked number is the address of the hash exactly when it is no
impostor. -/
theorem Checked.eq_base58Check_iff (h : Checked sha256 coin sum hash160) {addr : List UInt8}
    (haddr : addr = List.replicate (ones addr) (b58Digit 0) ++ (b58Loop sum).reverse) :
    addr = base58Check sha256 coin hash160 ↔
      sum / 256 ^ 24 = (getCoinType coin).toNat ∧ ¬(0 < sum ∧ sum < 2 ^ 23) ∧
        ones addr = leadingZeros (addrPayload sha256 coin hash160) := by
  constructor
  · intro heq
    rw [haddr] at heq
    obtain ⟨hones, hsum⟩ := digits_inj heq
    obtain ⟨hver, hlong⟩ := h.number_iff.mp hsum
    exact ⟨hver, hlong, hones⟩
  · intro hall
    obtain ⟨hver, hlong, hones⟩ := hall
    have hsum := h.number_iff.mpr ⟨hver, hlong⟩
    rw [base58Check, ← hsum, ← hones]
    exact haddr

/-- An impostor is a string with a checked number that is not the address of the hash. -/
theorem Checked.impostor_iff (h : Checked sha256 coin sum hash160) {addr : List UInt8}
    (haddr : IsB58 addr) (hsum : sumDigits 0 (addr ++ [0]) = some sum) :
    Impostor sha256 coin addr ↔ addr ≠ base58Check sha256 coin hash160 := by
  obtain ⟨sum', hsum', hdigits⟩ := exists_number haddr
  have hsame : sum' = sum := Option.some.inj (hsum'.symm.trans hsum)
  rw [hsame] at hdigits
  rw [Ne, h.eq_base58Check_iff hdigits]
  constructor
  · intro himp hall
    obtain ⟨sum', hash160', hsum', hchecked, hno⟩ := himp
    have heq : sum' = sum := Option.some.inj (hsum'.symm.trans hsum)
    subst heq
    have hhash := hchecked.unique h
    subst hhash
    cases hno with
    | inl hno => exact hno hall.1
    | inr hno =>
      cases hno with
      | inl hno => exact hall.2.1 hno
      | inr hno => exact hno hall.2.2
  · intro hno
    refine ⟨sum, hash160, hsum, h, ?_⟩
    by_cases hver : sum / 256 ^ 24 = (getCoinType coin).toNat
    · by_cases hshort : 0 < sum ∧ sum < 2 ^ 23
      · exact Or.inr (Or.inl hshort)
      · exact Or.inr (Or.inr fun hones => hno ⟨hver, hshort, hones⟩)
    · exact Or.inl hver

theorem Impostor.accepted {addr : List UInt8} (haddr : IsB58 addr)
    (h : Impostor sha256 coin addr) : ¬OnlyRealAddress sha256 coin addr := by
  intro hreal
  obtain ⟨sum, hash160, hsum, hchecked, -⟩ := id h
  obtain ⟨out', hok, hread⟩ := hchecked.accepted hsum (fun _ => 0) (fun _ => 0)
  obtain ⟨hash160', hread', hcheck⟩ := hreal _ _ _ hok
  have hhash : hash160' = hash160 := Subtype.ext (hread'.symm.trans hread)
  rw [hhash] at hcheck
  exact (hchecked.impostor_iff haddr hsum).mp h hcheck

variable (sha256 coin)

/-- Of the strings of base 58 digits all but the impostors are accepted as addresses
only. -/
theorem onlyRealAddress_iff (addr : List UInt8) (h : IsB58 addr) :
    OnlyRealAddress sha256 coin addr ↔ ¬Impostor sha256 coin addr := by
  constructor
  · intro hreal himp
    exact himp.accepted h hreal
  · intro hno buf out out' hok
    obtain ⟨sum, hsum, -⟩ := exists_number h
    obtain ⟨hash160, hread, hchecked⟩ := accepted_checked hsum hok
    rw [hchecked.impostor_iff h hsum, not_not] at hno
    exact ⟨hash160, hread, hno⟩

/-- The hash of the very large address in the source. -/
def someHexHash : List UInt8 :=
  [0x05, 0x68, 0x01, 0x5A, 0x9F, 0xAC, 0xCC, 0xFD, 0x09, 0xD7, 0x0D, 0x40, 0x9B, 0x6F, 0xC1, 0xA5,
   0x54, 0x6C, 0xEC, 0xC6]

def someHash : Hash160 := ⟨someHexHash, rfl⟩

/-- SHA-256 on that hash behind the version 0, and on the digest. -/
def someDigest : List UInt8 :=
  [0x3A, 0x08, 0x64, 0xA3, 0x4D, 0xE1, 0xD0, 0xB5, 0x79, 0xDC, 0x47, 0x23, 0xA1, 0x93, 0xB4, 0x33,
   0x5B, 0xE4, 0xF1, 0xB9, 0xAA, 0x77, 0x57, 0xEE, 0x22, 0x82, 0xDF, 0x7C, 0x06, 0x32, 0x08, 0xC2]

def someDigestTwice : List UInt8 :=
  [0xB2, 0xA1, 0x13, 0x15, 0x38, 0x18, 0x9D, 0xA6, 0x79, 0x73, 0x75, 0x8C, 0x18, 0x54, 0x29, 0x1F,
   0x59, 0x71, 0x35, 0xF5, 0x99, 0xB1, 0x71, 0x31, 0x16, 0x10, 0x4C, 0x66, 0xF6, 0x57, 0x0F, 0x4F]

def someSha256 (bs : List UInt8) : Hash256 :=
  if bs = 0 :: someHexHash then ⟨someDigest, rfl⟩ else ⟨someDigestTwice, rfl⟩

/-- `VayNert3x1KzbpzMGt2qdqrAThiRovi8`, the address without the `1` in front. -/
def someAddrTail : List UInt8 :=
  ['V', 'a', 'y', 'N', 'e', 'r', 't', '3', 'x', '1', 'K', 'z', 'b', 'p', 'z', 'M', 'G', 't', '2',
   'q', 'd', 'q', 'r', 'A', 'T', 'h', 'i', 'R', 'o', 'v', 'i', '8'].map Char.toUInt8

def someNumber : Nat := 132561370876049020486393042521296812774708967423965467413

theorem checked_someNumber : Checked someSha256 .bitcoin someNumber someHash where
  size := mpiSize_le (show someNumber < 256 ^ 25 by decide)
  hash := by decide
  check := by
    have hlong : 4 ≤ mpiSize someNumber := by
      have hiff := mpiSize_le_iff (n := someNumber) (show 0 < 3 by omega)
      have hbig : ¬someNumber < 2 ^ (8 * 3 - 1) := by decide
      omega
    rw [lastFour_bn2mpi hlong]
    decide

theorem onlyRealAddress_iff_some : IsB58 (b58Digit 0 :: someAddrTail) ∧
    (OnlyRealAddress someSha256 .bitcoin (b58Digit 0 :: someAddrTail) ↔
      ¬Impostor someSha256 .bitcoin (b58Digit 0 :: someAddrTail)) :=
  ⟨by decide +kernel, onlyRealAddress_iff someSha256 .bitcoin _ (by decide +kernel)⟩

/-- Without the digit in front the address is accepted too. -/
theorem not_onlyRealAddress_tail : ¬OnlyRealAddress someSha256 .bitcoin someAddrTail := by
  refine Impostor.accepted (by decide +kernel)
    ⟨someNumber, someHash, by decide +kernel, checked_someNumber, ?_⟩
  exact Or.inr (Or.inr (by decide))

/-! The strings that are addresses. -/

variable {sha256 coin}

theorem mem_b58Digits {i : Nat} (hi : i < 58) : b58Digit i ∈ b58Digits := by
  rw [b58Digit, List.getD_eq_getElem?_getD, List.getElem?_eq_getElem hi]
  exact List.getElem_mem hi

theorem mem_of_fromB58Digit {c dg : UInt8} (h : fromB58Digit c = some dg) : c ∈ b58Digits := by
  have hall : ∀ c : UInt8,
      (fromB58Digit c).all (fun dg => decide (dg.toNat < 58 ∧ b58Digit dg.toNat = c)) = true := by
    apply forall_byte
    decide +kernel
  have hdg := hall c
  rw [h] at hdg
  obtain ⟨hlt, hdigit⟩ := of_decide_eq_true hdg
  rw [← hdigit]
  exact mem_b58Digits hlt

theorem sumDigits_base58Check (sha256 : List UInt8 → Hash256) (coin : Coin) (hash160 : Hash160) :
    sumDigits 0 (base58Check sha256 coin hash160 ++ [0]) =
      some (beNat (addrPayload sha256 coin hash160)) := by
  rw [base58Check, List.append_assoc, sumDigits_zeros, sumDigits_b58Loop]
  rfl

theorem length_addrPayload : (addrPayload sha256 coin hash160).length = 25 := by
  simp [addrPayload]

/-- The number of an address is checked, if it is not shorter than a checksum. -/
theorem checked_addrPayload (hlong : 2 ^ 23 ≤ beNat (addrPayload sha256 coin hash160)) :
    Checked sha256 coin (beNat (addrPayload sha256 coin hash160)) hash160 := by
  have hlt := beNat_lt (addrPayload sha256 coin hash160)
  rw [length_addrPayload] at hlt
  have h4 : 4 ≤ mpiSize (beNat (addrPayload sha256 coin hash160)) := by
    have hiff := mpiSize_le_iff (n := beNat (addrPayload sha256 coin hash160))
      (show 0 < 3 by omega)
    omega
  have hsplit : addrPayload sha256 coin hash160 =
      (getCoinType coin :: hash160.1) ++ checkSum sha256 coin hash160 := rfl
  refine ⟨mpiSize_le hlt, ?_, ?_⟩
  · have hcheck := beNat_lt (checkSum sha256 coin hash160)
    rw [length_checkSum] at hcheck
    rw [hsplit, beNat_append, length_checkSum, Nat.add_mul_div_left _ _ (by positivity),
      Nat.div_eq_of_lt hcheck, Nat.zero_add, beBytes_beNat_of_ge (by simp)]
    simp
  · rw [lastFour_bn2mpi h4, beBytes_beNat_of_ge (by rw [length_addrPayload]; omega),
      length_addrPayload, hsplit, List.drop_left' (by simp)]

theorem length_b58Loop_le {n k : Nat} (h : n < 58 ^ k) : (b58Loop n).length ≤ k := by
  induction k generalizing n with
  | zero =>
    rw [b58Loop, if_pos (by omega)]
    exact Nat.le_refl 0
  | succ k ih =>
    rw [b58Loop]
    split
    · exact Nat.zero_le _
    · have hdiv : n / 58 < 58 ^ k := by
        rw [Nat.div_lt_iff_lt_mul (by omega)]
        rwa [pow_succ] at h
      have hlen := ih hdiv
      rw [List.length_cons]
      omega

/-- An address has fewer than 40 characters. -/
theorem length_base58Check (sha256 : List UInt8 → Hash256) (coin : Coin) (hash160 : Hash160) :
    (base58Check sha256 coin hash160).length < 40 := by
  let payload := addrPayload sha256 coin hash160
  have hsplit := List.takeWhile_append_dropWhile (p := fun b : UInt8 => decide (b = 0))
    (l := payload)
  have hlen := congrArg List.length hsplit
  rw [List.length_append, show payload.length = 25 from length_addrPayload] at hlen
  have hzeros : payload.takeWhile (fun b : UInt8 => decide (b = 0)) =
      List.replicate (leadingZeros payload) 0 := by
    refine List.eq_replicate_iff.mpr ⟨rfl, ?_⟩
    intro b hb
    simpa using List.all_eq_true.mp List.all_takeWhile b hb
  have hvalue : beNat payload = beNat (payload.dropWhile fun b : UInt8 => decide (b = 0)) := by
    conv_lhs => rw [← hsplit, hzeros, beNat_zeros_append]
  have hlt := beNat_lt (payload.dropWhile fun b : UInt8 => decide (b = 0))
  generalize hk : (payload.dropWhile fun b : UInt8 => decide (b = 0)).length = k at hlen hlt
  have hz : leadingZeros payload + k = 25 := hlen
  -- two bytes never need more than three digits
  have hpow : 256 ^ k ≤ 58 ^ (3 * ((k + 1) / 2)) := by
    calc 256 ^ k ≤ 256 ^ (2 * ((k + 1) / 2)) := Nat.pow_le_pow_right (by omega) (by omega)
      _ = (256 ^ 2) ^ ((k + 1) / 2) := pow_mul _ _ _
      _ ≤ (58 ^ 3) ^ ((k + 1) / 2) := Nat.pow_le_pow_left (by omega) _
      _ = 58 ^ (3 * ((k + 1) / 2)) := (pow_mul _ _ _).symm
  have hdigits : (b58Loop (beNat payload)).length ≤ 3 * ((k + 1) / 2) :=
    length_b58Loop_le (by rw [hvalue]; omega)
  show (List.replicate (leadingZeros payload) (b58Digit 0) ++
    (b58Loop (beNat payload)).reverse).length < 40
  rw [List.length_append, List.length_replicate, List.length_reverse]
  omega

/-! Where the decoded bytes are written. -/

/-- A memcpy from `src` in the buffer, or a memset to zero. -/
structure Copy where
  dst : Int
  src : Option Int
  size : Int

/-- The copies that addrToHash160 makes into the hash. -/
def copies (bigNumStart bigNumSize : Int) : List Copy :=
  let padSize := 20 - bigNumSize
  if 0 < padSize then
    (if 0 < bigNumSize then [⟨padSize, some bigNumStart, bigNumSize⟩] else []) ++
      [⟨0, none, padSize⟩]
  else [⟨0, some (bigNumStart - padSize), 20⟩]

def Copy.run (buf hash160 : Memory) (c : Copy) : Memory :=
  match c.src with
  | some src => store hash160 c.dst (read buf src c.size.toNat)
  | none => store hash160 c.dst (List.replicate c.size.toNat 0)

/-- The copy stays inside the 20 bytes of the hash, and inside the 30 of the buffer. -/
structure Copy.InBounds (c : Copy) : Prop where
  dst_nonneg : 0 ≤ c.dst
  dst_end : c.dst + c.size ≤ 20
  src_nonneg : ∀ src ∈ c.src, 0 ≤ src
  src_end : ∀ src ∈ c.src, src + c.size ≤ 30

instance (c : Copy) : Decidable c.InBounds :=
  decidable_of_iff (0 ≤ c.dst ∧ c.dst + c.size ≤ 20 ∧ (∀ src ∈ c.src, 0 ≤ src) ∧
    ∀ src ∈ c.src, src + c.size ≤ 30)
    ⟨fun h => ⟨h.1, h.2.1, h.2.2.1, h.2.2.2⟩,
      fun h => ⟨h.dst_nonneg, h.dst_end, h.src_nonneg, h.src_end⟩⟩

/-- The copies made for a number, with its bytes in the buffer. -/
def copiesOf (buf : Memory) (sum : Nat) : List Copy :=
  let buf := store buf 0 (bn2mpi sum)
  let bigNumStart := skipZeros buf 4 (mpiSize sum)
  copies bigNumStart (mpiSize sum - bigNumStart)

/-- Decoding stays inside the hash, whatever the buffers hold: where it gets to the
copies they are in bounds, and no byte around the hash changes. -/
def StaysInside (sha256 : List UInt8 → Hash256) (coin : Coin) (addr : List UInt8) : Prop :=
  ∀ (buf out : Memory) (checkHash : Bool) (sum : Nat), sumDigits 0 (addr ++ [0]) = some sum →
    (mpiSize sum ≤ 26 → ∀ c ∈ copiesOf buf sum, c.InBounds) ∧
    ∀ ok out', addrToHash160 sha256 coin buf out (addr ++ [0]) checkHash = some (ok, out') →
      ∀ i, i < 0 ∨ 20 ≤ i → out' i = out i

theorem copyHash_eq (buf hash160 : Memory) (bigNumStart bigNumSize : Int) :
    copyHash buf hash160 bigNumStart bigNumSize =
      (copies bigNumStart bigNumSize).foldl (Copy.run buf) hash160 := by
  unfold copyHash copies
  dsimp only
  split
  · split <;> rfl
  · rfl

theorem Copy.InBounds.frame {c : Copy} (h : c.InBounds) (buf hash160 : Memory) {i : Int}
    (hi : i < 0 ∨ 20 ≤ i) : c.run buf hash160 i = hash160 i := by
  have hnone : ∀ bs : List UInt8, bs.length = c.size.toNat →
      store hash160 c.dst bs i = hash160 i := by
    intro bs hlen
    have h1 := h.dst_nonneg
    have h2 := h.dst_end
    exact store_of_disjoint (by omega)
  unfold Copy.run
  cases c.src with
  | none => exact hnone _ (by simp)
  | some src => exact hnone _ (by simp)

theorem copies_frame {cs : List Copy} (h : ∀ c ∈ cs, c.InBounds) (buf hash160 : Memory) {i : Int}
    (hi : i < 0 ∨ 20 ≤ i) : cs.foldl (Copy.run buf) hash160 i = hash160 i :=
  Segments.foldl_kept (fun m : Memory => m i) (fun c hc m => (h c hc).frame buf m hi) hash160

/-- With four bytes and more the copies are in bounds. -/
theorem copiesOf_inBounds {buf : Memory} {sum : Nat} (h4 : 4 ≤ mpiSize sum)
    (h26 : mpiSize sum ≤ 26) : ∀ c ∈ copiesOf buf sum, c.InBounds := by
  obtain ⟨k, hk, hle, -⟩ := skipZeros_skips (store buf 0 (bn2mpi sum))
    (show (4 : Int) ≤ mpiSize sum by omega)
  intro c hc
  unfold copiesOf copies at hc
  dsimp only at hc
  rw [hk] at hc
  split at hc
  · next hpad =>
    cases List.mem_append.mp hc with
    | inl hc =>
      split at hc
      · rw [List.mem_singleton.mp hc]
        refine ⟨by dsimp only; omega, by dsimp only; omega, ?_, ?_⟩
        · intro src hsrc
          cases hsrc
          omega
        · intro src hsrc
          cases hsrc
          dsimp only
          omega
      · cases hc
    | inr hc =>
      rw [List.mem_singleton.mp hc]
      exact ⟨Int.le_refl 0, by dsimp only; omega, by simp, by simp⟩
  · rw [List.mem_singleton.mp hc]
    refine ⟨Int.le_refl 0, by dsimp only; omega, ?_, ?_⟩
    · intro src hsrc
      cases hsrc
      omega
    · intro src hsrc
      cases hsrc
      dsimp only
      omega

/-- What becomes of the hash: nothing, or the copies. -/
theorem sumToHash160_snd (sha256 : List UInt8 → Hash256) (coin : Coin) (buf out : Memory)
    (sum : Nat) (checkHash : Bool) :
    (sumToHash160 sha256 coin buf out sum checkHash).2 =
      if mpiSize sum ≤ 26 then
        (copiesOf buf sum).foldl (Copy.run (store buf 0 (bn2mpi sum))) out
      else out := by
  unfold sumToHash160 copiesOf
  dsimp only
  rw [length_bn2mpi]
  by_cases h26 : mpiSize sum ≤ 26
  · have hprefix : beNat (read (store buf 0 (bn2mpi sum)) 0 4) = mpiSize sum := by
      have htake := (holds_store buf 0 (bn2mpi sum)).take 4
      have hfour : (bn2mpi sum).take 4 = beBytes 4 (mpiSize sum) := by
        rw [bn2mpi, List.take_left' (by simp)]
      rw [hfour, Holds, length_beBytes] at htake
      rw [htake, beNat_beBytes]
      omega
    have hat : ((4 + mpiSize sum : Nat) : Int) - 4 = mpiSize sum := by omega
    rw [if_neg (by omega), hprefix, if_neg (by simp), if_pos h26, hat, ← copyHash_eq]
    cases checkHash <;> rfl
  · rw [if_pos (by omega), if_neg h26]

/-- With fewer bytes the zeros run over the end of the hash. -/
theorem copiesOf_overrun {buf : Memory} {sum : Nat} (h4 : mpiSize sum < 4) :
    ∃ c ∈ copiesOf buf sum, c.dst = 0 ∧ c.src = none ∧ c.size = 24 - mpiSize sum := by
  have hskip : skipZeros (store buf 0 (bn2mpi sum)) 4 (mpiSize sum) = 4 := skipZeros_end (by omega)
  refine ⟨⟨0, none, 20 - ((mpiSize sum : Int) - 4)⟩, ?_, rfl, rfl, by dsimp only; omega⟩
  unfold copiesOf copies
  dsimp only
  rw [hskip, if_pos (by omega)]
  exact List.mem_append_right _ List.mem_cons_self

theorem not_staysInside {addr : List UInt8} {sum : Nat} (hsum : sumDigits 0 (addr ++ [0]) = some sum)
    (hlt : sum < 2 ^ 23) (sha256 : List UInt8 → Hash256) (coin : Coin) :
    ¬StaysInside sha256 coin addr := by
  intro h
  have hsize : mpiSize sum ≤ 3 := (mpiSize_le_iff (by omega)).mpr hlt
  obtain ⟨c, hc, hdst, -, hcsize⟩ := @copiesOf_overrun (fun _ => 0) sum (by omega)
  have hbounds := (h (fun _ => 0) (fun _ => 0) true sum hsum).1 (by omega) c hc
  have hend := hbounds.dst_end
  omega

/-- Decoding stays inside the hash exactly for strings of a number of 24 bits and more. -/
theorem staysInside_iff (sha256 : List UInt8 → Hash256) (coin : Coin) (addr : List UInt8) :
    StaysInside sha256 coin addr ↔
      ∀ sum, sumDigits 0 (addr ++ [0]) = some sum → 2 ^ 23 ≤ sum := by
  constructor
  · intro hin sum hsum
    by_contra hlt
    exact not_staysInside hsum (by omega) sha256 coin hin
  · intro hbig buf out checkHash sum hsum
    have h4 : 4 ≤ mpiSize sum := by
      have hiff := mpiSize_le_iff (n := sum) (show 0 < 3 by omega)
      have hge := hbig sum hsum
      omega
    have hbounds : ∀ h26 : mpiSize sum ≤ 26, ∀ c ∈ copiesOf buf sum, c.InBounds :=
      fun h26 => copiesOf_inBounds h4 h26
    refine ⟨hbounds, ?_⟩
    intro ok out' hok i hi
    rw [addrToHash160, hsum, Option.map_some, Option.some.injEq] at hok
    have hsnd := sumToHash160_snd sha256 coin buf out sum checkHash
    rw [hok] at hsnd
    dsimp only at hsnd
    rw [hsnd]
    split
    · next h26 => exact copies_frame (hbounds h26) _ _ hi
    · rfl

/-- The empty string has 24 zeros written into the 20 bytes of the hash. -/
theorem not_staysInside_empty : ¬StaysInside someSha256 .bitcoin [] :=
  not_staysInside rfl (by decide) someSha256 .bitcoin

end Blockparser.Address
