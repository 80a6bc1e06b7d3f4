import Blockparser.Lib.Mpi
import Blockparser.Parser

/-! Addresses: hash160ToAddr writes a hash and a checksum in base 58, addrToHash160
reads them back. -/
namespace Blockparser.Address
open Bytes Mpi MemoryManager Blockparser.Parser

def getCoinType : Coin → UInt8
  | .protoshares => 56
  | .darkcoin => 48 + 28
  | .paycon => 55
  | .litecoin => 48
  | .bitcoin => 0
  | .testnet3 => 0
  | .fedoracoin => 33
  | .peercoin => 48 + 7
  | .clam => 137
  | .jumbucks => 43
  | .myriadcoin => 50
  | .unobtanium => 130

/-- The standard alphabet; util.h only declares it. -/
def b58Digits : List UInt8 :=
  ['1', '2', '3', '4', '5', '6', '7', '8', '9', 'A', 'B', 'C', 'D', 'E', 'F', 'G', 'H', 'J', 'K',
    'L', 'M', 'N', 'P', 'Q', 'R', 'S', 'T', 'U', 'V', 'W', 'X', 'Y', 'Z', 'a', 'b', 'c', 'd', 'e',
    'f', 'g', 'h', 'i', 'j', 'k', 'm', 'n', 'o', 'p', 'q', 'r', 's', 't', 'u', 'v', 'w', 'x', 'y',
    'z'].map Char.toUInt8

def b58Digit (i : Nat) : UInt8 := b58Digits.getD i 0

/-- `none` where the code stops with errFatal. -/
def fromB58Digit (digit : UInt8) : Option UInt8 :=
  if 0x31 ≤ digit ∧ digit ≤ 0x39 then some (digit - 0x31 + 0)
  else if 0x41 ≤ digit ∧ digit ≤ 0x48 then some (digit - 0x41 + 9)
  else if 0x4A ≤ digit ∧ digit ≤ 0x4E then some (digit - 0x4A + 17)
  else if 0x50 ≤ digit ∧ digit ≤ 0x5A then some (digit - 0x50 + 22)
  else if 0x61 ≤ digit ∧ digit ≤ 0x6B then some (digit - 0x61 + 33)
  else if 0x6D ≤ digit ∧ digit ≤ 0x7A then some (digit - 0x6D + 44)
  else none

/-- The digits of a number, the lowest first. -/
def b58Loop (num : Nat) : List UInt8 :=
  if num = 0 then [] else b58Digit (num % 58) :: b58Loop (num / 58)
decreasing_by omega

/-- A digit for each zero byte in front. -/
def zeroDigits (buf : Memory) (a e : Int) : List UInt8 :=
  if a < e ∧ buf a = 0 then b58Digit 0 :: zeroDigits buf (a + 1) e else []
termination_by (e - a).toNat

/-- The sum of the digits up to the end of the string. -/
def sumDigits : Nat → List UInt8 → Option Nat
  | sum, [] => some sum
  | sum, c :: addr =>
    if c = 0 then some sum
    else
      match fromB58Digit c with
      | some dg => sumDigits (sum * 58 + dg.toNat) addr
      | none => none

def skipZeros (buf : Memory) (bigNumStart checkSumStart : Int) : Int :=
  if buf bigNumStart = 0 ∧ bigNumStart < checkSumStart then
    skipZeros buf (bigNumStart + 1) checkSumStart
  else bigNumStart
termination_by (checkSumStart - bigNumStart).toNat

variable (sha256 : List UInt8 → Hash256) (coin : Coin)

def sha256Twice (buf : List UInt8) : List UInt8 := (sha256 (sha256 buf).1).1

/-- The buffer hash160ToAddr fills, from what it holds before: the digest is written over
the end of the hash. -/
def addrBuffer (buf : Memory) (hash160 : Hash160) (type : UInt8) : Memory :=
  let size := 4 + 2 + 20
  let buf := store buf (4 + 2) hash160.1
  let buf := store buf 0 [UInt8.ofNat (size >>> 24), UInt8.ofNat (size >>> 16),
    UInt8.ofNat (size >>> 8), UInt8.ofNat (size >>> 0)]
  let buf := store buf 4 [0, getCoinType coin + type]
  store buf (1 + 20) (sha256Twice sha256 (read buf 0 (1 + 20)))

/-- The string with its end, a zero byte. -/
def hash160ToAddr (buf : Memory) (hash160 : Hash160) (pad : Bool) (type : UInt8) : List UInt8 :=
  let buf := addrBuffer sha256 coin buf hash160 type
  let num := (mpi2bn (read buf 0 (4 + 26))).getD 0
  let addr := b58Loop num.natAbs ++ zeroDigits buf 5 (1 + 20 + 5)
  addr.reverse ++ (if pad then List.replicate (34 - addr.length) 0x20 else []) ++ [0]

/-- The bytes in front of the checksum go to the end of the hash, behind zeros, or the last
20 of them where there are more. -/
def copyHash (buf hash160 : Memory) (bigNumStart bigNumSize : Int) : Memory :=
  let padSize := 20 - bigNumSize
  if 0 < padSize then
    let hash160 :=
      if 0 < bigNumSize then store hash160 padSize (read buf bigNumStart bigNumSize.toNat)
      else hash160
    store hash160 0 (List.replicate padSize.toNat 0)
  else store hash160 0 (read buf (bigNumStart - padSize) 20)

/-- The part of addrToHash160 behind the sum. `hash160` is the caller's buffer, and the
recorded checksum is read where the code has `checkSumStart`. -/
def sumToHash160 (buf hash160 : Memory) (sum : Nat) (checkHash : Bool) : Bool × Memory :=
  let size := (bn2mpi sum).length
  if 4 + 2 + 20 + 4 < size then (false, hash160)
  else
    let buf := store buf 0 (bn2mpi sum)
    let recordedSize := beNat (read buf 0 4)
    if size ≠ 4 + recordedSize then (false, hash160)
    else
      let checkSumStart : Int := size - 4
      let bigNumStart := skipZeros buf 4 checkSumStart
      let hash160 := copyHash buf hash160 bigNumStart (checkSumStart - bigNumStart)
      if checkHash then
        let checkSum := read buf checkSumStart 4
        let sha := sha256Twice sha256 (getCoinType coin :: read hash160 0 20)
        (decide (sha.take 4 = checkSum), hash160)
      else (true, hash160)

def addrToHash160 (buf hash160 : Memory) (addr : List UInt8) (checkHash : Bool) :
    Option (Bool × Memory) :=
  (sumDigits 0 addr).map fun sum => sumToHash160 sha256 coin buf hash160 sum checkHash

/-! Base 58. -/

theorem fromB58Digit_b58Digit {i : Nat} (hi : i < 58) :
    fromB58Digit (b58Digit i) = some (UInt8.ofNat i) ∧ b58Digit i ≠ 0 := by
  have h : ∀ j : Fin 58, fromB58Digit (b58Digit j) = some (UInt8.ofNat j) ∧ b58Digit j ≠ 0 := by
    decide
  exact h ⟨i, hi⟩

theorem sumDigits_b58Digit {i : Nat} (hi : i < 58) (sum : Nat) (addr : List UInt8) :
    sumDigits sum (b58Digit i :: addr) = sumDigits (sum * 58 + i) addr := by
  obtain ⟨hdg, hc⟩ := fromB58Digit_b58Digit hi
  have hnat : (UInt8.ofNat i).toNat = i := by
    simp
    omega
  rw [sumDigits, if_neg hc, hdg]
  dsimp only
  rw [hnat]

/-- The digits written one way are summed up the other way. -/
theorem sumDigits_b58Loop (n : Nat) (rest : List UInt8) :
    sumDigits 0 ((b58Loop n).reverse ++ rest) = sumDigits n rest := by
  induction n using Nat.strong_induction_on generalizing rest with
  | _ n ih =>
    by_cases h0 : n = 0
    · subst h0
      rw [b58Loop, if_pos rfl]
      rfl
    · have hsum : n / 58 * 58 + n % 58 = n := by omega
      rw [b58Loop, if_neg h0, List.reverse_cons, List.append_assoc, ih (n / 58) (by omega),
        List.singleton_append, sumDigits_b58Digit (Nat.mod_lt n (by omega)), hsum]

theorem sumDigits_zeros (k : Nat) (rest : List UInt8) :
    sumDigits 0 (List.replicate k (b58Digit 0) ++ rest) = sumDigits 0 rest := by
  induction k with
  | zero => rfl
  | succ k ih =>
    rw [List.replicate_succ, List.cons_append, sumDigits_b58Digit (by omega)]
    exact ih

theorem zeroDigits_eq {buf : Memory} {a : Int} {bs : List UInt8} (h : Holds buf a bs) :
    zeroDigits buf a (a + bs.length) =
      List.replicate (bs.takeWhile fun b => b = 0).length (b58Digit 0) := by
  induction bs generalizing a with
  | nil =>
    rw [zeroDigits, if_neg (by simp)]
    rfl
  | cons b bs ih =>
    obtain ⟨hb, hbs⟩ := holds_cons.mp h
    have hend : a + ((b :: bs).length : Int) = a + 1 + bs.length := by
      simp
      omega
    rw [zeroDigits, hb, hend, ih hbs]
    by_cases h0 : b = 0
    · rw [if_pos ⟨by omega, h0⟩, List.takeWhile_cons_of_pos (by simpa using h0)]
      rfl
    · rw [if_neg (fun h => h0 h.2), List.takeWhile_cons_of_neg (by simpa using h0)]
      rfl

/-! What hash160ToAddr writes. -/

section
variable {sha256 coin} {hash160 : Hash160} {type : UInt8}

/-- The digest over the length, the version and what of the hash comes before it. -/
def addrDigest (sha256 : List UInt8 → Hash256) (coin : Coin) (hash160 : Hash160) (type : UInt8) :
    List UInt8 :=
  sha256Twice sha256 ([0, 0, 0, 26, 0, getCoinType coin + type] ++ hash160.1.take 15)

/-- The bytes whose number is written in base 58. -/
def written (sha256 : List UInt8 → Hash256) (coin : Coin) (hash160 : Hash160) (type : UInt8) :
    List UInt8 :=
  (getCoinType coin + type) :: (hash160.1.take 15 ++ (addrDigest sha256 coin hash160 type).take 9)

@[simp] theorem length_sha256Twice (sha256 : List UInt8 → Hash256) (bs : List UInt8) :
    (sha256Twice sha256 bs).length = 32 := (sha256 (sha256 bs).1).2

@[simp] theorem length_addrDigest : (addrDigest sha256 coin hash160 type).length = 32 :=
  length_sha256Twice sha256 _

@[simp] theorem length_hash160 (hash160 : Hash160) : hash160.1.length = 20 := hash160.2

@[simp] theorem length_written : (written sha256 coin hash160 type).length = 25 := by
  simp [written]

theorem holds_addrBuffer (sha256 : List UInt8 → Hash256) (coin : Coin) (hash160 : Hash160)
    (type : UInt8) (buf : Memory) : Holds (addrBuffer sha256 coin buf hash160 type) 0
    ([0, 0, 0, 26, 0, getCoinType coin + type] ++ hash160.1.take 15 ++
      addrDigest sha256 coin hash160 type) := by
  let ver := getCoinType coin + type
  let buf₁ := store buf 6 hash160.1
  let buf₂ := store buf₁ 0 [0, 0, 0, 26]
  let buf₃ := store buf₂ 4 [0, ver]
  have hsize : Holds buf₃ 0 [0, 0, 0, 26] := by
    have hkeep : read buf₃ 0 4 = read buf₂ 0 4 := read_store_of_disjoint (Or.inl (by simp))
    rw [Holds, List.length_cons, List.length_cons, List.length_cons, List.length_singleton, hkeep]
    exact holds_store buf₁ 0 [0, 0, 0, 26]
  have hver : Holds buf₃ 4 [0, ver] := holds_store buf₂ 4 [0, ver]
  have hhash : Holds buf₃ 6 hash160.1 := by
    have hkeep : read buf₃ 6 20 = read buf₁ 6 20 := by
      rw [show read buf₃ 6 20 = read buf₂ 6 20 from read_store_of_disjoint (Or.inr (by simp))]
      exact read_store_of_disjoint (Or.inr (by simp))
    have hstore := holds_store buf 6 hash160.1
    rw [Holds, length_hash160] at hstore ⊢
    rw [hkeep, hstore]
  have hall : Holds buf₃ 0 ([0, 0, 0, 26, 0, ver] ++ hash160.1.take 15) :=
    holds_append.mpr ⟨holds_append.mpr ⟨hsize, hver⟩, hhash.take 15⟩
  have hlen : ([0, 0, 0, 26, 0, ver] ++ hash160.1.take 15).length = 21 := by simp
  have hdigest : sha256Twice sha256 (read buf₃ 0 21) = addrDigest sha256 coin hash160 type := by
    rw [Holds, hlen] at hall
    rw [hall]
    rfl
  have hbuf : addrBuffer sha256 coin buf hash160 type =
      store buf₃ 21 (addrDigest sha256 coin hash160 type) := by
    rw [← hdigest]
    rfl
  rw [hbuf]
  refine holds_append.mpr ⟨?_, ?_⟩
  · have hkeep : read (store buf₃ 21 (addrDigest sha256 coin hash160 type)) 0 21 =
        read buf₃ 0 21 := read_store_of_disjoint (Or.inl (by simp))
    rw [Holds, hlen] at hall ⊢
    rw [hkeep, hall]
  · rw [hlen]
    exact holds_store buf₃ 21 _

/-- What stands in the buffer between the sign byte and the end of the number. -/
theorem holds_written (sha256 : List UInt8 → Hash256) (coin : Coin) (hash160 : Hash160)
    (type : UInt8) (buf : Memory) :
    Holds (addrBuffer sha256 coin buf hash160 type) 0
      ([0, 0, 0, 26] ++ 0 :: written sha256 coin hash160 type) := by
  have htake := (holds_addrBuffer sha256 coin hash160 type buf).take 30
  have heq : ([0, 0, 0, 26, 0, getCoinType coin + type] ++ hash160.1.take 15 ++
      addrDigest sha256 coin hash160 type).take 30 =
        [0, 0, 0, 26] ++ 0 :: written sha256 coin hash160 type := by
    rw [List.take_append, List.take_of_length_le (by simp)]
    simp [written]
  rwa [heq] at htake

/-- The number of digits that stand for zero bytes. -/
def leadingZeros (bs : List UInt8) : Nat := (bs.takeWhile fun b => b = 0).length

/-- The string is a function of the 25 bytes written. -/
theorem hash160ToAddr_eq (buf : Memory) : hash160ToAddr sha256 coin buf hash160 false type =
    List.replicate (leadingZeros ((written sha256 coin hash160 type).take 21)) (b58Digit 0) ++
      (b58Loop (beNat (written sha256 coin hash160 type))).reverse ++ [0] := by
  have hall := holds_written sha256 coin hash160 type buf
  have hread : read (addrBuffer sha256 coin buf hash160 type) 0 (4 + 26) =
      [0, 0, 0, 26] ++ 0 :: written sha256 coin hash160 type := by
    rw [Holds] at hall
    simpa using hall
  have hnum : mpi2bn ([0, 0, 0, 26] ++ 0 :: written sha256 coin hash160 type) =
      some (beNat (written sha256 coin hash160 type) : Int) := by
    have hmpi := mpi2bn_of_beBytes (written sha256 coin hash160 type) (b := 0) (by decide) (by simp)
    have hzero : beNat (0 :: written sha256 coin hash160 type) =
        beNat (written sha256 coin hash160 type) := beNat_zeros_append 1 _
    rw [length_written, hzero] at hmpi
    exact hmpi
  have hwritten : Holds (addrBuffer sha256 coin buf hash160 type) 5
      ((written sha256 coin hash160 type).take 21) := by
    have hrest := (holds_append.mp hall).2
    exact (holds_cons.mp hrest).2.take 21
  have hzeros := zeroDigits_eq hwritten
  have hlen : ((written sha256 coin hash160 type).take 21).length = 21 := by simp
  rw [hlen] at hzeros
  unfold hash160ToAddr
  dsimp only
  rw [hread, hnum, Option.getD_some, Int.natAbs_natCast,
    show (1 + 20 + 5 : Int) = 5 + (21 : Nat) by norm_num, hzeros, List.reverse_append,
    List.reverse_replicate]
  simp [leadingZeros]

theorem sumDigits_hash160ToAddr (buf : Memory) :
    sumDigits 0 (hash160ToAddr sha256 coin buf hash160 false type) =
      some (beNat (written sha256 coin hash160 type)) := by
  rw [hash160ToAddr_eq, List.append_assoc, sumDigits_zeros, sumDigits_b58Loop, sumDigits,
    if_pos rfl]

/-- Two hashes get the same address exactly if they begin with the same 15 bytes. -/
theorem hash160ToAddr_eq_iff (h h' : Hash160) (buf buf' : Memory) :
    hash160ToAddr sha256 coin buf h false type = hash160ToAddr sha256 coin buf' h' false type ↔
      h.1.take 15 = h'.1.take 15 := by
  constructor
  · intro heq
    have hsum := congrArg (sumDigits 0) heq
    rw [sumDigits_hash160ToAddr, sumDigits_hash160ToAddr, Option.some.injEq] at hsum
    have hwritten := beNat_inj (by simp) hsum
    have htail := (List.cons.inj hwritten).2
    exact (List.append_inj htail (by simp)).1
  · intro heq
    have hwritten : written sha256 coin h type = written sha256 coin h' type := by
      rw [written, written, addrDigest, addrDigest, heq]
    rw [hash160ToAddr_eq, hash160ToAddr_eq, hwritten]

/-! What addrToHash160 reads. -/

def lastFour (bs : List UInt8) : List UInt8 := bs.drop (bs.length - 4)

variable {buf out : Memory} {a e : Int} {sum : Nat}

theorem skipZeros_end (h : e ≤ a) : skipZeros buf a e = a := by
  rw [skipZeros, if_neg]
  omega

/-- The bytes skipped are zeros. -/
theorem skipZeros_skips (buf : Memory) (h : a ≤ e) : ∃ k : Nat,
    skipZeros buf a e = a + k ∧ a + k ≤ e ∧ read buf a k = List.replicate k 0 := by
  fun_induction skipZeros buf a e with
  | case1 a hz ih =>
    obtain ⟨k, hs, hle, hread⟩ := ih (by omega)
    refine ⟨k + 1, by omega, by omega, ?_⟩
    rw [Bytes.read, hz.1, hread]
    rfl
  | case2 a hz => exact ⟨0, by simp, by omega, rfl⟩

/-- The number behind the skipped zeros, with the checksum cut off. -/
theorem bigNum_value {k : Nat} (hbuf : Holds buf 0 (bn2mpi sum)) (hsize : mpiSize sum = 4 + k) :
    ∃ z, z ≤ k ∧ skipZeros buf 4 (4 + k) = 4 + z ∧
      beNat (read buf (4 + z) (k - z)) = sum / 256 ^ 4 := by
  obtain ⟨z, hskip, hle, hzeros⟩ := skipZeros_skips buf (show (4 : Int) ≤ 4 + k by omega)
  refine ⟨z, by omega, hskip, ?_⟩
  have hdrop : read buf 4 (z + (k - z) + 4) = (bn2mpi sum).drop 4 := by
    have hlen : z + (k - z) + 4 = mpiSize sum := by omega
    rw [Holds, length_bn2mpi, read_add] at hbuf
    rw [hlen, ← hbuf, List.drop_left' (by simp)]
    rfl
  have hval := beNat_drop_bn2mpi sum
  rw [← hdrop, read_add, read_add, hzeros, List.append_assoc, beNat_zeros_append, beNat_append,
    length_read] at hval
  have hlow := beNat_lt (read buf (4 + ((z + (k - z) : Nat) : Int)) 4)
  rw [length_read] at hlow
  rw [← hval]
  omega

theorem read_copyHash (buf out : Memory) (bigNumStart bigNumSize : Int) :
    read (copyHash buf out bigNumStart bigNumSize) 0 20 =
      beBytes 20 (beNat (read buf bigNumStart bigNumSize.toNat)) := by
  unfold copyHash
  dsimp only
  by_cases hpad : 0 < 20 - bigNumSize
  · rw [if_pos hpad, beBytes_beNat_of_le (by simp; omega), length_read]
    by_cases hpos : 0 < bigNumSize
    · rw [if_pos hpos]
      have hzeros := holds_store (store out (20 - bigNumSize)
        (read buf bigNumStart bigNumSize.toNat)) 0 (List.replicate (20 - bigNumSize).toNat 0)
      have hcopy := holds_store out (20 - bigNumSize) (read buf bigNumStart bigNumSize.toNat)
      rw [Holds, List.length_replicate] at hzeros
      rw [Holds, length_read] at hcopy
      have hsplit : 20 = (20 - bigNumSize).toNat + bigNumSize.toNat := by omega
      have hpad' : 20 - bigNumSize.toNat = (20 - bigNumSize).toNat := by omega
      have hat : (0 : Int) + ((20 - bigNumSize).toNat : Int) = 20 - bigNumSize := by omega
      rw [hpad']
      conv_lhs => rw [hsplit]
      rw [read_add, hzeros, hat, read_store_of_disjoint (Or.inr (by simp; omega)), hcopy]
    · have hzeros := (holds_store out 0 (List.replicate (20 - bigNumSize).toNat 0)).take 20
      have hnone : bigNumSize.toNat = 0 := by omega
      rw [List.take_replicate, Nat.min_eq_left (by omega), Holds, List.length_replicate] at hzeros
      rw [if_neg hpos, hzeros, hnone]
      rfl
  · have hlen : 20 ≤ (read buf bigNumStart bigNumSize.toNat).length := by
      rw [length_read]
      omega
    have hread : read buf bigNumStart bigNumSize.toNat =
        read buf bigNumStart (bigNumSize.toNat - 20) ++
          read buf (bigNumStart - (20 - bigNumSize)) 20 := by
      have hat : bigNumStart + ((bigNumSize.toNat - 20 : Nat) : Int) =
          bigNumStart - (20 - bigNumSize) := by omega
      rw [← hat, ← read_add]
      congr 1
      omega
    have hstore := holds_store out 0 (read buf (bigNumStart - (20 - bigNumSize)) 20)
    rw [Holds, length_read] at hstore
    rw [if_neg hpad, hstore, beBytes_beNat_of_ge hlen, length_read, hread,
      List.drop_left' (by simp)]

/-- What addrToHash160 does with the number of an address: the hash is the 20 bytes in
front of the last four. -/
theorem sumToHash160_spec (sha256 : List UInt8 → Hash256) (coin : Coin) (buf out : Memory)
    (hsize : mpiSize sum ≤ 26) :
    ∃ out', read out' 0 20 = beBytes 20 (sum / 256 ^ 4) ∧
      sumToHash160 sha256 coin buf out sum true =
        (decide ((sha256Twice sha256 (getCoinType coin :: beBytes 20 (sum / 256 ^ 4))).take 4 =
          lastFour (bn2mpi sum)), out') := by
  let buf' := store buf 0 (bn2mpi sum)
  have hbuf : Holds buf' 0 (bn2mpi sum) := holds_store buf 0 (bn2mpi sum)
  have hprefix : beNat (read buf' 0 4) = mpiSize sum := by
    have htake := hbuf.take 4
    have hfour : (bn2mpi sum).take 4 = beBytes 4 (mpiSize sum) := by
      rw [bn2mpi, List.take_left' (by simp)]
    rw [hfour, Holds, length_beBytes] at htake
    rw [htake, beNat_beBytes]
    omega
  have hcheck : read buf' (mpiSize sum) 4 = lastFour (bn2mpi sum) := by
    rw [Holds, length_bn2mpi, Nat.add_comm, read_add] at hbuf
    rw [lastFour, length_bn2mpi, ← hbuf, List.drop_left' (by simp)]
    simp
  have hvalue : beNat (read buf' (skipZeros buf' 4 (mpiSize sum))
      ((mpiSize sum : Int) - skipZeros buf' 4 (mpiSize sum)).toNat) = sum / 256 ^ 4 := by
    by_cases hk : 4 ≤ mpiSize sum
    · obtain ⟨k, hk⟩ := Nat.exists_eq_add_of_le hk
      obtain ⟨z, hz, hskip, hval⟩ := bigNum_value hbuf hk
      have hat : (mpiSize sum : Int) = 4 + k := by omega
      have hlen : (4 + (k : Int) - (4 + z)).toNat = k - z := by omega
      rw [hat, hskip, hlen, hval]
    · have hlt := lt_mpiSize sum
      have hsmall : sum < 256 ^ 4 :=
        Nat.lt_of_lt_of_le hlt (Nat.pow_le_pow_right (by omega) (by omega))
      rw [skipZeros_end (by omega), show ((mpiSize sum : Int) - 4).toNat = 0 by omega,
        Nat.div_eq_of_lt hsmall]
      rfl
  have hhash := read_copyHash buf' out (skipZeros buf' 4 (mpiSize sum))
    ((mpiSize sum : Int) - skipZeros buf' 4 (mpiSize sum))
  rw [hvalue] at hhash
  refine ⟨_, hhash, ?_⟩
  have hat : ((4 + mpiSize sum : Nat) : Int) - 4 = mpiSize sum := by omega
  unfold sumToHash160
  dsimp only
  rw [length_bn2mpi, if_neg (by omega), hprefix, if_neg (by simp), hat, hhash, hcheck, if_pos rfl]

/-- Four bytes are read back as they were written, unless the number is shorter. -/
theorem lastFour_bn2mpi (h : 4 ≤ mpiSize sum) : lastFour (bn2mpi sum) = beBytes 4 sum := by
  have hdrop : lastFour (bn2mpi sum) =
      ((bn2mpi sum).drop 4).drop (((bn2mpi sum).drop 4).length - 4) := by
    rw [lastFour, List.drop_drop, List.length_drop]
    congr 1
    simp
    omega
  rw [hdrop, ← beBytes_beNat_of_ge (by simpa using h), beNat_drop_bn2mpi]

end

/-! The round trip. -/

section
variable (hash160 : Hash160)

/-- The address of a hash is read back, whatever the buffers hold before. -/
def RoundTrip : Prop :=
  ∀ buf buf' out : Memory, ∃ out',
    addrToHash160 sha256 coin buf' out (hash160ToAddr sha256 coin buf hash160 false 0) true =
        some (true, out') ∧
      read out' 0 20 = hash160.1

/-- The digest that is written over the end of the hash begins with the bytes it is
written over, and goes on with the checksum of version and hash, as the bignum gives it
back. -/
structure Undamaged : Prop where
  hash : (addrDigest sha256 coin hash160 0).take 5 = hash160.1.drop 15
  checkSum : (sha256Twice sha256 (getCoinType coin :: hash160.1)).take 4 =
    lastFour (bn2mpi (beNat (getCoinType coin :: hash160.1 ++
      ((addrDigest sha256 coin hash160 0).drop 5).take 4)))

variable {sha256 coin hash160}

/-- The written bytes without the version and the last four. -/
def writtenHash (sha256 : List UInt8 → Hash256) (coin : Coin) (hash160 : Hash160) : List UInt8 :=
  hash160.1.take 15 ++ (addrDigest sha256 coin hash160 0).take 5

theorem addrDigest_take : (addrDigest sha256 coin hash160 0).take 9 =
    (addrDigest sha256 coin hash160 0).take 5 ++
      ((addrDigest sha256 coin hash160 0).drop 5).take 4 := by
  rw [show 9 = 5 + 4 from rfl, List.take_add]

theorem written_split : written sha256 coin hash160 0 =
    getCoinType coin :: writtenHash sha256 coin hash160 ++
      ((addrDigest sha256 coin hash160 0).drop 5).take 4 := by
  rw [written, addrDigest_take, writtenHash, UInt8.add_zero, List.cons_append, List.append_assoc]

theorem writtenHash_eq_iff : writtenHash sha256 coin hash160 = hash160.1 ↔
    (addrDigest sha256 coin hash160 0).take 5 = hash160.1.drop 15 := by
  have hsplit := List.take_append_drop 15 hash160.1
  constructor
  · intro h
    rw [writtenHash] at h
    exact (List.append_inj (h.trans hsplit.symm) rfl).2
  · intro h
    rw [writtenHash, h, hsplit]

/-- What is read back of any hash: the written bytes behind the version. -/
theorem addrToHash160_hash160ToAddr (sha256 : List UInt8 → Hash256) (coin : Coin)
    (hash160 : Hash160) (buf buf' out : Memory) : ∃ out',
    read out' 0 20 = writtenHash sha256 coin hash160 ∧
      addrToHash160 sha256 coin buf' out (hash160ToAddr sha256 coin buf hash160 false 0) true =
        some (decide ((sha256Twice sha256 (getCoinType coin ::
          writtenHash sha256 coin hash160)).take 4 =
            lastFour (bn2mpi (beNat (written sha256 coin hash160 0)))), out') := by
  have hlt := beNat_lt (written sha256 coin hash160 0)
  rw [length_written] at hlt
  have hhash : beBytes 20 (beNat (written sha256 coin hash160 0) / 256 ^ 4) =
      writtenHash sha256 coin hash160 := by
    have hlow := beNat_lt (((addrDigest sha256 coin hash160 0).drop 5).take 4)
    have hlen : (((addrDigest sha256 coin hash160 0).drop 5).take 4).length = 4 := by simp
    have hlen' : (getCoinType coin :: writtenHash sha256 coin hash160).length = 21 := by
      simp [writtenHash]
    rw [hlen] at hlow
    rw [written_split, beNat_append, hlen, Nat.add_mul_div_left _ _ (by positivity),
      Nat.div_eq_of_lt hlow, Nat.zero_add, beBytes_beNat_of_ge (by omega), hlen']
    rfl
  obtain ⟨out', hread, hspec⟩ := sumToHash160_spec sha256 coin buf' out (mpiSize_le hlt)
  rw [hhash] at hread hspec
  refine ⟨out', hread, ?_⟩
  rw [addrToHash160, sumDigits_hash160ToAddr, Option.map_some, hspec]

end

/-- The address of a hash is read back exactly if the digest written over its end happens
to be its end and its checksum. Two hashes get the same address exactly if they begin
with the same 15 bytes. -/
theorem roundTrip_iff (hash160 : Hash160) :
    (RoundTrip sha256 coin hash160 ↔ Undamaged sha256 coin hash160) ∧
      ∀ (h : Hash160) (buf buf' : Memory),
        hash160ToAddr sha256 coin buf hash160 false 0 = hash160ToAddr sha256 coin buf' h false 0 ↔
          hash160.1.take 15 = h.1.take 15 := by
  refine ⟨?_, fun h buf buf' => hash160ToAddr_eq_iff hash160 h buf buf'⟩
  constructor
  · intro h
    obtain ⟨out', hdecode, hread⟩ := h (fun _ => 0) (fun _ => 0) (fun _ => 0)
    obtain ⟨out'', hread', hdecode'⟩ := addrToHash160_hash160ToAddr sha256 coin hash160
      (fun _ => 0) (fun _ => 0) (fun _ => 0)
    rw [hdecode'] at hdecode
    obtain ⟨hok, rfl⟩ := Prod.mk.inj (Option.some.inj hdecode)
    have hhash := hread'.symm.trans hread
    have hcheck := of_decide_eq_true hok
    rw [written_split, hhash] at hcheck
    exact ⟨writtenHash_eq_iff.mp hhash, hcheck⟩
  · intro h buf buf' out
    obtain ⟨out', hread, hdecode⟩ := addrToHash160_hash160ToAddr sha256 coin hash160 buf buf' out
    have hhash := writtenHash_eq_iff.mpr h.hash
    rw [written_split, hhash, decide_eq_true h.checkSum] at hdecode
    exact ⟨out', hdecode, hread.trans hhash⟩

/-- Two hashes that differ in the last byte. -/
def hashEnding (b : UInt8) : Hash160 := ⟨List.replicate 19 0 ++ [b], by simp⟩

/-- One of the two is not read back, whatever the digest. -/
theorem roundTrip_hashEnding : ¬∃ (sha256 : List UInt8 → Hash256) (coin : Coin),
    RoundTrip sha256 coin (hashEnding 1) ∧ RoundTrip sha256 coin (hashEnding 2) := by
  rintro ⟨sha256, coin, h1, h2⟩
  have hsame : hash160ToAddr sha256 coin (fun _ => 0) (hashEnding 1) false 0 =
      hash160ToAddr sha256 coin (fun _ => 0) (hashEnding 2) false 0 :=
    (hash160ToAddr_eq_iff _ _ _ _).mpr (by decide)
  obtain ⟨out1, hdecode1, hread1⟩ := h1 (fun _ => 0) (fun _ => 0) (fun _ => 0)
  obtain ⟨out2, hdecode2, hread2⟩ := h2 (fun _ => 0) (fun _ => 0) (fun _ => 0)
  rw [hsame, hdecode2] at hdecode1
  obtain ⟨-, rfl⟩ := Prod.mk.inj (Option.some.inj hdecode1)
  exact absurd (hread1.symm.trans hread2) (by decide)

end Blockparser.Address
