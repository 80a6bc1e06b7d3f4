import Mathlib.Data.Nat.Size
import Blockparser.Lib.Bytes

/-! Big-endian integers and the MPI format of a bignum: its length in four bytes, then
the number, with a zero byte in front where the top bit is set. -/
namespace Mpi
open Bytes

/-- The value of a big-endian byte string. -/
def beNat (bs : List UInt8) : Nat := leNat bs.reverse

/-- The `n` low bytes of `v`, most significant first. -/
def beBytes (n v : Nat) : List UInt8 := (leBytes n v).reverse

@[simp] theorem length_beBytes (n v : Nat) : (beBytes n v).length = n := by simp [beBytes]

@[simp] theorem beNat_nil : beNat [] = 0 := rfl

theorem beNat_lt (bs : List UInt8) : beNat bs < 256 ^ bs.length := by
  simpa [beNat] using leNat_lt bs.reverse

theorem beNat_append (as bs : List UInt8) :
    beNat (as ++ bs) = beNat bs + 256 ^ bs.length * beNat as := by
  rw [beNat, List.reverse_append, leNat_append, List.length_reverse]
  rfl

theorem beNat_zeros (n : Nat) : beNat (List.replicate n 0) = 0 := by
  have h := leNat_leBytes n 0 (by positivity)
  rw [leBytes_zero] at h
  rw [beNat, List.reverse_replicate, h]

theorem beNat_zeros_append (n : Nat) (bs : List UInt8) :
    beNat (List.replicate n 0 ++ bs) = beNat bs := by
  rw [beNat_append, beNat_zeros]
  omega

theorem beNat_beBytes (n v : Nat) (h : v < 256 ^ n) : beNat (beBytes n v) = v := by
  rw [beNat, beBytes, List.reverse_reverse, leNat_leBytes n v h]

/-- The low bytes of a longer string are its last ones. -/
theorem beBytes_beNat_of_ge {n : Nat} {bs : List UInt8} (h : n ≤ bs.length) :
    beBytes n (beNat bs) = bs.drop (bs.length - n) := by
  rw [beBytes, beNat, leBytes_leNat, List.take_append_of_le_length (by simpa using h),
    List.take_reverse, List.reverse_reverse]

/-- A shorter string is filled up with zeros. -/
theorem beBytes_beNat_of_le {n : Nat} {bs : List UInt8} (h : bs.length ≤ n) :
    beBytes n (beNat bs) = List.replicate (n - bs.length) 0 ++ bs := by
  rw [beBytes, beNat, leBytes_leNat, List.take_append, List.take_of_length_le (by simpa using h),
    List.take_replicate, List.length_reverse, Nat.min_eq_left (by omega), List.reverse_append,
    List.reverse_reverse, List.reverse_replicate]

/-- Strings of one length are told apart by their values. -/
theorem beNat_inj {as bs : List UInt8} (hlen : as.length = bs.length) (h : beNat as = beNat bs) :
    as = bs := by
  have ha := beBytes_beNat_of_ge (Nat.le_refl as.length)
  have hb := beBytes_beNat_of_ge (Nat.le_refl bs.length)
  rw [h, hlen, hb] at ha
  simpa using ha.symm

/-- `BN_num_bytes`. -/
def numBytes (n : Nat) : Nat := (n.size + 7) / 8

/-- One zero byte, where the number fills its top byte. -/
def extBytes (n : Nat) : Nat := if 0 < n.size ∧ n.size % 8 = 0 then 1 else 0

/-- The size of the number in the MPI format, without the length in front. -/
def mpiSize (n : Nat) : Nat := numBytes n + extBytes n

/-- `BN_bn2mpi` of a number that is not negative. -/
def bn2mpi (n : Nat) : List UInt8 :=
  beBytes 4 (mpiSize n) ++ (List.replicate (extBytes n) 0 ++ beBytes (numBytes n) n)

/-- `BN_mpi2bn`: the number of a whole MPI string, with the sign in the top bit. -/
def mpi2bn (bs : List UInt8) : Option Int :=
  if bs.length < 4 ∨ bs.length ≠ beNat (bs.take 4) + 4 then none
  else if beNat (bs.take 4) = 0 then some 0
  else if 0x80 ≤ bs.getD 4 0 then
    some (-((beNat (bs.drop 4) : Int) - 2 ^ (8 * beNat (bs.take 4) - 1)))
  else some (beNat (bs.drop 4))

@[simp] theorem length_bn2mpi (n : Nat) : (bn2mpi n).length = 4 + mpiSize n := by
  simp [bn2mpi, mpiSize]
  omega

theorem lt_numBytes (n : Nat) : n < 256 ^ numBytes n := by
  have hbits := n.lt_size_self
  have hle : n.size ≤ 8 * numBytes n := by
    unfold numBytes
    omega
  calc n < 2 ^ n.size := hbits
    _ ≤ 2 ^ (8 * numBytes n) := Nat.pow_le_pow_right (by omega) hle
    _ = 256 ^ numBytes n := by rw [pow_mul, show (2 : Nat) ^ 8 = 256 from rfl]

/-- What follows the length has the value of the number. -/
theorem beNat_drop_bn2mpi (n : Nat) : beNat ((bn2mpi n).drop 4) = n := by
  have hdrop : (bn2mpi n).drop 4 = List.replicate (extBytes n) 0 ++ beBytes (numBytes n) n := by
    rw [bn2mpi, List.drop_left' (by simp)]
  rw [hdrop, beNat_zeros_append, beNat_beBytes _ _ (lt_numBytes n)]

theorem lt_mpiSize (n : Nat) : n < 256 ^ mpiSize n :=
  Nat.lt_of_lt_of_le (lt_numBytes n) (Nat.pow_le_pow_right (by omega) (by simp [mpiSize]))

theorem mpiSize_le {n k : Nat} (h : n < 256 ^ k) : mpiSize n ≤ k + 1 := by
  have hbits : n.size ≤ 8 * k := by
    rw [Nat.size_le, pow_mul]
    exact h
  have hext : extBytes n ≤ 1 := by
    unfold extBytes
    split <;> omega
  unfold mpiSize numBytes
  omega

/-- The sizes by the bits of the number. -/
theorem mpiSize_le_iff {n k : Nat} (hk : 0 < k) : mpiSize n ≤ k ↔ n < 2 ^ (8 * k - 1) := by
  rw [← Nat.size_le]
  unfold mpiSize numBytes extBytes
  split <;> omega

theorem beNat_beBytes_mod (n v : Nat) : beNat (beBytes n v) = v % 256 ^ n := by
  induction n generalizing v with
  | zero => simp [beBytes, leBytes, Nat.mod_one]
  | succ n ih =>
    have hlow : (UInt8.ofNat (v % 256)).toNat = v % 256 := by simp
    have hrest : leNat (leBytes n (v / 256)) = v / 256 % 256 ^ n := by
      rw [← ih]
      simp [beNat, beBytes]
    rw [beNat, beBytes, List.reverse_reverse, leBytes, leNat, hlow, hrest, pow_succ', Nat.mod_mul]

/-- A string whose length in front is right and whose number has no sign. -/
theorem mpi2bn_of_beBytes (data : List UInt8) {b : UInt8} (hb : b < 0x80)
    (hlen : data.length + 1 < 256 ^ 4) :
    mpi2bn (beBytes 4 (data.length + 1) ++ b :: data) = some (beNat (b :: data) : Int) := by
  have htake : (beBytes 4 (data.length + 1) ++ b :: data).take 4 = beBytes 4 (data.length + 1) := by
    rw [List.take_left' (by simp)]
  have hdrop : (beBytes 4 (data.length + 1) ++ b :: data).drop 4 = b :: data := by
    rw [List.drop_left' (by simp)]
  have hget : (beBytes 4 (data.length + 1) ++ b :: data).getD 4 0 = b := by
    simp [List.getD_eq_getElem?_getD]
  rw [mpi2bn, htake, hdrop, hget, beNat_beBytes _ _ hlen, if_neg, if_neg (by omega),
    if_neg (UInt8.not_le.mpr hb)]
  simp
  omega

end Mpi
