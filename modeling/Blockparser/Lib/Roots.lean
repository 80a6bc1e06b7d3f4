import Mathlib.Algebra.Order.Ring.Nat
import Mathlib.Order.Monotone.Basic

/-! Integer roots bit by bit, and the binary digits of a root behind the point. -/
namespace Roots

/-- The greatest `x` of so many bits more than `c` with x^k ≤ n. -/
def rootFrom (k n : Nat) : (bits c : Nat) → Nat
  | 0, c => c
  | bits + 1, c =>
    if (c + 2 ^ bits) ^ k ≤ n then rootFrom k n bits (c + 2 ^ bits) else rootFrom k n bits c

/-- Digits of the k-th root of p: `bits` of them, `behind` of these behind the point. -/
def digits (k p behind bits : Nat) : Nat := rootFrom k (p * (2 ^ behind) ^ k) bits 0

theorem rootFrom_spec {k n bits c : Nat} (hlo : c ^ k ≤ n) (hhi : n < (c + 2 ^ bits) ^ k) :
    rootFrom k n bits c ^ k ≤ n ∧ n < (rootFrom k n bits c + 1) ^ k := by
  induction bits generalizing c with
  | zero => exact ⟨hlo, hhi⟩
  | succ bits ih =>
    unfold rootFrom
    split
    · next h =>
      apply ih h
      rwa [Nat.add_assoc, ← Nat.two_mul, ← Nat.pow_succ']
    · next h => exact ih hlo (Nat.lt_of_not_le h)

/-- The digits are those of the root: x ≤ 2^behind * p^(1/k) < x + 1. -/
theorem digits_spec {k p behind bits : Nat} (hk : 0 < k)
    (h : p * (2 ^ behind) ^ k < (2 ^ bits) ^ k) :
    digits k p behind bits ^ k ≤ p * (2 ^ behind) ^ k ∧
      p * (2 ^ behind) ^ k < (digits k p behind bits + 1) ^ k := by
  apply rootFrom_spec
  · rw [Nat.zero_pow hk]
    exact Nat.zero_le _
  · rwa [Nat.zero_add]

end Roots
