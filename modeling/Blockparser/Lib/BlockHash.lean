import Mathlib.Data.List.Basic

/-! A hash made by one function from a state and a block to the next state, run over the blocks
of a message that was first filled up to whole blocks. -/
namespace BlockHash
variable {S α : Type*}

def absorb (f : S → List α → S) (B : Nat) : Nat → S → List α → S
  | 0, s, _ => s
  | n + 1, s, bs => absorb f B n (f s (bs.take B)) (bs.drop B)

/-- The state after all whole blocks of a message. -/
def blocks (f : S → List α → S) (B : Nat) (s : S) (bs : List α) : S :=
  absorb f B (bs.length / B) s bs

variable (f : S → List α → S) {B : Nat}

@[simp] theorem blocks_nil (s : S) : blocks f B s [] = s := by
  simp [blocks, absorb]

theorem absorb_append {n : Nat} (m : Nat) (s : S) {bs : List α} (cs : List α)
    (h : bs.length = B * n) :
    absorb f B (n + m) s (bs ++ cs) = absorb f B m (absorb f B n s bs) cs := by
  induction n generalizing s bs with
  | zero =>
    have : bs = [] := List.eq_nil_of_length_eq_zero (by omega)
    rw [this, Nat.zero_add]
    rfl
  | succ n ih =>
    have hB : B ≤ bs.length := by
      rw [h, Nat.mul_succ]
      exact Nat.le_add_left B (B * n)
    rw [Nat.succ_add, absorb, absorb, List.take_append_of_le_length hB,
      List.drop_append_of_le_length hB]
    apply ih
    rw [List.length_drop, h, Nat.mul_succ, Nat.add_sub_cancel]

/-- Whole blocks may be taken first, the rest later. -/
theorem blocks_append (hB : 0 < B) (s : S) {bs : List α} (cs : List α)
    (h : bs.length % B = 0) :
    blocks f B s (bs ++ cs) = blocks f B (blocks f B s bs) cs := by
  have hlen : bs.length = B * (bs.length / B) := by
    have := Nat.div_add_mod bs.length B
    omega
  have hdiv : (bs.length + cs.length) / B = bs.length / B + cs.length / B :=
    calc
      (bs.length + cs.length) / B = (B * (bs.length / B) + cs.length) / B := by rw [← hlen]
      _ = bs.length / B + cs.length / B := Nat.mul_add_div hB _ _
  unfold blocks
  rw [List.length_append, hdiv]
  exact absorb_append f _ s cs hlen

theorem blocks_one (hB : 0 < B) (s : S) {bs : List α} (h : bs.length = B) :
    blocks f B s bs = f s bs := by
  unfold blocks
  rw [h, Nat.div_self hB, absorb, absorb, ← h, List.take_length]

/-- The filling behind a message of `n` bytes: a mark, as few zeros as there can be, and the
length, so that the whole is made of blocks of `B`. -/
def padding (B : Nat) (mark zero : α) (len : List α) (n : Nat) : List α :=
  mark :: List.replicate ((B - (n + 1 + len.length) % B) % B) zero ++ len

def padded (B : Nat) (mark zero : α) (len : List α) (bs : List α) : List α :=
  bs ++ padding B mark zero len bs.length

theorem length_padded_mod (hB : 0 < B) (mark zero : α) (len bs : List α) :
    (padded B mark zero len bs).length % B = 0 := by
  have hlen : (padded B mark zero len bs).length =
      (bs.length + 1 + len.length) + (B - (bs.length + 1 + len.length) % B) % B := by
    simp only [padded, padding, List.length_append, List.length_cons, List.length_replicate]
    omega
  rw [hlen]
  generalize bs.length + 1 + len.length = k
  have hlt := Nat.mod_lt k hB
  by_cases hzero : k % B = 0
  · rw [hzero, Nat.sub_zero, Nat.mod_self, Nat.add_zero, hzero]
  · rw [Nat.mod_eq_of_lt (by omega : B - k % B < B), Nat.add_mod,
      Nat.mod_eq_of_lt (by omega : B - k % B < B), Nat.add_sub_cancel' (Nat.le_of_lt hlt),
      Nat.mod_self]

end BlockHash
