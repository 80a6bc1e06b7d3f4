import Mathlib.Data.Nat.Digits.Lemmas
import Blockparser.Hex

/-! pr128: the decimal digits of a number, written backwards into a buffer. -/
namespace Blockparser.Decimal
open Bytes Hex

/-- `*p = c` in `result`, a buffer of 1024 characters at address 0. -/
def put (result : Memory) (p : Int) (c : UInt8) : Option Memory :=
  if 0 ≤ p ∧ p < 1024 then some (Function.update result p c) else none

theorem div_ten_lt {x : BitVec 128} (hx : x ≠ 0) : (x / 10).toNat < x.toNat := by
  have hpos : 0 < x.toNat := Nat.pos_of_ne_zero fun h0 => hx (BitVec.toNat_inj.mp h0)
  rw [BitVec.toNat_udiv]
  exact Nat.div_lt_self hpos (by decide)

/-- The loop: the buffer and the pointer at the break. -/
def pr128Loop (x : BitVec 128) (result : Memory) (p : Int) : Option (Memory × Int) :=
  (put result p (UInt8.ofNat (x % 10 + 0x30).toNat)).bind fun result =>
    if _h : x = 0 then some (result, p - 1) else pr128Loop (x / 10) result (p - 1)
termination_by x.toNat
decreasing_by exact div_ten_lt _h

/-- What std::string takes from a pointer into the buffer. -/
def stringAt (result : Memory) (p : Int) : List UInt8 :=
  cString (read result p (1024 - p).toNat)

/-- `result` is what the buffer has from the calls before; `none` if a write leaves it. -/
def pr128 (result : Memory) (y : BitVec 128) : Option (List UInt8) :=
  (put result 1023 0).bind fun result =>
    (pr128Loop y result 1022).map fun r =>
      let p := r.2 + 1
      stringAt r.1 (if r.1 p ≠ 0x30 then p else if p = 1022 then p else p + 1)

def digit (d : Nat) : UInt8 := UInt8.ofNat (d + 0x30)

/-- The digits of `n`, and none for 0. -/
def digits (n : Nat) : List UInt8 := ((Nat.digits 10 n).map digit).reverse

def isDigit (c : UInt8) : Prop := 0x30 ≤ c ∧ c ≤ 0x39

instance (c : UInt8) : Decidable (isDigit c) := by unfold isDigit; infer_instance

/-- The number that some digits stand for. -/
def value (s : List UInt8) : Nat := s.foldl (fun n c => 10 * n + (c.toNat - 0x30)) 0

/-- A decimal numeral of `n`, with no zero in front of another digit. -/
structure IsDecimal (s : List UInt8) (n : Nat) : Prop where
  nonempty : s ≠ []
  digits : ∀ c ∈ s, isDigit c
  leading : s.head? = some 0x30 → s = [0x30]
  value : value s = n

variable {x : BitVec 128} {result : Memory} {p : Int} {n d : Nat}

theorem toNat_digit (hd : d < 10) : (digit d).toNat = d + 0x30 := by
  rw [digit, UInt8.toNat_ofNat']
  omega

theorem isDigit_digit (hd : d < 10) : isDigit (digit d) := by
  unfold isDigit
  rw [UInt8.le_iff_toNat_le, UInt8.le_iff_toNat_le, toNat_digit hd]
  constructor
  · exact Nat.le_add_left _ _
  · have hle : d + 0x30 ≤ 0x39 := by omega
    exact hle

theorem digit_low (x : BitVec 128) : UInt8.ofNat (x % 10 + 0x30).toNat = digit (x.toNat % 10) := by
  have hmod : (x % 10).toNat = x.toNat % 10 := BitVec.toNat_umod
  have hzero : (0x30 : BitVec 128).toNat = 0x30 := rfl
  have hlow : (x % 10 + 0x30).toNat = x.toNat % 10 + 0x30 := by
    rw [BitVec.toNat_add, hmod, hzero]
    exact Nat.mod_eq_of_lt (by omega)
  rw [hlow, digit]

theorem digits_of_pos (hn : 0 < n) : digits n = digits (n / 10) ++ [digit (n % 10)] := by
  rw [digits, Nat.digits_def' (by norm_num) hn, List.map_cons, List.reverse_cons]
  rfl

theorem isDigit_of_mem_digits {c : UInt8} (hc : c ∈ digits n) : isDigit c := by
  obtain ⟨d, hd, rfl⟩ := List.mem_map.mp (List.mem_reverse.mp hc)
  exact isDigit_digit (Nat.digits_lt_base (by norm_num) hd)

theorem value_snoc (s : List UInt8) (c : UInt8) : value (s ++ [c]) = 10 * value s + (c.toNat - 0x30) :=
  List.foldl_append

theorem value_digits (n : Nat) : value (digits n) = n := by
  induction n using Nat.strong_induction_on with
  | _ n ih =>
    rcases Nat.eq_zero_or_pos n with rfl | hn
    · rfl
    · rw [digits_of_pos hn, value_snoc, ih (n / 10) (by omega), toNat_digit (by omega)]
      omega

theorem head_digits (hn : 0 < n) : (digits n).head? ≠ some 0x30 := by
  intro hhead
  have hne : Nat.digits 10 n ≠ [] := Nat.digits_ne_nil_iff_ne_zero.mpr (by omega)
  have hlast : (digits n).head? = some (digit ((Nat.digits 10 n).getLast hne)) := by
    rw [digits, List.head?_reverse, List.getLast?_map, List.getLast?_eq_some_getLast hne]
    rfl
  have hlt := Nat.digits_lt_base (by norm_num : 1 < 10) (List.getLast_mem hne)
  have hzero := congrArg UInt8.toNat (Option.some.inj (hlast.symm.trans hhead))
  rw [toNat_digit hlt] at hzero
  have hlead : (Nat.digits 10 n).getLast hne = 0 := Nat.add_eq_right.mp hzero
  exact Nat.getLast_digit_ne_zero 10 (by omega) hlead

theorem length_digits_le (x : BitVec 128) : (digits x.toNat).length ≤ 39 := by
  rw [digits, List.length_reverse, List.length_map, Nat.digits_length_le_iff (by norm_num)]
  have hlt := x.isLt
  have hpow : 2 ^ 128 ≤ 10 ^ 39 := by norm_num
  omega

theorem put_of_mem (h0 : 0 ≤ p) (hp : p < 1024) (c : UInt8) :
    put result p c = some (Function.update result p c) := if_pos ⟨h0, hp⟩

/-- The loop writes the digits from where it starts downwards, and a zero in front of them. -/
theorem pr128Loop_spec (hroom : (digits x.toNat).length ≤ p) (hp : p < 1024) :
    ∃ r, pr128Loop x result p = some r ∧ r.2 = p - ((digits x.toNat).length + 1 : Nat) ∧
      Holds r.1 (r.2 + 1) (0x30 :: digits x.toNat) ∧ ∀ a, p < a → r.1 a = result a := by
  induction hn : x.toNat using Nat.strong_induction_on generalizing x result p with
  | _ n ih =>
    have h0 : 0 ≤ p := by omega
    rw [pr128Loop, put_of_mem h0 hp, Option.bind_some, digit_low, hn]
    by_cases hx : x = 0
    · subst hx
      cases hn
      refine ⟨_, rfl, rfl, ?_, ?_⟩
      · have hplace : p - 1 + 1 = p := by omega
        rw [hplace]
        exact holds_cons.mpr ⟨Function.update_self .., holds_nil _ _⟩
      · intro a ha
        exact Function.update_of_ne (by omega) ..
    · have hpos : 0 < x.toNat := Nat.pos_of_ne_zero fun h => hx (BitVec.toNat_inj.mp h)
      have hdiv : (x / 10).toNat = n / 10 := by
        rw [BitVec.toNat_udiv, hn]
        rfl
      rw [hn] at hroom hpos
      have hdigits := digits_of_pos hpos
      have hlen : (digits n).length = (digits (n / 10)).length + 1 := by
        rw [hdigits, List.length_append, List.length_singleton]
      obtain ⟨r, hrun, hend, hholds, habove⟩ := @ih (n / 10) (by omega) (x / 10)
        (Function.update result p (digit (n % 10))) (p - 1) (by rw [hdiv]; omega) (by omega) hdiv
      refine ⟨r, by rw [dif_neg hx, hrun], by rw [hend, hlen]; push_cast; ring, ?_, ?_⟩
      · have hlast : r.1 p = digit (n % 10) := by
          rw [habove p (by omega), Function.update_self]
        have hplace : r.2 + 1 + ((0x30 :: digits (n / 10)).length : Int) = p := by
          rw [hend, List.length_cons]
          omega
        rw [hdigits, ← List.cons_append, holds_append, hplace]
        exact ⟨hholds, holds_cons.mpr ⟨hlast, holds_nil _ _⟩⟩
      · intro a ha
        rw [habove a (by omega), Function.update_of_ne (by omega)]

theorem isDigit_ne_zero {c : UInt8} (hc : isDigit c) : c ≠ 0 := by
  intro hzero
  rw [hzero] at hc
  exact absurd hc.1 (by decide)

/-- Digits that end where the zero byte stands are what std::string takes. -/
theorem stringAt_of_holds {s : List UInt8} (hs : Holds result p s) (hend : p + s.length = 1023)
    (hzero : result 1023 = 0) (hdigits : ∀ c ∈ s, isDigit c) : stringAt result p = s := by
  have hlen : (1024 - p).toNat = s.length + 1 := by omega
  have hlast : read result (p + s.length) 1 = [0] := by
    rw [hend, ← hzero]
    rfl
  have hall : ∀ c ∈ s, decide (c ≠ 0) = true := fun c hc =>
    decide_eq_true (isDigit_ne_zero (hdigits c hc))
  rw [stringAt, hlen, read_add, hs, hlast, cString, List.takeWhile_append_of_pos hall]
  simp

theorem isDecimal_zero : IsDecimal [0x30] 0 where
  nonempty := List.cons_ne_nil _ _
  digits := by
    intro c hc
    rw [List.mem_singleton.mp hc]
    exact isDigit_digit (d := 0) (by decide)
  leading := fun _ => rfl
  value := rfl

theorem isDecimal_digits (hn : 0 < n) : IsDecimal (digits n) n where
  nonempty := by
    rw [digits_of_pos hn]
    exact List.append_ne_nil_of_right_ne_nil _ (List.cons_ne_nil _ _)
  digits := fun _ => isDigit_of_mem_digits
  leading := fun h => absurd h (head_digits hn)
  value := value_digits n

/-- Whatever the buffer has: pr128 stays in it and returns the decimal numeral of the number,
with no zero in front unless it is 0. -/
theorem pr128_isDecimal (result : Memory) (y : BitVec 128) :
    ∃ s, pr128 result y = some s ∧ IsDecimal s y.toNat := by
  have hroom := length_digits_le y
  obtain ⟨r, hrun, hend, hholds, habove⟩ :=
    @pr128Loop_spec y (Function.update result 1023 0) 1022 (by omega) (by decide)
  have hzero : r.1 1023 = 0 := by
    rw [habove 1023 (by decide), Function.update_self]
  have hfirst : r.1 (r.2 + 1) = 0x30 := (holds_cons.mp hholds).1
  rw [pr128, put_of_mem (by decide) (by decide), Option.bind_some, hrun, Option.map_some]
  dsimp only
  rw [if_neg (not_not_intro hfirst)]
  refine ⟨_, rfl, ?_⟩
  rcases Nat.eq_zero_or_pos y.toNat with h0 | hpos
  · have hnone : digits y.toNat = [] := by
      rw [h0]
      rfl
    rw [hnone] at hholds hend
    have hplace : r.2 + 1 = 1022 := by
      rw [hend]
      rfl
    rw [if_pos hplace, stringAt_of_holds hholds (by rw [hplace]; rfl) hzero
      isDecimal_zero.digits, h0]
    exact isDecimal_zero
  · have hlen : 0 < (digits y.toNat).length := List.length_pos_iff.mpr (isDecimal_digits hpos).nonempty
    rw [if_neg (by omega), stringAt_of_holds (holds_cons.mp hholds).2 (by omega) hzero
      fun c hc => isDigit_of_mem_digits hc]
    exact isDecimal_digits hpos

end Blockparser.Decimal
