import Blockparser.Lib.Bytes
import Blockparser.Lib.Escape

/-! The escaping of binary fields in the tables of sqldump. -/
namespace Blockparser.Escaping
open Bytes

/-- What is written for one byte. -/
def writeEscapedChar (c : UInt8) : List UInt8 :=
  if c = 0 then [0x5C, 0x30]
  else if c = 0x0A then [0x5C, c]
  else if c = 0x09 then [0x5C, c]
  else if c = 0x5C then [0x5C, c]
  else [c]

/-- The pointer goes down from the end of the buffer. -/
def writeEscapedRevLoop (m : Memory) : Int → Nat → List UInt8
  | _, 0 => []
  | p, n+1 => writeEscapedChar (m (p - 1)) ++ writeEscapedRevLoop m (p - 1) n

def writeEscapedBinaryBufferRev (m : Memory) (p : Int) (n : Nat) : List UInt8 :=
  writeEscapedRevLoop m (p + n) n

def writeEscapedBinaryBuffer (m : Memory) : Int → Nat → List UInt8
  | _, 0 => []
  | p, n+1 => writeEscapedChar (m p) ++ writeEscapedBinaryBuffer m (p + 1) n

def tab : UInt8 := 0x09

def newline : UInt8 := 0x0A

def isSpecial (c : UInt8) : Bool := c = 0 ∨ c = newline ∨ c = tab ∨ c = 0x5C

/-- A zero is named by the digit 0, and every other byte by itself. -/
def nameOf (c : UInt8) : UInt8 := if c = 0 then 0x30 else c

def byteOf (c : UInt8) : UInt8 := if c = 0x30 then 0 else c

theorem byteOf_nameOf {c : UInt8} (hc : isSpecial c = true) : byteOf (nameOf c) = c := by
  rw [isSpecial, decide_eq_true_eq] at hc
  rcases hc with rfl | rfl | rfl | rfl <;> rfl

/-- What the escaping is. -/
def code : Escape.Code UInt8 where
  mark := 0x5C
  special := isSpecial
  name := nameOf
  unname := byteOf
  special_mark := rfl
  unname_name := fun _ hc => byteOf_nameOf hc

theorem writeEscapedChar_eq (c : UInt8) : writeEscapedChar c = Escape.escapeOne code c := by
  unfold writeEscapedChar Escape.escapeOne
  simp only [code, isSpecial, newline, tab, nameOf]
  by_cases h0 : c = 0
  · simp [h0]
  · by_cases hn : c = 0x0A
    · simp [hn]
    · by_cases ht : c = 0x09
      · simp [ht]
      · by_cases hb : c = 0x5C
        · simp [hb]
        · simp [h0, hn, ht, hb]

theorem writeEscapedBinaryBuffer_eq (m : Memory) (p : Int) (n : Nat) :
    writeEscapedBinaryBuffer m p n = Escape.escape code (read m p n) := by
  induction n generalizing p with
  | zero => rfl
  | succ n ih =>
    rw [writeEscapedBinaryBuffer, ih, writeEscapedChar_eq, Bytes.read]
    rfl

theorem writeEscapedRevLoop_eq (m : Memory) (p : Int) (n : Nat) :
    writeEscapedRevLoop m (p + n) n = Escape.escape code (read m p n).reverse := by
  induction n with
  | zero => rfl
  | succ n ih =>
    have hp : p + ((n + 1 : Nat) : Int) - 1 = p + n := by push_cast; ring
    have hread : (read m p (n + 1)).reverse = m (p + n) :: (read m p n).reverse := by
      rw [read_add, List.reverse_append]
      rfl
    rw [writeEscapedRevLoop, hp, ih, hread, writeEscapedChar_eq]
    rfl

/-- `write` writes the bytes of a buffer, in the order of `bytes`, so that no tab, newline or
zero is bare, that they can be read again, and that a tab ends them. -/
structure Decodable (write bytes : Memory → Int → Nat → List UInt8) : Prop where
  bare : ∀ m p n, ∀ c ∈ Escape.bare code (write m p n), c ≠ tab ∧ c ≠ newline ∧ c ≠ 0
  unescape : ∀ m p n, Escape.unescape code (write m p n) = bytes m p n
  unique : ∀ m p n m' p' n' r s, write m p n ++ tab :: r = write m' p' n' ++ tab :: s →
    bytes m p n = bytes m' p' n' ∧ r = s

theorem decodable_of_escape {write bytes : Memory → Int → Nat → List UInt8}
    (h : ∀ m p n, write m p n = Escape.escape code (bytes m p n)) : Decodable write bytes := by
  constructor
  · intro m p n c hc
    rw [h, Escape.bare_escape, List.mem_filter] at hc
    have hspecial := hc.2
    simp only [code, isSpecial] at hspecial
    simp only [Bool.not_eq_true', decide_eq_false_iff_not, not_or] at hspecial
    exact ⟨hspecial.2.2.1, hspecial.2.1, hspecial.1⟩
  · intro m p n
    rw [h, Escape.unescape_escape]
  · intro m p n m' p' n' r s heq
    rw [h, h] at heq
    exact Escape.escape_append_inj rfl (by decide) heq

/-- Both ways of writing a buffer can be decoded, the second one to the reversed bytes. -/
theorem escaping_decodable : Decodable writeEscapedBinaryBuffer read ∧
    Decodable writeEscapedBinaryBufferRev fun m p n => (read m p n).reverse := by
  constructor
  · apply decodable_of_escape
    exact writeEscapedBinaryBuffer_eq
  · apply decodable_of_escape
    exact writeEscapedRevLoop_eq

end Blockparser.Escaping
