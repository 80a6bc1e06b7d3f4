import Blockparser.Lib.Bytes

/-! Bytes written as hex digits and read back, and what printf makes of numbers. -/
namespace Blockparser.Hex
open Bytes

/-- The bytes of a string literal. -/
def ascii (text : String) : List UInt8 := text.toList.map Char.toUInt8

def hexDigits : List UInt8 :=
  ['0', '1', '2', '3', '4', '5', '6', '7', '8', '9', 'a', 'b', 'c', 'd', 'e', 'f'].map Char.toUInt8

def hexDigit (c : UInt8) : UInt8 := hexDigits.getD c.toNat 0

/-- What toHex writes for `src`, with the zero byte at its end. -/
def toHex (src : List UInt8) (rev : Bool) : List UInt8 :=
  ((if rev then src.reverse else src).flatMap fun c : UInt8 =>
    [hexDigit (c >>> 4), hexDigit (c &&& 0xF)]) ++ [0]

/-- `none` where the code stops with errFatal. -/
def fromHexDigit (h : UInt8) (abortOnErr : Bool) : Option UInt8 :=
  if 0x30 ≤ h ∧ h ≤ 0x39 then some (h - 0x30)
  else if 0x61 ≤ h ∧ h ≤ 0x66 then some (10 + (h - 0x61))
  else if 0x41 ≤ h ∧ h ≤ 0x46 then some (10 + (h - 0x41))
  else if abortOnErr then none
  else some 0xFF

/-- The loop of fromHex: whether it gets to the end, and the bytes it writes. -/
def fromHexLoop (src : Memory) (incr : Int) (abortOnErr : Bool) :
    Int → Nat → Option (Bool × List UInt8)
  | _, 0 => some (true, [])
  | p, n+1 =>
    (fromHexDigit (src p) abortOnErr).bind fun hi =>
      if hi = 0xFF then some (false, [])
      else
        (fromHexDigit (src (p + 1)) abortOnErr).bind fun lo =>
          if lo = 0xFF then some (false, [])
          else
            (fromHexLoop src incr abortOnErr (p + incr) n).map fun r =>
              (r.1, ((hi <<< 4) + lo) :: r.2)

/-- `src` points at address 0. -/
def fromHex (src : Memory) (dstSize : Nat) (rev abortOnErr : Bool) :
    Option (Bool × List UInt8) :=
  if rev then fromHexLoop src (-2) abortOnErr (2 * ((dstSize : Int) - 1)) dstSize
  else fromHexLoop src 2 abortOnErr 0 dstSize

/-- What `%s` prints. -/
def cString (buf : List UInt8) : List UInt8 := buf.takeWhile fun c => c ≠ 0

/-- A number in the given base, with zeros in front up to `width` digits. -/
def printNat (base width n : Nat) : List UInt8 :=
  let digits := (Nat.toDigits base n).map Char.toUInt8
  List.replicate (width - digits.length) 0x30 ++ digits

/-- The upper case of a hex digit. -/
def upperDigit (c : UInt8) : UInt8 := if 0x61 ≤ c ∧ c ≤ 0x66 then c - 0x20 else c

/-- A hex digit of either case. -/
def IsHex (c : UInt8) : Prop := fromHexDigit c false ≠ some 0xFF

instance (c : UInt8) : Decidable (IsHex c) := by unfold IsHex; infer_instance

/-- The lower case of a hex digit. -/
def lowerDigit (c : UInt8) : UInt8 := if 0x41 ≤ c ∧ c ≤ 0x46 then c + 0x20 else c

/-- What toHex writes for one byte. -/
def byteDigits (c : UInt8) : List UInt8 := [hexDigit (c >>> 4), hexDigit (c &&& 0xF)]

theorem IsHex.digit {c : UInt8} (h : IsHex c) (abortOnErr : Bool) :
    ∃ v, v < 16 ∧ fromHexDigit c abortOnErr = some v ∧ hexDigit v = lowerDigit c := by
  have hall : ∀ c : UInt8, IsHex c → (fromHexDigit c false).getD 0 < 16 ∧
      (∀ b, fromHexDigit c b = some ((fromHexDigit c false).getD 0)) ∧
      hexDigit ((fromHexDigit c false).getD 0) = lowerDigit c := by
    apply forall_byte
    decide +kernel
  obtain ⟨hlt, habort, hdigit⟩ := hall c h
  exact ⟨_, hlt, habort abortOnErr, hdigit⟩

theorem byteDigits_halves {hi lo : UInt8} (hhi : hi < 16) (hlo : lo < 16) :
    byteDigits ((hi <<< 4) + lo) = [hexDigit hi, hexDigit lo] := by
  have hall : ∀ m n : Fin 16,
      byteDigits ((UInt8.ofNat m <<< 4) + UInt8.ofNat n) =
        [hexDigit (UInt8.ofNat m), hexDigit (UInt8.ofNat n)] := by
    decide +kernel
  have hc := hall ⟨hi.toNat, UInt8.lt_iff_toNat_lt.mp hhi⟩ ⟨lo.toNat, UInt8.lt_iff_toNat_lt.mp hlo⟩
  rwa [UInt8.ofNat_toNat, UInt8.ofNat_toNat] at hc

/-- The two characters at `p`, the two at `p + incr` and so on. -/
def pairsFrom (src : Memory) (incr : Int) : Int → Nat → List (UInt8 × UInt8)
  | _, 0 => []
  | p, n+1 => (src p, src (p + 1)) :: pairsFrom src incr (p + incr) n

def pairDigits (q : UInt8 × UInt8) : List UInt8 := [q.1, q.2]

theorem pairsFrom_snoc (src : Memory) (incr p : Int) (n : Nat) :
    pairsFrom src incr p (n + 1) =
      pairsFrom src incr p n ++ [(src (p + n * incr), src (p + n * incr + 1))] := by
  induction n generalizing p with
  | zero => simp [pairsFrom]
  | succ n ih =>
    have hp : p + incr + n * incr = p + ((n + 1 : Nat) : Int) * incr := by push_cast; ring
    rw [pairsFrom, ih, hp]
    rfl

/-- The other way round the pairs are the same. -/
theorem pairsFrom_reverse (src : Memory) (p : Int) (n : Nat) :
    pairsFrom src (-2) (p + 2 * ((n : Int) - 1)) n = (pairsFrom src 2 p n).reverse := by
  induction n with
  | zero => rfl
  | succ n ih =>
    have hp : p + 2 * (((n + 1 : Nat) : Int) - 1) = p + n * 2 := by push_cast; ring
    have hnext : p + n * 2 + -2 = p + 2 * ((n : Int) - 1) := by ring
    rw [pairsFrom_snoc src 2, List.reverse_append, pairsFrom, hp, hnext, ih]
    rfl

theorem pairsFrom_read (src : Memory) (p : Int) (n : Nat) :
    (pairsFrom src 2 p n).flatMap pairDigits = read src p (2 * n) := by
  induction n generalizing p with
  | zero => rfl
  | succ n ih =>
    rw [pairsFrom, List.flatMap_cons, ih, show 2 * (n + 1) = 2 * n + 1 + 1 by ring, Bytes.read,
      Bytes.read, show p + 1 + 1 = p + 2 by ring]
    rfl

/-- Hex digits are read to the bytes that are written with them. -/
theorem fromHexLoop_pairs {src : Memory} {incr p : Int} {n : Nat} (abortOnErr : Bool)
    (h : ∀ q ∈ pairsFrom src incr p n, IsHex q.1 ∧ IsHex q.2) : ∃ bytes,
      fromHexLoop src incr abortOnErr p n = some (true, bytes) ∧ bytes.length = n ∧
        bytes.map byteDigits =
          (pairsFrom src incr p n).map fun q => (pairDigits q).map lowerDigit := by
  induction n generalizing p with
  | zero => exact ⟨[], rfl, rfl, rfl⟩
  | succ n ih =>
    rw [pairsFrom] at h ⊢
    obtain ⟨hfst, hsnd⟩ := h _ List.mem_cons_self
    obtain ⟨hi, hhi, hfst, hdig⟩ := hfst.digit abortOnErr
    obtain ⟨lo, hlo, hsnd, hdig'⟩ := hsnd.digit abortOnErr
    obtain ⟨bytes, hloop, hlen, hbytes⟩ := ih fun q hq => h q (List.mem_cons_of_mem _ hq)
    have hne : ∀ v : UInt8, v < 16 → v ≠ 0xFF := by
      intro v hv heq
      subst heq
      exact absurd hv (by decide)
    refine ⟨((hi <<< 4) + lo) :: bytes, ?_, by simp [hlen], ?_⟩
    · rw [fromHexLoop, hfst, Option.bind_some, if_neg (hne hi hhi), hsnd, Option.bind_some,
        if_neg (hne lo hlo), hloop]
      rfl
    · rw [List.map_cons, byteDigits_halves hhi hlo, hdig, hdig', hbytes]
      rfl

theorem forall_pairs {P : UInt8 → Prop} (l : List (UInt8 × UInt8)) :
    (∀ q ∈ l, P q.1 ∧ P q.2) ↔ ∀ c ∈ l.flatMap pairDigits, P c := by
  simp only [List.mem_flatMap, pairDigits, List.mem_cons, List.not_mem_nil, or_false]
  constructor
  · intro h c hc
    obtain ⟨q, hq, rfl | rfl⟩ := hc
    · exact (h q hq).1
    · exact (h q hq).2
  · intro h q hq
    exact ⟨h q.1 ⟨q, hq, Or.inl rfl⟩, h q.2 ⟨q, hq, Or.inr rfl⟩⟩

theorem fromHexLoop_hex {src : Memory} {p : Int} {n : Nat} (abortOnErr : Bool)
    (h : ∀ c ∈ read src p (2 * n), IsHex c) : ∃ bytes,
      fromHexLoop src 2 abortOnErr p n = some (true, bytes) ∧ bytes.length = n ∧
        bytes.flatMap byteDigits = (read src p (2 * n)).map lowerDigit := by
  rw [← pairsFrom_read, ← forall_pairs] at h
  obtain ⟨bytes, hloop, hlen, hbytes⟩ := fromHexLoop_pairs abortOnErr h
  refine ⟨bytes, hloop, hlen, ?_⟩
  rw [List.flatMap_def, hbytes, ← pairsFrom_read, List.map_flatMap, List.flatMap_def]

end Blockparser.Hex
