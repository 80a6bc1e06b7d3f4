import Blockparser.Hex

/-! toHex and fromHex in both directions: each of them undoes the other. -/
namespace Blockparser.HexCodec
open Bytes Hex

/-- The loop of toHex, of which `p` and `e` are the pointers; `none` where the fuel runs
out. -/
def toHexLoop (src : Memory) (incr e : Int) : Nat → Int → Option (List UInt8)
  | 0, _ => none
  | fuel+1, p =>
    if p = e then some [0]
    else
      (toHexLoop src incr e fuel (p + incr)).map fun dst =>
        hexDigit (src p >>> 4) :: hexDigit (src p &&& 0xF) :: dst

/-- `s` is where the bytes are, and the result is what is written. -/
def toHexAt (src : Memory) (s : Int) (size : Nat) (rev : Bool) (fuel : Nat) : Option (List UInt8) :=
  let e := (size : Int) + s
  if rev then toHexLoop src (-1) (s - 1) fuel (e - 1) else toHexLoop src 1 e fuel s

/-- A digit of either case. -/
def HexDigit (c : UInt8) : Prop :=
  (0x30 ≤ c ∧ c ≤ 0x39) ∨ (0x61 ≤ c ∧ c ≤ 0x66) ∨ (0x41 ≤ c ∧ c ≤ 0x46)

theorem isHex_iff (c : UInt8) : IsHex c ↔ HexDigit c := by
  revert c
  apply forall_byte
  unfold IsHex HexDigit
  decide +kernel

variable {buf : Memory} {p : Int} {n : Nat} {rev : Bool} {bytes x y : List UInt8}

theorem toHexLoop_forward (src : Memory) (s : Int) (n extra : Nat) :
    toHexLoop src 1 (n + s) (n + 1 + extra) s =
      some ((read src s n).flatMap byteDigits ++ [0]) := by
  induction n generalizing s with
  | zero =>
    rw [Nat.add_comm, toHexLoop, if_pos (by simp)]
    rfl
  | succ n ih =>
    have he : ((n + 1 : Nat) : Int) + s = n + (s + 1) := by push_cast; ring
    rw [show n + 1 + 1 + extra = n + 1 + extra + 1 by omega, toHexLoop, if_neg (by omega), he, ih]
    rfl

theorem toHexLoop_backward (src : Memory) (s : Int) (n extra : Nat) :
    toHexLoop src (-1) (s - 1) (n + 1 + extra) (n + s - 1) =
      some ((read src s n).reverse.flatMap byteDigits ++ [0]) := by
  induction n with
  | zero =>
    rw [Nat.add_comm, toHexLoop, if_pos (by simp)]
    rfl
  | succ n ih =>
    have hp : ((n + 1 : Nat) : Int) + s - 1 = s + n := by push_cast; ring
    have hread : (read src s (n + 1)).reverse = src (s + n) :: (read src s n).reverse := by
      rw [read_add, List.reverse_append]
      rfl
    rw [show n + 1 + 1 + extra = n + 1 + extra + 1 by omega, toHexLoop, if_neg (by omega), hp,
      show s + (n : Int) + -1 = n + s - 1 by ring, ih, hread]
    rfl

theorem toHex_eq (x : List UInt8) (rev : Bool) :
    toHex x rev = (if rev then x.reverse else x).flatMap byteDigits ++ [0] := rfl

/-- The pointers of toHex come to their end, and what is written are the digits of the
bytes in the one or the other order. -/
theorem toHexAt_eq (src : Memory) (s : Int) (n extra : Nat) (rev : Bool) :
    toHexAt src s n rev (n + 1 + extra) = some (toHex (read src s n) rev) := by
  cases rev with
  | false => exact toHexLoop_forward src s n extra
  | true => exact toHexLoop_backward src s n extra

/-- What toHex writes are digits, none of them of the upper case. -/
theorem byteDigits_digits (c : UInt8) : ∀ d ∈ byteDigits c, IsHex d ∧ lowerDigit d = d := by
  have hall : ∀ c : UInt8, (byteDigits c).all (fun d => decide (IsHex d ∧ lowerDigit d = d)) = true := by
    apply forall_byte
    unfold IsHex
    decide +kernel
  intro d hd
  exact of_decide_eq_true (List.all_eq_true.mp (hall c) d hd)

/-- The byte of two digits. -/
def byteFrom (digits : List UInt8) : UInt8 :=
  match digits.map fun d => (fromHexDigit d false).getD 0 with
  | [hi, lo] => (hi <<< 4) + lo
  | _ => 0

theorem byteFrom_byteDigits (c : UInt8) : byteFrom (byteDigits c) = c := by
  revert c
  apply forall_byte
  decide +kernel

theorem digits_inj (h : x.flatMap byteDigits = y.flatMap byteDigits) : x = y := by
  induction x generalizing y with
  | nil =>
    cases y with
    | nil => rfl
    | cons d y => cases h
  | cons c x ih =>
    cases y with
    | nil => cases h
    | cons d y =>
      rw [List.flatMap_cons, List.flatMap_cons] at h
      obtain ⟨hhead, htail⟩ := List.append_inj h rfl
      have hbyte := congrArg byteFrom hhead
      rw [byteFrom_byteDigits, byteFrom_byteDigits] at hbyte
      rw [hbyte, ih htail]

theorem toHex_inj (h : toHex x rev = toHex y rev) : x = y := by
  rw [toHex_eq, toHex_eq] at h
  have hdigits := digits_inj (List.append_cancel_right h)
  cases rev with
  | false => exact hdigits
  | true => exact List.reverse_injective hdigits

/-- What fromHex reads where there are only digits. -/
theorem fromHex_digits (abortOnErr : Bool) (h : ∀ c ∈ read buf 0 (2 * n), IsHex c) : ∃ bytes,
    fromHex buf n rev abortOnErr = some (true, bytes) ∧ bytes.length = n ∧
      toHex bytes rev = (read buf 0 (2 * n)).map lowerDigit ++ [0] := by
  have hpairs := (forall_pairs _).mpr (by rwa [pairsFrom_read])
  cases rev with
  | false =>
    obtain ⟨bytes, hloop, hlen, hdigits⟩ := fromHexLoop_hex abortOnErr h
    exact ⟨bytes, hloop, hlen, by rw [← hdigits]; rfl⟩
  | true =>
    have hrev := pairsFrom_reverse buf 0 n
    rw [zero_add] at hrev
    obtain ⟨bytes, hloop, hlen, hdigits⟩ := @fromHexLoop_pairs buf (-2) (2 * ((n : Int) - 1)) n
      abortOnErr (by
        rw [hrev]
        intro q hq
        exact hpairs q (List.mem_reverse.mp hq))
    refine ⟨bytes, hloop, hlen, ?_⟩
    have hback := congrArg List.reverse hdigits
    rw [hrev, ← List.map_reverse, ← List.map_reverse, List.reverse_reverse] at hback
    rw [toHex_eq, if_pos rfl, List.flatMap_def, hback, ← pairsFrom_read, List.map_flatMap,
      List.flatMap_def]

/-- Where fromHex does not stop, it comes to its end only over digits. -/
theorem fromHexLoop_true {incr : Int} (h : fromHexLoop buf incr false p n = some (true, bytes)) :
    ∀ q ∈ pairsFrom buf incr p n, IsHex q.1 ∧ IsHex q.2 := by
  induction n generalizing p bytes with
  | zero => intro q hq; cases hq
  | succ n ih =>
    rw [fromHexLoop] at h
    cases hhi : fromHexDigit (buf p) false with
    | none => rw [hhi] at h; cases h
    | some hi =>
      rw [hhi, Option.bind_some] at h
      by_cases hbad : hi = 0xFF
      · rw [if_pos hbad] at h
        cases h
      · rw [if_neg hbad] at h
        cases hlo : fromHexDigit (buf (p + 1)) false with
        | none => rw [hlo] at h; cases h
        | some lo =>
          rw [hlo, Option.bind_some] at h
          by_cases hbad' : lo = 0xFF
          · rw [if_pos hbad'] at h
            cases h
          · rw [if_neg hbad'] at h
            cases hrest : fromHexLoop buf incr false (p + incr) n with
            | none => rw [hrest] at h; cases h
            | some r =>
              rw [hrest] at h
              injection h with h
              have hr : fromHexLoop buf incr false (p + incr) n = some (true, r.2) := by
                rw [hrest, ← (Prod.mk.inj h).1]
              intro q hq
              cases List.mem_cons.mp hq with
              | inl he =>
                rw [he]
                unfold IsHex
                rw [hhi, hlo]
                exact ⟨fun hs => hbad (Option.some.inj hs), fun hs => hbad' (Option.some.inj hs)⟩
              | inr hq => exact ih hr q hq

theorem isHex_of_fromHex (h : fromHex buf n rev false = some (true, bytes)) :
    ∀ c ∈ read buf 0 (2 * n), IsHex c := by
  rw [← pairsFrom_read, ← forall_pairs]
  cases rev with
  | false => exact fromHexLoop_true h
  | true =>
    have hrev := pairsFrom_reverse buf 0 n
    rw [zero_add] at hrev
    intro q hq
    apply fromHexLoop_true h q
    rw [hrev]
    exact List.mem_reverse.mpr hq

theorem read_toHex (x : List UInt8) (rev : Bool) (pad : Memory) :
    read (ofList (toHex x rev) pad) 0 (2 * x.length) =
      (if rev then x.reverse else x).flatMap byteDigits := by
  have hlen : ((if rev then x.reverse else x).flatMap byteDigits).length = 2 * x.length := by
    cases rev <;> simp [List.length_flatMap, byteDigits, Nat.mul_comm]
  have hhold := read_ofList (toHex x rev) pad
  rw [toHex_eq, holds_append] at hhold
  have hfst := hhold.1
  rw [Holds, hlen, ← toHex_eq] at hfst
  exact hfst

theorem fromHex_toHex (x : List UInt8) (rev abortOnErr : Bool) (pad : Memory) :
    fromHex (ofList (toHex x rev) pad) x.length rev abortOnErr = some (true, x) := by
  have hread := read_toHex x rev pad
  have hdigits : ∀ c ∈ (if rev then x.reverse else x).flatMap byteDigits,
      IsHex c ∧ lowerDigit c = c := by
    intro c hc
    obtain ⟨b, -, hb⟩ := List.mem_flatMap.mp hc
    exact byteDigits_digits b c hb
  obtain ⟨bytes, hfrom, -, hbytes⟩ := @fromHex_digits (ofList (toHex x rev) pad) x.length rev
    abortOnErr (by rw [hread]; exact fun c hc => (hdigits c hc).1)
  rw [hread, List.map_congr_left (g := id) fun c hc => (hdigits c hc).2, List.map_id, ← toHex_eq]
    at hbytes
  rw [hfrom, toHex_inj hbytes]

theorem fromHex_iff : fromHex buf n rev false = some (true, bytes) ↔
    (∀ c ∈ read buf 0 (2 * n), HexDigit c) ∧ bytes.length = n ∧
      toHex bytes rev = (read buf 0 (2 * n)).map lowerDigit ++ [0] := by
  constructor
  · intro h
    have hhex := isHex_of_fromHex h
    obtain ⟨bytes', h', hlen, hdigits⟩ := @fromHex_digits buf n rev false hhex
    rw [h] at h'
    injection h' with h'
    rw [(Prod.mk.inj h').2]
    exact ⟨fun c hc => (isHex_iff c).mp (hhex c hc), hlen, hdigits⟩
  · intro h
    obtain ⟨bytes', h', -, hdigits⟩ := @fromHex_digits buf n rev false fun c hc =>
      (isHex_iff c).mpr (h.1 c hc)
    rw [h', toHex_inj (h.2.2.trans hdigits.symm)]

/-- The loops of toHex and fromHex end; fromHex gets back what toHex wrote; and without
abortOnErr it succeeds exactly on the digits of either case, which are, in lower case, what
toHex makes of the result. -/
theorem hex_codec (rev : Bool) :
    (∀ (src : Memory) s n extra,
      toHexAt src s n rev (n + 1 + extra) = some (toHex (read src s n) rev)) ∧
    (∀ (x : List UInt8) abortOnErr pad,
      fromHex (ofList (toHex x rev) pad) x.length rev abortOnErr = some (true, x)) ∧
    (∀ (buf : Memory) n, (∃ bytes, fromHex buf n rev false = some (true, bytes)) ↔
      ∀ c ∈ read buf 0 (2 * n), HexDigit c) ∧
    ∀ (buf : Memory) n bytes, fromHex buf n rev false = some (true, bytes) ↔
      (∀ c ∈ read buf 0 (2 * n), HexDigit c) ∧ bytes.length = n ∧
        toHex bytes rev = (read buf 0 (2 * n)).map lowerDigit ++ [0] := by
  refine ⟨fun src s n extra => toHexAt_eq src s n extra rev,
    fun x abortOnErr pad => fromHex_toHex x rev abortOnErr pad, ?_, fun _ _ _ => fromHex_iff⟩
  intro buf n
  constructor
  · intro h
    obtain ⟨bytes, h⟩ := h
    exact (fromHex_iff.mp h).1
  · intro h
    obtain ⟨bytes, hfrom, -⟩ := @fromHex_digits buf n rev false fun c hc => (isHex_iff c).mpr (h c hc)
    exact ⟨bytes, hfrom⟩

end Blockparser.HexCodec
