import Blockparser.Hex
import Blockparser.MultiSig

/-! What showScript prints of a script, and the bytes it reads for it. -/
namespace Blockparser.ShowScript
open Bytes Script MultiSig Hex

/-- The names of opcodes.h. -/
def opcodes : List (UInt8 × String) :=
  [(0x00, "0"), (0x4C, "PUSHDATA1"), (0x4D, "PUSHDATA2"), (0x4E, "PUSHDATA4"), (0x4F, "1NEGATE"),
   (0x50, "RESERVED"), (0x51, "1"), (0x52, "2"), (0x53, "3"), (0x54, "4"), (0x55, "5"),
   (0x56, "6"), (0x57, "7"), (0x58, "8"), (0x59, "9"), (0x5A, "10"), (0x5B, "11"), (0x5C, "12"),
   (0x5D, "13"), (0x5E, "14"), (0x5F, "15"), (0x60, "16"), (0x61, "NOP"), (0x62, "VER"),
   (0x63, "IF"), (0x64, "NOTIF"), (0x65, "VERIF"), (0x66, "VERNOTIF"), (0x67, "ELSE"),
   (0x68, "ENDIF"), (0x69, "VERIFY"), (0x6A, "RETURN"), (0x6B, "TOALTSTACK"),
   (0x6C, "FROMALTSTACK"), (0x6D, "2DROP"), (0x6E, "2DUP"), (0x6F, "3DUP"), (0x70, "2OVER"),
   (0x71, "2ROT"), (0x72, "2SWAP"), (0x73, "IFDUP"), (0x74, "DEPTH"), (0x75, "DROP"),
   (0x76, "DUP"), (0x77, "NIP"), (0x78, "OVER"), (0x79, "PICK"), (0x7A, "ROLL"), (0x7B, "ROT"),
   (0x7C, "SWAP"), (0x7D, "TUCK"), (0x7E, "CAT"), (0x7F, "SUBSTR"), (0x80, "LEFT"),
   (0x81, "RIGHT"), (0x82, "SIZE"), (0x83, "INVERT"), (0x84, "AND"), (0x85, "OR"), (0x86, "XOR"),
   (0x87, "EQUAL"), (0x88, "EQUALVERIFY"), (0x89, "RESERVED1"), (0x8A, "RESERVED2"),
   (0x8B, "1ADD"), (0x8C, "1SUB"), (0x8D, "2MUL"), (0x8E, "2DIV"), (0x8F, "NEGATE"), (0x90, "ABS"),
   (0x91, "NOT"), (0x92, "0NOTEQUAL"), (0x93, "ADD"), (0x94, "SUB"), (0x95, "MUL"), (0x96, "DIV"),
   (0x97, "MOD"), (0x98, "LSHIFT"), (0x99, "RSHIFT"), (0x9A, "BOOLAND"), (0x9B, "BOOLOR"),
   (0x9C, "NUMEQUAL"), (0x9D, "NUMEQUALVERIFY"), (0x9E, "NUMNOTEQUAL"), (0x9F, "LESSTHAN"),
   (0xA0, "GREATERTHAN"), (0xA1, "LESSTHANOREQUAL"), (0xA2, "GREATERTHANOREQUAL"), (0xA3, "MIN"),
   (0xA4, "MAX"), (0xA5, "WITHIN"), (0xA6, "RIPEMD160"), (0xA7, "SHA1"), (0xA8, "SHA256"),
   (0xA9, "HASH160"), (0xAA, "HASH256"), (0xAB, "CODESEPARATOR"), (0xAC, "CHECKSIG"),
   (0xAD, "CHECKSIGVERIFY"), (0xAE, "CHECKMULTISIG"), (0xAF, "CHECKMULTISIGVERIFY"),
   (0xB0, "NOP1"), (0xB1, "NOP2"), (0xB2, "NOP3"), (0xB3, "NOP4"), (0xB4, "NOP5"), (0xB5, "NOP6"),
   (0xB6, "NOP7"), (0xB7, "NOP8"), (0xB8, "NOP9"), (0xB9, "NOP10"), (0xFA, "SMALLINTEGER"),
   (0xFB, "PUBKEYS"), (0xFD, "PUBKEYHASH"), (0xFE, "PUBKEY"), (0xFF, "INVALIDOPCODE")]

def getOpcodeName (op : UInt8) : List UInt8 :=
  match opcodes.find? fun e => e.1 = op with
  | some e => ascii "OP_" ++ ascii e.2
  | none => ascii "OP_UNKNOWN"

/-- What is printed, and the addresses that are read for it. -/
structure Dump where
  text : List UInt8
  reads : List Int

def Dump.append (d d' : Dump) : Dump := ⟨d.text ++ d'.text, d.reads ++ d'.reads⟩

/-- The addresses from `p` on. -/
def span (p : Int) (size : Nat) : List Int := (List.range size).map fun i : Nat => p + (i : Int)

def showHex (s : ScriptPtr) (p : Int) (size : Nat) (rev : Bool) : Dump :=
  ⟨cString (toHex (read s p size) rev), span p size⟩

/-- isprint in the C locale. -/
def isprint (c : UInt8) : Bool := decide (0x20 ≤ c) && decide (c ≤ 0x7E)

/-- The line of canonicalHexDump for up to 16 bytes. -/
def hexDumpLine (indent : List UInt8) (offset : Nat) (bytes : List UInt8) : List UInt8 :=
  indent ++ printNat 16 6 offset ++ ascii ": " ++
    bytes.flatMap (fun c => printNat 16 2 c.toNat ++ ascii " ") ++
    (List.replicate (16 - bytes.length) (ascii "   ")).flatten ++ ascii "  " ++
    bytes.map (fun c => if isprint c then c else 0x2E) ++ ascii "\n"

/-- The lines of canonicalHexDump from `offset` on, for `p` at offset 0. -/
def hexDumpLines (s : ScriptPtr) (p : Int) (size : Nat) (indent : List UInt8) (offset : Nat) :
    List UInt8 :=
  if offset < size then
    hexDumpLine indent offset (read s (p + offset) (min 16 (size - offset))) ++
      hexDumpLines s p size indent (offset + 16)
  else []
termination_by size - offset

def canonicalHexDump (s : ScriptPtr) (p : Int) (size : Nat) (indent : List UInt8) : Dump :=
  ⟨hexDumpLines s p size indent 0, span p size⟩

section
variable (s : ScriptPtr) (e : Int) (header indent : Option (List UInt8)) (showAscii : Bool)

/-- The header stands in the first line only. -/
def headerText (first : Bool) : List UInt8 := if first then header.getD [] else []

def opcodeLine (first : Bool) (c : UInt8) : List UInt8 :=
  ascii "    " ++ indent.getD [] ++ ascii "0x" ++ (printNat 16 2 c.toNat).map upperDigit ++
    ascii " " ++ getOpcodeName c ++ headerText header first ++ ascii "\n"

def pushLine (dataSize : Nat) : List UInt8 :=
  ascii "         " ++ indent.getD [] ++ ascii "OP_PUSHDATA(" ++ printNat 10 1 dataSize ++
    ascii ", 0x"

def weirdLine : List UInt8 :=
  ascii " -- dataSize is weird, likely an invalid script -- bailing.\n"

/-- What is printed of the data of a push that is not too big. -/
def showData (first : Bool) (p : Int) (dataSize : Nat) : Dump :=
  let hex := (showHex s p dataSize false).append
    ⟨ascii ")" ++ headerText header first ++ ascii "\n", []⟩
  if showAscii then
    (hex.append ⟨ascii "ascii version of data:\n", []⟩).append
      ((canonicalHexDump s p dataSize []).append ⟨ascii "\n", []⟩)
  else hex

/-- The loop of showScript, from the cursor on. -/
def showFrom (first : Bool) (p : Int) : Dump :=
  if p < e then
    let c := s p
    if isImmediate c then
      let size := pushSize s c (p + 1)
      let head : Dump := ⟨pushLine indent size.1, p :: span (p + 1) (pushWidth c)⟩
      if 512 * 1024 < size.1 then head.append ⟨weirdLine, []⟩
      else
        (head.append (showData s header showAscii first size.2 size.1)).append
          (showFrom false (size.2 + size.1))
    else
      Dump.append ⟨opcodeLine header indent first c, [p]⟩ (showFrom false (p + 1))
  else ⟨[], []⟩
termination_by (e - p).toNat
decreasing_by
  · have hge := pushSize_ge s (s p) (p + 1)
    omega
  · omega

end

def showScript (s : ScriptPtr) (scriptSize : Nat) (header indent : Option (List UInt8))
    (showAscii : Bool) : Dump :=
  showFrom s scriptSize header indent showAscii true 0

/-! Scripts that are printed from themselves. -/

/-- A complete piece of a script: an opcode without data, or a push with its data. -/
inductive Item
  | op (c : UInt8) (h : ¬isImmediate c)
  | push (k : KeyPush)

def Item.encode : Item → List UInt8
  | .op c _ => [c]
  | .push k => k.encode

/-- A script may end with the head of a push that is too big, and anything behind it. -/
def Ending (tail : List UInt8) : Prop :=
  tail = [] ∨ ∃ junk rest, BigHead junk ∧ tail = junk ++ rest

/-- No length and no data of a push is cut off by the end of the script. -/
def Complete (script : List UInt8) : Prop :=
  ∃ items tail, Ending tail ∧ script = List.flatMap Item.encode items ++ tail

theorem mem_span {p i : Int} {size : Nat} : i ∈ span p size ↔ p ≤ i ∧ i < p + size := by
  unfold span
  rw [List.mem_map]
  constructor
  · intro h
    obtain ⟨k, hk, rfl⟩ := h
    have hlt := List.mem_range.mp hk
    omega
  · intro h
    refine ⟨(i - p).toNat, List.mem_range.mpr ?_, ?_⟩
    · omega
    · omega

/-- The addresses from `p` on lie inside a script of `n` bytes when the last one does. -/
theorem span_inside {p n : Int} {size : Nat} (h0 : 0 ≤ p) (hn : p + size ≤ n) :
    ∀ i ∈ span p size, 0 ≤ i ∧ i < n := by
  intro i hi
  have hi' := mem_span.mp hi
  omega

theorem span_le {p n : Int} {size : Nat} (h : ∀ i ∈ span p size, i < n) (hp : p ≤ n) :
    p + size ≤ n := by
  by_contra hgt
  have hlast := h (p + size - 1) (mem_span.mpr (by omega))
  omega

section
variable {s t : ScriptPtr} {n p : Int} {header indent : Option (List UInt8)}
  {showAscii first : Bool}

theorem showFrom_end (h : n ≤ p) :
    showFrom s n header indent showAscii first p = ⟨[], []⟩ := by
  rw [showFrom, if_neg (by omega)]

theorem showFrom_op (hp : p < n) (hc : ¬isImmediate (s p)) :
    showFrom s n header indent showAscii first p =
      Dump.append ⟨opcodeLine header indent first (s p), [p]⟩
        (showFrom s n header indent showAscii false (p + 1)) := by
  rw [showFrom, if_pos hp]
  dsimp only
  rw [if_neg hc]

/-- A push that stands in the script with all its data. -/
theorem showFrom_push (k : KeyPush) (hp : p < n) (h : Holds s p k.encode) :
    showFrom s n header indent showAscii first p =
      (Dump.append ⟨pushLine indent k.data.length, p :: span (p + 1) (pushWidth k.opcode)⟩
        (showData s header showAscii first (p + 1 + pushWidth k.opcode) k.data.length)).append
          (showFrom s n header indent showAscii false (p + k.encode.length)) := by
  obtain ⟨hc, hrest⟩ := holds_cons.mp h
  have hsize := k.pushSize_eq (holds_append.mp hrest).1
  have hsmall := k.small
  have hend : p + 1 + (pushWidth k.opcode : Int) + k.data.length = p + k.encode.length := by
    rw [k.length_encode]
    push_cast
    ring
  rw [showFrom, if_pos hp]
  dsimp only
  rw [hc, if_pos k.immediate, hsize, if_neg (by omega), pushSize_snd, hend]

theorem showFrom_big {junk : List UInt8} (hbig : BigHead junk) (hp : p < n) (h : Holds s p junk) :
    showFrom s n header indent showAscii first p =
      ⟨pushLine indent (leNat (junk.drop 1)) ++ weirdLine, p :: span (p + 1) 4⟩ := by
  obtain ⟨size, hlt, h32, rfl⟩ := hbig
  obtain ⟨hc, hrest⟩ := holds_cons.mp h
  have hsize : pushSize s 0x4E (p + 1) = (size, p + 1 + 4) := by
    rw [← load_of_holds hrest (by omega)]
    rfl
  rw [showFrom, if_pos hp]
  dsimp only
  rw [hc, if_pos (by decide), hsize, if_pos hlt, List.drop_one, List.tail_cons,
    leNat_leBytes 4 size (by omega)]
  simp [Dump.append, pushWidth]

theorem hexDumpLines_congr {size : Nat} (h : ∀ i : Nat, i < size → s (p + i) = t (p + i))
    (indent : List UInt8) (offset : Nat) :
    hexDumpLines s p size indent offset = hexDumpLines t p size indent offset := by
  fun_induction hexDumpLines s p size indent offset with
  | case1 offset hlt ih =>
    have hread : read s (p + offset) (min 16 (size - offset)) =
        read t (p + offset) (min 16 (size - offset)) := by
      refine read_congr fun i hi => ?_
      have hi' := h (offset + i) (by omega)
      rwa [show p + ((offset + i : Nat) : Int) = p + offset + i by push_cast; ring] at hi'
    rw [hexDumpLines.eq_def t, if_pos hlt, hread, ih]
  | case2 offset hge => rw [hexDumpLines, if_neg hge]

theorem showData_congr {size : Nat} (h : read s p size = read t p size) :
    showData s header showAscii first p size = showData t header showAscii first p size := by
  have hbytes : ∀ i : Nat, i < size → s (p + i) = t (p + i) := by
    intro i hi
    have hs := getElem?_read s p size i hi
    rw [h, getElem?_read t p size i hi] at hs
    exact (Option.some.inj hs).symm
  unfold showData showHex canonicalHexDump
  rw [h, hexDumpLines_congr hbytes]

theorem showData_reads (s : ScriptPtr) (p : Int) (size : Nat) :
    ∀ i, i ∈ (showData s header showAscii first p size).reads ↔ i ∈ span p size := by
  intro i
  unfold showData showHex canonicalHexDump Dump.append
  cases showAscii with
  | false => simp
  | true => simp

/-- A script of complete pieces is printed from the bytes it has, in every memory. -/
theorem showFrom_items {items : List Item} {tail : List UInt8} (htail : Ending tail)
    (hs : Holds s p (items.flatMap Item.encode ++ tail))
    (ht : Holds t p (items.flatMap Item.encode ++ tail)) (hp : 0 ≤ p)
    (hn : p + (items.flatMap Item.encode ++ tail).length = n) :
    showFrom s n header indent showAscii first p = showFrom t n header indent showAscii first p ∧
      ∀ i ∈ (showFrom s n header indent showAscii first p).reads, 0 ≤ i ∧ i < n := by
  induction items generalizing first p with
  | nil =>
    rw [List.flatMap_nil, List.nil_append] at hs ht hn
    cases htail with
    | inl hnil =>
      rw [hnil, List.length_nil] at hn
      rw [showFrom_end (by omega), showFrom_end (by omega)]
      exact ⟨rfl, by simp⟩
    | inr hjunk =>
      obtain ⟨junk, rest, hbig, rfl⟩ := hjunk
      have hlen := hbig.length_eq
      rw [List.length_append, hlen] at hn
      have hshow : ∀ u : ScriptPtr, Holds u p (junk ++ rest) →
          showFrom u n header indent showAscii first p =
            ⟨pushLine indent (leNat (junk.drop 1)) ++ weirdLine, p :: span (p + 1) 4⟩ :=
        fun u hu => showFrom_big hbig (by omega) (holds_append.mp hu).1
      rw [hshow s hs, hshow t ht]
      refine ⟨rfl, ?_⟩
      intro i hi
      cases List.mem_cons.mp hi with
      | inl hi => omega
      | inr hi => exact span_inside (by omega) (by omega) i hi
  | cons item items ih =>
    rw [List.flatMap_cons, List.append_assoc] at hs ht hn
    rw [List.length_append] at hn
    obtain ⟨hs1, hs2⟩ := holds_append.mp hs
    obtain ⟨ht1, ht2⟩ := holds_append.mp ht
    cases item with
    | op c hc =>
      have hlen : (Item.op c hc).encode.length = 1 := rfl
      rw [hlen] at hs2 ht2 hn
      have hshow : ∀ u : ScriptPtr, Holds u p [c] →
          showFrom u n header indent showAscii first p =
            Dump.append ⟨opcodeLine header indent first c, [p]⟩
              (showFrom u n header indent showAscii false (p + 1)) := by
        intro u hu
        obtain ⟨huc, -⟩ := holds_cons.mp hu
        rw [showFrom_op (by omega) (by rwa [huc]), huc]
      obtain ⟨heq, hreads⟩ := @ih _ false hs2 ht2 (by omega) (by omega)
      rw [show p + ((1 : Nat) : Int) = p + 1 from rfl] at heq hreads
      rw [hshow s hs1, hshow t ht1, heq]
      refine ⟨rfl, ?_⟩
      intro i hi
      cases List.mem_append.mp hi with
      | inl hi =>
        have hip := List.mem_singleton.mp hi
        omega
      | inr hi =>
        rw [← heq] at hi
        exact hreads i hi
    | push k =>
      have hlen := k.length_encode
      have hk : (Item.push k).encode = k.encode := rfl
      rw [hk] at hs1 hs2 ht1 ht2 hn
      obtain ⟨heq, hreads⟩ := @ih _ false hs2 ht2 (by omega) (by omega)
      have hdata : ∀ u : ScriptPtr, Holds u p k.encode →
          read u (p + 1 + pushWidth k.opcode) k.data.length = k.data := by
        intro u hu
        have hrest := (holds_append.mp (holds_cons.mp hu).2).2
        rwa [length_leBytes] at hrest
      rw [showFrom_push k (by omega) hs1, showFrom_push k (by omega) ht1, heq,
        showData_congr ((hdata s hs1).trans (hdata t ht1).symm)]
      refine ⟨rfl, ?_⟩
      intro i hi
      cases List.mem_append.mp hi with
      | inl hi =>
        cases List.mem_append.mp hi with
        | inl hi =>
          cases List.mem_cons.mp hi with
          | inl hi => omega
          | inr hi => exact span_inside (by omega) (by omega) i hi
        | inr hi =>
          exact span_inside (by omega) (by omega) i ((showData_reads t _ _ i).mp hi)
      | inr hi =>
        rw [← heq] at hi
        exact hreads i hi

theorem Complete.cons {script : List UInt8} (item : Item) (h : Complete script) :
    Complete (item.encode ++ script) := by
  obtain ⟨items, tail, htail, rfl⟩ := h
  refine ⟨item :: items, tail, htail, ?_⟩
  rw [List.flatMap_cons, List.append_assoc]

/-- What stands at the cursor, and what stands behind it. -/
theorem read_split {bs : List UInt8} (h : Holds s p bs) (hn : p + bs.length ≤ n) :
    read s p (n - p).toNat =
      bs ++ read s (p + bs.length) (n - (p + bs.length)).toNat := by
  have hlen : (n - p).toNat = bs.length + (n - (p + bs.length)).toNat := by omega
  rw [hlen, read_add, h]

/-- A script that is printed from its own bytes is made of complete pieces. -/
theorem complete_of_reads (hn : p ≤ n)
    (h : ∀ i ∈ (showFrom s n header indent showAscii first p).reads, i < n) :
    Complete (read s p (n - p).toNat) := by
  fun_induction showFrom s n header indent showAscii first p with
  | case1 first p hp c himm size head hbig =>
    obtain ⟨junk, hjunk, hhold⟩ := exists_bigHead himm hbig
    have hc : s p = 0x4E := pushSize_big himm hbig
    have hwidth : pushWidth (s p) = 4 := by
      rw [hc]
      rfl
    have hend : p + 1 + ((pushWidth (s p) : Nat) : Int) ≤ n := by
      refine span_le (fun i hi => h i ?_) (by omega)
      exact List.mem_append_left _ (List.mem_cons_of_mem p hi)
    have hlen := hjunk.length_eq
    rw [read_split hhold (by omega)]
    exact ⟨[], _, Or.inr ⟨junk, _, hjunk, rfl⟩, rfl⟩
  | case2 first p hp c himm size head hbig ih =>
    obtain ⟨k, hk⟩ := exists_keyPush ((getOpPushData_ok himm).mpr (Nat.le_of_not_lt hbig))
    obtain ⟨hc, hrest⟩ := holds_cons.mp hk
    have hsize : size = (k.data.length, p + 1 + pushWidth k.opcode) := by
      refine Prod.ext ?_ ?_
      · show (pushSize s (s p) (p + 1)).1 = k.data.length
        rw [hc]
        exact k.pushSize_eq (holds_append.mp hrest).1
      · show (pushSize s (s p) (p + 1)).2 = p + 1 + pushWidth k.opcode
        rw [hc, pushSize_snd]
    have hlen := k.length_encode
    have hwidth : p + 1 + ((pushWidth (s p) : Nat) : Int) ≤ n := by
      refine span_le (fun i hi => h i ?_) (by omega)
      exact List.mem_append_left _ (List.mem_append_left _ (List.mem_cons_of_mem p hi))
    rw [hsize] at h ih
    dsimp only at h ih
    have hdata : p + 1 + (pushWidth k.opcode : Int) + k.data.length ≤ n := by
      rw [hc] at hwidth
      refine span_le (fun i hi => h i ?_) hwidth
      exact List.mem_append_left _ (List.mem_append_right _ ((showData_reads s _ _ i).mpr hi))
    have hend : p + 1 + (pushWidth k.opcode : Int) + k.data.length = p + k.encode.length := by
      omega
    rw [hend] at h ih hdata
    rw [read_split hk hdata]
    refine Complete.cons (.push k) (ih hdata ?_)
    intro i hi
    exact h i (List.mem_append_right _ hi)
  | case3 first p hp c himm ih =>
    have hop : Holds s p [s p] := rfl
    rw [read_split hop (by simp; omega)]
    refine Complete.cons (.op (s p) himm) (ih (by omega) ?_)
    intro i hi
    exact h i (List.mem_append_right _ hi)
  | case4 first p hp =>
    rw [show (n - p).toNat = 0 by omega]
    exact ⟨[], [], Or.inl rfl, rfl⟩

end

/-- showScript reads the bytes of the script only, and prints the same whatever lies
around it. -/
def Inside (s : ScriptPtr) (scriptSize : Nat) (header indent : Option (List UInt8))
    (showAscii : Bool) : Prop :=
  (∀ i ∈ (showScript s scriptSize header indent showAscii).reads, 0 ≤ i ∧ i < scriptSize) ∧
  ∀ t, Agree scriptSize s t → (showScript t scriptSize header indent showAscii).text =
    (showScript s scriptSize header indent showAscii).text

/-- A script is printed from itself exactly when it is made of complete pieces, up to a
push that is too big. -/
theorem inside_iff (s : ScriptPtr) (scriptSize : Nat) (header indent : Option (List UInt8))
    (showAscii : Bool) : Inside s scriptSize header indent showAscii ↔
      Complete (read s 0 scriptSize) := by
  constructor
  · intro h
    have hall := complete_of_reads (Int.natCast_nonneg scriptSize) fun i hi => (h.1 i hi).2
    simpa using hall
  · intro h
    obtain ⟨items, tail, htail, heq⟩ := h
    have hlen := congrArg List.length heq
    rw [length_read] at hlen
    have hs : Holds s 0 (List.flatMap Item.encode items ++ tail) := by
      rw [Holds, ← hlen, heq]
    refine ⟨?_, ?_⟩
    · exact (showFrom_items htail hs hs (Int.le_refl 0) (by omega)).2
    · intro t ht
      have hread := ht.read (Int.le_refl 0) (show (0 : Int) + scriptSize ≤ scriptSize by omega)
      have hst : Holds t 0 (List.flatMap Item.encode items ++ tail) := by
        rw [Holds, ← hlen, ← hread, heq]
      exact congrArg Dump.text
        (showFrom_items htail hst hs (Int.le_refl 0) (by omega)).1

/-- The data of a push at the cursor is read, wherever it lies. -/
theorem mem_reads_of_push {s : ScriptPtr} {n p : Int} {header indent : Option (List UInt8)}
    {showAscii first : Bool} (hp : p < n) (himm : isImmediate (s p))
    (hsmall : (pushSize s (s p) (p + 1)).1 ≤ 512 * 1024) :
    ∀ i ∈ span (pushSize s (s p) (p + 1)).2 (pushSize s (s p) (p + 1)).1,
      i ∈ (showFrom s n header indent showAscii first p).reads := by
  intro i hi
  rw [showFrom, if_pos hp]
  dsimp only
  rw [if_pos himm, if_neg (by omega)]
  exact List.mem_append_left _ (List.mem_append_right _ ((showData_reads s _ _ i).mpr hi))

/-- A script of one byte that announces two. -/
theorem not_inside_cut : ¬Inside (surrounded [2] 0) 1 none none false := by
  intro h
  have hone : (1 : Int) ∈ (showScript (surrounded [2] 0) 1 none none false).reads :=
    mem_reads_of_push (by decide) (by decide) (by decide) 1 (mem_span.mpr (by decide))
  exact absurd (h.1 1 hone).2 (by decide)

end Blockparser.ShowScript
