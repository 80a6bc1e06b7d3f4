import Blockparser.HashContext
import Blockparser.Lib.Roots
import Blockparser.Script

/-! CRIPEMD160. Its Transform is 160 lines, two independent halves taken in turn, in which the
registers change their names from one line to the next. -/
namespace Blockparser.CRIPEMD160
open HashContext

def f1 (x y z : UInt32) : UInt32 := x ^^^ y ^^^ z

def f2 (x y z : UInt32) : UInt32 := (x &&& y) ||| (~~~x &&& z)

def f3 (x y z : UInt32) : UInt32 := (x ||| ~~~y) ^^^ z

def f4 (x y z : UInt32) : UInt32 := (x &&& z) ||| (y &&& ~~~z)

def f5 (x y z : UInt32) : UInt32 := x ^^^ (y ||| ~~~z)

abbrev Words := Vector UInt32 5

def initialState : Words := #v[0x67452301, 0xEFCDAB89, 0x98BADCFE, 0x10325476, 0xC3D2E1F0]

def rol (x : UInt32) (i : Nat) : UInt32 := x <<< UInt32.ofNat i ||| x >>> UInt32.ofNat (32 - i)

def readLE32 (chunk : List UInt8) (offset : Nat) : UInt32 :=
  UInt32.ofNat (Bytes.leNat ((chunk.drop offset).take 4))

inductive Op
  | R11 | R21 | R31 | R41 | R51
  | R12 | R22 | R32 | R42 | R52
deriving DecidableEq

/-- The function an R passes to Round, and its constant. -/
def Op.f : Op → UInt32 → UInt32 → UInt32 → UInt32
  | .R11 => f1
  | .R21 => f2
  | .R31 => f3
  | .R41 => f4
  | .R51 => f5
  | .R12 => f5
  | .R22 => f4
  | .R32 => f3
  | .R42 => f2
  | .R52 => f1

def Op.k : Op → UInt32
  | .R11 => 0
  | .R21 => 0x5A827999
  | .R31 => 0x6ED9EBA1
  | .R41 => 0x8F1BBCDC
  | .R51 => 0xA953FD4E
  | .R12 => 0x50A28BE6
  | .R22 => 0x5C4DD124
  | .R32 => 0x6D703EF3
  | .R42 => 0x7A6D76E9
  | .R52 => 0

/-- Whether the registers are a2 to e2. -/
def Op.second : Op → Bool
  | .R11 | .R21 | .R31 | .R41 | .R51 => false
  | .R12 | .R22 | .R32 | .R42 | .R52 => true

/-- The arguments of one R: the registers by name, the word, the places to rotate. -/
structure Line where
  op : Op
  a : Fin 5
  b : Fin 5
  c : Fin 5
  d : Fin 5
  e : Fin 5
  w : Fin 16
  r : Nat
deriving DecidableEq

/-- The registers a1 to e1 and a2 to e2. -/
structure Machine where
  r1 : Words
  r2 : Words

def round (l : Line) (x : UInt32) (r : Words) : Words :=
  let f := l.op.f (r.get l.b) (r.get l.c) (r.get l.d)
  let r := r.set l.a (rol (r.get l.a + f + x + l.op.k) l.r + r.get l.e)
  r.set l.c (rol (r.get l.c) 10)

def Line.run (chunk : List UInt8) (m : Machine) (l : Line) : Machine :=
  let x := readLE32 chunk (4 * l.w)
  if l.op.second then { m with r2 := round l x m.r2 } else { m with r1 := round l x m.r1 }

def lines : List Line :=
  let a : Fin 5 := 0
  let b : Fin 5 := 1
  let c : Fin 5 := 2
  let d : Fin 5 := 3
  let e : Fin 5 := 4
  [⟨.R11, a, b, c, d, e, 0, 11⟩, ⟨.R12, a, b, c, d, e, 5, 8⟩,
   ⟨.R11, e, a, b, c, d, 1, 14⟩, ⟨.R12, e, a, b, c, d, 14, 9⟩,
   ⟨.R11, d, e, a, b, c, 2, 15⟩, ⟨.R12, d, e, a, b, c, 7, 9⟩,
   ⟨.R11, c, d, e, a, b, 3, 12⟩, ⟨.R12, c, d, e, a, b, 0, 11⟩,
   ⟨.R11, b, c, d, e, a, 4, 5⟩, ⟨.R12, b, c, d, e, a, 9, 13⟩,
   ⟨.R11, a, b, c, d, e, 5, 8⟩, ⟨.R12, a, b, c, d, e, 2, 15⟩,
   ⟨.R11, e, a, b, c, d, 6, 7⟩, ⟨.R12, e, a, b, c, d, 11, 15⟩,
   ⟨.R11, d, e, a, b, c, 7, 9⟩, ⟨.R12, d, e, a, b, c, 4, 5⟩,
   ⟨.R11, c, d, e, a, b, 8, 11⟩, ⟨.R12, c, d, e, a, b, 13, 7⟩,
   ⟨.R11, b, c, d, e, a, 9, 13⟩, ⟨.R12, b, c, d, e, a, 6, 7⟩,
   ⟨.R11, a, b, c, d, e, 10, 14⟩, ⟨.R12, a, b, c, d, e, 15, 8⟩,
   ⟨.R11, e, a, b, c, d, 11, 15⟩, ⟨.R12, e, a, b, c, d, 8, 11⟩,
   ⟨.R11, d, e, a, b, c, 12, 6⟩, ⟨.R12, d, e, a, b, c, 1, 14⟩,
   ⟨.R11, c, d, e, a, b, 13, 7⟩, ⟨.R12, c, d, e, a, b, 10, 14⟩,
   ⟨.R11, b, c, d, e, a, 14, 9⟩, ⟨.R12, b, c, d, e, a, 3, 12⟩,
   ⟨.R11, a, b, c, d, e, 15, 8⟩, ⟨.R12, a, b, c, d, e, 12, 6⟩,
   ⟨.R21, e, a, b, c, d, 7, 7⟩, ⟨.R22, e, a, b, c, d, 6, 9⟩,
   ⟨.R21, d, e, a, b, c, 4, 6⟩, ⟨.R22, d, e, a, b, c, 11, 13⟩,
   ⟨.R21, c, d, e, a, b, 13, 8⟩, ⟨.R22, c, d, e, a, b, 3, 15⟩,
   ⟨.R21, b, c, d, e, a, 1, 13⟩, ⟨.R22, b, c, d, e, a, 7, 7⟩,
   ⟨.R21, a, b, c, d, e, 10, 11⟩, ⟨.R22, a, b, c, d, e, 0, 12⟩,
   ⟨.R21, e, a, b, c, d, 6, 9⟩, ⟨.R22, e, a, b, c, d, 13, 8⟩,
   ⟨.R21, d, e, a, b, c, 15, 7⟩, ⟨.R22, d, e, a, b, c, 5, 9⟩,
   ⟨.R21, c, d, e, a, b, 3, 15⟩, ⟨.R22, c, d, e, a, b, 10, 11⟩,
   ⟨.R21, b, c, d, e, a, 12, 7⟩, ⟨.R22, b, c, d, e, a, 14, 7⟩,
   ⟨.R21, a, b, c, d, e, 0, 12⟩, ⟨.R22, a, b, c, d, e, 15, 7⟩,
   ⟨.R21, e, a, b, c, d, 9, 15⟩, ⟨.R22, e, a, b, c, d, 8, 12⟩,
   ⟨.R21, d, e, a, b, c, 5, 9⟩, ⟨.R22, d, e, a, b, c, 12, 7⟩,
   ⟨.R21, c, d, e, a, b, 2, 11⟩, ⟨.R22, c, d, e, a, b, 4, 6⟩,
   ⟨.R21, b, c, d, e, a, 14, 7⟩, ⟨.R22, b, c, d, e, a, 9, 15⟩,
   ⟨.R21, a, b, c, d, e, 11, 13⟩, ⟨.R22, a, b, c, d, e, 1, 13⟩,
   ⟨.R21, e, a, b, c, d, 8, 12⟩, ⟨.R22, e, a, b, c, d, 2, 11⟩,
   ⟨.R31, d, e, a, b, c, 3, 11⟩, ⟨.R32, d, e, a, b, c, 15, 9⟩,
   ⟨.R31, c, d, e, a, b, 10, 13⟩, ⟨.R32, c, d, e, a, b, 5, 7⟩,
   ⟨.R31, b, c, d, e, a, 14, 6⟩, ⟨.R32, b, c, d, e, a, 1, 15⟩,
   ⟨.R31, a, b, c, d, e, 4, 7⟩, ⟨.R32, a, b, c, d, e, 3, 11⟩,
   ⟨.R31, e, a, b, c, d, 9, 14⟩, ⟨.R32, e, a, b, c, d, 7, 8⟩,
   ⟨.R31, d, e, a, b, c, 15, 9⟩, ⟨.R32, d, e, a, b, c, 14, 6⟩,
   ⟨.R31, c, d, e, a, b, 8, 13⟩, ⟨.R32, c, d, e, a, b, 6, 6⟩,
   ⟨.R31, b, c, d, e, a, 1, 15⟩, ⟨.R32, b, c, d, e, a, 9, 14⟩,
   ⟨.R31, a, b, c, d, e, 2, 14⟩, ⟨.R32, a, b, c, d, e, 11, 12⟩,
   ⟨.R31, e, a, b, c, d, 7, 8⟩, ⟨.R32, e, a, b, c, d, 8, 13⟩,
   ⟨.R31, d, e, a, b, c, 0, 13⟩, ⟨.R32, d, e, a, b, c, 12, 5⟩,
   ⟨.R31, c, d, e, a, b, 6, 6⟩, ⟨.R32, c, d, e, a, b, 2, 14⟩,
   ⟨.R31, b, c, d, e, a, 13, 5⟩, ⟨.R32, b, c, d, e, a, 10, 13⟩,
   ⟨.R31, a, b, c, d, e, 11, 12⟩, ⟨.R32, a, b, c, d, e, 0, 13⟩,
   ⟨.R31, e, a, b, c, d, 5, 7⟩, ⟨.R32, e, a, b, c, d, 4, 7⟩,
   ⟨.R31, d, e, a, b, c, 12, 5⟩, ⟨.R32, d, e, a, b, c, 13, 5⟩,
   ⟨.R41, c, d, e, a, b, 1, 11⟩, ⟨.R42, c, d, e, a, b, 8, 15⟩,
   ⟨.R41, b, c, d, e, a, 9, 12⟩, ⟨.R42, b, c, d, e, a, 6, 5⟩,
   ⟨.R41, a, b, c, d, e, 11, 14⟩, ⟨.R42, a, b, c, d, e, 4, 8⟩,
   ⟨.R41, e, a, b, c, d, 10, 15⟩, ⟨.R42, e, a, b, c, d, 1, 11⟩,
   ⟨.R41, d, e, a, b, c, 0, 14⟩, ⟨.R42, d, e, a, b, c, 3, 14⟩,
   ⟨.R41, c, d, e, a, b, 8, 15⟩, ⟨.R42, c, d, e, a, b, 11, 14⟩,
   ⟨.R41, b, c, d, e, a, 12, 9⟩, ⟨.R42, b, c, d, e, a, 15, 6⟩,
   ⟨.R41, a, b, c, d, e, 4, 8⟩, ⟨.R42, a, b, c, d, e, 0, 14⟩,
   ⟨.R41, e, a, b, c, d, 13, 9⟩, ⟨.R42, e, a, b, c, d, 5, 6⟩,
   ⟨.R41, d, e, a, b, c, 3, 14⟩, ⟨.R42, d, e, a, b, c, 12, 9⟩,
   ⟨.R41, c, d, e, a, b, 7, 5⟩, ⟨.R42, c, d, e, a, b, 2, 12⟩,
   ⟨.R41, b, c, d, e, a, 15, 6⟩, ⟨.R42, b, c, d, e, a, 13, 9⟩,
   ⟨.R41, a, b, c, d, e, 14, 8⟩, ⟨.R42, a, b, c, d, e, 9, 12⟩,
   ⟨.R41, e, a, b, c, d, 5, 6⟩, ⟨.R42, e, a, b, c, d, 7, 5⟩,
   ⟨.R41, d, e, a, b, c, 6, 5⟩, ⟨.R42, d, e, a, b, c, 10, 15⟩,
   ⟨.R41, c, d, e, a, b, 2, 12⟩, ⟨.R42, c, d, e, a, b, 14, 8⟩,
   ⟨.R51, b, c, d, e, a, 4, 9⟩, ⟨.R52, b, c, d, e, a, 12, 8⟩,
   ⟨.R51, a, b, c, d, e, 0, 15⟩, ⟨.R52, a, b, c, d, e, 15, 5⟩,
   ⟨.R51, e, a, b, c, d, 5, 5⟩, ⟨.R52, e, a, b, c, d, 10, 12⟩,
   ⟨.R51, d, e, a, b, c, 9, 11⟩, ⟨.R52, d, e, a, b, c, 4, 9⟩,
   ⟨.R51, c, d, e, a, b, 7, 6⟩, ⟨.R52, c, d, e, a, b, 1, 12⟩,
   ⟨.R51, b, c, d, e, a, 12, 8⟩, ⟨.R52, b, c, d, e, a, 5, 5⟩,
   ⟨.R51, a, b, c, d, e, 2, 13⟩, ⟨.R52, a, b, c, d, e, 8, 14⟩,
   ⟨.R51, e, a, b, c, d, 10, 12⟩, ⟨.R52, e, a, b, c, d, 7, 6⟩,
   ⟨.R51, d, e, a, b, c, 14, 5⟩, ⟨.R52, d, e, a, b, c, 6, 8⟩,
   ⟨.R51, c, d, e, a, b, 1, 12⟩, ⟨.R52, c, d, e, a, b, 2, 13⟩,
   ⟨.R51, b, c, d, e, a, 3, 13⟩, ⟨.R52, b, c, d, e, a, 13, 6⟩,
   ⟨.R51, a, b, c, d, e, 8, 14⟩, ⟨.R52, a, b, c, d, e, 14, 5⟩,
   ⟨.R51, e, a, b, c, d, 11, 11⟩, ⟨.R52, e, a, b, c, d, 0, 15⟩,
   ⟨.R51, d, e, a, b, c, 6, 8⟩, ⟨.R52, d, e, a, b, c, 3, 13⟩,
   ⟨.R51, c, d, e, a, b, 15, 5⟩, ⟨.R52, c, d, e, a, b, 9, 11⟩,
   ⟨.R51, b, c, d, e, a, 13, 6⟩, ⟨.R52, b, c, d, e, a, 11, 11⟩]

/-- The state after a chunk, of the state before it and the registers of both halves. -/
def combine (s r1 r2 : Words) : Words :=
  #v[s[1] + r1[2] + r2[3], s[2] + r1[3] + r2[4], s[3] + r1[4] + r2[0], s[4] + r1[0] + r2[1],
    s[0] + r1[1] + r2[2]]

def transform (s : Words) (chunk : List UInt8) : Words :=
  let m := lines.foldl (Line.run chunk) ⟨s, s⟩
  combine s m.r1 m.r2

def writeLE64 (x : Nat) : List UInt8 := Bytes.leBytes 8 x

def writeLE32 (x : UInt32) : List UInt8 := Bytes.leBytes 4 x.toNat

def output (s : Words) : List UInt8 := s.toList.flatMap writeLE32

def hasher : Hasher Words where
  initial := initialState
  transform := transform
  writeSize := writeLE64
  output := output

/-- rmd160 of rmd160.cpp; `buf` is what the object's memory held before. -/
def rmd160 (buf data : List UInt8) : List UInt8 :=
  finalize hasher (write hasher (construct hasher buf) data)

/- RIPEMD-160 as it is defined. -/
section Definition

def rotl (x : UInt32) (n : Nat) : UInt32 := ⟨x.toBitVec.rotateLeft n⟩

/-- The order of the words changes by this permutation from one group of rounds to the next. -/
def rho (i : Fin 16) : Fin 16 :=
  #v[7, 4, 13, 1, 10, 6, 15, 3, 12, 0, 9, 5, 2, 14, 11, 8].get i

/-- The order in which the second half begins. -/
def pi (i : Fin 16) : Fin 16 := 9 * i + 5

def wordOf (second : Bool) (t : Nat) : Fin 16 :=
  let i := Fin.ofNat 16 t
  Nat.iterate rho (t / 16) (if second then pi i else i)

/-- How far to rotate: by group and word, the same in both halves. -/
def amounts : List (List Nat) :=
  [[11, 14, 15, 12, 5, 8, 7, 9, 11, 13, 14, 15, 6, 7, 9, 8],
   [12, 13, 11, 15, 6, 9, 9, 7, 12, 15, 11, 13, 7, 8, 7, 7],
   [13, 15, 14, 11, 7, 7, 6, 8, 13, 14, 13, 12, 5, 5, 6, 9],
   [14, 11, 12, 14, 8, 6, 5, 5, 15, 12, 15, 14, 9, 9, 8, 6],
   [15, 12, 13, 13, 9, 5, 8, 6, 14, 11, 12, 11, 8, 6, 5, 5]]

def amount (second : Bool) (t : Nat) : Nat :=
  (amounts.getD (t / 16) []).getD (wordOf second t) 0

/-- Square roots of primes in the first half, cube roots in the second, and a group without. -/
def constant (second : Bool) (t : Nat) : UInt32 :=
  let group := t / 16
  let root := if second then Roots.digits 3 ([2, 3, 5, 7].getD group 0) 30 40
    else Roots.digits 2 ([2, 3, 5, 7].getD (group - 1) 0) 30 40
  if group = (if second then 4 else 0) then 0 else UInt32.ofNat root

def mix (second : Bool) (t : Nat) : UInt32 → UInt32 → UInt32 → UInt32 :=
  match (if second then 4 - t / 16 else t / 16) with
  | 0 => f1
  | 1 => f2
  | 2 => f3
  | 3 => f4
  | _ => f5

def oneRound (second : Bool) (chunk : List UInt8) (t : Nat) (v : Words) : Words :=
  let x := readLE32 chunk (4 * wordOf second t)
  let y := rotl (v[0] + mix second t v[1] v[2] v[3] + x + constant second t) (amount second t) + v[4]
  #v[v[4], y, v[1], rotl v[2] 10, v[3]]

def rounds (second : Bool) (chunk : List UInt8) (s : Words) : Nat → Words
  | 0 => s
  | t + 1 => oneRound second chunk t (rounds second chunk s t)

def compress (s : Words) (chunk : List UInt8) : Words :=
  combine s (rounds false chunk s 80) (rounds true chunk s 80)

/-- The digest of a message: its bits, a one, zeros up to whole blocks, its length. -/
def digest (msg : List UInt8) : List UInt8 :=
  output (BlockHash.blocks compress 64 initialState
    (BlockHash.padded 64 0x80 0 (Bytes.leBytes 8 (8 * msg.length % 2 ^ 64)) msg))

end Definition

end Blockparser.CRIPEMD160
