import Blockparser.HashContext
import Blockparser.Lib.Roots

/-! CSHA256. Its Transform is 64 lines in which the registers change their names from one line
to the next and sixteen words stand for the whole schedule. -/
namespace Blockparser.CSHA256
open HashContext

def Ch (x y z : UInt32) : UInt32 := z ^^^ (x &&& (y ^^^ z))

def Maj (x y z : UInt32) : UInt32 := (x &&& y) ||| (z &&& (x ||| y))

def Sigma0 (x : UInt32) : UInt32 :=
  (x >>> 2 ||| x <<< 30) ^^^ (x >>> 13 ||| x <<< 19) ^^^ (x >>> 22 ||| x <<< 10)

def Sigma1 (x : UInt32) : UInt32 :=
  (x >>> 6 ||| x <<< 26) ^^^ (x >>> 11 ||| x <<< 21) ^^^ (x >>> 25 ||| x <<< 7)

def sigma0 (x : UInt32) : UInt32 := (x >>> 7 ||| x <<< 25) ^^^ (x >>> 18 ||| x <<< 14) ^^^ (x >>> 3)

def sigma1 (x : UInt32) : UInt32 := (x >>> 17 ||| x <<< 15) ^^^ (x >>> 19 ||| x <<< 13) ^^^ (x >>> 10)

def readBE32 (chunk : List UInt8) (offset : Nat) : UInt32 :=
  UInt32.ofNat (Mpi.beNat ((chunk.drop offset).take 4))

abbrev Words := Vector UInt32 8

def initialState : Words :=
  #v[0x6a09e667, 0xbb67ae85, 0x3c6ef372, 0xa54ff53a, 0x510e527f, 0x9b05688c, 0x1f83d9ab, 0x5be0cd19]

/-- The last argument of Round: wi = ReadBE32(chunk + o), wi += sigma1(wj) + wk + sigma0(wl),
and in the last two lines the same sum without a store. -/
inductive Word
  | read (i : Fin 16) (o : Nat)
  | update (i j k l : Fin 16)
  | last (i j k l : Fin 16)
deriving DecidableEq

/-- The arguments of Round, the registers by name. -/
structure Line where
  a : Fin 8
  b : Fin 8
  c : Fin 8
  d : Fin 8
  e : Fin 8
  f : Fin 8
  g : Fin 8
  h : Fin 8
  k : UInt32
  w : Word
deriving DecidableEq

/-- The registers a to h and the words w0 to w15. -/
structure Machine where
  r : Words
  w : Vector UInt32 16

def Word.eval (chunk : List UInt8) (w : Vector UInt32 16) : Word → UInt32
  | .read _ o => readBE32 chunk o
  | .update i j k l => w.get i + (sigma1 (w.get j) + w.get k + sigma0 (w.get l))
  | .last i j k l => w.get i + sigma1 (w.get j) + w.get k + sigma0 (w.get l)

def Word.store (w : Vector UInt32 16) (x : UInt32) : Word → Vector UInt32 16
  | .read i _ => w.set i x
  | .update i _ _ _ => w.set i x
  | .last _ _ _ _ => w

def round (l : Line) (w : UInt32) (r : Words) : Words :=
  let t1 := r.get l.h + Sigma1 (r.get l.e) + Ch (r.get l.e) (r.get l.f) (r.get l.g) + l.k + w
  let t2 := Sigma0 (r.get l.a) + Maj (r.get l.a) (r.get l.b) (r.get l.c)
  let r := r.set l.d (r.get l.d + t1)
  r.set l.h (t1 + t2)

def Line.run (chunk : List UInt8) (m : Machine) (l : Line) : Machine :=
  let x := l.w.eval chunk m.w
  ⟨round l x m.r, l.w.store m.w x⟩

def lines : List Line :=
  let a : Fin 8 := 0
  let b : Fin 8 := 1
  let c : Fin 8 := 2
  let d : Fin 8 := 3
  let e : Fin 8 := 4
  let f : Fin 8 := 5
  let g : Fin 8 := 6
  let h : Fin 8 := 7
  [⟨a, b, c, d, e, f, g, h, 0x428a2f98, .read 0 0⟩,
   ⟨h, a, b, c, d, e, f, g, 0x71374491, .read 1 4⟩,
   ⟨g, h, a, b, c, d, e, f, 0xb5c0fbcf, .read 2 8⟩,
   ⟨f, g, h, a, b, c, d, e, 0xe9b5dba5, .read 3 12⟩,
   ⟨e, f, g, h, a, b, c, d, 0x3956c25b, .read 4 16⟩,
   ⟨d, e, f, g, h, a, b, c, 0x59f111f1, .read 5 20⟩,
   ⟨c, d, e, f, g, h, a, b, 0x923f82a4, .read 6 24⟩,
   ⟨b, c, d, e, f, g, h, a, 0xab1c5ed5, .read 7 28⟩,
   ⟨a, b, c, d, e, f, g, h, 0xd807aa98, .read 8 32⟩,
   ⟨h, a, b, c, d, e, f, g, 0x12835b01, .read 9 36⟩,
   ⟨g, h, a, b, c, d, e, f, 0x243185be, .read 10 40⟩,
   ⟨f, g, h, a, b, c, d, e, 0x550c7dc3, .read 11 44⟩,
   ⟨e, f, g, h, a, b, c, d, 0x72be5d74, .read 12 48⟩,
   ⟨d, e, f, g, h, a, b, c, 0x80deb1fe, .read 13 52⟩,
   ⟨c, d, e, f, g, h, a, b, 0x9bdc06a7, .read 14 56⟩,
   ⟨b, c, d, e, f, g, h, a, 0xc19bf174, .read 15 60⟩,
   ⟨a, b, c, d, e, f, g, h, 0xe49b69c1, .update 0 14 9 1⟩,
   ⟨h, a, b, c, d, e, f, g, 0xefbe4786, .update 1 15 10 2⟩,
   ⟨g, h, a, b, c, d, e, f, 0x0fc19dc6, .update 2 0 11 3⟩,
   ⟨f, g, h, a, b, c, d, e, 0x240ca1cc, .update 3 1 12 4⟩,
   ⟨e, f, g, h, a, b, c, d, 0x2de92c6f, .update 4 2 13 5⟩,
   ⟨d, e, f, g, h, a, b, c, 0x4a7484aa, .update 5 3 14 6⟩,
   ⟨c, d, e, f, g, h, a, b, 0x5cb0a9dc, .update 6 4 15 7⟩,
   ⟨b, c, d, e, f, g, h, a, 0x76f988da, .update 7 5 0 8⟩,
   ⟨a, b, c, d, e, f, g, h, 0x983e5152, .update 8 6 1 9⟩,
   ⟨h, a, b, c, d, e, f, g, 0xa831c66d, .update 9 7 2 10⟩,
   ⟨g, h, a, b, c, d, e, f, 0xb00327c8, .update 10 8 3 11⟩,
   ⟨f, g, h, a, b, c, d, e, 0xbf597fc7, .update 11 9 4 12⟩,
   ⟨e, f, g, h, a, b, c, d, 0xc6e00bf3, .update 12 10 5 13⟩,
   ⟨d, e, f, g, h, a, b, c, 0xd5a79147, .update 13 11 6 14⟩,
   ⟨c, d, e, f, g, h, a, b, 0x06ca6351, .update 14 12 7 15⟩,
   ⟨b, c, d, e, f, g, h, a, 0x14292967, .update 15 13 8 0⟩,
   ⟨a, b, c, d, e, f, g, h, 0x27b70a85, .update 0 14 9 1⟩,
   ⟨h, a, b, c, d, e, f, g, 0x2e1b2138, .update 1 15 10 2⟩,
   ⟨g, h, a, b, c, d, e, f, 0x4d2c6dfc, .update 2 0 11 3⟩,
   ⟨f, g, h, a, b, c, d, e, 0x53380d13, .update 3 1 12 4⟩,
   ⟨e, f, g, h, a, b, c, d, 0x650a7354, .update 4 2 13 5⟩,
   ⟨d, e, f, g, h, a, b, c, 0x766a0abb, .update 5 3 14 6⟩,
   ⟨c, d, e, f, g, h, a, b, 0x81c2c92e, .update 6 4 15 7⟩,
   ⟨b, c, d, e, f, g, h, a, 0x92722c85, .update 7 5 0 8⟩,
   ⟨a, b, c, d, e, f, g, h, 0xa2bfe8a1, .update 8 6 1 9⟩,
   ⟨h, a, b, c, d, e, f, g, 0xa81a664b, .update 9 7 2 10⟩,
   ⟨g, h, a, b, c, d, e, f, 0xc24b8b70, .update 10 8 3 11⟩,
   ⟨f, g, h, a, b, c, d, e, 0xc76c51a3, .update 11 9 4 12⟩,
   ⟨e, f, g, h, a, b, c, d, 0xd192e819, .update 12 10 5 13⟩,
   ⟨d, e, f, g, h, a, b, c, 0xd6990624, .update 13 11 6 14⟩,
   ⟨c, d, e, f, g, h, a, b, 0xf40e3585, .update 14 12 7 15⟩,
   ⟨b, c, d, e, f, g, h, a, 0x106aa070, .update 15 13 8 0⟩,
   ⟨a, b, c, d, e, f, g, h, 0x19a4c116, .update 0 14 9 1⟩,
   ⟨h, a, b, c, d, e, f, g, 0x1e376c08, .update 1 15 10 2⟩,
   ⟨g, h, a, b, c, d, e, f, 0x2748774c, .update 2 0 11 3⟩,
   ⟨f, g, h, a, b, c, d, e, 0x34b0bcb5, .update 3 1 12 4⟩,
   ⟨e, f, g, h, a, b, c, d, 0x391c0cb3, .update 4 2 13 5⟩,
   ⟨d, e, f, g, h, a, b, c, 0x4ed8aa4a, .update 5 3 14 6⟩,
   ⟨c, d, e, f, g, h, a, b, 0x5b9cca4f, .update 6 4 15 7⟩,
   ⟨b, c, d, e, f, g, h, a, 0x682e6ff3, .update 7 5 0 8⟩,
   ⟨a, b, c, d, e, f, g, h, 0x748f82ee, .update 8 6 1 9⟩,
   ⟨h, a, b, c, d, e, f, g, 0x78a5636f, .update 9 7 2 10⟩,
   ⟨g, h, a, b, c, d, e, f, 0x84c87814, .update 10 8 3 11⟩,
   ⟨f, g, h, a, b, c, d, e, 0x8cc70208, .update 11 9 4 12⟩,
   ⟨e, f, g, h, a, b, c, d, 0x90befffa, .update 12 10 5 13⟩,
   ⟨d, e, f, g, h, a, b, c, 0xa4506ceb, .update 13 11 6 14⟩,
   ⟨c, d, e, f, g, h, a, b, 0xbef9a3f7, .last 14 12 7 15⟩,
   ⟨b, c, d, e, f, g, h, a, 0xc67178f2, .last 15 13 8 0⟩]

/-- w0 to w15 are not read before they are written. -/
def transform (s : Words) (chunk : List UInt8) : Words :=
  let m := lines.foldl (Line.run chunk) ⟨s, Vector.replicate 16 0⟩
  s.zipWith (· + ·) m.r

def writeBE64 (x : Nat) : List UInt8 := Mpi.beBytes 8 x

def writeBE32 (x : UInt32) : List UInt8 := Mpi.beBytes 4 x.toNat

def output (s : Words) : List UInt8 := s.toList.flatMap writeBE32

def hasher : Hasher Words where
  initial := initialState
  transform := transform
  writeSize := writeBE64
  output := output

/-- sha256 of sha256port.cpp; `buf` is what the object's memory held before. -/
def sha256 (buf data : List UInt8) : List UInt8 :=
  finalize hasher (write hasher (construct hasher buf) data)

/- SHA-256 as it is defined. -/
section Definition

def rotr (x : UInt32) (n : Nat) : UInt32 := ⟨x.toBitVec.rotateRight n⟩

def choose (x y z : UInt32) : UInt32 := (x &&& y) ^^^ (~~~x &&& z)

def majority (x y z : UInt32) : UInt32 := (x &&& y) ^^^ (x &&& z) ^^^ (y &&& z)

def primes : List Nat :=
  [2, 3, 5, 7, 11, 13, 17, 19, 23, 29, 31, 37, 41, 43, 47, 53, 59, 61, 67, 71, 73, 79, 83, 89,
   97, 101, 103, 107, 109, 113, 127, 131, 137, 139, 149, 151, 157, 163, 167, 173, 179, 181, 191,
   193, 197, 199, 211, 223, 227, 229, 233, 239, 241, 251, 257, 263, 269, 271, 277, 281, 283, 293,
   307, 311]

/-- 32 digits behind the point of the k-th root of a prime. -/
def fraction (k t : Nat) : UInt32 := UInt32.ofNat (Roots.digits k (primes.getD t 0) 32 40)

def schedule (chunk : List UInt8) (t : Nat) : UInt32 :=
  if t < 16 then readBE32 chunk (4 * t)
  else
    schedule chunk (t - 16) +
      ((rotr (schedule chunk (t - 2)) 17 ^^^ rotr (schedule chunk (t - 2)) 19 ^^^
          schedule chunk (t - 2) >>> 10) +
        schedule chunk (t - 7) +
        (rotr (schedule chunk (t - 15)) 7 ^^^ rotr (schedule chunk (t - 15)) 18 ^^^
          schedule chunk (t - 15) >>> 3))
termination_by t

def oneRound (k w : UInt32) (v : Words) : Words :=
  let t1 := v[7] + (rotr v[4] 6 ^^^ rotr v[4] 11 ^^^ rotr v[4] 25) + choose v[4] v[5] v[6] + k + w
  let t2 := (rotr v[0] 2 ^^^ rotr v[0] 13 ^^^ rotr v[0] 22) + majority v[0] v[1] v[2]
  #v[t1 + t2, v[0], v[1], v[2], v[3] + t1, v[4], v[5], v[6]]

def rounds (chunk : List UInt8) (s : Words) : Nat → Words
  | 0 => s
  | t + 1 => oneRound (fraction 3 t) (schedule chunk t) (rounds chunk s t)

def compress (s : Words) (chunk : List UInt8) : Words := s.zipWith (· + ·) (rounds chunk s 64)

/-- The digest of a message: its bits, a one, zeros up to whole blocks, its length. -/
def digest (msg : List UInt8) : List UInt8 :=
  output (BlockHash.blocks compress 64 (Vector.ofFn fun i => fraction 2 i)
    (BlockHash.padded 64 0x80 0 (Mpi.beBytes 8 (8 * msg.length % 2 ^ 64)) msg))

end Definition

end Blockparser.CSHA256
