import Blockparser.Lib.Probing
import Mathlib.Data.Nat.Log

/-! The tables the program keeps its transactions, blocks and addresses in, where it is
built with dense_hash_map: one array, whose cells are told apart by their keys alone. -/
namespace Blockparser
open Probing

/-- A table after set_empty_key. `delkey` is empty until set_deleted_key. -/
structure DenseHashtable (K V : Type) where
  enlargeThreshold : Nat
  shrinkThreshold : Nat
  considerShrink : Bool
  delkey : Option K
  numDeleted : Nat
  numElements : Nat
  emptyval : K × V
  table : List (K × V)

namespace DenseHashtable

/-- What stops the program. Keys are pointers: a danglingKey is one that is still in the table
when its bytes are given back. -/
inductive Fault
  | assertion
  | lengthError (what : String)
  | danglingKey

/-- The hasher of a table, how many values its allocator can hold, and whether it is built
without assertions. -/
structure Traits (K : Type) where
  hash : K → Nat
  maxSize : Nat
  ndebug : Bool

def minBucketsAllowed : Nat := 4

def defaultStartingBuckets : Nat := 32

def sizeTypeMax : Nat := 2 ^ 64 - 1

/- The factors are 50 / 100.0f and 20 / 100.0f, and a float has 24 bits. Numbers of buckets
are powers of two, for which the products are exact. -/
def enlargeSize (x : Nat) : Nat := x / 2

def shrinkFactorTimes2p26 : Nat := 13421773

def shrinkSize (x : Nat) : Nat := x * shrinkFactorTimes2p26 / 2 ^ 26

/-- The float a size_type turns into: the nearest one, of two as near the even one. -/
def asFloat (n : Nat) : Nat :=
  if n < 2 ^ 24 then n
  else
    let unit := 2 ^ (n.log2 - 23)
    let q := n / unit
    let r := n % unit
    (if unit < 2 * r ∨ (2 * r = unit ∧ q % 2 = 1) then q + 1 else q) * unit

def minBucketsFrom (numElts minBucketsWanted : Nat) : (fuel sz : Nat) → Except Fault Nat
  -- sz * 2 is 0 here
  | 0, _ => .error (.lengthError "resize overflow")
  | fuel + 1, sz =>
    if sz < minBucketsWanted ∨ enlargeSize sz ≤ numElts then
      minBucketsFrom numElts minBucketsWanted fuel (sz * 2)
    else .ok sz

def minBuckets (numElts minBucketsWanted : Nat) : Except Fault Nat :=
  minBucketsFrom numElts minBucketsWanted 62 minBucketsAllowed

variable {K V : Type}

def check (tr : Traits K) (b : Bool) : Except Fault Unit :=
  if b || tr.ndebug then .ok () else .error .assertion

def size (t : DenseHashtable K V) : Nat := t.numElements - t.numDeleted

def bucketCount (t : DenseHashtable K V) : Nat := t.table.length

def bucket (t : DenseHashtable K V) (pos : Nat) : K × V := t.table.getD pos t.emptyval

def setBucket (t : DenseHashtable K V) (pos : Nat) (obj : K × V) : DenseHashtable K V :=
  { t with table := t.table.set pos obj }

def resetThresholds (t : DenseHashtable K V) : DenseHashtable K V :=
  { t with
    enlargeThreshold := enlargeSize t.bucketCount
    shrinkThreshold := shrinkSize t.bucketCount
    considerShrink := false }

def clearToSize (t : DenseHashtable K V) (newNumBuckets : Nat) : DenseHashtable K V :=
  resetThresholds
    { t with
      table := List.replicate newNumBuckets t.emptyval
      numElements := 0
      numDeleted := 0 }

/-- A table as the constructor and set_empty_key make it. -/
def construct (expectedMaxItems : Nat) (emptyval : K × V) :
    Except Fault (DenseHashtable K V) := do
  let numBuckets ←
    if expectedMaxItems = 0 then .ok defaultStartingBuckets
    else minBuckets expectedMaxItems 0
  return resetThresholds
    { enlargeThreshold := 0
      shrinkThreshold := 0
      considerShrink := false
      delkey := none
      numDeleted := 0
      numElements := 0
      emptyval := emptyval
      table := List.replicate numBuckets emptyval }

variable [DecidableEq K]

def testEmpty (t : DenseHashtable K V) (pos : Nat) : Bool :=
  t.emptyval.1 = (t.bucket pos).1

def testDeleted (t : DenseHashtable K V) (pos : Nat) : Bool :=
  0 < t.numDeleted ∧ t.delkey = some (t.bucket pos).1

/-- What a loop from begin() to end() comes by. -/
def entries (t : DenseHashtable K V) : List (K × V) :=
  t.table.filter fun v =>
    ¬ t.emptyval.1 = v.1 ∧ ¬ (0 < t.numDeleted ∧ t.delkey = some v.1)

variable (tr : Traits K)

/-- The assertion of test_deleted. -/
def checkDeleted (t : DenseHashtable K V) : Except Fault Unit :=
  check tr (t.delkey.isSome || t.numDeleted == 0)

/- find_position answers with two positions of which one is ILLEGAL_BUCKET: found p is the
first of them, absent p the second. -/
def findPositionFrom (t : DenseHashtable K V) (key : K) :
    (fuel numProbes bucknum : Nat) → Option Nat → Except Fault Outcome
  -- num_probes < bucket_count() does not hold; without the assertion there is no end
  | 0, _, _, _ => .error .assertion
  | fuel + 1, numProbes, bucknum, insertPos =>
    let next := (bucknum + (numProbes + 1)) &&& (t.bucketCount - 1)
    if t.testEmpty bucknum then .ok (.absent (insertPos.getD bucknum))
    else do
      t.checkDeleted tr
      if t.testDeleted bucknum then
        t.findPositionFrom key fuel (numProbes + 1) next (insertPos.or (some bucknum))
      else if key = (t.bucket bucknum).1 then .ok (.found bucknum)
      else t.findPositionFrom key fuel (numProbes + 1) next insertPos

def findPosition (t : DenseHashtable K V) (key : K) : Except Fault Outcome :=
  t.findPositionFrom tr key t.bucketCount 0 (tr.hash key &&& (t.bucketCount - 1)) none

/-- The position of the key, if it is not that of end(). -/
def find (t : DenseHashtable K V) (key : K) : Except Fault (Option Nat) :=
  if t.size = 0 then .ok none
  else do
    let pos ← t.findPosition tr key
    match pos with
    | .found p => return some p
    | .absent _ => return none

/- copy_from: the values of another table, which has no two of one key, into this one. -/
def emptyBucketFrom (t : DenseHashtable K V) : (fuel numProbes bucknum : Nat) → Except Fault Nat
  | 0, _, _ => .error .assertion
  | fuel + 1, numProbes, bucknum =>
    if t.testEmpty bucknum then .ok bucknum
    else
      t.emptyBucketFrom fuel (numProbes + 1)
        ((bucknum + (numProbes + 1)) &&& (t.bucketCount - 1))

def copyValue (t : DenseHashtable K V) (v : K × V) : Except Fault (DenseHashtable K V) := do
  let bucknum ← t.emptyBucketFrom t.bucketCount 0 (tr.hash v.1 &&& (t.bucketCount - 1))
  return { t.setBucket bucknum v with numElements := t.numElements + 1 }

def isPowerOfTwo (n : Nat) : Bool := n &&& (n - 1) = 0

def copyFrom (t ht : DenseHashtable K V) (minBucketsWanted : Nat) :
    Except Fault (DenseHashtable K V) := do
  let newNumBuckets ← minBuckets ht.size minBucketsWanted
  let t := t.clearToSize newNumBuckets
  check tr (isPowerOfTwo t.bucketCount)
  ht.checkDeleted tr
  ht.entries.foldlM (copyValue tr) t

/-- A copy of the table, in at least so many buckets, swapped with it. -/
def swapCopy (t : DenseHashtable K V) (minBucketsWanted : Nat) :
    Except Fault (DenseHashtable K V) := do
  let tmp ← t.copyFrom tr t minBucketsWanted
  return tmp.resetThresholds

def squashDeleted (t : DenseHashtable K V) : Except Fault (DenseHashtable K V) :=
  if t.numDeleted ≠ 0 then do
    let t ← t.swapCopy tr defaultStartingBuckets
    check tr (t.numDeleted = 0)
    return t
  else .ok t

def setDeletedKey (t : DenseHashtable K V) (key : K) : Except Fault (DenseHashtable K V) := do
  check tr (¬ key = t.emptyval.1)
  let t ← t.squashDeleted tr
  return { t with delkey := some key }

def shrinkTo (numRemain sz : Nat) : Nat :=
  if defaultStartingBuckets < sz ∧
      asFloat numRemain * 2 ^ 26 < sz * shrinkFactorTimes2p26 then
    shrinkTo numRemain (sz / 2)
  else sz
termination_by sz
decreasing_by
  next h =>
  have := h.1
  unfold defaultStartingBuckets at this
  omega

def maybeShrink (t : DenseHashtable K V) : Except Fault (Bool × DenseHashtable K V) := do
  check tr (t.numDeleted ≤ t.numElements)
  check tr (isPowerOfTwo t.bucketCount)
  check tr (minBucketsAllowed ≤ t.bucketCount)
  let numRemain := t.numElements - t.numDeleted
  if 0 < t.shrinkThreshold ∧ numRemain < t.shrinkThreshold ∧
      defaultStartingBuckets < t.bucketCount then
    let t ← t.swapCopy tr (shrinkTo numRemain (t.bucketCount / 2))
    return (true, { t with considerShrink := false })
  else
    return (false, { t with considerShrink := false })

/-- How many buckets to ask for when there are too few. -/
def resizeTarget (t : DenseHashtable K V) (delta neededSize resizeTo : Nat) : Nat :=
  if resizeTo < neededSize ∧ resizeTo < sizeTypeMax / 2 ∧
      shrinkSize (resizeTo * 2) ≤ t.numElements - t.numDeleted + delta then
    resizeTo * 2
  else resizeTo

def shrinkIf (t : DenseHashtable K V) (b : Bool) : Except Fault (Bool × DenseHashtable K V) :=
  if b then t.maybeShrink tr else .ok (false, t)

/-- resize_delta, once it has looked whether to shrink. -/
def growBy (t : DenseHashtable K V) (delta : Nat) (didResize : Bool) :
    Except Fault (Bool × DenseHashtable K V) :=
  if sizeTypeMax - delta ≤ t.numElements then .error (.lengthError "resize overflow")
  else if minBucketsAllowed ≤ t.bucketCount ∧ t.numElements + delta ≤ t.enlargeThreshold then
    .ok (didResize, t)
  else do
    let neededSize ← minBuckets (t.numElements + delta) 0
    if neededSize ≤ t.bucketCount then return (didResize, t)
    else do
      let resizeTo ← minBuckets (t.numElements - t.numDeleted + delta) t.bucketCount
      let t ← t.swapCopy tr (t.resizeTarget delta neededSize resizeTo)
      return (true, t)

def resizeDelta (t : DenseHashtable K V) (delta : Nat) :
    Except Fault (Bool × DenseHashtable K V) := do
  let r ← t.shrinkIf tr t.considerShrink
  r.2.growBy tr delta r.1

def resize (t : DenseHashtable K V) (reqElements : Nat) : Except Fault (DenseHashtable K V) := do
  let r ← t.shrinkIf tr (t.considerShrink ∨ reqElements = 0)
  if r.2.numElements < reqElements then do
    let r ← r.2.resizeDelta tr (reqElements - r.2.numElements)
    return r.2
  else return r.2

def insertAt (t : DenseHashtable K V) (obj : K × V) (pos : Nat) :
    Except Fault (DenseHashtable K V) :=
  if tr.maxSize ≤ t.size then .error (.lengthError "insert overflow")
  else do
    t.checkDeleted tr
    if t.testDeleted pos then do
      check tr t.delkey.isSome
      check tr (0 < t.numDeleted)
      return { t.setBucket pos obj with numDeleted := t.numDeleted - 1 }
    else return { t.setBucket pos obj with numElements := t.numElements + 1 }

/-- The assertions on a key that is to be put in or taken out. -/
def checkKey (t : DenseHashtable K V) (key : K) : Except Fault Unit := do
  check tr (¬ key = t.emptyval.1)
  check tr (¬ t.delkey = some key)

/-- The position of the value, and whether it is new there. -/
def insertNoresize (t : DenseHashtable K V) (obj : K × V) :
    Except Fault ((Nat × Bool) × DenseHashtable K V) := do
  t.checkKey tr obj.1
  let pos ← t.findPosition tr obj.1
  match pos with
  | .found p => return ((p, false), t)
  | .absent q =>
    let t ← t.insertAt tr obj q
    return ((q, true), t)

def insert (t : DenseHashtable K V) (obj : K × V) :
    Except Fault ((Nat × Bool) × DenseHashtable K V) := do
  let r ← t.resizeDelta tr 1
  r.2.insertNoresize tr obj

variable [Inhabited V]

/-- operator[]: where the value of the key is, or else that of a new one. -/
def findOrInsert (t : DenseHashtable K V) (key : K) :
    Except Fault (Nat × DenseHashtable K V) := do
  t.checkKey tr key
  let pos ← t.findPosition tr key
  match pos with
  | .found p => return (p, t)
  | .absent q =>
    let r ← t.resizeDelta tr 1
    if r.1 then do
      let r ← r.2.insertNoresize tr (key, default)
      return (r.1.1, r.2)
    else do
      let t ← r.2.insertAt tr (key, default) q
      return (q, t)

/-- An assignment to what operator[] or an iterator refers to. -/
def assign (t : DenseHashtable K V) (pos : Nat) (v : V) : DenseHashtable K V :=
  t.setBucket pos ((t.bucket pos).1, v)

/-- SetKey also gives up the value. -/
def setDeleted (t : DenseHashtable K V) (pos : Nat) : Except Fault (DenseHashtable K V) :=
  match t.delkey with
  -- there is no key to write
  | none => .error .assertion
  | some delkey => .ok (t.setBucket pos (delkey, default))

def erase (t : DenseHashtable K V) (key : K) : Except Fault (Nat × DenseHashtable K V) := do
  t.checkKey tr key
  let pos ← t.find tr key
  match pos with
  | none => return (0, t)
  | some p =>
    t.checkDeleted tr
    check tr (¬ t.testDeleted p)
    let t ← t.setDeleted p
    return (1, { t with numDeleted := t.numDeleted + 1, considerShrink := true })

end DenseHashtable
end Blockparser
