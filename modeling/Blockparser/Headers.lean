import Blockparser.BlockIndex

/-! Pass 1: the walk over the block files that registers one block per header. -/
namespace Blockparser.Headers
open Bytes MemoryManager Blockparser.Parser BlockIndex

/-- The header hashes of the coins. -/
structure HashFns where
  sha256Twice : List UInt8 → Hash256
  h9 : List UInt8 → Hash256
  h13 : List UInt8 → Hash256
  scrypt : List UInt8 → Hash256

variable (coin : Coin) (H : HashFns)

/-- The hash `getBlockHeader` takes of the header bytes. -/
def blockHash (p : List UInt8) : Hash256 :=
  match coin with
  | .darkcoin => H.h9 p
  | .paycon => H.h13 p
  | .clam => if 6 < leNat (p.take 4) then H.sha256Twice p else H.scrypt p
  | .jumbucks => H.scrypt p
  | _ => H.sha256Twice p

structure BlockHeader where
  size : Nat
  prev : Option BlockRef
  hash : Hash256
  miss : Bool

def getBlockHeader (s : Index) (p : Memory) : BlockHeader where
  size := load p 0 4
  hash := blockHash coin H (read p 4 coin.gHeaderSize)
  prev := s.gBlockMap (Memory.hash p 8)
  miss := (s.gBlockMap (Memory.hash p 8)).isNone

def gHeightLimit : Nat := 2 ^ 64 - 1

/-- `read(fd, buf, n)` at position `pos`. -/
def readFile (content : List UInt8) (pos n : Nat) : List UInt8 := (content.drop pos).take n

/-- The `off_t` that `(blockSize + 8) - sz` is: the sum is an `unsigned int`, the
difference a `size_t`. -/
def seekOffset (blockSize sz : Nat) : Int :=
  (BitVec.ofNat 64 ((blockSize + 8) % 2 ^ 32) - BitVec.ofNat 64 sz).toInt

/-- `lseek(fd, offset, SEEK_CUR)` at `pos`; `none` is the error return. -/
def lseek (pos : Nat) (offset : Int) : Option Nat :=
  if 0 ≤ pos + offset ∧ pos + offset < 2 ^ 63 then some (pos + offset).toNat else none

structure State extends Index where
  nbBlocks : Nat
  earlyMissCnt : Nat

/-- One turn of the loop: the state after it, and the position the next turn reads
at unless the loop is left. The hash pool never returns a null hash. -/
def readHeader (f : Nat) (content : List UInt8) (s : State) (pos : Nat) : State × Option Nat :=
  let sz := 4 + coin.gHeaderSize
  let buf := readFile content pos sz
  if buf.length < sz then (s, none)
  else if gHeightLimit ≤ s.nbBlocks then (s, none)
  else
    let h := getBlockHeader coin H s.toIndex (ofList buf fun _ => 0)
    let earlyMissCnt := if h.miss then s.earlyMissCnt + 1 else s.earlyMissCnt
    match lseek (pos + sz) (seekOffset h.size sz) with
    | none => ({ s with earlyMissCnt }, none)
    | some pos' =>
      let blockOffset := (BitVec.ofInt 64 (pos' - h.size)).toNat
      ({ s.toIndex.register h.hash (some f) h.size h.prev blockOffset with
          nbBlocks := s.nbBlocks + 1, earlyMissCnt }, some pos')

variable {coin H} {f : Nat} {content : List UInt8} {s s' : State} {pos pos' : Nat}

/-- A turn registers a block of the file and goes on, or leaves the index as it is. -/
theorem readHeader_cases {o : Option Nat} (h : readHeader coin H f content s pos = (s', o)) :
    (o = none ∧ s'.toIndex = s.toIndex) ∨
      ∃ pos' hash size prev offset, o = some pos' ∧ s.nbBlocks < gHeightLimit ∧
        s'.nbBlocks = s.nbBlocks + 1 ∧
        s'.toIndex = s.toIndex.register hash (some f) size prev offset := by
  unfold readHeader at h
  dsimp only at h
  split at h
  · cases h
    exact Or.inl ⟨rfl, rfl⟩
  · split at h
    · cases h
      exact Or.inl ⟨rfl, rfl⟩
    · split at h
      · cases h
        exact Or.inl ⟨rfl, rfl⟩
      · cases h
        exact Or.inr ⟨_, _, _, _, _, rfl, by omega, rfl, rfl⟩

theorem nbBlocks_readHeader (h : readHeader coin H f content s pos = (s', some pos')) :
    s'.nbBlocks = s.nbBlocks + 1 ∧ s.nbBlocks < gHeightLimit := by
  obtain ⟨hn, -⟩ | ⟨_, _, _, _, _, -, hlt, hnb, -⟩ := readHeader_cases h
  · cases hn
  · exact ⟨hnb, hlt⟩

variable (coin H)

/-- `while(1)` over one file. -/
def walkFile (f : Nat) (content : List UInt8) (s : State) (pos : Nat) : State :=
  match _h : readHeader coin H f content s pos with
  | (s', none) => s'
  | (s', some pos') => walkFile f content s' pos'
termination_by gHeightLimit - s.nbBlocks
decreasing_by
  have := nbBlocks_readHeader _h
  omega

variable {coin H}

theorem walkFile_stop (h : readHeader coin H f content s pos = (s', none)) :
    walkFile coin H f content s pos = s' := by
  rw [walkFile]
  split <;> simp_all

theorem walkFile_next (h : readHeader coin H f content s pos = (s', some pos')) :
    walkFile coin H f content s pos = walkFile coin H f content s' pos' := by
  rw [walkFile]
  split <;> simp_all

theorem walkFile_grows (coin : Coin) (H : HashFns) (f : Nat) (content : List UInt8) (s : State)
    (pos : Nat) : Grows f s.toIndex (walkFile coin H f content s pos).toIndex := by
  fun_induction walkFile coin H f content s pos with
  | case1 s pos s' h =>
    cases readHeader_cases h with
    | inl hs =>
      rw [hs.2]
      exact Grows.refl f s.toIndex
    | inr hs =>
      obtain ⟨_, _, _, _, _, hn, -⟩ := hs
      cases hn
  | case2 s pos s' pos' h ih =>
    cases readHeader_cases h with
    | inl hs => cases hs.1
    | inr hs =>
      obtain ⟨_, hash, size, prev, offset, -, -, -, hidx⟩ := hs
      rw [hidx] at ih
      exact (Grows.register s.toIndex hash f size prev offset).trans ih (Nat.le_refl f)

variable (coin H)

def walkFiles : List (List UInt8) → Nat → State → State
  | [], _, s => s
  | content :: files, f, s => walkFiles files (f + 1) (walkFile coin H f content s 0)

theorem walkFiles_grows (files : List (List UInt8)) (f : Nat) (s : State) :
    Grows f s.toIndex (walkFiles coin H files f s).toIndex := by
  induction files generalizing f s with
  | nil => exact Grows.refl f s.toIndex
  | cons content files ih =>
    exact (walkFile_grows coin H f content s 0).trans (ih (f + 1) _) (Nat.le_succ f)

def start : State := { buildNullBlock with nbBlocks := 0, earlyMissCnt := 0 }

/-- Pass 1; `none` is the exit when no block was found. -/
def buildBlockHeaders (files : List (List UInt8)) : Option State :=
  let s := walkFiles coin H files 0 start
  if s.nbBlocks = 0 then none else some s

/-- A block as it stands in a file: at least a header, its length a 32-bit integer. -/
structure Record where
  block : List UInt8
  le_length : coin.gHeaderSize ≤ block.length
  length_lt : block.length < 2 ^ 32

theorem gHeaderSize_ge (coin : Coin) : 80 ≤ coin.gHeaderSize := by
  cases coin <;> decide

theorem gExpectedMagic_lt (coin : Coin) : coin.gExpectedMagic + 8 < 2 ^ 32 := by
  cases coin <;> decide

variable {coin}

namespace Record
variable (r : Record coin)

def encode : List UInt8 :=
  leBytes 4 coin.gExpectedMagic ++ (leBytes 4 r.block.length ++ r.block)

def header : List UInt8 := r.block.take coin.gHeaderSize

theorem length_window (i : Nat) (h : i + 32 ≤ 80) : ((r.block.drop i).take 32).length = 32 := by
  have := gHeaderSize_ge coin
  have := r.le_length
  simp
  omega

/-- The 32 bytes behind the version. -/
def parentHash : Hash256 := ⟨(r.block.drop 4).take 32, r.length_window 4 (by omega)⟩

/-- The first 32 bytes, where the code looks for the parent. -/
def readParent : Hash256 := ⟨r.block.take 32, by simpa using r.length_window 0 (by omega)⟩

/-- The bytes the code hashes: the size field and all but the end of the header. -/
def readBytes : List UInt8 :=
  leBytes 4 r.block.length ++ r.block.take (coin.gHeaderSize - 4)

@[simp] theorem length_encode : r.encode.length = 8 + r.block.length := by
  simp [encode]
  omega

end Record

/-- What pass 1 is for: the block of the record at `pos` in file `f` is registered under
the hash of its header, with its own size and place and with the block its header names
as its parent. -/
def registerRecord (f pos : Nat) (t : Index) (r : Record coin) : Index :=
  t.register (blockHash coin H r.header) (some f) r.block.length (t.gBlockMap r.parentHash)
    (pos + 8)

def registerFile (f : Nat) : Nat → Index → List (Record coin) → Index
  | _, t, [] => t
  | pos, t, r :: rs => registerFile f (pos + r.encode.length) (registerRecord H f pos t r) rs

def registerFiles : Nat → Index → List (List (Record coin)) → Index
  | _, t, [] => t
  | f, t, rs :: files => registerFiles (f + 1) (registerFile H f 0 t rs) files

/-- The content of the files. -/
def fileBytes (rs : List (Record coin)) : List UInt8 := rs.flatMap Record.encode

def FindsBlocks (files : List (List (Record coin))) : Prop :=
  (walkFiles coin H (files.map fileBytes) 0 start).toIndex = registerFiles H 0 buildNullBlock files

/-- What the code reads of a record agrees with what stands there. -/
structure Agrees (t : Index) (r : Record coin) : Prop where
  size : r.block.length = coin.gExpectedMagic
  hash : blockHash coin H r.readBytes = blockHash coin H r.header
  prev : t.gBlockMap r.readParent = t.gBlockMap r.parentHash

def FileAgrees (f : Nat) : Nat → Index → List (Record coin) → Prop
  | _, _, [] => True
  | pos, t, r :: rs =>
    Agrees H t r ∧ FileAgrees f (pos + r.encode.length) (registerRecord H f pos t r) rs

def FilesAgree : Nat → Index → List (List (Record coin)) → Prop
  | _, _, [] => True
  | f, t, rs :: files => FileAgrees H f 0 t rs ∧ FilesAgree (f + 1) (registerFile H f 0 t rs) files

section
variable {H} {f : Nat} {content rest : List UInt8} {s : State} {pos : Nat} {r : Record coin}

theorem readFile_record (h : content.drop pos = r.encode ++ rest) :
    readFile content pos (4 + coin.gHeaderSize) =
      leBytes 4 coin.gExpectedMagic ++ r.readBytes := by
  have hle := r.le_length
  have hge := gHeaderSize_ge coin
  have h4 : ∀ v, (leBytes 4 v).take (4 + coin.gHeaderSize) = leBytes 4 v := fun v =>
    List.take_of_length_le (by simp)
  have h4' : ∀ v, (leBytes 4 v).take coin.gHeaderSize = leBytes 4 v := fun v =>
    List.take_of_length_le (by simp; omega)
  have h0 : coin.gHeaderSize - 4 - r.block.length = 0 := by omega
  simp [readFile, h, Record.encode, Record.readBytes, List.take_append, h4, h4', h0]

theorem length_readBytes (r : Record coin) : r.readBytes.length = coin.gHeaderSize := by
  have hle := r.le_length
  have hge := gHeaderSize_ge coin
  simp [Record.readBytes]
  omega

/-- The size field is taken for the start of the header, and the magic for the size. -/
theorem getBlockHeader_record (t : Index) (r : Record coin) :
    getBlockHeader coin H t (ofList (leBytes 4 coin.gExpectedMagic ++ r.readBytes) fun _ => 0) =
      ⟨coin.gExpectedMagic, t.gBlockMap r.readParent, blockHash coin H r.readBytes,
        (t.gBlockMap r.readParent).isNone⟩ := by
  have hge := gHeaderSize_ge coin
  have hle := r.le_length
  obtain ⟨hmagic, hbytes⟩ := holds_append.mp
    (read_ofList (leBytes 4 coin.gExpectedMagic ++ r.readBytes) fun _ => 0)
  generalize ofList (leBytes 4 coin.gExpectedMagic ++ r.readBytes) (fun _ => 0) = m at *
  have hsize : load m 0 4 = coin.gExpectedMagic :=
    load_of_holds hmagic (by have := gExpectedMagic_lt coin; omega)
  have hread : read m 4 coin.gHeaderSize = r.readBytes := by
    simpa [Holds, length_readBytes] using hbytes
  obtain ⟨-, hblock⟩ := holds_append.mp hbytes
  have hparent := hblock.take 32
  rw [List.take_take, Nat.min_eq_left (by omega)] at hparent
  have hhash : Memory.hash m 8 = r.readParent := by
    apply Subtype.ext
    simpa [Holds, Memory.hash, Record.readParent, Nat.min_eq_left (show 32 ≤ r.block.length by omega)]
      using hparent
  simp [getBlockHeader, hsize, hread, hhash]

theorem seekOffset_magic (coin : Coin) :
    seekOffset coin.gExpectedMagic (4 + coin.gHeaderSize) =
      (coin.gExpectedMagic + 8 : Int) - (4 + coin.gHeaderSize) := by
  cases coin <;> decide

theorem lseek_record (coin : Coin) (pos : Nat) :
    lseek (pos + (4 + coin.gHeaderSize)) (seekOffset coin.gExpectedMagic (4 + coin.gHeaderSize)) =
      if pos + coin.gExpectedMagic + 8 < 2 ^ 63 then some (pos + coin.gExpectedMagic + 8)
      else none := by
  rw [seekOffset_magic, lseek]
  have hpos : ((pos + (4 + coin.gHeaderSize) : Nat) : Int) +
      ((coin.gExpectedMagic + 8 : Int) - (4 + coin.gHeaderSize)) =
      (pos + coin.gExpectedMagic + 8 : Nat) := by
    push_cast
    ring
  rw [hpos]
  by_cases hlt : pos + coin.gExpectedMagic + 8 < 2 ^ 63
  · rw [if_pos hlt, if_pos (by omega)]
    rfl
  · rw [if_neg hlt, if_neg (by omega)]

theorem blockOffset_record (pos n : Nat) (h : pos + n + 8 < 2 ^ 63) :
    (BitVec.ofInt 64 (((pos + n + 8 : Nat) : Int) - n)).toNat = pos + 8 := by
  rw [show ((pos + n + 8 : Nat) : Int) - n = ((pos + 8 : Nat) : Int) by push_cast; ring,
    BitVec.toNat_ofInt]
  omega

/-- The turn at a record registers something, unless the seek fails. -/
theorem readHeader_record (hlim : s.nbBlocks < gHeightLimit)
    (h : content.drop pos = r.encode ++ rest) :
    ∃ s' o, readHeader coin H f content s pos = (s', o) ∧
      if pos + coin.gExpectedMagic + 8 < 2 ^ 63 then
        o = some (pos + coin.gExpectedMagic + 8) ∧ s'.nbBlocks = s.nbBlocks + 1 ∧
          s'.toIndex = s.toIndex.register (blockHash coin H r.readBytes) (some f)
            coin.gExpectedMagic (s.gBlockMap r.readParent) (pos + 8)
      else o = none ∧ s'.toIndex = s.toIndex := by
  have hlen : ¬(leBytes 4 coin.gExpectedMagic ++ r.readBytes).length < 4 + coin.gHeaderSize := by
    simp [length_readBytes]
  unfold readHeader
  dsimp only
  rw [readFile_record h, if_neg hlen, if_neg (by omega), getBlockHeader_record]
  dsimp only
  rw [lseek_record]
  by_cases hlt : pos + coin.gExpectedMagic + 8 < 2 ^ 63
  · rw [if_pos hlt]
    refine ⟨_, _, rfl, ?_⟩
    rw [if_pos hlt, blockOffset_record _ _ hlt]
    exact ⟨rfl, rfl, rfl⟩
  · rw [if_neg hlt]
    refine ⟨_, _, rfl, ?_⟩
    rw [if_neg hlt]
    exact ⟨rfl, rfl⟩

theorem fileBytes_cons (r : Record coin) (rs : List (Record coin)) :
    fileBytes (r :: rs) = r.encode ++ fileBytes rs := rfl

/-- At the end of the file the read comes back short. -/
theorem walkFile_end (h : content.drop pos = []) : walkFile coin H f content s pos = s := by
  refine walkFile_stop ?_
  simp [readHeader, readFile, h]

/-- A record that agrees with what the code reads is registered, and the next turn
reads right behind it. -/
theorem walkFile_record (hlim : s.nbBlocks < gHeightLimit)
    (h : content.drop pos = r.encode ++ rest) (hpos : pos + r.encode.length < 2 ^ 63)
    (hr : Agrees H s.toIndex r) :
    ∃ s', walkFile coin H f content s pos = walkFile coin H f content s' (pos + r.encode.length) ∧
      s'.nbBlocks = s.nbBlocks + 1 ∧ s'.toIndex = registerRecord H f pos s.toIndex r ∧
      content.drop (pos + r.encode.length) = rest := by
  have hskip : pos + coin.gExpectedMagic + 8 = pos + r.encode.length := by
    rw [Record.length_encode, hr.size]
    omega
  obtain ⟨s', o, hturn, hnext⟩ := readHeader_record (H := H) (f := f) hlim h
  rw [hskip, if_pos hpos] at hnext
  obtain ⟨rfl, hnb, hidx⟩ := hnext
  refine ⟨s', walkFile_next hturn, hnb, ?_, ?_⟩
  · rw [hidx, hr.hash, hr.prev, ← hr.size]
    rfl
  · rw [← List.drop_drop, h, List.drop_left]

/-- Over records that agree with what the code reads, each turn registers one of them. -/
theorem walkFile_agrees (rs : List (Record coin)) (hlim : s.nbBlocks + rs.length ≤ gHeightLimit)
    (h : content.drop pos = fileBytes rs) (hpos : pos + (fileBytes rs).length < 2 ^ 63)
    (hag : FileAgrees H f pos s.toIndex rs) :
    (walkFile coin H f content s pos).toIndex = registerFile H f pos s.toIndex rs ∧
      (walkFile coin H f content s pos).nbBlocks = s.nbBlocks + rs.length := by
  induction rs generalizing s pos with
  | nil =>
    rw [walkFile_end h]
    exact ⟨rfl, rfl⟩
  | cons r rs ih =>
    obtain ⟨hr, hrs⟩ := hag
    rw [fileBytes_cons] at h hpos
    rw [List.length_append] at hpos
    rw [List.length_cons] at hlim
    have hroom : s.nbBlocks < gHeightLimit := by omega
    obtain ⟨s', hwalk, hnb, hidx, hdrop⟩ := walkFile_record (f := f) hroom h (by omega) hr
    rw [← hidx] at hrs
    obtain ⟨hmap, hcount⟩ := ih (by omega) hdrop (by omega) hrs
    rw [hwalk, hmap, hcount, hidx, hnb, List.length_cons]
    exact ⟨rfl, by omega⟩

/-- Some block of file `f` in `t` is not what `s` has in its place. -/
def Misses (f : Nat) (s t : Index) : Prop :=
  ∃ b < t.nbAlloc, (t.blocks b).chunk.blockFile = some f ∧
    (b < s.nbAlloc → s.blocks b ≠ t.blocks b)

theorem Misses.ne {t t' : Index} {s s' : Index} {g : Nat} (h : Misses f s t)
    (hs : Grows (f + 1) s s') (ht : Grows g t t') : s' ≠ t' := by
  obtain ⟨b, hb, hfile, hne⟩ := h
  have hblock := ht.same b hb
  intro heq
  subst heq
  by_cases hbs : b < s.nbAlloc
  · exact hne hbs (by rw [← hs.same b hbs, hblock])
  · obtain ⟨i, hi, hi'⟩ := hs.added b (by omega) (Nat.lt_of_lt_of_le hb ht.le)
    rw [hblock, hfile] at hi'
    cases hi'
    omega

theorem registerFile_grows (f pos : Nat) (t : Index) (rs : List (Record coin)) :
    Grows f t (registerFile H f pos t rs) := by
  induction rs generalizing pos t with
  | nil => exact Grows.refl f t
  | cons r rs ih => exact (Grows.register ..).trans (ih _ _) (Nat.le_refl f)

theorem registerFiles_grows (f : Nat) (t : Index) (files : List (List (Record coin))) :
    Grows f t (registerFiles H f t files) := by
  induction files generalizing f t with
  | nil => exact Grows.refl f t
  | cons rs files ih =>
    exact (registerFile_grows f 0 t rs).trans (ih (f + 1) _) (Nat.le_succ f)

/-- The first record that does not agree is missed, whatever is read after it. -/
theorem walkFile_misses (rs : List (Record coin)) (hlim : s.nbBlocks + rs.length ≤ gHeightLimit)
    (h : content.drop pos = fileBytes rs) (hpos : pos + (fileBytes rs).length < 2 ^ 63)
    (hag : ¬FileAgrees H f pos s.toIndex rs) :
    Misses f (walkFile coin H f content s pos).toIndex (registerFile H f pos s.toIndex rs) := by
  induction rs generalizing s pos with
  | nil => exact absurd trivial hag
  | cons r rs ih =>
    rw [fileBytes_cons] at h hpos
    rw [List.length_append] at hpos
    rw [List.length_cons] at hlim
    have hroom : s.nbBlocks < gHeightLimit := by omega
    by_cases hr : Agrees H s.toIndex r
    · obtain ⟨s', hwalk, hnb, hidx, hdrop⟩ := walkFile_record (f := f) hroom h (by omega) hr
      have hrs : ¬FileAgrees H f (pos + r.encode.length) s'.toIndex rs := fun hrs =>
        hag ⟨hr, by rwa [← hidx]⟩
      have hrest := ih (by omega) hdrop (by omega) hrs
      rwa [hwalk, registerFile, ← hidx]
    · -- the block of this record would have the next reference
      have hgrow := registerFile_grows (H := H) f (pos + r.encode.length)
        (registerRecord H f pos s.toIndex r) rs
      have hnew : s.nbAlloc < (registerRecord H f pos s.toIndex r).nbAlloc := Nat.lt_succ_self _
      have hblock : (registerRecord H f pos s.toIndex r).blocks s.nbAlloc =
          Block.init (blockHash coin H r.header) (some f) r.block.length
            (s.gBlockMap r.parentHash) (pos + 8) := Function.update_self ..
      have hspec := (hgrow.same _ hnew).trans hblock
      refine ⟨s.nbAlloc, Nat.lt_of_lt_of_le hnew hgrow.le, by rw [registerFile, hspec]; rfl, ?_⟩
      rw [registerFile, hspec]
      intro hlt heq
      obtain ⟨s', o, hturn, hnext⟩ := readHeader_record (H := H) (f := f) hroom h
      split at hnext
      · obtain ⟨rfl, -, hidx⟩ := hnext
        have hgot := (walkFile_grows coin H f content s' (pos + coin.gExpectedMagic + 8)).same
          s.nbAlloc (by rw [hidx]; exact Nat.lt_succ_self _)
        rw [← walkFile_next hturn, heq, hidx] at hgot
        have hsame := hgot.trans (Function.update_self ..)
        simp only [Block.init, Block.mk.injEq, Chunk.mk.injEq, true_and, and_true] at hsame
        exact hr ⟨hsame.1, hsame.2.1.symm, hsame.2.2.symm⟩
      · obtain ⟨rfl, hidx⟩ := hnext
        rw [walkFile_stop hturn, hidx] at hlt
        omega

/-- The size of all the files. -/
def gChainSize (files : List (List (Record coin))) : Nat :=
  (files.map fun rs => (fileBytes rs).length).sum

theorem length_le_fileBytes (rs : List (Record coin)) : rs.length ≤ (fileBytes rs).length := by
  induction rs with
  | nil => simp
  | cons r rs ih =>
    rw [fileBytes_cons, List.length_append, Record.length_encode, List.length_cons]
    omega

theorem walkFiles_iff (files : List (List (Record coin))) (f : Nat) (s : State)
    (hsize : s.nbBlocks + gChainSize files < 2 ^ 63) :
    (walkFiles coin H (files.map fileBytes) f s).toIndex = registerFiles H f s.toIndex files ↔
      FilesAgree H f s.toIndex files := by
  induction files generalizing f s with
  | nil => exact ⟨fun _ => trivial, fun _ => rfl⟩
  | cons rs files ih =>
    rw [gChainSize, List.map_cons, List.sum_cons, ← gChainSize] at hsize
    have hcount := length_le_fileBytes rs
    have hlim : s.nbBlocks + rs.length ≤ gHeightLimit := by
      rw [gHeightLimit]
      omega
    rw [List.map_cons, walkFiles, registerFiles, FilesAgree]
    by_cases hag : FileAgrees H f 0 s.toIndex rs
    · obtain ⟨hidx, hnb⟩ := walkFile_agrees rs hlim List.drop_zero (by omega) hag
      rw [← hidx, ih (f + 1) _ (by omega), and_iff_right hag]
    · refine ⟨fun heq => ?_, fun h => absurd h.1 hag⟩
      have hmiss := walkFile_misses rs hlim List.drop_zero (by omega) hag
      exact absurd heq (hmiss.ne (walkFiles_grows ..) (registerFiles_grows ..))

/-- Pass 1 finds the blocks of the files exactly when every record has the magic for its
size, and hash and parent come out the same four bytes too early. -/
theorem findsBlocks_iff (coin : Coin) (H : HashFns) (files : List (List (Record coin)))
    (hsize : gChainSize files < 2 ^ 63) :
    FindsBlocks H files ↔ FilesAgree H 0 buildNullBlock files := by
  have hs : start.nbBlocks = 0 := rfl
  exact walkFiles_iff files 0 start (by omega)

/-- A smallest block: nothing but a header. -/
def zeroRecord : Record .bitcoin := ⟨List.replicate 80 0, by decide, by decide⟩

def zeroHash : HashFns where
  sha256Twice _ := nullHash
  h9 _ := nullHash
  h13 _ := nullHash
  scrypt _ := nullHash

theorem findsBlocks_iff_zeroRecord :
    FindsBlocks zeroHash [[zeroRecord]] ↔ FilesAgree zeroHash 0 buildNullBlock [[zeroRecord]] :=
  findsBlocks_iff .bitcoin zeroHash [[zeroRecord]] (by decide)

/-- The block is registered with the size 0xd9b4bef9, whatever the hash functions are. -/
theorem zeroRecord_missed : ¬∃ H : HashFns, FindsBlocks H [[zeroRecord]] := by
  rintro ⟨H, hfinds⟩
  have hag := (walkFiles_iff [[zeroRecord]] 0 start (by decide)).mp hfinds
  exact absurd hag.1.1.size (by decide)

end

end Blockparser.Headers
