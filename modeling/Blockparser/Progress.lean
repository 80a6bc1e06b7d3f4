import Blockparser.Headers

/-! Pass 1 on a file of any content: where a turn of the walk leaves the file position, and
how many turns there can be. -/
namespace Blockparser.Progress
open Bytes Headers
open Blockparser.Parser (Coin)

variable (coin : Coin) (H : HashFns) (f : Nat) (content : List UInt8)

/-- The size getBlockHeader reads at `pos`. -/
def sizeField (pos : Nat) : Nat :=
  load (ofList (readFile content pos (4 + coin.gHeaderSize)) fun _ => 0) 0 4

/-- With this size `blockSize + 8` is 0 as an unsigned int. -/
def stuckSize : Nat := 2 ^ 32 - 8

/-- One turn that does not break. -/
def turn (x : State × Nat) : Option (State × Nat) :=
  match readHeader coin H f content x.1 x.2 with
  | (s', some pos') => some (s', pos')
  | (_, none) => none

/-- So many turns, none of which breaks. -/
def turns : Nat → State × Nat → Option (State × Nat)
  | 0, x => some x
  | n + 1, x => (turns n x).bind (turn coin H f content)

/-- Every turn of the walk that does not break moves the file position on. -/
def Advances (s : State) : Prop :=
  ∀ n x y, turns coin H f content n (s, 0) = some x → turn coin H f content x = some y → x.2 < y.2

/-- No turn that does not break reads the size 2^32 - 8. -/
def NeverStuck (s : State) : Prop :=
  ∀ n x y, turns coin H f content n (s, 0) = some x → turn coin H f content x = some y →
    sizeField coin content x.2 ≠ stuckSize

variable {coin H f content} {s : State} {pos n : Nat} {x y : State × Nat}

theorem seekOffset_eq {blockSize sz : Nat} (hsz : sz < 2 ^ 32) :
    seekOffset blockSize sz = ((blockSize + 8) % 2 ^ 32 : Nat) - (sz : Int) := by
  have hlt := Nat.mod_lt (blockSize + 8) (show 0 < 2 ^ 32 by norm_num)
  rw [seekOffset, BitVec.toInt_sub]
  generalize (blockSize + 8) % 2 ^ 32 = n at *
  have hn : (BitVec.ofNat 64 n).toInt = n := by
    rw [BitVec.toInt_eq_toNat_of_lt] <;> simp <;> omega
  have hs : (BitVec.ofNat 64 sz).toInt = sz := by
    rw [BitVec.toInt_eq_toNat_of_lt] <;> simp <;> omega
  rw [hn, hs, Int.bmod_eq_of_le] <;> omega

/-- The bytes of the buffer are skipped by the read and taken back by the seek. -/
theorem lseek_eq (coin : Coin) (pos blockSize : Nat) :
    lseek (pos + (4 + coin.gHeaderSize)) (seekOffset blockSize (4 + coin.gHeaderSize)) =
      if pos + (blockSize + 8) % 2 ^ 32 < 2 ^ 63 then some (pos + (blockSize + 8) % 2 ^ 32)
      else none := by
  have hsz : 4 + coin.gHeaderSize < 2 ^ 32 := by cases coin <;> decide
  rw [seekOffset_eq hsz, lseek]
  have hpos : ((pos + (4 + coin.gHeaderSize) : Nat) : Int) +
      (((blockSize + 8) % 2 ^ 32 : Nat) - ((4 + coin.gHeaderSize : Nat) : Int)) =
      (pos + (blockSize + 8) % 2 ^ 32 : Nat) := by
    push_cast
    ring
  rw [hpos]
  by_cases hlt : pos + (blockSize + 8) % 2 ^ 32 < 2 ^ 63
  · rw [if_pos hlt, if_pos (by omega)]
    rfl
  · rw [if_neg hlt, if_neg (by omega)]

/-- A turn goes on while there is a whole buffer, the counter has room and the seek stays
in range, and then it moves by the size it has read. -/
theorem turn_eq_some : turn coin H f content (s, pos) = some y ↔
    pos + (4 + coin.gHeaderSize) ≤ content.length ∧ s.nbBlocks < gHeightLimit ∧
      pos + (sizeField coin content pos + 8) % 2 ^ 32 < 2 ^ 63 ∧
      y = ((readHeader coin H f content s pos).1,
        pos + (sizeField coin content pos + 8) % 2 ^ 32) := by
  have hread : (readFile content pos (4 + coin.gHeaderSize)).length < 4 + coin.gHeaderSize ↔
      ¬pos + (4 + coin.gHeaderSize) ≤ content.length := by
    have hge := gHeaderSize_ge coin
    simp only [readFile, List.length_take, List.length_drop]
    omega
  unfold turn readHeader
  dsimp only
  by_cases hbuf : pos + (4 + coin.gHeaderSize) ≤ content.length
  · rw [if_neg (fun h => hread.mp h hbuf)]
    by_cases hlim : s.nbBlocks < gHeightLimit
    · rw [if_neg (by omega), getBlockHeader, lseek_eq, ← sizeField]
      by_cases hseek : pos + (sizeField coin content pos + 8) % 2 ^ 32 < 2 ^ 63
      · rw [if_pos hseek]
        constructor
        · intro h
          exact ⟨hbuf, hlim, hseek, (Option.some_inj.mp h).symm⟩
        · rintro ⟨-, -, -, rfl⟩
          rfl
      · rw [if_neg hseek]
        constructor
        · intro h
          cases h
        · intro h
          exact absurd h.2.2.1 hseek
    · rw [if_pos (by omega)]
      simp [hlim]
  · rw [if_pos (hread.mpr hbuf)]
    simp [hbuf]

theorem nbBlocks_turn (h : turn coin H f content (s, pos) = some y) :
    y.1.nbBlocks = s.nbBlocks + 1 := by
  unfold turn at h
  dsimp only at h
  cases hr : readHeader coin H f content s pos with
  | mk s' o =>
    rw [hr] at h
    cases o with
    | none => cases h
    | some pos' =>
      cases h
      exact (nbBlocks_readHeader hr).1

theorem sizeField_lt (coin : Coin) (content : List UInt8) (pos : Nat) :
    sizeField coin content pos < 2 ^ 32 := load_lt _ _ _

/-- A turn stays where it is exactly with the size 2^32 - 8. -/
theorem turn_lt_iff (h : turn coin H f content x = some y) :
    x.2 < y.2 ↔ sizeField coin content x.2 ≠ stuckSize := by
  obtain ⟨-, -, -, rfl⟩ := turn_eq_some.mp h
  have hlt := sizeField_lt coin content x.2
  rw [stuckSize]
  dsimp only
  omega

theorem turns_le_pos (hadv : Advances coin H f content s)
    (h : turns coin H f content n (s, 0) = some x) : n ≤ x.2 := by
  induction n generalizing x with
  | zero => exact Nat.zero_le _
  | succ n ih =>
    obtain ⟨z, hz, hturn⟩ := Option.bind_eq_some_iff.mp h
    have hle := ih hz
    have hlt := hadv n z x hz hturn
    omega

/-- From a record with the size 2^32 - 8 the walk comes back to it, registering a block
each time, until the counter of the blocks is at its limit. -/
theorem turns_stuck (hbuf : pos + (4 + coin.gHeaderSize) ≤ content.length) (hpos : pos < 2 ^ 63)
    (hsize : sizeField coin content pos = stuckSize) (hn : s.nbBlocks + n ≤ gHeightLimit) :
    ∃ s', turns coin H f content n (s, pos) = some (s', pos) ∧ s'.nbBlocks = s.nbBlocks + n := by
  induction n with
  | zero => exact ⟨s, rfl, rfl⟩
  | succ n ih =>
    obtain ⟨s', hs', hnb⟩ := ih (by omega)
    have hback : (sizeField coin content pos + 8) % 2 ^ 32 = 0 := by
      rw [hsize]
      rfl
    have hturn : turn coin H f content (s', pos) =
        some ((readHeader coin H f content s' pos).1, pos) :=
      turn_eq_some.mpr ⟨hbuf, by omega, by omega, by rw [hback, Nat.add_zero]⟩
    refine ⟨(readHeader coin H f content s' pos).1, ?_, ?_⟩
    · rw [turns, hs']
      exact hturn
    · rw [nbBlocks_turn hturn, hnb]
      rfl

/-- Every turn moves on exactly when none of them reads the size 2^32 - 8, and then there
are no more turns than the file has bytes. -/
theorem walk_advances_iff (coin : Coin) (H : HashFns) (f : Nat) (content : List UInt8)
    (s : State) :
    (Advances coin H f content s ↔ NeverStuck coin H f content s) ∧
      (NeverStuck coin H f content s →
        ∀ n x, turns coin H f content n (s, 0) = some x → n ≤ content.length) := by
  have hiff : Advances coin H f content s ↔ NeverStuck coin H f content s := by
    constructor
    · intro hadv n x y hx hy
      exact (turn_lt_iff hy).mp (hadv n x y hx hy)
    · intro hnever n x y hx hy
      exact (turn_lt_iff hy).mpr (hnever n x y hx hy)
  refine ⟨hiff, ?_⟩
  intro hnever n x hx
  cases n with
  | zero => exact Nat.zero_le _
  | succ n =>
    obtain ⟨z, hz, hturn⟩ := Option.bind_eq_some_iff.mp hx
    have hle := turns_le_pos (hiff.mpr hnever) hz
    have hroom := (turn_eq_some.mp hturn).1
    have hge := gHeaderSize_ge coin
    omega

/-- The size field 2^32 - 8, and a header of zeros. -/
def stuckFile : List UInt8 := [0xF8, 0xFF, 0xFF, 0xFF] ++ List.replicate 80 0

/-- Whatever the hash functions are, the walk does not come past it. -/
theorem stuckFile_not_advances : ¬∃ H : HashFns, Advances .bitcoin H 0 stuckFile start := by
  intro ⟨H, hadv⟩
  obtain ⟨s', hs', -⟩ := @turns_stuck .bitcoin H 0 stuckFile start 0 1 (by decide) (by decide)
    (by decide) (by decide)
  exact Nat.lt_irrefl 0 (hadv 0 (start, 0) (s', 0) rfl hs')

end Blockparser.Progress
