import Blockparser.CheckedAddress
import Blockparser.Hex

/-! Key lists: the line reader, the guess between a hash in hex and an address, and what
becomes of lines that are neither. A C string is given by the bytes in front of its end. -/
namespace Blockparser.KeyList
open Bytes Mpi MemoryManager Blockparser.Parser Address Hex

/-- How a run ends early: with errFatal, or with an access outside an array. -/
inductive Stop
  | errFatal
  | overrun
deriving DecidableEq

def hashAt (m : Memory) : Hash160 := ⟨read m 0 20, length_read m 0 20⟩

/-- The number of hex digits in front. -/
def hexRun (addr : List UInt8) : Nat := (addr.takeWhile fun c => decide (IsHex c)).length

section
variable (sha256 : List UInt8 → Hash256) (coin : Coin) (buf h160 : Memory)

/-- addrToHash160 with the checksum checked, as util.h declares the call, into a hash of 20
bytes. -/
def addrToHash (addr : List UInt8) : Except Stop (Option Hash160) :=
  match sumDigits 0 (addr ++ [0]) with
  | none => .error .errFatal
  | some sum =>
    if mpiSize sum ≤ 26 ∧ ¬∀ c ∈ copiesOf buf sum, c.InBounds then .error .overrun
    else
      let r := sumToHash160 sha256 coin buf h160 sum true
      .ok (if r.1 then some (hashAt r.2) else none)

/-- `buf` and `h160` are what the arrays on the stack hold before. -/
def guessHash160 (addr : List UInt8) : Except Stop (Option Hash160) :=
  if hexRun addr = 40 then
    match fromHex (ofList addr fun _ => 0) 20 false true with
    | none => .error .errFatal
    | some r => .ok (some (hashAt (store h160 0 r.2)))
  else addrToHash sha256 coin buf h160 addr

def addAddr (result : List Hash160) (addr : List UInt8) : Except Stop (List Hash160) :=
  (guessHash160 sha256 coin buf h160 addr).map fun h => result ++ h.toList

/-- fgets with room for `n` bytes: what it reads, and the rest of the file. -/
def fgets : Nat → List UInt8 → List UInt8 × List UInt8
  | 0, f => ([], f)
  | _, [] => ([], [])
  | n+1, c :: f =>
    if c = 0x0A then ([c], f)
    else ((c :: (fgets n f).1), (fgets n f).2)

theorem length_fgets (n : Nat) (f : List UInt8) :
    (fgets n f).1.length + (fgets n f).2.length = f.length := by
  fun_induction fgets n f with
  | case1 => simp
  | case2 => rfl
  | case3 => simp; omega
  | case4 n c f hc ih =>
    simp only [List.length_cons]
    omega

theorem fgets_ne_nil {n : Nat} {f : List UInt8} (hf : f ≠ []) : (fgets (n + 1) f).1 ≠ [] := by
  cases f with
  | nil => exact absurd rfl hf
  | cons c f =>
    unfold fgets
    split <;> simp

/-- The line in the buffer of fgets, without its newline; `none` where the byte in front of
the buffer is looked at. -/
def chomp (buf : List UInt8) : Option (List UInt8) :=
  let str := cString buf
  if str = [] then none
  else if str.getLast? = some 0x0A then some str.dropLast
  else some str

/-- The loop of loadKeyList over what is left of the file. -/
def loadLines (result : List Hash160) (f : List UInt8) : Except Stop (List Hash160) :=
  if _hf : f = [] then .ok result
  else
    match chomp (fgets 1023 f).1 with
    | none => .error .overrun
    | some line =>
      (addAddr sha256 coin buf h160 result line).bind fun result =>
        loadLines result (fgets 1023 f).2
termination_by f.length
decreasing_by
  have hlen := length_fgets 1023 f
  have hpos : 0 < (fgets 1023 f).1.length := List.length_pos_iff.mpr (fgets_ne_nil _hf)
  omega

def filePrefix : List UInt8 := ['f', 'i', 'l', 'e', ':'].map Char.toUInt8

/-- `stdin` and `fopen` give the contents of a file, where there is one. -/
def openFile (stdin : List UInt8) (fopen : List UInt8 → Option (List UInt8))
    (fileName : List UInt8) : Option (List UInt8) :=
  if fileName = [0x2D] then some stdin else fopen fileName

def loadKeyList (stdin : List UInt8) (fopen : List UInt8 → Option (List UInt8))
    (result : List Hash160) (str : List UInt8) : Except Stop (List Hash160) :=
  if str.take 5 = filePrefix then
    match openFile stdin fopen (str.drop 5) with
    | none => .ok result
    | some f => loadLines sha256 coin buf h160 result f
  else addAddr sha256 coin buf h160 result str

end

/-! What a line denotes. -/

section
variable (sha256 : List UInt8 → Hash256) (coin : Coin)

/-- The line is the hash in hex, of either case, or the address of the hash. -/
inductive Denotes (line : List UInt8) (h : Hash160) : Prop
  | hex (hline : (∀ c ∈ line, IsHex c) ∧ line.map lowerDigit = h.1.flatMap byteDigits)
  | address (hline : line = base58Check sha256 coin h)

/-- One entry for each line that denotes a hash, in the order of the lines. -/
inductive Entries : List (List UInt8) → List Hash160 → Prop
  | nil : Entries [] []
  | entry {line lines h hs} : Denotes sha256 coin line h → Entries lines hs →
      Entries (line :: lines) (h :: hs)
  | skip {line lines hs} : (¬∃ h, Denotes sha256 coin line h) → Entries lines hs →
      Entries (line :: lines) hs

/-- A line that the code takes for what it is: 40 hex digits and nothing behind them, or a
string of base 58 digits that is neither shorter than a checksum nor an impostor. -/
def Clean (line : List UInt8) : Prop :=
  if hexRun line = 40 then line.length = 40
  else IsB58 line ∧ (∀ sum, sumDigits 0 (line ++ [0]) = some sum → 2 ^ 23 ≤ sum) ∧
    ¬Impostor sha256 coin line

variable {sha256 coin} {buf h160 : Memory} {line : List UInt8} {h : Hash160}

theorem hexRun_le (line : List UInt8) : hexRun line ≤ line.length :=
  List.Sublist.length_le (List.takeWhile_sublist _)

theorem hexRun_eq (h : ∀ c ∈ line, IsHex c) : hexRun line = line.length := by
  unfold hexRun
  induction line with
  | nil => rfl
  | cons c line ih =>
    have hc := h c List.mem_cons_self
    have hrest := ih fun c' hc' => h c' (List.mem_cons_of_mem c hc')
    simp [hc, hrest]

theorem take_hexRun (line : List UInt8) : ∀ c ∈ line.take (hexRun line), IsHex c := by
  have htake : line.take (hexRun line) = line.takeWhile fun c => decide (IsHex c) :=
    (List.prefix_iff_eq_take.mp (List.takeWhile_prefix _)).symm
  intro c hc
  rw [htake] at hc
  exact of_decide_eq_true (List.all_eq_true.mp List.all_takeWhile c hc)

theorem hashAt_store (m : Memory) {bytes : List UInt8} (hlen : bytes.length = 20) :
    (hashAt (store m 0 bytes)).1 = bytes := by
  have hh := holds_store m 0 bytes
  rwa [Holds, hlen] at hh

/-- 40 hex digits are read, whatever stands behind them. -/
theorem guessHash160_hex (sha256 : List UInt8 → Hash256) (coin : Coin) (buf h160 : Memory)
    (hrun : hexRun line = 40) : ∃ h, guessHash160 sha256 coin buf h160 line = .ok (some h) ∧
      (line.take 40).map lowerDigit = h.1.flatMap byteDigits := by
  have hle := hexRun_le line
  have hhold : Holds (ofList line fun _ => 0) 0 (line.take 40) :=
    (read_ofList line fun _ => 0).take 40
  have hread : read (ofList line fun _ => 0) 0 (2 * 20) = line.take 40 := by
    rw [Holds, List.length_take, Nat.min_eq_left (by omega)] at hhold
    exact hhold
  obtain ⟨bytes, hloop, hlen, hdigits⟩ := @fromHexLoop_hex (ofList line fun _ => 0) 0 20 true (by rw [hread, ← hrun]; exact take_hexRun line)
  refine ⟨hashAt (store h160 0 bytes), ?_, ?_⟩
  · unfold guessHash160 fromHex
    rw [if_pos hrun, if_neg Bool.false_ne_true, hloop]
  · rw [hashAt_store h160 hlen, hdigits, hread]

theorem sumDigits_none {addr : List UInt8} (hnul : 0 ∉ addr) (h : ¬IsB58 addr) (n : Nat) :
    sumDigits n (addr ++ [0]) = none := by
  induction addr generalizing n with
  | nil => exact absurd (fun c hc => absurd hc List.not_mem_nil) h
  | cons c addr ih =>
    have hc0 : c ≠ 0 := fun h0 => hnul (by rw [h0]; exact List.mem_cons_self)
    rw [List.cons_append, sumDigits, if_neg hc0]
    cases hdg : fromB58Digit c with
    | none => rfl
    | some dg =>
      have hrest : ¬IsB58 addr := by
        intro hrest
        refine h fun c' hc' => ?_
        cases List.mem_cons.mp hc' with
        | inl heq =>
          rw [heq]
          exact mem_of_fromB58Digit hdg
        | inr hc' => exact hrest c' hc'
      exact ih (fun h0 => hnul (List.mem_cons_of_mem c h0)) hrest _

/-- A line that is an address has no 40 hex digits in front. -/
theorem hexRun_base58Check (sha256 : List UInt8 → Hash256) (coin : Coin) (h : Hash160) :
    hexRun (base58Check sha256 coin h) ≠ 40 := by
  have hlt := length_base58Check sha256 coin h
  have hle := hexRun_le (base58Check sha256 coin h)
  omega

theorem Denotes.hexRun (hd : Denotes sha256 coin line h) :
    hexRun line = 40 ∧ line.length = 40 ∨
      hexRun line ≠ 40 ∧ line = base58Check sha256 coin h := by
  cases hd with
  | hex hline =>
    have hlen := congrArg List.length hline.2
    have hdigits : (h.1.flatMap byteDigits).length = 40 := by
      rw [List.length_flatMap]
      simp [byteDigits]
    rw [List.length_map, hdigits] at hlen
    exact Or.inl ⟨by rw [hexRun_eq hline.1, hlen], hlen⟩
  | address hline => exact Or.inr ⟨by rw [hline]; exact hexRun_base58Check sha256 coin h, hline⟩

/-- What addrToHash makes of a string of digits that is not too short. -/
theorem addrToHash_long (sha256 : List UInt8 → Hash256) (coin : Coin) (buf h160 : Memory)
    {line : List UInt8} {sum : Nat} (hsum : sumDigits 0 (line ++ [0]) = some sum)
    (hlong : 2 ^ 23 ≤ sum) : ∃ x, addrToHash sha256 coin buf h160 line = .ok x ∧
      ∀ h, x = some h ↔ Checked sha256 coin sum h := by
  have h4 : 4 ≤ mpiSize sum := by
    have hiff := mpiSize_le_iff (n := sum) (show 0 < 3 by omega)
    omega
  have haddr : addrToHash160 sha256 coin buf h160 (line ++ [0]) true =
      some (sumToHash160 sha256 coin buf h160 sum true) := by
    rw [addrToHash160, hsum, Option.map_some]
  have hin : ¬(mpiSize sum ≤ 26 ∧ ¬∀ c ∈ copiesOf buf sum, c.InBounds) := by
    intro hout
    exact hout.2 (copiesOf_inBounds h4 hout.1)
  unfold addrToHash
  rw [hsum]
  dsimp only
  rw [if_neg hin]
  refine ⟨_, rfl, ?_⟩
  intro h
  constructor
  · intro hx
    split at hx
    · next hok =>
      have hpair : sumToHash160 sha256 coin buf h160 sum true =
          (true, (sumToHash160 sha256 coin buf h160 sum true).2) := Prod.ext hok rfl
      rw [hpair] at haddr
      obtain ⟨hash160, hread, hchecked⟩ := accepted_checked hsum haddr
      have heq : h = hash160 := by
        rw [← Option.some.inj hx]
        exact Subtype.ext hread
      rwa [heq]
    · cases hx
  · intro hchecked
    obtain ⟨out', hok, hread⟩ := hchecked.accepted hsum buf h160
    have hpair := Option.some.inj (haddr.symm.trans hok)
    rw [hpair, if_pos rfl]
    exact congrArg some (Subtype.ext hread)

/-- A number that is shorter than a checksum runs over the hash. -/
theorem addrToHash_short {sum : Nat} (hsum : sumDigits 0 (line ++ [0]) = some sum)
    (hshort : sum < 2 ^ 23) : addrToHash sha256 coin buf h160 line = .error .overrun := by
  have hsize : mpiSize sum ≤ 3 := (mpiSize_le_iff (by omega)).mpr hshort
  have hout : ¬∀ c ∈ copiesOf buf sum, c.InBounds := by
    intro hin
    obtain ⟨c, hc, hdst, -, hcsize⟩ := @copiesOf_overrun buf sum (by omega)
    have hend := (hin c hc).dst_end
    omega
  unfold addrToHash
  rw [hsum]
  dsimp only
  rw [if_pos ⟨by omega, hout⟩]

theorem guessHash160_addr (hrun : hexRun line ≠ 40) :
    guessHash160 sha256 coin buf h160 line = addrToHash sha256 coin buf h160 line := by
  unfold guessHash160
  rw [if_neg hrun]

/-- The number of a string with a hash as its address, if the hash is found. -/
theorem checked_of_denotes {sum : Nat} (hline : line = base58Check sha256 coin h)
    (hsum : sumDigits 0 (line ++ [0]) = some sum) (hlong : 2 ^ 23 ≤ sum) :
    Checked sha256 coin sum h := by
  rw [hline, sumDigits_base58Check] at hsum
  have heq := Option.some.inj hsum
  rw [← heq] at hlong ⊢
  exact checked_addrPayload hlong

/-- A line that denotes a hash stops the run or gives an entry. -/
theorem guessHash160_of_denotes {x : Option Hash160} (hd : Denotes sha256 coin line h)
    (hx : guessHash160 sha256 coin buf h160 line = .ok x) : ∃ h', x = some h' := by
  cases hd.hexRun with
  | inl hhex =>
    obtain ⟨h', hguess, -⟩ := guessHash160_hex sha256 coin buf h160 hhex.1
    rw [hguess] at hx
    exact ⟨h', (Except.ok.inj hx).symm⟩
  | inr haddr =>
    rw [guessHash160_addr haddr.1] at hx
    have hsum := sumDigits_base58Check sha256 coin h
    rw [← haddr.2] at hsum
    by_cases hlong : 2 ^ 23 ≤ beNat (addrPayload sha256 coin h)
    · obtain ⟨x', hx', hiff⟩ := addrToHash_long sha256 coin buf h160 hsum hlong
      rw [hx'] at hx
      rw [← Except.ok.inj hx]
      exact ⟨h, (hiff h).mpr (checked_of_denotes haddr.2 hsum hlong)⟩
    · rw [addrToHash_short hsum (by omega)] at hx
      cases hx

/-- A clean line gives the entry it denotes, if any. -/
theorem guessHash160_clean (hclean : Clean sha256 coin line) :
    ∃ x, guessHash160 sha256 coin buf h160 line = .ok x ∧
      ∀ h, x = some h → Denotes sha256 coin line h := by
  unfold Clean at hclean
  split at hclean
  · next hrun =>
    obtain ⟨h, hguess, hdigits⟩ := guessHash160_hex sha256 coin buf h160 hrun
    rw [← hclean, List.take_length] at hdigits
    refine ⟨some h, hguess, ?_⟩
    intro h' heq
    have hall := take_hexRun line
    rw [hrun, ← hclean, List.take_length] at hall
    rw [← Option.some.inj heq]
    exact Denotes.hex ⟨hall, hdigits⟩
  · next hrun =>
    obtain ⟨hb58, hlong, hno⟩ := hclean
    obtain ⟨sum, hsum, -⟩ := exists_number hb58
    obtain ⟨x, hx, hiff⟩ := addrToHash_long sha256 coin buf h160 hsum (hlong sum hsum)
    refine ⟨x, by rw [guessHash160_addr hrun, hx], ?_⟩
    intro h heq
    rw [((hiff h).mp heq).impostor_iff hb58 hsum, not_not] at hno
    exact Denotes.address hno

/-- Any other line stops the run, or gives an entry although it denotes nothing. -/
theorem guessHash160_dirty {x : Option Hash160} (hnul : 0 ∉ line)
    (hclean : ¬Clean sha256 coin line) (hx : guessHash160 sha256 coin buf h160 line = .ok x) :
    (∃ h, x = some h) ∧ ¬∃ h, Denotes sha256 coin line h := by
  unfold Clean at hclean
  split at hclean
  · next hrun =>
    obtain ⟨h, hguess, -⟩ := guessHash160_hex sha256 coin buf h160 hrun
    rw [hguess] at hx
    refine ⟨⟨h, (Except.ok.inj hx).symm⟩, ?_⟩
    intro hden
    obtain ⟨h', hd⟩ := hden
    cases hd.hexRun with
    | inl hhex => exact hclean hhex.2
    | inr haddr => exact haddr.1 hrun
  · next hrun =>
    rw [guessHash160_addr hrun] at hx
    have hb58 : IsB58 line := by
      by_contra hno
      unfold addrToHash at hx
      rw [sumDigits_none hnul hno] at hx
      cases hx
    have hlong : ∀ sum, sumDigits 0 (line ++ [0]) = some sum → 2 ^ 23 ≤ sum := by
      intro sum hsum
      by_contra hshort
      rw [addrToHash_short hsum (by omega)] at hx
      cases hx
    have himp : Impostor sha256 coin line := by
      by_contra hno
      exact hclean ⟨hb58, hlong, hno⟩
    obtain ⟨sum, hash160, hsum, hchecked, -⟩ := id himp
    obtain ⟨x', hx', hiff⟩ := addrToHash_long sha256 coin buf h160 hsum (hlong sum hsum)
    rw [hx'] at hx
    refine ⟨⟨hash160, by rw [← Except.ok.inj hx]; exact (hiff hash160).mpr hchecked⟩, ?_⟩
    intro hden
    obtain ⟨h, hd⟩ := hden
    cases hd.hexRun with
    | inl hhex => exact hrun hhex.1
    | inr haddr =>
      have hsame := (checked_of_denotes haddr.2 hsum (hlong sum hsum)).unique hchecked
      have hline := haddr.2
      rw [hsame] at hline
      exact (hchecked.impostor_iff hb58 hsum).mp himp hline

end

/-! Files of lines. -/

/-- Lines with a newline each, and what stands behind the last newline. -/
def fileText (lines : List (List UInt8)) (last : List UInt8) : List UInt8 :=
  lines.flatMap (fun line => line ++ [0x0A]) ++ last

/-- The lines of such a file. -/
def linesOf (lines : List (List UInt8)) (last : List UInt8) : List (List UInt8) :=
  lines ++ if last = [] then [] else [last]

/-- A line that fits the buffer of fgets, with its newline. -/
structure IsLine (line : List UInt8) : Prop where
  length_lt : line.length < 1023
  no_newline : 0x0A ∉ line
  no_nul : 0 ∉ line

theorem fgets_newline {line : List UInt8} (h : 0x0A ∉ line) (rest : List UInt8) {n : Nat}
    (hn : line.length < n) : fgets n (line ++ 0x0A :: rest) = (line ++ [0x0A], rest) := by
  induction line generalizing n with
  | nil =>
    cases n with
    | zero => cases hn
    | succ n => rfl
  | cons c line ih =>
    cases n with
    | zero => cases hn
    | succ n =>
      have hc : c ≠ 0x0A := fun hc => h (by rw [hc]; exact List.mem_cons_self)
      have hrest : 0x0A ∉ line := fun hm => h (List.mem_cons_of_mem c hm)
      rw [List.cons_append, fgets, if_neg hc, ih hrest (by simpa using hn)]
      rfl

theorem fgets_end {line : List UInt8} (h : 0x0A ∉ line) {n : Nat} (hn : line.length < n) :
    fgets n line = (line, []) := by
  induction line generalizing n with
  | nil => cases n <;> rfl
  | cons c line ih =>
    cases n with
    | zero => cases hn
    | succ n =>
      have hc : c ≠ 0x0A := fun hc => h (by rw [hc]; exact List.mem_cons_self)
      have hrest : 0x0A ∉ line := fun hm => h (List.mem_cons_of_mem c hm)
      rw [fgets, if_neg hc, ih hrest (by simpa using hn)]

theorem cString_eq {str : List UInt8} (h : 0 ∉ str) : cString str = str := by
  unfold cString
  induction str with
  | nil => rfl
  | cons c str ih =>
    have hc : c ≠ 0 := fun hc => h (by rw [hc]; exact List.mem_cons_self)
    have hrest := ih fun hm => h (List.mem_cons_of_mem c hm)
    simp only [ne_eq, decide_not] at hrest
    simp [hc, hrest]

theorem chomp_newline {line : List UInt8} (h : 0 ∉ line) :
    chomp (line ++ [0x0A]) = some line := by
  have hnul : 0 ∉ line ++ [0x0A] := by simpa using h
  unfold chomp
  rw [cString_eq hnul]
  simp

theorem chomp_end {line : List UInt8} (h : IsLine line) (hne : line ≠ []) :
    chomp line = some line := by
  have hlast : line.getLast? ≠ some 0x0A := fun hl => h.no_newline (List.mem_of_getLast? hl)
  unfold chomp
  rw [cString_eq h.no_nul]
  dsimp only
  rw [if_neg hne, if_neg hlast]

section
variable (sha256 : List UInt8 → Hash256) (coin : Coin) (buf h160 : Memory)

/-- The lines one after the other. -/
def addLines (result : List Hash160) : List (List UInt8) → Except Stop (List Hash160)
  | [] => .ok result
  | line :: lines =>
    (addAddr sha256 coin buf h160 result line).bind fun result => addLines result lines

theorem loadLines_eq (result : List Hash160) {lines : List (List UInt8)} {last : List UInt8}
    (h : ∀ line ∈ linesOf lines last, IsLine line) :
    loadLines sha256 coin buf h160 result (fileText lines last) =
      addLines sha256 coin buf h160 result (linesOf lines last) := by
  induction lines generalizing result with
  | nil =>
    unfold linesOf fileText at *
    simp only [List.flatMap_nil, List.nil_append] at h ⊢
    by_cases hlast : last = []
    · rw [loadLines, dif_pos hlast, if_pos hlast]
      rfl
    · rw [if_neg hlast] at h ⊢
      have hline := h last List.mem_cons_self
      rw [loadLines, dif_neg hlast, fgets_end hline.no_newline hline.length_lt,
        chomp_end hline hlast]
      dsimp only [addLines]
      congr 1
      funext result'
      rw [loadLines, dif_pos rfl]
  | cons line lines ih =>
    have hline := h line List.mem_cons_self
    have hrest : ∀ l ∈ linesOf lines last, IsLine l := fun l hl =>
      h l (List.mem_cons_of_mem line hl)
    have htext : fileText (line :: lines) last = line ++ 0x0A :: fileText lines last := by
      simp [fileText]
    rw [htext, loadLines, dif_neg (by simp), fgets_newline hline.no_newline _ hline.length_lt]
    dsimp only
    rw [chomp_newline hline.no_nul]
    show (addAddr sha256 coin buf h160 result line).bind _ =
      (addAddr sha256 coin buf h160 result line).bind fun result =>
        addLines sha256 coin buf h160 result (linesOf lines last)
    congr 1
    funext result'
    exact ih result' hrest

end

section
variable {sha256 : List UInt8 → Hash256} {coin : Coin} {buf h160 : Memory}
  {result loaded hs : List Hash160} {line : List UInt8} {lines : List (List UInt8)}
  {h : Hash160}

theorem addLines_cons {x : Option Hash160}
    (hx : guessHash160 sha256 coin buf h160 line = .ok x) :
    addLines sha256 coin buf h160 result (line :: lines) =
      addLines sha256 coin buf h160 (result ++ x.toList) lines := by
  rw [addLines, addAddr, hx]
  rfl

/-- A list that is loaded has got past its first line. -/
theorem guessHash160_of_addLines
    (h : addLines sha256 coin buf h160 result (line :: lines) = .ok loaded) :
    ∃ x, guessHash160 sha256 coin buf h160 line = .ok x ∧
      addLines sha256 coin buf h160 (result ++ x.toList) lines = .ok loaded := by
  cases hx : guessHash160 sha256 coin buf h160 line with
  | error stop =>
    rw [addLines, addAddr, hx] at h
    cases h
  | ok x =>
    rw [addLines_cons hx] at h
    exact ⟨x, rfl, h⟩

/-- No line that denotes a hash is left out. -/
theorem addLines_grows (hent : Entries sha256 coin lines hs)
    (h : addLines sha256 coin buf h160 result lines = .ok loaded) :
    ∃ t, loaded = result ++ t ∧ hs.length ≤ t.length := by
  induction hent generalizing result with
  | nil =>
    cases h
    exact ⟨[], by simp, Nat.le_refl 0⟩
  | @entry line lines h' hs hden hent ih =>
    obtain ⟨x, hx, hrest⟩ := guessHash160_of_addLines h
    obtain ⟨h'', hsome⟩ := guessHash160_of_denotes hden hx
    obtain ⟨t, ht, hlen⟩ := ih hrest
    rw [hsome, Option.toList_some, List.append_assoc] at ht
    exact ⟨_, ht, by simpa using hlen⟩
  | @skip line lines hs hno hent ih =>
    obtain ⟨x, hx, hrest⟩ := guessHash160_of_addLines h
    obtain ⟨t, ht, hlen⟩ := ih hrest
    rw [List.append_assoc] at ht
    refine ⟨_, ht, ?_⟩
    rw [List.length_append]
    omega

theorem Denotes.clean (hd : Denotes sha256 coin line h) (hnul : 0 ∉ line) {x : Option Hash160}
    (hx : guessHash160 sha256 coin buf h160 line = .ok x) : Clean sha256 coin line := by
  by_contra hdirty
  exact (guessHash160_dirty hnul hdirty hx).2 ⟨h, hd⟩

/-- A line that is rightly skipped is clean and gives no entry. -/
theorem clean_of_skip {x : Option Hash160} (hnul : 0 ∉ line)
    (hno : ¬∃ h, Denotes sha256 coin line h) (hent : Entries sha256 coin lines hs)
    (hx : guessHash160 sha256 coin buf h160 line = .ok x)
    (hrest : addLines sha256 coin buf h160 (result ++ x.toList) lines = .ok (result ++ hs)) :
    Clean sha256 coin line ∧ x = none := by
  have hclean : Clean sha256 coin line := by
    by_contra hdirty
    -- the entry made for the line is one too many
    obtain ⟨⟨h', hsome⟩, -⟩ := guessHash160_dirty hnul hdirty hx
    obtain ⟨t, ht, hlen⟩ := addLines_grows hent hrest
    rw [hsome, Option.toList_some, List.append_assoc, List.append_cancel_left_eq] at ht
    have hlen' := congrArg List.length ht
    rw [List.length_append, List.length_singleton] at hlen'
    omega
  refine ⟨hclean, ?_⟩
  obtain ⟨x', hx', hden⟩ := @guessHash160_clean _ _ buf h160 _ hclean
  rw [hx] at hx'
  cases x with
  | none => rfl
  | some h' => exact absurd ⟨h', hden h' (Except.ok.inj hx').symm⟩ hno

/-- A list that is loaded to the entries of its lines has clean lines only. -/
theorem clean_of_addLines (hnul : ∀ l ∈ lines, 0 ∉ l) (hent : Entries sha256 coin lines hs)
    (h : addLines sha256 coin buf h160 result lines = .ok (result ++ hs)) :
    ∀ l ∈ lines, Clean sha256 coin l := by
  induction hent generalizing result with
  | nil => simp
  | @entry line lines h' hs hden hent ih =>
    obtain ⟨x, hx, hrest⟩ := guessHash160_of_addLines h
    obtain ⟨h'', hsome⟩ := guessHash160_of_denotes hden hx
    rw [hsome, Option.toList_some] at hrest
    obtain ⟨t, ht, -⟩ := addLines_grows hent hrest
    have heq : result ++ h' :: hs = result ++ [h''] ++ hs := by
      rw [List.append_assoc, List.append_cancel_left_eq] at ht
      obtain ⟨hhead, -⟩ := List.cons.inj ht
      rw [hhead, List.append_assoc]
      rfl
    rw [heq] at hrest
    intro l hl
    cases List.mem_cons.mp hl with
    | inl hl =>
      rw [hl]
      exact hden.clean (hnul line List.mem_cons_self) hx
    | inr hl => exact ih (fun l hl => hnul l (List.mem_cons_of_mem line hl)) hrest l hl
  | @skip line lines hs hno hent ih =>
    obtain ⟨x, hx, hrest⟩ := guessHash160_of_addLines h
    obtain ⟨hclean, hnone⟩ := clean_of_skip (hnul line List.mem_cons_self) hno hent hx hrest
    rw [hnone, Option.toList_none, List.append_nil] at hrest
    intro l hl
    cases List.mem_cons.mp hl with
    | inl hl => rwa [hl]
    | inr hl => exact ih (fun l hl => hnul l (List.mem_cons_of_mem line hl)) hrest l hl

/-- Clean lines are loaded to their entries. -/
theorem addLines_clean (buf h160 : Memory) (result : List Hash160)
    (h : ∀ l ∈ lines, Clean sha256 coin l) :
    ∃ hs, addLines sha256 coin buf h160 result lines = .ok (result ++ hs) ∧
      Entries sha256 coin lines hs := by
  induction lines generalizing result with
  | nil => exact ⟨[], by simp [addLines], Entries.nil⟩
  | cons line lines ih =>
    have hrest : ∀ l ∈ lines, Clean sha256 coin l := fun l hl => h l (List.mem_cons_of_mem line hl)
    obtain ⟨x, hx, hden⟩ := @guessHash160_clean _ _ buf h160 _ (h line List.mem_cons_self)
    obtain ⟨hs, hload, hent⟩ := ih (result ++ x.toList) hrest
    rw [addLines_cons hx, hload]
    cases x with
    | none =>
      refine ⟨hs, by simp, Entries.skip ?_ hent⟩
      intro hex
      obtain ⟨h', hd⟩ := hex
      obtain ⟨h'', hsome⟩ := guessHash160_of_denotes hd hx
      cases hsome
    | some h' => exact ⟨h' :: hs, by simp, Entries.entry (hden h' rfl) hent⟩

end

/-! A list is only added to. -/

section
variable (sha256 : List UInt8 → Hash256) (coin : Coin) (buf h160 : Memory)

theorem addAddr_append (result : List Hash160) (addr : List UInt8) :
    addAddr sha256 coin buf h160 result addr =
      (addAddr sha256 coin buf h160 [] addr).map fun hs => result ++ hs := by
  unfold addAddr
  cases guessHash160 sha256 coin buf h160 addr <;> rfl

theorem loadLines_append (pre result : List Hash160) (f : List UInt8) :
    loadLines sha256 coin buf h160 (pre ++ result) f =
      (loadLines sha256 coin buf h160 result f).map fun hs => pre ++ hs := by
  fun_induction loadLines sha256 coin buf h160 result f with
  | case1 result =>
    rw [loadLines, dif_pos rfl]
    rfl
  | case2 result f hf hchomp =>
    rw [loadLines, dif_neg hf, hchomp]
    rfl
  | case3 result f hf line hchomp ih =>
    rw [loadLines, dif_neg hf, hchomp]
    dsimp only
    rw [addAddr_append _ _ _ _ (pre ++ result), addAddr_append _ _ _ _ result]
    cases addAddr sha256 coin buf h160 [] line with
    | error stop => rfl
    | ok hs =>
      have hrest := ih (result ++ hs)
      rw [← List.append_assoc] at hrest
      exact hrest

theorem loadKeyList_append (stdin : List UInt8) (fopen : List UInt8 → Option (List UInt8))
    (result : List Hash160) (str : List UInt8) :
    loadKeyList sha256 coin buf h160 stdin fopen result str =
      (loadKeyList sha256 coin buf h160 stdin fopen [] str).map fun hs => result ++ hs := by
  unfold loadKeyList
  split
  · cases openFile stdin fopen (str.drop 5) with
    | none =>
      dsimp only
      rw [Except.map, List.append_nil]
    | some f =>
      have happ := loadLines_append sha256 coin buf h160 result [] f
      rwa [List.append_nil] at happ
  · exact addAddr_append sha256 coin buf h160 result str

end

/-- The list in the file is loaded to one entry for each line that denotes a hash. -/
def Survives (sha256 : List UInt8 → Hash256) (coin : Coin) (result : List Hash160)
    (lines : List (List UInt8)) (loaded : Except Stop (List Hash160)) : Prop :=
  ∃ hs, loaded = .ok (result ++ hs) ∧ Entries sha256 coin lines hs

theorem loadKeyList_file {sha256 : List UInt8 → Hash256} {coin : Coin} {buf h160 : Memory}
    {stdin : List UInt8} {fopen : List UInt8 → Option (List UInt8)} {result : List Hash160}
    {fileName f : List UInt8} (hopen : openFile stdin fopen fileName = some f) :
    loadKeyList sha256 coin buf h160 stdin fopen result (filePrefix ++ fileName) =
      loadLines sha256 coin buf h160 result f := by
  have htake : (filePrefix ++ fileName).take 5 = filePrefix := List.take_left' rfl
  have hdrop : (filePrefix ++ fileName).drop 5 = fileName := List.drop_left' rfl
  unfold loadKeyList
  rw [if_pos htake, hdrop, hopen]

/-- A file of lines is loaded as it should be exactly when all of its lines are clean. -/
theorem loadKeyList_iff (sha256 : List UInt8 → Hash256) (coin : Coin) (buf h160 : Memory)
    (stdin : List UInt8) (fopen : List UInt8 → Option (List UInt8)) (result : List Hash160)
    {fileName : List UInt8} {lines : List (List UInt8)} {last : List UInt8}
    (hopen : openFile stdin fopen fileName = some (fileText lines last))
    (hlines : ∀ l ∈ linesOf lines last, IsLine l) :
    Survives sha256 coin result (linesOf lines last)
        (loadKeyList sha256 coin buf h160 stdin fopen result (filePrefix ++ fileName)) ↔
      ∀ l ∈ linesOf lines last, Clean sha256 coin l := by
  rw [loadKeyList_file hopen, loadLines_eq sha256 coin buf h160 result hlines]
  constructor
  · intro h
    obtain ⟨hs, hload, hent⟩ := h
    exact clean_of_addLines (fun l hl => (hlines l hl).no_nul) hent hload
  · intro h
    exact addLines_clean buf h160 result h

/-- The lines of a file with an address, and with the same address in a file of another
system, where a carriage return stands in front of each newline. -/
def someLine : List UInt8 := b58Digit 0 :: someAddrTail

def someLineReturn : List UInt8 := someLine ++ [0x0D]

theorem isLine_some : IsLine someLine ∧ IsLine someLineReturn :=
  ⟨⟨by decide, by decide, by decide⟩, ⟨by decide, by decide, by decide⟩⟩

/-- loadKeyList on standard input, with zeros on the stack. -/
def loadStdin (lines : List (List UInt8)) : Except Stop (List Hash160) :=
  loadKeyList someSha256 .bitcoin (fun _ => 0) (fun _ => 0) (fileText lines []) (fun _ => none) []
    (filePrefix ++ [0x2D])

/-- A hash in hex, between two addresses. -/
def someHexLine : List UInt8 := List.replicate 40 (hexDigit 0x0A)

theorem loadKeyList_iff_some :
    Survives someSha256 .bitcoin [] [someLine, someHexLine, someLine]
        (loadStdin [someLine, someHexLine, someLine]) ↔
      ∀ l ∈ [someLine, someHexLine, someLine], Clean someSha256 .bitcoin l := by
  have hhex : IsLine someHexLine := ⟨by decide, by decide, by decide⟩
  have hlines : ∀ l ∈ linesOf [someLine, someHexLine, someLine] [], IsLine l := by
    intro l hl
    cases List.mem_cons.mp hl with
    | inl hl =>
      rw [hl]
      exact isLine_some.1
    | inr hl =>
      cases List.mem_cons.mp hl with
      | inl hl =>
        rw [hl]
        exact hhex
      | inr hl =>
        rw [List.mem_singleton.mp hl]
        exact isLine_some.1
  exact loadKeyList_iff someSha256 .bitcoin _ _ _ _ [] rfl hlines

theorem loadStdin_return : loadStdin [someLineReturn] = .error .errFatal := by
  have hlines : ∀ l ∈ linesOf [someLineReturn] [], IsLine l := by
    intro l hl
    rw [List.mem_singleton.mp hl]
    exact isLine_some.2
  have hrun : hexRun someLineReturn ≠ 40 := by decide
  have hsum : sumDigits 0 (someLineReturn ++ [0]) = none :=
    sumDigits_none isLine_some.2.no_nul (by decide) 0
  rw [loadStdin, loadKeyList_file rfl, loadLines_eq _ _ _ _ _ hlines]
  show (addAddr _ _ _ _ _ someLineReturn).bind _ = _
  rw [addAddr, guessHash160_addr hrun, addrToHash, hsum]
  rfl

/-- Such a line ends the run. -/
theorem not_survives_return :
    ¬Survives someSha256 .bitcoin [] [someLineReturn] (loadStdin [someLineReturn]) := by
  intro hsurvives
  obtain ⟨hs, hok, -⟩ := hsurvives
  rw [loadStdin_return] at hok
  cases hok

end Blockparser.KeyList
