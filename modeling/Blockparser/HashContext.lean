import Blockparser.Lib.BlockHash
import Blockparser.Lib.Mpi

/-! Write and Finalize of the two hashers, which are the same code around two functions
Transform: a message may come in pieces of any size, and the digest is that of the whole. -/
namespace Blockparser

/-- s, buf and bytes of a hasher; bytes is a size_t. -/
structure HashContext (S : Type) where
  s : S
  buf : List UInt8
  bytes : Nat

/-- What one hasher has of its own. -/
structure Hasher (S : Type) where
  initial : S
  transform : S → List UInt8 → S
  writeSize : Nat → List UInt8
  output : S → List UInt8

namespace HashContext
open BlockHash

-- the registers and the words of a chunk are numbered
scoped instance instFive : NeZero 5 := ⟨by decide⟩

scoped instance instEight : NeZero 8 := ⟨by decide⟩

scoped instance instSixteen : NeZero 16 := ⟨by decide⟩

def sizeOf64 (n : Nat) : Nat := n % 2 ^ 64

def memcpy (buf : List UInt8) (pos : Nat) (data : List UInt8) : List UInt8 :=
  buf.take pos ++ data ++ buf.drop (pos + data.length)

variable {S : Type} (hs : Hasher S)

/-- buf is not written before it is needed. -/
def construct (buf : List UInt8) : HashContext S := ⟨hs.initial, buf, 0⟩

/-- Full chunks directly from the source, and what is left of it. -/
def fullChunks (ctx : HashContext S) (data : List UInt8) : HashContext S × List UInt8 :=
  if 64 ≤ data.length then
    fullChunks
      { ctx with s := hs.transform ctx.s (data.take 64), bytes := sizeOf64 (ctx.bytes + 64) }
      (data.drop 64)
  else (ctx, data)
termination_by data.length
decreasing_by
  rw [List.length_drop]
  omega

def rest (ctx : HashContext S) (data : List UInt8) (bufsize : Nat) : HashContext S :=
  let r := fullChunks hs ctx data
  if r.2 ≠ [] then
    { r.1 with
      buf := memcpy r.1.buf bufsize r.2
      bytes := sizeOf64 (r.1.bytes + r.2.length) }
  else r.1

def write (ctx : HashContext S) (data : List UInt8) : HashContext S :=
  let bufsize := ctx.bytes % 64
  if bufsize ≠ 0 ∧ 64 ≤ bufsize + data.length then
    let buf := memcpy ctx.buf bufsize (data.take (64 - bufsize))
    rest hs
      { s := hs.transform ctx.s buf
        buf := buf
        bytes := sizeOf64 (ctx.bytes + (64 - bufsize)) }
      (data.drop (64 - bufsize)) 0
  else rest hs ctx data bufsize

def pad : List UInt8 := 0x80 :: List.replicate 63 0

def finalize (ctx : HashContext S) : List UInt8 :=
  let sizedesc := hs.writeSize (sizeOf64 (ctx.bytes * 2 ^ 3))
  let ctx := write hs ctx (pad.take (1 + (119 - ctx.bytes % 64) % 64))
  let ctx := write hs ctx sizedesc
  hs.output ctx.s

/-- What a hasher has made of the message so far: its whole blocks went into s, what is behind
them is in buf. -/
structure Absorbed (ctx : HashContext S) (msg : List UInt8) : Prop where
  length_buf : ctx.buf.length = 64
  bytes : ctx.bytes = sizeOf64 msg.length
  split : ∃ whole tail, msg = whole ++ tail ∧ whole.length % 64 = 0 ∧ tail.length < 64 ∧
    ctx.s = blocks hs.transform 64 hs.initial whole ∧ ctx.buf.take tail.length = tail

variable {hs} {ctx : HashContext S} {msg : List UInt8}

theorem sizeOf64_mod (n : Nat) : sizeOf64 n % 64 = n % 64 :=
  Nat.mod_mod_of_dvd n (by decide)

theorem sizeOf64_idem (n : Nat) : sizeOf64 (sizeOf64 n) = sizeOf64 n :=
  Nat.mod_mod n (2 ^ 64)

theorem sizeOf64_add (n k : Nat) : sizeOf64 (sizeOf64 n + k) = sizeOf64 (n + k) :=
  Nat.mod_add_mod n (2 ^ 64) k

theorem length_memcpy {buf data : List UInt8} {pos : Nat} (h : pos + data.length ≤ buf.length) :
    (memcpy buf pos data).length = buf.length := by
  simp only [memcpy, List.length_append, List.length_take, List.length_drop]
  omega

theorem take_memcpy {buf data : List UInt8} {pos : Nat} (h : pos ≤ buf.length) :
    (memcpy buf pos data).take (pos + data.length) = buf.take pos ++ data := by
  have hlen : (buf.take pos ++ data).length = pos + data.length := by
    rw [List.length_append, List.length_take, Nat.min_eq_left h]
  rw [memcpy, ← hlen, List.take_left]

theorem construct_absorbed {buf : List UInt8} (h : buf.length = 64) :
    Absorbed hs (construct hs buf) [] :=
  ⟨h, rfl, [], [], rfl, rfl, by decide, (blocks_nil _ _).symm, rfl⟩

/-- The loop takes whole chunks only, and all there are. -/
theorem fullChunks_spec (ctx : HashContext S) (data : List UInt8) :
    ∃ whole tail, data = whole ++ tail ∧ whole.length % 64 = 0 ∧ tail.length < 64 ∧
      (fullChunks hs ctx data).2 = tail ∧
      (fullChunks hs ctx data).1.s = blocks hs.transform 64 ctx.s whole ∧
      (fullChunks hs ctx data).1.buf = ctx.buf ∧
      (sizeOf64 ctx.bytes = ctx.bytes →
        (fullChunks hs ctx data).1.bytes = sizeOf64 (ctx.bytes + whole.length)) := by
  fun_induction fullChunks hs ctx data with
  | case1 ctx data h ih =>
    obtain ⟨whole, tail, hdata, hwhole, htail, hrest, hs', hbuf, hbytes⟩ := ih
    have htake : (data.take 64).length = 64 := by
      rw [List.length_take, Nat.min_eq_left h]
    refine ⟨data.take 64 ++ whole, tail, ?_, ?_, htail, hrest, ?_, hbuf, ?_⟩
    · rw [List.append_assoc, ← hdata, List.take_append_drop]
    · rw [List.length_append, htake]
      omega
    · rw [hs', blocks_append _ (by decide) _ _ (by rw [htake]), blocks_one _ (by decide) _ htake]
    · intro _
      rw [hbytes (sizeOf64_idem _), List.length_append, htake, sizeOf64_add, Nat.add_assoc]
  | case2 ctx data h =>
    exact ⟨[], data, rfl, rfl, Nat.lt_of_not_le h, rfl, (blocks_nil _ _).symm, rfl, Eq.symm⟩

/-- The end of Write, when buf is empty or the new bytes do not fill it. -/
theorem rest_absorbed (h : Absorbed hs ctx msg) (data : List UInt8)
    (hfit : msg.length % 64 = 0 ∨ msg.length % 64 + data.length < 64) :
    Absorbed hs (rest hs ctx data (msg.length % 64)) (msg ++ data) := by
  obtain ⟨whole, tail, hmsg, hwhole, htail, hs', hbuf⟩ := h.split
  have hr : msg.length % 64 = tail.length := by
    rw [hmsg, List.length_append]
    omega
  obtain ⟨whole', tail', hdata, hwhole', htail', hrest, hs'', hbuf', hbytes⟩ :=
    @fullChunks_spec S hs ctx data
  -- no chunk is taken over bytes that are still in buf
  have hjoin : tail = [] ∨ whole' = [] := by
    rcases hfit with hzero | hlt
    · exact .inl (List.eq_nil_of_length_eq_zero (by omega))
    · refine .inr (List.eq_nil_of_length_eq_zero ?_)
      rw [hdata, List.length_append] at hlt
      omega
  have hsplit : msg ++ data = (whole ++ whole') ++ (tail ++ tail') := by
    rcases hjoin with rfl | rfl
    · simp [hmsg, hdata]
    · simp [hmsg, hdata]
  have hroom : tail.length + tail'.length < 64 := by
    rcases hjoin with rfl | rfl
    · simpa using htail'
    · rcases hfit with hzero | hlt
      · omega
      · rw [hdata, List.length_append] at hlt
        omega
  have hstate : (fullChunks hs ctx data).1.s =
      blocks hs.transform 64 hs.initial (whole ++ whole') := by
    rw [hs'', hs', blocks_append _ (by decide) _ _ hwhole]
  have hlen : (whole ++ whole').length % 64 = 0 := by
    rw [List.length_append]
    omega
  have htotal : (msg ++ data).length = msg.length + whole'.length + tail'.length := by
    rw [hdata]
    simp only [List.length_append]
    omega
  have hbytes' : (fullChunks hs ctx data).1.bytes = sizeOf64 (msg.length + whole'.length) := by
    rw [hbytes (by rw [h.bytes, sizeOf64_idem]), h.bytes, sizeOf64_add]
  have hcount : sizeOf64 ((fullChunks hs ctx data).1.bytes + tail'.length) =
      sizeOf64 (msg ++ data).length := by
    rw [hbytes', sizeOf64_add, htotal]
  have hlenbuf := h.length_buf
  unfold rest
  dsimp only
  rw [hrest]
  split
  · refine ⟨?_, hcount, whole ++ whole', tail ++ tail', hsplit, hlen, ?_, hstate, ?_⟩
    · dsimp only
      rw [hbuf', hr, length_memcpy (by omega), hlenbuf]
    · rw [List.length_append]
      exact hroom
    · dsimp only
      rw [hbuf', hr, List.length_append, take_memcpy (by omega), hbuf]
  · next hnil =>
    have hnil' : tail' = [] := not_not.mp hnil
    refine ⟨hbuf' ▸ hlenbuf, ?_, whole ++ whole', tail ++ tail', hsplit, hlen, ?_, hstate, ?_⟩
    · rw [hbytes', htotal, hnil', List.length_nil, Nat.add_zero]
    · rw [List.length_append]
      exact hroom
    · rw [hnil', List.append_nil, hbuf', hbuf]

theorem write_absorbed (h : Absorbed hs ctx msg) (data : List UInt8) :
    Absorbed hs (write hs ctx data) (msg ++ data) := by
  have hmod : ctx.bytes % 64 = msg.length % 64 := by
    rw [h.bytes, sizeOf64_mod]
  unfold write
  dsimp only
  rw [hmod]
  split
  · next hfull =>
    obtain ⟨whole, tail, hmsg, hwhole, htail, hs', hbuf⟩ := h.split
    have hlenbuf := h.length_buf
    have hr : msg.length % 64 = tail.length := by
      rw [hmsg, List.length_append]
      omega
    rw [hr] at hfull ⊢
    have htake : (data.take (64 - tail.length)).length = 64 - tail.length := by
      rw [List.length_take]
      omega
    have hlen : (memcpy ctx.buf tail.length (data.take (64 - tail.length))).length = 64 := by
      rw [length_memcpy (by omega), hlenbuf]
    have hblock : memcpy ctx.buf tail.length (data.take (64 - tail.length)) =
        tail ++ data.take (64 - tail.length) := by
      have hfirst := @take_memcpy ctx.buf (data.take (64 - tail.length)) tail.length (by omega)
      rw [hbuf, List.take_of_length_le (by omega)] at hfirst
      exact hfirst
    have hmsg' : msg ++ data.take (64 - tail.length) =
        whole ++ memcpy ctx.buf tail.length (data.take (64 - tail.length)) := by
      rw [hmsg, hblock, List.append_assoc]
    have hfilled : Absorbed hs
        { s := hs.transform ctx.s (memcpy ctx.buf tail.length (data.take (64 - tail.length)))
          buf := memcpy ctx.buf tail.length (data.take (64 - tail.length))
          bytes := sizeOf64 (ctx.bytes + (64 - tail.length)) }
        (msg ++ data.take (64 - tail.length)) := by
      refine ⟨hlen, ?_, whole ++ memcpy ctx.buf tail.length (data.take (64 - tail.length)), [],
        ?_, ?_, by decide, ?_, rfl⟩
      · dsimp only
        rw [h.bytes, sizeOf64_add, List.length_append, htake]
      · rw [List.append_nil, hmsg']
      · rw [List.length_append, hlen]
        omega
      · dsimp only
        rw [blocks_append _ (by decide) _ _ hwhole, blocks_one _ (by decide) _ hlen, hs']
    have hzero : (msg ++ data.take (64 - tail.length)).length % 64 = 0 := by
      rw [List.length_append, htake]
      omega
    have hrest := rest_absorbed hfilled (data.drop (64 - tail.length)) (.inl hzero)
    rw [hzero, List.append_assoc, List.take_append_drop] at hrest
    exact hrest
  · next hfull =>
    exact rest_absorbed h data (by omega)

/-- However a message is cut, the hasher has made the same of it. -/
theorem writes_absorbed (h : Absorbed hs ctx msg) (pieces : List (List UInt8)) :
    Absorbed hs (pieces.foldl (write hs) ctx) (msg ++ pieces.flatten) := by
  induction pieces generalizing ctx msg with
  | nil => rwa [List.flatten_nil, List.append_nil]
  | cons piece pieces ih =>
    rw [List.flatten_cons, ← List.append_assoc]
    exact ih (write_absorbed h piece)

theorem take_pad {n : Nat} (h : n < 64) : pad.take (1 + n) = 0x80 :: List.replicate n 0 := by
  rw [pad, Nat.add_comm, List.take_succ_cons, List.take_replicate, Nat.min_eq_left (by omega)]

/-- The message Transform has seen when Finalize is done. -/
def paddedMessage (hs : Hasher S) (msg : List UInt8) : List UInt8 :=
  padded 64 0x80 0 (hs.writeSize (8 * msg.length % 2 ^ 64)) msg

theorem finalize_spec (h : Absorbed hs ctx msg) (hsize : ∀ n, (hs.writeSize n).length = 8) :
    finalize hs ctx = hs.output (blocks hs.transform 64 hs.initial (paddedMessage hs msg)) := by
  have hmod : ctx.bytes % 64 = msg.length % 64 := by
    rw [h.bytes, sizeOf64_mod]
  have hbits : sizeOf64 (ctx.bytes * 2 ^ 3) = 8 * msg.length % 2 ^ 64 := by
    rw [h.bytes, sizeOf64, sizeOf64, Nat.mod_mul_mod]
    omega
  have hzeros : (119 - msg.length % 64) % 64 = (64 - (msg.length + 1 + 8) % 64) % 64 := by omega
  unfold finalize
  dsimp only
  rw [hmod, hbits, take_pad (Nat.mod_lt _ (by decide)), hzeros]
  have hdone := write_absorbed (write_absorbed h
    (0x80 :: List.replicate ((64 - (msg.length + 1 + 8) % 64) % 64) 0))
    (hs.writeSize (8 * msg.length % 2 ^ 64))
  have hpadded : msg ++ (0x80 :: List.replicate ((64 - (msg.length + 1 + 8) % 64) % 64) 0) ++
      hs.writeSize (8 * msg.length % 2 ^ 64) = paddedMessage hs msg := by
    rw [paddedMessage, padded, padding, hsize, List.append_assoc]
  rw [hpadded] at hdone
  obtain ⟨whole, tail, hmsg, hwhole, htail, hs', -⟩ := hdone.split
  have hlen := length_padded_mod (by decide : 0 < 64) (0x80 : UInt8) 0
    (hs.writeSize (8 * msg.length % 2 ^ 64)) msg
  rw [← paddedMessage, hmsg, List.length_append] at hlen
  have hnil : tail = [] := List.eq_nil_of_length_eq_zero (by omega)
  rw [hnil, List.append_nil] at hmsg
  rw [hs', hmsg]

end HashContext
end Blockparser
