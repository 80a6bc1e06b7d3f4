import Blockparser.SHA256
import Mathlib.Algebra.Group.Fin.Basic
import Mathlib.Tactic.FinCases

/-! The 64 lines of Transform are the rounds of SHA-256: a register read under another name is
a value that moved on, and sixteen words are enough for the schedule. -/
namespace Blockparser.CSHA256
open HashContext

theorem choose_eq (x y z : UInt32) : Ch x y z = choose x y z := by
  unfold Ch choose
  apply UInt32.toBitVec_inj.mp
  simp only [UInt32.toBitVec_xor, UInt32.toBitVec_and, UInt32.toBitVec_not]
  ext i hi
  simp only [BitVec.getElem_xor, BitVec.getElem_and, BitVec.getElem_not]
  cases x.toBitVec[i] <;> cases y.toBitVec[i] <;> cases z.toBitVec[i] <;> rfl

theorem majority_eq (x y z : UInt32) : Maj x y z = majority x y z := by
  unfold Maj majority
  apply UInt32.toBitVec_inj.mp
  simp only [UInt32.toBitVec_xor, UInt32.toBitVec_and, UInt32.toBitVec_or]
  ext i hi
  simp only [BitVec.getElem_xor, BitVec.getElem_and, BitVec.getElem_or]
  cases x.toBitVec[i] <;> cases y.toBitVec[i] <;> cases z.toBitVec[i] <;> rfl

/-- Two shifts and an or are a rotation. -/
theorem rotr_eq (x : UInt32) {n : Nat} (h0 : 0 < n) (h : n < 32) :
    x >>> UInt32.ofNat n ||| x <<< UInt32.ofNat (32 - n) = rotr x n := by
  apply UInt32.toBitVec_inj.mp
  have hn : n % 4294967296 = n := Nat.mod_eq_of_lt (by omega)
  have hm : (32 - n) % 4294967296 = 32 - n := Nat.mod_eq_of_lt (by omega)
  have hr : (UInt32.ofNat n).toBitVec % 32 = BitVec.ofNat 32 n := by
    apply BitVec.eq_of_toNat_eq
    simp [Nat.mod_eq_of_lt h, hn]
  have hl : (UInt32.ofNat (32 - n)).toBitVec % 32 = BitVec.ofNat 32 (32 - n) := by
    apply BitVec.eq_of_toNat_eq
    simp [Nat.mod_eq_of_lt (by omega : 32 - n < 32), hm]
  rw [UInt32.toBitVec_or, UInt32.toBitVec_shiftRight, UInt32.toBitVec_shiftLeft, hr, hl]
  simp [rotr, BitVec.rotateRight_def, Nat.mod_eq_of_lt h, hn, hm]

theorem Sigma0_eq (x : UInt32) : Sigma0 x = rotr x 2 ^^^ rotr x 13 ^^^ rotr x 22 := by
  rw [← rotr_eq x (n := 2) (by decide) (by decide), ← rotr_eq x (n := 13) (by decide) (by decide),
    ← rotr_eq x (n := 22) (by decide) (by decide)]
  rfl

theorem Sigma1_eq (x : UInt32) : Sigma1 x = rotr x 6 ^^^ rotr x 11 ^^^ rotr x 25 := by
  rw [← rotr_eq x (n := 6) (by decide) (by decide), ← rotr_eq x (n := 11) (by decide) (by decide),
    ← rotr_eq x (n := 25) (by decide) (by decide)]
  rfl

theorem sigma0_eq (x : UInt32) : sigma0 x = rotr x 7 ^^^ rotr x 18 ^^^ x >>> 3 := by
  rw [← rotr_eq x (n := 7) (by decide) (by decide), ← rotr_eq x (n := 18) (by decide) (by decide)]
  rfl

theorem sigma1_eq (x : UInt32) : sigma1 x = rotr x 17 ^^^ rotr x 19 ^^^ x >>> 10 := by
  rw [← rotr_eq x (n := 17) (by decide) (by decide), ← rotr_eq x (n := 19) (by decide) (by decide)]
  rfl

/-- The words of line `t`. -/
def wordAt (t : Nat) : Word :=
  if t < 16 then .read (Fin.ofNat 16 t) (4 * t)
  else if t < 62 then
    .update (Fin.ofNat 16 t) (Fin.ofNat 16 (t + 14)) (Fin.ofNat 16 (t + 9)) (Fin.ofNat 16 (t + 1))
  else .last (Fin.ofNat 16 t) (Fin.ofNat 16 (t + 14)) (Fin.ofNat 16 (t + 9)) (Fin.ofNat 16 (t + 1))

/-- Line `t`: the names have moved `t` places. -/
def lineAt (t : Nat) : Line where
  a := 0 - Fin.ofNat 8 t
  b := 1 - Fin.ofNat 8 t
  c := 2 - Fin.ofNat 8 t
  d := 3 - Fin.ofNat 8 t
  e := 4 - Fin.ofNat 8 t
  f := 5 - Fin.ofNat 8 t
  g := 6 - Fin.ofNat 8 t
  h := 7 - Fin.ofNat 8 t
  k := fraction 3 t
  w := wordAt t

theorem lines_eq : lines = (List.range 64).map lineAt := by decide +kernel

theorem initialState_eq : initialState = Vector.ofFn fun i => fraction 2 i := by decide +kernel

theorem get_set {n : Nat} (v : Vector UInt32 n) (i j : Fin n) (x : UInt32) :
    (v.set i x).get j = if i = j then x else v.get j := by
  show (v.set i x)[j.1] = if i = j then x else v[j.1]
  rw [Vector.getElem_set]
  simp only [Fin.ext_iff]

/-- After `t` lines: where the values of the rounds are, and which words are still there. The
last two words are not stored. -/
structure Simulates (chunk : List UInt8) (t : Nat) (m : Machine) (v : Words) : Prop where
  regs : ∀ u : Fin 8, m.r.get (u - Fin.ofNat 8 t) = v.get u
  words : ∀ s < t, t ≤ s + 16 → s < 62 → m.w.get (Fin.ofNat 16 s) = schedule chunk s

variable {chunk : List UInt8} {t : Nat} {m : Machine} {v : Words}

theorem Simulates.eval (h : Simulates chunk t m v) (ht : t < 64) :
    (wordAt t).eval chunk m.w = schedule chunk t := by
  have hword : ∀ s k, s + k = t + 16 → 16 ≤ t → 0 < k → k ≤ 16 → s - 16 < 62 → 16 ≤ s →
      m.w.get (Fin.ofNat 16 s) = schedule chunk (s - 16) := by
    intro s k hs ht16 hk hk16 hlast hs16
    have hmod : Fin.ofNat 16 s = Fin.ofNat 16 (s - 16) := by
      apply Fin.ext
      simp only [Fin.ofNat]
      omega
    rw [hmod]
    exact h.words (s - 16) (by omega) (by omega) hlast
  unfold wordAt
  rw [schedule]
  split
  · rfl
  · next ht16 =>
    have h16 : m.w.get (Fin.ofNat 16 t) = schedule chunk (t - 16) :=
      hword t 16 rfl (by omega) (by omega) (by omega) (by omega) (by omega)
    have h2 : m.w.get (Fin.ofNat 16 (t + 14)) = schedule chunk (t - 2) :=
      hword (t + 14) 2 rfl (by omega) (by omega) (by omega) (by omega) (by omega)
    have h7 : m.w.get (Fin.ofNat 16 (t + 9)) = schedule chunk (t - 7) :=
      hword (t + 9) 7 rfl (by omega) (by omega) (by omega) (by omega) (by omega)
    have h15 : m.w.get (Fin.ofNat 16 (t + 1)) = schedule chunk (t - 15) :=
      hword (t + 1) 15 rfl (by omega) (by omega) (by omega) (by omega) (by omega)
    split
    · simp only [Word.eval]
      rw [h16, h2, h7, h15, sigma0_eq, sigma1_eq]
    · simp only [Word.eval]
      rw [h16, h2, h7, h15, sigma0_eq, sigma1_eq, UInt32.add_assoc, UInt32.add_assoc,
        UInt32.add_assoc]

theorem Simulates.start (s : Words) (w : Vector UInt32 16) : Simulates chunk 0 ⟨s, w⟩ s :=
  ⟨fun u => by simp, fun _ h => absurd h (Nat.not_lt_zero _)⟩

/-- One line is one round. -/
theorem Simulates.step (h : Simulates chunk t m v) (ht : t < 64) :
    Simulates chunk (t + 1) (Line.run chunk m (lineAt t))
      (oneRound (fraction 3 t) (schedule chunk t) v) := by
  refine ⟨?_, ?_⟩
  · have hmove : ∀ u : Fin 8, u - Fin.ofNat 8 (t + 1) = (u + 7) - Fin.ofNat 8 t := by
      intro u
      apply Fin.ext
      simp only [Fin.ofNat, Fin.sub_def, Fin.add_def]
      omega
    intro u
    rw [hmove]
    unfold Line.run
    dsimp only
    rw [show (lineAt t).w = wordAt t from rfl, h.eval ht]
    simp only [round, lineAt, get_set, h.regs, sub_left_inj]
    fin_cases u <;>
      simp [oneRound, choose_eq, majority_eq, Sigma0_eq, Sigma1_eq, Vector.get]
  · intro s hs ht16 hlast
    unfold Line.run
    dsimp only
    rw [show (lineAt t).w = wordAt t from rfl]
    have hx := h.eval ht
    rw [hx]
    unfold wordAt
    have hother : s < t → Fin.ofNat 16 t ≠ Fin.ofNat 16 s := by
      intro hst heq
      have := congrArg Fin.val heq
      simp only [Fin.ofNat] at this
      omega
    have hset : (m.w.set (Fin.ofNat 16 t) (schedule chunk t)).get (Fin.ofNat 16 s) =
        schedule chunk s := by
      rw [get_set]
      rcases Nat.lt_succ_iff_lt_or_eq.mp hs with hst | rfl
      · rw [if_neg (hother hst)]
        exact h.words s hst (by omega) hlast
      · rw [if_pos rfl]
    split
    · exact hset
    · split
      · exact hset
      · exact h.words s (by omega) (by omega) hlast

theorem Simulates.lines (s : Words) (w : Vector UInt32 16) (n : Nat) (hn : n ≤ 64) :
    Simulates chunk n (((List.range n).map lineAt).foldl (Line.run chunk) ⟨s, w⟩)
      (rounds chunk s n) := by
  induction n with
  | zero => exact Simulates.start s w
  | succ n ih =>
    rw [List.range_succ, List.map_append, List.foldl_append]
    exact (ih (by omega)).step (by omega)

theorem Simulates.regs_eq (h : Simulates chunk 64 m v) : m.r = v := by
  apply Vector.ext
  intro i hi
  have hreg := h.regs ⟨i, hi⟩
  rw [show Fin.ofNat 8 64 = 0 from rfl, sub_zero] at hreg
  exact hreg

/-- Transform is the compression function. -/
theorem transform_eq (s : Words) (chunk : List UInt8) : transform s chunk = compress s chunk := by
  have hsim := @Simulates.lines chunk s (Vector.replicate 16 0) 64 (Nat.le_refl 64)
  rw [← lines_eq] at hsim
  unfold transform compress
  dsimp only
  rw [hsim.regs_eq]

theorem length_writeBE64 (n : Nat) : (writeBE64 n).length = 8 := Mpi.length_beBytes 8 n

theorem finalize_eq {ctx : HashContext Words} {msg : List UInt8} (h : Absorbed hasher ctx msg) :
    finalize hasher ctx = digest msg := by
  have htransform : hasher.transform = compress := by
    funext s chunk
    exact transform_eq s chunk
  have hinitial : hasher.initial = Vector.ofFn fun i => fraction 2 i := initialState_eq
  rw [finalize_spec h length_writeBE64, htransform, hinitial]
  rfl

/-- A message of any length, written in pieces of any size, has the digest of SHA-256. -/
theorem sha256_of_pieces (buf : Vector UInt8 64) (pieces : List (List UInt8)) :
    finalize hasher (pieces.foldl (write hasher) (construct hasher buf.toList)) =
      digest pieces.flatten :=
  finalize_eq (writes_absorbed (construct_absorbed buf.length_toList) pieces)

end Blockparser.CSHA256
