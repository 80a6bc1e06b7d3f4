import Blockparser.RIPEMD160
import Blockparser.SHA256Rounds
import Mathlib.Algebra.Group.Fin.Basic
import Mathlib.Tactic.FinCases

/-! The 160 lines of Transform are the two halves of RIPEMD-160: the words and the amounts
written out there follow one permutation and one table. -/
namespace Blockparser.CRIPEMD160
open HashContext

/-- Two shifts and an or are a rotation. -/
theorem rol_eq (x : UInt32) {n : Nat} (h0 : 0 < n) (h : n < 32) : rol x n = rotl x n := by
  apply UInt32.toBitVec_inj.mp
  have hn : n % 4294967296 = n := Nat.mod_eq_of_lt (by omega)
  have hm : (32 - n) % 4294967296 = 32 - n := Nat.mod_eq_of_lt (by omega)
  have hl : (UInt32.ofNat n).toBitVec % 32 = BitVec.ofNat 32 n := by
    apply BitVec.eq_of_toNat_eq
    simp [Nat.mod_eq_of_lt h, hn]
  have hr : (UInt32.ofNat (32 - n)).toBitVec % 32 = BitVec.ofNat 32 (32 - n) := by
    apply BitVec.eq_of_toNat_eq
    simp [Nat.mod_eq_of_lt (by omega : 32 - n < 32), hm]
  rw [rol, UInt32.toBitVec_or, UInt32.toBitVec_shiftRight, UInt32.toBitVec_shiftLeft, hr, hl]
  simp [rotl, BitVec.rotateLeft_def, Nat.mod_eq_of_lt h, hn, hm]

def opAt (second : Bool) (group : Nat) : Op :=
  (if second then [.R12, .R22, .R32, .R42, .R52] else [.R11, .R21, .R31, .R41, .R51]).getD group
    .R11

/-- Line `t` of a half: the names have moved `t` places. -/
def lineAt (second : Bool) (t : Nat) : Line where
  op := opAt second (t / 16)
  a := 0 - Fin.ofNat 5 t
  b := 1 - Fin.ofNat 5 t
  c := 2 - Fin.ofNat 5 t
  d := 3 - Fin.ofNat 5 t
  e := 4 - Fin.ofNat 5 t
  w := wordOf second t
  r := amount second t

theorem lines_eq :
    lines = (List.range 80).flatMap fun t => [lineAt false t, lineAt true t] := by
  decide +kernel

theorem amount_range : ∀ second : Bool, ∀ t < 80, 0 < amount second t ∧ amount second t < 32 := by
  decide +kernel

theorem opAt_second : ∀ second : Bool, ∀ t < 80, (opAt second (t / 16)).second = second := by
  decide +kernel

theorem opAt_k : ∀ second : Bool, ∀ t < 80, (opAt second (t / 16)).k = constant second t := by
  decide +kernel

theorem opAt_f (second : Bool) {group : Nat} (h : group < 5) :
    ∀ t, t / 16 = group → (opAt second group).f = mix second t := by
  intro t ht
  unfold mix
  rw [ht]
  have hcases : group = 0 ∨ group = 1 ∨ group = 2 ∨ group = 3 ∨ group = 4 := by omega
  rcases hcases with rfl | rfl | rfl | rfl | rfl <;> cases second <;> rfl

theorem get_set (v : Words) (i j : Fin 5) (x : UInt32) :
    (v.set i x).get j = if i = j then x else v.get j := by
  show (v.set i x)[j.1] = if i = j then x else v[j.1]
  rw [Vector.getElem_set]
  simp only [Fin.ext_iff]

/-- Where the values of the rounds are after `t` lines of a half. -/
def Moved (t : Nat) (r v : Words) : Prop :=
  ∀ u : Fin 5, r.get (u - Fin.ofNat 5 t) = v.get u

variable {chunk : List UInt8} {t : Nat} {r v : Words}

theorem Moved.start (s : Words) : Moved 0 s s := fun u => by simp

/-- One line is one round of its half. -/
theorem Moved.step (second : Bool) (h : Moved t r v) (ht : t < 80) :
    Moved (t + 1) (round (lineAt second t) (readLE32 chunk (4 * wordOf second t)) r)
      (oneRound second chunk t v) := by
  have hmove : ∀ u : Fin 5, u - Fin.ofNat 5 (t + 1) = (u + 4) - Fin.ofNat 5 t := by
    intro u
    apply Fin.ext
    simp only [Fin.ofNat, Fin.sub_def, Fin.add_def]
    omega
  obtain ⟨hpos, hlt⟩ := amount_range second t ht
  have hf := opAt_f second (by omega : t / 16 < 5) t rfl
  have hk := opAt_k second t ht
  have hreg : ∀ j : Fin 5, r.get (j - Fin.ofNat 5 t) = v.get j := h
  intro u
  rw [hmove]
  simp only [round, lineAt, get_set, hreg, hf, hk, rol_eq _ hpos hlt,
    rol_eq _ (by decide : 0 < 10) (by decide : 10 < 32), sub_left_inj]
  fin_cases u <;> simp [oneRound, Vector.get]

theorem Moved.eq (h : Moved 80 r v) : r = v := by
  apply Vector.ext
  intro i hi
  have hreg := h ⟨i, hi⟩
  rw [show Fin.ofNat 5 80 = 0 from rfl, sub_zero] at hreg
  exact hreg

/-- The halves do not touch each other's registers. -/
theorem run_pair (m : Machine) (ht : t < 80) :
    [lineAt false t, lineAt true t].foldl (Line.run chunk) m =
      ⟨round (lineAt false t) (readLE32 chunk (4 * wordOf false t)) m.r1,
        round (lineAt true t) (readLE32 chunk (4 * wordOf true t)) m.r2⟩ := by
  have h1 : (lineAt false t).op.second = false := opAt_second false t ht
  have h2 : (lineAt true t).op.second = true := opAt_second true t ht
  simp only [List.foldl_cons, List.foldl_nil, Line.run, h1, h2]
  rfl

theorem run_lines (s : Words) (n : Nat) (hn : n ≤ 80) :
    Moved n (((List.range n).flatMap fun t => [lineAt false t, lineAt true t]).foldl
        (Line.run chunk) ⟨s, s⟩).r1 (rounds false chunk s n) ∧
      Moved n (((List.range n).flatMap fun t => [lineAt false t, lineAt true t]).foldl
        (Line.run chunk) ⟨s, s⟩).r2 (rounds true chunk s n) := by
  induction n with
  | zero => exact ⟨Moved.start s, Moved.start s⟩
  | succ n ih =>
    obtain ⟨h1, h2⟩ := ih (by omega)
    rw [List.range_succ, List.flatMap_append, List.foldl_append, List.flatMap_singleton,
      run_pair _ (by omega)]
    exact ⟨h1.step false (by omega), h2.step true (by omega)⟩

/-- Transform is the compression function. -/
theorem transform_eq (s : Words) (chunk : List UInt8) : transform s chunk = compress s chunk := by
  obtain ⟨h1, h2⟩ := @run_lines chunk s 80 (Nat.le_refl 80)
  rw [← lines_eq] at h1 h2
  unfold transform compress
  exact congrArg₂ (combine s) h1.eq h2.eq

theorem length_writeLE64 (n : Nat) : (writeLE64 n).length = 8 := Bytes.length_leBytes 8 n

theorem finalize_eq {ctx : HashContext Words} {msg : List UInt8} (h : Absorbed hasher ctx msg) :
    finalize hasher ctx = digest msg := by
  have htransform : hasher.transform = compress := by
    funext s chunk
    exact transform_eq s chunk
  rw [finalize_spec h length_writeLE64, htransform]
  rfl

/-- A message of any length, written in pieces of any size, has the digest of RIPEMD-160. -/
theorem rmd160_of_pieces (buf : Vector UInt8 64) (pieces : List (List UInt8)) :
    finalize hasher (pieces.foldl (write hasher) (construct hasher buf.toList)) =
      digest pieces.flatten :=
  finalize_eq (writes_absorbed (construct_absorbed buf.length_toList) pieces)

theorem length_output (s : Words) : (output s).length = 20 := by
  have hlen : ∀ l : List UInt32, (l.flatMap writeLE32).length = 4 * l.length := by
    intro l
    induction l with
    | nil => rfl
    | cons x l ih =>
      rw [List.flatMap_cons, List.length_append, ih, writeLE32, Bytes.length_leBytes,
        List.length_cons]
      omega
  rw [output, hlen, s.length_toList]

theorem length_output_sha256 (s : CSHA256.Words) : (CSHA256.output s).length = 32 := by
  have hlen : ∀ l : List UInt32, (l.flatMap CSHA256.writeBE32).length = 4 * l.length := by
    intro l
    induction l with
    | nil => rfl
    | cons x l ih =>
      rw [List.flatMap_cons, List.length_append, ih, CSHA256.writeBE32, Mpi.length_beBytes,
        List.length_cons]
      omega
  rw [CSHA256.output, hlen, s.length_toList]

/-- The digests of a build with sha256port.cpp. -/
def portDigests (buf : Vector UInt8 64) : Script.Digests where
  sha256 := fun data => ⟨CSHA256.sha256 buf.toList data, length_output_sha256 _⟩
  rmd160 := fun data => ⟨rmd160 buf.toList data, length_output _⟩

/-- They are those of the definitions, whatever the hashers' memory held. -/
theorem portDigests_eq (buf : Vector UInt8 64) : portDigests buf = portDigests (Vector.replicate 64 0) ∧
    (∀ data, ((portDigests buf).sha256 data).1 = CSHA256.digest data) ∧
    ∀ data, ((portDigests buf).rmd160 data).1 = digest data := by
  have hsha : ∀ buf : Vector UInt8 64, ∀ data,
      CSHA256.sha256 buf.toList data = CSHA256.digest data := fun buf data =>
    CSHA256.finalize_eq (write_absorbed (construct_absorbed buf.length_toList) data)
  have hrmd : ∀ buf : Vector UInt8 64, ∀ data, rmd160 buf.toList data = digest data :=
    fun buf data => finalize_eq (write_absorbed (construct_absorbed buf.length_toList) data)
  refine ⟨?_, hsha buf, hrmd buf⟩
  unfold portDigests
  simp only [hsha, hrmd]

end Blockparser.CRIPEMD160
