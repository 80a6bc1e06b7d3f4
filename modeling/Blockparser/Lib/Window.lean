import Blockparser.Lib.Bytes

/-! A window of bytes and what lies around it: two memories that agree on a window, and
what can be told from the window alone. -/
namespace Bytes

/-- Two memories with the same bytes from 0 to `n`. -/
def Agree (n : Int) (s t : Memory) : Prop := ∀ i, 0 ≤ i → i < n → s i = t i

/-- A byte string with the same byte everywhere around it. -/
def surrounded (bs : List UInt8) (b : UInt8) : Memory := ofList bs fun _ => b

/-- The sum of the bytes. -/
def weight (bs : List UInt8) : Nat := (bs.map UInt8.toNat).sum

variable {s t : Memory} {n p : Int} {bs pat : List UInt8}

theorem Agree.read (h : Agree n s t) (hp : 0 ≤ p) {k : Nat} (hk : p + k ≤ n) :
    read s p k = read t p k :=
  read_congr fun i hi => h (p + i) (by omega) (by omega)

theorem Agree.load (h : Agree n s t) (hp : 0 ≤ p) {k : Nat} (hk : p + k ≤ n) :
    load s p k = load t p k := by
  rw [Bytes.load, Bytes.load, h.read hp hk]

theorem agree_of_holds (hs : Holds s 0 bs) (ht : Holds t 0 bs) : Agree bs.length s t := by
  intro i h₀ h₁
  obtain ⟨k, rfl⟩ := Int.eq_ofNat_of_zero_le h₀
  have hk : k < bs.length := by omega
  have hsk := getElem?_read s 0 _ k hk
  have htk := getElem?_read t 0 _ k hk
  rw [hs] at hsk
  rw [ht, hsk] at htk
  simpa using htk

theorem holds_of_isPrefix (hpre : bs <+: pat) (hs : Holds s 0 pat) : Holds s 0 bs := by
  obtain ⟨rest, rfl⟩ := hpre
  exact (holds_append.mp hs).1

/-- A fixed pattern is told from the window, unless the window is a part of it. -/
theorem holds_congr (hs : Holds s 0 bs) (ht : Holds t 0 bs)
    (hpat : bs <+: pat → pat.length ≤ bs.length) : Holds s 0 pat ↔ Holds t 0 pat := by
  by_cases hle : pat.length ≤ bs.length
  · have hread := (agree_of_holds hs ht).read (show (0 : Int) ≤ 0 by omega)
      (show 0 + (pat.length : Int) ≤ bs.length by omega)
    rw [Holds, Holds, hread]
  · have hno : ∀ u : Memory, Holds u 0 bs → ¬Holds u 0 pat := by
      intro u hu hp
      refine hle (hpat ?_)
      have htake := hp.take bs.length
      have hlen : (pat.take bs.length).length = bs.length := by
        simp
        omega
      rw [Holds, hlen, hu] at htake
      rw [htake]
      exact List.take_prefix _ _
    exact iff_of_false (hno s hs) (hno t ht)

theorem holds_surrounded (bs : List UInt8) (b : UInt8) : Holds (surrounded bs b) 0 bs :=
  read_ofList bs _

theorem surrounded_outside (bs : List UInt8) (b : UInt8) {i : Int}
    (h : i < 0 ∨ (bs.length : Int) ≤ i) : surrounded bs b i = b := by
  rw [surrounded, ofList, if_neg]
  omega

/-- No pattern goes on with a byte it does not have. -/
theorem not_holds_surrounded {b : UInt8} (hlt : bs.length < pat.length) (hb : b ∉ pat) :
    ¬Holds (surrounded bs b) 0 pat := by
  intro hp
  have hget := getElem?_read (surrounded bs b) 0 pat.length bs.length hlt
  rw [hp, surrounded_outside bs b (Or.inr (by omega))] at hget
  exact hb (List.mem_of_getElem? hget)

theorem surrounded_le (bs : List UInt8) (b : UInt8) (i : Int) :
    surrounded bs 0 i ≤ surrounded bs b i := by
  unfold surrounded ofList
  split
  · exact UInt8.le_refl _
  · exact UInt8.zero_le

theorem weight_read_le {k : Nat} (h : ∀ i, s i ≤ t i) (p : Int) :
    weight (read s p k) ≤ weight (read t p k) := by
  induction k generalizing p with
  | zero => exact Nat.le_refl _
  | succ k ih =>
    have hhead : (s p).toNat ≤ (t p).toNat := h p
    have htail := ih (p + 1)
    simp only [weight, Bytes.read, List.map_cons, List.sum_cons] at htail ⊢
    omega

theorem weight_read_lt {k : Nat} (h : ∀ i, s i ≤ t i) (hp : s p < t p) :
    weight (read s p (k + 1)) < weight (read t p (k + 1)) := by
  have hhead : (s p).toNat < (t p).toNat := hp
  have htail : weight (read s (p + 1) k) ≤ weight (read t (p + 1) k) := weight_read_le h (p + 1)
  simp only [weight, Bytes.read, List.map_cons, List.sum_cons] at htail ⊢
  omega

end Bytes
