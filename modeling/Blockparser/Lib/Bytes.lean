import Mathlib.Tactic

/-! Byte memories, windows of bytes and little-endian integers. Addresses are
integers, so a pointer may be moved before or past the object it points into. -/
namespace Bytes

/-- A byte-addressed memory. -/
abbrev Memory := Int → UInt8

/-- The `n` bytes at `p`, `p+1`, ... -/
def read (m : Memory) : Int → Nat → List UInt8
  | _, 0 => []
  | p, n+1 => m p :: read m (p+1) n

/-- The bytes of `bs` stand at `p`. -/
def Holds (m : Memory) (p : Int) (bs : List UInt8) : Prop := read m p bs.length = bs

@[simp] theorem length_read (m : Memory) (p : Int) (n : Nat) : (read m p n).length = n := by
  induction n generalizing p with
  | zero => rfl
  | succ n ih => simp [read, ih]

theorem read_add (m : Memory) (p : Int) (a b : Nat) :
    read m p (a + b) = read m p a ++ read m (p + a) b := by
  induction a generalizing p with
  | zero => simp [read]
  | succ a ih =>
    have hs : p + 1 + (a : Int) = p + ((a + 1 : Nat) : Int) := by push_cast; ring
    rw [show a + 1 + b = (a + b) + 1 by omega, read, ih, hs]
    rfl

theorem getElem?_read (m : Memory) (p : Int) (n i : Nat) (h : i < n) :
    (read m p n)[i]? = some (m (p + i)) := by
  induction n generalizing p i with
  | zero => omega
  | succ n ih =>
    cases i with
    | zero => simp [read]
    | succ i =>
      have hs : p + 1 + (i : Int) = p + ((i + 1 : Nat) : Int) := by push_cast; ring
      rw [read, List.getElem?_cons_succ, ih (p + 1) i (by omega), hs]

/-- Two memories that agree on a window read the same bytes there. -/
theorem read_congr {m m' : Memory} {p : Int} {n : Nat}
    (h : ∀ i : Nat, i < n → m (p + i) = m' (p + i)) : read m p n = read m' p n := by
  apply List.ext_getElem?
  intro i
  by_cases hi : i < n
  · rw [getElem?_read m p n i hi, getElem?_read m' p n i hi, h i hi]
  · rw [List.getElem?_eq_none (by simpa using hi), List.getElem?_eq_none (by simpa using hi)]

@[simp] theorem holds_nil (m : Memory) (p : Int) : Holds m p [] := rfl

theorem holds_cons {m : Memory} {p : Int} {b : UInt8} {bs : List UInt8} :
    Holds m p (b :: bs) ↔ m p = b ∧ Holds m (p + 1) bs := by
  simp [Holds, read]

theorem holds_append {m : Memory} {p : Int} {bs cs : List UInt8} :
    Holds m p (bs ++ cs) ↔ Holds m p bs ∧ Holds m (p + bs.length) cs := by
  unfold Holds
  rw [List.length_append, read_add]
  constructor
  · intro h
    exact List.append_inj h (by simp)
  · rintro ⟨h1, h2⟩
    rw [h1, h2]

theorem Holds.take {m : Memory} {p : Int} {bs : List UInt8} (h : Holds m p bs) (k : Nat) :
    Holds m p (bs.take k) := by
  rw [← List.take_append_drop k bs] at h
  exact (holds_append.mp h).1

/-- The memory that holds `bs` at address 0 and `pad` everywhere else. -/
def ofList (bs : List UInt8) (pad : Memory) : Memory :=
  fun i => if 0 ≤ i ∧ i.toNat < bs.length then bs.getD i.toNat 0 else pad i

theorem read_ofList (bs : List UInt8) (pad : Memory) : Holds (ofList bs pad) 0 bs := by
  apply List.ext_getElem?
  intro i
  by_cases hi : i < bs.length
  · rw [getElem?_read _ _ _ _ hi]
    simp [ofList, hi]
  · rw [List.getElem?_eq_none (by simpa using hi), List.getElem?_eq_none (by simpa using hi)]

/-- `memcpy(p, bs, n)`. -/
def store (m : Memory) (p : Int) (bs : List UInt8) : Memory :=
  fun i => if p ≤ i ∧ (i - p).toNat < bs.length then bs.getD (i - p).toNat 0 else m i

theorem holds_store (m : Memory) (p : Int) (bs : List UInt8) : Holds (store m p bs) p bs := by
  apply List.ext_getElem?
  intro i
  by_cases hi : i < bs.length
  · rw [getElem?_read _ _ _ _ hi]
    simp [store, hi]
  · rw [List.getElem?_eq_none (by simpa using hi), List.getElem?_eq_none (by simpa using hi)]

/-- A store leaves what lies before it or behind it. -/
theorem store_of_disjoint {m : Memory} {p a : Int} {bs : List UInt8}
    (hd : a < p ∨ p + bs.length ≤ a) : store m p bs a = m a := by
  rw [store, if_neg]
  omega

theorem read_store_of_disjoint {m : Memory} {p q : Int} {n : Nat} {bs : List UInt8}
    (hd : q + n ≤ p ∨ p + bs.length ≤ q) : read (store m p bs) q n = read m q n := by
  refine read_congr fun i hi => ?_
  exact store_of_disjoint (by omega)

/-- `memset(p, b, n)`. -/
theorem store_replicate {m : Memory} {p a : Int} {n : Nat} {b : UInt8} (h : p ≤ a)
    (hn : a < p + n) : store m p (List.replicate n b) a = b := by
  have hi : (a - p).toNat < n := by omega
  rw [store, if_pos (by rw [List.length_replicate]; exact ⟨h, hi⟩)]
  simp [List.getD_eq_getElem?_getD, hi]

/-- What holds of the 256 bytes holds of every byte. -/
theorem forall_byte {P : UInt8 → Prop} (h : ∀ n : Fin 256, P (UInt8.ofNat n)) (c : UInt8) : P c := by
  have hc := h ⟨c.toNat, c.toNat_lt⟩
  rwa [UInt8.ofNat_toNat] at hc

/-- The value of a little-endian byte string. -/
def leNat : List UInt8 → Nat
  | [] => 0
  | b :: bs => b.toNat + 256 * leNat bs

/-- The `n` low bytes of `v`, least significant first. -/
def leBytes : Nat → Nat → List UInt8
  | 0, _ => []
  | n+1, v => UInt8.ofNat (v % 256) :: leBytes n (v / 256)

@[simp] theorem length_leBytes (n v : Nat) : (leBytes n v).length = n := by
  induction n generalizing v with
  | zero => rfl
  | succ n ih => simp [leBytes, ih]

theorem leNat_lt (bs : List UInt8) : leNat bs < 256 ^ bs.length := by
  induction bs with
  | nil => simp [leNat]
  | cons b bs ih =>
    have hb := b.toNat_lt
    simp only [leNat, List.length_cons, pow_succ]
    omega

theorem leNat_leBytes (n v : Nat) (h : v < 256 ^ n) : leNat (leBytes n v) = v := by
  induction n generalizing v with
  | zero => simpa [leBytes, leNat] using (Nat.lt_one_iff.mp h).symm
  | succ n ih =>
    have hv : v / 256 < 256 ^ n := by
      rw [Nat.div_lt_iff_lt_mul (by norm_num)]
      simpa [pow_succ] using h
    have hb : (UInt8.ofNat (v % 256)).toNat = v % 256 := by simp
    rw [leBytes, leNat, ih _ hv, hb]
    omega

theorem leNat_append (as bs : List UInt8) :
    leNat (as ++ bs) = leNat as + 256 ^ as.length * leNat bs := by
  induction as with
  | nil => simp [leNat]
  | cons a as ih =>
    simp only [List.cons_append, leNat, ih, List.length_cons, pow_succ]
    ring

theorem leBytes_zero (n : Nat) : leBytes n 0 = List.replicate n 0 := by
  induction n with
  | zero => rfl
  | succ n ih =>
    rw [leBytes, ih]
    rfl

theorem leBytes_leNat (n : Nat) (bs : List UInt8) :
    leBytes n (leNat bs) = (bs ++ List.replicate n 0).take n := by
  induction n generalizing bs with
  | zero => rfl
  | succ n ih =>
    cases bs with
    | nil =>
      rw [leNat, leBytes_zero]
      simp
    | cons b bs =>
      have hb := b.toNat_lt
      have hhead : UInt8.ofNat ((b.toNat + 256 * leNat bs) % 256) = b := by
        rw [Nat.add_mul_mod_self_left, Nat.mod_eq_of_lt hb]
        simp
      have htail : (b.toNat + 256 * leNat bs) / 256 = leNat bs := by omega
      rw [leBytes, leNat, hhead, htail, ih]
      simp [List.take_append, List.take_replicate]
      omega

/-- The little-endian integer of `n` bytes at `p`. -/
def load (m : Memory) (p : Int) (n : Nat) : Nat := leNat (read m p n)

theorem load_lt (m : Memory) (p : Int) (n : Nat) : load m p n < 256 ^ n := by
  simpa [load] using leNat_lt (read m p n)

theorem load_succ (m : Memory) (p : Int) (n : Nat) :
    load m p (n + 1) = (m p).toNat + 256 * load m (p + 1) n := rfl

theorem load_one (m : Memory) (p : Int) : load m p 1 = (m p).toNat := rfl

theorem load_add (m : Memory) (p : Int) (a b : Nat) :
    load m p (a + b) = load m p a + 256 ^ a * load m (p + a) b := by
  rw [load, read_add, leNat_append, length_read]
  rfl

theorem load_of_holds {m : Memory} {p : Int} {n v : Nat}
    (h : Holds m p (leBytes n v)) (hv : v < 256 ^ n) : load m p n = v := by
  have hr : read m p n = leBytes n v := by simpa [Holds] using h
  rw [load, hr, leNat_leBytes n v hv]

theorem load_mono {m m' : Memory} {p : Int} {n : Nat}
    (h : ∀ i : Nat, i < n → m (p + i) ≤ m' (p + i)) : load m p n ≤ load m' p n := by
  induction n generalizing p with
  | zero => exact Nat.le_refl _
  | succ n ih =>
    have hhead : (m p).toNat ≤ (m' p).toNat := by
      have h0 := h 0 (by omega)
      rw [show p + ((0 : Nat) : Int) = p by simp] at h0
      exact h0
    have htail : load m (p + 1) n ≤ load m' (p + 1) n := by
      refine ih fun i hi => ?_
      have hi' := h (i + 1) (by omega)
      rwa [show p + ((i + 1 : Nat) : Int) = p + 1 + (i : Int) by push_cast; ring] at hi'
    simp only [load, read, leNat] at htail ⊢
    omega

end Bytes
