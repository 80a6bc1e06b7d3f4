import Mathlib.Algebra.Order.Ring.Nat
import Mathlib.Tactic.Ring

/-! Numbers as strings of digits, the highest first, and the step of a conversion between two
bases: a number of fixed length times one base plus a digit. -/
namespace Radix

def value (base : Nat) (ds : List UInt8) : Nat := ds.foldl (fun n d => n * base + d.toNat) 0

/-- The digits without the zeros in front. -/
def strip (ds : List UInt8) : List UInt8 := ds.dropWhile fun d => d = 0

/-- `ds * mul + carry`, from the back: what does not fit, and the digits. -/
def mulAdd (mul base : Nat) : List UInt8 → Nat → Nat × List UInt8
  | [], carry => (carry, [])
  | d :: ds, carry =>
    let r := mulAdd mul base ds carry
    let x := r.1 + mul * d.toNat
    (x / base, UInt8.ofNat (x % base) :: r.2)

variable {base : Nat}

theorem foldl_value (n : Nat) (ds : List UInt8) :
    ds.foldl (fun n d => n * base + d.toNat) n = n * base ^ ds.length + value base ds := by
  induction ds generalizing n with
  | nil => simp [value]
  | cons d ds ih =>
    have hcons : value base (d :: ds) = d.toNat * base ^ ds.length + value base ds := by
      unfold value
      rw [List.foldl_cons, Nat.zero_mul, Nat.zero_add]
      exact ih d.toNat
    rw [List.foldl_cons, ih, hcons, List.length_cons, pow_succ]
    ring

@[simp] theorem value_nil : value base [] = 0 := rfl

theorem value_cons (d : UInt8) (ds : List UInt8) :
    value base (d :: ds) = d.toNat * base ^ ds.length + value base ds := by
  show ds.foldl (fun n d => n * base + d.toNat) (0 * base + d.toNat) = _
  rw [foldl_value, Nat.zero_mul, Nat.zero_add]

theorem value_append (as bs : List UInt8) :
    value base (as ++ bs) = value base as * base ^ bs.length + value base bs := by
  unfold value
  rw [List.foldl_append, foldl_value]
  rfl

theorem value_lt {ds : List UInt8} (h : ∀ d ∈ ds, d.toNat < base) :
    value base ds < base ^ ds.length := by
  induction ds with
  | nil => simp
  | cons d ds ih =>
    have hd := h d List.mem_cons_self
    have hds := ih fun d' hd' => h d' (List.mem_cons_of_mem d hd')
    rw [value_cons, List.length_cons, pow_succ]
    calc d.toNat * base ^ ds.length + value base ds
        < d.toNat * base ^ ds.length + base ^ ds.length := Nat.add_lt_add_left hds _
      _ = (d.toNat + 1) * base ^ ds.length := by ring
      _ ≤ base * base ^ ds.length := Nat.mul_le_mul_right _ hd
      _ = base ^ ds.length * base := Nat.mul_comm _ _

theorem value_strip (ds : List UInt8) : value base (strip ds) = value base ds := by
  induction ds with
  | nil => rfl
  | cons d ds ih =>
    unfold strip
    by_cases hd : d = 0
    · rw [List.dropWhile_cons_of_pos (by simpa using hd), value_cons, hd]
      simpa [strip] using ih
    · rw [List.dropWhile_cons_of_neg (by simpa using hd)]

theorem mem_strip {d : UInt8} {ds : List UInt8} (h : d ∈ strip ds) : d ∈ ds :=
  (List.dropWhile_sublist _).subset h

theorem head_strip {ds es : List UInt8} {d : UInt8} (h : strip ds = d :: es) : 0 < d.toNat := by
  have hhead := List.head?_dropWhile_not (fun d : UInt8 => decide (d = 0)) ds
  unfold strip at h
  rw [h] at hhead
  rw [Nat.pos_iff_ne_zero]
  intro h0
  have hd : d = 0 := UInt8.toNat_inj.mp h0
  simp [hd] at hhead

/-- Strings of one length are told by their values. -/
theorem value_inj {as bs : List UInt8} (hlen : as.length = bs.length)
    (ha : ∀ d ∈ as, d.toNat < base) (hb : ∀ d ∈ bs, d.toNat < base)
    (h : value base as = value base bs) : as = bs := by
  induction as generalizing bs with
  | nil => exact (List.eq_nil_of_length_eq_zero hlen.symm).symm
  | cons a as ih =>
    cases bs with
    | nil => nomatch hlen
    | cons b bs =>
      have hlen' : as.length = bs.length := Nat.succ.inj hlen
      have ha' : ∀ d ∈ as, d.toNat < base := fun d hd => ha d (List.mem_cons_of_mem a hd)
      have hb' : ∀ d ∈ bs, d.toNat < base := fun d hd => hb d (List.mem_cons_of_mem b hd)
      have hlta := value_lt ha'
      have hltb := value_lt hb'
      rw [value_cons, value_cons, ← hlen'] at h
      rw [← hlen'] at hltb
      have hpos : 0 < base ^ as.length := Nat.lt_of_le_of_lt (Nat.zero_le _) hlta
      have hdiv : ∀ x y : Nat, y < base ^ as.length →
          (x * base ^ as.length + y) / base ^ as.length = x := by
        intro x y hy
        rw [Nat.mul_comm, Nat.mul_add_div hpos, Nat.div_eq_of_lt hy, Nat.add_zero]
      have hab : a = b := by
        apply UInt8.toNat_inj.mp
        rw [← hdiv a.toNat _ hlta, h, hdiv b.toNat _ hltb]
      subst hab
      rw [ih hlen' ha' hb' (by omega)]

theorem length_strip_le {as bs : List UInt8} (ha : ∀ d ∈ strip as, d.toNat < base)
    (hb : ∀ d ∈ strip bs, d.toNat < base) (h : value base (strip as) = value base (strip bs)) :
    (strip bs).length ≤ (strip as).length := by
  cases hds : strip bs with
  | nil => exact Nat.zero_le _
  | cons d es =>
    by_contra hlt
    rw [List.length_cons] at hlt
    rw [hds, value_cons] at h
    have hva := value_lt ha
    have hbase : 0 < base := Nat.lt_of_le_of_lt (Nat.zero_le _) (hb d (by rw [hds]; simp))
    have hpow : base ^ (strip as).length ≤ base ^ es.length :=
      Nat.pow_le_pow_right hbase (by omega)
    have hle : base ^ es.length ≤ d.toNat * base ^ es.length :=
      Nat.le_mul_of_pos_left _ (head_strip hds)
    omega

/-- A string that does not begin with zero is told by its value. -/
theorem strip_unique {as bs : List UInt8} (ha : ∀ d ∈ as, d.toNat < base)
    (hb : ∀ d ∈ bs, d.toNat < base) (h : value base as = value base bs) :
    strip as = strip bs := by
  have ha' : ∀ d ∈ strip as, d.toNat < base := fun d hd => ha d (mem_strip hd)
  have hb' : ∀ d ∈ strip bs, d.toNat < base := fun d hd => hb d (mem_strip hd)
  have hv : value base (strip as) = value base (strip bs) := by rw [value_strip, value_strip, h]
  exact value_inj (Nat.le_antisymm (length_strip_le hb' ha' hv.symm) (length_strip_le ha' hb' hv))
    ha' hb' hv

theorem mulAdd_spec (mul : Nat) (hbase : 0 < base) (h256 : base ≤ 256) (ds : List UInt8)
    (carry : Nat) :
    (mulAdd mul base ds carry).1 * base ^ ds.length + value base (mulAdd mul base ds carry).2 =
        value base ds * mul + carry ∧
      (mulAdd mul base ds carry).2.length = ds.length ∧
      ∀ d ∈ (mulAdd mul base ds carry).2, d.toNat < base := by
  induction ds with
  | nil => simp [mulAdd]
  | cons d ds ih =>
    obtain ⟨hv, hlen, hlt⟩ := ih
    unfold mulAdd
    dsimp only
    generalize hx : (mulAdd mul base ds carry).1 + mul * d.toNat = x
    have hmod : (UInt8.ofNat (x % base)).toNat = x % base := by
      have := Nat.mod_lt x hbase
      rw [UInt8.toNat_ofNat']
      exact Nat.mod_eq_of_lt (by omega)
    refine ⟨?_, ?_, ?_⟩
    · rw [value_cons, hmod, value_cons, hlen, List.length_cons, pow_succ]
      have hdm := Nat.div_add_mod x base
      calc x / base * (base ^ ds.length * base) +
            (x % base * base ^ ds.length + value base (mulAdd mul base ds carry).2)
          = (base * (x / base) + x % base) * base ^ ds.length +
            value base (mulAdd mul base ds carry).2 := by ring
        _ = ((mulAdd mul base ds carry).1 + mul * d.toNat) * base ^ ds.length +
            value base (mulAdd mul base ds carry).2 := by rw [hdm, hx]
        _ = mul * d.toNat * base ^ ds.length + ((mulAdd mul base ds carry).1 * base ^ ds.length +
            value base (mulAdd mul base ds carry).2) := by ring
        _ = mul * d.toNat * base ^ ds.length + (value base ds * mul + carry) := by rw [hv]
        _ = (d.toNat * base ^ ds.length + value base ds) * mul + carry := by ring
    · rw [List.length_cons, List.length_cons, hlen]
    · intro d' hd'
      rcases List.mem_cons.mp hd' with rfl | hd'
      · rw [hmod]
        exact Nat.mod_lt x hbase
      · exact hlt d' hd'

/-- Where the number fits nothing is carried out of it. -/
theorem mulAdd_fits {mul : Nat} (hbase : 0 < base) (h256 : base ≤ 256) {ds : List UInt8}
    {carry : Nat} (h : value base ds * mul + carry < base ^ ds.length) :
    (mulAdd mul base ds carry).1 = 0 ∧
      value base (mulAdd mul base ds carry).2 = value base ds * mul + carry := by
  obtain ⟨hv, -, -⟩ := mulAdd_spec mul hbase h256 ds carry
  have hzero : (mulAdd mul base ds carry).1 = 0 := by
    by_contra hne
    have hle : base ^ ds.length ≤ (mulAdd mul base ds carry).1 * base ^ ds.length :=
      Nat.le_mul_of_pos_left _ (Nat.pos_of_ne_zero hne)
    omega
  rw [hzero, Nat.zero_mul, Nat.zero_add] at hv
  exact ⟨hzero, hv⟩

/-- The digits of one base, taken one by one into a number of so many digits of another. -/
def convert (mul base : Nat) (ds : List UInt8) (buf : List UInt8) : List UInt8 :=
  ds.foldl (fun buf d => (mulAdd mul base buf d.toNat).2) buf

theorem convert_spec {mul : Nat} (hbase : 0 < base) (h256 : base ≤ 256) {ds buf : List UInt8}
    (hds : ∀ d ∈ ds, d.toNat < mul) (hbuf : ∀ d ∈ buf, d.toNat < base)
    (hroom : (value base buf + 1) * mul ^ ds.length ≤ base ^ buf.length) :
    (convert mul base ds buf).length = buf.length ∧
      (∀ d ∈ convert mul base ds buf, d.toNat < base) ∧
      value base (convert mul base ds buf) = value base buf * mul ^ ds.length + value mul ds := by
  induction ds generalizing buf with
  | nil => exact ⟨rfl, hbuf, by simp [convert]⟩
  | cons d ds ih =>
    have hd := hds d List.mem_cons_self
    have hds' : ∀ d' ∈ ds, d'.toNat < mul := fun d' hd' => hds d' (List.mem_cons_of_mem d hd')
    obtain ⟨-, hlen, hlt⟩ := mulAdd_spec mul hbase h256 buf d.toNat
    have hmul : 0 < mul := Nat.lt_of_le_of_lt (Nat.zero_le _) hd
    have hpow : 1 ≤ mul ^ ds.length := Nat.pow_pos hmul
    rw [List.length_cons, pow_succ] at hroom
    have hstep : (value base buf * mul + d.toNat + 1) * mul ^ ds.length ≤ base ^ buf.length := by
      refine Nat.le_trans ?_ hroom
      calc (value base buf * mul + d.toNat + 1) * mul ^ ds.length
          ≤ (value base buf * mul + mul) * mul ^ ds.length := Nat.mul_le_mul_right _ (by omega)
        _ = (value base buf + 1) * (mul ^ ds.length * mul) := by ring
    have hfit : value base buf * mul + d.toNat < base ^ buf.length := by
      have := Nat.le_mul_of_pos_right (value base buf * mul + d.toNat + 1) hpow
      omega
    obtain ⟨-, hv⟩ := mulAdd_fits hbase h256 hfit
    obtain ⟨hlen', hlt', hv'⟩ := @ih (mulAdd mul base buf d.toNat).2 hds' hlt (by rw [hv, hlen]; exact hstep)
    refine ⟨hlen'.trans hlen, hlt', ?_⟩
    rw [List.length_cons, value_cons, pow_succ]
    refine hv'.trans ?_
    rw [hv]
    ring

end Radix
