import Mathlib.Tactic
import Mathlib.Order.RelClasses

/-! What a sort asks of its comparator, and comparators that take equal keys for ordered. -/
namespace WeakOrder
variable {α κ : Type}

def Incomparable (comp : α → α → Bool) (a b : α) : Prop := comp a b = false ∧ comp b a = false

/-- On the elements of the list the comparator is a strict weak ordering. -/
def SortDefined (comp : α → α → Bool) (l : List α) : Prop :=
  IsStrictWeakOrder {a // a ∈ l} fun a b => comp a b = true

/-- Between different places of the list it answers as some strict weak ordering does. -/
def DefinedApart (comp : α → α → Bool) (l : List α) : Prop :=
  ∃ lt : α → α → Prop, IsStrictWeakOrder α lt ∧
    l.Pairwise fun a b => (comp a b = true ↔ lt a b) ∧ (comp b a = true ↔ lt b a)

/-- The comparator says whether the first key is at most the second. -/
def AtMost [LE κ] (comp : α → α → Bool) (key : α → κ) : Prop :=
  ∀ a b, comp a b = true ↔ key a ≤ key b

variable [LinearOrder κ] {comp : α → α → Bool} {key : α → κ} {a b c : α} {l : List α}

theorem AtMost.self (h : AtMost comp key) (a : α) : comp a a = true := (h a a).mpr le_rfl

theorem AtMost.total (h : AtMost comp key) (a b : α) : comp a b = true ∨ comp b a = true :=
  (le_total (key a) (key b)).imp (h a b).mpr (h b a).mpr

theorem AtMost.not_incomparable (h : AtMost comp key) : ¬Incomparable comp a b := by
  intro hboth
  obtain ⟨hab, hba⟩ := hboth
  cases h.total a b with
  | inl htrue => exact Bool.false_ne_true (hab.symm.trans htrue)
  | inr htrue => exact Bool.false_ne_true (hba.symm.trans htrue)

theorem AtMost.trans (h : AtMost comp key) (hab : comp a b = true) (hbc : comp b c = true) :
    comp a c = true := (h a c).mpr (((h a b).mp hab).trans ((h b c).mp hbc))

theorem AtMost.key_eq (h : AtMost comp key) (hab : comp a b = true) (hba : comp b a = true) :
    key a = key b := le_antisymm ((h a b).mp hab) ((h b a).mp hba)

theorem AtMost.asymm_iff (h : AtMost comp key) :
    (comp a b = true → comp b a = false) ↔ key a ≠ key b := by
  rw [← Bool.not_eq_true, h a b, h b a, not_le]
  constructor
  · intro hlt heq
    exact absurd (hlt heq.le) (heq ▸ lt_irrefl _)
  · intro hne hle
    exact lt_of_le_of_ne hle hne

theorem AtMost.lt_iff (h : AtMost comp key) :
    (comp a b = true ↔ key a < key b) ↔ key a ≠ key b := by
  rw [h a b]
  constructor
  · intro hiff heq
    exact absurd (hiff.mp heq.le) (heq ▸ lt_irrefl _)
  · intro hne
    exact ⟨fun hle => lt_of_le_of_ne hle hne, le_of_lt⟩

theorem keyLt_weakOrder (key : α → κ) : IsStrictWeakOrder α fun a b => key a < key b where
  irrefl _ := lt_irrefl _
  trans _ _ _ := lt_trans
  incomp_trans := by
    intro a b c hab hbc
    have heq := le_antisymm (not_lt.mp hab.2) (not_lt.mp hab.1)
    rw [heq]
    exact hbc

theorem AtMost.sortDefined_iff (h : AtMost comp key) : SortDefined comp l ↔ l = [] := by
  constructor
  · intro hl
    cases l with
    | nil => rfl
    | cons a l =>
      exact absurd (h.self a) (hl.irrefl ⟨a, List.mem_cons_self⟩)
  · intro hl
    have hnone : ∀ a : {a // a ∈ l}, False := by
      intro a
      exact List.ne_nil_of_mem a.2 hl
    exact {
      irrefl := fun a => (hnone a).elim
      trans := fun a => (hnone a).elim
      incomp_trans := fun a => (hnone a).elim }

theorem AtMost.definedApart_iff (h : AtMost comp key) :
    DefinedApart comp l ↔ (l.map key).Nodup := by
  rw [List.Nodup, List.pairwise_map]
  constructor
  · intro hdefined
    obtain ⟨lt, hlt, hl⟩ := hdefined
    refine hl.imp ?_
    intro a b hab heq
    have hfirst : lt a b := hab.1.mp ((h a b).mpr heq.le)
    have hsecond : lt b a := hab.2.mp ((h b a).mpr heq.ge)
    exact hlt.irrefl a (hlt.trans a b a hfirst hsecond)
  · intro hl
    refine ⟨fun a b => key a < key b, keyLt_weakOrder key, hl.imp ?_⟩
    intro a b hne
    exact ⟨h.lt_iff.mpr hne, h.lt_iff.mpr hne.symm⟩

end WeakOrder
