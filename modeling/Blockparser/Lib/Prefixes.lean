import Mathlib.Data.List.Infix

/-! What holds all along a run, where a run is the list of its steps. -/
namespace Prefixes
variable {α : Type*} {P : List α → Prop} {Q : List α → α → Prop} {xs ys : List α} {x : α}

/-- It holds at the start and after every step. -/
def Always (P : List α → Prop) (xs : List α) : Prop := ∀ pre, pre <+: xs → P pre

/-- Every step is one that `Q` allows after those before it. -/
def Steps (Q : List α → α → Prop) (xs : List α) : Prop := ∀ pre x, pre ++ [x] <+: xs → Q pre x

theorem always_nil : Always P [] ↔ P [] := by
  constructor
  · exact fun h => h [] (List.prefix_refl [])
  · intro h pre hpre
    rw [List.prefix_nil.mp hpre]
    exact h

theorem always_append : Always P (xs ++ [x]) ↔ Always P xs ∧ P (xs ++ [x]) := by
  constructor
  · exact fun h => ⟨fun pre hpre => h pre (List.prefix_append_of_prefix hpre),
      h _ (List.prefix_refl _)⟩
  · intro h pre hpre
    cases List.prefix_concat_iff.mp hpre with
    | inl he =>
      rw [he]
      exact h.2
    | inr hpre => exact h.1 pre hpre

theorem steps_nil : Steps Q [] := by
  intro pre x hpre
  have hlen := hpre.length_le
  simp at hlen

theorem steps_append : Steps Q (xs ++ [x]) ↔ Steps Q xs ∧ Q xs x := by
  constructor
  · exact fun h => ⟨fun pre y hpre => h pre y (List.prefix_append_of_prefix hpre),
      h xs x (List.prefix_refl _)⟩
  · intro h pre y hpre
    cases List.prefix_concat_iff.mp hpre with
    | inl he =>
      have hboth := List.append_inj' he rfl
      rw [hboth.1, List.singleton_inj.mp hboth.2]
      exact h.2
    | inr hpre => exact h.1 pre y hpre

theorem Always.last (h : Always P xs) : P xs := h xs (List.prefix_refl xs)

/-- What holds at the start holds all along exactly when every step keeps it. -/
theorem always_iff_steps (h0 : P []) (hstep : ∀ xs x, P xs → (P (xs ++ [x]) ↔ Q xs x)) :
    Always P xs ↔ Steps Q xs := by
  induction xs using List.reverseRecOn with
  | nil => exact ⟨fun _ => steps_nil, fun _ => always_nil.mpr h0⟩
  | append_singleton xs x ih =>
    rw [always_append, steps_append, ← ih]
    constructor
    · exact fun h => ⟨h.1, (hstep xs x h.1.last).mp h.2⟩
    · exact fun h => ⟨h.1, (hstep xs x h.1.last).mpr h.2⟩

end Prefixes
