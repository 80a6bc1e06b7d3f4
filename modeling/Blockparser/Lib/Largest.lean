import Mathlib.Tactic

/-! The largest value of a function on a list, and the first element that has it, found by
going through the list once. -/
namespace Largest
variable {α : Type*} (f : α → Nat)

/-- 0 for the empty list. -/
def largest (xs : List α) : Nat := (xs.map f).foldr max 0

/-- `x` has the largest value, and no element before it has. -/
def IsFirst (xs : List α) (x : α) : Prop :=
  ∃ pre post, xs = pre ++ x :: post ∧ (∀ y ∈ pre, f y < f x) ∧ ∀ y ∈ post, f y ≤ f x

/-- An element replaces the best one so far where its value is larger. -/
def better (best : Option α) (x : α) : Option α := if best.elim 0 f < f x then some x else best

def best (xs : List α) : Option α := xs.foldl (better f) none

variable {f} {xs ys : List α} {x y : α} {n : Nat}

theorem largest_cons (x : α) (xs : List α) : largest f (x :: xs) = max (f x) (largest f xs) := rfl

theorem largest_append (xs ys : List α) :
    largest f (xs ++ ys) = max (largest f xs) (largest f ys) := by
  induction xs with
  | nil => simp [largest]
  | cons x xs ih => rw [List.cons_append, largest_cons, ih, largest_cons, max_assoc]

theorem largest_singleton (x : α) : largest f [x] = f x := by simp [largest]

theorem le_largest (hx : x ∈ xs) : f x ≤ largest f xs := by
  obtain ⟨pre, post, rfl⟩ := List.append_of_mem hx
  rw [← List.singleton_append, largest_append, largest_append, largest_singleton]
  exact le_max_of_le_right (le_max_left _ _)

theorem largest_le (h : ∀ x ∈ xs, f x ≤ n) : largest f xs ≤ n := by
  induction xs with
  | nil => exact Nat.zero_le n
  | cons x xs ih =>
    rw [← List.singleton_append, largest_append, largest_singleton]
    exact max_le (h x List.mem_cons_self) (ih fun y hy => h y (List.mem_cons_of_mem x hy))

theorem IsFirst.value (h : IsFirst f xs x) : f x = largest f xs := by
  obtain ⟨pre, post, rfl, hpre, hpost⟩ := h
  apply le_antisymm
  · exact le_largest (List.mem_append_right pre List.mem_cons_self)
  · apply largest_le
    intro y hy
    cases List.mem_append.mp hy with
    | inl hy => exact Nat.le_of_lt (hpre y hy)
    | inr hy =>
      cases List.mem_cons.mp hy with
      | inl hy => rw [hy]
      | inr hy => exact hpost y hy

/-- There is only one first element. -/
theorem IsFirst.unique (hx : IsFirst f xs x) (hy : IsFirst f xs y) : x = y := by
  have heq : f x = f y := hx.value.trans hy.value.symm
  obtain ⟨pre, post, rfl, hpre, -⟩ := hx
  obtain ⟨pre', post', hsplit, hpre', -⟩ := hy
  have hcases := List.append_eq_append_iff.mp hsplit
  cases hcases with
  | inl h =>
    obtain ⟨mid, rfl, hmid⟩ := h
    cases mid with
    | nil =>
      rw [List.nil_append] at hmid
      exact (List.cons.inj hmid).1
    | cons z mid =>
      have hz := (List.cons.inj hmid).1
      have hlt := hpre' z (List.mem_append_right pre List.mem_cons_self)
      rw [← hz, heq] at hlt
      exact absurd hlt (lt_irrefl _)
  | inr h =>
    obtain ⟨mid, rfl, hmid⟩ := h
    cases mid with
    | nil =>
      rw [List.nil_append] at hmid
      exact (List.cons.inj hmid).1.symm
    | cons z mid =>
      have hz := (List.cons.inj hmid).1
      have hlt := hpre z (List.mem_append_right pre' List.mem_cons_self)
      rw [← hz, heq] at hlt
      exact absurd hlt (lt_irrefl _)

/-- A later element that is no larger leaves the first one. -/
theorem IsFirst.snoc (h : IsFirst f xs x) (hy : f y ≤ largest f xs) : IsFirst f (xs ++ [y]) x := by
  rw [← h.value] at hy
  obtain ⟨pre, post, rfl, hpre, hpost⟩ := h
  refine ⟨pre, post ++ [y], by simp, hpre, ?_⟩
  intro z hz
  cases List.mem_append.mp hz with
  | inl hz => exact hpost z hz
  | inr hz => rwa [List.mem_singleton.mp hz]

theorem isFirst_last (h : largest f xs < f x) : IsFirst f (xs ++ [x]) x :=
  ⟨xs, [], rfl, fun _ hy => lt_of_le_of_lt (le_largest hy) h, fun _ hy => absurd hy List.not_mem_nil⟩

theorem isFirst_head (h : largest f (x :: xs) = 0) : IsFirst f (x :: xs) x := by
  refine ⟨[], xs, rfl, fun _ hy => absurd hy List.not_mem_nil, ?_⟩
  intro y hy
  have hle := le_largest (f := f) (List.mem_cons_of_mem x hy)
  omega

theorem best_snoc (xs : List α) (x : α) : best f (xs ++ [x]) = better f (best f xs) x := by
  rw [best, List.foldl_append]
  rfl

/-- One pass finds the largest value, and the first element that has it unless that is 0. -/
theorem best_spec (xs : List α) :
    (best f xs).elim 0 f = largest f xs ∧ ∀ x, best f xs = some x → IsFirst f xs x ∧ 0 < f x := by
  induction xs using List.reverseRecOn with
  | nil => exact ⟨rfl, fun x hx => nomatch hx⟩
  | append_singleton xs x ih =>
    obtain ⟨hmax, hfirst⟩ := ih
    rw [best_snoc, better, hmax, largest_append, largest_singleton]
    by_cases hlt : largest f xs < f x
    · rw [if_pos hlt]
      refine ⟨(max_eq_right (Nat.le_of_lt hlt)).symm, ?_⟩
      intro y hy
      rw [← Option.some.inj hy]
      exact ⟨isFirst_last hlt, by omega⟩
    · rw [if_neg hlt, max_eq_left (by omega)]
      exact ⟨hmax, fun y hy => ⟨(hfirst y hy).1.snoc (by omega), (hfirst y hy).2⟩⟩

end Largest
