import Mathlib.Tactic

/-! The `n` largest of some elements, as the first ones of a list. -/
namespace Top
variable {α β : Type*} [LE β] (f : α → β)

/-- `shown` has `n` of the elements `xs`, or all of them, each of them once, and none that is
left out is larger than one of them. -/
structure IsTopN (xs shown : List α) (n : Nat) : Prop where
  nodup : shown.Nodup
  mem : ∀ x ∈ shown, x ∈ xs
  length : shown.length = min n xs.length
  largest : ∀ x ∈ shown, ∀ y ∈ xs, y ∉ shown → f y ≤ f x

/-- No element behind the first `n` is larger than one of them. -/
def FirstLargest (xs : List α) (n : Nat) : Prop := ∀ x ∈ xs.take n, ∀ y ∈ xs.drop n, f y ≤ f x

variable {f} {xs ys shown : List α} {n : Nat}

theorem firstLargest_of_sorted (h : xs.Pairwise fun x y => f y ≤ f x) (n : Nat) :
    FirstLargest f xs n := by
  rw [← List.take_append_drop n xs, List.pairwise_append] at h
  exact h.2.2

theorem isTopN_take_iff (hnodup : xs.Nodup) : IsTopN f xs (xs.take n) n ↔ FirstLargest f xs n := by
  have hsplit : ∀ y, y ∈ xs.drop n ↔ y ∈ xs ∧ y ∉ xs.take n := by
    intro y
    have happend := List.take_append_drop n xs
    rw [← happend, List.nodup_append] at hnodup
    constructor
    · intro hy
      exact ⟨List.mem_of_mem_drop hy, fun hin => hnodup.2.2 y hin y hy rfl⟩
    · intro hy
      have hboth := hy.1
      rw [← happend] at hboth
      exact (List.mem_append.mp hboth).resolve_left hy.2
  constructor
  · intro h x hx y hy
    exact h.largest x hx y ((hsplit y).mp hy).1 ((hsplit y).mp hy).2
  · intro h
    refine ⟨hnodup.sublist (List.take_sublist n xs), fun x => List.mem_of_mem_take,
      List.length_take, ?_⟩
    intro x hx y hy hout
    exact h x hx y ((hsplit y).mpr ⟨hy, hout⟩)

theorem isTopN_perm (h : xs.Perm ys) : IsTopN f xs shown n ↔ IsTopN f ys shown n := by
  have hmem : ∀ x, x ∈ xs ↔ x ∈ ys := fun x => h.mem_iff
  constructor
  · intro ht
    exact ⟨ht.nodup, fun x hx => (hmem x).mp (ht.mem x hx), h.length_eq ▸ ht.length,
      fun x hx y hy => ht.largest x hx y ((hmem y).mpr hy)⟩
  · intro ht
    exact ⟨ht.nodup, fun x hx => (hmem x).mpr (ht.mem x hx), h.length_eq.symm ▸ ht.length,
      fun x hx y hy => ht.largest x hx y ((hmem y).mp hy)⟩

end Top
