import Mathlib.Tactic
import Mathlib.Data.Set.Basic

/-! Ownership for allocators that recycle what they are given back. A family of
free lists shares one address space; `issued` is what was ever carved from it. -/
namespace FreeList
variable {α ι : Type}

structure Alloc (α ι : Type) where
  issued : Set α
  free : ι → List α

/-- The client owns the addresses of `live`: they were issued, and no free list
holds one of them. Free addresses stand in one place of one list. -/
structure Owns (A : Alloc α ι) (live : Set α) : Prop where
  issued : live ⊆ A.issued
  free_issued : ∀ i, ∀ a ∈ A.free i, a ∈ A.issued
  free_dead : ∀ i, ∀ a ∈ A.free i, a ∉ live
  free_nodup : ∀ i, (A.free i).Nodup
  free_unique : ∀ i j a, a ∈ A.free i → a ∈ A.free j → i = j

variable {A A' : Alloc α ι} {live live' : Set α} {a : α}

theorem Owns.shrink (h : Owns A live) (hs : live' ⊆ live) : Owns A live' where
  issued := hs.trans h.issued
  free_issued := h.free_issued
  free_dead := fun i a ha hl => h.free_dead i a ha (hs hl)
  free_nodup := h.free_nodup
  free_unique := h.free_unique

variable [DecidableEq ι]

/-- An allocation hands out `a`: the last address given back to some list, or one
never issued before. -/
inductive Takes (A A' : Alloc α ι) (a : α) : Prop
  | reuse (i : ι) (l : List α) (hfree : A.free i = a :: l)
      (hfree' : A'.free = Function.update A.free i l) (hissued : A.issued ⊆ A'.issued)
  | fresh (hnew : a ∉ A.issued) (hold : a ∈ A'.issued)
      (hfree' : A'.free = A.free) (hissued : A.issued ⊆ A'.issued)

/-- A release puts `a` on top of list `i`. -/
structure Returns (A A' : Alloc α ι) (i : ι) (a : α) : Prop where
  free : A'.free = Function.update A.free i (a :: A.free i)
  issued : A.issued ⊆ A'.issued

/-- What an allocation returns is not owned yet. -/
theorem Owns.notMem_of_takes (h : Owns A live) (ht : Takes A A' a) : a ∉ live := by
  cases ht with
  | reuse i l hfree => exact h.free_dead i a (by rw [hfree]; exact List.mem_cons_self ..)
  | fresh hnew => exact fun hl => hnew (h.issued hl)

theorem Owns.takes (h : Owns A live) (ht : Takes A A' a) : Owns A' (insert a live) := by
  cases ht with
  | fresh hnew hold hfree' hissued =>
    refine ⟨?_, ?_, ?_, ?_, ?_⟩
    · exact Set.insert_subset hold (h.issued.trans hissued)
    · intro i b hb
      rw [hfree'] at hb
      exact hissued (h.free_issued i b hb)
    · intro i b hb
      rw [hfree'] at hb
      intro h
      cases h with
      | inl he =>
        subst he
        exact hnew (h.free_issued i b hb)
      | inr hl =>
        exact h.free_dead i b hb hl
    · intro i
      rw [hfree']
      exact h.free_nodup i
    · intro i j b
      rw [hfree']
      exact h.free_unique i j b
  | reuse i l hfree hfree' hissued =>
    have hnd := h.free_nodup i
    rw [hfree] at hnd
    have hai : a ∈ A.free i := by rw [hfree]; exact List.mem_cons_self ..
    have hsub : ∀ j b, b ∈ A'.free j → b ∈ A.free j := by
      intro j b hb
      rw [hfree'] at hb
      by_cases hj : j = i
      · subst hj
        rw [Function.update_self] at hb
        rw [hfree]
        exact List.mem_cons_of_mem a hb
      · rwa [Function.update_of_ne hj] at hb
    have hgone : ∀ j, a ∉ A'.free j := by
      intro j hb
      have hj : j = i := h.free_unique j i a (hsub j a hb) hai
      subst hj
      rw [hfree', Function.update_self] at hb
      exact (List.nodup_cons.mp hnd).1 hb
    refine ⟨?_, ?_, ?_, ?_, ?_⟩
    · exact Set.insert_subset (hissued (h.free_issued i a hai)) (h.issued.trans hissued)
    · intro j b hb
      exact hissued (h.free_issued j b (hsub j b hb))
    · intro j b hb h
      cases h with
      | inl he =>
        subst he
        exact hgone j hb
      | inr hl =>
        exact h.free_dead j b (hsub j b hb) hl
    · intro j
      by_cases hj : j = i
      · subst hj
        rw [hfree', Function.update_self]
        exact (List.nodup_cons.mp hnd).2
      · rw [hfree', Function.update_of_ne hj]
        exact h.free_nodup j
    · intro j k b hj hk
      exact h.free_unique j k b (hsub j b hj) (hsub k b hk)

/-- Giving back an owned address leaves the rest owned. -/
theorem Owns.returns {i : ι} (h : Owns A live) (ha : a ∈ live) (hr : Returns A A' i a) :
    Owns A' (live \ {a}) := by
  have hcase : ∀ j b, b ∈ A'.free j → (j = i ∧ b = a) ∨ b ∈ A.free j := by
    intro j b hb
    rw [hr.free] at hb
    by_cases hj : j = i
    · subst hj
      rw [Function.update_self] at hb
      cases List.mem_cons.mp hb with
      | inl he =>
        subst he
        exact Or.inl ⟨rfl, rfl⟩
      | inr hb =>
        exact Or.inr hb
    · rw [Function.update_of_ne hj] at hb
      exact Or.inr hb
  have hout : ∀ j, a ∉ A.free j := fun j hj => h.free_dead j a hj ha
  refine ⟨?_, ?_, ?_, ?_, ?_⟩
  · exact Set.sdiff_subset.trans (h.issued.trans hr.issued)
  · intro j b hb
    rcases hcase j b hb with ⟨-, rfl⟩ | hb
    · exact hr.issued (h.issued ha)
    · exact hr.issued (h.free_issued j b hb)
  · intro j b hb hl
    rcases hcase j b hb with ⟨-, rfl⟩ | hb
    · exact hl.2 rfl
    · exact h.free_dead j b hb hl.1
  · intro j
    rw [hr.free]
    by_cases hj : j = i
    · subst hj
      rw [Function.update_self]
      exact List.nodup_cons.mpr ⟨hout j, h.free_nodup j⟩
    · rw [Function.update_of_ne hj]
      exact h.free_nodup j
  · intro j k b hj hk
    rcases hcase j b hj with ⟨hji, hba⟩ | hj'
    · rcases hcase k b hk with ⟨hki, -⟩ | hk'
      · rw [hji, hki]
      · exact absurd (hba ▸ hk') (hout k)
    · rcases hcase k b hk with ⟨-, hba⟩ | hk'
      · exact absurd (hba ▸ hj') (hout j)
      · exact h.free_unique j k b hj' hk'

variable {ρ : Type} [DecidableEq ρ] {loc : ρ → α} {S : Set ρ} {r : ρ}

omit [DecidableEq ι] in
theorem eqOn_update (hr : r ∉ S) (a : α) : Set.EqOn (Function.update loc r a) loc S := by
  intro q hq
  have hne : q ≠ r := by
    intro he
    subst he
    exact hr hq
  exact Function.update_of_ne hne a loc

/-- A new role takes an address that no role has. -/
theorem injOn_update (hi : Set.InjOn loc S) (hr : r ∉ S) (ha : a ∉ loc '' S) :
    Set.InjOn (Function.update loc r a) (insert r S) := by
  rw [Set.injOn_insert hr, Set.image_congr (eqOn_update hr a), Function.update_self]
  exact ⟨(eqOn_update hr a).injOn_iff.mpr hi, ha⟩

theorem image_update (hr : r ∉ S) : Function.update loc r a '' insert r S = insert a (loc '' S) := by
  rw [Set.image_insert_eq, Set.image_congr (eqOn_update hr a), Function.update_self]

end FreeList
