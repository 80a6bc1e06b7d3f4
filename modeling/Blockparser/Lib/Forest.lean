import Mathlib.Tactic

/-! Forests given by a parent function: depth below a root, ancestors, and paths that
climb towards the root. -/
namespace Forest
variable {α : Type*} {parent : α → Option α} {root : α}

/-- `b` lies `n` parent steps below the root. -/
inductive Depth (parent : α → Option α) (root : α) : α → Nat → Prop
  | root : Depth parent root root 0
  | step {b p : α} {n : Nat} : b ≠ root → parent b = some p → Depth parent root p n →
      Depth parent root b (n + 1)

/-- `b` lies below the root. -/
def Connected (parent : α → Option α) (root b : α) : Prop := ∃ n, Depth parent root b n

/-- `a` is reached from `b` by at least one parent step. -/
def Above (parent : α → Option α) (b a : α) : Prop :=
  Relation.TransGen (fun x y => parent x = some y) b a

def Acyclic (parent : α → Option α) : Prop := ∀ b, ¬Above parent b b

/-- A rank that parents lower rules out cycles. -/
theorem acyclic_of_rank (rank : α → Nat) (h : ∀ b p, parent b = some p → rank p < rank b) :
    Acyclic parent := by
  have hlt : ∀ b a, Above parent b a → rank a < rank b := by
    intro b a hba
    induction hba with
    | single hp => exact h _ _ hp
    | tail _ hp ih => exact Nat.lt_trans (h _ _ hp) ih
  exact fun b hb => Nat.lt_irrefl _ (hlt b b hb)

/-- The parent of a block below the root is one step nearer to it. -/
theorem Depth.parent_step {b p : α} {n : Nat} (h : Depth parent root b n) (hb : b ≠ root)
    (hp : parent b = some p) : ∃ m, n = m + 1 ∧ Depth parent root p m := by
  cases h with
  | root => exact absurd rfl hb
  | step _ hq hd =>
    cases hp.symm.trans hq
    exact ⟨_, rfl, hd⟩

theorem Depth.unique {b : α} {m n : Nat} (hm : Depth parent root b m)
    (hn : Depth parent root b n) : m = n := by
  induction hm generalizing n with
  | root =>
    cases hn with
    | root => rfl
    | step hb => exact absurd rfl hb
  | step hb hp _ ih =>
    obtain ⟨k, rfl, hk⟩ := hn.parent_step hb hp
    rw [ih hk]

theorem Depth.pos {b : α} {n : Nat} (h : Depth parent root b n) (hb : b ≠ root) : 0 < n := by
  cases h with
  | root => exact absurd rfl hb
  | step => omega

theorem connected_root : Connected parent root root := ⟨0, Depth.root⟩

theorem connected_step {b p : α} (hb : b ≠ root) (hp : parent b = some p) :
    Connected parent root b ↔ Connected parent root p := by
  constructor
  · rintro ⟨n, hn⟩
    obtain ⟨m, -, hm⟩ := hn.parent_step hb hp
    exact ⟨m, hm⟩
  · rintro ⟨n, hn⟩
    exact ⟨n + 1, Depth.step hb hp hn⟩

theorem not_connected {b : α} (hb : b ≠ root) (hp : parent b = none) :
    ¬Connected parent root b := by
  rintro ⟨n, hn⟩
  cases hn with
  | root => exact hb rfl
  | step _ hq => cases hp.symm.trans hq

/-- `path` leads from `b` away from the root: each element is a child of the one before. -/
def Descends (parent : α → Option α) : α → List α → Prop
  | _, [] => True
  | b, c :: cs => parent c = some b ∧ Descends parent c cs

theorem Descends.above {b : α} {path : List α} (h : Descends parent b path) :
    ∀ c ∈ path, Above parent c b := by
  induction path generalizing b with
  | nil =>
    intro c hc
    cases hc
  | cons d ds ih =>
    intro c hc
    have hd : Above parent d b := Relation.TransGen.single h.1
    cases hc with
    | head => exact hd
    | tail _ hc => exact Relation.TransGen.trans (ih h.2 c hc) hd

/-- Without cycles a path meets no element twice. -/
theorem Descends.nodup {b : α} {path : List α} (ha : Acyclic parent)
    (h : Descends parent b path) : (b :: path).Nodup := by
  induction path generalizing b with
  | nil => exact List.nodup_singleton b
  | cons c cs ih =>
    refine List.nodup_cons.mpr ⟨fun hb => ha b (h.above b hb), ih h.2⟩

theorem Above.parent_step {b p a : α} (hp : parent b = some p) (h : Above parent b a) :
    a = p ∨ Above parent p a := by
  obtain ⟨q, hq, hqa⟩ := Relation.TransGen.head'_iff.mp h
  cases hp.symm.trans hq
  exact Relation.reflTransGen_iff_eq_or_transGen.mp hqa

theorem not_above_of_none {b a : α} (hp : parent b = none) : ¬Above parent b a := by
  intro h
  obtain ⟨q, hq, -⟩ := Relation.TransGen.head'_iff.mp h
  cases hp.symm.trans hq

theorem eq_of_last_singleton {m b : α} (h : [m] <:+ [b]) : m = b := by
  cases List.suffix_cons_iff.mp h with
  | inl h => simpa using h
  | inr h => simp at h

theorem last_tail {m b c : α} {cs : List α} (h : [m] <:+ b :: c :: cs) : [m] <:+ c :: cs := by
  cases List.suffix_cons_iff.mp h with
  | inl h => simp at h
  | inr h => exact h

/-- On a path down to `m`, everything before `m` is above it. -/
theorem Descends.above_last {b m : α} {path : List α} (h : Descends parent b path)
    (hlast : [m] <:+ b :: path) : ∀ c ∈ b :: path, c = m ∨ Above parent m c := by
  induction path generalizing b with
  | nil =>
    intro c hc
    rw [eq_of_last_singleton hlast]
    exact Or.inl (by simpa using hc)
  | cons d ds ih =>
    intro c hc
    cases hc with
    | head => exact Or.inr (h.above m ((last_tail hlast).subset (by simp)))
    | tail _ hc => exact ih h.2 (last_tail hlast) c hc

/-- What is above the end of a path lies on it or above its start. -/
theorem Descends.mem_of_above {b m a : α} {path : List α} (h : Descends parent b path)
    (hlast : [m] <:+ b :: path) (ha : Above parent m a) : a ∈ b :: path ∨ Above parent b a := by
  induction path generalizing b with
  | nil => exact Or.inr (eq_of_last_singleton hlast ▸ ha)
  | cons d ds ih =>
    cases ih h.2 (last_tail hlast) with
    | inl hm => exact Or.inl (List.mem_cons_of_mem b hm)
    | inr hd =>
      cases hd.parent_step h.1 with
      | inl hab => exact Or.inl (by simp [hab])
      | inr hb => exact Or.inr hb

/-- The depths along a path go up by one. -/
theorem Descends.depth {b : α} {path : List α} {n : Nat} (h : Descends parent b path)
    (hne : ∀ c ∈ path, c ≠ root) (hd : Depth parent root b n) (i : Nat) {c : α}
    (hc : path[i]? = some c) : Depth parent root c (n + i + 1) := by
  induction path generalizing b n i with
  | nil => simp at hc
  | cons d ds ih =>
    have hd' : Depth parent root d (n + 1) := Depth.step (hne d (by simp)) h.1 hd
    cases i with
    | zero =>
      cases hc
      exact hd'
    | succ i =>
      have := ih h.2 (fun e he => hne e (List.mem_cons_of_mem d he)) hd' i (by simpa using hc)
      rwa [show n + (i + 1) + 1 = n + 1 + i + 1 by omega]

end Forest
