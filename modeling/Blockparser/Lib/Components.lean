import Mathlib.Tactic
import Mathlib.Logic.Relation

/-! Connected components of a graph given by its list of edges, found by relabelling one
side of each edge with the label of the other. -/
namespace Components
variable {α : Type} {es : List (α × α)} {a b x y : α}

/-- SameComponent by a path of edges, in whichever direction each is listed. -/
def SameComponent (es : List (α × α)) : α → α → Prop := Relation.EqvGen fun a b => (a, b) ∈ es

theorem SameComponent.of_mem (h : (a, b) ∈ es) : SameComponent es a b := Relation.EqvGen.rel a b h
theorem SameComponent.refl (a : α) : SameComponent es a a := Relation.EqvGen.refl a
theorem SameComponent.symm (h : SameComponent es a b) : SameComponent es b a :=
  Relation.EqvGen.symm a b h
theorem SameComponent.trans {c : α} (h : SameComponent es a b) (h' : SameComponent es b c) :
    SameComponent es a c := Relation.EqvGen.trans a b c h h'

/-- Joining is the least equivalence that holds of the edges. -/
theorem SameComponent.least {R : α → α → Prop} (hR : Equivalence R) (he : ∀ e ∈ es, R e.1 e.2)
    (h : SameComponent es a b) : R a b := by
  induction h with
  | rel a b h => exact he (a, b) h
  | refl a => exact hR.refl a
  | symm a b _ ih => exact hR.symm ih
  | trans a b c _ _ ih ih' => exact hR.trans ih ih'

theorem SameComponent.mono {es' : List (α × α)} (hsub : ∀ e ∈ es, e ∈ es')
    (h : SameComponent es a b) : SameComponent es' a b :=
  h.least ⟨SameComponent.refl, SameComponent.symm, SameComponent.trans⟩ fun e he =>
    SameComponent.of_mem (hsub e he)

/-- The members of a list are joined by the edges between its neighbours. -/
theorem joined_neighbours (vs : List α) (ha : a ∈ vs) (hb : b ∈ vs) :
    SameComponent (vs.zip vs.tail) a b := by
  cases vs with
  | nil => cases ha
  | cons v vs =>
    have hfrom : ∀ c ∈ v :: vs, SameComponent ((v :: vs).zip vs) v c := by
      clear ha hb
      induction vs generalizing v with
      | nil =>
        intro c hc
        rw [List.mem_singleton.mp hc]
        exact SameComponent.refl v
      | cons w vs ih =>
        intro c hc
        cases List.mem_cons.mp hc with
        | inl hc =>
          rw [hc]
          exact SameComponent.refl v
        | inr hc =>
          have hvw : SameComponent ((v :: w :: vs).zip (w :: vs)) v w :=
            SameComponent.of_mem (List.mem_cons_self ..)
          exact hvw.trans ((ih w c hc).mono fun e he => List.mem_cons_of_mem _ he)
    exact (hfrom a ha).symm.trans (hfrom b hb)

/-- Every member of a list with two or more is an end of such an edge. -/
theorem mem_neighbours {vs : List α} (hlen : 2 ≤ vs.length) (ha : a ∈ vs) :
    ∃ e ∈ vs.zip vs.tail, e.1 = a ∨ e.2 = a := by
  induction vs with
  | nil => cases ha
  | cons v vs ih =>
    cases vs with
    | nil => simp at hlen
    | cons w vs =>
      cases List.mem_cons.mp ha with
      | inl hv => exact ⟨(v, w), List.mem_cons_self .., Or.inl hv.symm⟩
      | inr hw =>
        cases vs with
        | nil => exact ⟨(v, w), List.mem_cons_self .., Or.inr (List.mem_singleton.mp hw).symm⟩
        | cons u vs =>
          obtain ⟨e, he, hea⟩ := ih (by simp) hw
          exact ⟨e, List.mem_cons_of_mem _ he, hea⟩

theorem mem_of_neighbours {vs : List α} {e : α × α} (he : e ∈ vs.zip vs.tail) :
    2 ≤ vs.length ∧ e.1 ∈ vs ∧ e.2 ∈ vs := by
  have he' : (e.1, e.2) ∈ vs.zip vs.tail := he
  obtain ⟨h1, h2⟩ := List.of_mem_zip he'
  refine ⟨?_, h1, List.mem_of_mem_tail h2⟩
  have hpos := List.length_pos_of_mem h2
  rw [List.length_tail] at hpos
  omega

variable [DecidableEq α]

/-- Give the class of `b` the label of `a`. -/
def merge (f : α → α) (e : α × α) : α → α := fun x => if f x = f e.2 then f e.1 else f x

def classes (es : List (α × α)) : α → α := es.foldl merge id

theorem classes_iff (es : List (α × α)) (x y : α) :
    classes es x = classes es y ↔ SameComponent es x y := by
  induction es using List.reverseRecOn generalizing x y with
  | nil =>
    constructor
    · intro h
      rw [show x = y from h]
      exact SameComponent.refl y
    · intro h
      have heq : x = y := h.least ⟨fun _ => rfl, Eq.symm, Eq.trans⟩ (by simp)
      rw [heq]
  | append_singleton es e ih =>
    have hsub : ∀ d ∈ es, d ∈ es ++ [e] := fun d hd => List.mem_append_left _ hd
    have hedge : SameComponent (es ++ [e]) e.1 e.2 := SameComponent.of_mem (by simp)
    have hold : ∀ {u v}, classes es u = classes es v → SameComponent (es ++ [e]) u v := fun h =>
      ((ih _ _).mp h).mono hsub
    rw [classes, List.foldl_append, ← classes]
    show merge (classes es) e x = merge (classes es) e y ↔ _
    constructor
    · unfold merge
      intro h
      split at h <;> split at h
      · rename_i hx hy
        exact hold (hx.trans hy.symm)
      · rename_i hx hy
        exact (hold hx).trans (hedge.symm.trans (hold h))
      · rename_i hx hy
        exact (hold h).trans (hedge.trans (hold hy).symm)
      · exact hold h
    · intro h
      refine h.least (R := fun a b => merge (classes es) e a = merge (classes es) e b)
        ⟨fun _ => rfl, Eq.symm, Eq.trans⟩ ?_
      intro d hd
      cases List.mem_append.mp hd with
      | inl hd =>
        have := (ih d.1 d.2).mpr (SameComponent.of_mem hd)
        simp only [merge, this]
      | inr hd =>
        rw [List.mem_singleton.mp hd]
        by_cases he : classes es e.1 = classes es e.2
        · simp [merge, he]
        · simp [merge, he]

end Components
