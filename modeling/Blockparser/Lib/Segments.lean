import Mathlib.Tactic

/-! Folds over words that are cut into segments. The end of a segment is marked by a
letter, so that the marks of a prefix count the segments it has passed. -/
namespace Segments
variable {σ κ α β : Type}

theorem prefix_cases {v w u : List κ} (h : v <+: w ++ u) :
    v <+: w ∨ ∃ v', v = w ++ v' ∧ v' <+: u := by
  cases List.prefix_or_prefix_of_prefix h (List.prefix_append w u) with
  | inl hv => exact Or.inl hv
  | inr hw =>
    obtain ⟨v', rfl⟩ := hw
    exact Or.inr ⟨v', rfl, (List.prefix_append_right_inj w).mp h⟩

theorem prefix_pair {v : List κ} {c d : κ} (hv : v <+: [c, d]) : v = [] ∨ v = [c] ∨ v = [c, d] := by
  cases List.prefix_concat_iff.mp (show v <+: [c] ++ [d] from hv) with
  | inl hv => exact Or.inr (Or.inr hv)
  | inr hv =>
    cases List.prefix_concat_iff.mp (show v <+: [] ++ [c] from hv) with
    | inl hv => exact Or.inr (Or.inl hv)
    | inr hv => exact Or.inl (List.prefix_nil.mp hv)

/-- Letters without a value for `f` are skipped. -/
theorem foldl_filterMap {step : σ → κ → σ} {f : κ → Option β} {g : σ → β → σ} {w : List κ}
    (h : ∀ c ∈ w, ∀ s, step s c = (f c).elim s (g s)) (s : σ) :
    w.foldl step s = (w.filterMap f).foldl g s := by
  induction w generalizing s with
  | nil => rfl
  | cons c w ih =>
    have hrest := ih (fun d hd => h d (List.mem_cons_of_mem c hd)) (step s c)
    rw [List.foldl_cons, hrest, h c (List.mem_cons_self ..)]
    cases hc : f c with
    | none => rw [List.filterMap_cons_none hc]; rfl
    | some b => rw [List.filterMap_cons_some hc]; rfl

/-- What no letter of the word changes is kept. -/
theorem foldl_kept {step : σ → κ → σ} (get : σ → β) {w : List κ}
    (h : ∀ c ∈ w, ∀ s, get (step s c) = get s) (s : σ) : get (w.foldl step s) = get s := by
  induction w generalizing s with
  | nil => rfl
  | cons c w ih =>
    have hrest := ih (fun d hd => h d (List.mem_cons_of_mem c hd)) (step s c)
    rw [List.foldl_cons, hrest, h c List.mem_cons_self]

theorem foldl_ignored {step : σ → κ → σ} {w : List κ} (h : ∀ c ∈ w, ∀ s, step s c = s) (s : σ) :
    w.foldl step s = s := foldl_kept id h s

/-- The word `w` has the segments `xs`: `P` holds behind the segments before it, `P'`
behind its last one, and `Q` all along. -/
structure Keeps (mark : κ → Bool) (step : σ → κ → σ) (P P' Q : List α → σ → Prop)
    (pre : List α) (w : List κ) (xs : List α) : Prop where
  count : w.countP mark = xs.length
  last : ∀ s, P pre s → P' (pre ++ xs) (w.foldl step s)
  mid : ∀ s, P pre s → ∀ v, v <+: w → Q (pre ++ xs.take (v.countP mark)) (v.foldl step s)

variable {mark : κ → Bool} {step : σ → κ → σ} {P P' P'' Q : List α → σ → Prop} {pre xs ys : List α}
  {w u : List κ}

theorem Keeps.nil (hPP' : ∀ s, P pre s → P' pre s) (hQ : ∀ s, P pre s → Q pre s) :
    Keeps mark step P P' Q pre [] [] where
  count := rfl
  last s hs := by simpa using hPP' s hs
  mid := by
    intro s hs v hv
    rw [List.prefix_nil.mp hv]
    simpa using hQ s hs

theorem Keeps.append (hw : Keeps mark step P P' Q pre w xs)
    (hu : Keeps mark step P' P'' Q (pre ++ xs) u ys) :
    Keeps mark step P P'' Q pre (w ++ u) (xs ++ ys) where
  count := by rw [List.countP_append, hw.count, hu.count, List.length_append]
  last := by
    intro s hs
    rw [List.foldl_append, ← List.append_assoc]
    exact hu.last _ (hw.last s hs)
  mid := by
    intro s hs v hv
    cases prefix_cases hv with
    | inl hv =>
      have hle := hv.sublist.countP_le (p := mark)
      rw [hw.count] at hle
      rw [List.take_append_of_le_length hle]
      exact hw.mid s hs v hv
    | inr hv =>
      obtain ⟨v', rfl, hv'⟩ := hv
      have hmid := hu.mid _ (hw.last s hs) v' hv'
      rw [List.countP_append, hw.count, List.take_length_add_append, List.foldl_append,
        ← List.append_assoc]
      exact hmid

/-- Letters that end no segment. -/
theorem Keeps.inside (hmark : ∀ c ∈ w, mark c = false)
    (hlast : ∀ s, P pre s → P' pre (w.foldl step s))
    (hmid : ∀ s, P pre s → ∀ v, v <+: w → Q pre (v.foldl step s)) :
    Keeps mark step P P' Q pre w [] where
  count := by
    rw [List.length_nil, List.countP_eq_zero]
    intro c hc
    simp [hmark c hc]
  last s hs := by simpa using hlast s hs
  mid s hs v hv := by simpa using hmid s hs v hv

theorem Keeps.pair {c d : κ} (hc : mark c = false) (hd : mark d = false)
    (h0 : ∀ s, P pre s → Q pre s) (h1 : ∀ s, P pre s → Q pre (step s c))
    (h2 : ∀ s, P' pre s → Q pre s) (hP : ∀ s, P pre s → P' pre (step (step s c) d)) :
    Keeps mark step P P' Q pre [c, d] [] := by
  refine Keeps.inside ?_ hP ?_
  · intro e he
    cases List.mem_cons.mp he with
    | inl he => rw [he, hc]
    | inr he => rw [List.mem_singleton.mp he, hd]
  · intro s hs v hv
    rcases prefix_pair hv with rfl | rfl | rfl
    · exact h0 s hs
    · exact h1 s hs
    · exact h2 _ (hP s hs)

/-- One segment, with its mark at its end. -/
theorem Keeps.segment {x : α} {c : κ} (hmark : ∀ d ∈ w, mark d = false) (hc : mark c = true)
    (hQ : ∀ s, P' (pre ++ [x]) s → Q (pre ++ [x]) s)
    (hlast : ∀ s, P pre s → P' (pre ++ [x]) ((w ++ [c]).foldl step s))
    (hmid : ∀ s, P pre s → ∀ v, v <+: w → Q pre (v.foldl step s)) :
    Keeps mark step P P' Q pre (w ++ [c]) [x] where
  count := by
    have hw : w.countP mark = 0 := List.countP_eq_zero.mpr fun d hd => by simp [hmark d hd]
    simp [hw, hc]
  last := hlast
  mid := by
    intro s hs v hv
    have hw : w.countP mark = 0 := List.countP_eq_zero.mpr fun d hd => by simp [hmark d hd]
    cases List.prefix_concat_iff.mp hv with
    | inl hv =>
      subst hv
      simpa [hw, hc] using hQ _ (hlast s hs)
    | inr hv =>
      have hle := hv.sublist.countP_le (p := mark)
      have h0 : v.countP mark = 0 := by omega
      simpa [h0] using hmid s hs v hv

end Segments
