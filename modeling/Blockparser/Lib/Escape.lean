import Mathlib.Tactic

/-! Text in which a mark and the symbol behind it stand for one symbol, so that a symbol
that ends a field can be part of the field. -/
namespace Escape

/-- The special symbols are written as the mark and a name. -/
structure Code (α : Type*) where
  mark : α
  special : α → Bool
  name : α → α
  unname : α → α
  special_mark : special mark = true
  unname_name : ∀ c, special c = true → unname (name c) = c

variable {α : Type*} (code : Code α)

def escapeOne (c : α) : List α := if code.special c then [code.mark, code.name c] else [c]

def escape (x : List α) : List α := x.flatMap (escapeOne code)

theorem ne_mark {code : Code α} {c : α} (hc : code.special c ≠ true) : c ≠ code.mark := by
  intro he
  rw [he] at hc
  exact hc code.special_mark

variable [DecidableEq α]

/-- The flag says that the symbol before was a mark that is not itself escaped. -/
def unescapeFrom : Bool → List α → List α
  | _, [] => []
  | true, c :: cs => code.unname c :: unescapeFrom false cs
  | false, c :: cs => if c = code.mark then unescapeFrom true cs else c :: unescapeFrom false cs

def unescape : List α → List α := unescapeFrom code false

/-- The symbols that are neither an escaping mark nor behind one. -/
def bareFrom : Bool → List α → List α
  | _, [] => []
  | true, _ :: cs => bareFrom false cs
  | false, c :: cs => if c = code.mark then bareFrom true cs else c :: bareFrom false cs

def bare : List α → List α := bareFrom code false

/-- The field in front of the first bare `sep`, unescaped, and the text behind it. -/
def fieldFrom (sep : α) : Bool → List α → Option (List α × List α)
  | _, [] => none
  | true, c :: cs => (fieldFrom sep false cs).map fun f => (code.unname c :: f.1, f.2)
  | false, c :: cs =>
    if c = sep then some ([], cs)
    else if c = code.mark then fieldFrom sep true cs
    else (fieldFrom sep false cs).map fun f => (c :: f.1, f.2)

def field (sep : α) : List α → Option (List α × List α) := fieldFrom code sep false

variable {code} {sep : α} {x y r s : List α}

theorem unescape_escape (x : List α) : unescape code (escape code x) = x := by
  induction x with
  | nil => rfl
  | cons c x ih =>
    rw [unescape] at ih ⊢
    rw [escape, List.flatMap_cons, ← escape]
    by_cases hc : code.special c = true
    · simp [escapeOne, hc, unescapeFrom, ih, code.unname_name c hc]
    · simp [escapeOne, hc, unescapeFrom, ih, ne_mark hc]

theorem bare_escape (x : List α) : bare code (escape code x) = x.filter fun c => !code.special c := by
  induction x with
  | nil => rfl
  | cons c x ih =>
    rw [bare] at ih ⊢
    rw [escape, List.flatMap_cons, ← escape]
    by_cases hc : code.special c = true
    · simp [escapeOne, hc, bareFrom, ih]
    · simp [escapeOne, hc, bareFrom, ih, ne_mark hc]

/-- A field that ends in a special symbol can be read whatever follows. -/
theorem field_escape (hsep : code.special sep = true) (hmark : sep ≠ code.mark) (x r : List α) :
    field code sep (escape code x ++ sep :: r) = some (x, r) := by
  induction x with
  | nil => simp [field, escape, fieldFrom]
  | cons c x ih =>
    rw [field] at ih ⊢
    rw [escape, List.flatMap_cons, ← escape, List.append_assoc]
    by_cases hc : code.special c = true
    · simp [escapeOne, hc, fieldFrom, ih, code.unname_name c hc, hmark.symm]
    · have hne : c ≠ sep := by
        intro he
        rw [he] at hc
        exact hc hsep
      simp [escapeOne, hc, fieldFrom, ih, ne_mark hc, hne]

theorem escape_append_inj (hsep : code.special sep = true) (hmark : sep ≠ code.mark)
    (h : escape code x ++ sep :: r = escape code y ++ sep :: s) : x = y ∧ r = s := by
  have hread := congrArg (field code sep) h
  rw [field_escape hsep hmark, field_escape hsep hmark, Option.some_inj] at hread
  exact Prod.mk.inj hread

end Escape
