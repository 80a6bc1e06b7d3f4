import Blockparser.Hex

/-! The commands of the parser and their names: which of them a string selects. -/
namespace Blockparser.Commands
open Hex

/-- tolower in the C locale. -/
def tolower (c : UInt8) : UInt8 := if 0x41 ≤ c ∧ c ≤ 0x5A then c + 0x20 else c

def strncasecmp : List UInt8 → List UInt8 → Nat → Int
  | _, _, 0 => 0
  | [], [], _ => 0
  | [], b :: _, _ => -(tolower b).toNat
  | a :: _, [], _ => (tolower a).toNat
  | a :: as, b :: bs, n+1 =>
    if tolower a = tolower b then strncasecmp as bs n
    else (tolower a).toNat - (tolower b).toNat

structure Callback where
  name : List UInt8
  aliases : List (List UInt8)
deriving DecidableEq

/-- The vector of find: the name, and the aliases behind it. -/
def Callback.names (c : Callback) : List (List UInt8) := c.name :: c.aliases

/-- How find ends: with a callback, with a null pointer or with exit. -/
inductive Lookup
  | found (c : Callback)
  | null
  | exited
deriving DecidableEq

/-- One of the names agrees with the string as far as both go. -/
def found (name : List UInt8) (c : Callback) : Bool :=
  c.names.any fun nm => decide (strncasecmp nm name (min name.length nm.length) = 0)

/-- `Callback::find` among the registered callbacks. -/
def find (callbacks : List Callback) (name : List UInt8) (printList : Bool) : Lookup :=
  match callbacks.filter (found name), printList with
  | [c], false => .found c
  | _, _ => if printList ∨ name = ascii "help" then .null else .exited

def lower (s : List UInt8) : List UInt8 := s.map tolower

/-- The string is one of the names. -/
def IsName (n : List UInt8) (c : Callback) : Prop := ∃ nm ∈ c.names, lower nm = lower n

/-- The string is an abbreviation of one of the names. -/
def Abbreviates (n : List UInt8) (c : Callback) : Prop :=
  ∃ nm ∈ c.names, lower n <+: lower nm ∧ n.length < nm.length

/-- One of the names goes on in the string. -/
def Extends (n : List UInt8) (c : Callback) : Prop :=
  ∃ nm ∈ c.names, lower nm <+: lower n ∧ nm.length < n.length

/-- Of all the callbacks this one only. -/
def Only (callbacks : List Callback) (P : Callback → Prop) (c : Callback) : Prop :=
  P c ∧ ∀ c' ∈ callbacks, P c' → c' = c

/-- A string selects the command it names, or else the only one it abbreviates. -/
def Selects (callbacks : List Callback) (n : List UInt8) : Prop :=
  ∀ c, find callbacks n false = .found c ↔ c ∈ callbacks ∧
    (IsName n c ∨
      (∀ c' ∈ callbacks, ¬IsName n c') ∧ Only callbacks (Abbreviates n) c)

/-- The other commands are out of the way of the string. -/
structure Clear (callbacks : List Callback) (n : List UInt8) : Prop where
  named : ∀ c ∈ callbacks, IsName n c → ∀ c' ∈ callbacks, c' ≠ c →
    ¬Abbreviates n c' ∧ ¬Extends n c'
  abbreviated : (∀ c ∈ callbacks, ¬IsName n c) → ∀ c ∈ callbacks,
    Only callbacks (Abbreviates n) c → ∀ c' ∈ callbacks, c' ≠ c → ¬Extends n c'
  unknown : (∀ c ∈ callbacks, ¬IsName n c) → (∀ c ∈ callbacks, ¬Abbreviates n c) →
    ∀ c ∈ callbacks, ¬Only callbacks (Extends n) c

/-- No two names of the commands are the same but for their case. -/
def Distinct (callbacks : List Callback) : Prop :=
  ((callbacks.flatMap Callback.names).map lower).Nodup

variable {callbacks : List Callback} {n nm : List UInt8} {c : Callback}

theorem strncasecmp_eq_zero {a b : List UInt8} {k : Nat} (ha : k ≤ a.length) (hb : k ≤ b.length) :
    strncasecmp a b k = 0 ↔ lower (a.take k) = lower (b.take k) := by
  induction k generalizing a b with
  | zero => simp [strncasecmp]
  | succ k ih =>
    cases a with
    | nil => cases ha
    | cons x a =>
      cases b with
      | nil => cases hb
      | cons y b =>
        have hrec := ih (Nat.le_of_succ_le_succ ha) (Nat.le_of_succ_le_succ hb)
        by_cases hxy : tolower x = tolower y
        · rw [strncasecmp, if_pos hxy, hrec]
          simp [lower, hxy]
        · have hne : (tolower x).toNat ≠ (tolower y).toNat := fun h => hxy (UInt8.toNat_inj.mp h)
          rw [strncasecmp, if_neg hxy]
          simp [lower, hxy]
          omega

theorem length_lower (s : List UInt8) : (lower s).length = s.length := List.length_map ..

theorem lower_take (s : List UInt8) (k : Nat) : lower (s.take k) = (lower s).take k :=
  List.map_take

/-- Two strings agree as far as both go when one of them is in front of the other. -/
theorem agree_iff : strncasecmp nm n (min n.length nm.length) = 0 ↔
    lower nm = lower n ∨ (lower n <+: lower nm ∧ n.length < nm.length) ∨
      (lower nm <+: lower n ∧ nm.length < n.length) := by
  have hn := length_lower n
  have hnm := length_lower nm
  rw [strncasecmp_eq_zero (Nat.min_le_right _ _) (Nat.min_le_left _ _), lower_take, lower_take]
  constructor
  · intro h
    cases Nat.lt_trichotomy n.length nm.length with
    | inl hlt =>
      rw [Nat.min_eq_left (by omega), ← hn, List.take_length] at h
      exact Or.inr (Or.inl ⟨by rw [← h]; exact List.take_prefix _ _, hlt⟩)
    | inr hge =>
      cases hge with
      | inl heq =>
        rw [heq, Nat.min_self] at h
        rw [List.take_of_length_le (by omega), List.take_of_length_le (by omega)] at h
        exact Or.inl h
      | inr hgt =>
        rw [Nat.min_eq_right (by omega), ← hnm, List.take_length] at h
        exact Or.inr (Or.inr ⟨by rw [h]; exact List.take_prefix _ _, hgt⟩)
  · intro h
    cases h with
    | inl heq => rw [heq]
    | inr h =>
      cases h with
      | inl h =>
        have htake := List.prefix_iff_eq_take.mp h.1
        rw [Nat.min_eq_left (by omega), ← hn, List.take_length]
        exact htake.symm
      | inr h =>
        have htake := List.prefix_iff_eq_take.mp h.1
        rw [Nat.min_eq_right (by omega), ← hnm, List.take_length]
        exact htake

theorem found_iff : found n c = true ↔ IsName n c ∨ Abbreviates n c ∨ Extends n c := by
  unfold found IsName Abbreviates Extends
  simp only [List.any_eq_true, decide_eq_true_eq, agree_iff]
  constructor
  · intro h
    obtain ⟨nm, hnm, h⟩ := h
    cases h with
    | inl h => exact Or.inl ⟨nm, hnm, h⟩
    | inr h =>
      cases h with
      | inl h => exact Or.inr (Or.inl ⟨nm, hnm, h⟩)
      | inr h => exact Or.inr (Or.inr ⟨nm, hnm, h⟩)
  · intro h
    cases h with
    | inl h =>
      obtain ⟨nm, hnm, h⟩ := h
      exact ⟨nm, hnm, Or.inl h⟩
    | inr h =>
      cases h with
      | inl h =>
        obtain ⟨nm, hnm, h⟩ := h
        exact ⟨nm, hnm, Or.inr (Or.inl h)⟩
      | inr h =>
        obtain ⟨nm, hnm, h⟩ := h
        exact ⟨nm, hnm, Or.inr (Or.inr h)⟩

theorem Distinct.nodup (h : Distinct callbacks) : callbacks.Nodup := by
  unfold Distinct at h
  induction callbacks with
  | nil => exact List.nodup_nil
  | cons c callbacks ih =>
    rw [List.flatMap_cons, List.map_append] at h
    obtain ⟨-, hrest, hdisj⟩ := List.nodup_append'.mp h
    refine List.nodup_cons.mpr ⟨?_, ih hrest⟩
    intro hc
    have hname : c.name ∈ c.names := List.mem_cons_self
    have hmem : c.name ∈ callbacks.flatMap Callback.names := List.mem_flatMap.mpr ⟨c, hc, hname⟩
    exact hdisj (List.mem_map_of_mem hname) (List.mem_map_of_mem hmem)

/-- A string names one command at most. -/
theorem Distinct.name_unique (h : Distinct callbacks) {c' : Callback} (hc : c ∈ callbacks)
    (hc' : c' ∈ callbacks) (hn : IsName n c) (hn' : IsName n c') : c' = c := by
  obtain ⟨nm, hnm, hlow⟩ := hn
  obtain ⟨nm', hnm', hlow'⟩ := hn'
  unfold Distinct at h
  induction callbacks with
  | nil => cases hc
  | cons d callbacks ih =>
    rw [List.flatMap_cons, List.map_append] at h
    obtain ⟨-, hrest, hdisj⟩ := List.nodup_append'.mp h
    have hsep : ∀ e ∈ callbacks, ∀ a ∈ d.names, ∀ b ∈ e.names, lower a ≠ lower b := by
      intro e he a ha b hb heq
      have hb' := List.mem_map_of_mem (f := lower) (List.mem_flatMap.mpr ⟨e, he, hb⟩)
      rw [← heq] at hb'
      exact hdisj (List.mem_map_of_mem ha) hb'
    cases List.mem_cons.mp hc with
    | inl hcd =>
      cases List.mem_cons.mp hc' with
      | inl hcd' => rw [hcd, hcd']
      | inr hm' =>
        rw [hcd] at hnm
        exact absurd (hlow.trans hlow'.symm) (hsep c' hm' nm hnm nm' hnm')
    | inr hm =>
      cases List.mem_cons.mp hc' with
      | inl hcd' =>
        rw [hcd'] at hnm'
        exact absurd (hlow'.trans hlow.symm) (hsep c hm nm' hnm' nm hnm)
      | inr hm' => exact ih hrest hm hm'

theorem filter_eq_singleton {p : Callback → Bool} (h : callbacks.Nodup) :
    callbacks.filter p = [c] ↔ c ∈ callbacks ∧ Only callbacks (fun c => p c = true) c := by
  constructor
  · intro heq
    have hmem : ∀ c', c' ∈ callbacks ∧ p c' = true ↔ c' = c := by
      intro c'
      rw [← List.mem_filter, heq, List.mem_singleton]
    obtain ⟨hc, hp⟩ := (hmem c).mpr rfl
    exact ⟨hc, hp, fun c' hc' hp' => (hmem c').mp ⟨hc', hp'⟩⟩
  · intro hall
    obtain ⟨hc, hp, honly⟩ := hall
    have hperm : (callbacks.filter p).Perm [c] := by
      refine (List.perm_ext_iff_of_nodup (h.filter p) (List.nodup_singleton c)).mpr ?_
      intro c'
      rw [List.mem_filter, List.mem_singleton]
      constructor
      · intro hc'
        exact honly c' hc'.1 hc'.2
      · intro heq
        rw [heq]
        exact ⟨hc, hp⟩
    exact List.perm_singleton.mp hperm

/-- find returns a callback when it is the only one found. -/
theorem find_found_iff (h : callbacks.Nodup) : find callbacks n false = .found c ↔
    c ∈ callbacks ∧ Only callbacks (fun c => IsName n c ∨ Abbreviates n c ∨ Extends n c) c := by
  have hfound : (fun c => IsName n c ∨ Abbreviates n c ∨ Extends n c) =
      fun c => found n c = true := by
    funext c
    rw [found_iff]
  rw [hfound, ← filter_eq_singleton h]
  unfold find
  constructor
  · intro heq
    split at heq
    · next hl _ => rw [hl, Lookup.found.inj heq]
    · split at heq <;> cases heq
  · intro heq
    rw [heq]

theorem Selects.clear (h : Distinct callbacks) (hs : Selects callbacks n) : Clear callbacks n := by
  unfold Selects at hs
  simp only [find_found_iff h.nodup] at hs
  refine ⟨?_, ?_, ?_⟩
  · intro c hc hn c' hc' hne
    obtain ⟨-, -, honly⟩ := (hs c).mpr ⟨hc, Or.inl hn⟩
    exact ⟨fun ha => hne (honly c' hc' (Or.inr (Or.inl ha))),
      fun he => hne (honly c' hc' (Or.inr (Or.inr he)))⟩
  · intro hno c hc habbr c' hc' hne he
    obtain ⟨-, -, honly⟩ := (hs c).mpr ⟨hc, Or.inr ⟨hno, habbr⟩⟩
    exact hne (honly c' hc' (Or.inr (Or.inr he)))
  · intro hno hnone c hc hext
    have honly : ∀ c' ∈ callbacks, IsName n c' ∨ Abbreviates n c' ∨ Extends n c' → c' = c := by
      intro c' hc' hm
      cases hm with
      | inl hn => exact absurd hn (hno c' hc')
      | inr hm =>
        cases hm with
        | inl ha => exact absurd ha (hnone c' hc')
        | inr he => exact hext.2 c' hc' he
    obtain ⟨-, hsel⟩ := (hs c).mp ⟨hc, Or.inr (Or.inr hext.1), honly⟩
    cases hsel with
    | inl hn => exact hno c hc hn
    | inr habbr => exact hnone c hc habbr.2.1

theorem Clear.selects (h : Distinct callbacks) (hclear : Clear callbacks n) :
    Selects callbacks n := by
  unfold Selects
  intro c
  rw [find_found_iff h.nodup]
  constructor
  · intro hall
    obtain ⟨hc, hm, honly⟩ := hall
    refine ⟨hc, ?_⟩
    by_cases hn : IsName n c
    · exact Or.inl hn
    · have hno : ∀ c' ∈ callbacks, ¬IsName n c' := by
        intro c' hc' hn'
        rw [honly c' hc' (Or.inl hn')] at hn'
        exact hn hn'
      have habbr : Abbreviates n c := by
        by_contra ha
        have hext : Extends n c := by tauto
        have hnone : ∀ c' ∈ callbacks, ¬Abbreviates n c' := by
          intro c' hc' ha'
          rw [honly c' hc' (Or.inr (Or.inl ha'))] at ha'
          exact ha ha'
        exact hclear.unknown hno hnone c hc
          ⟨hext, fun c' hc' he => honly c' hc' (Or.inr (Or.inr he))⟩
      exact Or.inr ⟨hno, habbr, fun c' hc' ha => honly c' hc' (Or.inr (Or.inl ha))⟩
  · intro hall
    obtain ⟨hc, hsel⟩ := hall
    refine ⟨hc, ?_⟩
    cases hsel with
    | inl hn =>
      refine ⟨Or.inl hn, ?_⟩
      intro c' hc' hm
      by_contra hne
      obtain ⟨hna, hne'⟩ := hclear.named c hc hn c' hc' hne
      cases hm with
      | inl hn' => exact hne (h.name_unique hc hc' hn hn')
      | inr hm => exact hm.elim hna hne'
    | inr hsel =>
      obtain ⟨hno, habbr⟩ := hsel
      refine ⟨Or.inr (Or.inl habbr.1), ?_⟩
      intro c' hc' hm
      by_contra hne
      cases hm with
      | inl hn' => exact hno c' hc' hn'
      | inr hm =>
        exact hm.elim (fun ha => hne (habbr.2 c' hc' ha))
          (hclear.abbreviated hno c hc habbr c' hc' hne)

/-- find selects what a string stands for exactly when the names of the other commands are
out of its way. -/
theorem selects_iff (callbacks : List Callback) (n : List UInt8) (h : Distinct callbacks) :
    Selects callbacks n ↔ Clear callbacks n :=
  ⟨fun hs => hs.clear h, fun hclear => hclear.selects h⟩

/-- The commands that are linked into the parser. -/
def transactions : Callback := ⟨ascii "transactions", [ascii "txs", ascii "book", ascii "tally"]⟩

def registered : List Callback :=
  [⟨ascii "allBalances", [ascii "balances"]⟩,
   ⟨ascii "closure", [ascii "cluster", ascii "wallet"]⟩,
   ⟨ascii "dumpTX", [ascii "txinfo", ascii "txshow", ascii "showtx", ascii "txdetails"]⟩,
   ⟨ascii "help", [ascii "-h", ascii "-help", ascii "--help", ascii "manpage", ascii "usage",
      ascii "doc"]⟩,
   ⟨ascii "pristine", []⟩, ⟨ascii "rawdump", []⟩, ⟨ascii "rewards", []⟩,
   ⟨ascii "simpleStats", [ascii "stats"]⟩, ⟨ascii "sqldump", [ascii "dump"]⟩,
   ⟨ascii "taint", [ascii "trace"]⟩, transactions]

theorem distinct_registered : Distinct registered := by
  unfold Distinct
  decide

theorem selects_iff_registered : Distinct registered ∧
    (Selects registered (ascii "stat") ↔ Clear registered (ascii "stat")) :=
  ⟨distinct_registered, selects_iff registered (ascii "stat") distinct_registered⟩

/-- The alias `txs` is an abbreviation of the alias `txshow` of another command. -/
theorem not_selects_txs : find registered (ascii "txs") false = .exited ∧
    ¬Selects registered (ascii "txs") := by
  have hexit : find registered (ascii "txs") false = .exited := by decide
  refine ⟨hexit, ?_⟩
  intro hs
  have hname : IsName (ascii "txs") transactions := ⟨ascii "txs", by decide, rfl⟩
  have hfound := (hs transactions).mpr ⟨by decide, Or.inl hname⟩
  rw [hexit] at hfound
  cases hfound

end Blockparser.Commands
