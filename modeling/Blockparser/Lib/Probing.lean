import Mathlib.Data.Fintype.EquivFin
import Mathlib.Data.Nat.Prime.Basic
import Mathlib.Data.Int.ModEq
import Mathlib.Tactic.Ring

/-! Open addressing with a step that grows by one at each probe. On a table whose size is a
power of two such a walk comes by every cell, so a search ends as soon as one cell is free. -/
namespace Probing

/-- The cell the `j`-th probe looks at, in a table of `n` cells. -/
def probe (n start : Nat) : Nat → Nat
  | 0 => start % n
  | j + 1 => (probe n start j + (j + 1)) % n

def triangle : Nat → Nat
  | 0 => 0
  | j + 1 => triangle j + (j + 1)

theorem triangle_mono (i d : Nat) : triangle i ≤ triangle (i + d) := by
  induction d with
  | zero => exact Nat.le_refl _
  | succ d ih => exact Nat.le_trans ih (Nat.le_add_right _ _)

theorem two_mul_triangle (j : Nat) : 2 * triangle j = j * (j + 1) := by
  induction j with
  | zero => rfl
  | succ j ih =>
    rw [triangle, Nat.mul_add, ih]
    ring

theorem probe_eq (n start j : Nat) : probe n start j = (start + triangle j) % n := by
  induction j with
  | zero => rfl
  | succ j ih => rw [probe, ih, Nat.mod_add_mod, triangle, Nat.add_assoc]

theorem probe_lt {n : Nat} (hn : 0 < n) (start j : Nat) : probe n start j < n := by
  rw [probe_eq]
  exact Nat.mod_lt _ hn

/-- A power of two that divides a product of an odd and another number divides the other. -/
theorem two_pow_dvd_of_odd {k a b : Nat} (h : 2 ^ k ∣ a * b) (hodd : a % 2 = 1) : 2 ^ k ∣ b := by
  have hc : Nat.Coprime (2 ^ k) a := by
    apply Nat.Coprime.pow_left
    exact Nat.coprime_two_left.mpr (Nat.odd_iff.mpr hodd)
  exact hc.dvd_of_dvd_mul_left h

/-- Two probes less than 2^k apart do not look at the same cell: with j = i + d, twice their
distance is d * (2i + d + 1), and just one of the two factors is even. -/
theorem triangle_apart {k i d : Nat} (hd : 0 < d) (hj : i + d < 2 ^ k) :
    ¬ 2 ^ k ∣ triangle (i + d) - triangle i := by
  intro hdvd
  have hle := triangle_mono i d
  have htwice : 2 * (triangle (i + d) - triangle i) = d * (2 * i + d + 1) := by
    have h1 := two_mul_triangle (i + d)
    have h2 := two_mul_triangle i
    have h3 : (i + d) * (i + d + 1) = i * (i + 1) + d * (2 * i + d + 1) := by ring
    omega
  have hdvd' : 2 ^ (k + 1) ∣ d * (2 * i + d + 1) := by
    rw [← htwice, Nat.pow_succ, Nat.mul_comm (2 ^ k) 2]
    exact Nat.mul_dvd_mul_left 2 hdvd
  have hpow : 2 ^ (k + 1) = 2 * 2 ^ k := by rw [Nat.pow_succ, Nat.mul_comm]
  rcases Nat.mod_two_eq_zero_or_one d with heven | hodd
  · rw [Nat.mul_comm] at hdvd'
    have hle' := Nat.le_of_dvd hd (two_pow_dvd_of_odd hdvd' (by omega))
    omega
  · have hle' := Nat.le_of_dvd (by omega) (two_pow_dvd_of_odd hdvd' hodd)
    omega

theorem probe_injective {k start i j : Nat} (hi : i < 2 ^ k) (hj : j < 2 ^ k)
    (h : probe (2 ^ k) start i = probe (2 ^ k) start j) : i = j := by
  wlog hij : i ≤ j
  · exact (this hj hi h.symm (Nat.le_of_not_le hij)).symm
  obtain ⟨d, rfl⟩ := Nat.exists_eq_add_of_le hij
  by_cases hd : d = 0
  · rw [hd, Nat.add_zero]
  · rw [probe_eq, probe_eq] at h
    have hmod : triangle i ≡ triangle (i + d) [MOD 2 ^ k] := Nat.ModEq.add_left_cancel' start h
    exact absurd ((Nat.modEq_iff_dvd' (triangle_mono i d)).mp hmod)
      (triangle_apart (Nat.pos_of_ne_zero hd) hj)

/-- The walk comes by every cell of the table. -/
theorem probe_surjective {k p : Nat} (start : Nat) (hp : p < 2 ^ k) :
    ∃ j < 2 ^ k, probe (2 ^ k) start j = p := by
  have hpos : 0 < 2 ^ k := Nat.two_pow_pos k
  let f : Fin (2 ^ k) → Fin (2 ^ k) := fun j => ⟨probe (2 ^ k) start j, probe_lt hpos start j⟩
  have hinj : Function.Injective f := by
    intro i j h
    exact Fin.ext (probe_injective i.2 j.2 (congrArg Fin.val h))
  obtain ⟨j, hj⟩ := (Finite.injective_iff_surjective.mp hinj) ⟨p, hp⟩
  exact ⟨j, j.2, congrArg Fin.val hj⟩

/-- What a cell holds: nothing since the table was made, a key, or the mark of a key that was
taken out. -/
inductive Cell (K : Type*)
  | free
  | tomb
  | full (key : K)

variable {K : Type*}

/-- No key is in two cells, and from its start to its cell the walk of a key meets no free
cell. -/
structure Placed (n : Nat) (start : K → Nat) (cell : Nat → Cell K) : Prop where
  reach : ∀ p < n, ∀ key, cell p = .full key →
    ∃ j, probe n (start key) j = p ∧ ∀ i < j, cell (probe n (start key) i) ≠ .free
  unique : ∀ p < n, ∀ q < n, ∀ key, cell p = .full key → cell q = .full key → p = q

inductive Outcome
  | found (p : Nat)
  | absent (p : Nat)

/-- The walk for a key, with the first tomb met so far. A key that is not there goes to this
tomb, or else to the free cell where the walk ends. -/
def search [DecidableEq K] (n : Nat) (start : K → Nat) (cell : Nat → Cell K) (key : K) :
    (fuel j : Nat) → Option Nat → Option Outcome
  | 0, _, _ => none
  | fuel + 1, j, tomb =>
    let p := probe n (start key) j
    match cell p with
    | .free => some (.absent (tomb.getD p))
    | .tomb => search n start cell key fuel (j + 1) (tomb.or (some p))
    | .full key' =>
      if key = key' then some (.found p) else search n start cell key fuel (j + 1) tomb

/-- What has been found out when `j` cells were looked at. -/
structure Passed (n : Nat) (start : K → Nat) (cell : Nat → Cell K) (key : K) (j : Nat)
    (tomb : Option Nat) : Prop where
  notFree : ∀ i < j, cell (probe n (start key) i) ≠ .free
  notKey : ∀ i < j, cell (probe n (start key) i) ≠ .full key
  tomb : ∀ q, tomb = some q → ∃ i < j, probe n (start key) i = q ∧ cell q = .tomb

theorem Passed.start (n : Nat) (start : K → Nat) (cell : Nat → Cell K) (key : K) :
    Passed n start cell key 0 none :=
  ⟨fun _ h => absurd h (Nat.not_lt_zero _), fun _ h => absurd h (Nat.not_lt_zero _),
    fun _ h => nomatch h⟩

theorem Passed.next {n : Nat} {start : K → Nat} {cell : Nat → Cell K} {key : K} {j : Nat}
    {tomb tomb' : Option Nat} (h : Passed n start cell key j tomb)
    (hfree : cell (probe n (start key) j) ≠ .free)
    (hkey : cell (probe n (start key) j) ≠ .full key)
    (htomb : tomb' = tomb ∨
      tomb' = tomb.or (some (probe n (start key) j)) ∧ cell (probe n (start key) j) = .tomb) :
    Passed n start cell key (j + 1) tomb' := by
  refine ⟨?_, ?_, ?_⟩
  · intro i hi
    rcases Nat.lt_succ_iff_lt_or_eq.mp hi with hi | rfl
    · exact h.notFree i hi
    · exact hfree
  · intro i hi
    rcases Nat.lt_succ_iff_lt_or_eq.mp hi with hi | rfl
    · exact h.notKey i hi
    · exact hkey
  · intro q hq
    have hold : ∀ q, tomb = some q → ∃ i < j + 1, probe n (start key) i = q ∧ cell q = .tomb := by
      intro q hq
      obtain ⟨i, hi, hp⟩ := h.tomb q hq
      exact ⟨i, Nat.lt_succ_of_lt hi, hp⟩
    rcases htomb with rfl | ⟨rfl, hcell⟩
    · exact hold q hq
    · cases tomb with
      | some r => exact hold q (by simpa using hq)
      | none =>
        have hqj : probe n (start key) j = q := by simpa using hq
        exact ⟨j, Nat.lt_succ_self j, hqj, hqj ▸ hcell⟩

/-- Where a key that is in no cell may be put. -/
structure Vacant (n : Nat) (start : K → Nat) (cell : Nat → Cell K) (key : K) (q : Nat) :
    Prop where
  open' : cell q = .free ∨ cell q = .tomb
  reach : ∃ j, probe n (start key) j = q ∧ ∀ i < j, cell (probe n (start key) i) ≠ .free

section Search
variable [DecidableEq K] {n : Nat} {start : K → Nat} {cell : Nat → Cell K} {key : K}

/-- The walk ends before it has looked at every cell, if one of those ahead is free. -/
theorem search_ends {fuel j : Nat} {tomb : Option Nat}
    (h : ∃ i, j ≤ i ∧ i < j + fuel ∧ cell (probe n (start key) i) = .free) :
    ∃ r, search n start cell key fuel j tomb = some r := by
  induction fuel generalizing j tomb with
  | zero =>
    obtain ⟨i, hge, hlt, -⟩ := h
    omega
  | succ fuel ih =>
    obtain ⟨i, hge, hlt, hi⟩ := h
    have hlater : cell (probe n (start key) j) ≠ .free →
        ∃ i, j + 1 ≤ i ∧ i < j + 1 + fuel ∧ cell (probe n (start key) i) = .free := by
      intro hne
      have : i ≠ j := by
        intro hij
        exact hne (hij ▸ hi)
      exact ⟨i, by omega, by omega, hi⟩
    unfold search
    dsimp only
    split
    · exact ⟨_, rfl⟩
    · next hc => exact ih (hlater (by rw [hc]; nofun))
    · next hc =>
      split
      · exact ⟨_, rfl⟩
      · exact ih (hlater (by rw [hc]; nofun))

/-- In a table of 2^k cells of which one is free, as many probes as there are cells are
enough. -/
theorem search_total {k p : Nat} (hp : p < 2 ^ k) (hfree : cell p = .free) :
    ∃ r, search (2 ^ k) start cell key (2 ^ k) 0 none = some r := by
  obtain ⟨j, hj, hjp⟩ := probe_surjective (start key) hp
  exact search_ends ⟨j, Nat.zero_le j, by omega, hjp ▸ hfree⟩

theorem search_found {fuel j p : Nat} {tomb : Option Nat}
    (hs : search n start cell key fuel j tomb = some (.found p)) :
    cell p = .full key ∧ ∃ i, probe n (start key) i = p := by
  induction fuel generalizing j tomb with
  | zero => nomatch hs
  | succ fuel ih =>
    unfold search at hs
    dsimp only at hs
    split at hs
    · nomatch hs
    · exact ih hs
    · next key' hc =>
      split at hs
      · next heq =>
        cases hs
        exact ⟨heq ▸ hc, j, rfl⟩
      · exact ih hs

/-- When the walk ends at a free cell, the key is in none of those it passed, and the cell it
names is one of them or this free one. -/
theorem search_absent {fuel j q : Nat} {tomb : Option Nat} (hp : Passed n start cell key j tomb)
    (hs : search n start cell key fuel j tomb = some (.absent q)) :
    Vacant n start cell key q ∧
      ∃ m, cell (probe n (start key) m) = .free ∧
        ∀ i < m, cell (probe n (start key) i) ≠ .full key := by
  induction fuel generalizing j tomb with
  | zero => nomatch hs
  | succ fuel ih =>
    unfold search at hs
    dsimp only at hs
    split at hs
    · next hc =>
      cases hs
      refine ⟨?_, j, hc, hp.notKey⟩
      cases htomb : tomb with
      | none => exact ⟨.inl hc, j, rfl, hp.notFree⟩
      | some r =>
        obtain ⟨i, hi, hir, hcell⟩ := hp.tomb r htomb
        exact ⟨.inr hcell, i, hir, fun m hm => hp.notFree m (Nat.lt_trans hm hi)⟩
    · next hc =>
      exact ih (hp.next (by rw [hc]; nofun) (by rw [hc]; nofun) (.inr ⟨rfl, hc⟩)) hs
    · next key' hc =>
      split at hs
      · nomatch hs
      · next hne =>
        refine ih (hp.next (by rw [hc]; nofun) ?_ (.inl rfl)) hs
        rw [hc]
        intro heq
        cases heq
        exact hne rfl

/-- The walk tells whether a key is in the table. -/
theorem Placed.not_full {fuel q : Nat} (h : Placed n start cell)
    (hs : search n start cell key fuel 0 none = some (.absent q)) :
    ∀ p < n, cell p ≠ .full key := by
  intro p hp hfull
  obtain ⟨-, m, hfree, hpassed⟩ := search_absent (Passed.start n start cell key) hs
  obtain ⟨j, hj, hbefore⟩ := h.reach p hp key hfull
  rcases Nat.lt_trichotomy j m with hlt | heq | hgt
  · exact hpassed j hlt (hj ▸ hfull)
  · rw [heq] at hj
    rw [hj, hfull] at hfree
    nomatch hfree
  · exact hbefore m hgt hfree

end Search

/-- The first free cell a walk meets. -/
def firstFree (n start : Nat) (cell : Nat → Cell K) : (fuel j : Nat) → Option Nat
  | 0, _ => none
  | fuel + 1, j =>
    match cell (probe n start j) with
    | .free => some (probe n start j)
    | _ => firstFree n start cell fuel (j + 1)

theorem firstFree_ends {n s : Nat} {cell : Nat → Cell K} {fuel j : Nat}
    (h : ∃ i, j ≤ i ∧ i < j + fuel ∧ cell (probe n s i) = .free) :
    ∃ q, firstFree n s cell fuel j = some q := by
  induction fuel generalizing j with
  | zero =>
    obtain ⟨i, hge, hlt, -⟩ := h
    omega
  | succ fuel ih =>
    obtain ⟨i, hge, hlt, hi⟩ := h
    unfold firstFree
    split
    · exact ⟨_, rfl⟩
    · next hc =>
      have : i ≠ j := by
        intro hij
        exact hc (hij ▸ hi)
      exact ih ⟨i, by omega, by omega, hi⟩

theorem firstFree_total {k p s : Nat} {cell : Nat → Cell K} (hp : p < 2 ^ k)
    (hfree : cell p = .free) : ∃ q, firstFree (2 ^ k) s cell (2 ^ k) 0 = some q := by
  obtain ⟨j, hj, hjp⟩ := probe_surjective s hp
  exact firstFree_ends ⟨j, Nat.zero_le j, by omega, hjp ▸ hfree⟩

theorem firstFree_vacant {n : Nat} {start : K → Nat} {cell : Nat → Cell K} {key : K}
    {fuel j q : Nat} (hbefore : ∀ i < j, cell (probe n (start key) i) ≠ .free)
    (hs : firstFree n (start key) cell fuel j = some q) :
    cell q = .free ∧ Vacant n start cell key q := by
  induction fuel generalizing j with
  | zero => nomatch hs
  | succ fuel ih =>
    unfold firstFree at hs
    split at hs
    · next hc =>
      cases hs
      exact ⟨hc, .inl hc, j, rfl, hbefore⟩
    · next hc =>
      refine ih ?_ hs
      intro i hi
      rcases Nat.lt_succ_iff_lt_or_eq.mp hi with hi | rfl
      · exact hbefore i hi
      · exact hc

variable {n : Nat} {start : K → Nat} {cell cell' : Nat → Cell K} {key : K} {q : Nat}

theorem Placed.empty (h : ∀ p < n, cell p = .free) : Placed n start cell where
  reach := by
    intro p hp key hfull
    rw [h p hp] at hfull
    nomatch hfull
  unique := by
    intro p hp q hq key hfull
    rw [h p hp] at hfull
    nomatch hfull

theorem Placed.congr (h : Placed n start cell) (hn : 0 < n)
    (hkeep : ∀ p < n, cell' p = cell p) : Placed n start cell' := by
  refine ⟨?_, ?_⟩
  · intro p hp key hfull
    rw [hkeep p hp] at hfull
    obtain ⟨j, hj, hbefore⟩ := h.reach p hp key hfull
    refine ⟨j, hj, ?_⟩
    intro i hi
    rw [hkeep _ (probe_lt hn _ _)]
    exact hbefore i hi
  · intro p hp r hr key hfull hfull'
    rw [hkeep p hp] at hfull
    rw [hkeep r hr] at hfull'
    exact h.unique p hp r hr key hfull hfull'

/-- A key that is in no cell may be put into a vacant one. -/
theorem Placed.put (h : Placed n start cell) (hn : 0 < n) (hv : Vacant n start cell key q)
    (hnew : ∀ p < n, cell p ≠ .full key) (hq : cell' q = .full key)
    (hkeep : ∀ p < n, p ≠ q → cell' p = cell p) : Placed n start cell' := by
  have hfree : ∀ p < n, cell p ≠ .free → cell' p ≠ .free := by
    intro p hp hne
    by_cases hpq : p = q
    · rw [hpq, hq]
      nofun
    · rw [hkeep p hp hpq]
      exact hne
  have hpath : ∀ key j, (∀ i < j, cell (probe n (start key) i) ≠ .free) →
      ∀ i < j, cell' (probe n (start key) i) ≠ .free :=
    fun key j hj i hi => hfree _ (probe_lt hn _ _) (hj i hi)
  refine ⟨?_, ?_⟩
  · intro p hp key' hfull
    by_cases hpq : p = q
    · rw [hpq, hq] at hfull
      cases hfull
      obtain ⟨j, hj, hbefore⟩ := hv.reach
      exact ⟨j, hj.trans hpq.symm, hpath key j hbefore⟩
    · rw [hkeep p hp hpq] at hfull
      obtain ⟨j, hj, hbefore⟩ := h.reach p hp key' hfull
      exact ⟨j, hj, hpath key' j hbefore⟩
  · intro p hp r hr key' hfull hfull'
    by_cases hpq : p = q
    · by_cases hrq : r = q
      · exact hpq.trans hrq.symm
      · rw [hpq, hq] at hfull
        cases hfull
        rw [hkeep r hr hrq] at hfull'
        exact absurd hfull' (hnew r hr)
    · rw [hkeep p hp hpq] at hfull
      by_cases hrq : r = q
      · rw [hrq, hq] at hfull'
        cases hfull'
        exact absurd hfull (hnew p hp)
      · rw [hkeep r hr hrq] at hfull'
        exact h.unique p hp r hr key' hfull hfull'

/-- A key is taken out by a tomb in its place, past which the other walks go on. -/
theorem Placed.bury (h : Placed n start cell) (hn : 0 < n) (hq : cell' q = .tomb)
    (hkeep : ∀ p < n, p ≠ q → cell' p = cell p) : Placed n start cell' := by
  have hold : ∀ p < n, ∀ key, cell' p = .full key → cell p = .full key := by
    intro p hp key hfull
    by_cases hpq : p = q
    · rw [hpq, hq] at hfull
      nomatch hfull
    · rwa [hkeep p hp hpq] at hfull
  refine ⟨?_, ?_⟩
  · intro p hp key hfull
    obtain ⟨j, hj, hbefore⟩ := h.reach p hp key (hold p hp key hfull)
    refine ⟨j, hj, ?_⟩
    intro i hi
    by_cases hiq : probe n (start key) i = q
    · rw [hiq, hq]
      nofun
    · rw [hkeep _ (probe_lt hn _ _) hiq]
      exact hbefore i hi
  · intro p hp r hr key hfull hfull'
    exact h.unique p hp r hr key (hold p hp key hfull) (hold r hr key hfull')

end Probing
