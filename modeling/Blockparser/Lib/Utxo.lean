import Mathlib.Tactic

/-! Ledgers of unspent outputs. A transaction spends outputs of earlier ones and
creates its own; an entry lives as long as one of its outputs is unspent. -/
namespace Utxo
variable {ι ω : Type}

/-- `slots` holds the outputs seen so far, `none` once spent; `size` counts all. -/
structure Entry (ω : Type) where
  size : Nat
  slots : List (Option ω)

def Entry.live (e : Entry ω) : Bool := e.slots.any Option.isSome
def Entry.spend (e : Entry ω) (i : Nat) : Entry ω := ⟨e.size, e.slots.set i none⟩

abbrev Ledger (ι ω : Type) := ι → Option (Entry ω)

def Ledger.unspent (L : Ledger ι ω) (t : ι) (i : Nat) : Option ω :=
  (L t).bind fun e => e.slots[i]?.join

/-- Every entry is filled and has an unspent output. -/
def Ledger.Complete (L : Ledger ι ω) : Prop :=
  ∀ t e, L t = some e → e.slots.length = e.size ∧ e.live = true

theorem Entry.live_iff (e : Entry ω) :
    e.live = true ↔ ∃ (i : Nat) (o : ω), e.slots[i]? = some (some o) := by
  simp only [Entry.live, List.any_eq_true]
  constructor
  · rintro ⟨x, hx, hs⟩
    obtain ⟨o, rfl⟩ := Option.isSome_iff_exists.mp hs
    obtain ⟨i, hi⟩ := List.mem_iff_getElem?.mp hx
    exact ⟨i, o, hi⟩
  · rintro ⟨i, o, hi⟩
    exact ⟨some o, List.mem_of_getElem? hi, rfl⟩

theorem Ledger.unspent_iff {L : Ledger ι ω} {t : ι} {i : Nat} {o : ω} :
    L.unspent t i = some o ↔ ∃ e, L t = some e ∧ e.slots[i]? = some (some o) := by
  cases h : L t with
  | none => simp [Ledger.unspent, h]
  | some e => simp [Ledger.unspent, h, Option.join_eq_some_iff]

/-- In a complete ledger the entries are the transactions with an unspent output. -/
theorem Ledger.Complete.entry_iff {L : Ledger ι ω} (hL : L.Complete) (t : ι) :
    L t ≠ none ↔ ∃ i o, L.unspent t i = some o := by
  constructor
  · intro h
    obtain ⟨e, he⟩ := Option.ne_none_iff_exists'.mp h
    obtain ⟨i, o, hi⟩ := e.live_iff.mp (hL t e he).2
    exact ⟨i, o, Ledger.unspent_iff.mpr ⟨e, he, hi⟩⟩
  · rintro ⟨i, o, h⟩
    obtain ⟨e, he, -⟩ := Ledger.unspent_iff.mp h
    simp [he]

variable [DecidableEq ι]

def Ledger.spend (L : Ledger ι ω) (t : ι) (i : Nat) : Ledger ι ω :=
  Function.update L t (((L t).map (·.spend i)).filter Entry.live)

def Ledger.create (L : Ledger ι ω) (t : ι) (os : List ω) : Ledger ι ω :=
  Function.update L t (some ⟨os.length, os.map some⟩)

theorem Ledger.spend_of_ne {L : Ledger ι ω} {t u : ι} {i : Nat} (h : u ≠ t) :
    L.spend t i u = L u := Function.update_of_ne h _ _

theorem Ledger.spend_self (L : Ledger ι ω) (t : ι) (i : Nat) :
    L.spend t i t = ((L t).map (·.spend i)).filter Entry.live := Function.update_self ..

theorem Ledger.spend_subset {L : Ledger ι ω} {t u : ι} {i : Nat} (h : L.spend t i u ≠ none) :
    L u ≠ none := by
  by_cases hu : u = t
  · subst hu
    intro hn
    simp [Ledger.spend_self, hn] at h
  · rwa [Ledger.spend_of_ne hu] at h

theorem Ledger.Complete.spend {L : Ledger ι ω} (hL : L.Complete) (t : ι) (i : Nat) :
    (L.spend t i).Complete := by
  intro u e he
  by_cases hu : u = t
  · subst hu
    rw [Ledger.spend_self, Option.filter_eq_some_iff] at he
    obtain ⟨hm, hlive⟩ := he
    obtain ⟨e', he', rfl⟩ := Option.map_eq_some_iff.mp hm
    exact ⟨by simpa [Entry.spend] using (hL u e' he').1, hlive⟩
  · exact hL u e (by rwa [Ledger.spend_of_ne hu] at he)

theorem Ledger.Complete.create {L : Ledger ι ω} (hL : L.Complete) (t : ι) {os : List ω}
    (hos : os ≠ []) : (L.create t os).Complete := by
  intro u e he
  by_cases hu : u = t
  · subst hu
    rw [Ledger.create, Function.update_self, Option.some_inj] at he
    subst he
    obtain ⟨o, hmem⟩ := List.exists_mem_of_ne_nil os hos
    refine ⟨by simp, ?_⟩
    simp only [Entry.live, List.any_map, List.any_eq_true]
    exact ⟨o, hmem, rfl⟩
  · exact hL u e (by rwa [Ledger.create, Function.update_of_ne hu] at he)

theorem Ledger.unspent_spend (L : Ledger ι ω) (t u : ι) (i j : Nat) :
    (L.spend t i).unspent u j = if (u, j) = (t, i) then none else L.unspent u j := by
  by_cases hu : u = t
  · subst hu
    rw [Ledger.unspent, Ledger.spend_self]
    cases h : L u with
    | none => simp [Ledger.unspent, h]
    | some e =>
      have hslot : (e.spend i).slots[j]?.join = if j = i then none else e.slots[j]?.join := by
        by_cases hj : j = i
        · subst hj
          by_cases hl : j < e.slots.length
          · simp [Entry.spend, hl]
          · simp [Entry.spend, hl]
        · simp [Entry.spend, List.getElem?_set_ne (Ne.symm hj), hj]
      cases hlive : (e.spend i).live with
      | true => simpa [Option.filter, hlive, Ledger.unspent, h] using hslot
      | false =>
        -- a dead entry had no unspent output but the one just spent
        have hdead : (e.spend i).slots[j]?.join = none := by
          by_contra hne
          obtain ⟨o, ho⟩ := Option.ne_none_iff_exists'.mp hne
          have := (e.spend i).live_iff.mpr ⟨j, o, Option.join_eq_some_iff.mp ho⟩
          rw [hlive] at this
          cases this
        rw [hslot] at hdead
        simp only [Option.map_some, Option.filter, hlive, Ledger.unspent, h, Option.bind_some]
        by_cases hj : j = i
        · simp [hj]
        · simpa [hj] using hdead.symm
  · have hne : (u, j) ≠ (t, i) := fun he => hu (congrArg Prod.fst he)
    simp [Ledger.unspent, Ledger.spend_of_ne hu, hne]

theorem Ledger.unspent_create (L : Ledger ι ω) (t u : ι) (os : List ω) (j : Nat) :
    (L.create t os).unspent u j = if u = t then os[j]? else L.unspent u j := by
  by_cases hu : u = t
  · subst hu
    cases h : os[j]? <;> simp [Ledger.unspent, Ledger.create, h]
  · simp [Ledger.unspent, Ledger.create, hu]

structure Tx (ι ω : Type) where
  id : ι
  spends : List (ι × Nat)
  outs : List ω

def Ledger.spendAll (L : Ledger ι ω) (os : List (ι × Nat)) : Ledger ι ω :=
  os.foldl (fun L o => L.spend o.1 o.2) L

def Ledger.apply (L : Ledger ι ω) (t : Tx ι ω) : Ledger ι ω :=
  (L.spendAll t.spends).create t.id t.outs

/-- The ledger after a history. -/
def ledger (txs : List (Tx ι ω)) : Ledger ι ω := txs.foldl Ledger.apply fun _ => none

/-- Ids are distinct, every transaction has an output, and every spend names an
output of an earlier transaction that no other spend names. -/
structure Valid (txs : List (Tx ι ω)) : Prop where
  ids : (txs.map Tx.id).Nodup
  outs : ∀ t ∈ txs, t.outs ≠ []
  once : (txs.flatMap Tx.spends).Nodup
  named : ∀ pre t post, txs = pre ++ t :: post → ∀ o ∈ t.spends,
    ∃ u ∈ pre, u.id = o.1 ∧ o.2 < u.outs.length

omit [DecidableEq ι] in
theorem Valid.initial {pre post : List (Tx ι ω)} (h : Valid (pre ++ post)) : Valid pre where
  ids := by
    have := h.ids
    rw [List.map_append] at this
    exact (List.nodup_append.mp this).1
  outs := fun t ht => h.outs t (List.mem_append_left _ ht)
  once := by
    have := h.once
    rw [List.flatMap_append] at this
    exact (List.nodup_append.mp this).1
  named := by
    intro pre' t post' he
    subst he
    exact h.named pre' t (post' ++ post) (by simp)

omit [DecidableEq ι] in
theorem Valid.nil : Valid ([] : List (Tx ι ω)) where
  ids := List.nodup_nil
  outs := fun _ h => nomatch h
  once := List.nodup_nil
  named := fun pre t post h => by simp at h

omit [DecidableEq ι] in
/-- One more transaction: a new id, an output, and spends of earlier outputs that nobody
has named. -/
theorem Valid.snoc {pre : List (Tx ι ω)} {t : Tx ι ω} (h : Valid pre) (hid : t.id ∉ pre.map Tx.id)
    (hout : t.outs ≠ []) (hnd : t.spends.Nodup)
    (hnew : ∀ o ∈ t.spends, o ∉ pre.flatMap Tx.spends ∧
      ∃ u ∈ pre, u.id = o.1 ∧ o.2 < u.outs.length) : Valid (pre ++ [t]) where
  ids := by
    rw [List.map_append, List.nodup_append]
    refine ⟨h.ids, List.nodup_singleton _, ?_⟩
    intro a ha b hb he
    rw [List.map_singleton, List.mem_singleton] at hb
    exact hid (by rwa [← hb, ← he])
  outs := by
    intro u hu
    cases List.mem_append.mp hu with
    | inl hu =>
      exact h.outs u hu
    | inr hu =>
      rwa [List.mem_singleton.mp hu]
  once := by
    rw [List.flatMap_append, List.flatMap_singleton, List.nodup_append]
    refine ⟨h.once, hnd, ?_⟩
    intro a ha b hb he
    subst he
    exact (hnew a hb).1 ha
  named := by
    intro p u q hpq o ho
    rcases List.eq_nil_or_concat' q with rfl | ⟨q', v, rfl⟩
    · obtain ⟨rfl, ht⟩ := List.append_inj' hpq rfl
      obtain rfl : t = u := by simpa using ht
      exact (hnew o ho).2
    · have hpre : pre = p ++ u :: q' := by
        rw [← List.cons_append, ← List.append_assoc] at hpq
        exact (List.append_inj' hpq rfl).1
      exact h.named p u q' hpre o ho

theorem ledger_append (pre : List (Tx ι ω)) (t : Tx ι ω) :
    ledger (pre ++ [t]) = (ledger pre).apply t := by
  simp [ledger]

theorem Ledger.unspent_spendAll (L : Ledger ι ω) (os : List (ι × Nat)) (u : ι) (j : Nat) :
    (L.spendAll os).unspent u j = if (u, j) ∈ os then none else L.unspent u j := by
  induction os generalizing L with
  | nil => simp [Ledger.spendAll]
  | cons o os ih =>
    have hstep : (L.spendAll (o :: os)).unspent u j = ((L.spend o.1 o.2).spendAll os).unspent u j :=
      rfl
    rw [hstep, ih, Ledger.unspent_spend]
    by_cases hmem : (u, j) ∈ os <;> by_cases ho : (u, j) = o <;> simp [hmem, ho]

theorem Ledger.spendAll_subset {L : Ledger ι ω} {os : List (ι × Nat)} {u : ι}
    (h : L.spendAll os u ≠ none) : L u ≠ none := by
  induction os generalizing L with
  | nil => exact h
  | cons o os ih => exact Ledger.spend_subset (ih h)

theorem Ledger.Complete.spendAll {L : Ledger ι ω} (hL : L.Complete) (os : List (ι × Nat)) :
    (L.spendAll os).Complete := by
  induction os generalizing L with
  | nil => exact hL
  | cons o os ih => exact ih (hL.spend o.1 o.2)

theorem ledger_complete {txs : List (Tx ι ω)} (h : ∀ t ∈ txs, t.outs ≠ []) :
    (ledger txs).Complete := by
  induction txs using List.reverseRecOn with
  | nil => exact fun _ _ he => nomatch he
  | append_singleton pre t ih =>
    rw [ledger_append]
    exact ((ih fun u hu => h u (List.mem_append_left _ hu)).spendAll _).create _ (h t (by simp))

omit [DecidableEq ι] in
/-- No spend of a valid history names the last transaction. -/
theorem Valid.last_unnamed {pre : List (Tx ι ω)} {t : Tx ι ω} (h : Valid (pre ++ [t])) (j : Nat) :
    (t.id, j) ∉ (pre ++ [t]).flatMap Tx.spends := by
  intro hmem
  obtain ⟨x, hx, hxs⟩ := List.mem_flatMap.mp hmem
  obtain ⟨a, b, hab⟩ := List.append_of_mem hx
  obtain ⟨u, hu, hid, -⟩ := h.named a x b hab _ hxs
  -- an earlier transaction with the id of the last one
  have hpre : u ∈ pre := by
    have hup : u ∈ (pre ++ [t]).dropLast := by
      rw [hab, List.dropLast_append_of_ne_nil (by simp)]
      exact List.mem_append_left _ hu
    simpa using hup
  have hnd := h.ids
  rw [List.map_append, List.nodup_append] at hnd
  exact hnd.2.2 u.id (List.mem_map_of_mem hpre) t.id (by simp) hid

/-- The unspent outputs of a valid history: created and not named since. -/
theorem ledger_unspent {txs : List (Tx ι ω)} (h : Valid txs) (u : ι) (j : Nat) (o : ω) :
    (ledger txs).unspent u j = some o ↔
      ∃ t ∈ txs, t.id = u ∧ t.outs[j]? = some o ∧ (u, j) ∉ txs.flatMap Tx.spends := by
  induction txs using List.reverseRecOn with
  | nil => simp [ledger, Ledger.unspent]
  | append_singleton pre t ih =>
    rw [ledger_append, Ledger.apply, Ledger.unspent_create]
    by_cases hu : u = t.id
    · subst hu
      rw [if_pos rfl]
      constructor
      · intro ho
        exact ⟨t, by simp, rfl, ho, h.last_unnamed j⟩
      · rintro ⟨x, hx, hid, ho, -⟩
        have hnd := h.ids
        have hxt : x = t := List.inj_on_of_nodup_map hnd hx (by simp) hid
        rwa [hxt] at ho
    · rw [if_neg hu, Ledger.unspent_spendAll]
      have hpre := ih h.initial
      constructor
      · intro ho
        split at ho
        · cases ho
        · obtain ⟨x, hx, hid, hxo, hns⟩ := hpre.mp ho
          exact ⟨x, List.mem_append_left _ hx, hid, hxo, by simp_all⟩
      · rintro ⟨x, hx, hid, hxo, hns⟩
        rw [List.flatMap_append, List.mem_append, not_or] at hns
        cases List.mem_append.mp hx with
        | inl hx =>
          rw [if_neg (by simpa using hns.2)]
          exact hpre.mpr ⟨x, hx, hid, hxo, hns.1⟩
        | inr hx =>
          rw [List.mem_singleton.mp hx] at hid
          exact absurd hid.symm hu

/-- The entries of a valid history: the transactions with an unspent output. -/
theorem ledger_entry {txs : List (Tx ι ω)} (h : Valid txs) (u : ι) :
    ledger txs u ≠ none ↔
      ∃ t ∈ txs, t.id = u ∧ ∃ j, j < t.outs.length ∧ (u, j) ∉ txs.flatMap Tx.spends := by
  rw [(ledger_complete h.outs).entry_iff]
  constructor
  · rintro ⟨j, o, ho⟩
    obtain ⟨t, ht, hid, hto, hns⟩ := (ledger_unspent h u j o).mp ho
    exact ⟨t, ht, hid, j, (List.getElem?_eq_some_iff.mp hto).1, hns⟩
  · rintro ⟨t, ht, hid, j, hj, hns⟩
    exact ⟨j, t.outs[j], (ledger_unspent h u j _).mpr ⟨t, ht, hid, by simp [hj], hns⟩⟩

end Utxo
