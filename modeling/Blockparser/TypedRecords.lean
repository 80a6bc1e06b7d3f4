import Blockparser.Modes
import Blockparser.Records
import Blockparser.Lib.Prefixes

/-! Addresses with one hash and different types: when the allBalances command counts them in
different records. -/
namespace Blockparser.Records
open Script AllBalances Balances Modes Prefixes Bytes
open MemoryManager (Hash160 nullHash)
open Blockparser.Parser (Call)

/-- Outputs of one hash and different types are counted in different records. -/
def Apart (j : Journal) : Prop :=
  ∀ e ∈ j.entries, ∀ e' ∈ j.entries, e.posting.hash = e'.posting.hash →
    e.posting.addrType ≠ e'.posting.addrType → e.record ≠ e'.record

/-- A record has the hash and the type of every output counted in it. -/
def Typed (j : Journal) : Prop :=
  ∀ k addr, j.state.addrMap k = some addr → ∀ p ∈ j.countedIn addr,
    (j.state.pool.cells addr).hash.1 = p.hash ∧ (j.state.pool.cells addr).type = p.addrType

def KeepsTypes (cfg : Config) (calls : List Call) : Prop :=
  Always (fun pre => Apart (journal cfg pre) ∧ Typed (journal cfg pre)) calls

/-- The sum of a hash is 0 as a 64-bit number, where the plain mode gives its record back. -/
def Closed (detailed : Bool) (ps : List Posting) (h : Hash160) : Prop :=
  detailed = false ∧ (2 : Int) ^ 64 ∣ sumOf h (ps.map Posting.toMove)

/-- The hash of this posting was not closed since. -/
def Pending (detailed : Bool) (ps : List Posting) (p : Posting) : Prop :=
  ∃ pre post, ps = pre ++ p :: post ∧
    Always (fun mid => ¬Closed detailed (pre ++ p :: mid) p.hash) post

/-- A posting has the type of those of its hash that are pending. -/
def Untangled (detailed : Bool) (ps : List Posting) : Prop :=
  Steps (fun pre q => ∀ p, Pending detailed pre p → p.hash = q.hash →
    p.addrType = q.addrType) ps

variable {cfg : Config} {s : State} {j : Journal} {p q : Posting} {h : Hash160}
  {ps : List Posting} {detailed : Bool} {calls : List Call}

theorem pending_append : Pending detailed (ps ++ [q]) p ↔
    (Pending detailed ps p ∨ p = q) ∧ ¬Closed detailed (ps ++ [q]) p.hash := by
  constructor
  · rintro ⟨pre, post, he, hno⟩
    have hlast := hno.last
    rw [← he] at hlast
    refine ⟨?_, hlast⟩
    induction post using List.reverseRecOn with
    | nil =>
      have hpq := (List.append_inj' he rfl).2
      exact Or.inr (List.singleton_inj.mp hpq).symm
    | append_singleton post q' _ =>
      rw [← List.cons_append, ← List.append_assoc] at he
      exact Or.inl ⟨pre, post, (List.append_inj' he rfl).1, (always_append.mp hno).1⟩
  · rintro ⟨hp, hlast⟩
    cases hp with
    | inl hp =>
      obtain ⟨pre, post, rfl, hno⟩ := hp
      rw [List.append_assoc, List.cons_append] at hlast
      refine ⟨pre, post ++ [q], by simp, always_append.mpr ⟨hno, hlast⟩⟩
    | inr hp =>
      subst hp
      exact ⟨ps, [], rfl, always_nil.mpr hlast⟩

theorem Pending.not_closed (hp : Pending detailed ps p) : ¬Closed detailed ps p.hash := by
  obtain ⟨pre, post, rfl, hno⟩ := hp
  exact hno.last

theorem closed_append_of_ne (hq : q.hash ≠ h) :
    Closed detailed (ps ++ [q]) h ↔ Closed detailed ps h := by
  unfold Closed
  rw [List.map_append, sumOf_append, List.map_singleton, sumOf_of_ne hq, Int.add_zero]

theorem ofInt_eq_zero_iff (x : Int) : BitVec.ofInt 64 x = 0 ↔ (2 : Int) ^ 64 ∣ x := by
  rw [← BitVec.toNat_inj, BitVec.toNat_ofInt]
  simp
  omega

/-- A hash that was moved has no record exactly when it is closed. -/
theorem Kept.closed_iff (hj : Kept cfg j ps) (hm : movesFor h (ps.map Posting.toMove) ≠ []) :
    Closed cfg.detailed ps h ↔ j.state.record h = none := by
  have hrow : j.state.record h = none ↔
      (Books.run cfg.detailed (ps.map Posting.toMove)).rows h = none := by
    rw [← hj.rep.rows h, Option.map_eq_none_iff]
  rw [hrow, Closed]
  cases hd : cfg.detailed with
  | true =>
    rw [(detailed_row (ps.map Posting.toMove) h).2.2]
    simp [hm]
  | false =>
    rw [← ofInt_eq_zero_iff, plain_rows_eq_none]
    simp

/-- The record of `h` has the postings of `h` that are pending. -/
theorem mem_history (cfg : Config) (calls : List Call) (h : Hash160) (p : Posting) :
    p ∈ (journal cfg calls).history h ↔
      Pending cfg.detailed (postingsOf cfg 0 calls) p ∧ p.hash = h := by
  induction calls using List.reverseRecOn generalizing h p with
  | nil =>
    have hempty : (journal cfg []).history h = [] := rfl
    rw [hempty]
    constructor
    · intro hp
      cases hp
    · rintro ⟨⟨pre, post, he, -⟩, -⟩
      simp [postingsOf] at he
  | append_singleton calls c ih =>
    have hj := journal_kept cfg calls
    have hj' := journal_kept cfg (calls ++ [c])
    rw [journal_append, postingsOf_append, ← journal_time] at hj' ⊢
    cases hp : postingOf cfg (journal cfg calls).state.blockTime c with
    | none =>
      rw [idle_history hp, ih, Option.toList_none, List.append_nil]
    | some q =>
      rw [hp, Option.toList_some] at hj'
      rw [hj.post_history hp, Option.toList_some, pending_append]
      by_cases hh : h = q.hash
      · have hclosed := hj'.closed_iff (h := h) (by simp [hh])
        rw [if_pos hh]
        split
        · next hnone =>
          constructor
          · intro hp
            cases hp
          · rintro ⟨⟨-, hopen⟩, hph⟩
            rw [hph] at hopen
            exact absurd (hclosed.mpr hnone) hopen
        · next hsome =>
          rw [List.mem_append, ih, List.mem_singleton]
          constructor
          · rintro (⟨hpend, hph⟩ | rfl)
            · exact ⟨⟨Or.inl hpend, by rwa [hph, hclosed]⟩, hph⟩
            · exact ⟨⟨Or.inr rfl, by rwa [← hh, hclosed]⟩, hh.symm⟩
          · rintro ⟨⟨hpend | hpq, -⟩, hph⟩
            · exact Or.inl ⟨hpend, hph⟩
            · exact Or.inr hpq
      · rw [if_neg hh, ih]
        constructor
        · rintro ⟨hpend, hph⟩
          have hne : q.hash ≠ p.hash := fun he => hh (by rw [← hph, he])
          exact ⟨⟨Or.inl hpend, by rw [closed_append_of_ne hne]; exact hpend.not_closed⟩, hph⟩
        · rintro ⟨⟨hpend | hpq, -⟩, hph⟩
          · exact ⟨hpend, hph⟩
          · rw [hpq] at hph
            exact absurd hph.symm hh

/-- The type of a record is that of a posting counted in it, the one it was made for. -/
theorem record_first (cfg : Config) (calls : List Call) (h : Hash160) :
    ∀ type ∈ ((journal cfg calls).state.record h).map Addr.type,
      ∃ p ∈ (journal cfg calls).history h, p.addrType = type := by
  induction calls using List.reverseRecOn with
  | nil =>
    intro type ht
    cases ht
  | append_singleton calls c ih =>
    have hj := journal_kept cfg calls
    rw [journal_append]
    cases hp : postingOf cfg (journal cfg calls).state.blockTime c with
    | none =>
      obtain ⟨hmap, hpool⟩ := onCall_idle hp
      rw [idle_history hp, step_state, State.record, hmap, hpool]
      exact ih
    | some q =>
      have htype := (onCall_counts hj.rep.toOwned hp).record_type hj.rep.toOwned h
      rw [← step_state] at htype
      rw [hj.post_history hp, htype]
      by_cases hh : h = q.hash
      · rw [if_pos hh, if_pos hh]
        split
        · intro type ht
          cases ht
        · intro type ht
          cases Option.mem_some.mp ht
          cases hr : ((journal cfg calls).state.record h).map Addr.type with
          | none => exact ⟨q, by simp, rfl⟩
          | some type =>
            obtain ⟨p, hpmem, hpt⟩ := ih type hr
            exact ⟨p, List.mem_append_left _ hpmem, hpt⟩
      · rw [if_neg hh, if_neg hh]
        exact ih

/-- Outputs of one record are of one hash. -/
theorem mem_countedIn_hash {k : TypedHash160} {addr : AddrRef}
    (hk : (journal cfg calls).state.addrMap k = some addr)
    (hp : p ∈ (journal cfg calls).countedIn addr) :
    p ∈ (journal cfg calls).history k.1 ∧
      ((journal cfg calls).state.pool.cells addr).hash.1 = p.hash := by
  have ho := (journal_kept cfg calls).rep.toOwned
  have hkey := hk
  rw [ho.key_eq hk] at hkey
  have hmem : p ∈ (journal cfg calls).history k.1 := by
    rw [history_of_some hkey]
    exact hp
  refine ⟨hmem, ?_⟩
  rw [ho.hash k addr hk, ((mem_history cfg calls k.1 p).mp hmem).2]

/-- What is apart is counted under its own type. -/
theorem Apart.typed (ha : Apart (journal cfg calls)) : Typed (journal cfg calls) := by
  intro k addr hk p hp
  obtain ⟨hmem, hhash⟩ := mem_countedIn_hash hk hp
  refine ⟨hhash, ?_⟩
  have hkey := hk
  rw [(journal_kept cfg calls).rep.toOwned.key_eq hk] at hkey
  obtain ⟨first, hfirst, htype⟩ := record_first cfg calls k.1
    ((journal cfg calls).state.pool.cells addr).type (by simp [State.record, hkey])
  rw [history_of_some hkey] at hfirst
  obtain ⟨-, hhash'⟩ := mem_countedIn_hash hk hfirst
  obtain ⟨e, he, hnum, rfl⟩ := mem_countedIn.mp hp
  obtain ⟨e', he', hnum', rfl⟩ := mem_countedIn.mp hfirst
  by_contra hne
  refine ha e he e' he' (hhash.symm.trans hhash') ?_ (hnum.trans hnum'.symm)
  rw [htype]
  exact Ne.symm hne

/-- A posting keeps the outputs apart when it has the type of its record. -/
theorem Numbered.apart_post (hn : Numbered j) : Apart (j.post cfg s q) ↔
    Apart j ∧ ∀ p ∈ j.history q.hash, p.hash = q.hash → p.addrType = q.addrType := by
  have hmem : ∀ p, p ∈ j.history q.hash ↔
      ∃ e ∈ j.entries, e.record = j.recordOf q.hash ∧ e.posting = p := by
    intro p
    rw [← hn.filter_recordOf]
    simp [and_assoc]
  have hentries : (j.post cfg s q).entries = j.entries ++ [⟨q, j.recordOf q.hash⟩] := rfl
  constructor
  · intro ha
    refine ⟨?_, ?_⟩
    · intro e he e' he'
      exact ha e (List.mem_append_left _ he) e' (List.mem_append_left _ he')
    · intro p hp hhash
      obtain ⟨e, he, hnum, rfl⟩ := (hmem p).mp hp
      by_contra hne
      exact ha e (List.mem_append_left _ he) ⟨q, j.recordOf q.hash⟩
        (List.mem_append_right _ (List.mem_singleton.mpr rfl)) hhash hne hnum
  · rintro ⟨ha, hq⟩ e he e' he' hhash hne hnum
    rw [hentries, List.mem_append, List.mem_singleton] at he he'
    obtain he | rfl := he <;> obtain he' | rfl := he'
    · exact ha e he e' he' hhash hne hnum
    · exact hne (hq _ ((hmem _).mpr ⟨e, he, hnum, rfl⟩) hhash)
    · exact hne (hq _ ((hmem _).mpr ⟨e', he', hnum.symm, rfl⟩) hhash.symm).symm
    · exact hne rfl

/-- Outputs are counted in a record of their own type all along a run exactly when none
comes while the record of its hash is kept for another type. -/
theorem keepsTypes_iff (cfg : Config) (calls : List Call) :
    KeepsTypes cfg calls ↔ Untangled cfg.detailed (postingsOf cfg 0 calls) := by
  unfold KeepsTypes Untangled
  induction calls using List.reverseRecOn with
  | nil =>
    have hstart : Apart (journal cfg []) := by
      intro e he
      cases he
    exact ⟨fun _ => steps_nil, fun _ => always_nil.mpr ⟨hstart, hstart.typed⟩⟩
  | append_singleton calls c ih =>
    have htyped : Apart (journal cfg (calls ++ [c])) ∧ Typed (journal cfg (calls ++ [c])) ↔
        Apart (journal cfg (calls ++ [c])) := ⟨And.left, fun ha => ⟨ha, ha.typed⟩⟩
    rw [always_append, ih, htyped, journal_append, postingsOf_append, ← journal_time,
      Journal.step]
    cases hp : postingOf cfg (journal cfg calls).state.blockTime c with
    | none =>
      rw [Option.toList_none, List.append_nil]
      refine ⟨And.left, fun hu => ⟨hu, ?_⟩⟩
      exact (ih.mpr hu).last.1
    | some q =>
      rw [Option.toList_some, steps_append, (journal_kept cfg calls).toNumbered.apart_post]
      constructor
      · rintro ⟨hu, -, hq⟩
        refine ⟨hu, fun p hpend hph => ?_⟩
        exact hq p ((mem_history cfg calls q.hash p).mpr ⟨hpend, hph⟩) hph
      · rintro ⟨hu, hq⟩
        refine ⟨hu, (ih.mpr hu).last.1, fun p hmem hph => ?_⟩
        exact hq p ((mem_history cfg calls q.hash p).mp hmem).1 hph

/-- A script that pays to the hash of a script, with the bytes of payScript. -/
def payScriptHash : List UInt8 := [0xA9, 20] ++ List.replicate 20 7 ++ [0x87]

def typedConfig : Config where
  detailed := false
  restricts := []
  blockTime _ := 0
  solveOutputScript script :=
    Script.solveOutputScript ⟨fun _ => nullHash, fun _ => hashZero⟩ (surrounded script 0)
      script.length 0

/-- An output to a public key and one to a script. -/
def twoTypes : List Call :=
  [.endOutput 0 5 noHash 0 payScript 25, .endOutput 0 7 noHash 1 payScriptHash 23]

theorem twoTypes_entries : (journal typedConfig twoTypes).entries =
    [⟨⟨⟨⟨List.replicate 20 7, length_sevens⟩, 5, 0⟩, 0, true⟩, 0⟩,
      ⟨⟨⟨⟨List.replicate 20 7, length_sevens⟩, 7, 0⟩, 5, true⟩, 0⟩] := by
  decide +kernel

/-- Both are counted in the record of the public key. -/
theorem not_keepsTypes_twoTypes : ¬KeepsTypes typedConfig twoTypes := by
  intro h
  have hapart := h.last.1
  rw [Apart, twoTypes_entries] at hapart
  exact hapart _ (List.mem_cons_self ..) _ (List.mem_cons_of_mem _ (List.mem_cons_self ..)) rfl
    (by decide) rfl

end Blockparser.Records
