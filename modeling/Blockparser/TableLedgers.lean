import Blockparser.AddrTables
import Blockparser.Histories

/-! What the records in the tables of the allBalances command tell: the ledger after every call,
and the same rows in its two modes. -/
namespace Blockparser.AddrTables
open Bytes Script Balances Modes ReservedKeys DenseHashtable
open MemoryManager (Hash160)
open Blockparser.Parser (Call)
open AllBalances (Addr Config Owned movedBy ValidCalls noHash smallConfig payScript)
open Records (otherScript otherPayee)

/-- What the records are to tell after these calls: the total of the unspent outputs of every
address asked for, for those that have something left, or with `--detailed` those that were
ever moved to or from. -/
def TellsLedger (cfg : Config) (s : State) (calls : List Call) : Prop :=
  ∀ h, (cfg.Allows h →
      (∀ a, s.view.record h = some a → a.hash = (h, 0) ∧
        a.sum.toNat = AllBalances.total cfg (calls.foldl AllBalances.unspentAfter 0) h) ∧
      (s.view.record h = none →
        AllBalances.total cfg (calls.foldl AllBalances.unspentAfter 0) h = 0) ∧
      (cfg.detailed = false → (s.view.record h ≠ none ↔
        AllBalances.total cfg (calls.foldl AllBalances.unspentAfter 0) h ≠ 0)) ∧
      (cfg.detailed = true → (s.view.record h ≠ none ↔ ∃ c ∈ calls, movedBy cfg c = some h))) ∧
    (¬cfg.Allows h → ∀ b, lookup s.addrMap (h, b) = none) ∧
    ∀ b, b ≠ 0 → lookup s.addrMap (h, b) = none

/-- All along a run that counts nothing under a reserved key the records tell the ledger. -/
theorem addrMap_ledger (cfg : Config) (calls : List Call) (hv : AllBalances.ValidCalls cfg 0 calls)
    (hf : Fits cfg calls) (hu : Unreserved cfg calls) (pre : List Call) (hp : pre <+: calls) :
    ∃ s, run cfg pre = .ok s ∧ (∀ k, ∃ r, s.addrMap.find typedHash160Traits k = .ok r) ∧
      TellsLedger cfg s pre := by
  obtain ⟨s, hrun, hs, hview⟩ :=
    run_view hf.1 (Nat.lt_of_le_of_lt hp.length_le hf.2) (hu.initial hp)
  refine ⟨s, hrun, fun k => (hs.addrs.find k).imp fun r hr => hr.1, fun h => ?_⟩
  have hmap : ∀ k, lookup s.addrMap k =
      (pre.foldl (AllBalances.onCall cfg) AllBalances.start).addrMap k := by
    intro k
    rw [← hview]
    rfl
  simp only [hview, hmap]
  exact AllBalances.allBalances_ledger cfg calls hv pre hp h

/-- The calls of refillCalls pay to one address, which is no mark. -/
theorem refillCalls_unreserved (detailed : Bool) :
    Unreserved (withMode smallConfig detailed) refillCalls := by
  cases detailed <;> exact Unreserved.of_moved (by decide +kernel)

/-- An address that is paid, emptied and paid again has no record in between, and one of what
is left in the end. -/
theorem addrMap_ledger_refillCalls :
    (∃ s, run smallConfig (refillCalls.take 2) = .ok s ∧ s.view.record payee = none) ∧
      ∃ s a, run smallConfig refillCalls = .ok s ∧ s.view.record payee = some a ∧
        a.sum.toNat = 3 := by
  have hu := refillCalls_unreserved false
  have htotal : AllBalances.total smallConfig
      ((refillCalls.take 2).foldl AllBalances.unspentAfter 0) payee = 0 ∧
      AllBalances.total smallConfig (refillCalls.foldl AllBalances.unspentAfter 0) payee = 3 := by
    decide +kernel
  obtain ⟨s, hrun, -, ht⟩ := addrMap_ledger smallConfig refillCalls refillCalls_valid
    ⟨by decide, by decide⟩ hu (refillCalls.take 2) (List.take_prefix 2 _)
  obtain ⟨s', hrun', -, ht'⟩ := addrMap_ledger smallConfig refillCalls refillCalls_valid
    ⟨by decide, by decide⟩ hu refillCalls (List.prefix_refl _)
  obtain ⟨-, -, hplain, -⟩ := (ht payee).1 (Or.inl rfl)
  obtain ⟨hsum, -, hplain', -⟩ := (ht' payee).1 (Or.inl rfl)
  refine ⟨⟨s, hrun, ?_⟩, ?_⟩
  · by_contra hne
    exact (hplain rfl).mp hne htotal.1
  · have hne : s'.view.record payee ≠ none := by
      rw [hplain' rfl, htotal.2]
      decide
    obtain ⟨a, ha⟩ := Option.ne_none_iff_exists'.mp hne
    exact ⟨s', a, hrun', ha, (hsum a ha).2.trans htotal.2⟩

/-- Whatever else comes by, nothing tells of what is left under the key of the empty buckets. -/
theorem emptyKey_not_tellsLedger {cfg : Config} {calls : List Call} {s : State}
    (hR : cfg.restricts.length < 2 ^ 60) (hrun : run cfg calls = .ok s)
    (ha : cfg.Allows (reservedHash 0x52))
    (hne : AllBalances.total cfg (calls.foldl AllBalances.unspentAfter 0)
      (reservedHash 0x52) ≠ 0) : ¬TellsLedger cfg s calls :=
  fun ht => hne (((ht (reservedHash 0x52)).1 ha).2.1 (run_emptyKey hR hrun))

def emptyKeyCalls : List Call := [.endOutput 0 5 noHash 0 emptyKeyScript 25]

theorem run_emptyKeyCalls : ∃ s, run zeroConfig emptyKeyCalls = .ok s ∧
    s.addrMap.find typedHash160Traits emptyKey = .ok none := by
  obtain ⟨d, hinit, hs, -, hview⟩ := init_spec zeroConfig (by decide)
  have ho : Owned d.view := by
    rw [hview]
    exact owned_run zeroConfig []
  have hacc : zeroConfig.account emptyKeyScript = some (reservedHash 0x52) := by decide +kernel
  obtain ⟨s, hmove, hs', -⟩ := @move_emptyKey zeroConfig d 0 emptyKeyScript
    (AllBalances.toInt64 5) hs ho (by decide) rfl hacc (by decide) noHash noHash 0
    (BitVec.ofInt 64 (-1))
  refine ⟨s, ?_, hs'.find_emptyKey⟩
  have hcall : onCall zeroConfig d (.endOutput 0 5 noHash 0 emptyKeyScript 25) = .ok s := hmove
  unfold run
  rw [bind_ok hinit, emptyKeyCalls, List.foldlM_cons, bind_ok hcall]
  rfl

/-- The record of an output that pays to that key is not found. -/
theorem not_tellsLedger_emptyKey : ¬∀ (cfg : Config) (calls : List Call),
    ValidCalls cfg 0 calls → Fits cfg calls → ∃ s, run cfg calls = .ok s ∧
      TellsLedger cfg s calls := by
  intro hall
  have hv : ValidCalls zeroConfig 0 emptyKeyCalls := by
    refine ⟨by simp [AllBalances.Spends], ?_, trivial⟩
    intro h
    exact Nat.lt_of_le_of_lt Balance.balance_le (by decide)
  obtain ⟨s, hrun, ht⟩ := hall zeroConfig emptyKeyCalls hv ⟨by decide, by decide⟩
  obtain ⟨s', hrun', hfind⟩ := run_emptyKeyCalls
  cases hrun'.symm.trans hrun
  have htotal : AllBalances.total zeroConfig (emptyKeyCalls.foldl AllBalances.unspentAfter 0)
      (reservedHash 0x52) ≠ 0 := by
    decide +kernel
  exact htotal (((ht (reservedHash 0x52)).1 (Or.inl rfl)).2.1 (record_of_find hfind))

/-- What wrapup has to go through. -/
def allAddrs (s : State) : List Addr := s.addrMap.entries.map fun e => s.pool.cells e.2

/-- The row it has for an address. -/
def wrapupRow (s : State) (h : Hash160) : Option Row :=
  ((allAddrs s).find? fun a => a.hash.1 = h).map rowOf

variable {cfg : Config} {s : State} {n : Nat} {mark : Option AllBalances.TypedHash160}

/-- The loop over the table comes by the record that find comes to. -/
theorem Sound.wrapupRow_eq (hs : Sound cfg mark s n) (ho : Owned s.view) (h : Hash160) :
    wrapupRow s h = (s.view.record h).map rowOf := by
  unfold wrapupRow
  refine congrArg (Option.map rowOf) ?_
  cases hfind : (allAddrs s).find? fun a => a.hash.1 = h with
  | some a =>
    have hmem := List.mem_of_find?_eq_some hfind
    have hhash : a.hash.1 = h := by simpa using List.find?_some hfind
    obtain ⟨e, he, rfl⟩ := List.mem_map.mp hmem
    have hk : s.view.addrMap e.1 = some e.2 := hs.addrs.mem_entries.mp he
    have hkey := ho.key_eq hk
    have hcell : (s.pool.cells e.2).hash = e.1 := ho.hash e.1 e.2 hk
    rw [hcell] at hhash
    rw [hkey, hhash] at hk
    exact (AllBalances.record_eq_some.mpr ⟨e.2, hk, rfl⟩).symm
  | none =>
    refine (AllBalances.record_eq_none.mpr ?_).symm
    by_contra hne
    obtain ⟨r, hr⟩ := Option.ne_none_iff_exists'.mp hne
    have hmem : s.pool.cells r ∈ allAddrs s :=
      List.mem_map.mpr ⟨((h, 0), r), hs.addrs.mem_entries.mpr hr, rfl⟩
    have hcell : (s.pool.cells r).hash = (h, 0) := ho.hash _ r hr
    have hno := List.find?_eq_none.mp hfind _ hmem
    rw [hcell] at hno
    simp at hno

/-- What wrapup goes through is what the map holds. -/
theorem run_wrapupRow {calls : List Call} (hf : Fits cfg calls) (detailed : Bool)
    (hu : Unreserved (withMode cfg detailed) calls) :
    ∃ s, run (withMode cfg detailed) calls = .ok s ∧
      ∀ h, wrapupRow s h = finalRow cfg detailed calls h := by
  obtain ⟨s, hrun, hs, hview⟩ := @run_view (withMode cfg detailed) hf.1 calls hf.2 hu
  have ho : Owned s.view := by
    rw [hview]
    exact owned_run _ _
  refine ⟨s, hrun, fun h => ?_⟩
  rw [hs.wrapupRow_eq ho, hview]
  rfl

/-- After a valid run that counts nothing under a reserved key, the two modes have the same row
for an address that has something left exactly when nothing that the plain mode forgot makes a
difference. -/
theorem wrapupRow_eq_iff (cfg : Config) (calls : List Call) (hv : ValidCalls cfg 0 calls)
    (hf : Fits cfg calls) (hu : Unreserved (withMode cfg false) calls) (h : Hash160)
    (hne : AllBalances.total cfg (calls.foldl AllBalances.unspentAfter 0) h ≠ 0) :
    ∃ s t, run (withMode cfg false) calls = .ok s ∧ run (withMode cfg true) calls = .ok t ∧
      (cfg.Allows h → (wrapupRow s h = wrapupRow t h ↔ Agrees h (movesOf cfg 0 calls))) ∧
      (¬cfg.Allows h → wrapupRow s h = wrapupRow t h) := by
  obtain ⟨s, hrun, hs⟩ := run_wrapupRow hf false hu
  obtain ⟨t, hrun', ht⟩ := @run_wrapupRow cfg calls hf true
    fun c hc h hm ha => ⟨(hu c hc h hm ha).1, nofun⟩
  refine ⟨s, t, hrun, hrun', ?_⟩
  rw [hs, ht]
  exact finalRow_eq_iff cfg calls hv h hne

/-- Two addresses are paid, one is emptied, the other spends a part. -/
def busyCalls : List Call :=
  [.endOutput 0 5 noHash 0 payScript 25, .endOutput 0 2 noHash 1 otherScript 25,
    .endOutput 0 3 noHash 2 payScript 25, .edge 2 noHash 1 otherScript 25 noHash 0 [] 0,
    .edge 3 noHash 2 payScript 25 noHash 1 [] 0]

theorem wrapupRow_eq_iff_busyCalls : ∃ s t,
    run (withMode smallConfig false) busyCalls = .ok s ∧
      run (withMode smallConfig true) busyCalls = .ok t ∧ wrapupRow s payee = wrapupRow t payee := by
  have hlt : ∀ coins : Multiset AllBalances.Coin, (coins.map AllBalances.Coin.value).sum < 2 ^ 64 →
      ∀ h, AllBalances.total smallConfig coins h < 2 ^ 64 :=
    fun coins hsum h => Nat.lt_of_le_of_lt Balance.balance_le hsum
  have hv : ValidCalls smallConfig 0 busyCalls := by
    refine ⟨by simp [AllBalances.Spends], hlt _ (by decide), by simp [AllBalances.Spends],
      hlt _ (by decide), by simp [AllBalances.Spends], hlt _ (by decide), ?_, hlt _ ?_, ?_, hlt _ ?_,
      trivial⟩
    · change _ ∈ _
      decide +kernel
    · decide +kernel
    · change _ ∈ _
      decide +kernel
    · decide +kernel
  have hu : Unreserved (withMode smallConfig false) busyCalls :=
    Unreserved.of_moved (by decide +kernel)
  obtain ⟨s, t, hrun, hrun', hrows, -⟩ := wrapupRow_eq_iff smallConfig busyCalls hv
    ⟨by decide, by decide⟩ hu payee (by decide +kernel)
  refine ⟨s, t, hrun, hrun', (hrows (Or.inl rfl)).mpr ⟨?_, ?_, Or.inl ?_⟩⟩
  · decide +kernel
  · decide +kernel
  · decide +kernel

/-- The calls of refillCalls give two rows. -/
theorem not_wrapupRow_eq_refillCalls : ¬∀ (cfg : Config) (calls : List Call),
    ValidCalls cfg 0 calls → Fits cfg calls → ∀ h,
      AllBalances.total cfg (calls.foldl AllBalances.unspentAfter 0) h ≠ 0 →
      ∃ s t, run (withMode cfg false) calls = .ok s ∧ run (withMode cfg true) calls = .ok t ∧
        wrapupRow s h = wrapupRow t h := by
  intro hall
  have hfits : Fits smallConfig refillCalls := ⟨by decide, by decide⟩
  obtain ⟨s, t, hrun, hrun', hrow⟩ :=
    hall smallConfig refillCalls refillCalls_valid hfits payee (by decide +kernel)
  obtain ⟨s', hs, hrows⟩ := run_wrapupRow hfits false (refillCalls_unreserved false)
  obtain ⟨t', ht, hrows'⟩ := run_wrapupRow hfits true (refillCalls_unreserved true)
  cases hs.symm.trans hrun
  cases ht.symm.trans hrun'
  rw [hrows, hrows'] at hrow
  exact finalRow_refillCalls hrow

end Blockparser.AddrTables
