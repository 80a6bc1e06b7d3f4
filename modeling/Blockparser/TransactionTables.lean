import Blockparser.TableLedgers
import Blockparser.Transactions

/-! The transactions command with its table of the addresses asked for, beside the tables of
allBalances restricted to them. -/
namespace Blockparser.TransactionTables
open Bytes Script Balances ReservedKeys DenseHashtable AddrTables Prefixes
open MemoryManager (Hash160)
open Blockparser.Parser (Call HashArg)
open AllBalances (Addr movedBy noHash payScript)
open Modes (payee)
open Records (otherPayee)
open Transactions (Config)

structure State extends Transactions.State where
  addrMap : DenseHashtable Hash160 (BitVec 32)

variable (cfg : Config)

def init : Except Fault State := do
  let addrMap ← addressTable cfg.rootHashes
  return ⟨Transactions.init, addrMap⟩

def move (s : State) (script : List UInt8) (txHash : HashArg) (value : BitVec 64) (add : Bool)
    (downTXHash : HashArg) : Except Fault State :=
  let r := cfg.solveOutputScript script
  if r.scriptType < 0 then return s
  else do
    let i ← s.addrMap.find hash160Traits r.pubKeyHash
    if i.isSome then
      return { s with
        toState := s.toState.matched r.pubKeyHash txHash value add downTXHash }
    else return s

def onCall (s : State) : Call → Except Fault State
  | .startBlock b => return { s with bTime := (cfg.blockTime b).setWidth 64 }
  | .endOutput _ value txHash _ outputScript _ =>
    move cfg s outputScript txHash (BitVec.ofNat 64 value) true noHash
  | .edge value upTXHash _ outputScript _ downTXHash _ _ _ =>
    move cfg s outputScript upTXHash (BitVec.ofNat 64 value) false downTXHash
  | _ => return s

def run (calls : List Call) : Except Fault State := do
  let s ← init cfg
  calls.foldlM (onCall cfg) s

/-- The table finds what is asked for, but for the key of its empty buckets. -/
def Finds (t : DenseHashtable Hash160 (BitVec 32)) : Prop :=
  ∀ h, ∃ r, t.find hash160Traits h = .ok r ∧
    (r.isSome ↔ h ∈ cfg.rootHashes ∧ h ≠ reservedHash 0x52)

variable {cfg} {s : State} {c : Call} {detailed : Bool} {script : List UInt8} {value : BitVec 64}
  {add : Bool} {txHash down : HashArg}

theorem move_eq (hf : Finds cfg s.addrMap)
    (hacc : (cfg.restricted detailed).account script ≠ some (reservedHash 0x52)) :
    move cfg s script txHash value add down =
      .ok { s with toState := Transactions.move cfg s.toState script txHash value add down } := by
  unfold move Transactions.move
  dsimp only
  cases h : (cfg.restricted detailed).account script with
  | none =>
    have hneg : (cfg.solveOutputScript script).scriptType < 0 := AllBalances.account_eq_none.mp h
    rw [if_pos hneg, if_pos hneg]
    rfl
  | some k =>
    obtain ⟨hneg, hkey⟩ : ¬(cfg.solveOutputScript script).scriptType < 0 ∧
      (cfg.solveOutputScript script).pubKeyHash = k := AllBalances.account_eq_some.mp h
    rw [h] at hacc
    have hne : k ≠ reservedHash 0x52 := fun he => hacc (congrArg some he)
    obtain ⟨r, hrun, hr⟩ := hf k
    rw [if_neg hneg, if_neg hneg, hkey, bind_ok hrun]
    by_cases hmem : k ∈ cfg.rootHashes
    · rw [if_pos (hr.mpr ⟨hmem, hne⟩), if_neg (not_not_intro hmem)]
      rfl
    · rw [if_neg fun hsome => hmem (hr.mp hsome).1, if_pos hmem]
      rfl

theorem move_skip (hf : Finds cfg s.addrMap)
    (hacc : (cfg.restricted detailed).account script = some (reservedHash 0x52)) :
    move cfg s script txHash value add down = .ok s := by
  obtain ⟨hneg, hkey⟩ : ¬(cfg.solveOutputScript script).scriptType < 0 ∧
    (cfg.solveOutputScript script).pubKeyHash = reservedHash 0x52 :=
    AllBalances.account_eq_some.mp hacc
  obtain ⟨r, hrun, hr⟩ := hf (reservedHash 0x52)
  unfold move
  dsimp only
  rw [if_neg hneg, hkey, bind_ok hrun, if_neg fun hsome => (hr.mp hsome).2 rfl]
  rfl

theorem onCall_eq (hf : Finds cfg s.addrMap)
    (hc : movedBy (cfg.restricted detailed) c ≠ some (reservedHash 0x52)) :
    onCall cfg s c = .ok { s with toState := Transactions.onCall cfg s.toState c } := by
  cases c with
  | endOutput => exact move_eq hf hc
  | edge => exact move_eq hf hc
  | _ => rfl

theorem onCall_skip (hf : Finds cfg s.addrMap)
    (hc : movedBy (cfg.restricted detailed) c = some (reservedHash 0x52)) :
    onCall cfg s c = .ok s := by
  cases c with
  | endOutput => exact move_skip hf hc
  | edge => exact move_skip hf hc
  | _ => nomatch hc

theorem foldlM_heard (hf : Finds cfg s.addrMap) (detailed : Bool) (calls : List Call) :
    calls.foldlM (onCall cfg) s =
      .ok ⟨(heard (cfg.restricted detailed) calls).foldl (Transactions.onCall cfg) s.toState,
        s.addrMap⟩ := by
  induction calls generalizing s with
  | nil => rfl
  | cons c calls ih =>
    rw [List.foldlM_cons]
    unfold heard at ih ⊢
    by_cases hc : movedBy (cfg.restricted detailed) c = some (reservedHash 0x52)
    · rw [onCall_skip hf hc, List.filter_cons_of_neg (by simpa using hc)]
      exact ih hf
    · rw [onCall_eq hf hc, List.filter_cons_of_pos (by simpa using hc), List.foldl_cons]
      exact @ih { s with toState := Transactions.onCall cfg s.toState c } hf

/-- A run over the table is one over the map, but for the key of the empty buckets. -/
theorem run_heard (hlen : cfg.rootHashes.length < 2 ^ 60) (detailed : Bool) (calls : List Call) :
    ∃ t, run cfg calls = .ok t ∧ t.toState =
      (heard (cfg.restricted detailed) calls).foldl (Transactions.onCall cfg)
        Transactions.init := by
  obtain ⟨addrMap, hrun, -, hfind⟩ := addressTable_spec cfg.rootHashes hlen
  have hcalls := @foldlM_heard cfg ⟨Transactions.init, addrMap⟩ hfind detailed calls
  refine ⟨⟨_, addrMap⟩, ?_, rfl⟩
  unfold run init
  rw [bind_ok hrun]
  exact hcalls

/-- The sum of the transactions command is that of the records in the table of allBalances
restricted to the same addresses, and what was added less what was subtracted, unless the plain
mode counts something under the key of its deleted buckets. -/
theorem sum_eq_addrMap (cfg : Config) (hR : cfg.rootHashes ≠ []) (detailed : Bool)
    (calls : List Call) (hf : Fits (cfg.restricted detailed) calls)
    (hu : detailed = false → ∀ c ∈ calls,
      movedBy (cfg.restricted detailed) c = some (reservedHash 0x53) →
        reservedHash 0x53 ∉ cfg.rootHashes) :
    ∃ t a, run cfg calls = .ok t ∧ AddrTables.run (cfg.restricted detailed) calls = .ok a ∧
      t.sum = ∑ h ∈ cfg.rootHashes.toFinset, ((a.view.record h).map Addr.sum).getD 0 ∧
      t.sum = t.adds - t.subs := by
  obtain ⟨t, hrun, ht⟩ := @run_heard cfg hf.1 detailed calls
  obtain ⟨a, hrun', -, ha⟩ := AddrTables.run_heard hf.1 calls hf.2 (by
    intro c hc h hm hallows
    refine ⟨fun hnil => absurd hnil hR, fun hd h53 => ?_⟩
    subst h53
    exact hu hd c hc hm (hallows.resolve_left hR))
  obtain ⟨hsum, hboth⟩ := Transactions.sum_eq_allBalances cfg hR detailed
    (heard (cfg.restricted detailed) calls)
  refine ⟨t, a, hrun, hrun', ?_, ?_⟩
  · rw [ht, ha]
    exact hsum
  · rw [ht]
    exact hboth

/-- Two addresses, one of them twice, and the key of the empty buckets. -/
def busyConfig : Config :=
  ⟨[payee, otherPayee, payee, reservedHash 0x52], fun _ => 0, AllBalances.solvePayToHash⟩

theorem sum_eq_addrMap_busyCalls : ∃ t a, run busyConfig busyCalls = .ok t ∧
    AddrTables.run (busyConfig.restricted false) busyCalls = .ok a ∧ t.sum = 5 ∧
      ∑ h ∈ busyConfig.rootHashes.toFinset, ((a.view.record h).map Addr.sum).getD 0 = 5 := by
  obtain ⟨t, a, hrun, hrun', hsum, hboth⟩ := sum_eq_addrMap busyConfig (by decide) false busyCalls
    ⟨by decide, by decide⟩ (by decide +kernel)
  obtain ⟨t', ht', hstate⟩ := @run_heard busyConfig (by decide) false busyCalls
  cases ht'.symm.trans hrun
  have h5 : t.sum = 5 := by
    rw [hstate]
    decide +kernel
  exact ⟨t, a, hrun, hrun', h5, hsum.symm.trans h5⟩

/-- An output that pays to the key of the deleted buckets. -/
def deletedKeyScript : List UInt8 :=
  [0x76, 0xA9, 20] ++ (reservedHash 0x53).1 ++ [0x88, 0xAC]

def deletedKeyConfig : Config :=
  ⟨[reservedHash 0x53, payee], fun _ => 0, zeroConfig.solveOutputScript⟩

def paidCalls : List Call :=
  [.endOutput 0 5 noHash 0 deletedKeyScript 25, .endOutput 0 3 noHash 1 payScript 25]

/-- Another address is paid too, and emptied. -/
def deletedKeyCalls : List Call := paidCalls ++ [.edge 3 noHash 1 payScript 25 noHash 0 [] 0]

/-- What is under the key of the deleted buckets is not found from then on. -/
theorem run_deletedKeyCalls :
    ∃ a, AddrTables.run (deletedKeyConfig.restricted false) deletedKeyCalls = .ok a ∧
      a.addrMap.find typedHash160Traits (payee, 0) = .ok none ∧
      a.addrMap.find typedHash160Traits deletedKey = .ok none := by
  have hfree : Free none (reservedHash 0x53) ∧ Free none payee :=
    ⟨⟨by decide +kernel, nofun⟩, ⟨by decide +kernel, nofun⟩⟩
  obtain ⟨hdeleted, hpayee⟩ :
      (deletedKeyConfig.restricted false).account deletedKeyScript = some (reservedHash 0x53) ∧
        (deletedKeyConfig.restricted false).account payScript = some payee := by
    decide +kernel
  have hkeeps : Steps (fun pre c => ∀ h, movedBy (deletedKeyConfig.restricted false) c = some h →
      (deletedKeyConfig.restricted false).Allows h → Free none h ∧
        Keeps (deletedKeyConfig.restricted false) none
          (pre.foldl (AllBalances.onCall (deletedKeyConfig.restricted false)) AllBalances.start) h
          (movedValue c)) paidCalls := by
    refine @steps_append _ _ [_] _ |>.mpr ⟨@steps_append _ _ [] _ |>.mpr ⟨steps_nil, ?_⟩, ?_⟩
    · intro h hm _
      cases hdeleted.symm.trans hm
      refine ⟨hfree.1, Or.inr (Or.inr ?_)⟩
      decide +kernel
    · intro h hm _
      cases hpayee.symm.trans hm
      refine ⟨hfree.2, Or.inr (Or.inr ?_)⟩
      decide +kernel
  obtain ⟨d, hrun, hs, hview⟩ :=
    run_keeps (by decide) (by decide) (Or.inl rfl) hkeeps
  have ho : AllBalances.Owned d.view := by
    rw [hview]
    exact owned_run _ _
  have hk : d.view.addrMap (payee, 0) = some 1 := by
    rw [hview]
    decide +kernel
  have hzero : ((d.view.pool.cells 1).add d.view.blockTime (-AllBalances.toInt64 3)).sum = 0 := by
    rw [hview]
    decide +kernel
  obtain ⟨a, hmove, hnone, hgone⟩ := move_erases hs ho rfl hpayee (Or.inr (by decide))
    hfree.2.1 (by decide +kernel) hk hzero noHash noHash 1 (BitVec.ofNat 64 0)
  refine ⟨a, ?_, hnone, hgone⟩
  unfold deletedKeyCalls
  rw [run_append, bind_ok hrun]
  exact hmove

/-- The transactions command still has its 5. -/
theorem not_sum_eq_deletedKey : ¬∀ (cfg : Config), cfg.rootHashes ≠ [] →
    ∀ (detailed : Bool) (calls : List Call), Fits (cfg.restricted detailed) calls →
      ∃ t a, run cfg calls = .ok t ∧ AddrTables.run (cfg.restricted detailed) calls = .ok a ∧
        t.sum = ∑ h ∈ cfg.rootHashes.toFinset, ((a.view.record h).map Addr.sum).getD 0 := by
  intro hall
  obtain ⟨t, a, hrun, hrun', hsum⟩ :=
    hall deletedKeyConfig (by decide) false deletedKeyCalls ⟨by decide, by decide⟩
  obtain ⟨t', ht', hstate⟩ := @run_heard deletedKeyConfig (by decide) false deletedKeyCalls
  obtain ⟨a', ha', hpayee, hdeleted⟩ := run_deletedKeyCalls
  cases ht'.symm.trans hrun
  cases ha'.symm.trans hrun'
  have hzero : ∑ h ∈ deletedKeyConfig.rootHashes.toFinset,
      ((a.view.record h).map Addr.sum).getD 0 = 0 := by
    refine Finset.sum_eq_zero fun h hmem => ?_
    have hroot : h = reservedHash 0x53 ∨ h = payee := by
      simpa [deletedKeyConfig] using hmem
    cases hroot with
    | inl he =>
      rw [he, record_of_find hdeleted]
      rfl
    | inr he =>
      rw [he, record_of_find hpayee]
      rfl
  rw [hzero, hstate] at hsum
  revert hsum
  decide +kernel

end Blockparser.TransactionTables
