import Blockparser.TypedRecords

/-! What a record of the allBalances command tells of the outputs counted in it: the counts
and the times that wrapup prints, and when they are those of its own history. -/
namespace Blockparser.Records
open Script AllBalances Balances Modes Prefixes
open MemoryManager (Hash160)
open Blockparser.Parser (Call)

def receipts (ps : List Posting) : List Posting := ps.filter (·.received)

def spends (ps : List Posting) : List Posting := ps.filter (!·.received)

/-- The time of the latest of some postings, 0 when there is none. -/
def latest (ps : List Posting) : BitVec 32 := lastTime 0 (ps.map Posting.toMove)

/-- A row with the counts and the times of these postings. -/
structure Tells (r : Row) (ps : List Posting) : Prop where
  nbIn : r.nbIn.toNat = (receipts ps).length
  nbOut : r.nbOut.toNat = (spends ps).length
  lastIn : r.lastIn = latest (receipts ps)
  lastOut : r.lastOut = latest (spends ps)

/-- Every record in the table tells what was counted in it since it was made. -/
def OwnHistories (cfg : Config) (calls : List Call) : Prop :=
  Always (fun pre => ∀ k addr, (journal cfg pre).state.addrMap k = some addr →
    Tells (rowOf ((journal cfg pre).state.pool.cells addr))
      ((journal cfg pre).countedIn addr)) calls

/-- The record of the posting is there after it, and not given back. -/
def Stays (cfg : Config) (s : State) (p : Posting) : Prop :=
  cfg.detailed = true ∨
    ((s.record p.hash).map Addr.sum).getD 0 + BitVec.ofInt 64 p.value ≠ 0

/-- A receipt is above 0 and a spend is not, the counter has room, and a record that is made
for the posting is in a cell without a time of the other kind. -/
def Clean (s : State) (p : Posting) : Prop :=
  (0 < p.value ↔ p.received = true) ∧
    match s.record p.hash with
    | some a =>
      if p.received = true then a.nbIn ≠ BitVec.allOnes 64 else a.nbOut ≠ BitVec.allOnes 64
    | none =>
      if p.received = true then (s.pool.cells s.pool.alloc.1).lastOut = 0
      else (s.pool.cells s.pool.alloc.1).lastIn = 0

instance (cfg : Config) (s : State) (p : Posting) : Decidable (Stays cfg s p) :=
  inferInstanceAs (Decidable (_ ∨ _))

instance (s : State) (p : Posting) : Decidable (Clean s p) :=
  @instDecidableAnd _ _ (inferInstanceAs (Decidable (_ ↔ _)))
    (match s.record p.hash with
    | some _ => inferInstanceAs (Decidable (ite _ _ _))
    | none => inferInstanceAs (Decidable (ite _ _ _)))

def CleanStep (cfg : Config) (s : State) (c : Call) : Prop :=
  ∀ p ∈ postingOf cfg s.blockTime c, Stays cfg s p → Clean s p

instance (cfg : Config) (s : State) (c : Call) : Decidable (CleanStep cfg s c) :=
  inferInstanceAs (Decidable (∀ p ∈ postingOf cfg s.blockTime c, Stays cfg s p → Clean s p))

variable {cfg : Config} {s : State} {j : Journal} {p : Posting} {h : Hash160} {r : Row}
  {ps : List Posting} {b : Books} {c : Call}

theorem toNat_succ_iff (x : BitVec 64) : (x + 1).toNat = x.toNat + 1 ↔ x ≠ BitVec.allOnes 64 := by
  have hlt := x.isLt
  rw [← BitVec.toNat_ne_iff_ne, BitVec.toNat_add, BitVec.toNat_allOnes]
  simp
  omega

theorem latest_append (ps : List Posting) (p : Posting) : latest (ps ++ [p]) = p.time := by
  rw [latest, List.map_append, List.map_singleton, lastTime_append]

theorem Row.add_of_pos (r : Row) (time : BitVec 32) {v : Int} (hv : 0 < v) :
    r.add time v = ⟨r.sum + BitVec.ofInt 64 v, r.nbIn + 1, r.nbOut, time, r.lastOut⟩ := by
  rw [Row.add, if_pos hv]

theorem Row.add_of_not_pos (r : Row) (time : BitVec 32) {v : Int} (hv : ¬0 < v) :
    r.add time v = ⟨r.sum + BitVec.ofInt 64 v, r.nbIn, r.nbOut + 1, r.lastIn, time⟩ := by
  rw [Row.add, if_neg hv]

section
variable (hin : r.nbIn.toNat = (receipts ps).length) (hout : r.nbOut.toNat = (spends ps).length)
include hin hout

/-- One output more is received, on a row with the right counts. -/
theorem tells_received_iff (hr : p.received = true) :
    Tells (r.add p.time p.value) (ps ++ [p]) ↔
      0 < p.value ∧ r.nbIn ≠ BitVec.allOnes 64 ∧ r.lastOut = latest (spends ps) := by
  have hrec : receipts (ps ++ [p]) = receipts ps ++ [p] := by simp [receipts, hr]
  have hspe : spends (ps ++ [p]) = spends ps := by simp [spends, hr]
  rw [← toNat_succ_iff]
  by_cases hv : 0 < p.value
  · rw [Row.add_of_pos r p.time hv]
    constructor
    · intro ht
      have hnb := ht.nbIn
      have hlast := ht.lastOut
      rw [hrec, List.length_append, ← hin] at hnb
      rw [hspe] at hlast
      exact ⟨hv, hnb, hlast⟩
    · intro ht
      refine ⟨?_, ?_, ?_, ?_⟩
      · rw [hrec, List.length_append, ← hin]
        exact ht.2.1
      · rw [hspe]
        exact hout
      · rw [hrec, latest_append]
      · rw [hspe]
        exact ht.2.2
  · rw [Row.add_of_not_pos r p.time hv]
    constructor
    · intro ht
      have hnb : r.nbIn.toNat = (receipts (ps ++ [p])).length := ht.nbIn
      rw [hrec, List.length_append, List.length_singleton] at hnb
      omega
    · exact fun ht => absurd ht.1 hv

/-- One output more is spent. -/
theorem tells_spent_iff (hr : p.received = false) :
    Tells (r.add p.time p.value) (ps ++ [p]) ↔
      ¬0 < p.value ∧ r.nbOut ≠ BitVec.allOnes 64 ∧ r.lastIn = latest (receipts ps) := by
  have hrec : receipts (ps ++ [p]) = receipts ps := by simp [receipts, hr]
  have hspe : spends (ps ++ [p]) = spends ps ++ [p] := by simp [spends, hr]
  rw [← toNat_succ_iff]
  by_cases hv : 0 < p.value
  · rw [Row.add_of_pos r p.time hv]
    constructor
    · intro ht
      have hnb : r.nbOut.toNat = (spends (ps ++ [p])).length := ht.nbOut
      rw [hspe, List.length_append, List.length_singleton] at hnb
      omega
    · exact fun ht => absurd hv ht.1
  · rw [Row.add_of_not_pos r p.time hv]
    constructor
    · intro ht
      have hnb := ht.nbOut
      have hlast := ht.lastIn
      rw [hspe, List.length_append, ← hout] at hnb
      rw [hrec] at hlast
      exact ⟨hv, hnb, hlast⟩
    · intro ht
      refine ⟨?_, ?_, ?_, ?_⟩
      · rw [hrec]
        exact hin
      · rw [hspe, List.length_append, ← hout]
        exact ht.2.1
      · rw [hrec]
        exact ht.2.2
      · rw [hspe, latest_append]

theorem tells_add_iff : Tells (r.add p.time p.value) (ps ++ [p]) ↔
    (0 < p.value ↔ p.received = true) ∧
      if p.received = true then r.nbIn ≠ BitVec.allOnes 64 ∧ r.lastOut = latest (spends ps)
      else r.nbOut ≠ BitVec.allOnes 64 ∧ r.lastIn = latest (receipts ps) := by
  cases hr : p.received with
  | true => simp [tells_received_iff hin hout hr]
  | false => simp [tells_spent_iff hin hout hr]

end

theorem Books.apply_self (detailed : Bool) (b : Books) (m : Move) :
    (b.apply detailed m).rows m.hash =
      if detailed = false ∧ ((b.row m.hash).add m.time m.value).sum = 0 then none
      else some ((b.row m.hash).add m.time m.value) := by
  unfold Books.apply
  dsimp only
  split <;> exact Function.update_self ..

theorem stays_iff (hs : Rep s b) : Stays cfg s p ↔
    ¬(cfg.detailed = false ∧ ((b.row p.hash).add p.time p.value).sum = 0) := by
  have hsum : (b.row p.hash).sum = ((s.record p.hash).map Addr.sum).getD 0 := by
    rw [Books.row_sum, Books.sum, ← hs.rows, Option.map_map]
    rfl
  rw [Stays, Row.add_sum, hsum]
  cases cfg.detailed <;> simp

/-- The row of `p.hash` tells its own history after a posting that is clean. -/
theorem tells_iff_clean (hs : Rep s b) (ht : ∀ r ∈ b.rows p.hash, Tells r ps)
    (hnew : s.record p.hash = none → ps = []) :
    Tells ((b.row p.hash).add p.time p.value) (ps ++ [p]) ↔ Clean s p := by
  have hrows := hs.rows p.hash
  unfold Clean
  cases hrec : s.record p.hash with
  | some a =>
    rw [hrec, Option.map_some] at hrows
    have htells : Tells (rowOf a) ps := ht _ hrows.symm
    have hrow : b.row p.hash = rowOf a := by
      rw [Books.row, ← hrows]
      rfl
    rw [hrow, tells_add_iff htells.nbIn htells.nbOut]
    simp only [htells.lastIn, htells.lastOut, and_true]
    rfl
  | none =>
    rw [hrec, Option.map_none] at hrows
    have hrow : b.row p.hash = ⟨0, 0, 0, (s.pool.cells s.pool.alloc.1).lastIn,
        (s.pool.cells s.pool.alloc.1).lastOut⟩ := by
      rw [Books.row, ← hrows, ← hs.alloc_times]
      rfl
    rw [hnew hrec, hrow, tells_add_iff rfl rfl]
    have hones : (0 : BitVec 64) ≠ BitVec.allOnes 64 := by decide
    simp only [hones, ne_eq, not_false_eq_true, true_and]
    rfl

/-- The records of a journal by their hashes. -/
theorem Kept.tells_iff (hj : Kept cfg j ps) :
    (∀ k addr, j.state.addrMap k = some addr →
      Tells (rowOf (j.state.pool.cells addr)) (j.countedIn addr)) ↔
    ∀ h, ∀ r ∈ (Books.run cfg.detailed (ps.map Posting.toMove)).rows h, Tells r (j.history h) := by
  constructor
  · intro ht h r hr
    rw [← hj.rep.rows h] at hr
    obtain ⟨a, ha, rfl⟩ := Option.map_eq_some_iff.mp hr
    obtain ⟨addr, hk, rfl⟩ := record_eq_some.mp ha
    rw [history_of_some hk]
    exact ht _ addr hk
  · intro ht k addr hk
    have hkey := hk
    rw [hj.rep.toOwned.key_eq hk] at hkey
    rw [← history_of_some hkey]
    apply ht k.1
    rw [← hj.rep.rows k.1, record_eq_some.mpr ⟨addr, hkey, rfl⟩]
    rfl

/-- A call keeps the histories apart exactly when it is clean. -/
theorem Kept.tells_step (hj : Kept cfg j ps)
    (ht : ∀ h, ∀ r ∈ (Books.run cfg.detailed (ps.map Posting.toMove)).rows h,
      Tells r (j.history h)) (c : Call) :
    (∀ h, ∀ r ∈ (Books.run cfg.detailed ((ps ++
        (postingOf cfg j.state.blockTime c).toList).map Posting.toMove)).rows h,
      Tells r ((j.step cfg c).history h)) ↔ CleanStep cfg j.state c := by
  have hj' := hj.step c
  unfold CleanStep
  cases hp : postingOf cfg j.state.blockTime c with
  | none =>
    rw [Option.toList_none, List.append_nil]
    constructor
    · intro _ p hp'
      cases hp'
    · intro _ h r hr
      rw [idle_history hp]
      exact ht h r hr
  | some p =>
    rw [hp, Option.toList_some] at hj'
    have hrec : ∀ h, (j.step cfg c).state.record h = none ↔
        (Books.run cfg.detailed ((ps ++ [p]).map Posting.toMove)).rows h = none := by
      intro h
      rw [← hj'.rep.rows h, Option.map_eq_none_iff]
    have hnew : j.state.record p.hash = none → j.history p.hash = [] := by
      intro hn
      exact history_of_none (record_eq_none.mp hn)
    have hclean := tells_iff_clean hj.rep (ht p.hash) hnew
    have hself := Books.apply_self cfg.detailed
      (Books.run cfg.detailed (ps.map Posting.toMove)) p.toMove
    rw [Option.toList_some]
    simp only [hj.post_history hp, hrec]
    rw [List.map_append, List.map_singleton, Books.run_append]
    simp only [Option.mem_some_iff, forall_eq']
    rw [← hclean, stays_iff hj.rep]
    constructor
    · intro ht' hstays
      have hrow := hself.trans (if_neg hstays)
      have hone := ht' p.hash _ hrow
      rw [if_pos rfl, if_neg (by rw [hrow]; simp)] at hone
      exact hone
    · intro hone h r hr
      by_cases hh : h = p.hash
      · subst hh
        rw [if_pos rfl, if_neg (by rw [hr]; simp)]
        rw [hself] at hr
        split at hr
        · cases hr
        · next hstays =>
          cases hr
          exact hone hstays
      · rw [if_neg hh]
        rw [Books.apply_of_ne _ _ (Ne.symm hh)] at hr
        exact ht h r hr

/-- Every record tells its own history all along a run exactly when every call is clean. -/
theorem ownHistories_iff (cfg : Config) (calls : List Call) : OwnHistories cfg calls ↔
    Steps (fun pre c => CleanStep cfg (pre.foldl (onCall cfg) AllBalances.start) c) calls := by
  apply always_iff_steps
  · intro k addr hk
    cases hk
  · intro calls c ht
    have hj := journal_kept cfg calls
    rw [hj.tells_iff] at ht
    have hj' := hj.step c
    rw [journal_append, hj'.tells_iff, hj.tells_step ht, journal_state]

def recycledConfig : Config := { typedConfig with blockTime := fun _ => 9 }

def otherScript : List UInt8 := [0x76, 0xA9, 20] ++ List.replicate 20 8 ++ [0x88, 0xAC]

def otherPayee : Hash160 := ⟨List.replicate 20 8, List.length_replicate⟩

/-- An output that is spent, and an output to another address. -/
def recycled : List Call :=
  [.startBlock 0, .endOutput 0 5 noHash 0 payScript 25, .edge 5 noHash 0 payScript 25 noHash 0 [] 0,
    .endOutput 0 3 noHash 1 otherScript 25]

/-- The record of the second address is in the cell of the first: it has the time of a spend,
and none of its outputs was spent. -/
theorem not_ownHistories_recycled : ¬OwnHistories recycledConfig recycled := by
  intro h
  have htells := h.last (otherPayee, 0) 0 (by decide +kernel)
  have hlast := htells.lastOut
  revert hlast
  decide +kernel

end Blockparser.Records
