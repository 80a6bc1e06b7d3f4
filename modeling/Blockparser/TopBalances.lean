import Blockparser.Lib.Top
import Blockparser.Address
import Blockparser.Balances
import Blockparser.Transaction

/-! The rows allBalances prints at the end: sorted unless they are for --csv, and no more
than --limit says. -/
namespace Blockparser.TopBalances
open Bytes Script AllBalances Top
open MemoryManager (Hash160)
open Blockparser.Parser (Env Call)

/-- `csv`, `limit` and `showAddr` are those of the command line. -/
structure Options where
  csv : Bool
  limit : Int
  showAddr : Int

/-- A row, with the address or the X's in its place, and the outputs of `--detailed`. -/
inductive Row
  | csv (sum : BitVec 64) (hash : Hash160) (nbIn : BitVec 64) (lastIn : BitVec 32)
      (nbOut : BitVec 64) (lastOut : BitVec 32)
  | columns (sum : BitVec 64) (hash : Hash160) (address : List UInt8) (nbIn : BitVec 64)
      (lastIn : BitVec 32) (nbOut : BitVec 64) (lastOut : BitVec 32) (outputs : Option (List Output))

/-- The rows, each with its record, and the counters `i` and `nonZeroCnt`. -/
structure Report where
  i : Int
  nonZeroCnt : Int
  rows : List (Addr × Row)

/-- What addrMap has at the end, in the order in which it is gone through. -/
structure Content where
  records : List Addr
  nodup : (records.map Addr.hash).Nodup

/-- The order of std::sort. -/
def compareAddr (a b : Addr) : Bool := b.sum < a.sum

/-- What std::sort can leave in the vector; nothing is said about records of equal sums. -/
structure SortedAs (l l' : List Addr) : Prop where
  perm : l'.Perm l
  sorted : l'.Pairwise fun a b => compareAddr b a = false

/-- One of these orders. -/
def sortAddrs (l : List Addr) : List Addr := l.mergeSort fun a b => !compareAddr b a

/-- An order in which addrMap is gone through. -/
structure Iteration (s : AllBalances.State) where
  keys : List TypedHash160
  nodup : keys.Nodup
  mem : ∀ k, k ∈ keys ↔ (s.addrMap k).isSome = true

def Iteration.records {s : AllBalances.State} (it : Iteration s) : List Addr :=
  (it.keys.filterMap s.addrMap).map s.pool.cells

variable (env : Env) (buf : Memory) (cfg : Config) (opt : Options)

/-- The vector the loop goes over. -/
def Order (l l' : List Addr) : Prop := if opt.csv then l' = l else SortedAs l l'

def addressOf (i : Int) (addr : Addr) : List UInt8 :=
  if i < opt.showAddr ∨ cfg.restricts ≠ [] then
    Address.hash160ToAddr env.sha256 env.coin buf addr.hash.1 true addr.type
  else List.replicate 34 0x58

def rowOf (i : Int) (addr : Addr) : Row :=
  if opt.csv then .csv addr.sum addr.hash.1 addr.nbIn addr.lastIn addr.nbOut addr.lastOut
  else .columns addr.sum addr.hash.1 (addressOf env buf cfg opt i addr) addr.nbIn addr.lastIn
    addr.nbOut addr.lastOut (if cfg.detailed then addr.outputVec else none)

def Report.print (r : Report) (addr : Addr) : Report where
  i := r.i + 1
  nonZeroCnt := if 0 < addr.sum then r.nonZeroCnt + 1 else r.nonZeroCnt
  rows := r.rows ++ [(addr, rowOf env buf cfg opt r.i addr)]

/-- The loop; a record that is not asked for does not count. -/
def loop : Report → List Addr → Report
  | r, [] => r
  | r, addr :: rest =>
    if 0 ≤ opt.limit ∧ opt.limit ≤ r.i then r
    else if cfg.restricts ≠ [] ∧ addr.hash.1 ∉ cfg.restricts then loop r rest
    else loop (r.print env buf cfg opt addr) rest

/-- `allAddrs` is the vector after the sort. -/
def wrapup (allAddrs : List Addr) : Report := loop env buf cfg opt ⟨0, 0, []⟩ allAddrs

/-- The records that are asked for. -/
def eligible (l : List Addr) : List Addr :=
  l.filter fun a => cfg.restricts = [] ∨ a.hash.1 ∈ cfg.restricts

variable {env buf cfg opt} {l l' : List Addr} {r : Report} {content : Content}

theorem compareAddr_false {a b : Addr} : compareAddr b a = false ↔ b.sum ≤ a.sum := by
  rw [compareAddr, decide_eq_false_iff_not, BitVec.not_lt]

theorem sortAddrs_sortedAs (l : List Addr) : SortedAs l (sortAddrs l) where
  perm := List.mergeSort_perm l _
  sorted := by
    have htrans : ∀ a b c : Addr, (!compareAddr b a) = true → (!compareAddr c b) = true →
        (!compareAddr c a) = true := by
      simp only [Bool.not_eq_true', compareAddr_false]
      intro a b c hab hbc
      exact BitVec.le_trans hbc hab
    have htotal : ∀ a b : Addr, (!compareAddr b a || !compareAddr a b) = true := by
      simp only [Bool.or_eq_true, Bool.not_eq_true', compareAddr_false]
      intro a b
      exact BitVec.le_total b.sum a.sum
    have hsorted := List.pairwise_mergeSort htrans htotal l
    simpa only [sortAddrs, Bool.not_eq_true'] using hsorted

theorem loop_rows (hlimit : 0 ≤ opt.limit) (hi : r.i ≤ opt.limit) :
    (loop env buf cfg opt r l).rows.map Prod.fst =
      r.rows.map Prod.fst ++ (eligible cfg l).take (opt.limit - r.i).toNat := by
  induction l generalizing r with
  | nil => simp [loop, eligible]
  | cons addr rest ih =>
    rw [loop]
    by_cases hend : opt.limit ≤ r.i
    · have hnone : (opt.limit - r.i).toNat = 0 := by omega
      rw [if_pos ⟨hlimit, hend⟩, hnone, List.take_zero, List.append_nil]
    · rw [if_neg fun h => hend h.2]
      by_cases hout : cfg.restricts ≠ [] ∧ addr.hash.1 ∉ cfg.restricts
      · have hskip : eligible cfg (addr :: rest) = eligible cfg rest := by
          apply List.filter_cons_of_neg
          simpa using hout
        rw [if_pos hout, ih hi, hskip]
      · have hkeep : eligible cfg (addr :: rest) = addr :: eligible cfg rest := by
          apply List.filter_cons_of_pos
          simp only [decide_eq_true_eq]
          tauto
        have hmore : (opt.limit - r.i).toNat = (opt.limit - (r.i + 1)).toNat + 1 := by omega
        rw [if_neg hout, ih (show r.i + 1 ≤ opt.limit by omega), hkeep, hmore, List.take_succ_cons]
        simp [Report.print]

theorem wrapup_rows (hlimit : 0 ≤ opt.limit) (l : List Addr) :
    (wrapup env buf cfg opt l).rows.map Prod.fst = (eligible cfg l).take opt.limit.toNat := by
  have hloop := @loop_rows env buf cfg opt l ⟨0, 0, []⟩ hlimit hlimit
  simpa [wrapup] using hloop

theorem Content.records_nodup (content : Content) : content.records.Nodup :=
  List.Nodup.of_map _ content.nodup

theorem SortedAs.eligible (h : SortedAs l l') (cfg : Config) :
    (TopBalances.eligible cfg l').Pairwise fun a b => b.sum ≤ a.sum := by
  refine (h.sorted.filter _).imp ?_
  intro a b hab
  exact compareAddr_false.mp hab

theorem Iteration.hashes {s : AllBalances.State} (it : Iteration s) (ho : Owned s) :
    it.records.map Addr.hash = it.keys := by
  have hfound : ∀ k ∈ it.keys, (s.addrMap k).isSome = true := fun k => (it.mem k).mp
  unfold Iteration.records
  generalize it.keys = keys at hfound ⊢
  induction keys with
  | nil => rfl
  | cons k keys ih =>
    obtain ⟨r, hr⟩ := Option.isSome_iff_exists.mp (hfound k List.mem_cons_self)
    rw [List.filterMap_cons_some hr, List.map_cons, List.map_cons, ho.hash k r hr,
      ih fun k' hk' => hfound k' (List.mem_cons_of_mem k hk')]

/-- After any run, and in whatever order addrMap is gone through: the records are those of
the table, and no two have the same hash. -/
theorem run_content (cfg : Config) (calls : List Call)
    (it : Iteration (calls.foldl (onCall cfg) AllBalances.start)) : ∃ content : Content,
    content.records = it.records ∧ ∀ h a,
      (calls.foldl (onCall cfg) AllBalances.start).record h = some a → a ∈ content.records := by
  have ho : Owned (calls.foldl (onCall cfg) AllBalances.start) :=
    (Balances.start_rep.calls calls).toOwned
  refine ⟨⟨it.records, (it.hashes ho).symm ▸ it.nodup⟩, rfl, ?_⟩
  intro h a ha
  obtain ⟨r, hr, rfl⟩ := Option.map_eq_some_iff.mp ha
  have hkey : (h, 0) ∈ it.keys := (it.mem _).mpr (by rw [hr]; rfl)
  exact List.mem_map_of_mem (List.mem_filterMap.mpr ⟨_, hkey, hr⟩)

/-- Whatever addrMap holds and whatever the options are: the rows are those of the `--limit`
largest of the records asked for if and only if they are sorted, or the largest ones come
first in the table. -/
theorem rows_top_iff (env : Env) (buf : Memory) (cfg : Config) (opt : Options)
    (hlimit : 0 ≤ opt.limit) (content : Content) (allAddrs : List Addr)
    (horder : Order opt content.records allAddrs) :
    IsTopN Addr.sum (eligible cfg content.records)
        ((wrapup env buf cfg opt allAddrs).rows.map Prod.fst) opt.limit.toNat ↔
      opt.csv = false ∨ FirstLargest Addr.sum (eligible cfg content.records) opt.limit.toNat := by
  have hnodup : (eligible cfg content.records).Nodup := content.records_nodup.filter _
  rw [wrapup_rows hlimit]
  unfold Order at horder
  cases hcsv : opt.csv with
  | true =>
    rw [hcsv, if_pos rfl] at horder
    rw [horder, isTopN_take_iff hnodup]
    simp
  | false =>
    rw [hcsv, if_neg Bool.false_ne_true] at horder
    have hperm : (eligible cfg allAddrs).Perm (eligible cfg content.records) := horder.perm.filter _
    rw [← isTopN_perm hperm, isTopN_take_iff (hperm.nodup_iff.mpr hnodup)]
    exact iff_of_true (firstLargest_of_sorted (horder.eligible cfg) _) (Or.inl rfl)

def plainConfig : Config := ⟨false, [], fun _ => 0, fun _ => ⟨-1, hashZero, 0⟩⟩

def hashOne : Hash160 := ⟨1 :: List.replicate 19 0, rfl⟩

def poor : Addr := { Addr.zero with sum := 1 }

def rich : Addr := { Addr.zero with hash := (hashOne, 0), sum := 2 }

/-- The larger sum comes second. -/
def poorFirst : Content where
  records := [poor, rich]
  nodup := by decide

theorem rows_top_iff_poorFirst : IsTopN Addr.sum (eligible plainConfig poorFirst.records)
    ((wrapup Transaction.bitcoinEnv (fun _ => 0) plainConfig ⟨false, 1, 500⟩
      (sortAddrs poorFirst.records)).rows.map Prod.fst) 1 :=
  (rows_top_iff Transaction.bitcoinEnv (fun _ => 0) plainConfig ⟨false, 1, 500⟩ (by decide) poorFirst
    (sortAddrs poorFirst.records) (sortAddrs_sortedAs poorFirst.records)).mpr (Or.inl rfl)

/-- With `--csv --limit 1` the one row is that of the smaller sum. -/
theorem rows_csv_poorFirst :
    Order ⟨true, 1, 500⟩ poorFirst.records poorFirst.records ∧
      (wrapup Transaction.bitcoinEnv (fun _ => 0) plainConfig ⟨true, 1, 500⟩
        poorFirst.records).rows.map Prod.fst = [poor] ∧
      ¬IsTopN Addr.sum (eligible plainConfig poorFirst.records)
        ((wrapup Transaction.bitcoinEnv (fun _ => 0) plainConfig ⟨true, 1, 500⟩
          poorFirst.records).rows.map Prod.fst) 1 := by
  have hrows : (wrapup Transaction.bitcoinEnv (fun _ => 0) plainConfig ⟨true, 1, 500⟩
      poorFirst.records).rows.map Prod.fst = [poor] := rfl
  refine ⟨rfl, hrows, fun htop => ?_⟩
  rw [hrows] at htop
  have hrich : rich ∉ [poor] := by
    intro hmem
    have hsum := congrArg Addr.sum (List.mem_singleton.mp hmem)
    exact absurd hsum (by decide)
  have hle := htop.largest poor List.mem_cons_self rich
    (List.mem_cons_of_mem _ List.mem_cons_self) hrich
  exact absurd hle (by decide)

end Blockparser.TopBalances
