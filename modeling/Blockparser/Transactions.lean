import Blockparser.Balances
import Mathlib.Data.BitVec

/-! The transactions command: one sum over all the addresses asked for, beside what
allBalances holds for each of them. -/
namespace Blockparser.Transactions
open Script Balances
open MemoryManager (Hash160)
open Blockparser.Parser (Call HashArg BlockRef)
open AllBalances (noHash toInt64)

/-- `rootHashes` is never empty: init puts an address of its own there when none is given.
`addrMap` is read as the map of its hashes; TransactionTables has the table. -/
structure Config where
  rootHashes : List Hash160
  blockTime : BlockRef → BitVec 32
  solveOutputScript : List UInt8 → Solved

/-- A printed line. -/
structure Line where
  bTime : BitVec 64
  pubKeyHash : Hash160
  txHash : HashArg
  oldSum : BitVec 64
  add : Bool
  value : BitVec 64
  newSum : BitVec 64

structure State where
  sum : BitVec 64
  adds : BitVec 64
  subs : BitVec 64
  nbTX : BitVec 64
  bTime : BitVec 64
  lines : List Line

def init : State := ⟨0, 0, 0, 0, 0, []⟩

/-- What is done for an address that matches. -/
def State.matched (s : State) (pubKeyHash : Hash160) (txHash : HashArg) (value : BitVec 64)
    (add : Bool) (downTXHash : HashArg) : State :=
  let newSum := s.sum + value * (if add then 1 else -1)
  let shown := if downTXHash = noHash then txHash else downTXHash
  let line : Line := ⟨s.bTime, pubKeyHash, shown, s.sum, add, value, newSum⟩
  { s with
    lines := s.lines ++ [line]
    adds := if add then s.adds + value else s.adds
    subs := if add then s.subs else s.subs + value
    sum := newSum, nbTX := s.nbTX + 1 }

variable (cfg : Config)

def move (s : State) (script : List UInt8) (txHash : HashArg) (value : BitVec 64) (add : Bool)
    (downTXHash : HashArg) : State :=
  let r := cfg.solveOutputScript script
  if r.scriptType < 0 then s
  else if r.pubKeyHash ∉ cfg.rootHashes then s
  else s.matched r.pubKeyHash txHash value add downTXHash

def onCall (s : State) : Call → State
  | .startBlock b => { s with bTime := (cfg.blockTime b).setWidth 64 }
  | .endOutput _ value txHash _ outputScript _ =>
    move cfg s outputScript txHash (BitVec.ofNat 64 value) true noHash
  | .edge value upTXHash _ outputScript _ downTXHash _ _ _ =>
    move cfg s outputScript upTXHash (BitVec.ofNat 64 value) false downTXHash
  | _ => s

/-- The allBalances command restricted to the same addresses. -/
def Config.restricted (detailed : Bool) : AllBalances.Config :=
  ⟨detailed, cfg.rootHashes, cfg.blockTime, cfg.solveOutputScript⟩

variable {cfg} {s : State} {detailed : Bool} {script : List UInt8} {time : BitVec 32} {m : Move}

theorem move_sum (s : State) (script : List UInt8) (up down : HashArg) (value : BitVec 64)
    (add : Bool) (hs : s.sum = s.adds - s.subs) :
    (move cfg s script up value add down).sum =
      (move cfg s script up value add down).adds - (move cfg s script up value add down).subs := by
  unfold move State.matched
  dsimp only
  split
  · exact hs
  · split
    · exact hs
    · cases add with
      | true =>
        simp only [if_true, hs]
        ring
      | false =>
        simp only [Bool.false_eq_true, if_false, hs]
        ring

theorem onCall_sum (c : Call) (hs : s.sum = s.adds - s.subs) :
    (onCall cfg s c).sum = (onCall cfg s c).adds - (onCall cfg s c).subs := by
  cases c with
  | endOutput p value txHash => exact move_sum s _ txHash noHash _ true hs
  | edge value upTXHash outputIndex outputScript size downTXHash =>
    exact move_sum s _ upTXHash downTXHash _ false hs
  | _ => exact hs

theorem run_adds_subs (calls : List Call) (hs : s.sum = s.adds - s.subs) :
    (calls.foldl (onCall cfg) s).sum =
      (calls.foldl (onCall cfg) s).adds - (calls.foldl (onCall cfg) s).subs := by
  refine List.foldlRecOn (motive := fun s : State => s.sum = s.adds - s.subs) calls (onCall cfg) hs ?_
  intro s hs c _
  exact onCall_sum c hs

/-- What the moves add up to, of whichever address. -/
def sumAll (ms : List Move) : Int := (ms.map Move.value).sum

theorem sumAll_append (ms ms' : List Move) : sumAll (ms ++ ms') = sumAll ms + sumAll ms' := by
  simp [sumAll]

/-- With addresses to restrict to, the sum moves with the books of allBalances. -/
theorem move_paid (hR : cfg.rootHashes ≠ []) (s : State) (up down : HashArg) (value : Nat)
    (add : Bool) :
    (move cfg s script up (BitVec.ofNat 64 value) add down).sum = s.sum + BitVec.ofInt 64
      (sumAll (paid (cfg.restricted detailed) time script
        (if add then toInt64 value else -toInt64 value)).toList) := by
  rw [paid_eq]
  unfold move State.matched Config.restricted
  dsimp only
  by_cases hneg : (cfg.solveOutputScript script).scriptType < 0
  · simp [hneg, sumAll]
  · by_cases hm : (cfg.solveOutputScript script).pubKeyHash ∈ cfg.rootHashes
    · have hval : BitVec.ofInt 64 (toInt64 value) = BitVec.ofNat 64 value := by
        rw [toInt64, BitVec.ofInt_toInt]
      cases add with
      | true => simp [hneg, hm, sumAll, hval]
      | false =>
        have hneg1 : BitVec.ofNat 64 value * -1 = -BitVec.ofNat 64 value := by ring
        simp only [hneg, hm, sumAll, hval, BitVec.ofInt_neg, not_true_eq_false, if_false,
          Bool.false_eq_true, Option.toList_some, List.map_cons, List.map_nil, List.sum_cons,
          List.sum_nil, add_zero, and_false, hneg1]
    · simp [hneg, hm, hR, sumAll]

theorem onCall_moveOf (hR : cfg.rootHashes ≠ []) (s : State) (c : Call) :
    (onCall cfg s c).sum = s.sum + BitVec.ofInt 64
      (sumAll (moveOf (cfg.restricted detailed) time c).toList) := by
  cases c with
  | endOutput p value txHash => exact move_paid hR s txHash noHash _ true
  | edge value upTXHash outputIndex outputScript size downTXHash =>
    exact move_paid hR s upTXHash downTXHash _ false
  | _ => exact (BitVec.add_zero _).symm

theorem run_movesOf (hR : cfg.rootHashes ≠ []) (calls : List Call) :
    (calls.foldl (onCall cfg) s).sum = s.sum + BitVec.ofInt 64
      (sumAll (movesOf (cfg.restricted detailed) time calls)) := by
  induction calls generalizing s time with
  | nil => exact (BitVec.add_zero _).symm
  | cons c calls ih =>
    have hc := @onCall_moveOf cfg detailed time hR s c
    have hrest := @ih (onCall cfg s c) (timeAfter (cfg.restricted detailed) time c)
    rw [List.foldl_cons, hrest, hc, movesOf, sumAll_append, BitVec.ofInt_add, BitVec.add_assoc]

/-- Moves of addresses of `R` add up address by address. -/
theorem sum_sumOf {R : List Hash160} {ms : List Move} (hms : ∀ m ∈ ms, m.hash ∈ R) :
    ∑ h ∈ R.toFinset, BitVec.ofInt 64 (sumOf h ms) = BitVec.ofInt 64 (sumAll ms) := by
  induction ms with
  | nil => exact Finset.sum_const_zero
  | cons m ms ih =>
    have hm : m.hash ∈ R.toFinset := List.mem_toFinset.mpr (hms m (List.mem_cons_self ..))
    have hone : ∀ h, BitVec.ofInt 64 (sumOf h (m :: ms)) =
        (if m.hash = h then BitVec.ofInt 64 m.value else 0) + BitVec.ofInt 64 (sumOf h ms) := by
      intro h
      rw [← List.singleton_append, sumOf_append, BitVec.ofInt_add]
      by_cases hh : m.hash = h
      · subst hh
        simp
      · simp [hh, sumOf_of_ne hh]
    simp only [hone, Finset.sum_add_distrib, Finset.sum_ite_eq, hm, if_true]
    rw [ih fun m' hm' => hms m' (List.mem_cons_of_mem m hm'), ← BitVec.ofInt_add]
    rfl

/-- The sum of the transactions command is that of the records allBalances holds for the
same addresses, each counted once, and what was added less what was subtracted. -/
theorem sum_eq_allBalances (cfg : Config) (hR : cfg.rootHashes ≠ []) (detailed : Bool)
    (calls : List Call) :
    let t := calls.foldl (onCall cfg) init
    let a := calls.foldl (AllBalances.onCall (cfg.restricted detailed)) AllBalances.start
    t.sum = ∑ h ∈ cfg.rootHashes.toFinset, ((a.record h).map AllBalances.Addr.sum).getD 0 ∧
      t.sum = t.adds - t.subs := by
  intro t a
  refine ⟨?_, run_adds_subs calls rfl⟩
  have hsum : ∀ h, ((a.record h).map AllBalances.Addr.sum).getD 0 =
      BitVec.ofInt 64 (sumOf h (movesOf (cfg.restricted detailed) 0 calls)) := by
    intro h
    have hrows := run_rows (cfg.restricted detailed) calls h
    rw [← Books.run_sum detailed, Books.sum]
    change _ = (((Books.run (cfg.restricted detailed).detailed _).rows h).map Row.sum).getD 0
    rw [← hrows, Option.map_map]
    rfl
  have hin : ∀ m ∈ movesOf (cfg.restricted detailed) 0 calls, m.hash ∈ cfg.rootHashes := by
    intro m hm
    cases movesOf_allowed hm with
    | inl h0 => exact absurd h0 hR
    | inr hm => exact hm
  calc
    t.sum = 0 + BitVec.ofInt 64 (sumAll (movesOf (cfg.restricted detailed) 0 calls)) :=
      run_movesOf hR calls
    _ = ∑ h ∈ cfg.rootHashes.toFinset,
        BitVec.ofInt 64 (sumOf h (movesOf (cfg.restricted detailed) 0 calls)) := by
      rw [zero_add, sum_sumOf hin]
    _ = ∑ h ∈ cfg.rootHashes.toFinset, ((a.record h).map AllBalances.Addr.sum).getD 0 := by
      simp only [hsum]

end Blockparser.Transactions
