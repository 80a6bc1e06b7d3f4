import Blockparser.AllBalances

/-! The allBalances command as books: what each address was paid and what was spent from
it, move by move, and the rows that are kept of it. -/
namespace Blockparser.Balances
open Script AllBalances
open MemoryManager (Hash160)
open Blockparser.Parser (Call HashArg)

/-- A credit or a debit of an address, in a block of this time. -/
structure Move where
  hash : Hash160
  value : Int
  time : BitVec 32
deriving DecidableEq

/-- What wrapup prints of a record. -/
@[ext]
structure Row where
  sum : BitVec 64
  nbIn : BitVec 64
  nbOut : BitVec 64
  lastIn : BitVec 32
  lastOut : BitVec 32
deriving DecidableEq

def rowOf (a : Addr) : Row := ⟨a.sum, a.nbIn, a.nbOut, a.lastIn, a.lastOut⟩

def Row.add (r : Row) (time : BitVec 32) (value : Int) : Row :=
  let r := if 0 < value then { r with lastIn := time, nbIn := r.nbIn + 1 }
    else { r with lastOut := time, nbOut := r.nbOut + 1 }
  { r with sum := r.sum + BitVec.ofInt 64 value }

/-- The rows, and the times left in the rows that were given back. -/
structure Books where
  rows : Hash160 → Option Row
  spare : List (BitVec 32 × BitVec 32)

def Books.start : Books := ⟨fun _ => none, []⟩

/-- The row of `h`, an empty one with the times of a spare row when there is none. -/
def Books.row (b : Books) (h : Hash160) : Row :=
  (b.rows h).getD ⟨0, 0, 0, (b.spare.headD (0, 0)).1, (b.spare.headD (0, 0)).2⟩

def Books.left (b : Books) (h : Hash160) : List (BitVec 32 × BitVec 32) :=
  if b.rows h = none then b.spare.tail else b.spare

/-- The plain mode gives a row back when its sum is 0. -/
def Books.apply (detailed : Bool) (b : Books) (m : Move) : Books :=
  let r := (b.row m.hash).add m.time m.value
  if detailed = false ∧ r.sum = 0 then
    ⟨Function.update b.rows m.hash none, (r.lastIn, r.lastOut) :: b.left m.hash⟩
  else ⟨Function.update b.rows m.hash (some r), b.left m.hash⟩

def Books.run (detailed : Bool) (ms : List Move) : Books := ms.foldl (Books.apply detailed) .start

instance (cfg : Config) (h : Hash160) : Decidable (cfg.Allows h) :=
  inferInstanceAs (Decidable (_ ∨ _))

/-- The move a script makes: of the address it pays to, if that is asked for. -/
def paid (cfg : Config) (time : BitVec 32) (script : List UInt8) (value : Int) : Option Move :=
  (cfg.account script).bind fun h => if cfg.Allows h then some ⟨h, value, time⟩ else none

def moveOf (cfg : Config) (time : BitVec 32) : Call → Option Move
  | .endOutput _ value _ _ outputScript _ => paid cfg time outputScript (toInt64 value)
  | .edge value _ _ outputScript _ _ _ _ _ => paid cfg time outputScript (-toInt64 value)
  | _ => none

/-- The time after a call. -/
def timeAfter (cfg : Config) (time : BitVec 32) : Call → BitVec 32
  | .startBlock b => cfg.blockTime b
  | _ => time

def movesOf (cfg : Config) : BitVec 32 → List Call → List Move
  | _, [] => []
  | time, c :: calls => (moveOf cfg time c).toList ++ movesOf cfg (timeAfter cfg time c) calls

variable {cfg : Config} {s : State} {b : Books} {h : Hash160} {m : Move} {ms : List Move}

/-- The records of the command are the rows of the books. -/
structure Rep (s : State) (b : Books) : Prop extends Owned s where
  fresh : ∀ r, s.pool.issued ≤ r → s.pool.cells r = .zero
  rows : ∀ h, (s.record h).map rowOf = b.rows h
  spare : s.spare.map (fun a => (a.lastIn, a.lastOut)) = b.spare

theorem start_rep : Rep start .start where
  toOwned := start_owned
  fresh _ _ := rfl
  rows _ := rfl
  spare := rfl

theorem rowOf_add (a : Addr) (time : BitVec 32) (v : Int) :
    rowOf (a.add time v) = (rowOf a).add time v := by
  unfold Addr.add Row.add
  split <;> rfl

@[simp] theorem rowOf_pushOutput (a : Addr) (o : Output) : rowOf (a.pushOutput o) = rowOf a := rfl

theorem Row.add_sum (r : Row) (time : BitVec 32) (v : Int) :
    (r.add time v).sum = r.sum + BitVec.ofInt 64 v := by
  unfold Row.add
  split <;> rfl

theorem live_lt (ho : Owned s) {r : AddrRef} (hr : r ∈ s.live) : r < s.pool.issued :=
  ho.owns.issued hr

/-- The cell getAddr takes has the times of the spare row on top, or none. -/
theorem Rep.alloc_times (hr : Rep s b) :
    ((s.pool.cells s.pool.alloc.1).lastIn, (s.pool.cells s.pool.alloc.1).lastOut) =
      b.spare.headD (0, 0) := by
  rw [← hr.spare]
  unfold State.spare Pool.alloc
  cases hg : s.pool.garbageCollection with
  | nil =>
    simp [hr.fresh s.pool.issued (Nat.le_refl _), Addr.zero]
  | cons r rest => simp

theorem Rep.getAddr (hr : Rep s b) (addrType : UInt8) :
    Rep (getAddr cfg s h addrType).2 ⟨Function.update b.rows h (some (b.row h)), b.left h⟩ ∧
      (getAddr cfg s h addrType).2.addrMap (h, 0) = some (getAddr cfg s h addrType).1 ∧
      (getAddr cfg s h addrType).2.blockTime = s.blockTime := by
  have hrec := hr.rows h
  unfold AllBalances.getAddr
  cases hf : s.addrMap (h, 0) with
  | some addr =>
    have hrow : b.rows h = some (rowOf (s.pool.cells addr)) := by
      rw [← hrec, State.record, hf]
      rfl
    refine ⟨⟨hr.toOwned, hr.fresh, ?_, ?_⟩, hf, rfl⟩
    · intro h'
      rw [hr.rows h', Books.row, hrow]
      by_cases hh : h' = h
      · subst hh
        simp [hrow]
      · simp [hh]
    · rw [hr.spare, Books.left, hrow]
      simp
  | none =>
    have hrow : b.rows h = none := by
      rw [← hrec, State.record, hf]
      rfl
    have htail : (s.pool.alloc.2.cells s.pool.alloc.1).hash.2 = 0 := by
      rw [Pool.alloc_cells]
      exact hr.tail _
    have hlt : s.pool.alloc.1 < s.pool.alloc.2.issued ∧ s.pool.issued ≤ s.pool.alloc.2.issued := by
      have hfree := hr.owns.free_issued ()
      unfold Pool.alloc
      cases hg : s.pool.garbageCollection with
      | nil => exact ⟨Nat.lt_succ_self _, Nat.le_succ _⟩
      | cons r rest =>
        refine ⟨hfree r ?_, Nat.le_refl _⟩
        rw [show s.pool.abs.free () = r :: rest from hg]
        exact List.mem_cons_self ..
    dsimp only
    simp only [htail]
    refine ⟨⟨hr.toOwned.insert _ hf rfl, ?_, ?_, ?_⟩, Function.update_self .., trivial⟩
    · intro r hle
      have hne : r ≠ s.pool.alloc.1 := by
        intro he
        subst he
        exact absurd hlt.1 (Nat.not_lt.mpr hle)
      simp only [Pool.write, Function.update_of_ne hne, Pool.alloc_cells]
      exact hr.fresh r (hlt.2.trans hle)
    · intro h'
      refine (congrArg (Option.map rowOf) (congrFun (hr.toOwned.record_insert _) h')).trans ?_
      dsimp only
      by_cases hh : h' = h
      · subst hh
        rw [Function.update_self, Function.update_self, Books.row, hrow, Option.getD_none,
          ← hr.alloc_times, Pool.alloc_cells]
        rfl
      · rw [Function.update_of_ne hh, Function.update_of_ne hh]
        exact hr.rows h'
    · refine (congrArg (List.map _) (hr.toOwned.spare_insert _)).trans ?_
      rw [Books.left, if_pos hrow, ← hr.spare, List.map_tail]

theorem Rep.write (hr : Rep s b) {addr : AddrRef} (hk : s.addrMap (h, 0) = some addr) {a : Addr}
    (hhash : a.hash = (h, 0)) :
    Rep (s.writeRecord addr a) ⟨Function.update b.rows h (some (rowOf a)), b.spare⟩ := by
  refine ⟨hr.toOwned.write a hk hhash, ?_, ?_, ?_⟩
  · intro r hle
    have hne : r ≠ addr := by
      intro he
      subst he
      exact absurd (live_lt hr.toOwned ⟨_, hk⟩) (Nat.not_lt.mpr hle)
    simp only [State.writeRecord, Pool.write, Function.update_of_ne hne]
    exact hr.fresh r hle
  · intro h'
    rw [hr.toOwned.record_write a hk]
    dsimp only
    by_cases hh : h' = h
    · subst hh
      simp
    · rw [Function.update_of_ne hh, Function.update_of_ne hh]
      exact hr.rows h'
  · rw [hr.toOwned.spare_write a hk]
    exact hr.spare

theorem Rep.erase (hr : Rep s b) {addr : AddrRef} (hk : s.addrMap (h, 0) = some addr) :
    Rep (s.eraseRecord h addr) ⟨Function.update b.rows h none,
      ((s.pool.cells addr).lastIn, (s.pool.cells addr).lastOut) :: b.spare⟩ := by
  refine ⟨hr.toOwned.erase hk, hr.fresh, ?_, ?_⟩
  · intro h'
    rw [State.record_erase]
    dsimp only
    by_cases hh : h' = h
    · subst hh
      simp
    · rw [Function.update_of_ne hh, Function.update_of_ne hh]
      exact hr.rows h'
  · rw [← hr.spare]
    rfl

theorem paid_eq {script : List UInt8} {time : BitVec 32} {v : Int} :
    paid cfg time script v =
      (let r := cfg.solveOutputScript script
      if r.scriptType < 0 then none
      else if cfg.restricts ≠ [] ∧ r.pubKeyHash ∉ cfg.restricts then none
      else some ⟨r.pubKeyHash, v, time⟩) := by
  unfold paid Config.account Config.Allows
  dsimp only
  split
  · rfl
  · rw [Option.bind_some]
    by_cases h0 : cfg.restricts = []
    · simp [h0]
    · by_cases hm : (cfg.solveOutputScript script).pubKeyHash ∈ cfg.restricts
      · simp [hm]
      · simp [h0, hm]

/-- A move of the command is a move of the books. -/
theorem Rep.move (hr : Rep s b) (script : List UInt8) (up down : HashArg) (outputIndex : Nat)
    (v : Int) (inputIndex : BitVec 64) :
    Rep (move cfg s script up outputIndex v down inputIndex)
        ((paid cfg s.blockTime script v).toList.foldl (Books.apply cfg.detailed) b) ∧
      (move cfg s script up outputIndex v down inputIndex).blockTime = s.blockTime := by
  unfold paid
  cases hacc : cfg.account script with
  | none =>
    rw [move_of_none hacc]
    exact ⟨hr, rfl⟩
  | some h =>
    rw [Option.bind_some]
    by_cases ha : cfg.Allows h
    swap
    · rw [move_leftOut hacc ha, if_neg ha]
      exact ⟨hr, rfl⟩
    · obtain ⟨hg, hk, htime⟩ := @Rep.getAddr cfg s b h hr (cfg.solveOutputScript script).addrType
      generalize hget : AllBalances.getAddr cfg s h (cfg.solveOutputScript script).addrType = g at *
      rw [move_counted hacc ha hget, if_pos ha]
      dsimp only
      have hrow : rowOf (g.2.pool.cells g.1) = b.row h := by
        have := hg.rows h
        rw [State.record, hk] at this
        simpa using this
      have hhash : ((g.2.pool.cells g.1).add g.2.blockTime v).hash = (h, 0) := by
        rw [Addr.add_hash, hg.hash _ _ hk]
      have hadd : rowOf ((g.2.pool.cells g.1).add g.2.blockTime v) =
          (b.row h).add s.blockTime v := by
        rw [rowOf_add, hrow, htime]
      simp only [Option.toList_some, List.foldl_cons, List.foldl_nil, Books.apply]
      cases hd : cfg.detailed with
      | true =>
        have hw := hg.write (a := ((g.2.pool.cells g.1).add g.2.blockTime v).pushOutput
          ⟨g.2.blockTime, v, inputIndex, BitVec.ofNat 64 outputIndex, up, down⟩) hk hhash
        rw [rowOf_pushOutput, hadd, Function.update_idem] at hw
        exact ⟨hw, htime⟩
      | false =>
        have hw := hg.write hk hhash
        rw [hadd, Function.update_idem] at hw
        have hsum : ((g.2.pool.cells g.1).add g.2.blockTime v).sum =
            ((b.row h).add s.blockTime v).sum := congrArg Row.sum hadd
        rw [if_neg (by decide), hhash, hsum]
        by_cases h0 : ((b.row h).add s.blockTime v).sum = 0
        · rw [if_pos h0, if_pos ⟨rfl, h0⟩]
          have he := hw.erase hk
          rw [Function.update_idem] at he
          have hcell : (g.2.writeRecord g.1 ((g.2.pool.cells g.1).add g.2.blockTime v)).pool.cells g.1 =
              (g.2.pool.cells g.1).add g.2.blockTime v := Function.update_self ..
          rw [hcell] at he
          have hin := congrArg Row.lastIn hadd
          have hout := congrArg Row.lastOut hadd
          simp only [rowOf] at hin hout
          rw [hin, hout] at he
          exact ⟨he, htime⟩
        · rw [if_neg h0, if_neg fun hh => h0 hh.2]
          exact ⟨hw, htime⟩

theorem Rep.onCall (hr : Rep s b) (c : Call) :
    Rep (onCall cfg s c) ((moveOf cfg s.blockTime c).toList.foldl (Books.apply cfg.detailed) b) ∧
      (onCall cfg s c).blockTime = timeAfter cfg s.blockTime c := by
  cases c with
  | startBlock b' =>
    exact ⟨⟨⟨hr.owns, hr.tail, hr.hash⟩, hr.fresh, hr.rows, hr.spare⟩, rfl⟩
  | endOutput => exact hr.move _ _ _ _ _ _
  | edge => exact hr.move _ _ _ _ _ _
  | _ => exact ⟨hr, rfl⟩

/-- The records after a run are the rows after its moves. -/
theorem Rep.calls (calls : List Call) (hr : Rep s b) :
    Rep (calls.foldl (AllBalances.onCall cfg) s)
      ((movesOf cfg s.blockTime calls).foldl (Books.apply cfg.detailed) b) := by
  induction calls generalizing s b with
  | nil => exact hr
  | cons c calls ih =>
    obtain ⟨hc, htime⟩ := @Rep.onCall cfg s b hr c
    rw [movesOf, List.foldl_append, List.foldl_cons, ← htime]
    exact ih hc

theorem run_rows (cfg : Config) (calls : List Call) (h : Hash160) :
    ((calls.foldl (AllBalances.onCall cfg) AllBalances.start).record h).map rowOf =
      (Books.run cfg.detailed (movesOf cfg 0 calls)).rows h :=
  (start_rep.calls calls).rows h

theorem paid_allowed {script : List UInt8} {time : BitVec 32} {v : Int}
    (hm : m ∈ paid cfg time script v) : cfg.Allows m.hash := by
  obtain ⟨h', -, hif⟩ := Option.bind_eq_some_iff.mp hm
  split at hif
  · next ha =>
    cases hif
    exact ha
  · cases hif

theorem movesOf_allowed {time : BitVec 32} {calls : List Call} (hm : m ∈ movesOf cfg time calls) :
    cfg.Allows m.hash := by
  induction calls generalizing time with
  | nil => cases hm
  | cons c calls ih =>
    cases List.mem_append.mp hm with
    | inl hm =>
      cases c with
      | endOutput => exact paid_allowed (Option.mem_toList.mp hm)
      | edge => exact paid_allowed (Option.mem_toList.mp hm)
      | _ => cases hm
    | inr hm => exact ih hm

/-- The moves of an address. -/
def movesFor (h : Hash160) (ms : List Move) : List Move := ms.filter fun m => m.hash = h

def sumOf (h : Hash160) (ms : List Move) : Int := ((movesFor h ms).map Move.value).sum

@[simp] theorem movesFor_append (h : Hash160) (ms ms' : List Move) :
    movesFor h (ms ++ ms') = movesFor h ms ++ movesFor h ms' := List.filter_append ..

@[simp] theorem movesFor_self (m : Move) : movesFor m.hash [m] = [m] := by simp [movesFor]

theorem movesFor_of_ne (hm : m.hash ≠ h) : movesFor h [m] = [] := by simp [movesFor, hm]

theorem sumOf_append (h : Hash160) (ms ms' : List Move) :
    sumOf h (ms ++ ms') = sumOf h ms + sumOf h ms' := by
  simp [sumOf]

@[simp] theorem sumOf_self (m : Move) : sumOf m.hash [m] = m.value := by simp [sumOf]

theorem sumOf_of_ne (hm : m.hash ≠ h) : sumOf h [m] = 0 := by simp [sumOf, movesFor_of_ne hm]

/-- What a row says its address has; an address without a row has nothing. -/
def Books.sum (b : Books) (h : Hash160) : BitVec 64 := ((b.rows h).map Row.sum).getD 0

theorem Books.row_sum (b : Books) (h : Hash160) : (b.row h).sum = b.sum h := by
  unfold Books.row Books.sum
  cases b.rows h <;> rfl

theorem Books.apply_sum (detailed : Bool) (b : Books) (m : Move) (h : Hash160) :
    (b.apply detailed m).sum h = b.sum h + BitVec.ofInt 64 (sumOf h [m]) := by
  have hadd : ((b.row m.hash).add m.time m.value).sum = b.sum m.hash + BitVec.ofInt 64 m.value := by
    rw [Row.add_sum, b.row_sum]
  by_cases hh : m.hash = h
  · subst hh
    rw [sumOf_self, ← hadd]
    unfold Books.apply
    dsimp only
    split
    · next h0 => simp [Books.sum, h0.2]
    · simp [Books.sum]
  · rw [sumOf_of_ne hh]
    unfold Books.apply
    dsimp only
    split <;> simp [Books.sum, Ne.symm hh]

/-- In both modes the rows have the sums of the moves. -/
theorem Books.run_sum (detailed : Bool) (ms : List Move) (h : Hash160) :
    (Books.run detailed ms).sum h = BitVec.ofInt 64 (sumOf h ms) := by
  induction ms using List.reverseRecOn with
  | nil => rfl
  | append_singleton ms m ih =>
    have hstep : Books.run detailed (ms ++ [m]) = (Books.run detailed ms).apply detailed m := by
      simp [Books.run]
    rw [hstep, Books.apply_sum, ih, sumOf_append, BitVec.ofInt_add]

end Blockparser.Balances
