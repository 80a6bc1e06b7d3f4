import Blockparser.Script
import Blockparser.Lib.Balance

/-! The allBalances command over a map: one record for each address, credited and debited as the
outputs go by. The map is what HashMap is without SPARSE_HASH; AddrTables has the command over
the tables of a build with it. -/
namespace Blockparser.AllBalances
open MemoryManager Blockparser.Parser FreeList Balance Script

/-- The bytes TypedHash160Equal compares: a hash and the byte behind it. -/
abbrev TypedHash160 := Hash160 × UInt8

/-- A row of `--detailed`. -/
structure Output where
  time : BitVec 32
  value : Int
  inputIndex : BitVec 64
  outputIndex : BitVec 64
  upTXHash : HashArg
  downTXHash : HashArg

structure Addr where
  type : UInt8
  sum : BitVec 64
  nbIn : BitVec 64
  nbOut : BitVec 64
  hash : TypedHash160
  lastIn : BitVec 32
  lastOut : BitVec 32
  outputVec : Option (List Output)

abbrev AddrRef := Nat

/-- The cells of a page before they are written. -/
def Addr.zero : Addr := ⟨0, 0, 0, 0, (hashZero, 0), 0, 0, none⟩

/-- `PagedAllocator<Addr>`: the cells cut so far, and those given back. -/
structure Pool where
  issued : Nat
  garbageCollection : List AddrRef
  cells : AddrRef → Addr

def Pool.alloc (p : Pool) : AddrRef × Pool :=
  match p.garbageCollection with
  | [] => (p.issued, { p with issued := p.issued + 1 })
  | result :: rest => (result, { p with garbageCollection := rest })

def Pool.free (p : Pool) (obj : AddrRef) : Pool :=
  { p with garbageCollection := obj :: p.garbageCollection }

def Pool.write (p : Pool) (addr : AddrRef) (a : Addr) : Pool :=
  { p with cells := Function.update p.cells addr a }

/-- `restricts` are the addresses the output is restricted to, `blockTime` the time
startBlock reads in the header of a block. -/
structure Config where
  detailed : Bool
  restricts : List Hash160
  blockTime : BlockRef → BitVec 32
  solveOutputScript : List UInt8 → Solved

structure State where
  pool : Pool
  addrMap : TypedHash160 → Option AddrRef
  blockTime : BitVec 32

def start : State := ⟨⟨0, [], fun _ => .zero⟩, fun _ => none, 0⟩

variable (cfg : Config)

/-- The record of `pubKeyHash`, made when there is none. The byte behind `pubKeyHash` is
a zero of the memset in solveOutputScript, the one behind `addr->hash` is not written. -/
def getAddr (s : State) (pubKeyHash : Hash160) (addrType : UInt8) : AddrRef × State :=
  match s.addrMap (pubKeyHash, 0) with
  | some addr => (addr, s)
  | none =>
    let r := s.pool.alloc
    let old := r.2.cells r.1
    let cell := { old with
      hash := (pubKeyHash, old.hash.2), type := addrType, nbOut := 0, nbIn := 0, sum := 0
      outputVec := if cfg.detailed then some [] else none }
    (r.1, { s with
      pool := r.2.write r.1 cell
      addrMap := Function.update s.addrMap cell.hash (some r.1) })

/-- The counters and the sum; `value` is an int64 added to an unsigned sum. -/
def Addr.add (a : Addr) (blockTime : BitVec 32) (value : Int) : Addr :=
  let a := if 0 < value then { a with lastIn := blockTime, nbIn := a.nbIn + 1 }
    else { a with lastOut := blockTime, nbOut := a.nbOut + 1 }
  { a with sum := a.sum + BitVec.ofInt 64 value }

def Addr.pushOutput (a : Addr) (o : Output) : Addr :=
  { a with outputVec := a.outputVec.map (· ++ [o]) }

def move (s : State) (script : List UInt8) (upTXHash : HashArg) (outputIndex : Nat)
    (value : Int) (downTXHash : HashArg) (inputIndex : BitVec 64) : State :=
  let r := cfg.solveOutputScript script
  if r.scriptType < 0 then s
  else if cfg.restricts ≠ [] ∧ r.pubKeyHash ∉ cfg.restricts then s
  else
    let g := getAddr cfg s r.pubKeyHash r.addrType
    let addr := g.1
    let s := g.2
    let a := (s.pool.cells addr).add s.blockTime value
    if cfg.detailed then
      let output := ⟨s.blockTime, value, inputIndex, BitVec.ofNat 64 outputIndex, upTXHash,
        downTXHash⟩
      { s with pool := s.pool.write addr (a.pushOutput output) }
    else
      let s := { s with pool := s.pool.write addr a }
      if a.sum = 0 then
        { s with addrMap := Function.update s.addrMap a.hash none, pool := s.pool.free addr }
      else s

def noHash : HashArg := ⟨none, none⟩

/-- The cast `(int64_t)x` of a 64-bit value. -/
def toInt64 (x : Nat) : Int := (BitVec.ofNat 64 x).toInt

/-- The calls the command listens to. -/
def onCall (s : State) : Call → State
  | .startBlock b => { s with blockTime := cfg.blockTime b }
  | .endOutput _ value txHash outputIndex outputScript _ =>
    move cfg s outputScript txHash outputIndex (toInt64 value) noHash (BitVec.ofInt 64 (-1))
  | .edge value upTXHash outputIndex outputScript _ downTXHash inputIndex _ _ =>
    move cfg s outputScript upTXHash outputIndex (-toInt64 value) downTXHash
      (BitVec.ofNat 64 inputIndex)
  | _ => s

/-- The record of `h`. -/
def State.record (s : State) (h : Hash160) : Option Addr := (s.addrMap (h, 0)).map s.pool.cells

/-- An output that was created: its transaction and index, its value and its script. -/
structure Coin where
  txHash : Option Hash256
  outputIndex : Nat
  value : Nat
  script : List UInt8
deriving DecidableEq

/-- The unspent outputs after a call. -/
def unspentAfter (coins : Multiset Coin) : Call → Multiset Coin
  | .endOutput _ value txHash outputIndex outputScript _ =>
    ⟨txHash.value, outputIndex, value, outputScript⟩ ::ₘ coins
  | .edge value upTXHash outputIndex outputScript _ _ _ _ _ =>
    coins.erase ⟨upTXHash.value, outputIndex, value, outputScript⟩
  | _ => coins

/-- An edge spends an unspent output. -/
def Spends (coins : Multiset Coin) : Call → Prop
  | .endOutput _ value _ _ _ _ => value < 2 ^ 63
  | .edge value upTXHash outputIndex outputScript _ _ _ _ _ =>
    ⟨upTXHash.value, outputIndex, value, outputScript⟩ ∈ coins
  | _ => True

/-- The address a script pays to. -/
def Config.account (script : List UInt8) : Option Hash160 :=
  let r := cfg.solveOutputScript script
  if r.scriptType < 0 then none else some r.pubKeyHash

/-- The total of the unspent outputs that pay to `h`. -/
def total (coins : Multiset Coin) (h : Hash160) : Nat :=
  balance (fun c => cfg.account c.script) Coin.value coins h

/-- Edges spend what is unspent, and no total reaches 2^64. -/
def ValidCalls : Multiset Coin → List Call → Prop
  | _, [] => True
  | coins, c :: cs => Spends coins c ∧ (∀ h, total cfg (unspentAfter coins c) h < 2 ^ 64) ∧
    ValidCalls (unspentAfter coins c) cs

/-- The address a call moves coins to or from. -/
def movedBy : Call → Option Hash160
  | .endOutput _ _ _ _ outputScript _ => cfg.account outputScript
  | .edge _ _ _ outputScript _ _ _ _ _ => cfg.account outputScript
  | _ => none

/-- What the list asks for, and restrictMap lets through but for the key of its empty buckets. -/
def Config.Allows (h : Hash160) : Prop := cfg.restricts = [] ∨ h ∈ cfg.restricts

theorem account_eq_none {cfg : Config} {script : List UInt8} :
    cfg.account script = none ↔ (cfg.solveOutputScript script).scriptType < 0 := by
  by_cases hneg : (cfg.solveOutputScript script).scriptType < 0
  · exact iff_of_true (if_pos hneg) hneg
  · have hsome : cfg.account script = some (cfg.solveOutputScript script).pubKeyHash := if_neg hneg
    refine iff_of_false ?_ hneg
    rw [hsome]
    exact Option.some_ne_none _

theorem account_eq_some {cfg : Config} {script : List UInt8} {h : Hash160} :
    cfg.account script = some h ↔ ¬(cfg.solveOutputScript script).scriptType < 0 ∧
      (cfg.solveOutputScript script).pubKeyHash = h := by
  by_cases hneg : (cfg.solveOutputScript script).scriptType < 0
  · have hnone : cfg.account script = none := if_pos hneg
    rw [hnone]
    exact iff_of_false (Option.some_ne_none h).symm fun hs => hs.1 hneg
  · have hsome : cfg.account script = some (cfg.solveOutputScript script).pubKeyHash := if_neg hneg
    rw [hsome, Option.some_inj]
    exact (and_iff_right hneg).symm

/-- The three ways of move: the script pays to no address, to one that is left out, or to one
whose record is found or made. -/
theorem move_of_none {cfg : Config} {script : List UInt8} (hacc : cfg.account script = none)
    (s : State) (up down : HashArg) (outputIndex : Nat) (value : Int) (inputIndex : BitVec 64) :
    move cfg s script up outputIndex value down inputIndex = s :=
  if_pos (account_eq_none.mp hacc)

theorem move_leftOut {cfg : Config} {script : List UInt8} {h : Hash160}
    (hacc : cfg.account script = some h) (ha : ¬cfg.Allows h) (s : State) (up down : HashArg)
    (outputIndex : Nat) (value : Int) (inputIndex : BitVec 64) :
    move cfg s script up outputIndex value down inputIndex = s := by
  obtain ⟨hneg, rfl⟩ := account_eq_some.mp hacc
  unfold move
  dsimp only
  rw [if_neg hneg, if_pos (not_or.mp ha)]

theorem move_counted {cfg : Config} {script : List UInt8} {h : Hash160}
    (hacc : cfg.account script = some h) (ha : cfg.Allows h) {s : State} {g : AddrRef × State}
    (hget : getAddr cfg s h (cfg.solveOutputScript script).addrType = g)
    (up down : HashArg) (outputIndex : Nat) (value : Int) (inputIndex : BitVec 64) :
    move cfg s script up outputIndex value down inputIndex =
      let a := (g.2.pool.cells g.1).add g.2.blockTime value
      if cfg.detailed then
        { g.2 with pool := g.2.pool.write g.1 (a.pushOutput
          ⟨g.2.blockTime, value, inputIndex, BitVec.ofNat 64 outputIndex, up, down⟩) }
      else if a.sum = 0 then
        { g.2 with
          addrMap := Function.update g.2.addrMap a.hash none
          pool := (g.2.pool.write g.1 a).free g.1 }
      else { g.2 with pool := g.2.pool.write g.1 a } := by
  obtain ⟨hneg, rfl⟩ := account_eq_some.mp hacc
  have hin : ¬(cfg.restricts ≠ [] ∧ (cfg.solveOutputScript script).pubKeyHash ∉ cfg.restricts) :=
    fun hout => not_or.mpr hout ha
  unfold move
  dsimp only
  rw [if_neg hneg, if_neg hin, hget]

theorem total_cons (cfg : Config) (c : Coin) (coins : Multiset Coin) (h : Hash160) :
    total cfg (c ::ₘ coins) h =
      (if cfg.account c.script = some h then c.value else 0) + total cfg coins h :=
  balance_cons

theorem total_erase {cfg : Config} {c : Coin} {coins : Multiset Coin} {h : Hash160}
    (hc : c ∈ coins) : total cfg coins h =
      (if cfg.account c.script = some h then c.value else 0) + total cfg (coins.erase c) h :=
  balance_erase hc

/-- Cut or recycled so far. -/
def Pool.abs (p : Pool) : Alloc AddrRef Unit where
  issued := {a | a < p.issued}
  free _ := p.garbageCollection

theorem Pool.alloc_takes (p : Pool) : Takes p.abs p.alloc.2.abs p.alloc.1 := by
  unfold Pool.alloc
  split
  · refine Takes.fresh ?_ ?_ rfl ?_
    · exact Nat.lt_irrefl _
    · exact Nat.lt_succ_self _
    · exact fun a ha => Nat.lt_succ_of_lt ha
  · next r rest hg =>
    refine Takes.reuse () rest hg ?_ (Set.Subset.refl _)
    funext i
    simp [Pool.abs]

theorem Pool.alloc_cells (p : Pool) : p.alloc.2.cells = p.cells := by
  unfold Pool.alloc
  split <;> rfl

theorem Pool.free_returns (p : Pool) (a : AddrRef) : Returns p.abs (p.free a).abs () a where
  free := by
    funext i
    simp [Pool.abs, Pool.free]
  issued := Set.Subset.refl _

variable {cfg} {s : State} {coins coins' : Multiset Coin} {h : Hash160} {addr : AddrRef}

theorem key_ne {h h' : Hash160} (hh : h' ≠ h) : ((h', 0) : TypedHash160) ≠ (h, 0) :=
  fun he => hh (congrArg Prod.fst he)

/-- The records in use. -/
def State.live (s : State) : Set AddrRef := {r | ∃ k, s.addrMap k = some r}

/-- The records are those of the table, each under its own hash. -/
structure Owned (s : State) : Prop where
  owns : Owns s.pool.abs s.live
  tail : ∀ r, (s.pool.cells r).hash.2 = 0
  hash : ∀ k r, s.addrMap k = some r → (s.pool.cells r).hash = k

/-- A record in a cell of the pool, for an address that has none. -/
def State.insertRecord (s : State) (h : Hash160) (a : Addr) : State :=
  { s with
    pool := s.pool.alloc.2.write s.pool.alloc.1 a
    addrMap := Function.update s.addrMap (h, 0) (some s.pool.alloc.1) }

def State.writeRecord (s : State) (addr : AddrRef) (a : Addr) : State :=
  { s with pool := s.pool.write addr a }

def State.eraseRecord (s : State) (h : Hash160) (addr : AddrRef) : State :=
  { s with addrMap := Function.update s.addrMap (h, 0) none, pool := s.pool.free addr }

/-- The cells given back, as they were left. -/
def State.spare (s : State) : List Addr := s.pool.garbageCollection.map s.pool.cells

theorem start_owned : Owned start where
  owns := by
    refine ⟨?_, by simp [start, Pool.abs], by simp [start, Pool.abs], by simp [start, Pool.abs],
      by simp [start, Pool.abs]⟩
    rintro r ⟨k, hk⟩
    cases hk
  tail _ := rfl
  hash _ _ hk := by cases hk

section
variable (ho : Owned s) (a : Addr)
include ho

theorem Owned.key_eq {k : TypedHash160} (hk : s.addrMap k = some addr) : k = (k.1, 0) := by
  have htail := ho.tail addr
  rw [ho.hash k addr hk] at htail
  rw [← htail]

/-- Two entries never share a record. -/
theorem Owned.inj {k k' : TypedHash160} (hk : s.addrMap k = some addr)
    (hk' : s.addrMap k' = some addr) : k = k' := by
  rw [← ho.hash k addr hk, ← ho.hash k' addr hk']

theorem Owned.alloc_notMem : s.pool.alloc.1 ∉ s.live := ho.owns.notMem_of_takes s.pool.alloc_takes

theorem Owned.insert (hf : s.addrMap (h, 0) = none) (hhash : a.hash = (h, 0)) :
    Owned (s.insertRecord h a) := by
  have hlive : (s.insertRecord h a).live = Insert.insert s.pool.alloc.1 s.live := by
    ext r
    constructor
    · rintro ⟨k, hk⟩
      by_cases hkh : k = (h, 0)
      · subst hkh
        simp only [State.insertRecord, Function.update_self, Option.some.injEq] at hk
        exact Or.inl hk.symm
      · exact Or.inr ⟨k, by simpa [State.insertRecord, hkh] using hk⟩
    · rintro (rfl | ⟨k, hk⟩)
      · exact ⟨(h, 0), Function.update_self ..⟩
      · have hkh : k ≠ (h, 0) := by
          intro he
          subst he
          cases hf.symm.trans hk
        exact ⟨k, by simpa [State.insertRecord, hkh] using hk⟩
  refine ⟨?_, ?_, ?_⟩
  · rw [hlive]
    exact ho.owns.takes s.pool.alloc_takes
  · intro r
    by_cases hr : r = s.pool.alloc.1
    · simp [State.insertRecord, Pool.write, hr, hhash]
    · simpa [State.insertRecord, Pool.write, hr, Pool.alloc_cells] using ho.tail r
  · intro k r hk
    by_cases hkh : k = (h, 0)
    · subst hkh
      simp only [State.insertRecord, Function.update_self, Option.some.injEq] at hk
      simp [State.insertRecord, Pool.write, ← hk, hhash]
    · have hk' : s.addrMap k = some r := by simpa [State.insertRecord, hkh] using hk
      have hr : r ≠ s.pool.alloc.1 := by
        intro he
        exact ho.alloc_notMem ⟨k, he ▸ hk'⟩
      simpa [State.insertRecord, Pool.write, hr, Pool.alloc_cells] using ho.hash k r hk'

theorem Owned.record_insert :
    (s.insertRecord h a).record = Function.update s.record h (some a) := by
  funext h'
  by_cases hh : h' = h
  · subst hh
    simp [State.record, State.insertRecord, Pool.write]
  · have hne := key_ne hh
    rw [Function.update_of_ne hh, State.record, State.record]
    simp only [State.insertRecord, Function.update_of_ne hne]
    cases hk : s.addrMap (h', 0) with
    | none => rfl
    | some r =>
      have hr : r ≠ s.pool.alloc.1 := by
        intro he
        exact ho.alloc_notMem ⟨_, he ▸ hk⟩
      simp [Pool.write, hr, Pool.alloc_cells]

theorem Owned.spare_insert : (s.insertRecord h a).spare = s.spare.tail := by
  unfold State.spare State.insertRecord Pool.alloc
  cases hg : s.pool.garbageCollection with
  | nil => simp [Pool.write]
  | cons r rest =>
    have hnot : r ∉ rest := by
      have hnd := ho.owns.free_nodup ()
      rw [show s.pool.abs.free () = r :: rest from hg] at hnd
      exact (List.nodup_cons.mp hnd).1
    simp only [Pool.write, List.map_cons, List.tail_cons]
    apply List.map_congr_left
    intro r' hr'
    have hne : r' ≠ r := by
      intro he
      subst he
      exact hnot hr'
    exact Function.update_of_ne hne ..

theorem Owned.write (hk : s.addrMap (h, 0) = some addr) (hhash : a.hash = (h, 0)) :
    Owned (s.writeRecord addr a) := by
  refine ⟨ho.owns, ?_, ?_⟩
  · intro r
    by_cases hr : r = addr
    · simp [State.writeRecord, Pool.write, hr, hhash]
    · simpa [State.writeRecord, Pool.write, hr] using ho.tail r
  · intro k r hr
    by_cases hra : r = addr
    · subst hra
      rw [ho.inj hr hk]
      simp [State.writeRecord, Pool.write, hhash]
    · simpa [State.writeRecord, Pool.write, hra] using ho.hash k r hr

theorem Owned.record_write (hk : s.addrMap (h, 0) = some addr) :
    (s.writeRecord addr a).record = Function.update s.record h (some a) := by
  funext h'
  by_cases hh : h' = h
  · subst hh
    simp [State.record, State.writeRecord, Pool.write, hk]
  · rw [Function.update_of_ne hh, State.record, State.record]
    cases hk' : s.addrMap (h', 0) with
    | none => simp [State.writeRecord, hk']
    | some r =>
      have hr : r ≠ addr := by
        intro he
        subst he
        exact hh (congrArg Prod.fst (ho.inj hk' hk))
      simp [State.writeRecord, Pool.write, hr, hk']

theorem Owned.spare_write (hk : s.addrMap (h, 0) = some addr) :
    (s.writeRecord addr a).spare = s.spare := by
  unfold State.spare State.writeRecord
  apply List.map_congr_left
  intro r hr
  have hne : r ≠ addr := by
    intro he
    subst he
    exact ho.owns.free_dead () r hr ⟨_, hk⟩
  exact Function.update_of_ne hne ..

theorem Owned.erase (hk : s.addrMap (h, 0) = some addr) : Owned (s.eraseRecord h addr) := by
  have hlive : (s.eraseRecord h addr).live = s.live \ {addr} := by
    ext r
    constructor
    · rintro ⟨k, hr⟩
      have hkh : k ≠ (h, 0) := by
        intro he
        subst he
        simp [State.eraseRecord] at hr
      have hr' : s.addrMap k = some r := by simpa [State.eraseRecord, hkh] using hr
      refine ⟨⟨k, hr'⟩, ?_⟩
      intro he
      subst he
      exact hkh (ho.inj hr' hk)
    · rintro ⟨⟨k, hr⟩, hne⟩
      have hkh : k ≠ (h, 0) := by
        intro he
        subst he
        cases hk.symm.trans hr
        exact hne rfl
      exact ⟨k, by simpa [State.eraseRecord, hkh] using hr⟩
  refine ⟨?_, ho.tail, ?_⟩
  · rw [hlive]
    exact ho.owns.returns ⟨(h, 0), hk⟩ (s.pool.free_returns addr)
  · intro k r hr
    by_cases hkh : k = (h, 0)
    · subst hkh
      simp [State.eraseRecord] at hr
    · exact ho.hash k r (by simpa [State.eraseRecord, hkh] using hr)

omit ho in
theorem State.record_erase (s : State) (h : Hash160) (addr : AddrRef) :
    (s.eraseRecord h addr).record = Function.update s.record h none := by
  funext h'
  by_cases hh : h' = h
  · subst hh
    simp [State.record, State.eraseRecord]
  · have hne := key_ne hh
    simp [State.record, State.eraseRecord, hh, hne, Pool.free]

end

/-- The records are those of the table, each under its own hash and with the total of
its address; an address without a record has nothing. -/
structure Core (cfg : Config) (s : State) (coins : Multiset Coin) : Prop where
  owns : Owns s.pool.abs s.live
  tail : ∀ r, (s.pool.cells r).hash.2 = 0
  hash : ∀ k r, s.addrMap k = some r → (s.pool.cells r).hash = k
  sum : ∀ k r, s.addrMap k = some r → (s.pool.cells r).sum.toNat = total cfg coins k.1
  allowed : ∀ k r, s.addrMap k = some r → cfg.Allows k.1
  absent : ∀ h, cfg.Allows h → s.addrMap (h, 0) = none → total cfg coins h = 0

theorem Core.owned (hc : Core cfg s coins) : Owned s := ⟨hc.owns, hc.tail, hc.hash⟩

/-- The same of the records by themselves. -/
structure Ledger (cfg : Config) (record : Hash160 → Option Addr) (coins : Multiset Coin) :
    Prop where
  sum : ∀ h a, record h = some a → a.sum.toNat = total cfg coins h
  allowed : ∀ h a, record h = some a → cfg.Allows h
  absent : ∀ h, cfg.Allows h → record h = none → total cfg coins h = 0

theorem record_eq_some {a : Addr} :
    s.record h = some a ↔ ∃ r, s.addrMap (h, 0) = some r ∧ s.pool.cells r = a :=
  Option.map_eq_some_iff

theorem record_eq_none : s.record h = none ↔ s.addrMap (h, 0) = none := Option.map_eq_none_iff

theorem Core.ledger (hc : Core cfg s coins) : Ledger cfg s.record coins := by
  refine ⟨?_, ?_, ?_⟩
  · intro h a ha
    obtain ⟨r, hr, rfl⟩ := record_eq_some.mp ha
    exact hc.sum _ r hr
  · intro h a ha
    obtain ⟨r, hr, -⟩ := record_eq_some.mp ha
    exact hc.allowed _ r hr
  · intro h ha hn
    exact hc.absent h ha (record_eq_none.mp hn)

theorem Ledger.core (hl : Ledger cfg s.record coins) (ho : Owned s) : Core cfg s coins := by
  refine ⟨ho.owns, ho.tail, ho.hash, ?_, ?_, ?_⟩
  · intro k r hr
    rw [ho.key_eq hr] at hr
    exact hl.sum k.1 _ (record_eq_some.mpr ⟨r, hr, rfl⟩)
  · intro k r hr
    rw [ho.key_eq hr] at hr
    exact hl.allowed k.1 _ (record_eq_some.mpr ⟨r, hr, rfl⟩)
  · intro h ha hn
    exact hl.absent h ha (record_eq_none.mpr hn)

/-- A record with the new total of `h`, the only one that changes. -/
theorem Ledger.update {record : Hash160 → Option Addr} (hl : Ledger cfg record coins)
    (ha : cfg.Allows h) {a : Addr} (hsum : a.sum.toNat = total cfg coins' h)
    (hother : ∀ h', cfg.Allows h' → h' ≠ h → total cfg coins' h' = total cfg coins h') :
    Ledger cfg (Function.update record h (some a)) coins' := by
  refine ⟨?_, ?_, ?_⟩
  · intro h' a' hr
    by_cases hh : h' = h
    · subst hh
      cases (Function.update_self ..).symm.trans hr
      exact hsum
    · rw [Function.update_of_ne hh] at hr
      rw [hother h' (hl.allowed h' a' hr) hh]
      exact hl.sum h' a' hr
  · intro h' a' hr
    by_cases hh : h' = h
    · subst hh
      exact ha
    · rw [Function.update_of_ne hh] at hr
      exact hl.allowed h' a' hr
  · intro h' ha' hn
    by_cases hh : h' = h
    · subst hh
      simp at hn
    · rw [Function.update_of_ne hh] at hn
      rw [hother h' ha' hh]
      exact hl.absent h' ha' hn

theorem Ledger.erase {record : Hash160 → Option Addr} (hl : Ledger cfg record coins)
    (h0 : total cfg coins h = 0) : Ledger cfg (Function.update record h none) coins := by
  have hold : ∀ h' a, Function.update record h none h' = some a → record h' = some a := by
    intro h' a hr
    by_cases hh : h' = h
    · subst hh
      simp at hr
    · rwa [Function.update_of_ne hh] at hr
  refine ⟨fun h' a hr => hl.sum h' a (hold h' a hr), fun h' a hr => hl.allowed h' a (hold h' a hr),
    ?_⟩
  intro h' ha' hn
  by_cases hh : h' = h
  · subst hh
    exact h0
  · rw [Function.update_of_ne hh] at hn
    exact hl.absent h' ha' hn

theorem start_core (cfg : Config) : Core cfg start 0 := by
  apply Ledger.core _ start_owned
  refine ⟨?_, ?_, ?_⟩
  · intro h a ha
    cases ha
  · intro h a ha
    cases ha
  · exact fun _ _ _ => balance_zero

section
variable (hc : Core cfg s coins) (a : Addr)
include hc

theorem Core.insert (ha : cfg.Allows h) (hf : s.addrMap (h, 0) = none) (hhash : a.hash = (h, 0))
    (hsum : a.sum = 0) : Core cfg (s.insertRecord h a) coins := by
  apply Ledger.core _ (hc.owned.insert a hf hhash)
  rw [hc.owned.record_insert]
  apply hc.ledger.update ha
  · rw [hsum, hc.absent h ha hf]
    rfl
  · exact fun _ _ _ => rfl

theorem Core.write (hk : s.addrMap (h, 0) = some addr) (hhash : a.hash = (h, 0))
    (hsum : a.sum.toNat = total cfg coins' h)
    (hother : ∀ h', cfg.Allows h' → h' ≠ h → total cfg coins' h' = total cfg coins h') :
    Core cfg (s.writeRecord addr a) coins' := by
  apply Ledger.core _ (hc.owned.write a hk hhash)
  rw [hc.owned.record_write a hk]
  exact hc.ledger.update (hc.allowed _ addr hk) hsum hother

/-- A record whose address has nothing left is erased and given back. -/
theorem Core.erase (hk : s.addrMap (h, 0) = some addr) (h0 : total cfg coins h = 0) :
    Core cfg (s.eraseRecord h addr) coins := by
  apply Ledger.core _ (hc.owned.erase hk)
  rw [State.record_erase]
  exact hc.ledger.erase h0

/-- getAddr finds or makes the record, with the total the address has. -/
theorem getAddr_spec (ha : cfg.Allows h) (addrType : UInt8) :
    Core cfg (getAddr cfg s h addrType).2 coins ∧
      (getAddr cfg s h addrType).2.addrMap (h, 0) = some (getAddr cfg s h addrType).1 ∧
      ∀ k, k ≠ (h, 0) → (getAddr cfg s h addrType).2.addrMap k = s.addrMap k := by
  unfold getAddr
  cases hf : s.addrMap (h, 0) with
  | some addr => exact ⟨hc, hf, fun _ _ => rfl⟩
  | none =>
    have htail : (s.pool.alloc.2.cells s.pool.alloc.1).hash.2 = 0 := by
      rw [Pool.alloc_cells]
      exact hc.tail _
    dsimp only
    simp only [htail]
    exact ⟨hc.insert _ ha hf rfl rfl, Function.update_self ..,
      fun k hk => Function.update_of_ne hk ..⟩

end

/-- What holds after every call: records exist for what is left, or with `--detailed`
for whatever was moved. -/
structure Inv (cfg : Config) (s : State) (coins : Multiset Coin) (moved : Set Hash160) : Prop
    extends Core cfg s coins where
  present : cfg.detailed = false → ∀ h a, s.addrMap (h, 0) = some a → total cfg coins h ≠ 0
  moved : cfg.detailed = true → ∀ h, (s.addrMap (h, 0)).isSome ↔ cfg.Allows h ∧ h ∈ moved

variable {moved moved' : Set Hash160} {v : Int}

theorem Inv.congr (hi : Inv cfg s coins moved)
    (ht : ∀ h, cfg.Allows h → total cfg coins' h = total cfg coins h)
    (hm : ∀ h, cfg.Allows h → (h ∈ moved' ↔ h ∈ moved)) : Inv cfg s coins' moved' where
  owns := hi.owns
  tail := hi.tail
  hash := hi.hash
  sum k r hk := by rw [hi.sum k r hk, ht k.1 (hi.allowed k r hk)]
  allowed := hi.allowed
  absent h ha hn := by rw [ht h ha, hi.absent h ha hn]
  present hd h a hk := by
    rw [ht h (hi.allowed _ a hk)]
    exact hi.present hd h a hk
  moved hd h := by
    rw [hi.moved hd h]
    constructor
    · rintro ⟨ha, h⟩
      exact ⟨ha, (hm _ ha).mpr h⟩
    · rintro ⟨ha, h⟩
      exact ⟨ha, (hm _ ha).mp h⟩

@[simp] theorem Addr.add_hash (a : Addr) (t : BitVec 32) (v : Int) : (a.add t v).hash = a.hash := by
  unfold Addr.add
  split <;> rfl

theorem Addr.add_sum (a : Addr) (t : BitVec 32) (v : Int) :
    (a.add t v).sum = a.sum + BitVec.ofInt 64 v := by
  unfold Addr.add
  split <;> rfl

/-- A signed change of an unsigned sum, as long as the result is in range. -/
theorem toNat_add_ofInt {x : BitVec 64} {n : Nat} (h : (n : Int) = x.toNat + v) (hn : n < 2 ^ 64) :
    (x + BitVec.ofInt 64 v).toNat = n := by
  rw [BitVec.toNat_add, BitVec.toNat_ofInt]
  omega

theorem move_spec (hi : Inv cfg s coins moved) (script : List UInt8) (up down : HashArg)
    (outputIndex : Nat) (inputIndex : BitVec 64)
    (htot : ∀ h, (total cfg coins' h : Int) =
      total cfg coins h + if cfg.account script = some h then v else 0)
    (hlt : ∀ h, total cfg coins' h < 2 ^ 64) :
    Inv cfg (move cfg s script up outputIndex v down inputIndex) coins'
      {h | h ∈ moved ∨ cfg.account script = some h} := by
  cases hacc : cfg.account script with
  | none =>
    rw [move_of_none hacc]
    refine hi.congr ?_ ?_
    · intro h _
      have := htot h
      simp [hacc] at this
      exact this
    · simp
  | some h =>
    have hother : ∀ h', h' ≠ h → total cfg coins' h' = total cfg coins h' := by
      intro h' hne
      have := htot h'
      simp [hacc, Ne.symm hne] at this
      exact this
    by_cases ha : cfg.Allows h
    swap
    · rw [move_leftOut hacc ha]
      have hne : ∀ h', cfg.Allows h' → h' ≠ h := fun h' ha' he => ha (he ▸ ha')
      refine hi.congr (fun h' ha => hother h' (hne h' ha)) ?_
      intro h' ha
      simp [Ne.symm (hne h' ha)]
    · obtain ⟨hcore, hk, hsame⟩ :=
        getAddr_spec hi.toCore ha (cfg.solveOutputScript script).addrType
      generalize hget : getAddr cfg s h (cfg.solveOutputScript script).addrType = g at *
      rw [move_counted hacc ha hget]
      dsimp only
      have hhash : ((g.2.pool.cells g.1).add g.2.blockTime v).hash = (h, 0) := by
        rw [Addr.add_hash, hcore.hash _ _ hk]
      have hsum : ((g.2.pool.cells g.1).add g.2.blockTime v).sum.toNat = total cfg coins' h := by
        rw [Addr.add_sum]
        refine toNat_add_ofInt ?_ (hlt h)
        rw [hcore.sum _ _ hk, htot h, if_pos hacc]
      have hrest : ∀ h', h' ≠ h → g.2.addrMap (h', 0) = s.addrMap (h', 0) := by
        intro h' hne
        exact hsame _ (key_ne hne)
      cases hd : cfg.detailed with
      | true =>
        rw [if_pos rfl]
        refine ⟨hcore.write _ hk hhash hsum fun h' _ hne => hother h' hne, ?_, ?_⟩
        · intro hf
          cases hd.symm.trans hf
        · intro _ h'
          by_cases hne : h' = h
          · subst hne
            simp [hk, ha]
          · simp only [hrest h' hne, Set.mem_ofPred_eq, Option.some.injEq, Ne.symm hne,
              or_false]
            exact hi.moved hd h'
      | false =>
        have hwrite := hcore.write _ hk hhash hsum fun h' _ hne => hother h' hne
        have hpresent : ∀ h' a, h' ≠ h → g.2.addrMap (h', 0) = some a →
            total cfg coins' h' ≠ 0 := by
          intro h' a hne hh
          rw [hother h' hne]
          exact hi.present hd h' a (by rwa [← hrest h' hne])
        rw [if_neg (by decide), hhash]
        by_cases h0 : ((g.2.pool.cells g.1).add g.2.blockTime v).sum = 0
        · have ht0 : total cfg coins' h = 0 := by simp [← hsum, h0]
          rw [if_pos h0]
          refine ⟨hwrite.erase hk ht0, ?_, ?_⟩
          · intro _ h' a hh
            by_cases hne : h' = h
            · subst hne
              simp at hh
            · exact hpresent h' a hne (by simpa [hne] using hh)
          · intro ht
            cases hd.symm.trans ht
        · rw [if_neg h0]
          refine ⟨hwrite, ?_, ?_⟩
          · intro _ h' a hh
            by_cases hne : h' = h
            · subst hne
              rw [← hsum]
              exact fun hz => h0 (BitVec.eq_of_toNat_eq (by simpa using hz))
            · exact hpresent h' a hne hh
          · intro ht
            cases hd.symm.trans ht

theorem toInt64_of_lt {x : Nat} (h : x < 2 ^ 63) : toInt64 x = x := by
  rw [toInt64, BitVec.toInt_eq_toNat_of_lt] <;> simp <;> omega

def Small (coins : Multiset Coin) : Prop := ∀ c ∈ coins, c.value < 2 ^ 63

theorem Small.after (hsmall : Small coins) {c : Call} (hs : Spends coins c) :
    Small (unspentAfter coins c) := by
  cases c with
  | endOutput p value txHash outputIndex outputScript size =>
    intro c hc
    cases Multiset.mem_cons.mp hc with
    | inl heq =>
      rw [heq]
      exact hs
    | inr hc => exact hsmall c hc
  | edge value upTXHash outputIndex outputScript size downTXHash inputIndex inputScript inputSize =>
    exact fun c hc => hsmall c (Multiset.mem_of_mem_erase hc)
  | _ => exact hsmall

/-- One call keeps the records in step with the unspent outputs. -/
theorem onCall_spec (hi : Inv cfg s coins moved) (hsmall : Small coins) {c : Call}
    (hs : Spends coins c) (hlt : ∀ h, total cfg (unspentAfter coins c) h < 2 ^ 64) :
    Inv cfg (onCall cfg s c) (unspentAfter coins c) {h | h ∈ moved ∨ movedBy cfg c = some h} := by
  cases c with
  | startBlock b =>
    have hi' : Inv cfg s coins {h | h ∈ moved ∨ movedBy cfg (.startBlock b) = some h} :=
      hi.congr (fun _ _ => rfl) (by simp [movedBy])
    exact ⟨⟨hi'.owns, hi'.tail, hi'.hash, hi'.sum, hi'.allowed, hi'.absent⟩, hi'.present,
      hi'.moved⟩
  | endOutput p value txHash outputIndex outputScript size =>
    apply move_spec hi outputScript _ _ _ _ _ hlt
    intro h
    rw [toInt64_of_lt hs, unspentAfter, total_cons]
    split <;> simp_all [Int.add_comm]
  | edge value upTXHash outputIndex outputScript size downTXHash inputIndex inputScript inputSize =>
    apply move_spec hi outputScript _ _ _ _ _ hlt
    intro h
    rw [toInt64_of_lt (hsmall _ hs), unspentAfter, total_erase hs]
    split <;> simp_all
  | _ => exact hi.congr (fun _ _ => rfl) (by simp [movedBy])

theorem calls_spec (calls : List Call) (hi : Inv cfg s coins moved) (hsmall : Small coins)
    (hv : ValidCalls cfg coins calls) :
    Inv cfg (calls.foldl (onCall cfg) s) (calls.foldl unspentAfter coins)
      {h | h ∈ moved ∨ ∃ c ∈ calls, movedBy cfg c = some h} := by
  induction calls generalizing s coins moved with
  | nil => exact hi.congr (fun _ _ => rfl) (by simp)
  | cons c calls ih =>
    obtain ⟨hs, hlt, hv'⟩ := hv
    have hi' := onCall_spec hi hsmall hs hlt
    refine (ih hi' (hsmall.after hs) hv').congr (fun _ _ => rfl) ?_
    intro h _
    simp [or_assoc]

theorem ValidCalls.initial {pre calls : List Call} (hp : pre <+: calls)
    (hv : ValidCalls cfg coins calls) : ValidCalls cfg coins pre := by
  induction pre generalizing coins calls with
  | nil => trivial
  | cons c pre ih =>
    obtain ⟨rest, rfl⟩ := hp
    exact ⟨hv.1, hv.2.1, ih (List.prefix_append pre rest) hv.2.2⟩

/-- After every call the record of an address has the total of its unspent outputs, and
the addresses with a record are those that have something left, or with `--detailed`
those that were ever moved to or from, among the ones asked for. -/
theorem allBalances_ledger (cfg : Config) (calls : List Call) (hv : ValidCalls cfg 0 calls)
    (pre : List Call) (hp : pre <+: calls) (h : Hash160) :
    (cfg.Allows h →
      (∀ a, (pre.foldl (onCall cfg) start).record h = some a →
        a.hash = (h, 0) ∧ a.sum.toNat = total cfg (pre.foldl unspentAfter 0) h) ∧
      ((pre.foldl (onCall cfg) start).record h = none →
        total cfg (pre.foldl unspentAfter 0) h = 0) ∧
      (cfg.detailed = false → ((pre.foldl (onCall cfg) start).record h ≠ none ↔
        total cfg (pre.foldl unspentAfter 0) h ≠ 0)) ∧
      (cfg.detailed = true → ((pre.foldl (onCall cfg) start).record h ≠ none ↔
        ∃ c ∈ pre, movedBy cfg c = some h))) ∧
    (¬cfg.Allows h → ∀ b, (pre.foldl (onCall cfg) start).addrMap (h, b) = none) ∧
    ∀ b, b ≠ 0 → (pre.foldl (onCall cfg) start).addrMap (h, b) = none := by
  have hstart : Inv cfg start 0 ∅ := by
    refine ⟨start_core cfg, ?_, ?_⟩
    · intro _ h a hk
      cases hk
    · intro _ h
      simp [start]
  have hi := calls_spec pre hstart (by simp [Small]) (hv.initial hp)
  generalize pre.foldl (onCall cfg) start = s at *
  generalize pre.foldl unspentAfter 0 = coins at *
  have hrec : s.record h ≠ none ↔ s.addrMap (h, 0) ≠ none := by simp [State.record]
  refine ⟨fun ha => ⟨?_, ?_, ?_, ?_⟩, ?_, ?_⟩
  · intro a hk
    obtain ⟨r, hr, rfl⟩ := Option.map_eq_some_iff.mp hk
    exact ⟨hi.hash _ r hr, hi.sum _ r hr⟩
  · intro hn
    exact hi.absent h ha (by simpa [State.record] using hn)
  · intro hd
    rw [hrec]
    constructor
    · intro hne
      obtain ⟨r, hr⟩ := Option.ne_none_iff_exists'.mp hne
      exact hi.present hd h r hr
    · exact fun ht hn => ht (hi.absent h ha hn)
  · intro hd
    have hm := hi.moved hd h
    rw [hrec, Option.ne_none_iff_isSome, hm]
    simp [ha]
  · intro hna b
    cases hk : s.addrMap (h, b) with
    | none => rfl
    | some r => exact absurd (hi.allowed _ r hk) hna
  · intro b hb
    cases hk : s.addrMap (h, b) with
    | none => rfl
    | some r => exact absurd (congrArg Prod.snd (hi.toCore.owned.key_eq hk)) hb

/-- A solver that knows the scripts that pay to a hash. -/
def solvePayToHash (script : List UInt8) : Solved :=
  if h : script.length = 25 ∧ script.take 3 = [0x76, 0xA9, 20] ∧ script.drop 23 = [0x88, 0xAC] then
    ⟨0, ⟨(script.drop 3).take 20, by simp [h.1]⟩, 0⟩
  else ⟨-1, hashZero, 0⟩

theorem length_sevens : (List.replicate 20 (7 : UInt8)).length = 20 := List.length_replicate

def payScript : List UInt8 := [0x76, 0xA9, 20] ++ List.replicate 20 7 ++ [0x88, 0xAC]

/-- An output, and the input that spends it. -/
def smallCalls : List Call :=
  [.endOutput 0 5 noHash 0 payScript 25, .edge 5 noHash 0 payScript 25 noHash 0 [] 0]

def smallConfig : Config := ⟨false, [], fun _ => 0, solvePayToHash⟩

end Blockparser.AllBalances
