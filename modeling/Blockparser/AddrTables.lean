import Blockparser.DenseMarks
import Blockparser.ReservedKeys
import Blockparser.Lib.Prefixes

/-! The allBalances command with the tables it is built with: addrMap, and the table of the
addresses its output is restricted to. While no output is counted under a reserved key it does
what it does with a map. -/
namespace Blockparser.AddrTables
open Bytes Script Balances ReservedKeys DenseHashtable Prefixes
open MemoryManager (Hash160)
open Blockparser.Parser (Call HashArg)
open AllBalances (TypedHash160 Addr AddrRef Pool Config Owned movedBy toInt64 noHash)

/-- The hash of the hashers, the first eight bytes. -/
def firstWord (h : Hash160) : Nat := leNat (h.1.take 8)

/-- `size_type(-1) / sizeof(value_type)`, where a value is a pointer and its address. -/
def maxSize : Nat := 2 ^ 60 - 1

/- The program is built with NDEBUG. -/
def hash160Traits : Traits Hash160 := ⟨firstWord, maxSize, true⟩

def typedHash160Traits : Traits TypedHash160 := ⟨fun k => firstWord k.1, maxSize, true⟩

structure State where
  pool : Pool
  addrMap : DenseHashtable TypedHash160 AddrRef
  restrictMap : DenseHashtable Hash160 (BitVec 32)
  blockTime : BitVec 32

/-- A table of addresses to look for, as two of the commands fill it. -/
def addressTable (hashes : List Hash160) : Except Fault (DenseHashtable Hash160 (BitVec 32)) := do
  let t ← start hash160Traits 0 (reservedHash 0x52, default) none
  fill hash160Traits 1 t hashes

/-- The tables of init. -/
def init (cfg : Config) : Except Fault State := do
  let t ← start typedHash160Traits 0 (emptyKey, default) (some deletedKey)
  let addrMap ← t.resize typedHash160Traits (15 * 1000 * 1000)
  let restrictMap ←
    if cfg.restricts ≠ [] then addressTable cfg.restricts
    else pure (noBuckets (reservedHash 0x52, default))
  return ⟨⟨0, [], fun _ => .zero⟩, addrMap, restrictMap, 0⟩

variable (cfg : Config)

/-- Whether the restriction leaves an address out. -/
def leftOut (s : State) (pubKeyHash : Hash160) : Except Fault Bool :=
  if s.restrictMap.size ≠ 0 then do
    let r ← s.restrictMap.find hash160Traits pubKeyHash
    return r.isNone
  else return false

def getAddr (s : State) (pubKeyHash : Hash160) (addrType : UInt8) :
    Except Fault (AddrRef × State) := do
  let i ← s.addrMap.find typedHash160Traits (pubKeyHash, 0)
  match i with
  | some p => return (s.addrMap.valueAt p, s)
  | none =>
    let r := s.pool.alloc
    let old := r.2.cells r.1
    let cell := { old with
      hash := (pubKeyHash, old.hash.2), type := addrType, nbOut := 0, nbIn := 0, sum := 0
      outputVec := if cfg.detailed then some [] else none }
    let q ← s.addrMap.findOrInsert typedHash160Traits cell.hash
    return (r.1, { s with pool := r.2.write r.1 cell, addrMap := q.2.assign q.1 r.1 })

/-- The record is erased and its cell given back. The cell has the bytes of the key: what is
then in a table that did not find the key is not followed. -/
def giveBack (s : State) (addr : AddrRef) : Except Fault State := do
  let e ← s.addrMap.erase typedHash160Traits (s.pool.cells addr).hash
  if e.1 = 0 then .error .danglingKey
  else return { s with addrMap := e.2, pool := s.pool.free addr }

def move (s : State) (script : List UInt8) (upTXHash : HashArg) (outputIndex : Nat)
    (value : Int) (downTXHash : HashArg) (inputIndex : BitVec 64) : Except Fault State :=
  let r := cfg.solveOutputScript script
  if r.scriptType < 0 then return s
  else do
    let out ← leftOut s r.pubKeyHash
    if out then return s
    else do
      let g ← getAddr cfg s r.pubKeyHash r.addrType
      let addr := g.1
      let s := g.2
      let a := (s.pool.cells addr).add s.blockTime value
      if cfg.detailed then
        let output := ⟨s.blockTime, value, inputIndex, BitVec.ofNat 64 outputIndex, upTXHash,
          downTXHash⟩
        return { s with pool := s.pool.write addr (a.pushOutput output) }
      else
        let s := { s with pool := s.pool.write addr a }
        if a.sum = 0 then giveBack s addr else return s

def onCall (s : State) : Call → Except Fault State
  | .startBlock b => return { s with blockTime := cfg.blockTime b }
  | .endOutput _ value txHash outputIndex outputScript _ =>
    move cfg s outputScript txHash outputIndex (toInt64 value) noHash (BitVec.ofInt 64 (-1))
  | .edge value upTXHash outputIndex outputScript _ downTXHash inputIndex _ _ =>
    move cfg s outputScript upTXHash outputIndex (-toInt64 value) downTXHash
      (BitVec.ofNat 64 inputIndex)
  | _ => return s

def run (calls : List Call) : Except Fault State := do
  let s ← init cfg
  calls.foldlM (onCall cfg) s

/-- The value find comes to. -/
def lookup (t : DenseHashtable TypedHash160 AddrRef) (k : TypedHash160) : Option AddrRef :=
  ((t.find typedHash160Traits k).toOption.bind id).map t.valueAt

/-- The state with its table read by find. -/
def State.view (s : State) : AllBalances.State := ⟨s.pool, lookup s.addrMap, s.blockTime⟩

/-- No output is counted under the key of the empty buckets, nor, where records are erased,
under that of the deleted ones. -/
def Unreserved (calls : List Call) : Prop :=
  ∀ c ∈ calls, ∀ h, movedBy cfg c = some h → cfg.Allows h →
    h ≠ reservedHash 0x52 ∧ (cfg.detailed = false → h ≠ reservedHash 0x53)

/-- The tables of a run, with the key that marks the erased records, or none while there are
none: addrMap holds what find comes to, restrictMap the addresses asked for, but for the one
under the key of its empty buckets. -/
structure Sound (mark : Option TypedHash160) (s : State) (n : Nat) : Prop where
  addrs : s.addrMap.Reads typedHash160Traits mark (lookup s.addrMap)
  empty : s.addrMap.emptyval.1 = emptyKey
  deleted : s.addrMap.delkey = some deletedKey
  size : s.addrMap.numElements ≤ n
  restrict : ∀ h, leftOut s h =
    .ok (decide (cfg.restricts ≠ [] ∧ ¬(h ∈ cfg.restricts ∧ h ≠ reservedHash 0x52)))

/-- With `--detailed` no record is ever erased. -/
def eraseMark : Option TypedHash160 := if cfg.detailed then none else some deletedKey

variable {cfg} {d : State} {n : Nat} {h : Hash160} {c : Call} {mark : Option TypedHash160}

theorem reads_lookup {t : DenseHashtable TypedHash160 AddrRef}
    {m : TypedHash160 → Option AddrRef} (ht : t.Reads typedHash160Traits mark m) :
    lookup t = m := by
  funext k
  obtain ⟨r, hrun, hval⟩ := ht.find k
  rw [← hval, lookup, hrun]
  rfl

theorem lookup_eq_none {t : DenseHashtable TypedHash160 AddrRef} {k : TypedHash160}
    (hk : ∀ p, t.find typedHash160Traits k ≠ .ok (some p)) : lookup t k = none := by
  unfold lookup
  cases hfind : t.find typedHash160Traits k with
  | error e => rfl
  | ok r =>
    cases r with
    | none => rfl
    | some p => exact absurd hfind (hk p)

theorem record_of_find (hfind : d.addrMap.find typedHash160Traits (h, 0) = .ok none) :
    d.view.record h = none := by
  refine AllBalances.record_eq_none.mpr (lookup_eq_none fun p hp => ?_)
  rw [hfind] at hp
  nomatch hp

theorem addressTable_spec (hashes : List Hash160) (hlen : hashes.length < 2 ^ 60) :
    ∃ t, addressTable hashes = .ok t ∧ (hashes ≠ [] → t.size ≠ 0) ∧
      ∀ h, ∃ r, t.find hash160Traits h = .ok r ∧
        (r.isSome ↔ h ∈ hashes ∧ h ≠ reservedHash 0x52) := by
  obtain ⟨t₀, hrun₀, hv₀, hr₀, he₀, hd₀, hzero, -⟩ :=
    @DenseHashtable.start_spec Hash160 (BitVec 32) _ hash160Traits 0 (reservedHash 0x52, default)
      none (by decide) nofun
  have hmax : hash160Traits.maxSize = 2 ^ 60 - 1 := rfl
  obtain ⟨t, hrun, hv, hr, he, hsize⟩ := @fill_spec _ _ _ hash160Traits _ _ _ rfl 1 hashes hv₀ hr₀ hd₀
    (by omega) (by omega)
  refine ⟨t, ?_, hsize, ?_⟩
  · unfold addressTable
    rw [bind_ok hrun₀]
    exact hrun
  · intro h
    obtain ⟨r, hfind, hval, -⟩ := find_spec hv hr h
    refine ⟨r, hfind, ?_⟩
    rw [← Option.isSome_map, hval, he₀]
    by_cases hin : h ∈ hashes ∧ h ≠ reservedHash 0x52
    · rw [if_pos hin]
      exact iff_of_true rfl hin
    · rw [if_neg hin]
      exact iff_of_false nofun hin

theorem leftOut_of_table {s : State} (hrestricts : cfg.restricts ≠ [])
    (hsize : s.restrictMap.size ≠ 0)
    (hfind : ∀ h, ∃ r, s.restrictMap.find hash160Traits h = .ok r ∧
      (r.isSome ↔ h ∈ cfg.restricts ∧ h ≠ reservedHash 0x52)) (h : Hash160) :
    leftOut s h =
      .ok (decide (cfg.restricts ≠ [] ∧ ¬(h ∈ cfg.restricts ∧ h ≠ reservedHash 0x52))) := by
  obtain ⟨r, hrun, hr⟩ := hfind h
  unfold leftOut
  rw [if_pos hsize, bind_ok hrun]
  cases r with
  | none =>
    rw [decide_eq_true ⟨hrestricts, fun hin => nomatch hr.mpr hin⟩]
    rfl
  | some p =>
    rw [decide_eq_false fun hne => hne.2 (hr.mp rfl)]
    rfl

/-- Before any block. -/
theorem init_spec (cfg : Config) (hlen : cfg.restricts.length < 2 ^ 60) :
    ∃ d, init cfg = .ok d ∧ Sound cfg none d 0 ∧ Sound cfg (some deletedKey) d 0 ∧
      d.view = AllBalances.start := by
  obtain ⟨t₀, hrun₀, hv₀, hr₀, he₀, hd₀, hzero, -⟩ :=
    @DenseHashtable.start_spec TypedHash160 AddrRef _ typedHash160Traits 0 (emptyKey, default)
      (some deletedKey) (by decide) (by decide)
  obtain ⟨t, hrun, hk⟩ := @resize_spec _ _ _ _ _ _ (15 * 1000 * 1000) hv₀ hr₀ (by omega) (by decide)
  have hele : t.numElements = 0 := Nat.le_zero.mp (hk.elements.trans hzero.le)
  have hdel : t.numDeleted = 0 := by
    have hle := hk.valid.entries_le
    omega
  have hmark : t.delkey = some deletedKey := hk.delkey.trans hd₀
  obtain ⟨hval, hrep⟩ := hk.valid.unmark hdel
  have hnone : t.Reads typedHash160Traits none fun _ => none :=
    ⟨Or.inr ⟨rfl, rfl⟩, hval, hrep _ (hk.map _ hr₀)⟩
  have hsome : t.Reads typedHash160Traits (some deletedKey) fun _ => none := by
    rw [← hmark]
    exact ⟨Or.inl rfl, hk.valid, hk.map _ hr₀⟩
  have hlook := reads_lookup hnone
  have hsound : ∀ mark, t.Reads typedHash160Traits mark (fun _ => none) →
      ∀ m, (∀ h, leftOut ⟨⟨0, [], fun _ => .zero⟩, t, m, 0⟩ h =
        .ok (decide (cfg.restricts ≠ [] ∧ ¬(h ∈ cfg.restricts ∧ h ≠ reservedHash 0x52)))) →
      Sound cfg mark ⟨⟨0, [], fun _ => .zero⟩, t, m, 0⟩ 0 := by
    intro mark hread m hm
    refine ⟨?_, ?_, hmark, hele.le, hm⟩
    · rw [hlook]
      exact hread
    · rw [hk.emptyval, he₀]
  have hview : ∀ m, State.view ⟨⟨0, [], fun _ => .zero⟩, t, m, 0⟩ = AllBalances.start := by
    intro m
    unfold State.view
    rw [hlook]
    rfl
  unfold init
  rw [bind_ok hrun₀, bind_ok hrun]
  by_cases hnil : cfg.restricts = []
  · have hout : ∀ h : Hash160, (.ok false : Except Fault Bool) = .ok
        (decide (cfg.restricts ≠ [] ∧ ¬(h ∈ cfg.restricts ∧ h ≠ reservedHash 0x52))) := by
      intro h
      rw [decide_eq_false fun hne => hne.1 hnil]
    rw [if_neg (not_not_intro hnil)]
    exact ⟨_, rfl, hsound _ hnone _ hout, hsound _ hsome _ hout, hview _⟩
  · obtain ⟨t', hrun', hsize, hfind⟩ := addressTable_spec cfg.restricts hlen
    have hout := fun m => @leftOut_of_table cfg ⟨⟨0, [], m⟩, t, t', 0⟩ hnil (hsize hnil) hfind
    rw [if_pos hnil, bind_ok hrun']
    exact ⟨_, rfl, hsound _ hnone _ (hout _), hsound _ hsome _ (hout _), hview _⟩

/-- The key of an address that is no mark. -/
def Free (mark : Option TypedHash160) (h : Hash160) : Prop :=
  h ≠ reservedHash 0x52 ∧ mark ≠ some (h, 0)

theorem Free.ne_empty (hf : Free mark h) : ((h, 0) : TypedHash160) ≠ emptyKey :=
  fun he => hf.1 (congrArg Prod.fst he)

/-- A change of the table that find sees as one of the map. -/
theorem Sound.table (hs : Sound cfg mark d n) {t : DenseHashtable TypedHash160 AddrRef}
    {m : TypedHash160 → Option AddrRef} (ht : t.Reads typedHash160Traits mark m)
    (he : t.emptyval = d.addrMap.emptyval) (hd : t.delkey = d.addrMap.delkey) {n' : Nat}
    (hn : t.numElements ≤ n') (pool : Pool) :
    Sound cfg mark { d with addrMap := t, pool := pool } n' ∧
      State.view { d with addrMap := t, pool := pool } = ⟨pool, m, d.blockTime⟩ := by
  have hlook := reads_lookup ht
  refine ⟨⟨?_, ?_, hd.trans hs.deleted, hn, hs.restrict⟩, ?_⟩
  · rw [hlook]
    exact ht
  · rw [he]
    exact hs.empty
  · unfold State.view
    rw [hlook]

theorem Sound.next (hs : Sound cfg mark d n) : Sound cfg mark d (n + 1) :=
  ⟨hs.addrs, hs.empty, hs.deleted, Nat.le_succ_of_le hs.size, hs.restrict⟩

theorem getAddr_view (hs : Sound cfg mark d n) (ho : Owned d.view) (hn : n < maxSize)
    (hf : Free mark h) (addrType : UInt8) :
    ∃ d', getAddr cfg d h addrType = .ok ((AllBalances.getAddr cfg d.view h addrType).1, d') ∧
      Sound cfg mark d' (n + 1) ∧
      d'.view = (AllBalances.getAddr cfg d.view h addrType).2 := by
  obtain ⟨r, hfind, hval⟩ := hs.addrs.find (h, 0)
  have hview : d.view.addrMap (h, 0) = r.map d.addrMap.valueAt := hval.symm
  unfold getAddr AllBalances.getAddr
  rw [bind_ok hfind, hview]
  cases r with
  | some p =>
    exact ⟨d, rfl, hs.next, rfl⟩
  | none =>
    have htail : (d.pool.alloc.2.cells d.pool.alloc.1).hash.2 = 0 := by
      rw [AllBalances.Pool.alloc_cells]
      exact ho.tail _
    have hsize := hs.size
    have hempty : ((h, 0) : TypedHash160) ≠ d.addrMap.emptyval.1 := by
      rw [hs.empty]
      exact hf.ne_empty
    unfold maxSize at hn
    obtain ⟨q, t, hrun, hread, he, hd, hele⟩ := hs.addrs.store hempty hf.2 (by omega)
      (show d.addrMap.numElements < 2 ^ 60 - 1 by omega) d.pool.alloc.1
    obtain ⟨hsound, hview'⟩ := hs.table hread he hd (hele.trans (Nat.succ_le_succ hsize))
      (d.pool.alloc.2.write d.pool.alloc.1
        { d.pool.alloc.2.cells d.pool.alloc.1 with
          hash := (h, 0), type := addrType, nbOut := 0, nbIn := 0, sum := 0
          outputVec := if cfg.detailed then some [] else none })
    dsimp only [Option.map_none]
    change ∃ d', (d.addrMap.findOrInsert typedHash160Traits
      (h, (d.pool.alloc.2.cells d.pool.alloc.1).hash.2) >>= _) = _ ∧ _
    rw [htail, bind_ok hrun]
    refine ⟨_, rfl, hsound, ?_⟩
    have htail' : (d.view.pool.alloc.2.cells d.view.pool.alloc.1).hash.2 = 0 := htail
    rw [htail']
    exact hview'

theorem giveBack_view (hs : Sound cfg (some deletedKey) d n) (hf : Free (some deletedKey) h)
    {addr : AddrRef} (hk : d.view.addrMap (h, 0) = some addr)
    (hhash : (d.pool.cells addr).hash = (h, 0)) :
    ∃ d', giveBack d addr = .ok d' ∧ Sound cfg (some deletedKey) d' n ∧
      d'.view = d.view.eraseRecord h addr := by
  have hempty : ((h, 0) : TypedHash160) ≠ d.addrMap.emptyval.1 := by
    rw [hs.empty]
    exact hf.ne_empty
  obtain ⟨t, hrun, hread, he, hdel, hele⟩ := hs.addrs.erase hs.deleted hempty
    fun heq => hf.2 (congrArg some heq)
  have hlook : lookup d.addrMap (h, 0) = some addr := hk
  obtain ⟨hsound, hview⟩ := hs.table hread he hdel (hele.trans_le hs.size) (d.pool.free addr)
  unfold giveBack
  rw [hhash, bind_ok hrun, hlook]
  exact ⟨_, rfl, hsound, hview⟩

theorem getAddr_self {s : AllBalances.State} (ho : Owned s) (cfg : Config) (h : Hash160)
    (addrType : UInt8) : (AllBalances.getAddr cfg s h addrType).2.addrMap (h, 0) =
      some (AllBalances.getAddr cfg s h addrType).1 := by
  unfold AllBalances.getAddr
  cases hk : s.addrMap (h, 0) with
  | some addr => exact hk
  | none =>
    dsimp only
    rw [AllBalances.Pool.alloc_cells, ho.tail]
    exact Function.update_self ..

/-- The sum of the record getAddr finds or makes. -/
theorem getAddr_sum (s : AllBalances.State) (cfg : Config) (h : Hash160) (addrType : UInt8) :
    ((AllBalances.getAddr cfg s h addrType).2.pool.cells
        (AllBalances.getAddr cfg s h addrType).1).sum = ((s.record h).map Addr.sum).getD 0 := by
  unfold AllBalances.getAddr AllBalances.State.record
  cases s.addrMap (h, 0) with
  | some addr => rfl
  | none => simp [AllBalances.Pool.write]

/-- Nothing is erased that was not to be. -/
def Keeps (cfg : Config) (mark : Option TypedHash160) (s : AllBalances.State) (h : Hash160)
    (value : Int) : Prop :=
  mark = some deletedKey ∨ cfg.detailed = true ∨
    ((s.record h).map Addr.sum).getD 0 + BitVec.ofInt 64 value ≠ 0

theorem leftOut_allowed (hs : Sound cfg mark d n) (ha : cfg.Allows h)
    (hne : cfg.restricts = [] ∨ h ≠ reservedHash 0x52) : leftOut d h = .ok false := by
  rw [hs.restrict, decide_eq_false]
  intro hout
  exact hout.2 ⟨ha.resolve_left hout.1, hne.resolve_left hout.1⟩

theorem leftOut_other (hs : Sound cfg mark d n) (ha : ¬cfg.Allows h) : leftOut d h = .ok true := by
  rw [hs.restrict, decide_eq_true]
  obtain ⟨hnil, hmem⟩ := not_or.mp ha
  exact ⟨hnil, fun hin => hmem hin.1⟩

/-- A restriction never lets the key of the empty buckets through. -/
theorem leftOut_emptyKey (hs : Sound cfg mark d n) (hR : cfg.restricts ≠ []) :
    leftOut d (reservedHash 0x52) = .ok true := by
  rw [hs.restrict, decide_eq_true]
  exact ⟨hR, fun hin => hin.2 rfl⟩

section Move
variable {script : List UInt8} {value : Int}

/-! The ways of move, as over the map. -/

theorem move_of_none (hacc : cfg.account script = none) (d : State) (up down : HashArg)
    (outputIndex : Nat) (value : Int) (inputIndex : BitVec 64) :
    move cfg d script up outputIndex value down inputIndex = .ok d :=
  if_pos (AllBalances.account_eq_none.mp hacc)

theorem move_leftOut (hacc : cfg.account script = some h) (hout : leftOut d h = .ok true)
    (up down : HashArg) (outputIndex : Nat) (value : Int) (inputIndex : BitVec 64) :
    move cfg d script up outputIndex value down inputIndex = .ok d := by
  obtain ⟨hneg, rfl⟩ := AllBalances.account_eq_some.mp hacc
  unfold move
  dsimp only
  rw [if_neg hneg, bind_ok hout, if_pos rfl]
  rfl

theorem move_counted (hacc : cfg.account script = some h) (hout : leftOut d h = .ok false)
    {g : AddrRef × State}
    (hget : getAddr cfg d h (cfg.solveOutputScript script).addrType = .ok g) (up down : HashArg)
    (outputIndex : Nat) (value : Int) (inputIndex : BitVec 64) :
    move cfg d script up outputIndex value down inputIndex =
      let a := (g.2.pool.cells g.1).add g.2.blockTime value
      if cfg.detailed then
        .ok { g.2 with pool := g.2.pool.write g.1 (a.pushOutput
          ⟨g.2.blockTime, value, inputIndex, BitVec.ofNat 64 outputIndex, up, down⟩) }
      else if a.sum = 0 then giveBack { g.2 with pool := g.2.pool.write g.1 a } g.1
      else .ok { g.2 with pool := g.2.pool.write g.1 a } := by
  obtain ⟨hneg, rfl⟩ := AllBalances.account_eq_some.mp hacc
  unfold move
  dsimp only
  rw [if_neg hneg, bind_ok hout, if_neg Bool.false_ne_true, bind_ok hget]
  rfl

/-- One move, of an address whose key is no mark. -/
theorem move_view (hs : Sound cfg mark d n) (ho : Owned d.view) (hn : n < maxSize)
    (hf : ∀ h, cfg.account script = some h → cfg.Allows h →
      Free mark h ∧ Keeps cfg mark d.view h value)
    (up down : HashArg) (outputIndex : Nat) (inputIndex : BitVec 64) :
    ∃ d', move cfg d script up outputIndex value down inputIndex = .ok d' ∧
      Sound cfg mark d' (n + 1) ∧
      d'.view = AllBalances.move cfg d.view script up outputIndex value down inputIndex := by
  cases hacc : cfg.account script with
  | none =>
    rw [move_of_none hacc, AllBalances.move_of_none hacc]
    exact ⟨d, rfl, hs.next, rfl⟩
  | some h =>
    by_cases ha : cfg.Allows h
    swap
    · rw [move_leftOut hacc (leftOut_other hs ha), AllBalances.move_leftOut hacc ha]
      exact ⟨d, rfl, hs.next, rfl⟩
    · obtain ⟨hfree, hkeeps⟩ := hf h hacc ha
      obtain ⟨d', hrun, hs', hview⟩ :=
        getAddr_view hs ho hn hfree (cfg.solveOutputScript script).addrType
      have hhash := getAddr_hash ho cfg h (cfg.solveOutputScript script).addrType
      have hk := getAddr_self ho cfg h (cfg.solveOutputScript script).addrType
      have hsum := getAddr_sum d.view cfg h (cfg.solveOutputScript script).addrType
      rw [move_counted hacc (leftOut_allowed hs ha (Or.inr hfree.1)) hrun,
        AllBalances.move_counted hacc ha rfl]
      rw [← hview] at hhash hk hsum ⊢
      dsimp only
      generalize (AllBalances.getAddr cfg d.view h (cfg.solveOutputScript script).addrType).1 =
        addr at *
      have hwrite : ∀ a, Sound cfg mark { d' with pool := d'.pool.write addr a } (n + 1) :=
        fun a => ⟨hs'.addrs, hs'.empty, hs'.deleted, hs'.size, hs'.restrict⟩
      cases hd : cfg.detailed with
      | true => exact ⟨_, rfl, hwrite _, rfl⟩
      | false =>
        rw [if_neg Bool.false_ne_true, if_neg Bool.false_ne_true]
        by_cases h0 : ((d'.pool.cells addr).add d'.blockTime value).sum = 0
        · have hmark : mark = some deletedKey := by
            rcases hkeeps with hmark | hd' | hne
            · exact hmark
            · rw [hd] at hd'
              cases hd'
            · rw [AllBalances.Addr.add_sum] at h0
              rw [← hsum] at hne
              exact absurd h0 hne
          subst hmark
          have hcell : ((d'.pool.write addr ((d'.pool.cells addr).add d'.blockTime value)).cells
              addr).hash = (h, 0) := by
            simp only [AllBalances.Pool.write, Function.update_self, AllBalances.Addr.add_hash]
            exact hhash
          obtain ⟨d'', hrun', hs'', hview'⟩ := giveBack_view (hwrite _) hfree hk hcell
          refine ⟨d'', (if_pos h0).trans hrun', hs'', hview'.trans ?_⟩
          rw [AllBalances.Addr.add_hash, hhash]
          exact (if_pos h0).symm
        · exact ⟨_, if_neg h0, hwrite _, (if_neg h0).symm⟩

/-- A record that is given back takes the record under the key of the deleted buckets along. -/
theorem move_erases (hs : Sound cfg none d n) (ho : Owned d.view) (hd : cfg.detailed = false)
    (hacc : cfg.account script = some h)
    (ha : cfg.Allows h) (h52 : h ≠ reservedHash 0x52) (h53 : h ≠ reservedHash 0x53) {addr : AddrRef}
    (hk : d.view.addrMap (h, 0) = some addr)
    (hzero : ((d.pool.cells addr).add d.blockTime value).sum = 0)
    (up down : HashArg) (outputIndex : Nat) (inputIndex : BitVec 64) :
    ∃ d', move cfg d script up outputIndex value down inputIndex = .ok d' ∧
      d'.addrMap.find typedHash160Traits (h, 0) = .ok none ∧
      d'.addrMap.find typedHash160Traits deletedKey = .ok none := by
  obtain ⟨r, hfind, hval⟩ := hs.addrs.find (h, 0)
  have hlook : lookup d.addrMap (h, 0) = some addr := hk
  rw [hlook] at hval
  cases r with
  | none => cases hval
  | some p =>
    have haddr : d.addrMap.valueAt p = addr := Option.some_inj.mp hval
    have hget : getAddr cfg d h (cfg.solveOutputScript script).addrType = .ok (addr, d) := by
      unfold getAddr
      rw [bind_ok hfind, ← haddr]
      rfl
    have hhash : (d.pool.cells addr).hash = (h, 0) := ho.hash _ _ hk
    have hempty : ((h, 0) : TypedHash160) ≠ d.addrMap.emptyval.1 := by
      rw [hs.empty]
      exact fun he => h52 (congrArg Prod.fst he)
    have hne : deletedKey ≠ (h, 0) := fun he => h53 (congrArg Prod.fst he).symm
    have hcell : ((d.pool.write addr ((d.pool.cells addr).add d.blockTime value)).cells
        addr).hash = (h, 0) := by
      simp only [AllBalances.Pool.write, Function.update_self, AllBalances.Addr.add_hash]
      exact hhash
    obtain ⟨t, herase, hdel, hnum, hemp, htab⟩ := erase_found rfl hs.deleted hfind
    rw [move_counted hacc (leftOut_allowed hs ha (Or.inr h52)) hget]
    dsimp only
    rw [hd, if_neg Bool.false_ne_true, if_pos hzero]
    unfold giveBack
    dsimp only
    rw [hcell, bind_ok herase]
    have hnone : ∀ k, (∀ q, t.find typedHash160Traits k ≠ .ok (some q)) →
        t.find typedHash160Traits k = .ok none := by
      intro k hk
      obtain ⟨r, hr⟩ := hs.addrs.find_ends rfl hempty hfind hemp htab k
      cases r with
      | none => exact hr
      | some q => exact absurd hr (hk q)
    exact ⟨_, rfl,
      hnone _ (hs.addrs.find_erased hne hempty (Option.some_ne_none _).symm hfind hemp htab),
      hnone _ (find_deletedKey hdel (hnum ▸ Nat.succ_pos _))⟩

theorem Sound.find_emptyKey (hs : Sound cfg mark d n) :
    d.addrMap.find typedHash160Traits emptyKey = .ok none := by
  obtain ⟨r, hfind, -⟩ := hs.addrs.find emptyKey
  cases r with
  | none => exact hfind
  | some p =>
    rw [← hs.empty] at hfind
    exact absurd hfind (DenseHashtable.find_emptyKey _ _ p)

theorem getAddr_emptyKey (hs : Sound cfg none d n) (ho : Owned d.view) (hn : n < maxSize)
    (addrType : UInt8) :
    ∃ d', getAddr cfg d (reservedHash 0x52) addrType = .ok (d.pool.alloc.1, d') ∧
      Sound cfg none d' (n + 1) ∧ d'.view.addrMap = d.view.addrMap ∧
      (d'.pool.cells d.pool.alloc.1).sum = 0 := by
  have htail : (d.pool.alloc.2.cells d.pool.alloc.1).hash.2 = 0 := by
    rw [AllBalances.Pool.alloc_cells]
    exact ho.tail _
  have hsize := hs.size
  unfold maxSize at hn
  obtain ⟨p, t, hrun, hread, he, hd, hele⟩ := hs.addrs.store_emptyKey rfl (by omega)
    (show d.addrMap.numElements < 2 ^ 60 - 1 by omega) d.pool.alloc.1
  rw [hs.empty] at hrun
  obtain ⟨hsound, hview⟩ := hs.table hread he hd (hele.trans (Nat.succ_le_succ hsize))
    (d.pool.alloc.2.write d.pool.alloc.1
      { d.pool.alloc.2.cells d.pool.alloc.1 with
        hash := (reservedHash 0x52, 0), type := addrType, nbOut := 0, nbIn := 0, sum := 0
        outputVec := if cfg.detailed then some [] else none })
  refine ⟨_, ?_, hsound, ?_, ?_⟩
  · unfold getAddr
    rw [← emptyKey, bind_ok hs.find_emptyKey]
    dsimp only
    rw [htail, ← emptyKey, bind_ok hrun]
    rfl
  · rw [hview]
    rfl
  · simp [AllBalances.Pool.write]

/-- Before anything is erased, what goes to the key of the empty buckets gets a record that is
not found. -/
theorem move_emptyKey (hs : Sound cfg none d n) (ho : Owned d.view) (hn : n < maxSize)
    (hnil : cfg.restricts = []) (hacc : cfg.account script = some (reservedHash 0x52))
    (hv : BitVec.ofInt 64 value ≠ 0) (up down : HashArg) (outputIndex : Nat)
    (inputIndex : BitVec 64) :
    ∃ d', move cfg d script up outputIndex value down inputIndex = .ok d' ∧
      Sound cfg none d' (n + 1) ∧ d'.view.addrMap = d.view.addrMap := by
  obtain ⟨d', hget, hs', hmap, hsum⟩ :=
    getAddr_emptyKey hs ho hn (cfg.solveOutputScript script).addrType
  have hwrite : ∀ a,
      Sound cfg none { d' with pool := d'.pool.write d.pool.alloc.1 a } (n + 1) :=
    fun a => ⟨hs'.addrs, hs'.empty, hs'.deleted, hs'.size, hs'.restrict⟩
  have hne : ((d'.pool.cells d.pool.alloc.1).add d'.blockTime value).sum ≠ 0 := by
    rw [AllBalances.Addr.add_sum, hsum]
    simpa using hv
  rw [move_counted hacc (leftOut_allowed hs (Or.inl hnil) (Or.inl hnil)) hget]
  dsimp only
  cases hd : cfg.detailed with
  | true => exact ⟨_, rfl, hwrite _, hmap⟩
  | false =>
    rw [if_neg Bool.false_ne_true, if_neg hne]
    exact ⟨_, rfl, hwrite _, hmap⟩

end Move

/-- What a call moves. -/
def movedValue : Call → Int
  | .endOutput _ value _ _ _ _ => toInt64 value
  | .edge value _ _ _ _ _ _ _ _ => -toInt64 value
  | _ => 0

theorem onCall_view (hs : Sound cfg mark d n) (ho : Owned d.view) (hn : n < maxSize)
    (hc : ∀ h, movedBy cfg c = some h → cfg.Allows h →
      Free mark h ∧ Keeps cfg mark d.view h (movedValue c)) :
    ∃ d', onCall cfg d c = .ok d' ∧ Sound cfg mark d' (n + 1) ∧
      d'.view = AllBalances.onCall cfg d.view c := by
  cases c with
  | endOutput => exact move_view hs ho hn hc ..
  | edge => exact move_view hs ho hn hc ..
  | startBlock b =>
    exact ⟨_, rfl, ⟨hs.addrs, hs.empty, hs.deleted, hs.next.size, hs.restrict⟩, rfl⟩
  | _ => exact ⟨d, rfl, hs.next, rfl⟩

theorem onCall_skip (hs : Sound cfg mark d n) (hR : cfg.restricts ≠ [])
    (hc : movedBy cfg c = some (reservedHash 0x52)) : onCall cfg d c = .ok d := by
  have hout := leftOut_emptyKey hs hR
  cases c with
  | endOutput => exact move_leftOut hc hout ..
  | edge => exact move_leftOut hc hout ..
  | _ => nomatch hc

/-- The calls that a restriction does not leave out for the key they come with. -/
def heard (cfg : Config) (calls : List Call) : List Call :=
  calls.filter fun c => movedBy cfg c ≠ some (reservedHash 0x52)

theorem run_append (cfg : Config) (calls : List Call) (c : Call) :
    run cfg (calls ++ [c]) = run cfg calls >>= fun d => onCall cfg d c := by
  unfold run
  cases init cfg with
  | error e => rfl
  | ok d =>
    simp only [bind_ok_eq, List.foldlM_append, List.foldlM_cons, List.foldlM_nil]
    cases List.foldlM (onCall cfg) d calls with
    | error e => rfl
    | ok d' =>
      simp only [bind_ok_eq]
      cases onCall cfg d' c <;> rfl

theorem run_nil (hR : cfg.restricts.length < 2 ^ 60)
    (hmark : mark = none ∨ mark = some deletedKey) :
    ∃ d, run cfg [] = .ok d ∧ Sound cfg mark d 0 ∧ d.view = AllBalances.start := by
  obtain ⟨d, hrun, hnone, hsome, hview⟩ := init_spec cfg hR
  refine ⟨d, ?_, ?_, hview⟩
  · unfold run
    rw [bind_ok hrun]
    rfl
  · cases hmark with
    | inl hm =>
      rw [hm]
      exact hnone
    | inr hm =>
      rw [hm]
      exact hsome

theorem eraseMark_cases (cfg : Config) :
    eraseMark cfg = none ∨ eraseMark cfg = some deletedKey := by
  unfold eraseMark
  cases cfg.detailed with
  | true => exact Or.inl rfl
  | false => exact Or.inr rfl

theorem eraseMark_ne (hd : cfg.detailed = false → h ≠ reservedHash 0x53) :
    eraseMark cfg ≠ some (h, 0) := by
  unfold eraseMark
  cases hdet : cfg.detailed with
  | true => nofun
  | false =>
    intro he
    exact hd hdet (congrArg Prod.fst (Option.some_inj.mp he)).symm

theorem keeps_eraseMark (cfg : Config) (s : AllBalances.State) (h : Hash160) (value : Int) :
    Keeps cfg (eraseMark cfg) s h value := by
  unfold Keeps eraseMark
  cases cfg.detailed with
  | true => exact Or.inr (Or.inl rfl)
  | false => exact Or.inl rfl

/-- A run over the tables is one over the map, but for what a restriction does not let
through. -/
theorem run_heard (hR : cfg.restricts.length < 2 ^ 60) (calls : List Call)
    (hlen : calls.length < 2 ^ 60)
    (hc : ∀ c ∈ calls, ∀ h, movedBy cfg c = some h → cfg.Allows h →
      (cfg.restricts = [] → h ≠ reservedHash 0x52) ∧
        (cfg.detailed = false → h ≠ reservedHash 0x53)) :
    ∃ d, run cfg calls = .ok d ∧ Sound cfg (eraseMark cfg) d calls.length ∧
      d.view = (heard cfg calls).foldl (AllBalances.onCall cfg) AllBalances.start := by
  induction calls using List.reverseRecOn with
  | nil => exact run_nil hR (eraseMark_cases cfg)
  | append_singleton calls c ih =>
    rw [List.length_append, List.length_singleton] at hlen ⊢
    obtain ⟨d, hrun, hs, hview⟩ := ih (by omega)
      fun c' hmem => hc c' (List.mem_append_left _ hmem)
    have hlast := hc c (List.mem_append_right _ List.mem_cons_self)
    have ho : Owned d.view := by
      rw [hview]
      exact owned_run cfg _
    rw [run_append, bind_ok hrun]
    unfold heard at hview ⊢
    rw [List.filter_append, List.foldl_append, ← hview]
    by_cases hskip : cfg.restricts ≠ [] ∧ movedBy cfg c = some (reservedHash 0x52)
    · refine ⟨d, onCall_skip hs hskip.1 hskip.2, hs.next, ?_⟩
      rw [List.filter_cons_of_neg (by simpa using hskip.2)]
      rfl
    · have hfree : ∀ h, movedBy cfg c = some h → cfg.Allows h →
          Free (eraseMark cfg) h ∧ Keeps cfg (eraseMark cfg) d.view h (movedValue c) := by
        intro h hm ha
        refine ⟨⟨fun he => ?_, ?_⟩, ?_⟩
        · by_cases hnil : cfg.restricts = []
          · exact (hlast h hm ha).1 hnil he
          · exact hskip ⟨hnil, he ▸ hm⟩
        · exact eraseMark_ne (hlast h hm ha).2
        · exact keeps_eraseMark ..
      have hne : movedBy cfg c ≠ some (reservedHash 0x52) := by
        intro hm
        by_cases hnil : cfg.restricts = []
        · exact (hlast _ hm (Or.inl hnil)).1 hnil rfl
        · exact hskip ⟨hnil, hm⟩
      obtain ⟨d', hrun', hs', hview'⟩ := onCall_view hs ho (by unfold maxSize; omega) hfree
      refine ⟨d', hrun', hs', ?_⟩
      rw [List.filter_cons_of_pos (by simpa using hne)]
      exact hview'

/-- A run over the tables is one over the map as long as no call comes with a mark, nor
erases what has none. -/
theorem run_keeps (hR : cfg.restricts.length < 2 ^ 60) {calls : List Call}
    (hlen : calls.length < 2 ^ 60) (hmark : mark = none ∨ mark = some deletedKey)
    (hc : Steps (fun pre c => ∀ h, movedBy cfg c = some h → cfg.Allows h → Free mark h ∧
      Keeps cfg mark (pre.foldl (AllBalances.onCall cfg) AllBalances.start) h
        (movedValue c)) calls) :
    ∃ d, run cfg calls = .ok d ∧ Sound cfg mark d calls.length ∧
      d.view = calls.foldl (AllBalances.onCall cfg) AllBalances.start := by
  induction calls using List.reverseRecOn with
  | nil => exact run_nil hR hmark
  | append_singleton calls c ih =>
    rw [List.length_append, List.length_singleton] at hlen ⊢
    obtain ⟨hpre, hlast⟩ := steps_append.mp hc
    obtain ⟨d, hrun, hs, hview⟩ := ih (by omega) hpre
    have ho : Owned d.view := by
      rw [hview]
      exact owned_run cfg _
    rw [← hview] at hlast
    obtain ⟨d', hrun', hs', hview'⟩ := onCall_view hs ho (by unfold maxSize; omega) hlast
    rw [run_append, bind_ok hrun, List.foldl_append, ← hview]
    exact ⟨d', hrun', hs', hview'⟩

theorem Unreserved.of_moved {calls : List Call} (hall : ∀ c ∈ calls, ∀ h ∈ movedBy cfg c,
    h ≠ reservedHash 0x52 ∧ h ≠ reservedHash 0x53) : Unreserved cfg calls :=
  fun c hc h hm _ => ⟨(hall c hc h hm).1, fun _ => (hall c hc h hm).2⟩

theorem Unreserved.initial {calls pre : List Call} (hu : Unreserved cfg calls)
    (hp : pre <+: calls) : Unreserved cfg pre := fun c hc => hu c (hp.subset hc)

/-- A run over the tables that counts nothing under a reserved key is a run over the map. -/
theorem run_view (hR : cfg.restricts.length < 2 ^ 60) {calls : List Call}
    (hlen : calls.length < 2 ^ 60) (hu : Unreserved cfg calls) :
    ∃ d, run cfg calls = .ok d ∧ Sound cfg (eraseMark cfg) d calls.length ∧
      d.view = calls.foldl (AllBalances.onCall cfg) AllBalances.start := by
  refine run_keeps hR hlen (eraseMark_cases cfg) ?_
  intro pre c hpre h hm ha
  obtain ⟨h52, h53⟩ := hu c (hpre.subset (List.mem_append_right _ List.mem_cons_self)) h hm ha
  exact ⟨⟨h52, eraseMark_ne h53⟩, keeps_eraseMark ..⟩

section Empty
variable {d' : State}

theorem getAddr_emptyval {addrType : UInt8} {g : AddrRef × State}
    (hg : getAddr cfg d h addrType = .ok g) : g.2.addrMap.emptyval = d.addrMap.emptyval := by
  obtain ⟨i, -, hrest⟩ := of_bind_ok hg
  cases i with
  | some p =>
    cases hrest
    rfl
  | none =>
    obtain ⟨q, hins, hret⟩ := of_bind_ok hrest
    cases hret
    have he := findOrInsert_emptyval hins
    exact he

theorem giveBack_emptyval {addr : AddrRef} (hg : giveBack d addr = .ok d') :
    d'.addrMap.emptyval = d.addrMap.emptyval := by
  obtain ⟨e, herase, hret⟩ := of_bind_ok hg
  split at hret
  · nomatch hret
  · cases hret
    have he := erase_emptyval herase
    exact he

theorem move_emptyval {script : List UInt8} {up down : HashArg} {outputIndex : Nat} {value : Int}
    {inputIndex : BitVec 64}
    (hm : move cfg d script up outputIndex value down inputIndex = .ok d') :
    d'.addrMap.emptyval = d.addrMap.emptyval := by
  unfold move at hm
  dsimp only at hm
  split at hm
  · cases hm
    rfl
  · obtain ⟨out, -, hrest⟩ := of_bind_ok hm
    split at hrest
    · cases hrest
      rfl
    · obtain ⟨g, hget, hrest⟩ := of_bind_ok hrest
      have he := getAddr_emptyval hget
      split at hrest
      · cases hrest
        exact he
      · split at hrest
        · exact (giveBack_emptyval hrest).trans he
        · cases hrest
          exact he

theorem onCall_emptyval (hc : onCall cfg d c = .ok d') :
    d'.addrMap.emptyval = d.addrMap.emptyval := by
  cases c with
  | endOutput => exact move_emptyval hc
  | edge => exact move_emptyval hc
  | _ =>
    cases hc
    rfl

/-- Whatever comes by, nothing is found under the key of the empty buckets. -/
theorem run_emptyKey (hR : cfg.restricts.length < 2 ^ 60) {calls : List Call}
    (hrun : run cfg calls = .ok d) : d.view.record (reservedHash 0x52) = none := by
  have hkey : d.addrMap.emptyval.1 = emptyKey := by
    induction calls using List.reverseRecOn generalizing d with
    | nil =>
      obtain ⟨d₀, hinit, hs, -⟩ := init_spec cfg hR
      unfold run at hrun
      rw [bind_ok hinit] at hrun
      cases hrun
      exact hs.empty
    | append_singleton calls c ih =>
      rw [run_append] at hrun
      obtain ⟨d₁, hrun₁, hcall⟩ := of_bind_ok hrun
      rw [onCall_emptyval hcall]
      exact ih hrun₁
  refine AllBalances.record_eq_none.mpr (lookup_eq_none ?_)
  rw [← emptyKey, ← hkey]
  exact find_emptyKey _ _

end Empty

/-- The table has room for all the keys that come by. -/
def Fits (cfg : Config) (calls : List Call) : Prop :=
  cfg.restricts.length < 2 ^ 60 ∧ calls.length < 2 ^ 60

end Blockparser.AddrTables
