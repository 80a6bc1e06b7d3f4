import Blockparser.Address
import Blockparser.Pools
import Blockparser.Replay
import Blockparser.Script

/-! The sqldump command: the rows it writes into the four tables. -/
namespace Blockparser.SQLDump
open Bytes Trace MemoryManager Segments Blockparser.Parser Format Utxo Decode Upstream Transaction
  Chain Replay Script

structure BlockRow where
  id : BitVec 64
  hash : Hash256
  time : BitVec 64

structure TxRow where
  id : BitVec 64
  hash : Hash256
  blockID : BitVec 64

structure OutputRow where
  id : BitVec 64
  dstAddress : List UInt8
  value : BitVec 64
  txID : BitVec 64
  offset : BitVec 32

structure InputRow where
  id : BitVec 64
  outputID : BitVec 64
  txID : BitVec 64
  offset : BitVec 32

/-- `height` and `data` are what startBlock reads of a block, `address` is the buffer of
hash160ToAddr before it is written, and the `n`-th call of allocHash256 returns the cell
`allocHash256 n`. -/
structure Config where
  cutoffBlock : BitVec 64
  height : BlockRef → BitVec 64
  data : BlockRef → Memory
  solveOutputScript : List UInt8 → Solved
  address : Memory
  allocHash256 : Nat → BitVec 64

/-- `cells` is what the cells of allocHash256 hold, and `outputMap` has them as keys, with
the last one that was added in front. `closed` says that wrapup has closed the files. -/
structure State where
  closed : Bool
  txID : BitVec 64
  blkID : BitVec 64
  inputID : BitVec 64
  outputID : BitVec 64
  nbCells : Nat
  cells : BitVec 64 → Hash256
  outputMap : List (BitVec 64 × BitVec 64)
  blocks : List BlockRow
  transactions : List TxRow
  outputs : List OutputRow
  inputs : List InputRow

def init : State := ⟨false, -1, 0, 0, 0, 0, fun _ => nullHash, [], [], [], [], []⟩

/-- A file that is closed can be neither written nor closed. -/
def State.open (s : State) : Except Fault Unit := if s.closed then .error .undefined else .ok ()

/-- What is behind a pointer that may be null. -/
def deref (h : HashArg) : Except Fault Hash256 := h.value.elim (.error .undefined) .ok

/-- `h32[0] ^= oi` on the bytes of a hash. -/
def xorIndex (h : Hash256) (oi : BitVec 32) : Hash256 :=
  ⟨leBytes 4 (leNat (h.1.take 4) ^^^ oi.toNat) ++ h.1.drop 4, by simp [h.2]⟩

/-- Keys are compared by what their cells hold. -/
def State.find (s : State) (h : Hash256) : Option (BitVec 64) :=
  (s.outputMap.find? fun e => s.cells e.1 = h).map Prod.snd

/-- `outputMap[h] = id`: a key that is there keeps its cell. -/
def put (cells : BitVec 64 → Hash256) (outputMap : List (BitVec 64 × BitVec 64)) (h id : BitVec 64) :
    List (BitVec 64 × BitVec 64) :=
  if outputMap.any fun e => cells e.1 = cells h then
    outputMap.map fun e => if cells e.1 = cells h then (e.1, id) else e
  else (h, id) :: outputMap

variable (env : Env) (cfg : Config)

def wrapup (s : State) : Except Fault State := do
  s.open
  pure { s with closed := true }

def blockRow (b : BlockRef) : BlockRow where
  id := cfg.height b - 1
  hash := env.sha256Twice (read (cfg.data b) 0 80)
  time := BitVec.ofNat 64 (load (cfg.data b) 68 4)

/-- The files are closed when the block is behind the one of `--atBlock`. -/
def cutoff (s : State) (b : BlockRef) : Except Fault State :=
  if 0 ≤ cfg.cutoffBlock.toInt ∧ cfg.cutoffBlock.toInt < (cfg.height b).toInt then wrapup s else .ok s

def startBlock (s : State) (b : BlockRef) : Except Fault State := do
  let s ← cutoff cfg s b
  s.open
  pure { s with blkID := cfg.height b - 1, blocks := s.blocks ++ [blockRow env cfg b] }

def startTX (s : State) (hash : HashArg) : Except Fault State := do
  s.open
  let hash ← deref hash
  let txID := s.txID + 1
  pure { s with txID := txID, transactions := s.transactions ++ [⟨txID, hash, s.blkID⟩] }

/-- The address of an output, or an X. -/
def addressOf (outputScript : List UInt8) : List UInt8 :=
  let r := cfg.solveOutputScript outputScript
  if 0 ≤ r.scriptType then
    Address.hash160ToAddr env.sha256 env.coin cfg.address r.pubKeyHash false r.addrType
  else [0x58, 0]

def endOutput (s : State) (value : Nat) (txHash : HashArg) (outputIndex : Nat)
    (outputScript : List UInt8) : Except Fault State := do
  s.open
  let oi := BitVec.ofNat 32 outputIndex
  let row := ⟨s.outputID, addressOf env cfg outputScript, BitVec.ofNat 64 value, s.txID, oi⟩
  let txHash ← deref txHash
  let h := cfg.allocHash256 s.nbCells
  let cells := Function.update s.cells h (xorIndex txHash oi)
  pure { s with
    outputs := s.outputs ++ [row]
    nbCells := s.nbCells + 1
    cells := cells
    outputMap := put cells s.outputMap h s.outputID
    outputID := s.outputID + 1 }

def edge (s : State) (upTXHash : HashArg) (outputIndex inputIndex : Nat) : Except Fault State := do
  let upTXHash ← deref upTXHash
  match s.find (xorIndex upTXHash (BitVec.ofNat 32 outputIndex)) with
  | none => .error (.errFatal "unconnected input")
  | some src =>
    s.open
    pure { s with
      inputs := s.inputs ++ [⟨s.inputID, src, s.txID, BitVec.ofNat 32 inputIndex⟩]
      inputID := s.inputID + 1 }

def onCall (s : State) : Call → Except Fault State
  | .startBlock b => startBlock env cfg s b
  | .startTX _ hash => startTX s hash
  | .endOutput _ value txHash outputIndex outputScript _ =>
    endOutput env cfg s value txHash outputIndex outputScript
  | .edge _ upTXHash outputIndex _ _ _ inputIndex _ _ => edge s upTXHash outputIndex inputIndex
  | .wrapup => wrapup s
  | _ => pure s

def step (r : Except Fault State) (c : Call) : Except Fault State := r.bind fun s => onCall env cfg s c

/-- The number of an output in the chain, its transaction and its index there. -/
structure OutSite where
  place : Nat
  tx : Tx
  index : Nat
  output : TxOutput

/-- The outputs of some transactions, the first of which is the `n`-th. -/
def outSites : Nat → List Tx → List OutSite
  | _, [] => []
  | n, t :: ts => t.outputs.mapIdx (OutSite.mk n t) ++ outSites (n + 1) ts

def txRow (n : Nat) (x : BlockRef × Tx) : TxRow :=
  ⟨BitVec.ofNat 64 n, txid env x.2, cfg.height x.1 - 1⟩

def outputRow (m : Nat) (o : OutSite) : OutputRow where
  id := BitVec.ofNat 64 m
  dstAddress := addressOf env cfg o.output.script
  value := BitVec.ofNat 64 o.output.value.toNat
  txID := BitVec.ofNat 64 o.place
  offset := BitVec.ofNat 32 o.index

/-- What the cell of an output holds. -/
def keyOf (o : OutSite) : Hash256 := xorIndex (txid env o.tx) (BitVec.ofNat 32 o.index)

/-- The row of an input names the row of the output the input names, among those of `outs`,
and the row of its own transaction. -/
def Refers (outs : List OutSite) (x : Site) (row : InputRow) : Prop :=
  row.txID = BitVec.ofNat 64 x.earlier.length ∧ row.offset = BitVec.ofNat 32 x.index ∧
    ∃ j o, outs[j]? = some o ∧ txid env o.tx = x.input.prevHash ∧
      o.index = x.input.prevIndex.toNat ∧ row.outputID = BitVec.ofNat 64 j

/-- Consecutive from 0. -/
def Numbered (ids : List (BitVec 64)) : Prop := ids = (List.range ids.length).map (BitVec.ofNat 64)

/-- The map has an entry for each output so far. -/
structure Maps (outs : List OutSite) (s : State) : Prop where
  nbCells : s.nbCells = outs.length
  outputID : s.outputID = BitVec.ofNat 64 outs.length
  cells : ∀ (m : Nat) o, outs[m]? = some o → s.cells (cfg.allocHash256 m) = keyOf env o
  entries : s.outputMap =
    ((List.range outs.length).map fun m => (cfg.allocHash256 m, BitVec.ofNat 64 m)).reverse

/-- The tables after the transactions `xs`. -/
structure Tables (xs : List (BlockRef × Tx)) (s : State) : Prop where
  isOpen : s.closed = false
  txID : s.txID + 1 = BitVec.ofNat 64 xs.length
  inputID : s.inputID = BitVec.ofNat 64 s.inputs.length
  transactions : s.transactions = xs.mapIdx (txRow env cfg)
  outputs : s.outputs = (outSites 0 (txsOf xs)).mapIdx (outputRow env cfg)
  maps : Maps env cfg (outSites 0 (txsOf xs)) s
  inputs : List.Forall₂ (Refers env (outSites 0 (txsOf xs))) (sites [] (txsOf xs)) s.inputs
  numbered : Numbered (s.inputs.map InputRow.id)

/-- No two ids agree on their last 28 bytes, and the indices of outputs have 32 bits. -/
structure Separate (ts : List Tx) : Prop where
  ids : ∀ t ∈ ts, ∀ u ∈ ts, (txid env t).1.drop 4 = (txid env u).1.drop 4 → txid env t = txid env u
  indices : ∀ t ∈ ts, t.outputs.length ≤ 2 ^ 32

variable {env cfg} {ts us : List Tx} {t u : Tx} {n m j : Nat} {o : OutSite} {outs : List OutSite}
  {s : State} {xs pre : List (BlockRef × Tx)}

theorem State.open_ok (h : s.closed = false) : s.open = .ok () := by
  rw [State.open, h]
  rfl

theorem outSites_append (n : Nat) (ts us : List Tx) :
    outSites n (ts ++ us) = outSites n ts ++ outSites (n + ts.length) us := by
  induction ts generalizing n with
  | nil => rfl
  | cons t ts ih =>
    rw [List.cons_append, outSites, outSites, ih, List.append_assoc, List.length_cons, Nat.add_assoc,
      Nat.add_comm 1]

theorem mem_outSites : o ∈ outSites n ts ↔ n ≤ o.place ∧ ts[o.place - n]? = some o.tx ∧
    o.tx.outputs[o.index]? = some o.output := by
  induction ts generalizing n with
  | nil => simp [outSites]
  | cons t ts ih =>
    rw [outSites, List.mem_append, ih, List.mem_mapIdx]
    constructor
    · rintro (⟨i, hi, rfl⟩ | ⟨hle, hplace, hout⟩)
      · simp [hi]
      · refine ⟨by omega, ?_, hout⟩
        rw [← hplace, show o.place - n = o.place - (n + 1) + 1 by omega, List.getElem?_cons_succ]
    · rintro ⟨hle, hplace, hout⟩
      cases hd : o.place - n with
      | zero =>
        rw [hd] at hplace
        cases hplace
        obtain ⟨hi, hget⟩ := List.getElem?_eq_some_iff.mp hout
        refine Or.inl ⟨o.index, hi, ?_⟩
        rw [hget, show n = o.place by omega]
      | succ d =>
        rw [hd, List.getElem?_cons_succ] at hplace
        refine Or.inr ⟨by omega, ?_, hout⟩
        rwa [show o.place - (n + 1) = d by omega]

theorem xorIndex_inj {h h' : Hash256} {i i' : BitVec 32} (heq : xorIndex h i = xorIndex h' i') :
    h.1.drop 4 = h'.1.drop 4 ∧ (h = h' → i = i') := by
  have hbytes := congrArg Subtype.val heq
  obtain ⟨hword, hrest⟩ := List.append_inj hbytes (by simp)
  refine ⟨hrest, ?_⟩
  rintro rfl
  have hlt : ∀ k : BitVec 32, leNat (h.1.take 4) ^^^ k.toNat < 256 ^ 4 := by
    intro k
    have h4 := leNat_lt (h.1.take 4)
    rw [List.length_take, h.2] at h4
    have : (256 : Nat) ^ 4 = 2 ^ 32 := by norm_num
    rw [this]
    exact Nat.xor_lt_two_pow (by simpa using h4) k.isLt
  have hnat := congrArg leNat hword
  rw [leNat_leBytes 4 _ (hlt i), leNat_leBytes 4 _ (hlt i')] at hnat
  have hxor := congrArg (leNat (h.1.take 4) ^^^ ·) hnat
  simp only [← Nat.xor_assoc, Nat.xor_self, Nat.zero_xor] at hxor
  exact BitVec.eq_of_toNat_eq hxor

theorem index_lt (hsep : Separate env ts) (ho : o ∈ outSites n ts) : o.index < 2 ^ 32 := by
  obtain ⟨-, htx, hout⟩ := mem_outSites.mp ho
  exact lt_of_lt_of_le (List.getElem?_eq_some_iff.mp hout).1 (hsep.indices _ (List.mem_of_getElem? htx))

/-- The keys of the outputs do not collide. -/
theorem keyOf_inj {o' : OutSite} (hsep : Separate env ts) (ho : o ∈ outSites 0 ts)
    (ho' : o' ∈ outSites 0 ts) (heq : keyOf env o = keyOf env o') :
    txid env o.tx = txid env o'.tx ∧ o.index = o'.index := by
  obtain ⟨-, htx, -⟩ := mem_outSites.mp ho
  obtain ⟨-, htx', -⟩ := mem_outSites.mp ho'
  obtain ⟨hrest, hword⟩ := xorIndex_inj heq
  have hid := hsep.ids _ (List.mem_of_getElem? htx) _ (List.mem_of_getElem? htx') hrest
  have hnat := congrArg BitVec.toNat (hword hid)
  rw [BitVec.toNat_ofNat, BitVec.toNat_ofNat, Nat.mod_eq_of_lt (index_lt hsep ho),
    Nat.mod_eq_of_lt (index_lt hsep ho')] at hnat
  exact ⟨hid, hnat⟩

theorem Maps.find (hm : Maps env cfg outs s) (ho : o ∈ outs) :
    ∃ j o', outs[j]? = some o' ∧ keyOf env o' = keyOf env o ∧
      s.find (keyOf env o) = some (BitVec.ofNat 64 j) := by
  have hcell : ∀ m, m < outs.length → ∃ o', outs[m]? = some o' ∧
      s.cells (cfg.allocHash256 m) = keyOf env o' := fun m hlt =>
    ⟨_, List.getElem?_eq_getElem hlt, hm.cells m _ (List.getElem?_eq_getElem hlt)⟩
  have hentry : ∀ e, e ∈ s.outputMap ↔
      ∃ m < outs.length, (cfg.allocHash256 m, BitVec.ofNat 64 m) = e := by
    intro e
    rw [hm.entries, List.mem_reverse, List.mem_map]
    simp only [List.mem_range]
  cases hf : s.outputMap.find? fun e => s.cells e.1 = keyOf env o with
  | none =>
    obtain ⟨m, hget⟩ := List.mem_iff_getElem?.mp ho
    have hmem := (hentry _).mpr ⟨m, (List.getElem?_eq_some_iff.mp hget).1, rfl⟩
    have hno := List.find?_eq_none.mp hf _ hmem
    simp [hm.cells m o hget] at hno
  | some e =>
    obtain ⟨m, hlt, rfl⟩ := (hentry e).mp (List.mem_of_find?_eq_some hf)
    obtain ⟨o', ho', hcells⟩ := hcell m hlt
    have hkey := List.find?_some hf
    rw [decide_eq_true_eq, hcells] at hkey
    refine ⟨m, o', ho', hkey, ?_⟩
    rw [State.find, hf]
    rfl

theorem numbered_snoc {ids : List (BitVec 64)} (h : Numbered ids) :
    Numbered (ids ++ [BitVec.ofNat 64 ids.length]) := by
  unfold Numbered at h ⊢
  rw [List.length_append, List.length_singleton, List.range_succ, List.map_append, ← h]
  rfl

theorem Numbered.nodup {ids : List (BitVec 64)} (h : Numbered ids) (hlen : ids.length ≤ 2 ^ 64) :
    ids.Nodup := by
  rw [h]
  refine List.Nodup.map_on ?_ List.nodup_range
  intro i hi j hj heq
  rw [List.mem_range] at hi hj
  have hnat := congrArg BitVec.toNat heq
  rwa [BitVec.toNat_ofNat, BitVec.toNat_ofNat, Nat.mod_eq_of_lt (by omega),
    Nat.mod_eq_of_lt (by omega)] at hnat

/-- The edge of an input finds the row of the output it names. -/
theorem edge_ok {x : Site} {e : EdgeData} (hsep : Separate env ts) (hm : Maps env cfg (outSites 0 ts) s)
    (hopen : s.closed = false) (hname : Names env x e) (hearlier : ∀ u ∈ x.earlier, u ∈ ts)
    (htxID : s.txID = BitVec.ofNat 64 x.earlier.length) :
    ∃ row, edge s ⟨none, e.upTXHash⟩ e.outputIndex e.inputIndex =
        .ok { s with inputs := s.inputs ++ [row], inputID := s.inputID + 1 } ∧
      row.id = s.inputID ∧ Refers env (outSites 0 ts) x row := by
  obtain ⟨u, hu, hid, out, hout, hdata, -, hindex⟩ := hname
  rw [TxOutput.data, OutputData.mk.injEq] at hdata
  obtain ⟨-, hup, hoi, -⟩ := hdata
  obtain ⟨d, hd⟩ := List.mem_iff_getElem?.mp (hearlier u hu)
  have hsite : OutSite.mk d u x.input.prevIndex.toNat out ∈ outSites 0 ts :=
    mem_outSites.mpr ⟨Nat.zero_le d, hd, hout⟩
  obtain ⟨j, o, hj, hkey, hfind⟩ := hm.find hsite
  obtain ⟨hoid, hoindex⟩ := keyOf_inj hsep (List.mem_of_getElem? hj) hsite hkey
  refine ⟨⟨s.inputID, BitVec.ofNat 64 j, s.txID, BitVec.ofNat 32 e.inputIndex⟩, ?_, rfl, htxID, ?_,
    j, o, hj, hoid.trans hid, hoindex, rfl⟩
  · have hkey' : keyOf env ⟨d, u, x.input.prevIndex.toNat, out⟩ =
        xorIndex (txid env u) (BitVec.ofNat 32 x.input.prevIndex.toNat) := rfl
    rw [hkey'] at hfind
    rw [edge, hup, hoi]
    show (match s.find (xorIndex (txid env u) (BitVec.ofNat 32 x.input.prevIndex.toNat)) with
      | none => _
      | some src => _) = _
    rw [hfind]
    rw [State.open_ok hopen]
    rfl
  · rw [hindex]

/-- What an edge says to the command. -/
def onEdge (r : Except Fault State) (e : EdgeData) : Except Fault State :=
  r.bind fun s => edge s ⟨none, e.upTXHash⟩ e.outputIndex e.inputIndex

theorem edges_run {xs : List Site} {es : List EdgeData} (hsep : Separate env ts)
    (hm : Maps env cfg (outSites 0 ts) s) (hopen : s.closed = false)
    (hnames : List.Forall₂ (Names env) xs es) (hearlier : ∀ x ∈ xs, x.earlier = ts)
    (htxID : s.txID = BitVec.ofNat 64 ts.length) (hinputID : s.inputID = BitVec.ofNat 64 s.inputs.length)
    (hnum : Numbered (s.inputs.map InputRow.id)) :
    ∃ rows inputID, es.foldl onEdge (.ok s) =
        .ok { s with inputs := s.inputs ++ rows, inputID := inputID } ∧
      inputID = BitVec.ofNat 64 (s.inputs ++ rows).length ∧
      List.Forall₂ (Refers env (outSites 0 ts)) xs rows ∧
      Numbered ((s.inputs ++ rows).map InputRow.id) := by
  induction hnames generalizing s with
  | nil => exact ⟨[], s.inputID, by simp, by simpa using hinputID, List.Forall₂.nil, by simpa using hnum⟩
  | @cons x e xs es hname _ ih =>
    have hx := hearlier x (List.mem_cons_self ..)
    obtain ⟨row, hedge, hid, hrefers⟩ := edge_ok hsep hm hopen hname (fun u hu => hx ▸ hu) (hx ▸ htxID)
    have hnum' : Numbered ((s.inputs ++ [row]).map InputRow.id) := by
      have hsnoc := numbered_snoc hnum
      rw [List.length_map, ← hinputID, ← hid] at hsnoc
      simpa using hsnoc
    have hinputID' : s.inputID + 1 = BitVec.ofNat 64 (s.inputs ++ [row]).length := by
      rw [hinputID, List.length_append, List.length_singleton, BitVec.ofNat_add]
      rfl
    have hm' : Maps env cfg (outSites 0 ts)
        { s with inputs := s.inputs ++ [row], inputID := s.inputID + 1 } :=
      ⟨hm.nbCells, hm.outputID, hm.cells, hm.entries⟩
    obtain ⟨rows, inputID, hrun, hlast, hall, hnums⟩ := ih hm' hopen
      (fun y hy => hearlier y (List.mem_cons_of_mem x hy)) htxID hinputID' hnum'
    have hfirst : onEdge (.ok s) e = .ok { s with inputs := s.inputs ++ [row], inputID := s.inputID + 1 } :=
      hedge
    refine ⟨row :: rows, inputID, ?_, ?_, List.Forall₂.cons hrefers hall, ?_⟩
    · rw [List.foldl_cons, hfirst, hrun]
      simp
    · simpa using hlast
    · simpa using hnums

/-- Everything but the outputs and their map. -/
def State.rest (s : State) : Bool × BitVec 64 × BitVec 64 × BitVec 64 × List BlockRow × List TxRow ×
    List InputRow := (s.closed, s.txID, s.blkID, s.inputID, s.blocks, s.transactions, s.inputs)

/-- The rows and the map of the outputs so far. -/
structure Outputs (env : Env) (cfg : Config) (outs : List OutSite) (s : State) : Prop where
  rows : s.outputs = outs.mapIdx (outputRow env cfg)
  maps : Maps env cfg outs s

/-- No entry has the key of a new output, so that it gets one of its own. -/
theorem Maps.put (hm : Maps env cfg outs s) (hfresh : ∀ o' ∈ outs, keyOf env o' ≠ keyOf env o)
    (hcells : ∀ m < outs.length, cfg.allocHash256 m ≠ cfg.allocHash256 outs.length) :
    put (Function.update s.cells (cfg.allocHash256 s.nbCells) (keyOf env o)) s.outputMap
      (cfg.allocHash256 s.nbCells) s.outputID =
        (cfg.allocHash256 s.nbCells, s.outputID) :: s.outputMap := by
  refine if_neg ?_
  rw [Bool.not_eq_true, List.any_eq_false]
  intro e he
  rw [hm.entries, List.mem_reverse, List.mem_map] at he
  obtain ⟨m, hlt, rfl⟩ := he
  rw [List.mem_range] at hlt
  have hget := List.getElem?_eq_getElem hlt
  have hne : cfg.allocHash256 m ≠ cfg.allocHash256 s.nbCells := by
    rw [hm.nbCells]
    exact hcells m hlt
  rw [Function.update_self, Function.update_of_ne hne, hm.cells m _ hget, decide_eq_true_eq]
  exact hfresh _ (List.mem_of_getElem? hget)

theorem endOutput_ok (hs : Outputs env cfg outs s) (hopen : s.closed = false)
    (htxID : s.txID = BitVec.ofNat 64 o.place)
    (hfresh : ∀ o' ∈ outs, keyOf env o' ≠ keyOf env o)
    (hcells : ∀ m < outs.length, cfg.allocHash256 m ≠ cfg.allocHash256 outs.length) (h : HashArg)
    (hh : h.value = some (txid env o.tx)) :
    ∃ s', endOutput env cfg s o.output.value.toNat h o.index o.output.script = .ok s' ∧
      Outputs env cfg (outs ++ [o]) s' ∧ s'.rest = s.rest := by
  have hm := hs.maps
  have hput := hm.put hfresh hcells
  have hrow : (⟨s.outputID, addressOf env cfg o.output.script, BitVec.ofNat 64 o.output.value.toNat,
      s.txID, BitVec.ofNat 32 o.index⟩ : OutputRow) = outputRow env cfg outs.length o := by
    rw [outputRow, hm.outputID, htxID]
  have hrun : endOutput env cfg s o.output.value.toNat h o.index o.output.script = .ok { s with
      outputs := s.outputs ++ [outputRow env cfg outs.length o]
      nbCells := s.nbCells + 1
      cells := Function.update s.cells (cfg.allocHash256 s.nbCells) (keyOf env o)
      outputMap := (cfg.allocHash256 s.nbCells, s.outputID) :: s.outputMap
      outputID := s.outputID + 1 } := by
    rw [← hrow]
    rw [← hput]
    simp only [endOutput, State.open_ok hopen, deref, hh]
    rfl
  refine ⟨_, hrun, ⟨?_, ?_, ?_, ?_, ?_⟩, rfl⟩
  · rw [List.mapIdx_concat, ← hs.rows]
  · rw [List.length_append, ← hm.nbCells]
    rfl
  · show s.outputID + 1 = _
    rw [hm.outputID, List.length_append, List.length_singleton, BitVec.ofNat_add]
    rfl
  · intro m o' ho'
    dsimp only
    rw [hm.nbCells]
    by_cases hlt : m < outs.length
    · rw [List.getElem?_append_left hlt] at ho'
      rw [Function.update_of_ne (hcells m hlt)]
      exact hm.cells m o' ho'
    · rw [List.getElem?_append_right (Nat.le_of_not_lt hlt), List.getElem?_singleton] at ho'
      split at ho'
      · rename_i hz
        cases ho'
        rw [show m = outs.length by omega, Function.update_self]
      · cases ho'
  · show (cfg.allocHash256 s.nbCells, s.outputID) :: s.outputMap = _
    rw [List.length_append, List.length_singleton, List.range_succ, List.map_append,
      List.reverse_append, ← hm.entries, hm.nbCells, hm.outputID]
    rfl

/-- What endOutput says to the command. -/
def onOutput (env : Env) (cfg : Config) (r : Except Fault State) (d : OutputData) : Except Fault State :=
  r.bind fun s => endOutput env cfg s d.value ⟨none, d.txHash⟩ d.outputIndex d.outputScript

/-- Different calls of allocHash256 return different cells: none is given back, and there
is one for each output of the transactions. -/
def FreshCells (cfg : Config) (ts : List Tx) : Prop :=
  Set.InjOn cfg.allocHash256 {i | i < (ts.flatMap fun t => t.outputs).length}

theorem outSites_length (n : Nat) (ts : List Tx) :
    (outSites n ts).length = (ts.flatMap fun t => t.outputs).length := by
  induction ts generalizing n with
  | nil => rfl
  | cons t ts ih => rw [outSites, List.length_append, List.length_mapIdx, ih, List.flatMap_cons, List.length_append]

theorem outputs_run {os : List TxOutput} {k : Nat} (hsep : Separate env ts) (hcells : FreshCells cfg ts)
    (htx : ts[n]? = some t) (hos : t.outputs.drop k = os) (hs : Outputs env cfg outs s)
    (hopen : s.closed = false) (htxID : s.txID = BitVec.ofNat 64 n)
    (hmem : ∀ o ∈ outs, o ∈ outSites 0 ts)
    (hfresh : ∀ o ∈ outs, txid env o.tx ≠ txid env t ∨ o.index < k)
    (hlen : outs.length + os.length ≤ (outSites 0 ts).length) :
    ∃ s', (os.mapIdx fun i o => TxOutput.data o (txid env t) (k + i)).foldl (onOutput env cfg) (.ok s) =
        .ok s' ∧
      Outputs env cfg (outs ++ os.mapIdx fun i o => OutSite.mk n t (k + i) o) s' ∧ s'.rest = s.rest := by
  induction os generalizing k outs s with
  | nil => exact ⟨s, rfl, by simpa using hs, rfl⟩
  | cons o os ih =>
    have hget : t.outputs[k]? = some o := by
      have hzero := congrArg (·[0]?) hos
      simpa using hzero
    have hrest : t.outputs.drop (k + 1) = os := by
      rw [← List.drop_drop, hos]
      rfl
    have hsite : OutSite.mk n t k o ∈ outSites 0 ts := mem_outSites.mpr ⟨Nat.zero_le n, htx, hget⟩
    have hkey : ∀ o' ∈ outs, keyOf env o' ≠ keyOf env (OutSite.mk n t k o) := by
      intro o' ho' heq
      obtain ⟨hid, hindex⟩ := keyOf_inj hsep (hmem o' ho') hsite heq
      cases hfresh o' ho' with
      | inl hne => exact hne hid
      | inr hlt => exact absurd (hindex ▸ hlt) (lt_irrefl _)
    rw [List.length_cons] at hlen
    have hnew : ∀ m < outs.length, cfg.allocHash256 m ≠ cfg.allocHash256 outs.length := by
      intro m hm heq
      rw [outSites_length] at hlen
      have hm' : m ∈ {i | i < (ts.flatMap fun t => t.outputs).length} := by
        show m < _
        omega
      have hout' : outs.length ∈ {i | i < (ts.flatMap fun t => t.outputs).length} := by
        show outs.length < _
        omega
      exact absurd (hcells hm' hout' heq) (Nat.ne_of_lt hm)
    obtain ⟨s₁, hrun, hs₁, hsame⟩ := endOutput_ok (o := ⟨n, t, k, o⟩) hs hopen htxID hkey hnew
      ⟨none, some (txid env t)⟩ rfl
    have hsame' := hsame
    simp only [State.rest, Prod.mk.injEq] at hsame'
    have hmem' : ∀ o' ∈ outs ++ [OutSite.mk n t k o], o' ∈ outSites 0 ts := by
      intro o' ho'
      cases List.mem_append.mp ho' with
      | inl h => exact hmem o' h
      | inr h =>
        rw [List.mem_singleton.mp h]
        exact hsite
    have hfresh' : ∀ o' ∈ outs ++ [OutSite.mk n t k o],
        txid env o'.tx ≠ txid env t ∨ o'.index < k + 1 := by
      intro o' ho'
      cases List.mem_append.mp ho' with
      | inl h => exact (hfresh o' h).imp_right Nat.lt_succ_of_lt
      | inr h =>
        rw [List.mem_singleton.mp h]
        exact Or.inr (Nat.lt_succ_self k)
    obtain ⟨s', hruns, hs', hrest'⟩ := ih hrest hs₁ (hsame'.1.trans hopen) (hsame'.2.1.trans htxID)
      hmem' hfresh' (by rw [List.length_append, List.length_singleton]; omega)
    have hshift : ∀ i, k + 1 + i = k + (i + 1) := fun i => by omega
    simp only [hshift] at hruns hs'
    refine ⟨s', ?_, ?_, hrest'.trans hsame⟩
    · have hfirst : onOutput env cfg (.ok s) (TxOutput.data o (txid env t) (k + 0)) = .ok s₁ := hrun
      rw [List.mapIdx_cons, List.foldl_cons, hfirst]
      exact hruns
    · rw [List.mapIdx_cons, ← List.singleton_append, ← List.append_assoc]
      exact hs'

theorem step_isInput {c : Call} (hc : isInput c = true) (r : Except Fault State) :
    step env cfg r c = (edgeData c).elim r (onEdge r) := by
  cases c with
  | edge => rfl
  | startInputs | endInputs | startInput | endInput => cases r <;> rfl
  | _ => cases hc

theorem step_isOutput {c : Call} (hc : isOutput c = true) (r : Except Fault State) :
    step env cfg r c = (outputData c).elim r (onOutput env cfg r) := by
  cases c with
  | endOutput => rfl
  | startOutputs | endOutputs | startOutput => cases r <;> rfl
  | _ => cases hc

theorem inputSites_earlier {x : Site} {i : Nat} {ins : List TxInput}
    (hx : x ∈ inputSites ts t i ins) : x.earlier = ts ∧ x.tx = t := by
  induction ins generalizing i with
  | nil => cases hx
  | cons y ins ih =>
    rw [inputSites] at hx
    split at hx
    · exact ih hx
    · cases List.mem_cons.mp hx with
      | inl h =>
        rw [h]
        exact ⟨rfl, rfl⟩
      | inr h => exact ih h

theorem Refers.append {x : Site} {row : InputRow} (h : Refers env outs x row) (more : List OutSite) :
    Refers env (outs ++ more) x row := by
  obtain ⟨htx, hoffset, j, o, hj, hrest⟩ := h
  refine ⟨htx, hoffset, j, o, ?_, hrest⟩
  rw [List.getElem?_append_left (List.getElem?_eq_some_iff.mp hj).1]
  exact hj

/-- Inside the transaction `x` after `pre`, with the inputs `ins` and the outputs `outs` so far. -/
structure During (env : Env) (cfg : Config) (pre : List (BlockRef × Tx)) (x : BlockRef × Tx)
    (ins : List Site) (outs : List OutSite) (s : State) : Prop where
  isOpen : s.closed = false
  txID : s.txID = BitVec.ofNat 64 pre.length
  blkID : s.blkID = cfg.height x.1 - 1
  inputID : s.inputID = BitVec.ofNat 64 s.inputs.length
  transactions : s.transactions = (pre ++ [x]).mapIdx (txRow env cfg)
  outputs : Outputs env cfg outs s
  inputs : List.Forall₂ (Refers env outs) ins s.inputs
  numbered : Numbered (s.inputs.map InputRow.id)

theorem Tables.startTX {x : BlockRef × Tx} {h : HashArg} (hs : Tables env cfg pre s)
    (hblk : s.blkID = cfg.height x.1 - 1) (hid : h.value = some (txid env x.2)) :
    ∃ s', SQLDump.startTX s h = .ok s' ∧
      During env cfg pre x (sites [] (txsOf pre)) (outSites 0 (txsOf pre)) s' := by
  have hrun : SQLDump.startTX s h = .ok { s with
      txID := s.txID + 1
      transactions := s.transactions ++ [⟨s.txID + 1, txid env x.2, s.blkID⟩] } := by
    simp only [SQLDump.startTX, State.open_ok hs.isOpen, deref, hid]
    rfl
  have hrow : (⟨s.txID + 1, txid env x.2, s.blkID⟩ : TxRow) = txRow env cfg pre.length x := by
    rw [hs.txID, hblk]
    rfl
  refine ⟨_, hrun, hs.isOpen, hs.txID, hblk, hs.inputID, ?_, ⟨hs.outputs, ?_⟩, hs.inputs, hs.numbered⟩
  · rw [hrow, List.mapIdx_concat, ← hs.transactions]
  · exact ⟨hs.maps.nbCells, hs.maps.outputID, hs.maps.cells, hs.maps.entries⟩

theorem During.inputs_run {x : BlockRef × Tx} {h : HashArg} (hsep : Separate env (txsOf pre))
    (hv : ValidChain env (txsOf pre ++ x.2 :: us)) (hid : h.value = some (txid env x.2)) (p : Ptr)
    (hs : During env cfg pre x (sites [] (txsOf pre)) (outSites 0 (txsOf pre)) s) :
    ∃ s', (inCalls env.coin (edgeCall h) (ledger ((txsOf pre).map (entryOf env))) x.2 p).foldl
        (step env cfg) (.ok s) = .ok s' ∧
      During env cfg pre x (sites [] (txsOf (pre ++ [x]))) (outSites 0 (txsOf pre)) s' := by
  have hlen : (txsOf pre).length = pre.length := List.length_map _
  obtain ⟨hnames, -⟩ := txCalls_data hid hv p
  rw [← inCalls_data] at hnames
  obtain ⟨rows, inputID, hrun, hinputID, hrefers, hnum⟩ := edges_run hsep hs.outputs.maps hs.isOpen
    hnames (fun y hy => (inputSites_earlier hy).1) (hlen ▸ hs.txID) hs.inputID hs.numbered
  refine ⟨{ s with inputs := s.inputs ++ rows, inputID := inputID }, ?_, hs.isOpen, hs.txID, hs.blkID,
    hinputID, hs.transactions, ⟨hs.outputs.rows, ?_⟩, ?_, hnum⟩
  · rw [foldl_filterMap fun c hc r => step_isInput
      (isInput_of_mem (fun _ _ _ _ => isEdge_edgeCall h _ _ _) hc) r]
    exact hrun
  · have hm := hs.outputs.maps
    exact ⟨hm.nbCells, hm.outputID, hm.cells, hm.entries⟩
  · have hsites : sites [] (txsOf (pre ++ [x])) =
        sites [] (txsOf pre) ++ inputSites (txsOf pre) x.2 0 x.2.inputs := by
      rw [txsOf, List.map_append, sites_append]
      exact congrArg _ (List.append_nil _)
    rw [hsites]
    exact List.rel_append hs.inputs hrefers

theorem During.outputs_run {x : BlockRef × Tx} {h : HashArg} {ins : List Site}
    (hts : ts = txsOf pre ++ x.2 :: us) (hv : ValidChain env ts) (hsep : Separate env ts)
    (hcells : FreshCells cfg ts) (hid : h.value = some (txid env x.2)) (p : Ptr)
    (hs : During env cfg pre x ins (outSites 0 (txsOf pre)) s) :
    ∃ s', (outCalls env.coin h x.2 p).foldl (step env cfg) (.ok s) = .ok s' ∧
      During env cfg pre x ins (outSites 0 (txsOf (pre ++ [x]))) s' := by
  have hlen : (txsOf pre).length = pre.length := List.length_map _
  have hsnoc : outSites 0 (txsOf (pre ++ [x])) = outSites 0 (txsOf pre) ++
      x.2.outputs.mapIdx fun i o => OutSite.mk pre.length x.2 (0 + i) o := by
    rw [txsOf, List.map_append, outSites_append, Nat.zero_add, hlen]
    simp [outSites]
  have hall : outSites 0 ts = outSites 0 (txsOf (pre ++ [x])) ++ outSites (pre.length + 1) us := by
    have hsplit : ts = txsOf (pre ++ [x]) ++ us := by simp [hts, txsOf]
    rw [hsplit, outSites_append]
    simp [txsOf]
  have hmem : ∀ o ∈ outSites 0 (txsOf pre), o ∈ outSites 0 ts := by
    intro o ho
    rw [hall, hsnoc]
    exact List.mem_append_left _ (List.mem_append_left _ ho)
  have hfresh : ∀ o ∈ outSites 0 (txsOf pre), txid env o.tx ≠ txid env x.2 ∨ o.index < 0 := by
    intro o ho
    obtain ⟨-, htx, -⟩ := mem_outSites.mp ho
    exact Or.inl (txid_ne (hts ▸ hv) (List.mem_of_getElem? htx))
  have htx : ts[pre.length]? = some x.2 := by
    rw [hts, List.getElem?_append_right hlen.le, hlen, Nat.sub_self]
    rfl
  have hle : (outSites 0 (txsOf pre)).length + x.2.outputs.length ≤ (outSites 0 ts).length := by
    rw [hall, hsnoc, List.length_append, List.length_append, List.length_mapIdx]
    exact Nat.le_add_right _ _
  obtain ⟨s', hrun, hs', hrest⟩ := SQLDump.outputs_run hsep hcells htx (List.drop_zero) hs.outputs
    hs.isOpen hs.txID hmem hfresh hle
  simp only [State.rest, Prod.mk.injEq] at hrest
  obtain ⟨hopen, htxID, hblkID, hinputID, -, htransactions, hinputs⟩ := hrest
  refine ⟨s', ?_, hopen.trans hs.isOpen, htxID.trans hs.txID, hblkID.trans hs.blkID, ?_, ?_, ?_, ?_, ?_⟩
  · rw [foldl_filterMap fun c hc r => step_isOutput (isOutput_of_mem hc) r, outCalls_data env.coin hid]
    simpa using hrun
  · rw [hinputID, hinputs]
    exact hs.inputID
  · rw [htransactions]
    exact hs.transactions
  · rwa [hsnoc]
  · rw [hinputs, hsnoc]
    exact hs.inputs.imp fun y row hr => hr.append _
  · rw [hinputs]
    exact hs.numbered

/-- One more transaction of the chain, in the block that was started last. -/
theorem tx_run {x : BlockRef × Tx} {h : HashArg} (hts : ts = txsOf pre ++ x.2 :: us)
    (hv : ValidChain env ts) (hsep : Separate env ts) (hcells : FreshCells cfg ts)
    (hs : Tables env cfg pre s) (hblk : s.blkID = cfg.height x.1 - 1)
    (hid : h.value = some (txid env x.2)) (p : Ptr) :
    ∃ s', (txCalls env.coin (edgeCall h) h (ledger ((txsOf pre).map (entryOf env))) x.2 p).foldl
        (step env cfg) (.ok s) = .ok s' ∧
      Tables env cfg (pre ++ [x]) s' ∧ s'.blkID = cfg.height x.1 - 1 := by
  have hsep' : Separate env (txsOf pre) := by
    subst hts
    exact ⟨fun t ht u hu => hsep.ids t (List.mem_append_left _ ht) u (List.mem_append_left _ hu),
      fun t ht => hsep.indices t (List.mem_append_left _ ht)⟩
  obtain ⟨s₁, hstart, hs₁⟩ := hs.startTX hblk hid
  obtain ⟨s₂, hin, hs₂⟩ := hs₁.inputs_run hsep' (hts ▸ hv) hid p
  obtain ⟨s₃, hout, hs₃⟩ := hs₂.outputs_run hts hv hsep hcells hid p
  refine ⟨s₃, ?_, ⟨hs₃.isOpen, ?_, hs₃.inputID, hs₃.transactions, hs₃.outputs.rows, hs₃.outputs.maps,
    hs₃.inputs, hs₃.numbered⟩, hs₃.blkID⟩
  · have hfirst : step env cfg (.ok s) (.startTX p h) = .ok s₁ := hstart
    have hbefore : (txInit env.coin (edgeCall h) h (ledger ((txsOf pre).map (entryOf env))) x.2 p).foldl
        (step env cfg) (.ok s) = .ok s₃ := by
      rw [txInit, List.foldl_cons, hfirst, List.foldl_append, hin, hout]
    rw [txCalls_eq, List.foldl_append, hbefore]
    rfl
  · rw [hs₃.txID, List.length_append, List.length_singleton, BitVec.ofNat_add]
    rfl

/-- The tables between the transactions, with the id of the block that was started last. -/
def Holding (env : Env) (cfg : Config) (cur : Option BlockRef) (xs : List (BlockRef × Tx))
    (r : Except Fault State) : Prop :=
  ∃ s, r = .ok s ∧ Tables env cfg xs s ∧ ∀ b, cur = some b → s.blkID = cfg.height b - 1

theorem startBlock_ok (hcut : cfg.cutoffBlock.toInt < 0) (hopen : s.closed = false) (b : BlockRef) :
    startBlock env cfg s b = .ok { s with
      blkID := cfg.height b - 1
      blocks := s.blocks ++ [blockRow env cfg b] } := by
  have hno : ¬(0 ≤ cfg.cutoffBlock.toInt ∧ cfg.cutoffBlock.toInt < (cfg.height b).toInt) :=
    fun h => absurd h.1 (not_le.mpr hcut)
  simp only [startBlock, cutoff, if_neg hno]
  show s.open >>= _ = _
  rw [State.open_ok hopen]
  rfl

theorem sql_steps (data : BlockRef → Memory) (hcut : cfg.cutoffBlock.toInt < 0)
    (hv : ValidChain env (txsOf xs)) (hsep : Separate env (txsOf xs)) (hcells : FreshCells cfg (txsOf xs)) :
    Steps env data edgeCall (step env cfg) (Holding env cfg) (fun _ _ => True) xs where
  weaken _ _ _ _ := trivial
  startBlock := by
    rintro cur b pre r ⟨s, rfl, hs, -⟩
    refine ⟨_, startBlock_ok hcut hs.isOpen b, ?_, ?_⟩
    · exact ⟨hs.isOpen, hs.txID, hs.inputID, hs.transactions, hs.outputs,
        ⟨hs.maps.nbCells, hs.maps.outputID, hs.maps.cells, hs.maps.entries⟩, hs.inputs, hs.numbered⟩
    · intro c hc
      cases hc
      rfl
  startTXs := by
    rintro cur p pre r ⟨s, rfl, hs⟩
    exact ⟨s, rfl, hs⟩
  endTXs := by
    rintro cur p pre r ⟨s, rfl, hs⟩
    exact ⟨s, rfl, hs⟩
  endBlock := by
    rintro cur b pre r ⟨s, rfl, hs⟩
    exact ⟨s, rfl, hs⟩
  tx := by
    intro b pre t post cell p hxs _
    have hall : txsOf xs = txsOf pre ++ t :: txsOf post := by simp [hxs, txsOf]
    have hinit : ∀ c ∈ txInit env.coin (edgeCall (txArg env t cell)) (txArg env t cell)
        (ledger ((txsOf pre).map (entryOf env))) t p, isEndTX c = false :=
      fun c => not_isEndTX fun _ _ _ _ => isEdge_edgeCall _ _ _ _
    rw [txCalls_eq]
    refine Keeps.segment hinit rfl (fun _ _ => trivial) ?_ fun _ _ _ _ => trivial
    rintro r ⟨s, rfl, hs, hblk⟩
    obtain ⟨s', hrun, hs', hblk'⟩ := tx_run (x := (b, t)) hall hv hsep hcells hs (hblk b rfl)
      (h := txArg env t cell) rfl p
    rw [txCalls_eq] at hrun
    refine ⟨s', hrun, hs', ?_⟩
    intro c hc
    cases hc
    exact hblk'

theorem bind_ok {α β : Type} {a : Except Fault α} {f : α → Except Fault β} {r : β}
    (h : a >>= f = .ok r) : ∃ x, a = .ok x ∧ f x = .ok r := by
  cases a with
  | error e => cases h
  | ok x => exact ⟨x, rfl, h⟩

/-- Only startBlock writes into the table of the blocks. -/
theorem onCall_blocks {c : Call} {s' : State} (h : onCall env cfg s c = .ok s') :
    s'.blocks = s.blocks ++ ((startRef c).map (blockRow env cfg)).toList := by
  cases c with
  | startBlock b =>
    obtain ⟨s₁, hcut, hrun⟩ := bind_ok h
    obtain ⟨-, -, hrun⟩ := bind_ok hrun
    cases hrun
    have hsame : s₁.blocks = s.blocks := by
      unfold cutoff at hcut
      split at hcut
      · obtain ⟨-, -, hclose⟩ := bind_ok hcut
        cases hclose
        rfl
      · cases hcut
        rfl
    simp [startRef, hsame]
  | startTX p hash =>
    obtain ⟨-, -, hrun⟩ := bind_ok h
    obtain ⟨id, -, hrun⟩ := bind_ok hrun
    cases hrun
    exact (List.append_nil _).symm
  | endOutput p value txHash =>
    obtain ⟨-, -, hrun⟩ := bind_ok h
    obtain ⟨id, -, hrun⟩ := bind_ok hrun
    cases hrun
    exact (List.append_nil _).symm
  | edge value up =>
    obtain ⟨id, -, hrun⟩ := bind_ok h
    split at hrun
    · cases hrun
    · obtain ⟨-, -, hrun⟩ := bind_ok hrun
      cases hrun
      exact (List.append_nil _).symm
  | wrapup =>
    obtain ⟨-, -, hrun⟩ := bind_ok h
    cases hrun
    exact (List.append_nil _).symm
  | _ =>
    cases h
    exact (List.append_nil _).symm

theorem foldl_error (w : List Call) (f : Fault) :
    w.foldl (step env cfg) (.error f) = .error f := List.foldl_fixed' (fun _ => rfl) w

theorem blocks_run (w : List Call) {s' : State} (h : w.foldl (step env cfg) (.ok s) = .ok s') :
    s'.blocks = s.blocks ++ (w.filterMap startRef).map (blockRow env cfg) := by
  induction w generalizing s with
  | nil =>
    cases h
    exact (List.append_nil _).symm
  | cons c w ih =>
    have hstep : step env cfg (.ok s) c = onCall env cfg s c := rfl
    rw [List.foldl_cons, hstep] at h
    cases hc : onCall env cfg s c with
    | error f =>
      rw [hc, foldl_error] at h
      cases h
    | ok s₁ =>
      rw [hc] at h
      rw [ih h, onCall_blocks hc, List.append_assoc]
      congr 1
      cases hr : startRef c with
      | none => rw [List.filterMap_cons_none hr]; rfl
      | some b => rw [List.filterMap_cons_some hr]; rfl

theorem tables_init : Tables env cfg [] init where
  isOpen := rfl
  txID := by decide
  inputID := rfl
  transactions := rfl
  outputs := rfl
  maps := ⟨rfl, rfl, fun m o ho => (nomatch ho), rfl⟩
  inputs := List.Forall₂.nil
  numbered := rfl

/-- The run lemma: after the calls of a valid chain the tables are those of its transactions. -/
theorem tables_run {data : BlockRef → Memory} (bs : List (Block env.coin data))
    (hcut : cfg.cutoffBlock.toInt < 0) (hv : ValidChain env (chain bs)) (hsep : Separate env (chain bs))
    (hcells : FreshCells cfg (chain bs)) :
    ∃ s, (runCalls env edgeCall noEntries bs).foldl (step env cfg) (.ok init) = .ok s ∧
      Tables env cfg (placed bs) s ∧ s.blocks = bs.map fun b => blockRow env cfg b.ref := by
  rw [← txsOf_placed] at hv hsep hcells
  have hrun := runCalls_keeps (sql_steps data hcut hv hsep hcells) bs [] rfl
  obtain ⟨cur, s, hs, htables, -⟩ := hrun.last (.ok init)
    ⟨none, init, rfl, tables_init, fun b hb => nomatch hb⟩
  have hs' : (runCalls env edgeCall noEntries bs).foldl (step env cfg) (.ok init) = .ok s := hs
  refine ⟨s, hs', htables, ?_⟩
  have hchain : ValidChain env ([] ++ chain bs) := by rwa [txsOf_placed] at hv
  have hstarts : (runCalls env edgeCall noEntries bs).filterMap startRef = bs.map Block.ref :=
    (runCalls_data bs hchain).2.2
  rw [blocks_run _ hs', hstarts, List.map_map]
  rfl

/-- Each row refers to rows that exist and that are about the right things. `w` are the calls
of the run over the blocks `bs`. -/
structure Integrity {data : BlockRef → Memory} (env : Env) (cfg : Config)
    (bs : List (Block env.coin data)) (w : List Call) (s : State) : Prop where
  blockIDs : (s.blocks.map BlockRow.id).Nodup
  txIDs : Numbered (s.transactions.map TxRow.id) ∧ (s.transactions.map TxRow.id).Nodup
  outputIDs : Numbered (s.outputs.map OutputRow.id) ∧ (s.outputs.map OutputRow.id).Nodup
  inputIDs : Numbered (s.inputs.map InputRow.id) ∧ (s.inputs.map InputRow.id).Nodup
  blocks : List.Forall₂ (fun b row => row.hash = env.sha256Twice (read (cfg.data b.ref) 0 80)) bs
    s.blocks
  transactions : List.Forall₂ (fun x row => row.hash = txid env x.2 ∧
    ∃ q ∈ bs.zip s.blocks, q.1.ref = x.1 ∧ row.blockID = q.2.id) (placed bs) s.transactions
  outputs : List.Forall₂ (fun d row =>
    ∃ q ∈ s.transactions, d.txHash = some q.hash ∧ row.txID = q.id) (w.filterMap outputData) s.outputs
  inputs : List.Forall₂ (fun e row =>
    (∃ q ∈ (w.filterMap outputData).zip s.outputs, q.1.txHash = e.upTXHash ∧
      q.1.outputIndex = e.outputIndex ∧ row.outputID = q.2.id) ∧
    ∃ q ∈ s.transactions, e.downTXHash = some q.hash ∧ row.txID = q.id) (w.filterMap edgeData) s.inputs

theorem forall₂_mapIdx {α β : Type} {R : α → β → Prop} {l : List α} {g : Nat → α → β}
    (h : ∀ i a, l[i]? = some a → R a (g i a)) : List.Forall₂ R l (l.mapIdx g) := by
  induction l generalizing g with
  | nil => exact List.Forall₂.nil
  | cons a l ih =>
    rw [List.mapIdx_cons]
    exact List.Forall₂.cons (h 0 a rfl) (ih fun i b hb => h (i + 1) b hb)

theorem forall₂_through {α β γ : Type} {R : α → β → Prop} {S : α → γ → Prop} {T : β → γ → Prop}
    {l : List α} {bs : List β} {cs : List γ} (hR : List.Forall₂ R l bs) (hS : List.Forall₂ S l cs)
    (h : ∀ a ∈ l, ∀ b c, R a b → S a c → T b c) : List.Forall₂ T bs cs := by
  induction hR generalizing cs with
  | nil =>
    cases hS
    exact List.Forall₂.nil
  | @cons a b l bs hab _ ih =>
    cases hS with
    | cons hac hS =>
      exact List.Forall₂.cons (h a (List.mem_cons_self ..) b _ hab hac)
        (ih hS fun a' ha' => h a' (List.mem_cons_of_mem a ha'))

theorem mem_zip_mapIdx {α β γ : Type} {l : List α} {f : α → β} {g : Nat → α → γ} {i : Nat} {a : α}
    (h : l[i]? = some a) : (f a, g i a) ∈ (l.map f).zip (l.mapIdx g) := by
  refine List.mem_iff_getElem?.mpr ⟨i, ?_⟩
  rw [List.getElem?_zip_eq_some]
  simp [h]

theorem outSites_data (n : Nat) (ts : List Tx) :
    (ts.flatMap fun t => t.outputs.mapIdx fun i o => TxOutput.data o (txid env t) i) =
      (outSites n ts).map fun o => TxOutput.data o.output (txid env o.tx) o.index := by
  induction ts generalizing n with
  | nil => rfl
  | cons t ts ih =>
    rw [List.flatMap_cons, outSites, List.map_append, ← ih]
    have hhead : (t.outputs.mapIdx (OutSite.mk n t)).map
        (fun o => TxOutput.data o.output (txid env o.tx) o.index) =
          t.outputs.mapIdx fun i o => TxOutput.data o (txid env t) i := by
      refine List.ext_getElem? fun i => ?_
      rw [List.getElem?_map, List.getElem?_mapIdx, List.getElem?_mapIdx, Option.map_map]
      rfl
    rw [hhead]

theorem sites_place {earlier : List Tx} {x : Site} (hx : x ∈ sites earlier ts) :
    (earlier ++ ts)[x.earlier.length]? = some x.tx := by
  induction ts generalizing earlier with
  | nil => cases hx
  | cons t ts ih =>
    cases List.mem_append.mp hx with
    | inl h =>
      obtain ⟨hearlier, htx⟩ := inputSites_earlier h
      rw [hearlier, htx, List.getElem?_append_right (le_refl _), Nat.sub_self]
      rfl
    | inr h =>
      have hrest := ih h
      rwa [List.append_assoc] at hrest

theorem FreshCells.few (h : FreshCells cfg ts) : (ts.flatMap fun t => t.outputs).length ≤ 2 ^ 64 := by
  have hcard := Finset.card_le_card_of_injOn (s := Finset.range (ts.flatMap fun t => t.outputs).length)
    (t := Finset.range (2 ^ 64)) (fun i => (cfg.allocHash256 i).toNat)
    (fun i _ => Finset.mem_coe.mpr (Finset.mem_range.mpr (cfg.allocHash256 i).isLt)) ?_
  · rwa [Finset.card_range, Finset.card_range] at hcard
  · intro i hi j hj heq
    rw [Finset.coe_range] at hi hj
    exact h hi hj (BitVec.eq_of_toNat_eq heq)

/-- A transaction has an output. -/
theorem length_le_outputs (h : ∀ t ∈ ts, t.outputs ≠ []) :
    ts.length ≤ (ts.flatMap fun t => t.outputs).length := by
  induction ts with
  | nil => exact Nat.zero_le _
  | cons t ts ih =>
    have hpos := List.length_pos_iff.mpr (h t (List.mem_cons_self ..))
    have hrest := ih fun u hu => h u (List.mem_cons_of_mem t hu)
    rw [List.flatMap_cons, List.length_append, List.length_cons]
    omega

theorem inputSites_spends (i : Nat) (ins : List TxInput) :
    (inputSites ts t i ins).map (fun x => (x.input.prevHash, x.input.prevIndex.toNat)) =
      (ins.filter fun x => x.prevHash ≠ nullHash).map fun x => (x.prevHash, x.prevIndex.toNat) := by
  induction ins generalizing i with
  | nil => rfl
  | cons x ins ih =>
    rw [inputSites]
    by_cases hx : x.prevHash = nullHash
    · rw [if_pos hx, ih, List.filter_cons_of_neg (by simpa using hx)]
    · rw [if_neg hx, List.map_cons, ih, List.filter_cons_of_pos (by simpa using hx), List.map_cons]

theorem sites_spent (us ts : List Tx) :
    (sites us ts).map (fun x => (x.input.prevHash, x.input.prevIndex.toNat)) = spent ts := by
  induction ts generalizing us with
  | nil => rfl
  | cons t ts ih =>
    rw [sites, List.map_append, inputSites_spends, ih]
    exact (List.flatMap_cons (f := spendsOf)).symm

/-- Different inputs name different outputs. -/
theorem sites_le_outputs (hv : ValidChain env ts) :
    (sites [] ts).length ≤ (ts.flatMap fun t => t.outputs).length := by
  have hnodup : (spent ts).Nodup := by
    have honce := hv.once
    rwa [spent_eq] at honce
  have hsub : spent ts ⊆ (outSites 0 ts).map fun o => (txid env o.tx, o.index) := by
    intro k hk
    obtain ⟨t, ht, hkt⟩ := List.mem_flatMap.mp hk
    obtain ⟨x, hx, rfl⟩ := List.mem_map.mp hkt
    obtain ⟨hx, hn⟩ := List.mem_filter.mp hx
    obtain ⟨pre, post, rfl⟩ := List.append_of_mem ht
    obtain ⟨u, hu, hid, hlt⟩ := named hv hx (by simpa using hn)
    obtain ⟨d, hd⟩ := List.mem_iff_getElem?.mp (List.mem_append_left (t :: post) hu)
    refine List.mem_map.mpr ⟨⟨d, u, x.prevIndex.toNat, u.outputs[x.prevIndex.toNat]⟩, ?_, ?_⟩
    · exact mem_outSites.mpr ⟨Nat.zero_le d, hd, List.getElem?_eq_getElem hlt⟩
    · rw [hid]
  have hlen := (List.subperm_of_subset hnodup hsub).length_le
  rwa [← sites_spent [], List.length_map, List.length_map, outSites_length] at hlen

theorem numbered_mapIdx {α ρ : Type} {l : List α} {row : Nat → α → ρ} {id : ρ → BitVec 64}
    (h : ∀ i a, id (row i a) = BitVec.ofNat 64 i) : Numbered ((l.mapIdx row).map id) := by
  refine List.ext_getElem (by simp) ?_
  intro i h₁ h₂
  simp [h]

theorem exists_txRow (cfg : Config) (htx : (txsOf xs)[n]? = some t) : ∃ q ∈ xs.mapIdx (txRow env cfg),
    q.hash = txid env t ∧ q.id = BitVec.ofNat 64 n := by
  rw [txsOf, List.getElem?_map, Option.map_eq_some_iff] at htx
  obtain ⟨x, hx, rfl⟩ := htx
  refine ⟨txRow env cfg n x, List.mem_of_getElem? (i := n) ?_, rfl, rfl⟩
  rw [List.getElem?_mapIdx, hx]
  rfl

section
variable {data : BlockRef → Memory} {bs : List (Block env.coin data)}

theorem blockIDs_nodup (hheight : ∀ (i : Nat) b, bs[i]? = some b →
    (cfg.height b.ref).toInt = (i + 1 : Nat)) :
    ((bs.map fun b => blockRow env cfg b.ref).map BlockRow.id).Nodup := by
  rw [List.map_map, List.nodup_iff_getElem?_ne_getElem?]
  intro i j hij hj heq
  rw [List.length_map] at hj
  have hi := hij.trans hj
  have hgi := hheight i _ (List.getElem?_eq_getElem hi)
  have hgj := hheight j _ (List.getElem?_eq_getElem hj)
  rw [List.getElem?_map, List.getElem?_map, List.getElem?_eq_getElem hi, List.getElem?_eq_getElem hj,
    Option.map_some, Option.map_some, Option.some_inj] at heq
  have hsame : cfg.height bs[i].ref = cfg.height bs[j].ref := by
    have hadd := congrArg (· + 1) heq
    exact (BitVec.sub_add_cancel _ 1).symm.trans (hadd.trans (BitVec.sub_add_cancel _ 1))
  rw [hsame, hgj] at hgi
  omega

/-- There are no more transactions and no more inputs than outputs, so that the ids of each
table have 64 bits. -/
theorem Numbered.unique {ids : List (BitVec 64)} (h : Numbered ids) (hcells : FreshCells cfg ts)
    (hlen : ids.length ≤ (ts.flatMap fun t => t.outputs).length) : Numbered ids ∧ ids.Nodup :=
  ⟨h, h.nodup (hlen.trans hcells.few)⟩

theorem Tables.txIDs (hs : Tables env cfg xs s) (hv : ValidChain env (txsOf xs))
    (hcells : FreshCells cfg (txsOf xs)) :
    Numbered (s.transactions.map TxRow.id) ∧ (s.transactions.map TxRow.id).Nodup := by
  have hne : ∀ t ∈ txsOf xs, t.outputs ≠ [] := fun t ht =>
    hv.outs (entryOf env t) (List.mem_map_of_mem ht)
  have hnum : Numbered ((xs.mapIdx (txRow env cfg)).map TxRow.id) := numbered_mapIdx fun _ _ => rfl
  rw [hs.transactions]
  refine hnum.unique hcells ?_
  rw [List.length_map, List.length_mapIdx, ← List.length_map (f := Prod.snd)]
  exact length_le_outputs hne

theorem Tables.outputIDs (hs : Tables env cfg xs s) (hcells : FreshCells cfg (txsOf xs)) :
    Numbered (s.outputs.map OutputRow.id) ∧ (s.outputs.map OutputRow.id).Nodup := by
  have hnum : Numbered (((outSites 0 (txsOf xs)).mapIdx (outputRow env cfg)).map OutputRow.id) :=
    numbered_mapIdx fun _ _ => rfl
  rw [hs.outputs]
  refine hnum.unique hcells ?_
  rw [List.length_map, List.length_mapIdx, outSites_length]

theorem Tables.inputIDs (hs : Tables env cfg xs s) (hv : ValidChain env (txsOf xs))
    (hcells : FreshCells cfg (txsOf xs)) :
    Numbered (s.inputs.map InputRow.id) ∧ (s.inputs.map InputRow.id).Nodup := by
  refine hs.numbered.unique hcells ?_
  rw [List.length_map, ← hs.inputs.length_eq]
  exact sites_le_outputs hv

theorem transactions_refer (bs : List (Block env.coin data)) :
    List.Forall₂ (fun x row => row.hash = txid env x.2 ∧
      ∃ q ∈ bs.zip (bs.map fun b => blockRow env cfg b.ref), q.1.ref = x.1 ∧ row.blockID = q.2.id)
      (placed bs) ((placed bs).mapIdx (txRow env cfg)) := by
  refine forall₂_mapIdx ?_
  intro i x hx
  obtain ⟨b, hb, hxb⟩ := List.mem_flatMap.mp (List.mem_of_getElem? hx)
  obtain ⟨t, -, rfl⟩ := List.mem_map.mp hxb
  refine ⟨rfl, (b, blockRow env cfg b.ref), ?_, rfl, rfl⟩
  have hzip := List.zip_map' (f := id) (g := fun b => blockRow env cfg b.ref) (l := bs)
  rw [List.map_id] at hzip
  rw [hzip]
  exact List.mem_map_of_mem hb

theorem outputs_refer (env : Env) (cfg : Config) (xs : List (BlockRef × Tx)) :
    List.Forall₂ (fun (d : OutputData) row =>
      ∃ q ∈ xs.mapIdx (txRow env cfg), d.txHash = some q.hash ∧ row.txID = q.id)
      ((outSites 0 (txsOf xs)).map fun o => TxOutput.data o.output (txid env o.tx) o.index)
      ((outSites 0 (txsOf xs)).mapIdx (outputRow env cfg)) := by
  rw [List.forall₂_map_left_iff]
  refine forall₂_mapIdx ?_
  intro i o ho
  obtain ⟨-, htx, -⟩ := mem_outSites.mp (List.mem_of_getElem? ho)
  obtain ⟨q, hq, hhash, hid⟩ := exists_txRow cfg htx
  exact ⟨q, hq, congrArg some hhash.symm, hid.symm⟩

/-- What an edge names is what the row of its input refers to. -/
theorem input_refers {x : Site} {e : EdgeData} {row : InputRow} (hx : x ∈ sites [] (txsOf xs))
    (hname : Names env x e) (hrefers : Refers env (outSites 0 (txsOf xs)) x row) :
    (∃ q ∈ ((outSites 0 (txsOf xs)).map fun o => TxOutput.data o.output (txid env o.tx) o.index).zip
        ((outSites 0 (txsOf xs)).mapIdx (outputRow env cfg)),
      q.1.txHash = e.upTXHash ∧ q.1.outputIndex = e.outputIndex ∧ row.outputID = q.2.id) ∧
    ∃ q ∈ xs.mapIdx (txRow env cfg), e.downTXHash = some q.hash ∧ row.txID = q.id := by
  obtain ⟨u, -, hid, out, -, hdata, hdown, -⟩ := hname
  obtain ⟨htxID, -, j, o, hj, hoid, hindex, houtputID⟩ := hrefers
  rw [TxOutput.data, OutputData.mk.injEq] at hdata
  obtain ⟨-, hup, hoi, -⟩ := hdata
  constructor
  · refine ⟨(TxOutput.data o.output (txid env o.tx) o.index, outputRow env cfg j o),
      mem_zip_mapIdx hj, ?_, ?_, houtputID⟩
    · rw [hup, hid, ← hoid]
      rfl
    · rw [hoi, ← hindex]
      rfl
  · have htx := sites_place hx
    rw [List.nil_append] at htx
    obtain ⟨q, hq, hhash, hid'⟩ := exists_txRow cfg htx
    exact ⟨q, hq, hdown.trans (congrArg some hhash.symm), htxID.trans hid'.symm⟩

/-- The tables of a run refer to one another as they should. -/
theorem Tables.integrity (hv : ValidChain env (chain bs)) (hcells : FreshCells cfg (chain bs))
    (hheight : ∀ (i : Nat) b, bs[i]? = some b → (cfg.height b.ref).toInt = (i + 1 : Nat))
    (hs : Tables env cfg (placed bs) s) (hblocks : s.blocks = bs.map fun b => blockRow env cfg b.ref) :
    Integrity env cfg bs (runCalls env edgeCall noEntries bs) s := by
  have hchain : ValidChain env ([] ++ chain bs) := hv
  have hdata := runCalls_data bs hchain
  have houts : (runCalls env edgeCall noEntries bs).filterMap outputData =
      (outSites 0 (chain bs)).map fun o => TxOutput.data o.output (txid env o.tx) o.index :=
    hdata.2.1.trans (outSites_data 0 (chain bs))
  rw [← txsOf_placed] at hv hcells houts hdata
  refine ⟨?_, hs.txIDs hv hcells, hs.outputIDs hcells, hs.inputIDs hv hcells, ?_, ?_, ?_, ?_⟩
  · rw [hblocks]
    exact blockIDs_nodup hheight
  · rw [hblocks, List.forall₂_map_right_iff, List.forall₂_same]
    exact fun _ _ => rfl
  · rw [hs.transactions, hblocks]
    exact transactions_refer bs
  · rw [houts, hs.outputs, hs.transactions]
    exact outputs_refer env cfg (placed bs)
  · rw [houts, hs.outputs, hs.transactions]
    exact forall₂_through hdata.1 hs.inputs fun x hx e row => input_refers hx

end

/-- After the run over a valid chain without `--atBlock` each row has an id of its own and
refers to the rows it should, and no input is unconnected. -/
theorem dump_integrity (env : Env) (cfg : Config) {data : BlockRef → Memory}
    (bs : List (Block env.coin data)) (hcut : cfg.cutoffBlock.toInt < 0)
    (hheight : ∀ (i : Nat) b, bs[i]? = some b → (cfg.height b.ref).toInt = (i + 1 : Nat))
    (hv : ValidChain env (chain bs)) (hsep : Separate env (chain bs)) (hcells : FreshCells cfg (chain bs)) :
    ∃ s, (runCalls env edgeCall noEntries bs ++ [Call.wrapup]).foldl (step env cfg) (.ok init) = .ok s ∧
      Integrity env cfg bs (runCalls env edgeCall noEntries bs) s := by
  obtain ⟨s, hrun, hs, hblocks⟩ := tables_run bs hcut hv hsep hcells
  have hwrapup : wrapup s = .ok { s with closed := true } := by
    rw [wrapup, State.open_ok hs.isOpen]
    rfl
  refine ⟨{ s with closed := true }, ?_, ?_⟩
  · rw [List.foldl_append, hrun]
    exact hwrapup
  · have hint := hs.integrity hv hcells hheight hblocks
    exact ⟨hint.blockIDs, hint.txIDs, hint.outputIDs, hint.inputIDs, hint.blocks, hint.transactions,
      hint.outputs, hint.inputs⟩

/-- The pool keeps the contract: where the calls of allocHash256 get cells of it that are all
still in use at some point of its run, those are different. -/
theorem freshCells_of_pool {p : Pools.Client} (hr : Pools.Reachable p) {cells : List MemoryManager.Addr}
    (hlive : (cells.map fun a => Pools.Live.mk a (.object .uint256)).Subperm p.live)
    {place : MemoryManager.Addr → BitVec 64} (hplace : Set.InjOn place {a | a ∈ cells})
    (hlen : (ts.flatMap fun t => t.outputs).length ≤ cells.length)
    (hcalls : ∀ i a, cells[i]? = some a → cfg.allocHash256 i = place a) : FreshCells cfg ts := by
  obtain ⟨owner, hi⟩ := hr.inv
  obtain ⟨l, hperm, hsub⟩ := hlive
  have hlive' : p.live.Nodup := hi.nodup.of_map _
  have hcells : cells.Nodup := (hperm.nodup_iff.mp (hlive'.sublist hsub)).of_map _
  intro i hi' j hj' heq
  have hi₁ : i < cells.length := Nat.lt_of_lt_of_le hi' hlen
  have hj₁ : j < cells.length := Nat.lt_of_lt_of_le hj' hlen
  rw [hcalls i _ (List.getElem?_eq_getElem hi₁), hcalls j _ (List.getElem?_eq_getElem hj₁)] at heq
  exact (List.Nodup.getElem_inj_iff hcells).mp
    (hplace (List.getElem_mem hi₁) (List.getElem_mem hj₁) heq)

/-- Where an address lies when the blocks of malloc are 2^32 apart. -/
def place (a : MemoryManager.Addr) : BitVec 64 := BitVec.ofNat 64 (2 ^ 32 * a.block + a.offset)

/-- The first cells of the pool, and heights that are the numbers of the blocks. -/
def plainConfig : Config where
  cutoffBlock := -1
  height := BitVec.ofNat 64
  data := fun _ => blockMemory .bitcoin [mintTx, spendTx]
  solveOutputScript := fun script =>
    solveOutputScript ⟨prefixHash, fun _ => hashZero⟩ (surrounded script 0) script.length 0
  address := fun _ => 0
  allocHash256 := fun i => place ⟨1, 32 * i⟩

theorem plainConfig_fresh : FreshCells plainConfig [mintTx, spendTx] := by
  let p₁ := Heap.start.alloc .uint256
  let p₂ := p₁.2.alloc .uint256
  have hone : Pools.Reachable ⟨p₁.2, [⟨p₁.1, .object .uint256⟩]⟩ := .single (.alloc .uint256)
  have htwo : Pools.Reachable ⟨p₂.2, [⟨p₂.1, .object .uint256⟩, ⟨p₁.1, .object .uint256⟩]⟩ :=
    hone.tail (.alloc .uint256)
  have hcells : p₁.1 = ⟨1, 0⟩ ∧ p₂.1 = ⟨1, 32⟩ := by decide +kernel
  refine @freshCells_of_pool _ _ _ htwo [⟨1, 0⟩, ⟨1, 32⟩] ?_ place ?_ (by decide) ?_
  · rw [hcells.1, hcells.2]
    exact (List.Perm.swap _ _ _).subperm
  · have hplace : ∀ a ∈ [(⟨1, 0⟩ : MemoryManager.Addr), ⟨1, 32⟩], ∀ b ∈ [(⟨1, 0⟩ : MemoryManager.Addr),
        ⟨1, 32⟩], place a = place b → a = b := by
      decide
    exact fun a ha b hb => hplace a ha b hb
  · intro i a ha
    cases i with
    | zero =>
      cases ha
      rfl
    | succ i =>
      cases i with
      | zero =>
        cases ha
        rfl
      | succ i => cases ha

/-- The one input of the second transaction. -/
theorem dump_integrity_spendTx : ∃ s,
    (runCalls prefixEnv edgeCall noEntries [blockOf .bitcoin 1 [mintTx, spendTx] (by decide)] ++
      [Call.wrapup]).foldl (step prefixEnv plainConfig) (.ok init) = .ok s ∧
    Numbered (s.transactions.map TxRow.id) ∧ (s.inputs.map InputRow.id).Nodup := by
  have hsep : Separate prefixEnv [mintTx, spendTx] := ⟨by decide, by decide⟩
  obtain ⟨s, hrun, hint⟩ := dump_integrity prefixEnv plainConfig
    [blockOf .bitcoin 1 [mintTx, spendTx] (by decide)] (by decide)
    (by
      intro i b hb
      cases i with
      | zero =>
        cases hb
        decide
      | succ i => cases hb)
    spendChain_valid hsep plainConfig_fresh
  exact ⟨s, hrun, hint.txIDs.1, hint.inputIDs.2⟩

end Blockparser.SQLDump
