import Blockparser.UnspentCoins

/-! Passes 2 to 4 on the index of pass 1: from what stands in the block files to what a command
is told, and to the balances allBalances ends with. -/
namespace Blockparser.Pipeline
open Bytes MemoryManager Blockparser.Parser BlockIndex Headers Heights LongestChain Forest Format
  Decode Transaction Upstream Chain Replay UnspentCoins Trace

/-- What getData leaves in the buffer of a chunk. A read that falls short is not noticed, and the
rest of the buffer is as malloc made it. -/
def getData (files : List (List UInt8)) (malloc : Memory) (c : Chunk) :
    Except Heights.Fault Memory :=
  match c.blockFile.bind (files[·]?) with
  | none => .error .undefined
  | some content =>
    -- an offset past the largest off64_t is negative for lseek64
    if 2 ^ 63 ≤ c.offset then .error .sysErrFatal
    else .ok (ofList (readFile content c.offset c.size) malloc)

/-- The data of the blocks, where it can be read. -/
def blockData (files : List (List UInt8)) (malloc : BlockRef → Memory) (s : Heights.State)
    (b : BlockRef) : Memory :=
  (getData files (malloc b) (s.blocks b).chunk).toOption.getD (malloc b)

variable (env : Env) (files : List (List UInt8)) (malloc : BlockRef → Memory)

/-- computeBlockHeights, wireLongestChain and parseLongestChain, as main calls them. -/
def passes (fuel : Nat) (order : List BlockRef) (s : Heights.State) :
    Except Heights.Fault (M Bool) := do
  let s ← computeBlockHeights env.coin files fuel order s
  let s ← wireLongestChain fuel s
  pure (parseLongestChain env (blockData files malloc s) fuel s)

/-- A way down from the null block to a block that no other is deeper than. -/
structure Longest (coin : Coin) (files : List (List UInt8)) (s : Heights.State)
    (order : List BlockRef) (chain : List BlockRef) : Prop where
  descends : Descends (parent coin files s.toIndex) gNullBlock chain
  mem : ∀ b ∈ chain, b ∈ order ∧ b ≠ gNullBlock
  longest : ∀ b ∈ order, ∀ n, Depth (parent coin files s.toIndex) gNullBlock b n →
    n ≤ chain.length

/-- The transactions stand in the block of the chunk, behind the header and their count. -/
def Stored (coin : Coin) (files : List (List UInt8)) (c : Chunk) (txs : List Tx) : Prop :=
  txs.length < 2 ^ 64 ∧ c.offset < 2 ^ 63 ∧
    ∃ content header rest, c.blockFile.bind (files[·]?) = some content ∧
      header.length = (afterHeader coin 0).toNat ∧
      readFile content c.offset c.size =
        header ++ (encodeVarInt txs.length ++ txs.flatMap (Tx.encode coin)) ++ rest

/-- The blocks of the chain hold transactions that spend what earlier ones left unspent, of
sizes that fit the casts of the parser. -/
structure Replayable (s : Heights.State) (txsAt : BlockRef → List Tx) (chain : List BlockRef) :
    Prop where
  stored : ∀ b ∈ chain, Stored env.coin files (s.blocks b).chunk (txsAt b)
  valid : ValidChain env (chain.flatMap txsAt)
  fits : ∀ t ∈ chain.flatMap txsAt, Fits t

variable {env files malloc} {s₀ : Heights.State} {order path : List BlockRef} {fuel : Nat}
  {txsAt : BlockRef → List Tx}

/-- The data of a stored block holds its transactions. -/
theorem Stored.holds {b : BlockRef} {txs : List Tx} {coin : Coin}
    (h : Stored coin files (s₀.blocks b).chunk txs) :
    Holds (blockData files malloc s₀ b) (afterHeader coin 0)
      (encodeVarInt txs.length ++ txs.flatMap (Tx.encode coin)) := by
  obtain ⟨-, hoff, content, header, rest, hfile, hlen, hread⟩ := h
  have hstart : ((afterHeader coin 0).toNat : Int) = afterHeader coin 0 := by
    cases coin <;> decide
  have hdata : blockData files malloc s₀ b =
      ofList (readFile content (s₀.blocks b).chunk.offset (s₀.blocks b).chunk.size) (malloc b) := by
    unfold blockData getData
    rw [hfile]
    dsimp only
    rw [if_neg (by omega)]
    rfl
  rw [hdata, hread]
  have hall := read_ofList
    (header ++ (encodeVarInt txs.length ++ txs.flatMap (Tx.encode coin)) ++ rest) (malloc b)
  obtain ⟨hfront, -⟩ := holds_append.mp hall
  obtain ⟨-, hbody⟩ := holds_append.mp hfront
  rwa [zero_add, hlen, hstart] at hbody

/-- The block that is parsed where transactions are stored. -/
theorem exists_block {coin : Coin} {b : BlockRef} {txs : List Tx}
    (h : Stored coin files (s₀.blocks b).chunk txs) :
    ∃ blk : Block coin (blockData files malloc s₀), blk.ref = b ∧ blk.txs = txs :=
  ⟨{ ref := b
     txs := txs
     cells := List.replicate txs.length ⟨0, 0⟩
     txs_lt := h.1
     cells_eq := List.length_replicate
     holds := h.holds }, rfl, rfl⟩

theorem exists_blocks {coin : Coin} {s : Heights.State}
    (h : ∀ b ∈ path, Stored coin files (s.blocks b).chunk (txsAt b)) :
    ∃ bs : List (Block coin (blockData files malloc s)),
      bs.map Block.ref = path ∧ bs.map Block.txs = path.map txsAt := by
  induction path with
  | nil => exact ⟨[], rfl, rfl⟩
  | cons b path ih =>
    obtain ⟨bs, hrefs, htxs⟩ := ih fun c hc => h c (List.mem_cons_of_mem b hc)
    obtain ⟨blk, href, htx⟩ := exists_block (h b (List.mem_cons_self ..))
    refine ⟨blk :: bs, ?_, ?_⟩
    · rw [List.map_cons, hrefs, href]
    · rw [List.map_cons, htxs, htx]
      rfl

theorem wired_head {u : Heights.State} {b : BlockRef} (h : Wired u b path) :
    (u.blocks b).next = path.head? := by
  cases path with
  | nil => exact h
  | cons c cs => exact h.1

/-- Passes 2 and 3 wire a longest chain, and leave the chunks as they are. -/
theorem exists_wired {coin : Coin} (hb : Built coin files s₀ order) (hfuel : order.length < fuel)
    (hc : ∃ b ∈ order, b ≠ gNullBlock ∧ Connected (parent coin files s₀.toIndex) gNullBlock b) :
    ∃ t u path, computeBlockHeights coin files fuel order s₀ = .ok t ∧
      wireLongestChain fuel t = .ok u ∧ u.gMaxBlock = path.getLast? ∧ Wired u gNullBlock path ∧
      Longest coin files s₀ order path ∧ path.length < fuel ∧
      ∀ b, (u.blocks b).chunk = (s₀.blocks b).chunk := by
  obtain ⟨t, hheights, hdone⟩ := hb.done hfuel
  obtain ⟨b, hbm, hbn, hbc⟩ := hc
  obtain ⟨m, hm, k, hmax, hheight, hk, hpos, hdk⟩ := hdone.maxBlock hbm hbn hbc
  have hm0 : 0 ≤ (t.blocks m).height := by omega
  have hmn : m ≠ gNullBlock := by
    intro heq
    subst heq
    rw [hdone.null] at hheight
    omega
  have hend : Wired t m [] := hdone.clean m hm hm0
  obtain ⟨u, path, hwire, hinv, -, hub, -, hwired, hdesc, hmem, hlast⟩ := wireLoop_spec hb
    hdone.toInv hm0 hend trivial (by simpa using hm) (List.suffix_refl [m]) (by simpa using hfuel)
  have hnd := hdesc.nodup hb.acyclic
  have hne : ∀ c ∈ path, c ≠ gNullBlock := fun c hc heq => (List.nodup_cons.mp hnd).1 (heq ▸ hc)
  have hlt : path.length < order.length := by
    have hle := (List.subperm_of_subset hnd hmem).length_le
    rwa [List.length_cons] at hle
  have hchain : [m] <:+ path := by
    cases List.suffix_cons_iff.mp hlast with
    | inl h =>
      have heq : m = gNullBlock := by simp_all
      exact absurd heq hmn
    | inr h => exact h
  have hgetLast : path.getLast? = some m := by
    obtain ⟨l, hl⟩ := hchain
    rw [← hl, List.getLast?_concat]
  -- the last block of the path is as deep as the path is long
  have hdepth : path.length = k := by
    have hpne : path ≠ [] := by
      intro heq
      rw [heq] at hgetLast
      cases hgetLast
    have hidx : path[path.length - 1]? = some m := by
      rw [← List.getLast?_eq_getElem?, hgetLast]
    have hd := hdesc.depth hne Depth.root _ hidx
    have hlen := List.length_pos_of_ne_nil hpne
    have := hd.unique hdk
    omega
  refine ⟨t, u, path, hheights, ?_, by rw [hub, hmax, hgetLast], hwired, ⟨hdesc, ?_, ?_⟩,
    by omega, hinv.chunk⟩
  · rw [wireLongestChain, hmax]
    exact hwire
  · exact fun c hc => ⟨hmem c (List.mem_cons_of_mem _ hc), hne c hc⟩
  · intro c hcm n hd
    have hle := hdone.le_max c hcm
    rw [hdone.height_eq hcm hd] at hle
    omega

theorem blockData_congr {s s' : Heights.State} (h : ∀ b, (s'.blocks b).chunk = (s.blocks b).chunk) :
    blockData files malloc s' = blockData files malloc s := by
  funext b
  rw [blockData, h, blockData]

/-- Of an index whose longest chains can be replayed, passes 2 to 4 tell the command the blocks
of one of them, call by call, between its start and its wrapup. -/
theorem passes_told (env : Env) (files : List (List UInt8)) (malloc : BlockRef → Memory)
    (s₀ : Heights.State) (order : List BlockRef) (fuel : Nat) (txsAt : BlockRef → List Tx)
    (x : Parser.State) (hb : Built env.coin files s₀ order) (hfuel : order.length < fuel)
    (hc : ∃ b ∈ order, b ≠ gNullBlock ∧
      Connected (parent env.coin files s₀.toIndex) gNullBlock b)
    (hneed : env.gNeedUpstream = true) (hd : ∀ k, env.done k = false) (hx : x.heap.Valid ∅)
    (hmap : x.gTXOMap = [])
    (hchain : ∀ path, Longest env.coin files s₀ order path → Replayable env files s₀ txsAt path) :
    ∃ path run x' bs, Longest env.coin files s₀ order path ∧
      passes env files malloc fuel order s₀ = .ok run ∧ run x = .ok true x' ∧
      bs.map (@Block.ref env.coin (blockData files malloc s₀)) = path ∧
      bs.map Block.txs = path.map txsAt ∧
      x'.calls = x.calls ++ ([.startLC, .start path.head? path.getLast?] ++
        runCalls env edgeCall noEntries bs ++ [.wrapup]) := by
  obtain ⟨t, u, path, hheights, hwire, hmax, hwired, hlongest, hlen, hchunk⟩ :=
    exists_wired hb hfuel hc
  obtain ⟨hstored, hvalid, hfits⟩ := hchain path hlongest
  obtain ⟨bs, hrefs, htxs⟩ := @exists_blocks files malloc path txsAt env.coin s₀ hstored
  have htxs' : chain bs = path.flatMap txsAt := by
    rw [chain, List.flatMap_def, htxs, ← List.flatMap_def]
  have hrun : passes env files malloc fuel order s₀ =
      .ok (parseLongestChain env (blockData files malloc s₀) fuel u) := by
    unfold passes
    rw [hheights]
    dsimp only [bind, Except.bind]
    rw [hwire, ← blockData_congr hchunk]
    rfl
  obtain ⟨x', bs', hrefs', htxs'', hblocks, hcalls⟩ := parseBlocks_calls hneed hd bs
    (by rwa [htxs']) (by rwa [htxs'])
    (s := { x with
      calls := x.calls ++ [.startLC] ++ [.start path.head? path.getLast?]
      views := x.views ++ [fun a => (x.heap.cells a).hash] ++ [fun a => (x.heap.cells a).hash] })
    hx hmap
  rw [hrefs] at hrefs' hblocks
  refine ⟨path, _, { x' with
    calls := x'.calls ++ [.wrapup]
    views := x'.views ++ [fun a => (x'.heap.cells a).hash] }, bs', hlongest, hrun, ?_, hrefs',
    htxs''.trans htxs, ?_⟩
  · rw [parseLongestChain_all hd _ hwired (by omega), wired_head hwired, hmax, run_bind_ok (run_emit _ _),
      run_bind_ok (run_emit _ _), run_bind_ok hblocks, run_bind_ok (run_emit _ _)]
    rfl
  · rw [hcalls]
    simp

/-- A command is told the blocks of a longest chain in order, all the outputs of their
transactions, and for every input that spends one an edge with what was said of it. -/
theorem passes_replay (env : Env) (files : List (List UInt8)) (malloc : BlockRef → Memory)
    (s₀ : Heights.State) (order : List BlockRef) (fuel : Nat) (txsAt : BlockRef → List Tx)
    (x : Parser.State) (hb : Built env.coin files s₀ order) (hfuel : order.length < fuel)
    (hc : ∃ b ∈ order, b ≠ gNullBlock ∧
      Connected (parent env.coin files s₀.toIndex) gNullBlock b)
    (hneed : env.gNeedUpstream = true) (hd : ∀ k, env.done k = false) (hx : x.heap.Valid ∅)
    (hmap : x.gTXOMap = []) (hcalls : x.calls = [])
    (hchain : ∀ path, Longest env.coin files s₀ order path → Replayable env files s₀ txsAt path) :
    ∃ path run x', Longest env.coin files s₀ order path ∧
      passes env files malloc fuel order s₀ = .ok run ∧ run x = .ok true x' ∧
      x'.calls.filterMap startRef = path ∧
      x'.calls.filterMap outputData = ((path.flatMap txsAt).flatMap fun t =>
        t.outputs.mapIdx fun i o => TxOutput.data o (txid env t) i) ∧
      List.Forall₂ (Names env) (sites [] (path.flatMap txsAt)) (x'.calls.filterMap edgeData) := by
  obtain ⟨path, run, x', bs, hlongest, hpasses, hrun, hrefs, htxs, hx'⟩ := passes_told env files
    malloc s₀ order fuel txsAt x hb hfuel hc hneed hd hx hmap hchain
  have htxs' : chain bs = path.flatMap txsAt := by
    rw [chain, List.flatMap_def, htxs, ← List.flatMap_def]
  have hvalid : ValidChain env ([] ++ chain bs) := by
    rw [List.nil_append, htxs']
    exact (hchain path hlongest).valid
  obtain ⟨hedges, houts, hstarts⟩ := runCalls_data bs hvalid
  -- the calls around the run say nothing of blocks, outputs or inputs
  have haround : ∀ {β : Type} (f : Call → Option β), f .startLC = none → f .wrapup = none →
      f (.start path.head? path.getLast?) = none →
      x'.calls.filterMap f = (runCalls env edgeCall noEntries bs).filterMap f := by
    intro β f hlc hwrap hstart
    rw [hx', hcalls]
    simp [List.filterMap_append, hlc, hwrap, hstart]
  refine ⟨path, run, x', hlongest, hpasses, hrun, ?_, ?_, ?_⟩
  · rw [haround startRef rfl rfl rfl, ← hrefs]
    exact hstarts
  · rw [haround outputData rfl rfl rfl, ← htxs']
    exact houts
  · rw [haround edgeData rfl rfl rfl, ← htxs']
    exact hedges

/-- Fifty to an address, and thirty of them back to it. -/
def payMint : Tx := { mintTx with
  outputs := [⟨50, AllBalances.payScript, by decide⟩]
  outputs_lt := by decide }

def payBack : Tx := { payMint with
  inputs := [⟨txid prefixEnv payMint, 0, [], 0, length_nil_lt⟩]
  inputs_lt := by decide
  outputs := [⟨30, AllBalances.payScript, by decide⟩]
  outputs_lt := by decide }

def payBlock (p : UInt8) (t : Tx) : List UInt8 :=
  headerOn p ++ (encodeVarInt [t].length ++ [t].flatMap (Tx.encode .bitcoin))

/-- A file with two blocks of one transaction each. -/
def payFile : List UInt8 := payBlock 0 payMint ++ payBlock 1 payBack

/-- The index of the file, before its second block is linked. -/
def payTable : Heights.State where
  blocks b :=
    match b with
    | 1 => Block.init (keyOf 1) (some 0) (payBlock 0 payMint).length (some 0) 0
    | 2 => Block.init (keyOf 2) (some 0) (payBlock 1 payBack).length none (payBlock 0 payMint).length
    | _ => { Block.init nullHash none 0 none 0 with height := 0 }
  nbAlloc := 3
  gBlockMap h :=
    if h = nullHash then some 0 else if h = keyOf 1 then some 1 else if h = keyOf 2 then some 2
    else none
  gMaxHeight := 0
  gMaxBlock := none
  lateLinks := 0

theorem payTable_parent (b : BlockRef) : parent .bitcoin [payFile] payTable.toIndex b =
    if b = 1 then some 0 else if b = 2 then some 1 else none := by
  match b with
  | 0 => rfl
  | 1 => decide +kernel
  | 2 => decide +kernel
  | n + 3 => simp [parent, gNullBlock, payTable, parentHash, readBlockHeader, Block.init]

theorem payTable_find {h : Hash256} {b : BlockRef} (hf : payTable.gBlockMap h = some b) :
    (h, b) ∈ [(nullHash, 0), (keyOf 1, 1), (keyOf 2, 2)] := by
  unfold payTable at hf
  dsimp only at hf
  split at hf
  · next hh => simp_all
  · split at hf
    · next hh => simp_all
    · split at hf
      · next hh => simp_all
      · cases hf

theorem payTable_built : Built .bitcoin [payFile] payTable [2, 1, 0] where
  nodup := by decide
  mem_iff b := by
    constructor
    · have hall : ∀ b ∈ [2, 1, 0], ∃ h ∈ [nullHash, keyOf 1, keyOf 2],
          payTable.gBlockMap h = some b := by decide +kernel
      intro hb
      obtain ⟨h, -, hf⟩ := hall b hb
      exact ⟨h, hf⟩
    · intro hb
      obtain ⟨h, hf⟩ := hb
      have hm := payTable_find hf
      simp at hm
      simp
      tauto
  keys h b hf := by
    have hall : ∀ x ∈ [(nullHash, 0), (keyOf 1, 1), (keyOf 2, 2)],
        (payTable.blocks x.2).hash = x.1 := by decide +kernel
    exact hall (h, b) (payTable_find hf)
  null := by decide +kernel
  nullHeight := rfl
  height := by decide
  readable := by
    have hall : ∀ b ∈ [2, 1, 0], b ≠ gNullBlock →
        (readBlockHeader .bitcoin [payFile] (payTable.blocks b).chunk).toOption.isSome := by
      decide +kernel
    intro b hb hn
    have hb' := hall b hb hn
    cases hr : readBlockHeader .bitcoin [payFile] (payTable.blocks b).chunk with
    | ok buf => exact ⟨buf, rfl⟩
    | error e =>
      rw [hr] at hb'
      cases hb'
  prev := by decide +kernel
  next := by decide
  acyclic := by
    refine acyclic_of_rank id fun b p hp => ?_
    rw [payTable_parent] at hp
    split at hp
    · cases hp
      simp_all
    · split at hp
      · cases hp
        simp_all
      · cases hp
  maxHeight := rfl
  maxBlock := rfl

theorem payTable_depth : Depth (parent .bitcoin [payFile] payTable.toIndex) gNullBlock 2 2 :=
  Depth.step (by decide) (payTable_parent 2) (Depth.step (by decide) (payTable_parent 1) Depth.root)

/-- The only longest chain. -/
theorem payTable_longest {path : List BlockRef}
    (h : Longest .bitcoin [payFile] payTable [2, 1, 0] path) : path = [1, 2] := by
  have hlen := h.longest 2 (by decide) 2 payTable_depth
  have hdesc := h.descends
  have hchild : ∀ b c, parent .bitcoin [payFile] payTable.toIndex c = some b →
      c = 1 ∧ b = 0 ∨ c = 2 ∧ b = 1 := by
    intro b c hp
    rw [payTable_parent] at hp
    split at hp
    · cases hp
      exact Or.inl ⟨by assumption, rfl⟩
    · split at hp
      · cases hp
        exact Or.inr ⟨by assumption, rfl⟩
      · cases hp
  cases path with
  | nil => simp at hlen
  | cons c path =>
    obtain ⟨rfl, -⟩ | ⟨-, hb⟩ := hchild _ _ hdesc.1
    · cases path with
      | nil => simp at hlen
      | cons d path =>
        obtain ⟨-, hb⟩ | ⟨rfl, -⟩ := hchild _ _ hdesc.2.1
        · cases hb
        · cases path with
          | nil => rfl
          | cons e path =>
            obtain ⟨-, hb⟩ | ⟨-, hb⟩ := hchild _ _ hdesc.2.2.1 <;> cases hb
    · cases hb

def payTxs (b : BlockRef) : List Tx := if b = 1 then [payMint] else [payBack]

theorem payChain_valid : ValidChain prefixEnv [payMint, payBack] := by
  have hmint : Utxo.Valid [entryOf prefixEnv payMint] :=
    Utxo.Valid.nil.snoc (t := entryOf prefixEnv payMint) (by simp) (by decide) (by decide)
      (fun o ho => nomatch ho)
  exact hmint.snoc (t := entryOf prefixEnv payBack) (by decide) (by decide) (by decide) (by decide)

theorem payBlock_stored {p : UInt8} {t : Tx} {c : Chunk} (hoff : c.offset < 2 ^ 63)
    (hfile : c.blockFile = some 0) (hread : readFile payFile c.offset c.size = payBlock p t) :
    Stored .bitcoin [payFile] c [t] := by
  refine ⟨by simp, hoff, payFile, headerOn p, [], by rw [hfile]; rfl, by simp [headerOn]; rfl, ?_⟩
  rw [hread, List.append_nil]
  rfl

theorem payTable_replayable {path : List BlockRef}
    (h : Longest .bitcoin [payFile] payTable [2, 1, 0] path) :
    Replayable prefixEnv [payFile] payTable payTxs path := by
  have hfits : ∀ t ∈ [payMint, payBack], Fits t := by decide +kernel
  rw [payTable_longest h]
  refine ⟨?_, payChain_valid, hfits⟩
  intro b hb
  simp only [List.mem_cons, List.not_mem_nil, or_false] at hb
  obtain rfl | rfl := hb
  · exact payBlock_stored (p := 0) (by decide) rfl (by decide +kernel)
  · exact payBlock_stored (p := 1) (by decide +kernel) rfl (by decide +kernel)

theorem payTable_connected : ∃ b ∈ [2, 1, 0], b ≠ gNullBlock ∧
    Connected (parent .bitcoin [payFile] payTable.toIndex) gNullBlock b :=
  ⟨2, by decide, by decide, 2, payTable_depth⟩

/-- The two blocks are told in order, with one edge. -/
theorem passes_replay_payFile : ∃ run x',
    passes prefixEnv [payFile] (fun _ _ => 0) 4 [2, 1, 0] payTable = .ok run ∧
      run .start = .ok true x' ∧ x'.calls.filterMap startRef = [1, 2] ∧
      (x'.calls.filterMap edgeData).length = 1 := by
  obtain ⟨path, run, x', hlongest, hpasses, hrun, hstarts, -, hedges⟩ := passes_replay prefixEnv
    [payFile] (fun _ _ => 0) payTable [2, 1, 0] 4 payTxs .start payTable_built (by decide)
    payTable_connected rfl (fun _ => rfl) Heap.start_valid rfl rfl fun _ => payTable_replayable
  rw [payTable_longest hlongest] at hstarts hedges
  refine ⟨run, x', hpasses, hrun, hstarts, ?_⟩
  rw [← hedges.length_eq]
  decide +kernel

/-- What allBalances ends with: the records of what the outputs come to that are not spent along
a longest chain of the files, read as a map, and as they are found in the table where no output
pays to one of its marks. -/
theorem balances_of_files (env : Env) (files : List (List UInt8)) (malloc : BlockRef → Memory)
    (s₀ : Heights.State) (order : List BlockRef) (fuel : Nat) (txsAt : BlockRef → List Tx)
    (x : Parser.State) (cfg : AllBalances.Config) (hb : Built env.coin files s₀ order)
    (hfuel : order.length < fuel)
    (hc : ∃ b ∈ order, b ≠ gNullBlock ∧
      Connected (parent env.coin files s₀.toIndex) gNullBlock b)
    (hneed : env.gNeedUpstream = true) (hd : ∀ k, env.done k = false) (hx : x.heap.Valid ∅)
    (hmap : x.gTXOMap = []) (hcalls : x.calls = [])
    (hchain : ∀ path, Longest env.coin files s₀ order path →
      Replayable env files s₀ txsAt path ∧ Supply env (path.flatMap txsAt)) :
    ∃ path run x', Longest env.coin files s₀ order path ∧
      passes env files malloc fuel order s₀ = .ok run ∧ run x = .ok true x' ∧
      TellsOwed env cfg (path.flatMap txsAt)
        (x'.calls.foldl (AllBalances.onCall cfg) AllBalances.start).record ∧
      (PaysUnreserved cfg (path.flatMap txsAt) → AddrTables.Fits cfg x'.calls →
        ∃ s, AddrTables.run cfg x'.calls = .ok s ∧
          TellsOwed env cfg (path.flatMap txsAt) s.view.record) := by
  obtain ⟨path, run, x', bs, hlongest, hpasses, hrun, -, htxs, hx'⟩ := passes_told env files malloc
    s₀ order fuel txsAt x hb hfuel hc hneed hd hx hmap fun path hp => (hchain path hp).1
  obtain ⟨hreplay, hsupply⟩ := hchain path hlongest
  have htxs' : chain bs = path.flatMap txsAt := by
    rw [chain, List.flatMap_def, htxs, ← List.flatMap_def]
  have hvalid := hreplay.valid
  rw [← htxs'] at hvalid hsupply
  have hfold : x'.calls.foldl (AllBalances.onCall cfg) AllBalances.start =
      (runCalls env edgeCall noEntries bs).foldl (AllBalances.onCall cfg) AllBalances.start := by
    rw [hx', hcalls]
    simp [AllBalances.onCall]
  have htells := run_records cfg bs hvalid hsupply
  rw [← hfold] at htells
  refine ⟨path, run, x', hlongest, hpasses, hrun, htxs' ▸ htells, ?_⟩
  rw [← htxs']
  intro hu hfits
  have hun : AddrTables.Unreserved cfg x'.calls := by
    intro c hc h hm
    rw [hx', hcalls] at hc
    -- the calls around the run move nothing
    have hin : c ∈ runCalls env edgeCall noEntries bs := by
      simp only [List.nil_append, List.mem_append, List.mem_cons, List.not_mem_nil, or_false] at hc
      rcases hc with ((rfl | rfl) | hin) | rfl
      · cases hm
      · cases hm
      · exact hin
      · cases hm
    exact run_unreserved bs hvalid hsupply hu c hin h hm
  obtain ⟨s, hrun', -, hview⟩ := AddrTables.run_view hfits.1 hfits.2 hun
  refine ⟨s, hrun', ?_⟩
  rw [hview]
  exact htells

theorem paySupply : Supply prefixEnv [payMint, payBack] := by
  intro pre hpre
  have hall : ∀ pre ∈ [payMint, payBack].inits, worth (unspentOutputs prefixEnv pre) < 2 ^ 63 := by
    decide +kernel
  exact hall pre ((List.mem_inits _ _).mpr hpre)

/-- Thirty are left to the address. -/
theorem balances_of_files_payFile : ∃ run x' a,
    passes prefixEnv [payFile] (fun _ _ => 0) 4 [2, 1, 0] payTable = .ok run ∧
      run .start = .ok true x' ∧
      (x'.calls.foldl (AllBalances.onCall AllBalances.smallConfig) AllBalances.start).record
        ⟨List.replicate 20 7, AllBalances.length_sevens⟩ = some a ∧ a.sum.toNat = 30 := by
  obtain ⟨path, run, x', hlongest, hpasses, hrun, hall, -⟩ := balances_of_files prefixEnv [payFile]
    (fun _ _ => 0) payTable [2, 1, 0] 4 payTxs .start AllBalances.smallConfig payTable_built
    (by decide) payTable_connected rfl (fun _ => rfl) Heap.start_valid rfl rfl
    fun path hp => ⟨payTable_replayable hp, by rw [payTable_longest hp]; exact paySupply⟩
  obtain ⟨hsome, hnone, -⟩ :=
    (hall ⟨List.replicate 20 7, AllBalances.length_sevens⟩).1 (Or.inl rfl)
  rw [payTable_longest hlongest] at hsome hnone
  have howed : owed prefixEnv AllBalances.smallConfig ([1, 2].flatMap payTxs)
      ⟨List.replicate 20 7, AllBalances.length_sevens⟩ = 30 := by decide +kernel
  rw [howed] at hsome hnone
  cases hrec : (x'.calls.foldl (AllBalances.onCall AllBalances.smallConfig)
      AllBalances.start).record ⟨List.replicate 20 7, AllBalances.length_sevens⟩ with
  | none => cases hnone hrec
  | some a => exact ⟨run, x', a, hpasses, hrun, hrec, (hsome a hrec).2⟩

end Blockparser.Pipeline
