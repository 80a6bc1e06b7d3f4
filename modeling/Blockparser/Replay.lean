import Blockparser.Lib.Segments
import Blockparser.Chain
import Blockparser.LongestChain

/-! The calls of a whole run, block by block: what a command is told of the blocks of the
longest chain. -/
namespace Blockparser.Replay
open Bytes Trace MemoryManager Segments Blockparser.Parser Cursor Format Utxo Store Decode Upstream
  Transaction Chain
open Protocol (cutAt inputWords inputsWords outputWords outputsWords txWords)

/-- A block of the chain: its transactions stand in its data behind the header and their
count. `cells` are the cells of the hash pool that their ids are put into. -/
structure Block (coin : Coin) (data : BlockRef → Memory) where
  ref : BlockRef
  txs : List Tx
  cells : List Addr
  txs_lt : txs.length < 2 ^ 64
  cells_eq : cells.length = txs.length
  holds : Holds (data ref) (afterHeader coin 0)
    (encodeVarInt txs.length ++ txs.flatMap (Tx.encode coin))

variable (env : Env) {data : BlockRef → Memory}

/-- The calls an input asks for besides its startInput and endInput. -/
abbrev EdgeCalls := HashArg → TXOs → Nat → TxInput → List Call

def txArg (t : Tx) (cell : Addr) : HashArg := ⟨some cell, some (txid env t)⟩

def txsCalls (edge : EdgeCalls) : TXOs → Ptr → List Tx → List Addr → List Call
  | L, p, t :: ts, cell :: cells =>
    txCalls env.coin (edge (txArg env t cell)) (txArg env t cell) L t p ++
      txsCalls edge (afterTX L (txid env t) t) (p + (t.encode env.coin).length) ts cells
  | _, _, _, _ => []

def afterTXs (L : TXOs) (ts : List Tx) : TXOs := ts.foldl (fun L t => afterTX L (txid env t) t) L

/-- Where the transactions of a block begin and end. -/
def Block.first (b : Block env.coin data) : Ptr :=
  afterHeader env.coin 0 + (encodeVarInt b.txs.length).length

def Block.last (b : Block env.coin data) : Ptr :=
  b.first env + (b.txs.flatMap (Tx.encode env.coin)).length

def blockCalls (edge : EdgeCalls) (L : TXOs) (b : Block env.coin data) : List Call :=
  [.startBlock b.ref, .startTXs (afterHeader env.coin 0)] ++
    (txsCalls env edge L (b.first env) b.txs b.cells ++ [.endTXs (b.last env), .endBlock b.ref])

/-- The calls of a block whose transaction loop is left after `cut.1` turns, early when
`cut.2` holds. -/
def cutCalls (edge : EdgeCalls) (L : TXOs) (b : Block env.coin data) (cut : Nat × Bool) :
    List Call :=
  [.startBlock b.ref, .startTXs (afterHeader env.coin 0)] ++
    (txsCalls env edge L (b.first env) (b.txs.take cut.1) b.cells ++
      if cut.2 then [] else [.endTXs (b.last env), .endBlock b.ref])

def runCalls (edge : EdgeCalls) : TXOs → List (Block env.coin data) → List Call
  | _, [] => []
  | L, b :: bs => blockCalls env edge L b ++ runCalls edge (afterTXs env L b.txs) bs

/-- The transactions of some blocks. -/
def chain {coin : Coin} (bs : List (Block coin data)) : List Tx := bs.flatMap Block.txs

/-- The transactions, each with its block. -/
def placed {coin : Coin} (bs : List (Block coin data)) : List (BlockRef × Tx) :=
  bs.flatMap fun b => b.txs.map (b.ref, ·)

/-- The loop of parseLongestChain over the blocks it comes to: whether the callback was
done. -/
def parseUntilDone (env : Env) (data : BlockRef → Memory) : List BlockRef → M Bool
  | [] => pure false
  | b :: bs => do
    let r ← parseBlock env b (data b)
    if r then pure true else parseUntilDone env data bs

/-- In which of the blocks with so many transactions each the callback is done, and where
in it, when its next answer is its `c`-th. -/
def cutChain (done : Nat → Bool) : Nat → List Nat → Option (Nat × Nat × Bool)
  | _, [] => none
  | c, n :: ns =>
    let cut := cutAt done c n
    if cut.2 || done (c + n) then some (0, cut)
    else (cutChain done (c + n + 1) ns).map fun r => (r.1 + 1, r.2)

variable {env} {s : State} {K : Addr → Hash256 → Prop} {loc : Role → Addr} {L : TXOs} {p : Ptr}
  {m : Memory} {pre post ts : List Tx}

theorem ledger_snoc (pre : List Tx) (t : Tx) :
    ledger ((pre ++ [t]).map (entryOf env)) =
      afterTX (ledger (pre.map (entryOf env))) (txid env t) t := by
  rw [List.map_append, List.map_singleton, ledger_append, ← afterTX_eq]

theorem ledger_chain (pre ts : List Tx) : ledger ((pre ++ ts).map (entryOf env)) =
    afterTXs env (ledger (pre.map (entryOf env))) ts := by
  induction ts generalizing pre with
  | nil => simp [afterTXs]
  | cons t ts ih =>
    rw [← List.singleton_append, ← List.append_assoc, ih, ledger_snoc]
    rfl

theorem sites_append (earlier ts us : List Tx) :
    sites earlier (ts ++ us) = sites earlier ts ++ sites (earlier ++ ts) us := by
  induction ts generalizing earlier with
  | nil => rw [List.nil_append, List.append_nil, sites, List.nil_append]
  | cons t ts ih =>
    rw [List.cons_append, sites, sites, ih, List.append_assoc, List.append_assoc,
      List.singleton_append]

theorem represents_same {s' : State} (hs : Represents L s) (hheap : s'.heap = s.heap)
    (hmap : s'.gTXOMap = s.gTXOMap) : Represents L s' := by
  obtain ⟨hL, loc, hrep⟩ := hs
  refine ⟨hL, loc, ⟨⟨?_, hrep.keys, ?_⟩, ?_⟩⟩
  · rw [hheap]
    exact hrep.holding
  · rw [hheap]
    exact hrep.keep
  · obtain ⟨ts, hnd, hmem, hts⟩ := hrep.mapped
    exact ⟨ts, hnd, hmem, hmap.trans hts⟩

theorem chain_complete (hv : ValidChain env (pre ++ post)) :
    Ledger.Complete (ledger (pre.map (entryOf env))) :=
  ledger_complete (ValidChain.initial hv).outs

theorem parseTX_nbDone {q : Ptr} {s' : State} (h : parseTX env false m p s = .ok q s') :
    s'.nbDone = s.nbDone := by
  have hw := @Protocol.parseTX_words env _ m p s rfl
  rw [h] at hw
  exact hw.2.1

/-- The transaction loop makes the calls of its transactions, one after the other, up to
the one after which the callback is done. -/
theorem parseTXs_calls (hneed : env.gNeedUpstream = true)
    (hv : ValidChain env (pre ++ (ts ++ post))) (hfit : ∀ t ∈ ts, Fits t)
    (hs : Represents (ledger (pre.map (entryOf env))) s)
    (hm : Holds m p (ts.flatMap (Tx.encode env.coin))) :
    ∃ s' q cells,
      parseTXs env m ts.length p s = .ok ((cutAt env.done s.nbDone ts.length).2, q) s' ∧
      ((cutAt env.done s.nbDone ts.length).2 = false →
        q = p + (ts.flatMap (Tx.encode env.coin)).length) ∧
      cells.length = ts.length ∧
      s'.calls = s.calls ++ txsCalls env edgeCall (ledger (pre.map (entryOf env))) p
        (ts.take (cutAt env.done s.nbDone ts.length).1) cells ∧
      s'.nbDone = s.nbDone + (cutAt env.done s.nbDone ts.length).1 ∧
      Represents (ledger ((pre ++ ts.take (cutAt env.done s.nbDone ts.length).1).map
        (entryOf env))) s' := by
  induction ts generalizing pre s p with
  | nil => exact ⟨s, p, [], rfl, by simp, rfl, by simp [txsCalls], rfl, by simpa using hs⟩
  | cons t ts ih =>
    rw [List.flatMap_cons] at hm
    obtain ⟨ht, hts⟩ := holds_append.mp hm
    obtain ⟨hL, loc, hrep⟩ := hs
    have hnext : ValidChain env (pre ++ t :: (ts ++ post)) := hv
    obtain ⟨k, s₁, s₂, -, hrun, hcalls, -, -, ⟨loc', hrep'⟩, hlog⟩ :=
      chain_step hneed hnext (hfit t (List.mem_cons_self ..)) hrep (Rep.alloc_notKey hrep) ht
    have hv' : ValidChain env ((pre ++ [t]) ++ (ts ++ post)) := by simpa using hv
    have hs₂ : Represents (ledger ((pre ++ [t]).map (entryOf env))) s₂ :=
      represents_of_rep (chain_complete hv') hrep'
    have hnb : s₂.nbDone = s.nbDone := parseTX_nbDone hrun
    have hask : done env s₂ = .ok (env.done s.nbDone) { s₂ with nbDone := s.nbDone + 1 } := by
      rw [done, hnb]
    have hstep : parseTXs env m (t :: ts).length p s =
        (if env.done s.nbDone then pure (true, p + ((t.encode env.coin).length : Int))
          else parseTXs env m ts.length (p + (t.encode env.coin).length))
            { s₂ with nbDone := s.nbDone + 1 } := by
      rw [List.length_cons, parseTXs, run_bind_ok hrun]
      exact run_bind_ok hask
    have hcut : cutAt env.done s.nbDone (t :: ts).length =
        if env.done s.nbDone then (1, true)
        else ((cutAt env.done (s.nbDone + 1) ts.length).1 + 1,
          (cutAt env.done (s.nbDone + 1) ts.length).2) := by
      rw [List.length_cons, cutAt]
    by_cases hd : env.done s.nbDone = true
    · -- the callback is done with this transaction
      rw [if_pos hd] at hstep hcut
      rw [hcut]
      refine ⟨_, _, k :: List.replicate ts.length k, hstep, by simp, by simp, ?_, rfl, ?_⟩
      · simp only [List.take_succ_cons, List.take_zero, txsCalls, List.append_nil]
        rw [hlog.calls, hcalls]
        rfl
      · exact represents_same hs₂ rfl rfl
    · rw [if_neg hd] at hstep hcut
      obtain ⟨s', q, cells, hrest, hq, hlen, hcalls', hnb', hs'⟩ := ih
        (s := { s₂ with nbDone := s.nbDone + 1 }) (p := p + (t.encode env.coin).length) hv'
        (fun u hu => hfit u (List.mem_cons_of_mem t hu)) (represents_same hs₂ rfl rfl) hts
      rw [hcut]
      refine ⟨s', q, k :: cells, hstep.trans hrest, ?_, by simp [hlen], ?_, ?_, ?_⟩
      · intro hc
        rw [hq hc, List.flatMap_cons, List.length_append]
        push_cast
        ring
      · rw [hcalls', hlog.calls, hcalls, ledger_snoc, List.take_succ_cons, txsCalls,
          List.append_assoc]
        rfl
      · change s'.nbDone = s.nbDone + 1 + (cutAt env.done (s.nbDone + 1) ts.length).1 at hnb'
        rw [hnb']
        omega
      · rw [List.take_succ_cons]
        simpa using hs'

theorem Block.holds_parts {coin : Coin} (b : Block coin data) :
    loadVarInt (data b.ref) (afterHeader coin 0) =
        (b.txs.length, afterHeader coin 0 + (encodeVarInt b.txs.length).length) ∧
      Holds (data b.ref) (afterHeader coin 0 + (encodeVarInt b.txs.length).length)
        (b.txs.flatMap (Tx.encode coin)) := by
  obtain ⟨hn, hts⟩ := holds_append.mp b.holds
  exact ⟨loadVarInt_of_holds b.txs_lt hn, hts⟩

theorem run_emit (c : Call) (s : State) : emit c s = .ok () { s with
    calls := s.calls ++ [c], views := s.views ++ [fun a => (s.heap.cells a).hash] } := rfl

theorem cutAt_whole {done : Nat → Bool} {c n : Nat} (h : (cutAt done c n).2 = false) :
    cutAt done c n = (n, false) := by
  induction n generalizing c with
  | zero => rfl
  | succ n ih =>
    rw [cutAt] at h ⊢
    split at h
    · cases h
    · rename_i hd
      rw [if_neg hd, ih h]

/-- A block makes its calls up to where the callback is done, and is asked once more when
it was not. -/
theorem parseBlock_calls (hneed : env.gNeedUpstream = true) (b : Block env.coin data)
    (hv : ValidChain env (pre ++ (b.txs ++ post))) (hfit : ∀ t ∈ b.txs, Fits t)
    (hs : Represents (ledger (pre.map (entryOf env))) s) :
    let cut := cutAt env.done s.nbDone b.txs.length
    ∃ (s' : State) (b' : Block env.coin data), b'.ref = b.ref ∧ b'.txs = b.txs ∧
      parseBlock env b.ref (data b.ref) s =
        .ok (cut.2 || env.done (s.nbDone + b.txs.length)) s' ∧
      s'.calls = s.calls ++ cutCalls env edgeCall (ledger (pre.map (entryOf env))) b' cut ∧
      (cut.2 = false → s'.nbDone = s.nbDone + b.txs.length + 1 ∧
        Represents (ledger ((pre ++ b.txs).map (entryOf env))) s') := by
  intro cut
  obtain ⟨hvar, hts⟩ := b.holds_parts
  obtain ⟨s₁, q, cells, hrun, hq, hlen, hcalls, hnb, hs₁⟩ := parseTXs_calls
    (s := { s with
      calls := s.calls ++ [.startBlock b.ref] ++ [.startTXs (afterHeader env.coin 0)]
      views := s.views ++ [fun a => (s.heap.cells a).hash] ++ [fun a => (s.heap.cells a).hash] })
    hneed hv hfit (represents_same hs rfl rfl) hts
  have hstart : parseBlock env b.ref (data b.ref) s = (do
      if cut.2 then pure true
      else
        emit (.endTXs q)
        emit (.endBlock b.ref)
        done env : M Bool) s₁ := by
    unfold parseBlock
    rw [run_bind_ok (run_emit _ _)]
    dsimp only
    rw [run_bind_ok (run_emit _ _), hvar]
    exact run_bind_ok hrun
  cases hc : cut.2 with
  | true =>
    rw [hc] at hstart
    refine ⟨s₁, { b with cells := cells, cells_eq := hlen }, rfl, rfl, hstart, ?_, by simp⟩
    rw [hcalls, cutCalls]
    simp [Block.first, cut, hc]
  | false =>
    have hwhole := cutAt_whole hc
    have hone : (cutAt env.done s.nbDone b.txs.length).1 = b.txs.length := by rw [hwhole]
    rw [hc] at hstart
    refine ⟨{ s₁ with
      calls := s₁.calls ++ [.endTXs (b.last env)] ++ [.endBlock b.ref]
      views := s₁.views ++ [fun a => (s₁.heap.cells a).hash] ++ [fun a => (s₁.heap.cells a).hash]
      nbDone := s₁.nbDone + 1 }, { b with cells := cells, cells_eq := hlen }, rfl, rfl, ?_, ?_, ?_⟩
    · rw [hstart, hq hc, if_neg (by simp), run_bind_ok (run_emit _ _), run_bind_ok (run_emit _ _),
        done, hnb, hone]
      rfl
    · rw [hcalls, cutCalls]
      simp [Block.first, Block.last, cut, hc]
    · intro _
      rw [hone, List.take_length] at hs₁
      rw [hone] at hnb
      exact ⟨congrArg (· + 1) hnb, represents_same hs₁ rfl rfl⟩

theorem cutCalls_whole (edge : EdgeCalls) (L : TXOs) (b : Block env.coin data) :
    cutCalls env edge L b (b.txs.length, false) = blockCalls env edge L b := by
  rw [cutCalls, List.take_length]
  rfl

theorem chain_cons {coin : Coin} (b : Block coin data) (bs : List (Block coin data)) :
    chain (b :: bs) = b.txs ++ chain bs := List.flatMap_cons

/-- The calls of a run that is left where the callback is done, if it ever is. -/
def stoppedCalls (env : Env) (edge : EdgeCalls) (L : TXOs) (bs : List (Block env.coin data)) :
    Option (Nat × Nat × Bool) → List Call
  | none => runCalls env edge L bs
  | some (j, cut) => runCalls env edge L (bs.take j) ++
      (bs[j]?.elim [] fun b => cutCalls env edge (afterTXs env L (chain (bs.take j))) b cut)

theorem afterTXs_append (L : TXOs) (ts ts' : List Tx) :
    afterTXs env L (ts ++ ts') = afterTXs env (afterTXs env L ts) ts' := List.foldl_append ..

/-- Over a valid chain whose sizes fit their casts the parser makes the calls of the run,
up to where the callback is done. -/
theorem parseUntilDone_calls (hneed : env.gNeedUpstream = true) (bs : List (Block env.coin data))
    (hv : ValidChain env (pre ++ chain bs)) (hfit : ∀ t ∈ chain bs, Fits t)
    (hs : Represents (ledger (pre.map (entryOf env))) s) :
    let stop := cutChain env.done s.nbDone (bs.map fun b => b.txs.length)
    ∃ (s' : State) (bs' : List (Block env.coin data)), bs'.map Block.ref = bs.map Block.ref ∧
      bs'.map Block.txs = bs.map Block.txs ∧
      parseUntilDone env data (bs.map Block.ref) s = .ok stop.isSome s' ∧
      s'.calls = s.calls ++ stoppedCalls env edgeCall (ledger (pre.map (entryOf env))) bs' stop := by
  induction bs generalizing pre s with
  | nil => exact ⟨s, [], rfl, rfl, rfl, by simp [cutChain, stoppedCalls, runCalls]⟩
  | cons b bs ih =>
    rw [chain_cons] at hv hfit
    obtain ⟨s₁, b', href, htxs, hrun, hcalls, hnext⟩ := parseBlock_calls hneed b hv
      (fun t ht => hfit t (List.mem_append_left _ ht)) hs
    intro stop
    by_cases hd : ((cutAt env.done s.nbDone b.txs.length).2 ||
        env.done (s.nbDone + b.txs.length)) = true
    · have hstop : stop = some (0, cutAt env.done s.nbDone b.txs.length) := by
        simp only [stop, List.map_cons, cutChain, if_pos hd]
      refine ⟨s₁, b' :: bs, by simp [href], by simp [htxs], ?_, ?_⟩
      · rw [List.map_cons, parseUntilDone, run_bind_ok hrun, if_pos hd, hstop]
        rfl
      · rw [hcalls, hstop]
        rfl
    · have hd' := hd
      rw [Bool.or_eq_true, not_or, Bool.not_eq_true, Bool.not_eq_true] at hd'
      obtain ⟨hnb, hs₁⟩ := hnext hd'.1
      have hv' : ValidChain env ((pre ++ b.txs) ++ chain bs) := by simpa using hv
      obtain ⟨s', bs', hrefs, htxss, hrun', hcalls'⟩ := ih hv' (fun t ht => hfit t (List.mem_append_right _ ht)) hs₁
      have hstop : stop = (cutChain env.done s₁.nbDone (bs.map fun b => b.txs.length)).map
          fun r => (r.1 + 1, r.2) := by
        simp only [stop, List.map_cons, cutChain, if_neg hd, hnb]
      refine ⟨s', b' :: bs', by simp [href, hrefs], by simp [htxs, htxss], ?_, ?_⟩
      · rw [List.map_cons, parseUntilDone, run_bind_ok hrun, if_neg hd, hrun', hstop,
          Option.isSome_map]
      · rw [cutAt_whole hd'.1, ← htxs, cutCalls_whole] at hcalls
        rw [hcalls', hcalls, hstop, ledger_chain, List.append_assoc]
        congr 1
        cases cutChain env.done s₁.nbDone (bs.map fun b => b.txs.length) with
        | none => simp [stoppedCalls, runCalls, htxs]
        | some r => simp [stoppedCalls, runCalls, htxs, chain_cons, afterTXs_append]

theorem cutChain_not_done {done : Nat → Bool} (hd : ∀ k, done k = false) (c : Nat)
    (ns : List Nat) : cutChain done c ns = none := by
  induction ns generalizing c with
  | nil => rfl
  | cons n ns ih => simp [cutChain, hd, LongestChain.cutAt_not_done hd, ih]

theorem parseBlocks_eq (hd : ∀ k, env.done k = false) (refs : List BlockRef) (s : State) :
    LongestChain.parseBlocks env data refs s =
      (do let _ ← parseUntilDone env data refs; pure () : M Unit) s := by
  induction refs generalizing s with
  | nil => rfl
  | cons b refs ih =>
    rw [LongestChain.parseBlocks, parseUntilDone, run_bind, run_bind, run_bind]
    cases hr : parseBlock env b (data b) s with
    | error e y => rfl
    | ok r y =>
      rw [LongestChain.parseBlock_not_done hd hr]
      exact ih y

/-- With a callback that is never done the parser makes all the calls of the run. -/
theorem parseBlocks_calls (hneed : env.gNeedUpstream = true) (hd : ∀ k, env.done k = false)
    (bs : List (Block env.coin data)) (hv : ValidChain env (chain bs))
    (hfit : ∀ t ∈ chain bs, Fits t) (hs : s.heap.Valid ∅) (hmap : s.gTXOMap = []) :
    ∃ (s' : State) (bs' : List (Block env.coin data)), bs'.map Block.ref = bs.map Block.ref ∧
      bs'.map Block.txs = bs.map Block.txs ∧
      LongestChain.parseBlocks env data (bs.map Block.ref) s = .ok () s' ∧
      s'.calls = s.calls ++ runCalls env edgeCall noEntries bs' := by
  have hv' : ValidChain env ([] ++ chain bs) := hv
  obtain ⟨s', bs', hrefs, htxs, hrun, hcalls⟩ := parseUntilDone_calls hneed bs hv' hfit (empty_represents hs hmap)
  rw [cutChain_not_done hd] at hcalls hrun
  refine ⟨s', bs', hrefs, htxs, ?_, hcalls⟩
  rw [parseBlocks_eq hd, run_bind_ok hrun]
  rfl

section
variable {coin : Coin} {edge : TXOs → Nat → TxInput → List Call} {h : HashArg} {t : Tx} {c : Call}

/-- The calls made for one input, for all the inputs of a transaction, and for its outputs. -/
def isOfInput : Call → Bool
  | .startInput _ | .endInput _ => true
  | .edge .. => true
  | _ => false

def isInput : Call → Bool
  | .startInputs _ | .endInputs _ | .startInput _ | .endInput _ => true
  | .edge .. => true
  | _ => false

def isOutput : Call → Bool
  | .startOutputs _ | .endOutputs _ | .startOutput _ => true
  | .endOutput .. => true
  | _ => false

def isEdge : Call → Bool
  | .edge .. => true
  | _ => false

def isEndTX : Call → Bool
  | .endTX _ => true
  | _ => false

def inCalls (coin : Coin) (edge : TXOs → Nat → TxInput → List Call) (L : TXOs) (t : Tx) (p : Ptr) :
    List Call :=
  [.startInputs (t.inputsAt coin p)] ++
    (inputsCalls edge L 0 (t.inputsAt coin p + (encodeVarInt t.inputs.length).length) t.inputs ++
      [.endInputs (t.outputsAt coin p)])

def outCalls (coin : Coin) (h : HashArg) (t : Tx) (p : Ptr) : List Call :=
  [.startOutputs (t.outputsAt coin p)] ++
    (outputsCalls h 0 (t.outputsAt coin p + (encodeVarInt t.outputs.length).length) t.outputs ++
      [.endOutputs (t.lockTimeAt coin p)])

/-- The calls of a transaction before its endTX. -/
def txInit (coin : Coin) (edge : TXOs → Nat → TxInput → List Call) (h : HashArg) (L : TXOs)
    (t : Tx) (p : Ptr) : List Call :=
  .startTX p h :: (inCalls coin edge L t p ++ outCalls coin h t p)

theorem txCalls_eq : txCalls coin edge h L t p =
    txInit coin edge h L t p ++ [.endTX (p + (t.encode coin).length)] := by
  simp [txCalls, txInit, inCalls, outCalls]

theorem isOfInput_of_mem {xs : List TxInput} {i : Nat}
    (hedge : ∀ L i x, ∀ c ∈ edge L i x, isEdge c = true) (hc : c ∈ inputsCalls edge L i p xs) :
    isOfInput c = true := by
  induction xs generalizing L i p with
  | nil => cases hc
  | cons x xs ih =>
    simp only [inputsCalls, inputCalls, List.mem_append, List.mem_singleton] at hc
    rcases hc with (rfl | he | rfl) | hrest
    · rfl
    · have := hedge L i x c he
      cases c <;> first | rfl | cases this
    · rfl
    · exact ih hrest

theorem isInput_of_mem (hedge : ∀ L i x, ∀ c ∈ edge L i x, isEdge c = true)
    (hc : c ∈ inCalls coin edge L t p) : isInput c = true := by
  simp only [inCalls, List.mem_append, List.mem_singleton] at hc
  rcases hc with rfl | hc | rfl
  · rfl
  · have := isOfInput_of_mem hedge hc
    cases c <;> first | rfl | cases this
  · rfl

theorem isOutput_of_mem (hc : c ∈ outCalls coin h t p) : isOutput c = true := by
  have houtputs : ∀ (os : List TxOutput) (i : Nat) (p : Ptr),
      c ∈ outputsCalls h i p os → isOutput c = true := by
    intro os
    induction os with
    | nil => intro i p hc; cases hc
    | cons o os ih =>
      intro i p hc
      simp only [outputsCalls, outputCalls, List.mem_append, List.mem_cons, List.not_mem_nil,
        or_false] at hc
      rcases hc with (rfl | rfl) | hrest
      · rfl
      · rfl
      · exact ih _ _ hrest
  simp only [outCalls, List.mem_append, List.mem_singleton] at hc
  rcases hc with rfl | hc | rfl
  · rfl
  · exact houtputs _ _ _ hc
  · rfl

theorem not_isEndTX (hedge : ∀ L i x, ∀ c ∈ edge L i x, isEdge c = true)
    (hc : c ∈ txInit coin edge h L t p) : isEndTX c = false := by
  rw [txInit, List.mem_cons, List.mem_append] at hc
  rcases hc with rfl | hin | hout
  · rfl
  · have := isInput_of_mem hedge hin
    cases c <;> first | rfl | cases this
  · have := isOutput_of_mem hout
    cases c <;> first | rfl | cases this

/-- The calls between the startTX and the endTX of a transaction. -/
def isBody (c : Call) : Bool := isInput c || isOutput c

theorem inputWords_letters (need : Bool) (m : Memory) (i : Nat) (p : Ptr) :
    Letters (isBody · = true) (inputWords need m i p) := by
  rintro _ ⟨e, he, rfl⟩ c hc
  simp only [Protocol.inputCalls, List.mem_append, List.mem_singleton] at hc
  rcases hc with (rfl | hc) | rfl
  · rfl
  · unfold Protocol.edgeWords at he
    split at he
    · obtain ⟨value, script, size, down, rfl⟩ := he
      rw [List.mem_singleton] at hc
      subst hc
      rfl
    · cases he
      cases hc
  · rfl

theorem outputWords_letters (m : Memory) (i : Nat) (p : Ptr) :
    Letters (isBody · = true) (outputWords m i p) := by
  rintro _ ⟨h, rfl⟩ c hc
  simp only [Protocol.outputCalls, List.mem_cons, List.not_mem_nil, or_false] at hc
  rcases hc with rfl | rfl <;> rfl

/-- A word of a transaction starts with its startTX and ends with its endTX. -/
theorem txWords_shape {coin : Coin} {need : Bool} {w : List Call} (hw : w ∈ txWords coin need m p) :
    ∃ h mid, w = .startTX p h :: (mid ++ [.endTX (txNext coin m p)]) ∧
      ∀ c ∈ mid, isBody c = true := by
  have hletter : ∀ c, isBody c = true → Letters (isBody · = true) {[c]} := by
    intro c hc
    refine Letters.word ?_
    intro d hd
    rwa [List.mem_singleton.mp hd]
  have hin : Letters (isBody · = true) (inputsWords need m (beforeInputs coin p)) :=
    (hletter _ rfl).mul ((Letters.loop (inputWords_letters need m) _ _ _).mul (hletter _ rfl))
  have hout : Letters (isBody · = true) (outputsWords m (txOutputs coin m p)) :=
    (hletter _ rfl).mul ((Letters.loop (outputWords_letters m) _ _ _).mul (hletter _ rfl))
  obtain ⟨_, ⟨h, rfl⟩, _, ⟨ins, hins, _, ⟨outs, houts, _, rfl, rfl⟩, rfl⟩, rfl⟩ := hw
  refine ⟨h, ins ++ outs, by simp, ?_⟩
  intro c hc
  cases List.mem_append.mp hc with
  | inl hc => exact hin ins hins c hc
  | inr hc => exact hout outs houts c hc

theorem isEdge_edgeCall (h : HashArg) (L : TXOs) (i : Nat) (x : TxInput) (hc : c ∈ edgeCall h L i x) :
    isEdge c = true := by
  unfold edgeCall at hc
  split at hc
  · cases hc
  · split at hc
    · rw [List.mem_singleton] at hc
      subst hc
      rfl
    · cases hc

theorem inCalls_data (coin : Coin) (L : TXOs) (t : Tx) (p : Ptr) :
    (inCalls coin (edgeCall h) L t p).filterMap edgeData =
      (txCalls coin (edgeCall h) h L t p).filterMap edgeData := by
  rw [txCalls_eq, txInit, outCalls, List.filterMap_append, List.filterMap_cons, List.filterMap_append,
    List.filterMap_append, List.filterMap_append, outputsCalls_edgeData]
  exact (List.append_nil _).symm.trans (List.append_nil _).symm

theorem outCalls_data (coin : Coin) {id : Hash256} (hid : h.value = some id) (t : Tx) (p : Ptr) :
    (outCalls coin h t p).filterMap outputData =
      t.outputs.mapIdx fun i o => TxOutput.data o id i := by
  rw [outCalls, List.filterMap_append, List.filterMap_append, outputsCalls_outputData h hid]
  simp only [Nat.zero_add]
  exact List.append_nil _

end

section
variable {coin : Coin} {cells : List Addr}

/-- The block a startBlock is about. -/
def startRef : Call → Option BlockRef
  | .startBlock b => some b
  | _ => none

theorem txCalls_startRef {edge : TXOs → Nat → TxInput → List Call} {h : HashArg} {t : Tx}
    (hedge : ∀ L i x, ∀ c ∈ edge L i x, isEdge c = true) :
    (txCalls coin edge h L t p).filterMap startRef = [] := by
  rw [List.filterMap_eq_nil_iff]
  intro c hc
  rw [txCalls_eq, txInit, List.cons_append, List.mem_cons, List.mem_append, List.mem_append,
    List.mem_singleton] at hc
  rcases hc with rfl | (hin | hout) | rfl
  · rfl
  · have := isInput_of_mem hedge hin
    cases c <;> first | rfl | cases this
  · have := isOutput_of_mem hout
    cases c <;> first | rfl | cases this
  · rfl

/-- What the calls of some transactions say: their edges name what their inputs name, and
their outputs are told one after the other. -/
theorem txsCalls_data (hv : ValidChain env (pre ++ (ts ++ post))) (hlen : cells.length = ts.length) :
    List.Forall₂ (Names env) (sites pre ts)
        ((txsCalls env edgeCall (ledger (pre.map (entryOf env))) p ts cells).filterMap edgeData) ∧
      (txsCalls env edgeCall (ledger (pre.map (entryOf env))) p ts cells).filterMap outputData =
        (ts.flatMap fun t => t.outputs.mapIdx fun i o => TxOutput.data o (txid env t) i) ∧
      (txsCalls env edgeCall (ledger (pre.map (entryOf env))) p ts cells).filterMap startRef = [] := by
  induction ts generalizing pre cells p with
  | nil => exact ⟨List.Forall₂.nil, rfl, rfl⟩
  | cons t ts ih =>
    obtain ⟨cell, cells, rfl⟩ := List.exists_cons_of_length_eq_add_one hlen
    have hv' : ValidChain env ((pre ++ [t]) ++ (ts ++ post)) := by simpa using hv
    obtain ⟨hin, hout⟩ := txCalls_data (h := txArg env t cell) rfl hv p
    obtain ⟨hins, houts, hstart⟩ := ih (p := p + (t.encode env.coin).length) hv' (by simpa using hlen)
    rw [ledger_snoc] at hins houts hstart
    simp only [txsCalls, List.filterMap_append, sites, List.flatMap_cons]
    refine ⟨List.rel_append hin hins, ?_, ?_⟩
    · rw [hout, houts]
    · rw [txCalls_startRef fun _ _ _ _ => isEdge_edgeCall _ _ _ _, hstart]
      rfl

theorem runCalls_data (bs : List (Block env.coin data)) (hv : ValidChain env (pre ++ chain bs)) :
    List.Forall₂ (Names env) (sites pre (chain bs))
        ((runCalls env edgeCall (ledger (pre.map (entryOf env))) bs).filterMap edgeData) ∧
      (runCalls env edgeCall (ledger (pre.map (entryOf env))) bs).filterMap outputData =
        ((chain bs).flatMap fun t => t.outputs.mapIdx fun i o => TxOutput.data o (txid env t) i) ∧
      (runCalls env edgeCall (ledger (pre.map (entryOf env))) bs).filterMap startRef =
        bs.map Block.ref := by
  induction bs generalizing pre with
  | nil => exact ⟨List.Forall₂.nil, rfl, rfl⟩
  | cons b bs ih =>
    rw [chain_cons] at hv ⊢
    obtain ⟨hin, hout, hstart⟩ := txsCalls_data (p := b.first env) hv b.cells_eq
    have hv' : ValidChain env ((pre ++ b.txs) ++ chain bs) := by simpa using hv
    obtain ⟨hins, houts, hstarts⟩ := ih hv'
    rw [ledger_chain] at hins houts hstarts
    have hcalls : ∀ {β : Type} (f : Call → Option β),
        (runCalls env edgeCall (ledger (pre.map (entryOf env))) (b :: bs)).filterMap f =
          [Call.startBlock b.ref, .startTXs (afterHeader env.coin 0)].filterMap f ++
            ((txsCalls env edgeCall (ledger (pre.map (entryOf env))) (b.first env) b.txs
              b.cells).filterMap f ++ ([Call.endTXs (b.last env), .endBlock b.ref].filterMap f ++
            (runCalls env edgeCall (afterTXs env (ledger (pre.map (entryOf env))) b.txs)
              bs).filterMap f)) := by
      intro β f
      rw [runCalls, blockCalls]
      simp only [List.filterMap_append, List.append_assoc]
    rw [sites_append, List.flatMap_append, hcalls, hcalls, hcalls, hout, houts, hstart, hstarts]
    exact ⟨List.rel_append hin hins, rfl, rfl⟩

end

section
variable {σ : Type} {step : σ → Call → σ} {edge : EdgeCalls} {all : List (BlockRef × Tx)}
  {P : Option BlockRef → List (BlockRef × Tx) → σ → Prop} {Q : List (BlockRef × Tx) → σ → Prop}

/-- The transactions of a list of placed ones. -/
abbrev txsOf (xs : List (BlockRef × Tx)) : List Tx := xs.map Prod.snd

theorem txsOf_placed {coin : Coin} (bs : List (Block coin data)) : txsOf (placed bs) = chain bs := by
  induction bs with
  | nil => rfl
  | cons b bs ih =>
    rw [placed, chain, List.flatMap_cons, List.flatMap_cons, txsOf, List.map_append, List.map_map]
    exact congrArg₂ _ (List.map_id _) ih

/-- What each call of a run keeps: `P` between the transactions, with the block that was
started last, and `Q` all along. -/
structure Steps (env : Env) (data : BlockRef → Memory) (edge : EdgeCalls) (step : σ → Call → σ)
    (P : Option BlockRef → List (BlockRef × Tx) → σ → Prop) (Q : List (BlockRef × Tx) → σ → Prop)
    (all : List (BlockRef × Tx)) : Prop where
  weaken : ∀ cur pre s, P cur pre s → Q pre s
  startBlock : ∀ cur b pre s, P cur pre s → P (some b) pre (step s (.startBlock b))
  startTXs : ∀ cur p pre s, P cur pre s → P cur pre (step s (.startTXs p))
  endTXs : ∀ cur p pre s, P cur pre s → P cur pre (step s (.endTXs p))
  endBlock : ∀ cur b pre s, P cur pre s → P cur pre (step s (.endBlock b))
  tx : ∀ b pre t post cell p, all = pre ++ (b, t) :: post → Holds (data b) p (t.encode env.coin) →
    Keeps isEndTX step (P (some b)) (P (some b)) Q pre (txCalls env.coin (edge (txArg env t cell))
      (txArg env t cell) (ledger ((txsOf pre).map (entryOf env))) t p) [(b, t)]

theorem txsCalls_keeps (hsteps : Steps env data edge step P Q all) {b : BlockRef}
    (ts : List Tx) (cells : List Addr) (hlen : cells.length = ts.length)
    (pre post : List (BlockRef × Tx)) (p : Ptr) (hall : all = pre ++ (ts.map (b, ·) ++ post))
    (hm : Holds (data b) p (ts.flatMap (Tx.encode env.coin))) :
    Keeps isEndTX step (P (some b)) (P (some b)) Q pre
      (txsCalls env edge (ledger ((txsOf pre).map (entryOf env))) p ts cells) (ts.map (b, ·)) := by
  induction ts generalizing cells pre p with
  | nil =>
    rw [List.length_eq_zero_iff.mp hlen]
    exact Keeps.nil (fun _ h => h) (hsteps.weaken _ _)
  | cons t ts ih =>
    obtain ⟨cell, cells, rfl⟩ := List.exists_cons_of_length_eq_add_one hlen
    rw [List.flatMap_cons] at hm
    obtain ⟨ht, hts⟩ := holds_append.mp hm
    have hrest := ih cells (by simpa using hlen) (pre ++ [(b, t)])
      (p + (t.encode env.coin).length) (by simpa using hall) hts
    rw [txsOf, List.map_append, List.map_singleton, ledger_snoc] at hrest
    exact (hsteps.tx b pre t _ cell p hall ht).append hrest

theorem blockCalls_keeps (hsteps : Steps env data edge step P Q all) (b : Block env.coin data)
    (pre post : List (BlockRef × Tx)) (hall : all = pre ++ (b.txs.map (b.ref, ·) ++ post)) :
    Keeps isEndTX step (fun pre s => ∃ cur, P cur pre s) (fun pre s => ∃ cur, P cur pre s) Q pre
      (blockCalls env edge (ledger ((txsOf pre).map (entryOf env))) b) (b.txs.map (b.ref, ·)) := by
  have hstart : Keeps isEndTX step (fun pre s => ∃ cur, P cur pre s) (P (some b.ref)) Q pre
      [.startBlock b.ref, .startTXs (afterHeader env.coin 0)] [] := by
    refine Keeps.pair rfl rfl ?_ ?_ (fun s hs => hsteps.weaken _ _ s hs) ?_
    · rintro s ⟨cur, hs⟩
      exact hsteps.weaken _ _ s hs
    · rintro s ⟨cur, hs⟩
      exact hsteps.weaken _ _ _ (hsteps.startBlock _ _ _ s hs)
    · rintro s ⟨cur, hs⟩
      exact hsteps.startTXs _ _ _ _ (hsteps.startBlock _ _ _ s hs)
  have hend : ∀ pre, Keeps isEndTX step (P (some b.ref)) (fun pre s => ∃ cur, P cur pre s) Q pre
      [.endTXs (b.last env), .endBlock b.ref] [] := by
    intro pre
    refine Keeps.pair rfl rfl (fun s hs => hsteps.weaken _ _ s hs) ?_ ?_ ?_
    · intro s hs
      exact hsteps.weaken _ _ _ (hsteps.endTXs _ _ _ s hs)
    · rintro s ⟨cur, hs⟩
      exact hsteps.weaken _ _ s hs
    · intro s hs
      exact ⟨_, hsteps.endBlock _ _ _ _ (hsteps.endTXs _ _ _ s hs)⟩
  have htxs := txsCalls_keeps hsteps b.txs b.cells b.cells_eq pre post (b.first env) hall
    b.holds_parts.2
  have hbody := htxs.append (hend _)
  rw [List.append_nil] at hbody
  have hpre : pre = pre ++ [] := (List.append_nil pre).symm
  rw [hpre] at hbody
  have hwhole := hstart.append hbody
  simpa [blockCalls] using hwhole

/-- The run lemma: what every call keeps holds at every point of a run, with as many
transactions behind it as endTX calls. -/
theorem runCalls_keeps (hsteps : Steps env data edge step P Q all) (bs : List (Block env.coin data))
    (pre : List (BlockRef × Tx)) (hall : all = pre ++ placed bs) :
    Keeps isEndTX step (fun pre s => ∃ cur, P cur pre s) (fun pre s => ∃ cur, P cur pre s) Q pre
      (runCalls env edge (ledger ((txsOf pre).map (entryOf env))) bs) (placed bs) := by
  induction bs generalizing pre with
  | nil =>
    refine Keeps.nil (fun _ h => h) ?_
    rintro s ⟨cur, hs⟩
    exact hsteps.weaken _ _ s hs
  | cons b bs ih =>
    have hcons : placed (b :: bs) = b.txs.map (b.ref, ·) ++ placed bs := List.flatMap_cons
    rw [hcons] at hall ⊢
    have hb := blockCalls_keeps hsteps b pre (placed bs) hall
    have hrest := ih (pre ++ b.txs.map (b.ref, ·)) (by simpa using hall)
    have hL : ledger ((txsOf (pre ++ b.txs.map (b.ref, ·))).map (entryOf env)) =
        afterTXs env (ledger ((txsOf pre).map (entryOf env))) b.txs := by
      have htxs : txsOf (pre ++ b.txs.map (b.ref, ·)) = txsOf pre ++ b.txs := by simp [txsOf]
      rw [htxs, ledger_chain]
    rw [hL] at hrest
    exact hb.append hrest

end

/-- The bytes of a block with nothing but zeros in its header. -/
def blockMemory (coin : Coin) (txs : List Tx) : Memory :=
  ofList (List.replicate (afterHeader coin 0).toNat 0 ++
    (encodeVarInt txs.length ++ txs.flatMap (Tx.encode coin))) fun _ => 0

theorem holds_blockMemory (coin : Coin) (txs : List Tx) :
    Holds (blockMemory coin txs) (afterHeader coin 0)
      (encodeVarInt txs.length ++ txs.flatMap (Tx.encode coin)) := by
  have hlen : (afterHeader coin 0).toNat = afterHeader coin 0 := by cases coin <;> decide
  obtain ⟨-, h⟩ := holds_append.mp (show Holds (blockMemory coin txs) 0 _ from read_ofList _ _)
  rwa [List.length_replicate, zero_add, hlen] at h

/-- The null block and the blocks 1 to `n` behind it, as the first three passes leave them. -/
def chainOf (n : Nat) : Heights.State where
  blocks b := { BlockIndex.buildNullBlock.blocks b with
    height := (b : Nat)
    next := if b < n then some (b + 1) else none }
  nbAlloc := n + 1
  gBlockMap := BlockIndex.buildNullBlock.gBlockMap
  gMaxHeight := n
  gMaxBlock := some n
  lateLinks := 0

/-- A block of its own file. -/
def blockOf (coin : Coin) (ref : BlockRef) (txs : List Tx) (h : txs.length < 2 ^ 64) :
    Block coin fun _ => blockMemory coin txs where
  ref := ref
  txs := txs
  cells := List.replicate txs.length ⟨0, 0⟩
  txs_lt := h
  cells_eq := List.length_replicate
  holds := holds_blockMemory coin txs

/-- The state a run that ends has ended in. -/
def ended : EStateM.Result Fault State Bool → Option State
  | .ok true x => some x
  | _ => none

theorem ended_eq {r : EStateM.Result Fault State Bool}
    {x : State} (h : ended r = some x) : r = .ok true x := by
  unfold ended at h
  split at h
  · cases h
    rfl
  · cases h

end Blockparser.Replay
