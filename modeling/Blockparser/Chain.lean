import Blockparser.Transaction

/-! Runs over a chain of transactions with upstream data: the store stays the ledger of
the chain, and every edge carries the output its input names. -/
namespace Blockparser.Chain
open Bytes Trace MemoryManager Blockparser.Parser Cursor Format Utxo Store Decode Upstream
  Transaction

def txid (env : Env) (t : Tx) : Hash256 := env.sha256Twice (t.encode env.coin)

/-- The outputs a transaction names, but for generation inputs. -/
def spendsOf (t : Tx) : List (Hash256 × Nat) :=
  (t.inputs.filter fun x => x.prevHash ≠ nullHash).map fun x => (x.prevHash, x.prevIndex.toNat)

def entryOf (env : Env) (t : Tx) : Utxo.Tx Hash256 TxOutput := ⟨txid env t, spendsOf t, t.outputs⟩

/-- Ids are distinct, every transaction has an output, and every input with a non-null
hash names an output of an earlier transaction that no earlier input has named. -/
def ValidChain (env : Env) (ts : List Tx) : Prop := Valid (ts.map (entryOf env))

/-- An encoded transaction in memory. -/
structure Placed (coin : Coin) where
  mem : Memory
  ptr : Ptr
  tx : Tx
  holds : Holds mem ptr (tx.encode coin)

def runTXs (env : Env) : List (Placed env.coin) → M Unit
  | [] => pure ()
  | x :: xs => do
    let _ ← parseTX env false x.mem x.ptr
    runTXs env xs

/-- What an edge says about the output it spends, and the input that spends it. -/
structure EdgeData where
  value : Nat
  upTXHash : Option Hash256
  outputIndex : Nat
  outputScript : List UInt8
  outputScriptSize : Nat
  downTXHash : Option Hash256
  inputIndex : Nat

def edgeData : Call → Option EdgeData
  | .edge value up i script size down n _ _ =>
    some ⟨value, up.value, i, script, size, down.value, n⟩
  | _ => none

/-- What endOutput says about an output. -/
structure OutputData where
  value : Nat
  txHash : Option Hash256
  outputIndex : Nat
  outputScript : List UInt8
  outputScriptSize : Nat

def outputData : Call → Option OutputData
  | .endOutput _ value h i script size => some ⟨value, h.value, i, script, size⟩
  | _ => none

def TxOutput.data (o : TxOutput) (id : Hash256) (i : Nat) : OutputData :=
  ⟨o.value.toNat, some id, i, o.script, o.script.length⟩

/-- An input with a non-null hash, its place, and the transactions before its own. -/
structure Site where
  earlier : List Tx
  tx : Tx
  index : Nat
  input : TxInput

def inputSites (earlier : List Tx) (t : Tx) : Nat → List TxInput → List Site
  | _, [] => []
  | i, x :: xs =>
    if x.prevHash = nullHash then inputSites earlier t (i + 1) xs
    else ⟨earlier, t, i, x⟩ :: inputSites earlier t (i + 1) xs

def sites : List Tx → List Tx → List Site
  | _, [] => []
  | earlier, t :: ts => inputSites earlier t 0 t.inputs ++ sites (earlier ++ [t]) ts

/-- The edge hands on exactly what endOutput said about the named output. -/
def Names (env : Env) (x : Site) (e : EdgeData) : Prop :=
  ∃ u ∈ x.earlier, txid env u = x.input.prevHash ∧
    ∃ o, u.outputs[x.input.prevIndex.toNat]? = some o ∧
      (⟨e.value, e.upTXHash, e.outputIndex, e.outputScript, e.outputScriptSize⟩ : OutputData) =
        TxOutput.data o (txid env u) x.input.prevIndex.toNat ∧
      e.downTXHash = some (txid env x.tx) ∧ e.inputIndex = x.index

/-- The outputs named so far. -/
def spent (ts : List Tx) : List (Hash256 × Nat) := ts.flatMap spendsOf

/-- gTXOMap has an entry for a transaction exactly while it has an unspent output, and
the slots of the entry are non-null exactly for the unspent ones. -/
def StoreMatches (env : Env) (ts : List Tx) (s : State) : Prop :=
  ∀ id, (findTXO s id ≠ none ↔
      ∃ t ∈ ts, txid env t = id ∧ ∃ i, i < t.outputs.length ∧ (id, i) ∉ spent ts) ∧
    ∀ e, findTXO s id = some e → ∀ t ∈ ts, txid env t = id → ∀ i,
      (∃ a, loadSlot s.heap (s.heap.cells e.2).mRawData i = some (some a)) ↔
        i < t.outputs.length ∧ (id, i) ∉ spent ts

variable {loc : Role → Addr} {K : Addr → Hash256 → Prop} {L : TXOs} {s : State} {env : Env}
  {ts : List Tx} {t : Tx}

theorem foldl_spendInput (L : TXOs) (xs : List TxInput) :
    xs.foldl spendInput L =
      L.spendAll ((xs.filter fun x => x.prevHash ≠ nullHash).map
        fun x => (x.prevHash, x.prevIndex.toNat)) := by
  induction xs generalizing L with
  | nil => rfl
  | cons x xs ih =>
    rw [List.foldl_cons, ih]
    by_cases hx : x.prevHash = nullHash
    · simp [spendInput, hx]
    · simp [spendInput, hx, Ledger.spendAll]

theorem afterTX_eq (L : TXOs) (t : Tx) :
    afterTX L (txid env t) t = L.apply (entryOf env t) := by
  rw [afterTX, foldl_spendInput]
  rfl

/-- Distinct unspent outputs can be spent one after the other. -/
theorem allInputs_spends (xs : List TxInput) (L : TXOs)
    (hun : ∀ x ∈ xs, x.prevHash ≠ nullHash → ∃ o, L.unspent x.prevHash x.prevIndex.toNat = some o)
    (hnd : ((xs.filter fun x => x.prevHash ≠ nullHash).map
      fun x => (x.prevHash, x.prevIndex.toNat)).Nodup) : AllInputs Spends L xs := by
  induction xs generalizing L with
  | nil => trivial
  | cons x xs ih =>
    refine ⟨?_, ?_⟩
    · by_cases hx : x.prevHash = nullHash
      · exact Or.inl hx
      · exact Or.inr (hun x (by simp) hx)
    · by_cases hx : x.prevHash = nullHash
      · rw [spendInput, if_pos hx]
        refine ih L (fun y hy => hun y (by simp [hy])) ?_
        simpa [hx] using hnd
      · rw [spendInput, if_neg hx]
        rw [List.filter_cons_of_pos (by simpa using hx), List.map_cons, List.nodup_cons] at hnd
        refine ih _ ?_ hnd.2
        intro y hy hyn
        obtain ⟨o, ho⟩ := hun y (by simp [hy]) hyn
        refine ⟨o, ?_⟩
        rw [Ledger.unspent_spend, if_neg, ho]
        intro he
        refine hnd.1 (List.mem_map.mpr ⟨y, ?_, he⟩)
        simp [hy, hyn]

theorem spent_eq (ts : List Tx) : (ts.map (entryOf env)).flatMap Utxo.Tx.spends = spent ts := by
  rw [List.flatMap_map]
  rfl

/-- What the ledger of a valid chain holds unspent. -/
theorem chain_unspent (hv : ValidChain env ts) (id : Hash256) (i : Nat) (o : TxOutput) :
    (ledger (ts.map (entryOf env))).unspent id i = some o ↔
      ∃ t ∈ ts, txid env t = id ∧ t.outputs[i]? = some o ∧ (id, i) ∉ spent ts := by
  rw [ledger_unspent hv, spent_eq]
  simp [entryOf]

theorem ValidChain.initial {pre post : List Tx} (hv : ValidChain env (pre ++ post)) :
    ValidChain env pre := by
  rw [ValidChain, List.map_append] at hv
  exact Valid.initial hv

/-- A transaction has an entry while one of its outputs is not named. -/
theorem chain_entry (hv : ValidChain env ts) {u : Tx} (hu : u ∈ ts) :
    ledger (ts.map (entryOf env)) (txid env u) ≠ none ↔
      ∃ i, i < u.outputs.length ∧ (txid env u, i) ∉ spent ts := by
  rw [ledger_entry hv, spent_eq]
  constructor
  · rintro ⟨x, hx, hid, i, hi, hns⟩
    have hxu : x = entryOf env u :=
      List.inj_on_of_nodup_map hv.ids hx (List.mem_map_of_mem hu) hid
    exact ⟨i, by rwa [hxu] at hi, hns⟩
  · rintro ⟨i, hi, hns⟩
    exact ⟨entryOf env u, List.mem_map_of_mem hu, rfl, i, hi, hns⟩

/-- The next transaction of a valid chain finds what its inputs name. -/
theorem next_spends {pre post : List Tx} (hv : ValidChain env (pre ++ t :: post)) :
    AllInputs Spends (ledger (pre.map (entryOf env))) t.inputs ∧
    t.outputs ≠ [] ∧
    t.inputs.foldl spendInput (ledger (pre.map (entryOf env))) (txid env t) = none := by
  have hv' : Valid (pre.map (entryOf env) ++ entryOf env t :: post.map (entryOf env)) := by
    simpa [ValidChain] using hv
  have hpre : ValidChain env pre := ValidChain.initial hv
  have honce := hv'.once
  rw [List.flatMap_append, List.flatMap_cons, List.nodup_append] at honce
  refine ⟨allInputs_spends _ _ ?_ (List.nodup_append.mp honce.2.1).1,
    hv'.outs (entryOf env t) (by simp), ?_⟩
  · intro x hx hxn
    have hmem : (x.prevHash, x.prevIndex.toNat) ∈ (entryOf env t).spends :=
      List.mem_map.mpr ⟨x, by simp [hx, hxn], rfl⟩
    obtain ⟨u, hu, hid, hlt⟩ := hv'.named _ _ _ rfl _ hmem
    refine ⟨u.outs[x.prevIndex.toNat], (ledger_unspent hpre _ _ _).mpr ⟨u, hu, hid, ?_, ?_⟩⟩
    · simp [hlt]
    · intro hsp
      exact honce.2.2 _ hsp _ (List.mem_append_left _ hmem) rfl
  · -- no earlier transaction has this id
    rw [foldl_spendInput]
    have hnone : ledger (pre.map (entryOf env)) (txid env t) = none := by
      by_contra hne
      obtain ⟨u, hu, hid, -⟩ := (ledger_entry hpre _).mp hne
      have hids := hv'.ids
      rw [List.map_append, List.nodup_append] at hids
      exact hids.2.2 u.id (List.mem_map_of_mem hu) (txid env t) (by simp [entryOf]) hid
    by_contra hne
    exact (Ledger.spendAll_subset hne) hnone

theorem inputCalls_edgeData (x : TxInput) (edge : List Call) (p : Ptr) :
    (inputCalls x edge p).filterMap edgeData = edge.filterMap edgeData := by
  rw [inputCalls, List.filterMap_append, List.filterMap_append]
  exact List.append_nil _

theorem inputCalls_outputData (x : TxInput) (edge : List Call) (p : Ptr) :
    (inputCalls x edge p).filterMap outputData = edge.filterMap outputData := by
  rw [inputCalls, List.filterMap_append, List.filterMap_append]
  exact List.append_nil _

theorem inputsCalls_outputData (h : HashArg) (L : TXOs) (i : Nat) (p : Ptr) (xs : List TxInput) :
    (inputsCalls (edgeCall h) L i p xs).filterMap outputData = [] := by
  induction xs generalizing L i p with
  | nil => rfl
  | cons x xs ih =>
    have hedge : (edgeCall h L i x).filterMap outputData = [] := by
      unfold edgeCall
      split
      · rfl
      · split <;> rfl
    rw [inputsCalls, List.filterMap_append, inputCalls_outputData, hedge, ih]
    rfl

theorem outputsCalls_edgeData (h : HashArg) (i : Nat) (p : Ptr) (os : List TxOutput) :
    (outputsCalls h i p os).filterMap edgeData = [] := by
  induction os generalizing i p with
  | nil => rfl
  | cons o os ih =>
    rw [outputsCalls, List.filterMap_append, ih]
    rfl

theorem outputsCalls_outputData (h : HashArg) {id : Hash256} (hid : h.value = some id) (i : Nat)
    (p : Ptr) (os : List TxOutput) :
    (outputsCalls h i p os).filterMap outputData =
      os.mapIdx fun j o => TxOutput.data o id (i + j) := by
  induction os generalizing i p with
  | nil => rfl
  | cons o os ih =>
    have hone : (outputCalls o h i p).filterMap outputData = [TxOutput.data o id i] := by
      rw [TxOutput.data, ← hid]
      rfl
    have hshift : ∀ j, i + 1 + j = i + (j + 1) := fun j => by omega
    rw [outputsCalls, List.filterMap_append, hone, ih, List.mapIdx_cons]
    simp only [hshift]
    rfl

/-- Each input with a non-null hash has its edge, with the data of the output it names. -/
theorem inputsCalls_edgeData {pre : List Tx} {h : HashArg} (hid : h.value = some (txid env t))
    (xs : List TxInput) (L : TXOs)
    (hL : ∀ id i o, L.unspent id i = some o → ∃ u ∈ pre, txid env u = id ∧ u.outputs[i]? = some o)
    (hsp : AllInputs Spends L xs) (i : Nat) (p : Ptr) :
    List.Forall₂ (Names env) (inputSites pre t i xs)
      ((inputsCalls (edgeCall h) L i p xs).filterMap edgeData) := by
  induction xs generalizing L i p with
  | nil => exact List.Forall₂.nil
  | cons x xs ih =>
    by_cases hx : x.prevHash = nullHash
    · have hspend : spendInput L x = L := if_pos hx
      have hrest := ih L hL (by simpa [hspend] using hsp.2) (i + 1) (p + x.encode.length)
      rw [inputsCalls, List.filterMap_append, inputCalls_edgeData, edgeCall, if_pos hx, inputSites,
        if_pos hx, hspend]
      exact hrest
    · obtain ⟨o, ho⟩ := hsp.1.resolve_left hx
      have hspend : spendInput L x = L.spend x.prevHash x.prevIndex.toNat := if_neg hx
      obtain ⟨u, hu, huid, huo⟩ := hL _ _ _ ho
      have hrest := ih (spendInput L x) ?_ hsp.2 (i + 1) (p + x.encode.length)
      · have hname : Names env ⟨pre, t, i, x⟩ ⟨o.value.toNat, some x.prevHash, x.prevIndex.toNat,
            o.script, o.script.length, h.value, i⟩ :=
          ⟨u, hu, huid, o, huo, by rw [TxOutput.data, huid], hid, rfl⟩
        rw [inputsCalls, List.filterMap_append, inputCalls_edgeData, edgeCall, if_neg hx, ho,
          inputSites, if_neg hx]
        exact List.Forall₂.cons hname hrest
      · intro id j o' ho'
        rw [hspend, Ledger.unspent_spend] at ho'
        split at ho'
        · cases ho'
        · exact hL id j o' ho'

/-- The next transaction of a valid chain is parsed, and the store follows. -/
theorem chain_step {pre post : List Tx} {m : Memory} {p : Ptr} (hneed : env.gNeedUpstream = true)
    (hv : ValidChain env (pre ++ t :: post)) (hfit : Fits t)
    (hs : Rep loc ∅ K (ledger (pre.map (entryOf env))) s)
    (hnew : ∀ v, ¬K (s.heap.alloc .uint256).1 v) (hm : Holds m p (t.encode env.coin)) :
    ∃ k s₁ s', k = (s.heap.alloc .uint256).1 ∧
      parseTX env false m p s = .ok (p + (t.encode env.coin).length) s' ∧
      s₁.calls = s.calls ∧ s₁.views = s.views ∧ s₁.heap.hashGarbage = s.heap.hashGarbage.tail ∧
      (∃ loc, Rep loc ∅ (withKey K k (txid env t)) (ledger ((pre ++ [t]).map (entryOf env))) s') ∧
      Logs (withKey K k (txid env t))
        (txCalls env.coin (edgeCall ⟨some k, some (txid env t)⟩) ⟨some k, some (txid env t)⟩
          (ledger (pre.map (entryOf env))) t p) s₁ s' := by
  obtain ⟨hsp, hout, hfresh⟩ := next_spends hv
  have hpre : ValidChain env pre := ValidChain.initial hv
  have hrun := parseTX_run hneed hs (ledger_complete hpre.outs) hnew hsp hfit hout hfresh hm
  rw [List.map_append, List.map_singleton, ledger_append, ← afterTX_eq]
  exact hrun

theorem txCalls_data {pre post : List Tx} {h : HashArg} (hid : h.value = some (txid env t))
    (hv : ValidChain env (pre ++ t :: post)) (p : Ptr) :
    List.Forall₂ (Names env) (inputSites pre t 0 t.inputs)
      ((txCalls env.coin (edgeCall h) h (ledger (pre.map (entryOf env))) t p).filterMap edgeData) ∧
    (txCalls env.coin (edgeCall h) h (ledger (pre.map (entryOf env))) t p).filterMap outputData =
      t.outputs.mapIdx fun i o => TxOutput.data o (txid env t) i := by
  have hpre : ValidChain env pre := ValidChain.initial hv
  have hL : ∀ id i o, (ledger (pre.map (entryOf env))).unspent id i = some o →
      ∃ u ∈ pre, txid env u = id ∧ u.outputs[i]? = some o := by
    intro id i o ho
    obtain ⟨u, hu, huid, huo, -⟩ := (chain_unspent hpre id i o).mp ho
    exact ⟨u, hu, huid, huo⟩
  have hin := inputsCalls_edgeData (t := t) hid t.inputs _ hL (next_spends hv).1 0
    (t.inputsAt env.coin p + (encodeVarInt t.inputs.length).length)
  refine ⟨?_, ?_⟩
  · rw [txCalls]
    simp only [List.filterMap_append, outputsCalls_edgeData]
    show List.Forall₂ _ _ ([] ++ (([] ++ (_ ++ [])) ++ (([] ++ ([] ++ [])) ++ [])))
    simpa using hin
  · rw [txCalls]
    simp only [List.filterMap_append, inputsCalls_outputData, outputsCalls_outputData h hid]
    show [] ++ (([] ++ ([] ++ [])) ++ (([] ++ (_ ++ [])) ++ [])) = _
    simp

/-- The run lemma: from the store of the transactions before it, a chain is parsed to its
end, with the edges its inputs ask for and the outputs it has. -/
theorem runTXs_run (hneed : env.gNeedUpstream = true) (xs : List (Placed env.coin))
    (pre : List Tx) (s : State) (hv : ValidChain env (pre ++ xs.map Placed.tx))
    (hfit : ∀ x ∈ xs, Fits x.tx) (hs : Represents (ledger (pre.map (entryOf env))) s) :
    ∃ s' w, runTXs env xs s = .ok () s' ∧
      Represents (ledger ((pre ++ xs.map Placed.tx).map (entryOf env))) s' ∧
      s'.calls = s.calls ++ w ∧ (∃ vs, s'.views = s.views ++ vs) ∧
      List.Forall₂ (Names env) (sites pre (xs.map Placed.tx)) (w.filterMap edgeData) ∧
      w.filterMap outputData = (xs.map Placed.tx).flatMap fun t =>
        t.outputs.mapIdx fun i o => TxOutput.data o (txid env t) i := by
  induction xs generalizing pre s with
  | nil => exact ⟨s, [], rfl, by simpa using hs, by simp, ⟨[], by simp⟩, List.Forall₂.nil, rfl⟩
  | cons x xs ih =>
    rw [List.map_cons] at hv ⊢
    obtain ⟨hL, loc, hrep⟩ := hs
    obtain ⟨k, s₁, s₂, -, hrun, hcalls, hviews, -, ⟨loc', hrep'⟩, hlog⟩ :=
      chain_step hneed hv (hfit x (by simp)) hrep (Rep.alloc_notKey hrep) x.holds
    obtain ⟨vs, hvs, -⟩ := hlog.views
    obtain ⟨hedges, houts⟩ := txCalls_data (h := ⟨some k, some (txid env x.tx)⟩) rfl hv x.ptr
    have hv' : ValidChain env ((pre ++ [x.tx]) ++ xs.map Placed.tx) := by simpa using hv
    have hL' : Ledger.Complete (ledger ((pre ++ [x.tx]).map (entryOf env))) := by
      refine ledger_complete fun u hu => hv'.outs u ?_
      rw [List.map_append]
      exact List.mem_append_left _ hu
    obtain ⟨s', w, hrun', hrep'', hcalls', ⟨us, hus⟩, hedges', houts'⟩ := ih (pre ++ [x.tx]) s₂ hv'
      (fun y hy => hfit y (by simp [hy])) (represents_of_rep hL' hrep')
    refine ⟨s', txCalls env.coin (edgeCall ⟨some k, some (txid env x.tx)⟩)
      ⟨some k, some (txid env x.tx)⟩ (ledger (pre.map (entryOf env))) x.tx x.ptr ++ w,
      (run_bind_ok hrun).trans hrun', by simpa using hrep'', ?_, ⟨vs ++ us, ?_⟩, ?_, ?_⟩
    · rw [hcalls', hlog.calls, hcalls, List.append_assoc]
    · rw [hus, hvs, hviews, List.append_assoc]
    · rw [List.filterMap_append]
      exact List.rel_append hedges hedges'
    · rw [List.filterMap_append, houts, houts', List.flatMap_cons]

/-- A store that holds the ledger of a valid chain matches it. -/
theorem storeMatches_of_represents (hv : ValidChain env ts)
    (hs : Represents (ledger (ts.map (entryOf env))) s) : StoreMatches env ts s := by
  obtain ⟨hL, loc, hrep⟩ := hs
  intro id
  have hentry : ledger (ts.map (entryOf env)) id ≠ none ↔
      ∃ t ∈ ts, txid env t = id ∧ ∃ i, i < t.outputs.length ∧ (id, i) ∉ spent ts := by
    rw [ledger_entry hv, spent_eq]
    simp [entryOf]
  rw [hrep.findTXO]
  by_cases hnone : ledger (ts.map (entryOf env)) id = none
  · rw [if_pos hnone, ← hentry]
    exact ⟨by simp [hnone], fun e he => nomatch he⟩
  · rw [if_neg hnone, ← hentry]
    refine ⟨by simp [hnone], ?_⟩
    intro e he t ht hid i
    obtain rfl := Option.some_inj.mp he
    obtain ⟨e, hLe⟩ := Option.ne_none_iff_exists'.mp hnone
    obtain ⟨hlen, hslots⟩ := hrep.holding.shows _ (ptrs_mem hLe) e hLe
    have hchunk : s.heap.cells (loc (.txo id)) = .txChunk ((loc (.ptrs id)).add 8) :=
      hrep.holding.shows _ (txo_mem hLe)
    have hun : (∃ o, (ledger (ts.map (entryOf env))).unspent id i = some o) ↔
        i < t.outputs.length ∧ (id, i) ∉ spent ts := by
      constructor
      · rintro ⟨o, ho⟩
        obtain ⟨u, hu, huid, huo, hns⟩ := (chain_unspent hv id i o).mp ho
        have hut : entryOf env u = entryOf env t := List.inj_on_of_nodup_map hv.ids
          (List.mem_map_of_mem hu) (List.mem_map_of_mem ht) (huid.trans hid.symm)
        rw [show u.outputs = t.outputs from congrArg Utxo.Tx.outs hut] at huo
        exact ⟨(List.getElem?_eq_some_iff.mp huo).1, hns⟩
      · rintro ⟨hi, hns⟩
        exact ⟨t.outputs[i], (chain_unspent hv id i _).mpr ⟨t, ht, hid, by simp [hi], hns⟩⟩
    rw [← hun, mapEntry, hchunk, Cell.mRawData_txChunk, loadSlot, Addr.sub_add, hlen,
      ← (hL id e hLe).1]
    by_cases hi : i < e.slots.length
    · rw [if_pos (by exact_mod_cast hi), hslots i hi]
      by_cases hsome : (ledger (ts.map (entryOf env))).unspent id i = none
      · simp [hsome]
      · obtain ⟨o, ho⟩ := Option.ne_none_iff_exists'.mp hsome
        simp [ho]
    · rw [if_neg (by exact_mod_cast hi)]
      have hout : (ledger (ts.map (entryOf env))).unspent id i = none := by
        rw [Ledger.unspent, hLe, Option.bind_some, List.getElem?_eq_none (by omega)]
        rfl
      simp [hout]

/-- Over every valid chain whose sizes fit their casts, after every transaction: the run
has not stopped, each input with a non-null hash has had its one edge, which handed on
what endOutput had said about the output, and gTXOMap holds exactly what is unspent. -/
theorem runTXs_keeps_store (env : Env) (hneed : env.gNeedUpstream = true) (s : State)
    (hs : s.heap.Valid ∅) (hmap : s.gTXOMap = []) (xs : List (Placed env.coin))
    (hv : ValidChain env (xs.map Placed.tx)) (hfit : ∀ x ∈ xs, Fits x.tx) :
    ∀ pre post, xs = pre ++ post → ∃ s' w, runTXs env pre s = .ok () s' ∧
      s'.calls = s.calls ++ w ∧
      List.Forall₂ (Names env) (sites [] (pre.map Placed.tx)) (w.filterMap edgeData) ∧
      (w.filterMap outputData = (pre.map Placed.tx).flatMap fun t =>
        t.outputs.mapIdx fun i o => TxOutput.data o (txid env t) i) ∧
      StoreMatches env (pre.map Placed.tx) s' := by
  intro pre post he
  subst he
  rw [List.map_append] at hv
  have hpre : ValidChain env (pre.map Placed.tx) := ValidChain.initial hv
  obtain ⟨s', w, hrun, hrep, hcalls, -, hedges, houts⟩ := runTXs_run hneed pre [] s hpre
    (fun x hx => hfit x (List.mem_append_left _ hx)) (empty_represents hs hmap)
  exact ⟨s', w, hrun, hcalls, hedges, houts, storeMatches_of_represents hpre hrep⟩

section
variable {all pre post : List Tx} {t u : Tx} {x : TxInput}

theorem find_txid (hv : ValidChain env all) (hu : u ∈ all) :
    (all.find? fun w => txid env w = txid env u) = some u := by
  have hnd : (all.map (txid env)).Nodup := by
    have := hv.ids
    rwa [List.map_map] at this
  cases hf : all.find? fun w => txid env w = txid env u with
  | none =>
    have := List.find?_eq_none.mp hf u hu
    simp at this
  | some w =>
    have hw := List.find?_some hf
    rw [decide_eq_true_iff] at hw
    rw [List.inj_on_of_nodup_map hnd (List.mem_of_find?_eq_some hf) hu hw]

/-- An input that is no generation input names an output of an earlier transaction. -/
theorem named (hv : ValidChain env (pre ++ t :: post)) (hx : x ∈ t.inputs)
    (hn : x.prevHash ≠ nullHash) : ∃ u ∈ pre, txid env u = x.prevHash ∧
      x.prevIndex.toNat < u.outputs.length := by
  have hv' : Valid (pre.map (entryOf env) ++ entryOf env t :: post.map (entryOf env)) := by
    simpa [ValidChain] using hv
  have hmem : (x.prevHash, x.prevIndex.toNat) ∈ (entryOf env t).spends :=
    List.mem_map.mpr ⟨x, by simp [hx, hn], rfl⟩
  obtain ⟨e, he, hid, hlt⟩ := hv'.named _ _ _ rfl _ hmem
  obtain ⟨u, hu, rfl⟩ := List.mem_map.mp he
  exact ⟨u, hu, hid, hlt⟩

theorem txid_ne (hv : ValidChain env (pre ++ t :: post)) (hu : u ∈ pre) :
    txid env u ≠ txid env t := by
  have hnd := hv.ids
  rw [List.map_append, List.map_append, List.map_cons, List.map_cons, List.nodup_append] at hnd
  exact hnd.2.2 _ (List.mem_map_of_mem (List.mem_map_of_mem hu)) _ (List.mem_cons_self ..)

theorem mem_of_txid (hv : ValidChain env all) (hall : all = pre ++ t :: post) (hu : u ∈ all)
    {w : Tx} (hw : w ∈ pre) (hid : txid env w = txid env u) : u ∈ pre := by
  have hwu : some w = some u := by
    rw [← find_txid hv hu, ← hid]
    exact (find_txid hv (by simp [hall, hw])).symm
  cases hwu
  exact hw

end

/-- A digest that keeps the first 32 bytes. -/
def prefixHash (bs : List UInt8) : Hash256 := ⟨(bs ++ List.replicate 32 0).take 32, by simp⟩

def prefixEnv : Env := ⟨.bitcoin, true, prefixHash, fun _ => false⟩

/-- Spends the one output of `mintTx`. -/
def spendTx : Tx := { mintTx with
  inputs := [⟨txid prefixEnv mintTx, 0, [], 0, length_nil_lt⟩]
  inputs_lt := by decide }

def placedAtZero (coin : Coin) (t : Tx) : Placed coin :=
  ⟨ofList (t.encode coin) fun _ => 0, 0, t, read_ofList _ _⟩

theorem spendChain_valid : ValidChain prefixEnv [mintTx, spendTx] := by
  have hmint : Valid [entryOf prefixEnv mintTx] :=
    Valid.nil.snoc (t := entryOf prefixEnv mintTx) (by simp) (by decide) (by decide)
      (fun o ho => nomatch ho)
  exact hmint.snoc (t := entryOf prefixEnv spendTx) (by decide) (by decide) (by decide) (by decide)

/-- A transaction after `spendTx`, which has spent the last output of `mintTx`. -/
def laterTx : Tx := { mintTx with version := 2 }

theorem laterChain_valid : ValidChain prefixEnv [mintTx, spendTx, laterTx] :=
  spendChain_valid.snoc (t := entryOf prefixEnv laterTx) (by decide) (by decide) (by decide)
    (fun o ho => nomatch ho)

/-- The edge of `spendTx`, and its other calls. -/
theorem spendTx_calls (h : HashArg) :
    txCalls .bitcoin (edgeCall h) h (ledger [entryOf prefixEnv mintTx]) spendTx 0 =
      [.startTX 0 h, .startInputs 4, .startInput 5,
        .edge 50 ⟨none, some (txid prefixEnv mintTx)⟩ 0 [0x51] 1 h 0 [] 0, .endInput 46,
        .endInputs 46, .startOutputs 46, .startOutput 47, .endOutput 57 50 h 0 [0x51] 1,
        .endOutputs 57, .endTX 61] := by
  have hun : (ledger [entryOf prefixEnv mintTx]).unspent (txid prefixEnv mintTx) 0 =
      some ⟨50, [0x51], by decide⟩ := by
    rfl
  have hedge : edgeCall h (ledger [entryOf prefixEnv mintTx]) 0
      ⟨txid prefixEnv mintTx, 0, [], 0, length_nil_lt⟩ =
        [.edge 50 ⟨none, some (txid prefixEnv mintTx)⟩ 0 [0x51] 1 h 0 [] 0] := by
    have hnull : txid prefixEnv mintTx ≠ nullHash := by decide +kernel
    have hidx : (0 : UInt32).toNat = 0 := rfl
    unfold edgeCall
    dsimp only
    rw [if_neg hnull, hidx, hun]
    rfl
  have hinputs : spendTx.inputs = [⟨txid prefixEnv mintTx, 0, [], 0, length_nil_lt⟩] := rfl
  unfold txCalls
  rw [hinputs, inputsCalls, inputsCalls, hedge]
  rfl

/-- After a transaction the store has its output, and one that spends it is decoded with the
edge that this makes. -/
theorem parseTX_decodes_spendTx : ∃ s s' k,
    runTXs prefixEnv [placedAtZero .bitcoin mintTx] .start = .ok () s ∧
    parseTX prefixEnv false (ofList (spendTx.encode .bitcoin) fun _ => 0) 0 s = .ok 61 s' ∧
    s'.calls = s.calls ++ (
      let h : HashArg := ⟨some k, some (txid prefixEnv spendTx)⟩
      [.startTX 0 h, .startInputs 4, .startInput 5,
        .edge 50 ⟨none, some (txid prefixEnv mintTx)⟩ 0 [0x51] 1 h 0 [] 0, .endInput 46,
        .endInputs 46, .startOutputs 46, .startOutput 47, .endOutput 57 50 h 0 [0x51] 1,
        .endOutputs 57, .endTX 61]) := by
  have hmint : ValidChain prefixEnv [mintTx] :=
    @ValidChain.initial prefixEnv [mintTx] [spendTx] spendChain_valid
  have hnext := @next_spends prefixEnv spendTx [mintTx] [] spendChain_valid
  obtain ⟨s, w, hrun, hrep, -⟩ := @runTXs_run prefixEnv rfl [placedAtZero .bitcoin mintTx] []
    .start hmint (by decide) (empty_represents Heap.start_valid rfl)
  have hm : Holds (ofList (spendTx.encode .bitcoin) fun _ => 0) 0
      (spendTx.encode .bitcoin ++ []) := by
    rw [List.append_nil]
    exact read_ofList _ _
  have hlen : (spendTx.encode prefixEnv.coin).length = 61 := by decide +kernel
  have hdecode := (parseTX_decodes prefixEnv _ 0 spendTx [] s _ hm).2.2.2 rfl hrep hnext.1
    ⟨by decide, by decide⟩ hnext.2.1
  rw [hlen] at hdecode
  obtain ⟨s', k, hparse, hcalls⟩ := hdecode
  refine ⟨s, s', k, hrun, hparse, ?_⟩
  rw [hcalls]
  exact congrArg _ (spendTx_calls _)

theorem runTXs_keeps_store_spendChain : ∃ s' w,
    runTXs prefixEnv [placedAtZero .bitcoin mintTx, placedAtZero .bitcoin spendTx] .start =
      .ok () s' ∧ s'.calls = w ∧
    List.Forall₂ (Names prefixEnv) (sites [] [mintTx, spendTx]) (w.filterMap edgeData) ∧
    StoreMatches prefixEnv [mintTx, spendTx] s' := by
  obtain ⟨s', w, hrun, hcalls, hedges, -, hstore⟩ := runTXs_keeps_store prefixEnv rfl .start
    Heap.start_valid rfl [placedAtZero .bitcoin mintTx, placedAtZero .bitcoin spendTx]
    spendChain_valid (by decide) [placedAtZero .bitcoin mintTx, placedAtZero .bitcoin spendTx] []
    (List.append_nil _).symm
  exact ⟨s', w, hrun, hcalls, hedges, hstore⟩

theorem allocTX_negative (h : Heap) {size : Int} (hs : size < 0) : allocTX h size = none := by
  have hnone : enumToLength.findIdx? (· == size) = none := by
    rw [List.findIdx?_eq_none_iff]
    intro x hx
    have hpos : 0 ≤ x := by
      revert x
      decide
    simp
    omega
  simp [allocTX, hnone, hs]

/-- An output of 2^31 bytes or more has a negative size as an int. -/
theorem storeOutput_stops {m : Memory} {txo : Addr} {i n : Nat} {p : Ptr} (hlo : 2 ^ 31 ≤ n)
    (hhi : n < 2 ^ 32) (s : State) : Stops (storeOutput m txo i p (p + n)) s := by
  have hint : toInt (p + (n : Int) - p).toNat < 0 := by
    rw [show (p + (n : Int) - p).toNat = n by omega, toInt, BitVec.toInt_eq_toNat_cond]
    simp
    omega
  have hstop : Stops (defined (allocTX s.heap (toInt (p + (n : Int) - p).toNat))) s := by
    rw [allocTX_negative _ hint]
    exact ⟨_, _, rfl⟩
  exact @Stops.right _ _ _ _ _ _ _ s s rfl (Stops.left hstop)

/-- The parse of a transaction with one output of that size stops in the middle of it. -/
theorem body_stops {m : Memory} {p : Ptr} {o : TxOutput} {k : Addr} {id : Hash256}
    (hneed : env.gNeedUpstream = true) (hK : K k id) (hin : t.inputs = []) (hout : t.outputs = [o])
    (hlo : 2 ^ 31 ≤ o.encode.length) (hhi : o.encode.length < 2 ^ 32)
    (hm : Holds m p (t.encode env.coin)) (hs : Full loc {k} K noEntries s) :
    Stops (parseTXBody env false m p (.ofCell k)) s := by
  obtain ⟨-, hmin, hmout, -⟩ := holds_encode hm
  rw [hout] at hmout
  obtain ⟨hmn, hmo⟩ := holds_append.mp hmout
  have hvar := loadVarInt_of_holds (n := 1) (by norm_num) hmn
  rw [encodeOutputs, List.flatMap_singleton] at hmo
  have hinputs := parseInputs_runs (I := Full loc {k} K) (h := .ofCell k) (fun _ => full_watches)
    (fun L i p x hx hok => parseInput_runs hneed
      (fun _ _ hs => arg_ofCell rep_watches hs hK) hx hok i)
    t.inputs_lt (L := noEntries) (by rw [hin]; trivial) hmin
  obtain ⟨s₁, h₁, hs₁, -⟩ := emit_runs full_watches (.startTX p ((HashPtr.ofCell k).arg s.heap)) s hs
  obtain ⟨s₂, h₂, hs₂, -⟩ := hinputs s₁ hs₁
  obtain ⟨a, s₃, h₃, hs₃, -⟩ := newTXO_run hneed hK (by rw [hin]; rfl) hs₂.1
  obtain ⟨s₄, h₄, hs₄, -⟩ := emit_runs opened_watches (.startOutputs _) s₃ hs₃
  obtain ⟨s₅, h₅, hs₅, -⟩ := allocRawData_runs (N := 1) (by norm_num) (by norm_num) s₄ hs₄
  obtain ⟨s₆, h₆, -⟩ := parseOutput_runs filling_watches
    (fun s hs => arg_ofCell filling_watches hs hK) hmo 0 s₅ hs₅
  refine Stops.of_eq (parseTXBody_eq s) ?_
  rw [beforeInputs_eq (t := t)]
  refine Stops.right h₁ (Stops.right h₂ (Stops.right h₃ (Stops.left ?_)))
  refine Stops.right h₄ ?_
  show Stops (do
    onlyIf true (allocRawData a (loadVarInt m (t.outputsAt env.coin p)).1)
    let q ← forCount (parseOutputsBody false m (.ofCell k) (some a))
      (loadVarInt m (t.outputsAt env.coin p)).1 0 (loadVarInt m (t.outputsAt env.coin p)).2
    emit (.endOutputs q)
    pure q) s₄
  rw [hvar]
  exact Stops.right h₅ (Stops.left (Stops.left (Stops.right h₆ (Stops.left
    (storeOutput_stops hlo hhi s₆)))))

theorem parseTX_stops {m : Memory} {p : Ptr} {o : TxOutput} (hneed : env.gNeedUpstream = true)
    (hs : Represents noEntries s) (hin : t.inputs = []) (hout : t.outputs = [o])
    (hlo : 2 ^ 31 ≤ o.encode.length) (hhi : o.encode.length < 2 ^ 32)
    (hm : Holds m p (t.encode env.coin)) : Stops (parseTX env false m p) s := by
  obtain ⟨hL, loc, hrep⟩ := hs
  obtain ⟨s₁, hhash, hrep₁, -⟩ := hashTX_run hneed hrep (Rep.alloc_notKey hrep) hm
  exact Stops.right hhash (body_stops hneed (Or.inr ⟨rfl, rfl⟩) hin hout hlo hhi hm ⟨hrep₁, hL⟩)

/-- A script whose bytes are too many for an int. -/
@[irreducible] def hugeScript : List UInt8 := List.replicate (2 ^ 31) 0

theorem length_hugeScript : hugeScript.length = 2 ^ 31 := by
  unfold hugeScript
  rw [List.length_replicate]

def hugeOutput : TxOutput where
  value := 0
  script := hugeScript
  script_lt := by rw [length_hugeScript]; norm_num

def hugeTx : Tx := { mintTx with
  outputs := [hugeOutput]
  outputs_lt := by decide }

theorem runTXs_huge : ¬ ∀ (env : Env) (s : State) (xs : List (Placed env.coin)),
    env.gNeedUpstream = true → s.heap.Valid ∅ → s.gTXOMap = [] →
    ValidChain env (xs.map Placed.tx) →
    ∃ s', runTXs env xs s = .ok () s' ∧ StoreMatches env (xs.map Placed.tx) s' := by
  intro h
  have hvalid : ValidChain bitcoinEnv [hugeTx] :=
    Valid.nil.snoc (t := entryOf bitcoinEnv hugeTx) (by simp) (by simp [entryOf, hugeTx])
      (by simp [entryOf, hugeTx, spendsOf, mintTx]) (by simp [entryOf, hugeTx, spendsOf, mintTx])
  obtain ⟨s', hrun, -⟩ := h bitcoinEnv .start [placedAtZero .bitcoin hugeTx] rfl Heap.start_valid
    rfl hvalid
  refine Stops.not_ok (Stops.left (parseTX_stops (t := hugeTx) rfl
    (empty_represents Heap.start_valid rfl) rfl (o := hugeOutput) rfl ?_ ?_ (read_ofList _ _))) hrun
  · rw [TxOutput.length_encode, show hugeOutput.script = hugeScript from rfl, length_hugeScript]
    omega
  · rw [TxOutput.length_encode, show hugeOutput.script = hugeScript from rfl, length_hugeScript]
    have : (encodeVarInt (2 ^ 31)).length = 5 := by decide
    omega

end Blockparser.Chain
