import Blockparser.Replay
import Blockparser.AddrTables

/-! What allBalances makes of a run over a valid chain, in terms of the transactions: the
outputs that none of them spends. -/
namespace Blockparser.UnspentCoins
open Bytes Utxo Balance Format Store Decode Transaction Chain Replay AllBalances ReservedKeys
open MemoryManager hiding Addr
open Blockparser.Parser hiding Coin State
open Upstream hiding Spends

/-- Output `i` of transaction `id`. -/
def coinOf (id : Hash256) (i : Nat) (o : TxOutput) : Coin := ⟨some id, i, o.value.toNat, o.script⟩

/-- The outputs of transaction `id`, from number `i` on. -/
def coinsFrom (id : Hash256) : Nat → List TxOutput → List Coin
  | _, [] => []
  | i, o :: os => coinOf id i o :: coinsFrom id (i + 1) os

variable (env : Env)

/-- The outputs that are created and not spent by any of the transactions. -/
def unspentOutputs (ts : List Tx) : List Coin :=
  ts.flatMap fun t => (coinsFrom (txid env t) 0 t.outputs).filter fun c =>
    (txid env t, c.outputIndex) ∉ spent ts

/-- What they come to. -/
def worth (coins : Multiset Coin) : Nat := (coins.map Coin.value).sum

/-- At no point of the history are there 2^63 satoshis or more. -/
def Supply (ts : List Tx) : Prop := ∀ pre, pre <+: ts → worth (unspentOutputs env pre) < 2 ^ 63

/-- What `h` may spend after the transactions. -/
def owed (cfg : Config) (ts : List Tx) (h : Hash160) : Nat := total cfg (unspentOutputs env ts) h

/-- The records are those of what each address may spend, if it is asked for. One that may
spend nothing has a record only with `--detailed`. -/
def TellsOwed (cfg : Config) (ts : List Tx) (record : Hash160 → Option Addr) : Prop :=
  ∀ h, (cfg.Allows h → (∀ a, record h = some a → a.hash = (h, 0) ∧
        a.sum.toNat = owed env cfg ts h) ∧
      (record h = none → owed env cfg ts h = 0) ∧
      (cfg.detailed = false → owed env cfg ts h = 0 → record h = none)) ∧
    (¬cfg.Allows h → record h = none)

/-- No output that is counted pays to a key the table of the records has for its marks. -/
def PaysUnreserved (cfg : Config) (ts : List Tx) : Prop :=
  ∀ t ∈ ts, ∀ o ∈ t.outputs, ∀ h, cfg.account o.script = some h → cfg.Allows h →
    h ≠ reservedHash 0x52 ∧ (cfg.detailed = false → h ≠ reservedHash 0x53)

/-- The coins are the unspent outputs of the ledger. -/
structure Tracks (L : TXOs) (coins : Multiset Coin) : Prop where
  nodup : coins.Nodup
  mem_iff : ∀ c, c ∈ coins ↔ ∃ id i o, c = coinOf id i o ∧ L.unspent id i = some o

/-- The calls are as the command needs them, and take the coins to `coins'`. -/
structure Moves (cfg : Config) (coins : Multiset Coin) (calls : List Call)
    (coins' : Multiset Coin) : Prop where
  valid : ValidCalls cfg coins calls
  after : calls.foldl unspentAfter coins = coins'

variable {env} {cfg : Config} {coins coins' coins'' : Multiset Coin} {L : TXOs} {t : Tx} {p : Ptr}
  {calls calls' : List Call} {pre post ts : List Tx}

theorem coinOf_inj {id id' : Hash256} {i i' : Nat} {o o' : TxOutput}
    (h : coinOf id i o = coinOf id' i' o') : id = id' ∧ i = i' := by
  simp only [coinOf, Coin.mk.injEq, Option.some.injEq] at h
  exact ⟨h.1, h.2.1⟩

theorem mem_coinsFrom {id : Hash256} {i : Nat} {os : List TxOutput} {c : Coin} :
    c ∈ coinsFrom id i os ↔ ∃ j o, os[j]? = some o ∧ c = coinOf id (i + j) o := by
  induction os generalizing i with
  | nil => simp [coinsFrom]
  | cons o os ih =>
    rw [coinsFrom, List.mem_cons, ih]
    constructor
    · intro hc
      cases hc with
      | inl h => exact ⟨0, o, rfl, h⟩
      | inr h =>
        obtain ⟨j, o', ho, hc⟩ := h
        refine ⟨j + 1, o', ho, ?_⟩
        rw [hc, Nat.add_right_comm, Nat.add_assoc]
    · intro hx
      obtain ⟨j, o', ho, hc⟩ := hx
      cases j with
      | zero =>
        cases ho
        exact Or.inl hc
      | succ j =>
        refine Or.inr ⟨j, o', ho, ?_⟩
        rw [hc, Nat.add_right_comm, Nat.add_assoc]

theorem nodup_coinsFrom (id : Hash256) (i : Nat) (os : List TxOutput) :
    (coinsFrom id i os).Nodup := by
  induction os generalizing i with
  | nil => exact List.nodup_nil
  | cons o os ih =>
    refine List.nodup_cons.mpr ⟨?_, ih (i + 1)⟩
    intro hmem
    obtain ⟨j, o', -, hc⟩ := mem_coinsFrom.mp hmem
    have := (coinOf_inj hc).2
    omega

/-! The coins of a ledger. -/

theorem Tracks.unique (h : Tracks L coins) (h' : Tracks L coins') : coins = coins' := by
  refine (Multiset.Nodup.ext h.nodup h'.nodup).mpr fun c => ?_
  rw [h.mem_iff, h'.mem_iff]

/-- An output that is spent leaves the coins. -/
theorem Tracks.spend (h : Tracks L coins) {id : Hash256} {i : Nat} {o : TxOutput}
    (ho : L.unspent id i = some o) : Tracks (L.spend id i) (coins.erase (coinOf id i o)) where
  nodup := h.nodup.erase _
  mem_iff c := by
    rw [h.nodup.mem_erase_iff, h.mem_iff]
    constructor
    · intro hx
      obtain ⟨hne, id', i', o', hc, ho'⟩ := hx
      refine ⟨id', i', o', hc, ?_⟩
      rw [Ledger.unspent_spend, if_neg, ho']
      intro heq
      obtain ⟨rfl, rfl⟩ := Prod.mk.inj heq
      rw [ho] at ho'
      cases ho'
      exact hne hc
    · intro hx
      obtain ⟨id', i', o', hc, ho'⟩ := hx
      rw [Ledger.unspent_spend] at ho'
      split at ho'
      · cases ho'
      · next hne =>
        refine ⟨?_, id', i', o', hc, ho'⟩
        intro heq
        rw [hc] at heq
        obtain ⟨hid, hi⟩ := coinOf_inj heq
        exact hne (by rw [hid, hi])

/-- The outputs of a new transaction join the coins. -/
theorem Tracks.create (h : Tracks L coins) {id : Hash256} (hnew : L id = none)
    (os : List TxOutput) : Tracks (L.create id os) (coinsFrom id 0 os + coins) where
  nodup := by
    refine Multiset.nodup_add.mpr ⟨nodup_coinsFrom id 0 os, h.nodup, ?_⟩
    refine Multiset.disjoint_left.mpr ?_
    intro c hc hcoins
    obtain ⟨j, o, -, rfl⟩ := mem_coinsFrom.mp hc
    obtain ⟨id', i', o', heq, ho'⟩ := (h.mem_iff _).mp hcoins
    obtain ⟨rfl, -⟩ := coinOf_inj heq
    rw [Ledger.unspent, hnew] at ho'
    cases ho'
  mem_iff c := by
    rw [Multiset.mem_add, Multiset.mem_coe, mem_coinsFrom, h.mem_iff]
    simp only [Nat.zero_add, Ledger.unspent_create]
    constructor
    · intro hc
      cases hc with
      | inl hc =>
        obtain ⟨j, o, ho, hc⟩ := hc
        exact ⟨id, j, o, hc, by rw [if_pos rfl, ho]⟩
      | inr hc =>
        obtain ⟨id', i, o, hc, ho⟩ := hc
        have hne : id' ≠ id := by
          intro heq
          rw [heq, Ledger.unspent, hnew] at ho
          cases ho
        exact ⟨id', i, o, hc, by rw [if_neg hne, ho]⟩
    · intro hx
      obtain ⟨id', i, o, hc, ho⟩ := hx
      split at ho
      · next heq => exact Or.inl ⟨i, o, ho, by rw [hc, heq]⟩
      · exact Or.inr ⟨id', i, o, hc, ho⟩

theorem mem_unspentOutputs {c : Coin} : c ∈ unspentOutputs env ts ↔
    ∃ t ∈ ts, ∃ i o, t.outputs[i]? = some o ∧ (txid env t, i) ∉ spent ts ∧
      c = coinOf (txid env t) i o := by
  simp only [unspentOutputs, List.mem_flatMap, List.mem_filter, mem_coinsFrom, Nat.zero_add,
    decide_eq_true_eq]
  constructor
  · intro hx
    obtain ⟨t, ht, ⟨i, o, ho, hc⟩, hs⟩ := hx
    refine ⟨t, ht, i, o, ho, ?_, hc⟩
    rwa [hc] at hs
  · intro hx
    obtain ⟨t, ht, i, o, ho, hs, hc⟩ := hx
    refine ⟨t, ht, ⟨i, o, ho, hc⟩, ?_⟩
    rwa [hc]

theorem unspentOutputs_tracks (hv : ValidChain env ts) :
    Tracks (ledger (ts.map (entryOf env))) (unspentOutputs env ts) where
  nodup := by
    refine Multiset.coe_nodup.mpr (List.nodup_flatMap.mpr ⟨?_, ?_⟩)
    · intro t _
      exact (nodup_coinsFrom _ _ _).filter _
    · have hids := hv.ids
      rw [List.map_map, List.nodup_iff_pairwise_ne, List.pairwise_map] at hids
      refine hids.imp ?_
      intro t u hne c ht hu
      obtain ⟨j, o, -, rfl⟩ := mem_coinsFrom.mp (List.mem_filter.mp ht).1
      obtain ⟨j', o', -, hc⟩ := mem_coinsFrom.mp (List.mem_filter.mp hu).1
      exact hne (coinOf_inj hc).1
  mem_iff c := by
    rw [Multiset.mem_coe, mem_unspentOutputs]
    constructor
    · intro hx
      obtain ⟨t, ht, i, o, ho, hs, hc⟩ := hx
      exact ⟨txid env t, i, o, hc, (chain_unspent hv _ _ _).mpr ⟨t, ht, rfl, ho, hs⟩⟩
    · intro hx
      obtain ⟨id, i, o, hc, ho⟩ := hx
      obtain ⟨t, ht, rfl, hto, hs⟩ := (chain_unspent hv _ _ _).mp ho
      exact ⟨t, ht, i, o, hto, hs, hc⟩

/-! The calls of a run, part by part. -/

theorem total_lt (h : worth coins < 2 ^ 63) (k : Hash160) : total cfg coins k < 2 ^ 64 := by
  have hle : total cfg coins k ≤ worth coins := balance_le
  omega

theorem Moves.nil : Moves cfg coins [] coins := ⟨trivial, rfl⟩

theorem Moves.append (h : Moves cfg coins calls coins') (h' : Moves cfg coins' calls' coins'') :
    Moves cfg coins (calls ++ calls') coins'' := by
  induction calls generalizing coins with
  | nil =>
    have heq : coins = coins' := h.after
    rwa [heq]
  | cons c calls ih =>
    obtain ⟨hs, hlt, hv⟩ := h.valid
    have hrest := ih ⟨hv, h.after⟩
    exact ⟨⟨hs, hlt, hrest.valid⟩, hrest.after⟩

theorem Moves.cons {c : Call} (hs : Spends coins c)
    (hworth : worth (unspentAfter coins c) < 2 ^ 63)
    (h : Moves cfg (unspentAfter coins c) calls coins') : Moves cfg coins (c :: calls) coins' :=
  ⟨⟨hs, total_lt hworth, h.valid⟩, h.after⟩

theorem worth_cons (c : Coin) (coins : Multiset Coin) :
    worth (c ::ₘ coins) = c.value + worth coins := by
  simp [worth]

theorem worth_add (coins coins' : Multiset Coin) :
    worth (coins + coins') = worth coins + worth coins' := by
  simp [worth]

theorem worth_mono (h : coins ≤ coins') : worth coins ≤ worth coins' := by
  obtain ⟨rest, rfl⟩ := Multiset.le_iff_exists_add.mp h
  rw [worth_add]
  exact Nat.le_add_right _ _

/-- The inputs of a transaction take what they spend out of the coins. -/
theorem inputs_moves (cfg : Config) {h : HashArg} (hT : Tracks L coins) (hworth : worth coins < 2 ^ 63)
    (xs : List TxInput) (hsp : AllInputs Upstream.Spends L xs) (i : Nat) (p : Ptr) :
    ∃ coins', Moves cfg coins (inputsCalls (edgeCall h) L i p xs) coins' ∧
      Tracks (xs.foldl spendInput L) coins' ∧ coins' ≤ coins := by
  induction xs generalizing L coins i p with
  | nil => exact ⟨coins, Moves.nil, hT, le_refl _⟩
  | cons x xs ih =>
    obtain ⟨hx, hxs⟩ := hsp
    -- the edge of the first input, between its startInput and its endInput
    have hone : ∃ coins₁, Moves cfg coins (inputCalls x (edgeCall h L i x) p) coins₁ ∧
        Tracks (spendInput L x) coins₁ ∧ coins₁ ≤ coins := by
      by_cases hnull : x.prevHash = nullHash
      · refine ⟨coins, ?_, by rwa [spendInput, if_pos hnull], le_refl _⟩
        rw [edgeCall, if_pos hnull]
        exact Moves.cons trivial hworth (Moves.cons trivial hworth Moves.nil)
      · obtain ⟨o, ho⟩ := hx.resolve_left hnull
        have hmem := (hT.mem_iff _).mpr ⟨_, _, _, rfl, ho⟩
        have hle := Multiset.erase_le (coinOf x.prevHash x.prevIndex.toNat o) coins
        have hworth' := Nat.lt_of_le_of_lt (worth_mono hle) hworth
        refine ⟨_, ?_, by rw [spendInput, if_neg hnull]; exact hT.spend ho, hle⟩
        rw [edgeCall, if_neg hnull, ho]
        exact Moves.cons trivial hworth (Moves.cons hmem hworth' (Moves.cons trivial hworth' Moves.nil))
    obtain ⟨coins₁, hmoves, hT₁, hle₁⟩ := hone
    obtain ⟨coins', hmoves', hT', hle'⟩ := ih hT₁
      (Nat.lt_of_le_of_lt (worth_mono hle₁) hworth) hxs (i + 1) (p + x.encode.length)
    exact ⟨coins', hmoves.append hmoves', hT', hle'.trans hle₁⟩

/-- Its outputs are added. -/
theorem outputs_moves (cfg : Config) {h : HashArg} {id : Hash256} (hid : h.value = some id) (os : List TxOutput)
    (i : Nat) (p : Ptr) (hworth : worth (coinsFrom id i os + coins) < 2 ^ 63) :
    Moves cfg coins (outputsCalls h i p os) (coinsFrom id i os + coins) := by
  induction os generalizing coins i p with
  | nil =>
    have hnil : ((coinsFrom id i [] : List Coin) : Multiset Coin) + coins = coins := Multiset.zero_add _
    rw [hnil]
    exact Moves.nil
  | cons o os ih =>
    have hcoins : ((coinsFrom id i (o :: os) : List Coin) : Multiset Coin) + coins =
        coinsFrom id (i + 1) os + coinOf id i o ::ₘ coins := by
      rw [coinsFrom, ← Multiset.cons_coe, Multiset.cons_add, Multiset.add_cons]
    rw [hcoins] at hworth ⊢
    have hle : worth (coinOf id i o ::ₘ coins) < 2 ^ 63 :=
      Nat.lt_of_le_of_lt (worth_mono (Multiset.le_add_left _ _)) hworth
    rw [worth_cons] at hle
    have hvalue : o.value.toNat < 2 ^ 63 := Nat.lt_of_le_of_lt (Nat.le_add_right _ _) hle
    have hafter : unspentAfter coins (.endOutput (p + o.encode.length) o.value.toNat h i o.script
        o.script.length) = coinOf id i o ::ₘ coins := by
      rw [unspentAfter, hid]
      rfl
    refine Moves.cons trivial ?_ (Moves.cons hvalue ?_ ?_)
    · exact Nat.lt_of_le_of_lt (Nat.le_add_left _ _) hle
    · change worth (unspentAfter coins _) < 2 ^ 63
      rwa [hafter, worth_cons]
    · change Moves cfg (unspentAfter coins _) _ _
      rw [hafter]
      exact ih (i + 1) _ hworth

theorem Supply.initial (h : Supply env (pre ++ post)) : Supply env pre :=
  fun ts hts => h ts (hts.trans (List.prefix_append pre post))

/-- A transaction of a valid chain takes the coins of the ones before it to those with it. -/
theorem tx_moves (cfg : Config) {h : HashArg} (hid : h.value = some (txid env t))
    (hv : ValidChain env (pre ++ t :: post)) (hsupply : Supply env (pre ++ t :: post)) (p : Ptr) :
    Moves cfg (unspentOutputs env pre)
      (txCalls env.coin (edgeCall h) h (ledger (pre.map (entryOf env))) t p)
      (unspentOutputs env (pre ++ [t])) := by
  obtain ⟨hsp, -, hnew⟩ := next_spends hv
  have hv' : ValidChain env ((pre ++ [t]) ++ post) := by simpa using hv
  have hsupply' : Supply env ((pre ++ [t]) ++ post) := by simpa using hsupply
  have hbefore := hsupply pre (List.prefix_append pre _)
  have hafter := hsupply' (pre ++ [t]) (List.prefix_append _ post)
  obtain ⟨coins₁, hins, hT₁, hle⟩ := @inputs_moves _ _ cfg h
    (unspentOutputs_tracks hv.initial) hbefore t.inputs hsp 0
    (t.inputsAt env.coin p + (encodeVarInt t.inputs.length).length)
  have hworth₁ := Nat.lt_of_le_of_lt (worth_mono hle) hbefore
  have hcoins : ((coinsFrom (txid env t) 0 t.outputs : List Coin) : Multiset Coin) + coins₁ =
      unspentOutputs env (pre ++ [t]) := by
    have hT := unspentOutputs_tracks hv'.initial
    rw [ledger_snoc] at hT
    exact (hT₁.create hnew t.outputs).unique hT
  have houts := outputs_moves cfg hid t.outputs 0
    (t.outputsAt env.coin p + (encodeVarInt t.outputs.length).length) (by rwa [hcoins])
  rw [hcoins] at houts
  have hin := Moves.cons (c := .startInputs (t.inputsAt env.coin p)) trivial hbefore (hins.append
    (Moves.cons (c := .endInputs (t.outputsAt env.coin p)) trivial hworth₁ Moves.nil))
  have hout := Moves.cons (c := .startOutputs (t.outputsAt env.coin p)) trivial hworth₁ (houts.append
    (Moves.cons (c := .endOutputs (t.lockTimeAt env.coin p)) trivial hafter Moves.nil))
  have hend := Moves.cons (c := .endTX (p + (t.encode env.coin).length)) trivial hafter
    (@Moves.nil cfg _)
  exact Moves.cons trivial hbefore (hin.append (hout.append hend))

variable {data : BlockRef → Memory}

theorem txs_moves (cfg : Config) (hv : ValidChain env (pre ++ (ts ++ post)))
    (hsupply : Supply env (pre ++ (ts ++ post))) (p : Ptr) (cells : List MemoryManager.Addr)
    (hlen : cells.length = ts.length) :
    Moves cfg (unspentOutputs env pre)
      (txsCalls env edgeCall (ledger (pre.map (entryOf env))) p ts cells)
      (unspentOutputs env (pre ++ ts)) := by
  induction ts generalizing pre p cells with
  | nil =>
    rw [List.append_nil]
    exact Moves.nil
  | cons t ts ih =>
    obtain ⟨cell, cells, rfl⟩ := List.exists_cons_of_length_eq_add_one hlen
    have hone := @tx_moves _ _ _ _ cfg (txArg env t cell) rfl hv hsupply p
    have hrest := @ih (pre ++ [t]) (by simpa using hv) (by simpa using hsupply)
      (p + (t.encode env.coin).length) cells (by simpa using hlen)
    rw [ledger_snoc, List.append_assoc, List.singleton_append] at hrest
    exact hone.append hrest

theorem block_moves (cfg : Config) (b : Block env.coin data) (hv : ValidChain env (pre ++ (b.txs ++ post)))
    (hsupply : Supply env (pre ++ (b.txs ++ post))) :
    Moves cfg (unspentOutputs env pre)
      (blockCalls env edgeCall (ledger (pre.map (entryOf env))) b)
      (unspentOutputs env (pre ++ b.txs)) := by
  have hbefore := hsupply pre (List.prefix_append pre _)
  have hafter := hsupply (pre ++ b.txs) (by rw [← List.append_assoc]; exact List.prefix_append ..)
  have htxs := txs_moves cfg hv hsupply (b.first env) b.cells b.cells_eq
  exact Moves.cons trivial hbefore (Moves.cons trivial hbefore
    (htxs.append (Moves.cons trivial hafter (Moves.cons trivial hafter Moves.nil))))

theorem run_moves (cfg : Config) (bs : List (Block env.coin data))
    (hv : ValidChain env (pre ++ chain bs)) (hsupply : Supply env (pre ++ chain bs)) :
    Moves cfg (unspentOutputs env pre)
      (runCalls env edgeCall (ledger (pre.map (entryOf env))) bs)
      (unspentOutputs env (pre ++ chain bs)) := by
  induction bs generalizing pre with
  | nil =>
    have hnil : chain ([] : List (Block env.coin data)) = [] := rfl
    rw [hnil, List.append_nil]
    exact Moves.nil
  | cons b bs ih =>
    rw [chain_cons] at hv hsupply ⊢
    have hblock := block_moves cfg b hv hsupply
    rw [← List.append_assoc] at hv hsupply ⊢
    have hrest := ih hv hsupply
    rw [ledger_chain] at hrest
    exact hblock.append hrest

/-- After a run over a valid chain the records tell what each address may spend. -/
theorem run_records (cfg : Config) (bs : List (Block env.coin data)) (hv : ValidChain env (chain bs))
    (hsupply : Supply env (chain bs)) : TellsOwed env cfg (chain bs)
      ((runCalls env edgeCall noEntries bs).foldl (onCall cfg) start).record := by
  intro h
  have hmoves := @run_moves _ [] _ cfg bs hv hsupply
  have hstart : Inv cfg start 0 ∅ := by
    refine ⟨start_core cfg, ?_, ?_⟩
    · intro _ h a hk
      cases hk
    · intro _ h
      simp [start]
  have hi := calls_spec (runCalls env edgeCall noEntries bs) hstart (by simp [AllBalances.Small])
    hmoves.valid
  have hcoins : (runCalls env edgeCall noEntries bs).foldl unspentAfter 0 =
    unspentOutputs env (chain bs) := hmoves.after
  rw [hcoins] at hi
  refine ⟨fun ha => ⟨?_, ?_, ?_⟩, ?_⟩
  · intro a hk
    obtain ⟨r, hr, rfl⟩ := Option.map_eq_some_iff.mp hk
    exact ⟨hi.hash _ r hr, hi.sum _ r hr⟩
  · intro hn
    exact hi.absent h ha (record_eq_none.mp hn)
  · intro hd hzero
    refine record_eq_none.mpr ?_
    by_contra hne
    obtain ⟨r, hr⟩ := Option.ne_none_iff_exists'.mp hne
    exact hi.present hd h r hr hzero
  · intro hna
    refine record_eq_none.mpr ?_
    by_contra hne
    obtain ⟨r, hr⟩ := Option.ne_none_iff_exists'.mp hne
    exact hna (hi.allowed _ r hr)

/-- What is moved was there from the start, or an output of the calls. -/
theorem moved_output (hv : ValidCalls cfg coins calls) {c : Call} (hc : c ∈ calls) {h : Hash160}
    (hm : movedBy cfg c = some h) : (∃ x ∈ coins, cfg.account x.script = some h) ∨
      ∃ o ∈ calls.filterMap outputData, cfg.account o.outputScript = some h := by
  induction calls generalizing coins with
  | nil => cases hc
  | cons d calls ih =>
    obtain ⟨hs, -, hrest⟩ := hv
    rcases List.mem_cons.mp hc with rfl | hc
    · cases c with
      | endOutput b value txHash i script size =>
        exact Or.inr ⟨_, List.mem_filterMap.mpr ⟨_, List.mem_cons_self, rfl⟩, hm⟩
      | edge value up i script => exact Or.inl ⟨_, hs, hm⟩
      | _ => cases hm
    · rcases ih hrest hc with ⟨x, hx, hacc⟩ | ⟨o, ho, hacc⟩
      · cases d with
        | endOutput b value txHash i script size =>
          rcases Multiset.mem_cons.mp hx with rfl | hx
          · exact Or.inr ⟨_, List.mem_filterMap.mpr ⟨_, List.mem_cons_self, rfl⟩, hacc⟩
          · exact Or.inl ⟨x, hx, hacc⟩
        | edge value up i script => exact Or.inl ⟨x, Multiset.mem_of_mem_erase hx, hacc⟩
        | _ => exact Or.inl ⟨x, hx, hacc⟩
      · obtain ⟨e, he, heo⟩ := List.mem_filterMap.mp ho
        exact Or.inr ⟨o, List.mem_filterMap.mpr ⟨e, List.mem_cons_of_mem d he, heo⟩, hacc⟩

theorem run_unreserved (bs : List (Block env.coin data)) (hv : ValidChain env (chain bs))
    (hsupply : Supply env (chain bs)) (hu : PaysUnreserved cfg (chain bs)) :
    AddrTables.Unreserved cfg (runCalls env edgeCall noEntries bs) := by
  intro c hc h hm ha
  have hmoves := @run_moves _ [] _ cfg bs hv hsupply
  obtain ⟨-, houts, -⟩ := @runCalls_data _ _ [] bs hv
  rcases moved_output hmoves.valid hc hm with ⟨x, hx, -⟩ | ⟨o, ho, hacc⟩
  · cases hx
  · have ho' : o ∈ (chain bs).flatMap fun t =>
        t.outputs.mapIdx fun i o => TxOutput.data o (txid env t) i := houts ▸ ho
    obtain ⟨t, ht, ho'⟩ := List.mem_flatMap.mp ho'
    obtain ⟨i, hi, rfl⟩ := List.mem_mapIdx.mp ho'
    exact hu t ht _ (List.getElem_mem hi) h hacc ha

end Blockparser.UnspentCoins
