import Blockparser.Upstream
import Blockparser.Protocol

/-! Decoding a transaction: where the cursor ends and which calls are made, for the
skipping parse, the parse without upstream data and the parse with it. -/
namespace Blockparser.Transaction
open Bytes Trace MemoryManager Blockparser.Parser Cursor Format Utxo Store Decode Upstream

def noKeys (_ : Addr) (_ : Hash256) : Prop := False
def noEdge (_ : TXOs) (_ : Nat) (_ : TxInput) : List Call := []
def noEntries : TXOs := fun _ => none

/-- The cells that are the keys of the entries. -/
def keysOf (loc : Role → Addr) (L : TXOs) (a : Addr) (v : Hash256) : Prop :=
  L v ≠ none ∧ a = loc (.key v)

/-- The store holds the ledger, every entry of it whole. -/
def Represents (L : TXOs) (s : State) : Prop :=
  L.Complete ∧ ∃ loc, Rep loc ∅ (keysOf loc L) L s

variable {loc : Role → Addr} {K : Addr → Hash256 → Prop} {L : TXOs} {s : State} {env : Env}
  {m : Memory} {p : Ptr} {t : Tx}

theorem represents_of_rep (hL : L.Complete) (hs : Rep loc ∅ K L s) : Represents L s := by
  refine ⟨hL, loc, ⟨⟨hs.holding, fun t ht => ⟨ht, rfl⟩, ?_⟩, hs.mapped⟩⟩
  rintro a v ⟨hv, rfl⟩
  exact ⟨(hs.keep _ v (hs.keys v hv)).1, Or.inr (Or.inl ⟨v, hv, rfl⟩)⟩

/-- A fresh hash cell is the key of no entry. -/
theorem Rep.alloc_notKey (hs : Rep loc ∅ K L s) (v : Hash256) :
    ¬keysOf loc L (s.heap.alloc .uint256).1 v := by
  rintro ⟨hv, he⟩
  exact (hs.holding.valid.alloc .uint256).1 (Or.inl ⟨.key v, hv, he.symm⟩)

theorem noKeys_watches : Watches noKeys fun _ => True where
  emit _ _ _ _ := trivial
  view _ _ _ _ hK := hK.elim

theorem parseInput_plain (hneed : env.gNeedUpstream = false) (L : TXOs) (i : Nat) (p : Ptr)
    (x : TxInput) (hm : Holds m p x.encode) :
    Runs (Logs noKeys) (fun _ => True) (fun _ => True) (parseInput env false m .null i p)
      (inputCalls x (noEdge L i x) p) (p + x.encode.length) := by
  have hnext := (input_of_holds hm).2.2.2.2
  have hfind : Runs (Logs noKeys) (fun _ => True) (fun _ => True) (findUpstream env false m p) []
      none :=
    runs_of_quiet fun s _ => ⟨s, by simp [findUpstream, hneed], trivial, rfl, rfl, rfl⟩
  rw [← hnext]
  refine (emit_runs noKeys_watches _).bind (logging noKeys) (hfind.bind (logging noKeys) ?_)
  rw [← hnext]
  exact emit_pure_runs noKeys_watches (.endInput (inputNext m p)) (inputNext m p)

/-- Without upstream data nothing is stored and no hash is given. -/
theorem parseTX_plain (hneed : env.gNeedUpstream = false) (hm : Holds m p (t.encode env.coin)) :
    Runs (Logs noKeys) (fun _ => True) (fun _ => True) (parseTX env false m p)
      (txCalls env.coin noEdge Protocol.noHash noEntries t p) (p + (t.encode env.coin).length) := by
  have hall : ∀ (L : TXOs) (xs : List TxInput), AllInputs (fun _ _ => True) L xs := by
    intro L xs
    induction xs generalizing L with
    | nil => trivial
    | cons x xs ih => exact ⟨trivial, ih _⟩
  have hnone : ∀ {a : Addr → M Unit} (txo : Option Addr),
      Runs (Logs noKeys) (fun _ => txo = none) (fun _ => txo = none) (forSome txo a) [] () := by
    intro a txo s he
    subst he
    exact Runs.pure (logging noKeys) () s rfl
  have hwatch : ∀ txo : Option Addr, Watches noKeys fun _ => txo = none :=
    fun txo => ⟨fun _ _ _ h => h, fun _ _ _ _ hK => hK.elim⟩
  have hbody : Runs (Logs noKeys) (fun _ => True) (fun _ => True)
      (parseTXBody env false m p .null)
      (txCalls env.coin noEdge Protocol.noHash noEntries t p) (p + (t.encode env.coin).length) :=
    parseTXBody_runs (I := fun _ _ => True) (Q := fun txo _ => txo = none)
      (J := fun txo _ _ => txo = none) (fun _ => noKeys_watches) hwatch (fun txo _ => hwatch txo)
      (fun _ _ => rfl) (fun _ _ _ _ => rfl)
      (fun L i p x hx _ => parseInput_plain hneed L i p x hx) (hall _ _)
      (fun s _ => ⟨none, s, by simp [newTXO, hneed], rfl, (logging noKeys).nil s⟩)
      hnone (fun txo _ _ _ _ _ => hnone txo) (fun _ _ _ => trivial) hm
  have hhash : ∀ s, hashTX env m p s = .ok .null s := fun s => by simp [hashTX, hneed]
  intro s hs
  obtain ⟨s', hr, hrest⟩ := hbody s hs
  exact ⟨s', (run_bind_ok (hhash s)).trans hr, hrest⟩

/-- Wherever an encoded transaction stands, both parses end right behind it. The skipping
parse does nothing else. The full parse makes the calls of the transaction: without
upstream data always, and with it when the store holds what the inputs name and can take
what the outputs create. The hash it then gives is that of exactly the encoded bytes. -/
theorem parseTX_decodes (env : Env) (m : Memory) (p : Ptr) (t : Tx) (r : List UInt8) (s : State)
    (L : TXOs) (hm : Holds m p (t.encode env.coin ++ r)) :
    parseTX env true m p s = .ok (p + (t.encode env.coin).length) s ∧
    Holds m (p + (t.encode env.coin).length) r ∧
    (env.gNeedUpstream = false → ∃ s',
      parseTX env false m p s = .ok (p + (t.encode env.coin).length) s' ∧
      s'.calls = s.calls ++ txCalls env.coin noEdge Protocol.noHash noEntries t p) ∧
    (env.gNeedUpstream = true → Represents L s → AllInputs Spends L t.inputs → Fits t →
      t.outputs ≠ [] → ∃ s' k,
        parseTX env false m p s = .ok (p + (t.encode env.coin).length) s' ∧
        s'.calls = s.calls ++ txCalls env.coin
          (edgeCall ⟨some k, some (env.sha256Twice (t.encode env.coin))⟩)
          ⟨some k, some (env.sha256Twice (t.encode env.coin))⟩ L t p) := by
  obtain ⟨hm, hr⟩ := holds_append.mp hm
  refine ⟨?_, hr, ?_, ?_⟩
  · rw [← txNext_of_holds hm]
    exact parseTXBody_skip p
  · intro hneed
    obtain ⟨s', hrun, -, hlog⟩ := parseTX_plain hneed hm s trivial
    exact ⟨s', hrun, hlog.calls⟩
  · rintro hneed ⟨hL, loc, hs⟩ hsp hfit hout
    obtain ⟨s₁, hhash, hrep, hcalls, -⟩ := hashTX_run hneed hs (Rep.alloc_notKey hs) hm
    obtain ⟨s', hbody, -, hlog⟩ := body_decodes hneed (Or.inr ⟨rfl, rfl⟩) hsp hfit hout hm s₁
      ⟨hrep, hL⟩
    exact ⟨s', _, (run_bind_ok hhash).trans hbody, by rw [hlog.calls, hcalls]⟩

/-- An empty gTXOMap over a heap in which nothing need be kept. -/
theorem empty_represents (hv : s.heap.Valid ∅) (hmap : s.gTXOMap = []) : Represents noEntries s := by
  have hroles : roles noEntries = ∅ := by
    ext r
    cases r <;> simp [roles, Role.Filled, Ledger.unspent, noEntries]
  have hcomplete : noEntries.Complete := by
    intro _ _ h
    cases h
  refine ⟨hcomplete, fun _ => ⟨0, 0⟩, ⟨⟨⟨?_, ?_, ?_, ?_⟩, ?_, ?_⟩, ?_⟩⟩
  · simp [hroles]
  · simp [hroles]
  · rwa [hroles, Set.image_empty, Set.empty_union]
  · simp [hroles]
  · exact fun t ht => absurd rfl ht
  · rintro a v ⟨hv, -⟩
    exact absurd rfl hv
  · exact ⟨[], List.nodup_nil, fun t => by simp [noEntries], hmap⟩

/-- A transaction with one output and no input. -/
def mintTx : Tx where
  version := 1
  time := 0
  inputs := []
  outputs := [⟨50, [0x51], by decide⟩]
  lockTime := 0
  speech := []
  inputs_lt := by decide
  outputs_lt := by decide
  speech_lt := length_nil_lt

def bitcoinEnv : Env := ⟨.bitcoin, true, fun _ => nullHash, fun _ => false⟩

/-- A transaction whose one input names a transaction that the store does not hold. -/
def orphanTx : Tx := { mintTx with
  inputs := [⟨⟨List.replicate 32 1, by decide⟩, 0, [], 0, length_nil_lt⟩]
  inputs_lt := by decide }

theorem parseTX_orphan : ¬ ∀ (env : Env) (m : Memory) (p : Ptr) (t : Tx) (s : State),
    env.coin = .bitcoin → Holds m p (t.encode .bitcoin) →
      ∃ s', parseTX env false m p s = .ok (p + (t.encode .bitcoin).length) s' := by
  intro h
  obtain ⟨s', hs'⟩ := h bitcoinEnv (ofList (orphanTx.encode .bitcoin) fun _ => 0) 0 orphanTx .start
    rfl (read_ofList _ _)
  have hstop : (match parseTX bitcoinEnv false (ofList (orphanTx.encode .bitcoin) fun _ => 0) 0
      .start with
    | .ok _ _ => false
    | .error _ _ => true) = true := by decide
  rw [hs'] at hstop
  cases hstop

end Blockparser.Transaction
