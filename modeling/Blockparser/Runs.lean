import Blockparser.Replay

/-! The calls of a whole run over any chain, whatever its bytes are and wherever the callback
is done: transaction by transaction. -/
namespace Blockparser.Runs
open Bytes Trace MemoryManager Blockparser.Parser Cursor Replay
open Protocol (inputWords outputWords inputsWords outputsWords txWords txsWords blockWords cutAt)
open BlockIndex (gNullBlock)

/-- Where a transaction stands. -/
structure TxAt where
  block : BlockRef
  start : Ptr
deriving DecidableEq

/-- The transactions that were parsed, by the calls. -/
def parsedTXs : BlockRef → List Call → List TxAt
  | _, [] => []
  | _, .startBlock b :: w => parsedTXs b w
  | b, .startTX p _ :: w => ⟨b, p⟩ :: parsedTXs b w
  | b, _ :: w => parsedTXs b w

/-- The calls between the transactions, but for startBlock. -/
def isBetween : Call → Bool
  | .startLC | .endBlock _ | .startTXs _ | .endTXs _ => true
  | .start .. => true
  | _ => false

/-- Calls that tell of some transactions, in the block that was started last. -/
inductive Told (coin : Coin) (need : Bool) (data : BlockRef → Memory) :
    Option BlockRef → List Call → List TxAt → Prop
  | nil {cur : Option BlockRef} : Told coin need data cur [] []
  | startBlock {cur : Option BlockRef} {b : BlockRef} {w : List Call} {xs : List TxAt} :
      Told coin need data (some b) w xs → Told coin need data cur (.startBlock b :: w) xs
  | between {cur : Option BlockRef} {c : Call} {w : List Call} {xs : List TxAt} :
      isBetween c = true → Told coin need data cur w xs → Told coin need data cur (c :: w) xs
  | tx {b : BlockRef} {p : Ptr} {w v : List Call} {xs : List TxAt} :
      w ∈ txWords coin need (data b) p → Told coin need data (some b) v xs →
      Told coin need data (some b) (w ++ v) (⟨b, p⟩ :: xs)

variable {coin : Coin} {need : Bool} {data : BlockRef → Memory} {env : Env} {b : BlockRef} {p : Ptr}
  {cur : Option BlockRef} {m : Memory} {w v : List Call} {xs ys : List TxAt}

theorem parsedTXs_between {c : Call} (hc : isBetween c = true) (b : BlockRef) (w : List Call) :
    parsedTXs b (c :: w) = parsedTXs b w := by
  cases c <;> first | rfl | cases hc

theorem parsedTXs_body {mid : List Call} (hmid : ∀ c ∈ mid, isBody c = true) (b : BlockRef)
    (v : List Call) : parsedTXs b (mid ++ v) = parsedTXs b v := by
  induction mid with
  | nil => rfl
  | cons c mid ih =>
    have hc := hmid c (List.mem_cons_self ..)
    have hrest := ih fun d hd => hmid d (List.mem_cons_of_mem c hd)
    cases c <;> first | exact hrest | cases hc

theorem Told.parsed (h : Told coin need data cur w xs) : parsedTXs (cur.getD gNullBlock) w = xs := by
  induction h with
  | nil => rfl
  | startBlock _ ih => exact ih
  | between hc _ ih => rw [parsedTXs_between hc, ih]
  | tx hw _ ih =>
    obtain ⟨h, mid, rfl, hmid⟩ := txWords_shape hw
    rw [List.cons_append, List.append_assoc, parsedTXs, parsedTXs_body hmid]
    exact congrArg _ ih

theorem Told.txs {n : Nat} (hw : w ∈ txsWords coin need (data b) n p)
    (h : Told coin need data (some b) v ys) :
    ∃ xs, Told coin need data (some b) (w ++ v) (xs ++ ys) := by
  induction n generalizing p w with
  | zero =>
    cases hw
    exact ⟨[], h⟩
  | succ n ih =>
    obtain ⟨u, hu, rest, hrest, rfl⟩ := hw
    obtain ⟨xs, hxs⟩ := ih hrest
    rw [List.append_assoc]
    exact ⟨⟨b, p⟩ :: xs, Told.tx hu hxs⟩

/-- The calls of a block in front of those of the next ones. -/
theorem Told.block {cut : Nat × Bool} (hw : w ∈ blockWords coin need b (data b) cut)
    (h : ∀ cur, Told coin need data cur v ys) :
    ∃ xs, ∀ cur, Told coin need data cur (w ++ v) (xs ++ ys) := by
  obtain ⟨_, rfl, _, ⟨_, rfl, _, ⟨txs, htxs, u, hu, rfl⟩, rfl⟩, rfl⟩ := hw
  have hend : Told coin need data (some b) (u ++ v) ys := by
    by_cases hcut : cut.2 = true
    · rw [if_pos hcut] at hu
      cases hu
      exact h (some b)
    · rw [if_neg hcut] at hu
      cases hu
      exact Told.between rfl (Told.between rfl (h (some b)))
  obtain ⟨xs, hxs⟩ := Told.txs htxs hend
  refine ⟨xs, fun cur => ?_⟩
  rw [List.append_assoc, List.append_assoc, List.append_assoc]
  exact Told.startBlock (Told.between rfl hxs)

theorem parseChain_told {h : Heights.State} {fuel : Nat} {blk : Option BlockRef} {r : Bool}
    {x x' : Blockparser.Parser.State}
    (hrun : LongestChain.parseChain env data h fuel blk x = .ok r x') :
    ∃ w xs, x'.calls = x.calls ++ w ∧ ∀ cur, Told env.coin env.gNeedUpstream data cur w xs := by
  induction fuel generalizing blk x with
  | zero =>
    have hx : x' = x := by
      cases blk with
      | none =>
        cases hrun
        rfl
      | some b =>
        cases hrun
        rfl
    rw [hx]
    exact ⟨[], [], by simp, fun _ => Told.nil⟩
  | succ fuel ih =>
    cases blk with
    | none =>
      cases hrun
      exact ⟨[], [], by simp, fun _ => Told.nil⟩
    | some b =>
      rw [LongestChain.parseChain, run_bind] at hrun
      have hwords := @Protocol.parseBlock_words env _ (data b) b x rfl
      cases hb : parseBlock env b (data b) x with
      | error e y =>
        rw [hb] at hrun
        cases hrun
      | ok d y =>
        rw [hb] at hrun hwords
        obtain ⟨-, -, w, hw, hcalls⟩ := hwords
        dsimp only at hrun
        by_cases hd : d = true
        · rw [if_pos hd] at hrun
          cases hrun
          obtain ⟨xs, hxs⟩ := Told.block hw fun _ => Told.nil
          rw [List.append_nil] at hxs
          exact ⟨w, _, hcalls, hxs⟩
        · rw [if_neg hd] at hrun
          obtain ⟨v, ys, hrest, hys⟩ := ih hrun
          obtain ⟨xs, hxs⟩ := Told.block hw hys
          exact ⟨w ++ v, _, by rw [hrest, hcalls, List.append_assoc], hxs⟩

/-- A run that comes to its end tells of the transactions it parsed, and calls wrapup once,
at the end. -/
theorem parseLongestChain_told {h : Heights.State} {fuel : Nat} {x x' : Blockparser.Parser.State}
    (hrun : LongestChain.parseLongestChain env data fuel h x = .ok true x') :
    ∃ w, x'.calls = x.calls ++ (w ++ [.wrapup]) ∧
      Told env.coin env.gNeedUpstream data none w (parsedTXs gNullBlock w) := by
  unfold LongestChain.parseLongestChain at hrun
  rw [run_bind_ok (run_emit _ _), run_bind_ok (run_emit _ _), run_bind] at hrun
  cases hc : LongestChain.parseChain env data h fuel (h.blocks gNullBlock).next { x with
      calls := x.calls ++ [.startLC] ++ [.start (h.blocks gNullBlock).next h.gMaxBlock]
      views := x.views ++ [fun a => (x.heap.cells a).hash] ++ [fun a => (x.heap.cells a).hash] } with
  | error e y =>
    rw [hc] at hrun
    cases hrun
  | ok r y =>
    rw [hc] at hrun
    obtain ⟨w, xs, hcalls, htold⟩ := parseChain_told hc
    cases r with
    | false => cases hrun
    | true =>
      cases hrun
      have hall := Told.between (c := .startLC) rfl (Told.between
        (c := .start (h.blocks gNullBlock).next h.gMaxBlock) rfl (htold none))
      have hparsed := hall.parsed
      rw [Option.getD_none] at hparsed
      refine ⟨_, ?_, by rw [hparsed]; exact hall⟩
      show y.calls ++ [.wrapup] = _
      rw [hcalls]
      simp

/-- The run rule: what startBlock, the calls between the transactions and the calls of a
whole transaction keep holds at the end of the run. -/
theorem Told.keeps {σ : Type} {step : σ → Call → σ} {P : List TxAt → σ → Prop}
    (hblock : ∀ b xs s, P xs s → P xs (step s (.startBlock b)))
    (hbetween : ∀ c xs s, isBetween c = true → P xs s → P xs (step s c))
    (htx : ∀ b p w xs s, w ∈ txWords coin need (data b) p → P xs s →
      P (xs ++ [⟨b, p⟩]) (w.foldl step s))
    (h : Told coin need data cur w ys) {s : σ} (hs : P xs s) : P (xs ++ ys) (w.foldl step s) := by
  induction h generalizing xs s with
  | nil =>
    rw [List.append_nil]
    exact hs
  | startBlock _ ih => exact ih (hblock _ _ _ hs)
  | between hc _ ih => exact ih (hbetween _ _ _ hc hs)
  | tx hw _ ih =>
    have hrest := ih (htx _ _ _ _ _ hw hs)
    rw [List.append_assoc] at hrest
    rw [List.foldl_append]
    exact hrest

/-- The values of some outputs one behind the other. -/
def valueSum (m : Memory) : Nat → Ptr → Nat
  | 0, _ => 0
  | n+1, p => load m p 8 + valueSum m n (outputNext m p)

def isStartTX : Call → Bool
  | .startTX .. => true
  | _ => false

def isStartInput : Call → Bool
  | .startInput _ => true
  | _ => false

def isStartOutput : Call → Bool
  | .startOutput _ => true
  | _ => false

def isOfOutput : Call → Bool
  | .startOutput _ => true
  | .endOutput .. => true
  | _ => false

def endValue : Call → Option Nat
  | .endOutput _ value _ _ _ _ => some value
  | _ => none

/-- What the calls of a transaction behind its startTX have of its inputs and outputs. -/
structure TxCounts (coin : Coin) (m : Memory) (p : Ptr) (mid : List Call) : Prop where
  noStart : ∀ c ∈ mid, isStartTX c = false
  inputs : mid.countP isStartInput = (loadVarInt m (beforeInputs coin p)).1
  outputs : mid.countP isStartOutput = (loadVarInt m (txOutputs coin m p)).1
  values : (mid.filterMap endValue).sum =
    valueSum m (loadVarInt m (txOutputs coin m p)).1 (loadVarInt m (txOutputs coin m p)).2

theorem edgeWords_letters (need : Bool) (m : Memory) (i : Nat) (p : Ptr) :
    Letters (isEdge · = true) (Protocol.edgeWords need m i p) := by
  unfold Protocol.edgeWords
  split
  · intro w hw c hc
    obtain ⟨value, script, size, down, rfl⟩ := hw
    rw [List.mem_singleton.mp hc]
    rfl
  · exact Letters.one _

theorem inputs_letters (need : Bool) (m : Memory) (n i : Nat) (q : Ptr) :
    Letters (isOfInput · = true) (loopWords (inputWords need m) (fun _ => inputNext m) n i q) := by
  apply Letters.loop
  intro i p w hw c hc
  obtain ⟨e, he, rfl⟩ := hw
  simp only [Protocol.inputCalls, List.mem_append, List.mem_singleton] at hc
  rcases hc with (rfl | hc) | rfl
  · rfl
  · have hedge := edgeWords_letters need m i p e he c hc
    cases c <;> first | rfl | cases hedge
  · rfl

theorem outputs_letters (m : Memory) (n i : Nat) (q : Ptr) :
    Letters (isOfOutput · = true) (loopWords (outputWords m) (fun _ => outputNext m) n i q) := by
  apply Letters.loop
  intro i p w hw c hc
  obtain ⟨h, rfl⟩ := hw
  cases List.mem_cons.mp hc with
  | inl hc => rw [hc]; rfl
  | inr hc => rw [List.mem_singleton.mp hc]; rfl

theorem inputs_counts {n i : Nat} {q : Ptr}
    (hw : w ∈ loopWords (inputWords need m) (fun _ => inputNext m) n i q) :
    w.countP isStartInput = n ∧ w.countP isStartOutput = 0 ∧ w.filterMap endValue = [] ∧
      ∀ c ∈ w, isStartTX c = false := by
  have hletters := inputs_letters need m n i q
  have hone : ∀ i p, ∀ w ∈ inputWords need m i p, w.countP isStartInput = 1 := by
    intro i p w hw
    obtain ⟨e, he, rfl⟩ := hw
    have hnone : e.countP isStartInput = 0 := by
      rw [List.countP_eq_zero]
      intro c hc
      have hedge := edgeWords_letters need m i p e he c hc
      cases c <;> first | exact Bool.false_ne_true | cases hedge
    simp [Protocol.inputCalls, List.countP_cons, List.countP_append, hnone, isStartInput]
  refine ⟨?_, ?_, ?_, ?_⟩
  · rw [countP_loopWords hone hw, Nat.mul_one]
  · rw [List.countP_eq_zero]
    intro c hc
    have hin := hletters w hw c hc
    cases c <;> first | exact Bool.false_ne_true | cases hin
  · rw [List.filterMap_eq_nil_iff]
    intro c hc
    have hin := hletters w hw c hc
    cases c <;> first | rfl | cases hin
  · intro c hc
    have hin := hletters w hw c hc
    cases c <;> first | rfl | cases hin

theorem outputs_counts {n i : Nat} {q : Ptr}
    (hw : w ∈ loopWords (outputWords m) (fun _ => outputNext m) n i q) :
    w.countP isStartInput = 0 ∧ w.countP isStartOutput = n ∧
      (w.filterMap endValue).sum = valueSum m n q ∧ ∀ c ∈ w, isStartTX c = false := by
  have hstart : ∀ c ∈ w, isStartTX c = false := by
    intro c hc
    have hout := outputs_letters m n i q w hw c hc
    cases c <;> first | rfl | cases hout
  induction n generalizing i q w with
  | zero =>
    cases hw
    exact ⟨rfl, rfl, rfl, hstart⟩
  | succ n ih =>
    obtain ⟨_, ⟨h, rfl⟩, u, hu, rfl⟩ := hw
    obtain ⟨hin, hout, hvalues, -⟩ := ih hu fun c hc => hstart c (List.mem_append_right _ hc)
    refine ⟨?_, ?_, ?_, hstart⟩
    · simp [Protocol.outputCalls, hin, isStartInput]
    · simp [Protocol.outputCalls, List.countP_cons, hout, isStartOutput]
    · rw [List.filterMap_append, List.sum_append, hvalues, valueSum]
      simp [Protocol.outputCalls, List.filterMap_cons, endValue]

/-- The calls of a transaction, with those of its inputs and outputs. -/
theorem txWords_parts (hw : w ∈ txWords coin need m p) : ∃ h ins outs,
    w = .startTX p h :: .startInputs (beforeInputs coin p) :: (ins ++
      .endInputs (txOutputs coin m p) :: .startOutputs (txOutputs coin m p) :: (outs ++
        [.endOutputs (outputsNext m (txOutputs coin m p)), .endTX (txNext coin m p)])) ∧
    ins ∈ loopWords (inputWords need m) (fun _ => inputNext m)
      (loadVarInt m (beforeInputs coin p)).1 0 (loadVarInt m (beforeInputs coin p)).2 ∧
    outs ∈ loopWords (outputWords m) (fun _ => outputNext m)
      (loadVarInt m (txOutputs coin m p)).1 0 (loadVarInt m (txOutputs coin m p)).2 := by
  obtain ⟨_, ⟨h, rfl⟩, _, ⟨_, ⟨_, rfl, _, ⟨ins, hins, _, rfl, rfl⟩, rfl⟩, _,
    ⟨_, ⟨_, rfl, _, ⟨outs, houts, _, rfl, rfl⟩, rfl⟩, _, rfl, rfl⟩, rfl⟩, rfl⟩ := hw
  exact ⟨h, ins, outs, by simp [txOutputs], hins, houts⟩

theorem txWords_counts (hw : w ∈ txWords coin need m p) :
    ∃ h mid, w = .startTX p h :: mid ∧ TxCounts coin m p mid := by
  obtain ⟨h, ins, outs, rfl, hins, houts⟩ := txWords_parts hw
  obtain ⟨hin, hnoOut, hnoValue, hinStart⟩ := inputs_counts hins
  obtain ⟨hnoIn, hout, hvalues, houtStart⟩ := outputs_counts houts
  refine ⟨h, _, rfl, ?_, ?_, ?_, ?_⟩
  · intro c hc
    simp only [List.mem_cons, List.mem_append, List.not_mem_nil, or_false] at hc
    rcases hc with rfl | hc | rfl | rfl | hc | rfl | rfl
    · rfl
    · exact hinStart c hc
    · rfl
    · rfl
    · exact houtStart c hc
    · rfl
    · rfl
  · simp [List.countP_append, hin, hnoIn, isStartInput]
  · simp [List.countP_append, hnoOut, hout, isStartOutput]
  · simp [List.filterMap_cons, hnoValue, hvalues, endValue]

/-- A run over one block with these transactions. -/
def runOf (txs : List Format.Tx) : EStateM.Result Fault Blockparser.Parser.State Bool :=
  LongestChain.parseLongestChain Chain.prefixEnv (fun _ => blockMemory .bitcoin txs) 1 (chainOf 1)
    .start

end Blockparser.Runs
