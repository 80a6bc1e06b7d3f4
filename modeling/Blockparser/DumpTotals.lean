import Blockparser.BaseReward
import Blockparser.Pristine

/-! The totals dumpTX prints at the end of a transaction. They are never set back, so that
each is the sum over all transactions dumped so far. -/
namespace Blockparser.DumpTotals
open Bytes MemoryManager Segments Blockparser.Parser Format Utxo Store Decode Upstream Transaction Chain
  Replay
open BaseReward (View getBaseReward)
open BaseReward.DumpTX (Line onCall startTX startInput endTX)
open Pristine (isGen)

/-- The block that the pointers of the calls point into, and the state of the command. -/
structure State where
  chunk : BlockRef
  cmd : BaseReward.DumpTX.State

/-- What a line of endTX says of the totals. -/
structure EndLine where
  nbInputs : BitVec 64
  nbOutputs : BitVec 64
  valueIn : BitVec 64
  valueOut : BitVec 64
  fees : Option (BitVec 64)

def endLine : Line → Option EndLine
  | .endTX nbInputs nbOutputs _ _ valueIn valueOut fees =>
    some ⟨nbInputs, nbOutputs, valueIn, valueOut, fees⟩
  | _ => none

def State.printed (s : State) : List EndLine := s.cmd.lines.filterMap endLine

/-- A transaction, its block, and the transactions before it. -/
structure Place where
  pre : List (BlockRef × Tx)
  block : BlockRef
  tx : Tx

variable (env : Env) (view : BlockRef → View) (txMap : List Hash256)

def step (s : State) (c : Call) : State :=
  let chunk := (startRef c).getD s.chunk
  ⟨chunk, onCall (view chunk) txMap s.cmd c⟩

/-- The value of the output an input spends, or the reward. -/
def inputValue (b : BlockRef) (L : TXOs) (x : TxInput) : Nat :=
  if x.prevHash = nullHash then (getBaseReward ((view b).height b)).toNat
  else ((L.unspent x.prevHash x.prevIndex.toNat).map fun o => o.value.toNat).getD 0

def inputsValue (b : BlockRef) : TXOs → List TxInput → Nat
  | _, [] => 0
  | L, x :: ins => inputValue view b L x + inputsValue b (spendInput L x) ins

def outputsValue (os : List TxOutput) : Nat := (os.map fun o => o.value.toNat).sum

def Place.valueIn (d : Place) : Nat :=
  inputsValue view d.block (ledger ((txsOf d.pre).map (entryOf env))) d.tx.inputs

def Place.valueOut (d : Place) : Nat := outputsValue d.tx.outputs

/-- The transactions that are asked for. -/
def dumped : List (BlockRef × Tx) → List (BlockRef × Tx) → List Place
  | _, [] => []
  | pre, x :: xs =>
    (if txid env x.2 ∈ txMap then [⟨pre, x.1, x.2⟩] else []) ++ dumped (pre ++ [x]) xs

def dumpedIn (pre : List (BlockRef × Tx)) : Nat :=
  ((dumped env txMap [] pre).map (Place.valueIn env view)).sum

def dumpedOut (pre : List (BlockRef × Tx)) : Nat :=
  ((dumped env txMap [] pre).map Place.valueOut).sum

/-- Whether the last one of the inputs is a generation input; without inputs, what was so
before. -/
def genAfter (gen : Bool) (ins : List TxInput) : Bool :=
  ins.foldl (fun _ x => decide (x.prevHash = nullHash)) gen

/-- What the last dumped transaction with inputs has left. -/
def genBefore (pre : List (BlockRef × Tx)) : Bool :=
  (dumped env txMap [] pre).foldl (fun gen d => genAfter gen d.tx.inputs) false

/-- The totals of one transaction; its fee is the difference as it is, not in 64 bits. -/
structure Right (d : Place) (line : EndLine) : Prop where
  nbInputs : line.nbInputs.toNat = d.tx.inputs.length
  nbOutputs : line.nbOutputs.toNat = d.tx.outputs.length
  valueIn : line.valueIn.toNat = d.valueIn env view
  valueOut : line.valueOut.toNat = d.valueOut
  fees : ¬isGen d.tx → ∃ fee, line.fees = some fee ∧
    (fee.toNat : Int) = (d.valueIn env view : Int) - (d.valueOut : Int)

/-- The transactions dumped before add up to nothing in 64 bits, the transaction itself
stays in 64 bits and does not pay out more than it takes in, and without inputs it follows no
generation transaction. -/
structure Clean (d : Place) : Prop where
  dumpedIn : 2 ^ 64 ∣ dumpedIn env view txMap d.pre
  dumpedOut : 2 ^ 64 ∣ dumpedOut env txMap d.pre
  valueIn : d.valueIn env view < 2 ^ 64
  valueOut : d.valueOut < 2 ^ 64
  fee : ¬isGen d.tx → d.valueOut ≤ d.valueIn env view
  gen : d.tx.inputs = [] → genBefore env txMap d.pre = false

variable {env view txMap} {pre xs ys : List (BlockRef × Tx)} {s s' : State} {b : BlockRef} {t : Tx}
  {h : HashArg} {L : TXOs} {i : Nat} {p : Ptr} {x : TxInput} {ins : List TxInput}
  {os : List TxOutput} {c : Call}

theorem dumped_append (pre xs ys : List (BlockRef × Tx)) :
    dumped env txMap pre (xs ++ ys) = dumped env txMap pre xs ++ dumped env txMap (pre ++ xs) ys := by
  induction xs generalizing pre with
  | nil => rw [List.append_nil]; rfl
  | cons x xs ih => rw [List.cons_append, dumped, ih, dumped, List.append_assoc, List.append_assoc]; rfl

theorem dumped_snoc (pre : List (BlockRef × Tx)) (b : BlockRef) (t : Tx) :
    dumped env txMap [] (pre ++ [(b, t)]) = dumped env txMap [] pre ++
      if txid env t ∈ txMap then [⟨pre, b, t⟩] else [] := by
  rw [dumped_append, List.nil_append]
  exact congrArg _ (List.append_nil _)

/-- Only endTX prints the totals. -/
theorem printed_step (hc : isEndTX c = false) (s : State) :
    (step view txMap s c).printed = s.printed := by
  cases c with
  | startTX p h =>
    dsimp only [step, onCall, startTX, State.printed]
    split <;> simp [BaseReward.DumpTX.State.print, endLine]
  | startInput p =>
    dsimp only [step, onCall, startInput, State.printed]
    split
    · split <;> simp [BaseReward.DumpTX.State.print, endLine]
    · rfl
  | edge =>
    dsimp only [step, onCall, State.printed]
    split <;> rfl
  | startOutput =>
    dsimp only [step, onCall, State.printed]
    split <;> rfl
  | endOutput =>
    dsimp only [step, onCall, State.printed]
    split <;> rfl
  | endTX => cases hc
  | _ => rfl

theorem printed_foldl {w : List Call} (hw : ∀ c ∈ w, isEndTX c = false) (s : State) :
    (w.foldl (step view txMap) s).printed = s.printed :=
  Segments.foldl_kept State.printed (fun c hc s => printed_step (hw c hc) s) s

/-- What is added when the transaction is dumped. -/
def counted (dump : Bool) (n : Nat) : BitVec 64 := if dump then BitVec.ofNat 64 n else 0

theorem counted_add (dump : Bool) (n k : Nat) :
    counted dump (n + k) = counted dump n + counted dump k := by
  cases dump with
  | false => rfl
  | true => exact BitVec.ofNat_add n k

theorem counted_zero (dump : Bool) (r : BitVec 64) : r = r + counted dump 0 := by
  cases dump <;> exact (BitVec.add_zero r).symm

/-- What some inputs leave of the state. -/
structure Inputs (view : BlockRef → View) (L : TXOs) (ins : List TxInput) (s s' : State) : Prop where
  chunk : s'.chunk = s.chunk
  dump : s'.cmd.dump = s.cmd.dump
  currBlock : s'.cmd.currBlock = s.cmd.currBlock
  nbInputs : s'.cmd.nbInputs = s.cmd.nbInputs + counted s.cmd.dump ins.length
  valueIn : s'.cmd.valueIn = s.cmd.valueIn + counted s.cmd.dump (inputsValue view s.chunk L ins)
  gen : s'.cmd.isGenTX = if s.cmd.dump then genAfter s.cmd.isGenTX ins else s.cmd.isGenTX
  nbOutputs : s'.cmd.nbOutputs = s.cmd.nbOutputs
  valueOut : s'.cmd.valueOut = s.cmd.valueOut

theorem input_run (hblock : s.cmd.currBlock = (view s.chunk).height s.chunk)
    (hm : Holds (view s.chunk).data p x.encode) :
    Inputs view L [x] s ((inputCalls x (edgeCall h L i x) p).foldl (step view txMap) s) := by
  have hhash : Memory.hash (view s.chunk).data p = x.prevHash := (input_of_holds hm).1
  have hstart : step view txMap s (.startInput p) =
      ⟨s.chunk, startInput (view s.chunk) s.cmd p⟩ := rfl
  have hend : ∀ q r, step view txMap r (.endInput q) = r := fun q r => rfl
  rw [inputCalls, List.singleton_append, List.foldl_cons, hstart, List.foldl_append, List.foldl_cons,
    hend, List.foldl_nil, startInput, hhash]
  by_cases hx : x.prevHash = nullHash
  · have hedge : edgeCall h L i x = [] := if_pos hx
    rw [hedge, List.foldl_nil]
    cases hd : s.cmd.dump <;> constructor <;>
      simp [hx, hd, counted, inputsValue, inputValue, genAfter, BaseReward.DumpTX.State.print,
        BaseReward.DumpTX.State.rewardArg, hblock]
  · cases hu : L.unspent x.prevHash x.prevIndex.toNat with
    | none =>
      have hedge : edgeCall h L i x = [] := by rw [edgeCall, if_neg hx, hu]
      rw [hedge, List.foldl_nil]
      cases hd : s.cmd.dump <;> constructor <;>
        simp [hx, hd, hu, counted, inputsValue, inputValue, genAfter]
    | some o =>
      have hedge : ∃ up down, edgeCall h L i x = [.edge o.value.toNat up x.prevIndex.toNat o.script
          o.script.length down i x.script x.script.length] := by
        rw [edgeCall, if_neg hx, hu]
        exact ⟨_, _, rfl⟩
      obtain ⟨up, down, hedge⟩ := hedge
      rw [hedge, List.foldl_cons, List.foldl_nil]
      cases hd : s.cmd.dump <;> constructor <;>
        simp [step, startRef, onCall, hx, hd, hu, counted, inputsValue, inputValue, genAfter]

theorem Inputs.trans {s₁ s₂ : State} (h₁ : Inputs view L [x] s s₁)
    (h₂ : Inputs view (spendInput L x) ins s₁ s₂) : Inputs view L (x :: ins) s s₂ where
  chunk := h₂.chunk.trans h₁.chunk
  dump := h₂.dump.trans h₁.dump
  currBlock := h₂.currBlock.trans h₁.currBlock
  nbInputs := by
    have hlen : (x :: ins).length = [x].length + ins.length := Nat.add_comm _ _
    rw [h₂.nbInputs, h₁.nbInputs, h₁.dump, hlen, counted_add, BitVec.add_assoc]
  valueIn := by
    have hone : inputsValue view s.chunk L [x] = inputValue view s.chunk L x := Nat.add_zero _
    rw [h₂.valueIn, h₁.valueIn, h₁.dump, h₁.chunk, hone, inputsValue, counted_add, BitVec.add_assoc]
  gen := by
    rw [h₂.gen, h₁.gen, h₁.dump]
    cases s.cmd.dump <;> rfl
  nbOutputs := h₂.nbOutputs.trans h₁.nbOutputs
  valueOut := h₂.valueOut.trans h₁.valueOut

theorem inputs_run (hblock : s.cmd.currBlock = (view s.chunk).height s.chunk)
    (hm : Holds (view s.chunk).data p (encodeInputs ins)) :
    Inputs view L ins s ((inputsCalls (edgeCall h) L i p ins).foldl (step view txMap) s) := by
  induction ins generalizing L i p s with
  | nil =>
    exact ⟨rfl, rfl, rfl, counted_zero _ _, counted_zero _ _, by cases s.cmd.dump <;> rfl, rfl, rfl⟩
  | cons x ins ih =>
    rw [encodeInputs, List.flatMap_cons] at hm
    obtain ⟨hx, hrest⟩ := holds_append.mp hm
    have hone : Inputs view L [x] s ((inputCalls x (edgeCall h L i x) p).foldl (step view txMap) s) :=
      input_run hblock hx
    rw [inputsCalls, List.foldl_append]
    apply hone.trans
    apply ih
    · rw [hone.currBlock, hone.chunk, hblock]
    · rw [hone.chunk]
      exact hrest

/-- What some outputs leave of the state. -/
structure Outputs (os : List TxOutput) (s s' : State) : Prop where
  chunk : s'.chunk = s.chunk
  dump : s'.cmd.dump = s.cmd.dump
  currBlock : s'.cmd.currBlock = s.cmd.currBlock
  nbOutputs : s'.cmd.nbOutputs = s.cmd.nbOutputs + counted s.cmd.dump os.length
  valueOut : s'.cmd.valueOut = s.cmd.valueOut + counted s.cmd.dump (outputsValue os)
  gen : s'.cmd.isGenTX = s.cmd.isGenTX
  nbInputs : s'.cmd.nbInputs = s.cmd.nbInputs
  valueIn : s'.cmd.valueIn = s.cmd.valueIn

theorem output_run {o : TxOutput} :
    Outputs [o] s ((outputCalls o h i p).foldl (step view txMap) s) := by
  cases hd : s.cmd.dump <;> constructor <;>
    simp [outputCalls, step, startRef, onCall, hd, counted, outputsValue]

theorem Outputs.trans {o : TxOutput} {s₁ s₂ : State} (h₁ : Outputs [o] s s₁) (h₂ : Outputs os s₁ s₂) :
    Outputs (o :: os) s s₂ where
  chunk := h₂.chunk.trans h₁.chunk
  dump := h₂.dump.trans h₁.dump
  currBlock := h₂.currBlock.trans h₁.currBlock
  nbOutputs := by
    have hlen : (o :: os).length = [o].length + os.length := Nat.add_comm _ _
    rw [h₂.nbOutputs, h₁.nbOutputs, h₁.dump, hlen, counted_add, BitVec.add_assoc]
  valueOut := by
    have hsum : outputsValue (o :: os) = outputsValue [o] + outputsValue os := by simp [outputsValue]
    rw [h₂.valueOut, h₁.valueOut, h₁.dump, hsum, counted_add, BitVec.add_assoc]
  gen := h₂.gen.trans h₁.gen
  nbInputs := h₂.nbInputs.trans h₁.nbInputs
  valueIn := h₂.valueIn.trans h₁.valueIn

theorem outputs_run : Outputs os s ((outputsCalls h i p os).foldl (step view txMap) s) := by
  induction os generalizing i p s with
  | nil => exact ⟨rfl, rfl, rfl, counted_zero _ _, counted_zero _ _, rfl, rfl, rfl⟩
  | cons o os ih =>
    rw [outputsCalls, List.foldl_append]
    exact output_run.trans ih

/-- The state between the transactions. -/
structure Between (env : Env) (view : BlockRef → View) (txMap : List Hash256)
    (cur : Option BlockRef) (pre : List (BlockRef × Tx)) (s : State) : Prop where
  chunk : ∀ b, cur = some b → s.chunk = b ∧ s.cmd.currBlock = (view b).height b
  valueIn : s.cmd.valueIn = BitVec.ofNat 64 (dumpedIn env view txMap pre)
  valueOut : s.cmd.valueOut = BitVec.ofNat 64 (dumpedOut env txMap pre)
  gen : s.cmd.isGenTX = genBefore env txMap pre

/-- The lines are those of the dumped transactions, and right where these are clean. -/
def Lines (env : Env) (view : BlockRef → View) (txMap : List Hash256) (pre : List (BlockRef × Tx))
    (s : State) : Prop :=
  List.Forall₂ (fun d line => Right env view d line ↔ Clean env view txMap d)
    (dumped env txMap [] pre) s.printed

/-- The state before the endTX of a transaction that is dumped if `asked`. -/
structure Counted (env : Env) (view : BlockRef → View) (asked : Bool) (d : Place) (s s' : State) :
    Prop where
  chunk : s'.chunk = s.chunk
  dump : s'.cmd.dump = asked
  currBlock : s'.cmd.currBlock = s.cmd.currBlock
  nbInputs : s'.cmd.nbInputs = counted asked d.tx.inputs.length
  nbOutputs : s'.cmd.nbOutputs = counted asked d.tx.outputs.length
  valueIn : s'.cmd.valueIn = s.cmd.valueIn + counted asked (d.valueIn env view)
  valueOut : s'.cmd.valueOut = s.cmd.valueOut + counted asked d.valueOut
  gen : s'.cmd.isGenTX = if asked then genAfter s.cmd.isGenTX d.tx.inputs else s.cmd.isGenTX

/-- What startTX leaves of the state. -/
structure Entered (asked : Bool) (s s' : State) : Prop where
  chunk : s'.chunk = s.chunk
  dump : s'.cmd.dump = asked
  currBlock : s'.cmd.currBlock = s.cmd.currBlock
  nbInputs : s'.cmd.nbInputs = 0
  nbOutputs : s'.cmd.nbOutputs = 0
  valueIn : s'.cmd.valueIn = s.cmd.valueIn
  valueOut : s'.cmd.valueOut = s.cmd.valueOut
  gen : s'.cmd.isGenTX = s.cmd.isGenTX

theorem startTX_run (s : State) (p : Ptr) (hid : h.value = some (txid env t)) :
    Entered (decide (txid env t ∈ txMap)) s (step view txMap s (.startTX p h)) := by
  by_cases hasked : txid env t ∈ txMap <;> constructor <;>
    simp [step, startRef, onCall, startTX, hid, hasked, BaseReward.DumpTX.State.print]

theorem txInit_run (hblock : s.cmd.currBlock = (view s.chunk).height s.chunk)
    (hid : h.value = some (txid env t)) (hm : Holds (view s.chunk).data p (t.encode env.coin)) :
    Counted env view (decide (txid env t ∈ txMap)) ⟨pre, s.chunk, t⟩ s
      ((txInit env.coin (edgeCall h) h (ledger ((txsOf pre).map (entryOf env))) t p).foldl
        (step view txMap) s) := by
  obtain ⟨-, hins⟩ := holds_append.mp (holds_encode hm).2.1
  have hstart : Entered (decide (txid env t ∈ txMap)) s (step view txMap s (.startTX p h)) :=
    startTX_run s p hid
  rw [txInit, List.foldl_cons, List.foldl_append]
  generalize step view txMap s (.startTX p h) = s₁ at hstart
  generalize hs₂ : (inCalls env.coin (edgeCall h) _ t p).foldl (step view txMap) s₁ = s₂
  have hin : Inputs view (ledger ((txsOf pre).map (entryOf env))) t.inputs s₁ s₂ := by
    rw [← hs₂, inCalls, List.foldl_append, List.foldl_append]
    apply inputs_run
    · rw [hstart.currBlock, hstart.chunk, hblock]
    · rw [hstart.chunk]
      exact hins
  have hout : Outputs t.outputs s₂ ((outCalls env.coin h t p).foldl (step view txMap) s₂) := by
    rw [outCalls, List.foldl_append, List.foldl_append]
    exact outputs_run
  constructor
  · exact hout.chunk.trans (hin.chunk.trans hstart.chunk)
  · exact hout.dump.trans (hin.dump.trans hstart.dump)
  · exact hout.currBlock.trans (hin.currBlock.trans hstart.currBlock)
  · rw [hout.nbInputs, hin.nbInputs, hstart.nbInputs, hstart.dump]
    exact BitVec.zero_add _
  · rw [hout.nbOutputs, hin.nbOutputs, hin.dump, hstart.nbOutputs, hstart.dump]
    exact BitVec.zero_add _
  · rw [hout.valueIn, hin.valueIn, hstart.valueIn, hstart.dump, hstart.chunk]
    rfl
  · rw [hout.valueOut, hin.valueOut, hin.dump, hstart.valueOut, hstart.dump]
    rfl
  · rw [hout.gen, hin.gen, hstart.dump, hstart.gen]

theorem genAfter_false {gen : Bool} (hins : ∀ x ∈ ins, x.prevHash ≠ nullHash)
    (hnone : ins = [] → gen = false) : genAfter gen ins = false := by
  induction ins generalizing gen with
  | nil => exact hnone rfl
  | cons x ins ih =>
    have hx := hins x List.mem_cons_self
    exact ih (fun y hy => hins y (List.mem_cons_of_mem x hy)) fun _ => decide_eq_false hx

/-- A sum on top of another one is right if nothing is left of the other one. -/
theorem wrapped_iff (e v : Nat) : (BitVec.ofNat 64 e + BitVec.ofNat 64 v).toNat = v ↔
    2 ^ 64 ∣ e ∧ v < 2 ^ 64 := by
  rw [← BitVec.ofNat_add, BitVec.toNat_ofNat]
  omega

/-- The line of a dumped transaction. -/
def lineOf (env : Env) (view : BlockRef → View) (txMap : List Hash256) (d : Place) : EndLine :=
  let valueIn := BitVec.ofNat 64 (dumpedIn env view txMap d.pre) + BitVec.ofNat 64 (d.valueIn env view)
  let valueOut := BitVec.ofNat 64 (dumpedOut env txMap d.pre) + BitVec.ofNat 64 d.valueOut
  { nbInputs := BitVec.ofNat 64 d.tx.inputs.length
    nbOutputs := BitVec.ofNat 64 d.tx.outputs.length
    valueIn := valueIn
    valueOut := valueOut
    fees := if genAfter (genBefore env txMap d.pre) d.tx.inputs then none
      else some (valueIn - valueOut) }

theorem right_iff (d : Place) :
    Right env view d (lineOf env view txMap d) ↔ Clean env view txMap d := by
  have hcount : ∀ n < 2 ^ 64, (BitVec.ofNat 64 n).toNat = n := fun n hn => by
    rw [BitVec.toNat_ofNat, Nat.mod_eq_of_lt hn]
  constructor
  · intro hr
    obtain ⟨hin, hinlt⟩ := (wrapped_iff _ _).mp hr.valueIn
    obtain ⟨hout, houtlt⟩ := (wrapped_iff _ _).mp hr.valueOut
    refine ⟨hin, hout, hinlt, houtlt, fun hgen => ?_, fun hnone => ?_⟩
    · obtain ⟨fee, -, hfee⟩ := hr.fees hgen
      omega
    · obtain ⟨fee, hfees, -⟩ := hr.fees (by simp [isGen, hnone])
      cases hgen : genBefore env txMap d.pre with
      | false => rfl
      | true =>
        rw [lineOf, hnone, hgen] at hfees
        cases hfees
  · intro hc
    refine ⟨hcount _ d.tx.inputs_lt, hcount _ d.tx.outputs_lt, (wrapped_iff _ _).mpr
      ⟨hc.dumpedIn, hc.valueIn⟩, (wrapped_iff _ _).mpr ⟨hc.dumpedOut, hc.valueOut⟩, fun hgen => ?_⟩
    have hlast : genAfter (genBefore env txMap d.pre) d.tx.inputs = false :=
      genAfter_false (fun x hx hnull => hgen ⟨x, hx, hnull⟩) hc.gen
    have hzero : ∀ e, 2 ^ 64 ∣ e → ∀ v : BitVec 64, BitVec.ofNat 64 e + v = v := by
      intro e he v
      have hnone : BitVec.ofNat 64 e = 0 := by
        apply BitVec.eq_of_toNat_eq
        rw [BitVec.toNat_ofNat, Nat.mod_eq_zero_of_dvd he]
        rfl
      rw [hnone]
      exact BitVec.zero_add v
    rw [lineOf, hlast, hzero _ hc.dumpedIn, hzero _ hc.dumpedOut]
    refine ⟨_, rfl, ?_⟩
    have hle := hc.fee hgen
    rw [BitVec.toNat_sub_of_le, hcount _ hc.valueIn, hcount _ hc.valueOut, Int.natCast_sub hle]
    rw [BitVec.le_def, hcount _ hc.valueIn, hcount _ hc.valueOut]
    exact hle

theorem dumpedIn_snoc (pre : List (BlockRef × Tx)) (b : BlockRef) (t : Tx) :
    BitVec.ofNat 64 (dumpedIn env view txMap (pre ++ [(b, t)])) =
      BitVec.ofNat 64 (dumpedIn env view txMap pre) +
        counted (decide (txid env t ∈ txMap)) (Place.valueIn env view ⟨pre, b, t⟩) := by
  unfold dumpedIn
  rw [dumped_snoc, List.map_append, List.sum_append]
  by_cases hasked : txid env t ∈ txMap
  · simp [hasked, counted, BitVec.ofNat_add]
  · simp [hasked, counted]

theorem dumpedOut_snoc (pre : List (BlockRef × Tx)) (b : BlockRef) (t : Tx) :
    BitVec.ofNat 64 (dumpedOut env txMap (pre ++ [(b, t)])) =
      BitVec.ofNat 64 (dumpedOut env txMap pre) +
        counted (decide (txid env t ∈ txMap)) (Place.valueOut ⟨pre, b, t⟩) := by
  unfold dumpedOut
  rw [dumped_snoc, List.map_append, List.sum_append]
  by_cases hasked : txid env t ∈ txMap
  · simp [hasked, counted, BitVec.ofNat_add]
  · simp [hasked, counted]

theorem genBefore_snoc (pre : List (BlockRef × Tx)) (b : BlockRef) (t : Tx) :
    genBefore env txMap (pre ++ [(b, t)]) =
      if decide (txid env t ∈ txMap) then genAfter (genBefore env txMap pre) t.inputs
      else genBefore env txMap pre := by
  unfold genBefore
  rw [dumped_snoc, List.foldl_append]
  by_cases hasked : txid env t ∈ txMap
  · simp [hasked]
  · simp [hasked]

/-- endTX prints the totals and leaves them as they are. -/
theorem endTX_run (view : BlockRef → View) (txMap : List Hash256) (s : State) (q : Ptr) :
    let s' := step view txMap s (.endTX q)
    s'.chunk = s.chunk ∧ s'.cmd.currBlock = s.cmd.currBlock ∧ s'.cmd.valueIn = s.cmd.valueIn ∧
      s'.cmd.valueOut = s.cmd.valueOut ∧ s'.cmd.isGenTX = s.cmd.isGenTX ∧
      s'.printed = s.printed ++ if s.cmd.dump then [⟨s.cmd.nbInputs, s.cmd.nbOutputs, s.cmd.valueIn,
        s.cmd.valueOut, if s.cmd.isGenTX then none else some (s.cmd.valueIn - s.cmd.valueOut)⟩]
        else [] := by
  cases hd : s.cmd.dump <;>
    simp [step, startRef, onCall, endTX, hd, State.printed, BaseReward.DumpTX.State.print, endLine]

/-- One more transaction: the totals grow if it is dumped, and its line is right if it is
clean. -/
theorem tx_run (hs : Between env view txMap (some b) pre s) (hlines : Lines env view txMap pre s)
    (hid : h.value = some (txid env t)) (hm : Holds (view b).data p (t.encode env.coin)) (q : Ptr) :
    let s' := step view txMap ((txInit env.coin (edgeCall h) h
      (ledger ((txsOf pre).map (entryOf env))) t p).foldl (step view txMap) s) (.endTX q)
    Between env view txMap (some b) (pre ++ [(b, t)]) s' ∧ Lines env view txMap (pre ++ [(b, t)]) s' := by
  obtain ⟨rfl, hblock⟩ := hs.chunk b rfl
  have hcounted : Counted env view (decide (txid env t ∈ txMap)) ⟨pre, s.chunk, t⟩ s
      ((txInit env.coin (edgeCall h) h (ledger ((txsOf pre).map (entryOf env))) t p).foldl
        (step view txMap) s) := txInit_run hblock hid hm
  have hquiet : ((txInit env.coin (edgeCall h) h (ledger ((txsOf pre).map (entryOf env))) t p).foldl
      (step view txMap) s).printed = s.printed :=
    printed_foldl (fun c => not_isEndTX fun _ _ _ _ => isEdge_edgeCall _ _ _ _) s
  generalize (txInit env.coin (edgeCall h) h (ledger ((txsOf pre).map (entryOf env))) t p).foldl
    (step view txMap) s = s₁ at hcounted hquiet
  intro s'
  obtain ⟨hchunk, hcurr, hin, hout, hgen, hprinted⟩ := endTX_run view txMap s₁ q
  refine ⟨⟨?_, ?_, ?_, ?_⟩, ?_⟩
  · intro c hc
    cases hc
    exact ⟨hchunk.trans hcounted.chunk, hcurr.trans (hcounted.currBlock.trans hblock)⟩
  · rw [dumpedIn_snoc, ← hs.valueIn]
    exact hin.trans hcounted.valueIn
  · rw [dumpedOut_snoc, ← hs.valueOut]
    exact hout.trans hcounted.valueOut
  · rw [genBefore_snoc, ← hs.gen]
    exact hgen.trans hcounted.gen
  · unfold Lines
    rw [dumped_snoc]
    show List.Forall₂ _ _ (step view txMap s₁ (.endTX q)).printed
    rw [hprinted, hquiet, hcounted.dump]
    apply List.rel_append hlines
    by_cases hasked : txid env t ∈ txMap
    · have hline : (⟨s₁.cmd.nbInputs, s₁.cmd.nbOutputs, s₁.cmd.valueIn, s₁.cmd.valueOut,
          if s₁.cmd.isGenTX then none else some (s₁.cmd.valueIn - s₁.cmd.valueOut)⟩ : EndLine) =
          lineOf env view txMap ⟨pre, s.chunk, t⟩ := by
        rw [hcounted.nbInputs, hcounted.nbOutputs, hcounted.valueIn, hcounted.valueOut, hcounted.gen,
          hs.valueIn, hs.valueOut, hs.gen]
        simp [hasked, counted, lineOf]
      rw [if_pos hasked, if_pos (decide_eq_true hasked), hline]
      exact List.Forall₂.cons (right_iff _) List.Forall₂.nil
    · rw [if_neg hasked, if_neg (by simpa using hasked)]
      exact List.Forall₂.nil

theorem totals_steps (env : Env) (view : BlockRef → View) (txMap : List Hash256)
    (all : List (BlockRef × Tx)) :
    Steps env (fun b => (view b).data) edgeCall (step view txMap)
      (fun cur pre s => Between env view txMap cur pre s ∧ Lines env view txMap pre s)
      (Lines env view txMap) all where
  weaken _ _ _ hs := hs.2
  startBlock := by
    intro cur b pre s hs
    refine ⟨⟨?_, hs.1.valueIn, hs.1.valueOut, hs.1.gen⟩, hs.2⟩
    intro c hc
    cases hc
    exact ⟨rfl, rfl⟩
  startTXs _ _ _ _ hs := hs
  endTXs _ _ _ _ hs := hs
  endBlock _ _ _ _ hs := hs
  tx := by
    intro b pre t post cell p _ hm
    have hinit : ∀ c ∈ txInit env.coin (edgeCall (txArg env t cell)) (txArg env t cell)
        (ledger ((txsOf pre).map (entryOf env))) t p, isEndTX c = false :=
      fun c => not_isEndTX fun _ _ _ _ => isEdge_edgeCall _ _ _ _
    rw [txCalls_eq]
    refine Keeps.segment hinit rfl (fun s hs => hs.2) ?_ ?_
    · intro s hs
      rw [List.foldl_append]
      exact tx_run hs.1 hs.2 rfl hm _
    · intro s hs v hv
      have hquiet : (v.foldl (step view txMap) s).printed = s.printed :=
        printed_foldl (fun c hc => hinit c (hv.subset hc)) s
      unfold Lines
      rw [hquiet]
      exact hs.2

/-- The state the command starts in. -/
def start : State := ⟨0, BaseReward.DumpTX.start⟩

/-- At every point of every run the lines of endTX are those of the transactions asked for
that have ended, and a line is right if and only if the transaction is clean. -/
theorem totals_right_iff (env : Env) (view : BlockRef → View) (txMap : List Hash256)
    (bs : List (Block env.coin fun b => (view b).data)) (v : List Call)
    (hv : v <+: runCalls env edgeCall noEntries bs) :
    List.Forall₂ (fun d line => Right env view d line ↔ Clean env view txMap d)
      (dumped env txMap [] ((placed bs).take (v.countP isEndTX)))
      (v.foldl (step view txMap) start).printed := by
  have hrun := runCalls_keeps (totals_steps env view txMap (placed bs)) bs [] rfl
  have hstart : Between env view txMap none [] start := by
    refine ⟨fun b hb => ?_, rfl, rfl, rfl⟩
    cases hb
  exact hrun.mid start ⟨none, hstart, List.Forall₂.nil⟩ v hv

/-- One block, with a transaction and one that spends its output. -/
def spendView (b : BlockRef) : View :=
  { BaseReward.mintView (BitVec.ofNat 64 b) with data := blockMemory .bitcoin [mintTx, spendTx] }

theorem spend_lt : [mintTx, spendTx].length < 2 ^ 64 := by decide

def spendBlock : Block prefixEnv.coin fun b => (spendView b).data :=
  blockOf .bitcoin 1 [mintTx, spendTx] spend_lt

/-- The totals of the second, which is the only one asked for, are its own. -/
theorem totals_right_iff_spendTx : ∃ d line, d.tx = spendTx ∧
    ((runCalls prefixEnv edgeCall noEntries [spendBlock]).foldl
      (step spendView [txid prefixEnv spendTx]) start).printed = [line] ∧
    Right prefixEnv spendView d line := by
  have hall := totals_right_iff prefixEnv spendView [txid prefixEnv spendTx] [spendBlock] _
    (List.prefix_refl _)
  have hdumped : dumped prefixEnv [txid prefixEnv spendTx] [] ((placed [spendBlock]).take
      ((runCalls prefixEnv edgeCall noEntries [spendBlock]).countP isEndTX)) =
      [⟨[(1, mintTx)], 1, spendTx⟩] := by
    have hcount : (runCalls prefixEnv edgeCall noEntries [spendBlock]).countP isEndTX = 2 := by
      decide +kernel
    have hmint : txid prefixEnv mintTx ≠ txid prefixEnv spendTx := by decide
    have hplaced : placed [spendBlock] = [(1, mintTx), (1, spendTx)] := rfl
    rw [hcount, hplaced]
    simp [dumped, hmint]
  rw [hdumped] at hall
  generalize (List.foldl (step spendView [txid prefixEnv spendTx]) start
    (runCalls prefixEnv edgeCall noEntries [spendBlock])).printed = lines at hall ⊢
  cases hall with
  | cons hline hrest =>
    cases hrest
    refine ⟨_, _, rfl, rfl, hline.mpr ⟨?_, ?_, ?_, ?_, ?_, ?_⟩⟩
    · decide +kernel
    · decide +kernel
    · decide +kernel
    · decide +kernel
    · decide +kernel
    · decide +kernel

/-- Both transactions have outputs of 50, and the second total is 100. -/
theorem totals_spendTx : ValidChain prefixEnv [mintTx, spendTx] ∧
    (let asked := [txid prefixEnv mintTx, txid prefixEnv spendTx]
    let calls := runCalls prefixEnv edgeCall noEntries [spendBlock]
    (dumped prefixEnv asked [] (placed [spendBlock])).map Place.valueOut = [50, 50] ∧
      (calls.foldl (step spendView asked) start).printed.map (·.valueOut) = [50, 100]) :=
  ⟨spendChain_valid, by decide +kernel⟩

end Blockparser.DumpTotals
