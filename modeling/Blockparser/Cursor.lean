import Blockparser.Parser

/-! Where the cursor goes. Every traversal moves it by a function of the bytes
alone; the skipping traversal does nothing else. -/
namespace Blockparser.Cursor
open Bytes Trace MemoryManager Blockparser.Parser

def outputNext (m : Memory) (p : Ptr) : Ptr :=
  (loadVarInt m (p + 8)).2 + (loadVarInt m (p + 8)).1

def outputsNext (m : Memory) (p : Ptr) : Ptr :=
  cursorAfter (fun _ => outputNext m) (loadVarInt m p).1 0 (loadVarInt m p).2

def inputNext (m : Memory) (p : Ptr) : Ptr :=
  (loadVarInt m (p + 36)).2 + (loadVarInt m (p + 36)).1 + 4

def inputsNext (m : Memory) (p : Ptr) : Ptr :=
  cursorAfter (fun _ => inputNext m) (loadVarInt m p).1 0 (loadVarInt m p).2

/-- The cursor behind the version and, for a stake coin, the time. -/
def beforeInputs (coin : Coin) (p : Ptr) : Ptr :=
  if coin.isStake then p + 4 + 4 else p + 4

def txOutputs (coin : Coin) (m : Memory) (p : Ptr) : Ptr := inputsNext m (beforeInputs coin p)

def txNext (coin : Coin) (m : Memory) (p : Ptr) : Ptr :=
  afterOutputs coin m (load m p 4) (outputsNext m (txOutputs coin m p))

variable {env : Env} {m : Memory} {s : State}

theorem forCount_silent {ε σ π : Type} {body : Nat → π → EStateM ε σ π} {next : Nat → π → π}
    {s : σ} (h : ∀ i p, body i p s = .ok (next i p) s) (n i : Nat) (p : π) :
    forCount body n i p s = .ok (cursorAfter next n i p) s := by
  induction n generalizing i p with
  | zero => rfl
  | succ n ih =>
    rw [forCount, run_bind_ok (h i p), ih]
    rfl

theorem parseOutput_skip (p : Ptr) (txHash : HashPtr) (i : Nat) :
    parseOutput true false m p txHash i .null 0 [] 0 s = .ok (outputNext m p) s := rfl

theorem parseOutputs_skip (p : Ptr) (txHash : HashPtr) :
    parseOutputs true m p txHash none s = .ok (outputsNext m p) s := by
  have hbody : ∀ i q, parseOutputsBody true m txHash none i q s = .ok (outputNext m q) s :=
    fun i q => parseOutput_skip q txHash i
  have hloop := forCount_silent hbody (loadVarInt m p).1 0 (loadVarInt m p).2
  exact run_bind_ok hloop

theorem parseInput_skip (txHash : HashPtr) (i : Nat) (p : Ptr) :
    parseInput env true m txHash i p s = .ok (inputNext m p) s := by
  simp [parseInput, onlyIf, findUpstream, forSome, run_bind, inputNext]

theorem parseInputs_skip (p : Ptr) (txHash : HashPtr) :
    parseInputs env true m p txHash s = .ok (inputsNext m p) s := by
  have hbody : ∀ i q, parseInput env true m txHash i q s = .ok (inputNext m q) s :=
    fun i q => parseInput_skip txHash i q
  have hloop := forCount_silent hbody (loadVarInt m p).1 0 (loadVarInt m p).2
  exact run_bind_ok hloop

/-- The skipping traversal moves the cursor, makes no call and changes no state. -/
theorem parseTXBody_skip (p : Ptr) :
    parseTXBody env true m p .null s = .ok (txNext env.coin m p) s := by
  have hin : parseInputs env true m (beforeInputs env.coin p) .null s = .ok _ s :=
    parseInputs_skip (beforeInputs env.coin p) .null
  have hout : parseOutputs true m (txOutputs env.coin m p) .null none s = .ok _ s :=
    parseOutputs_skip (txOutputs env.coin m p) .null
  have hnew : newTXO env true .null s = .ok none s := by simp [newTXO]
  rw [beforeInputs] at hin
  rw [txOutputs, beforeInputs] at hout
  simp only [parseTXBody, getState, onlyIf, Bool.not_true, Bool.false_eq_true, if_false, run_bind,
    run_pure, hin, hnew, hout]
  rfl

end Blockparser.Cursor
