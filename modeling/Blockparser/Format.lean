import Blockparser.Cursor

/-! The wire format of a transaction, and what the parser's loads find where an
encoded transaction stands. -/
namespace Blockparser.Format
open Bytes Trace MemoryManager Blockparser.Parser Cursor

/-- CompactSize: one byte, or a marker and two, four or eight bytes. -/
def encodeVarInt (n : Nat) : List UInt8 :=
  if n < 0xFD then [UInt8.ofNat n]
  else if n < 2 ^ 16 then 0xFD :: leBytes 2 n
  else if n < 2 ^ 32 then 0xFE :: leBytes 4 n
  else 0xFF :: leBytes 8 n

theorem length_nil_lt : ([] : List UInt8).length < 2 ^ 64 := by decide

structure TxInput where
  prevHash : Hash256
  prevIndex : UInt32
  script : List UInt8
  sequence : UInt32
  script_lt : script.length < 2 ^ 64

structure TxOutput where
  value : UInt64
  script : List UInt8
  script_lt : script.length < 2 ^ 64

/-- `time` is written by the stake coins, `speech` by CLAM from version 2 on. -/
structure Tx where
  version : UInt32
  time : UInt32
  inputs : List TxInput
  outputs : List TxOutput
  lockTime : UInt32
  speech : List UInt8
  inputs_lt : inputs.length < 2 ^ 64
  outputs_lt : outputs.length < 2 ^ 64
  speech_lt : speech.length < 2 ^ 64

def TxInput.encode (i : TxInput) : List UInt8 :=
  i.prevHash.1 ++ (leBytes 4 i.prevIndex.toNat ++ (encodeVarInt i.script.length ++
    (i.script ++ leBytes 4 i.sequence.toNat)))

def TxOutput.encode (o : TxOutput) : List UInt8 :=
  leBytes 8 o.value.toNat ++ (encodeVarInt o.script.length ++ o.script)

def encodeInputs (is : List TxInput) : List UInt8 := is.flatMap TxInput.encode
def encodeOutputs (os : List TxOutput) : List UInt8 := os.flatMap TxOutput.encode

def Tx.encodeTime (coin : Coin) (t : Tx) : List UInt8 :=
  if coin.isStake then leBytes 4 t.time.toNat else []

def Tx.encodeSpeech (coin : Coin) (t : Tx) : List UInt8 :=
  if coin = .clam ∧ 1 < t.version.toNat then encodeVarInt t.speech.length ++ t.speech else []

def Tx.encode (coin : Coin) (t : Tx) : List UInt8 :=
  leBytes 4 t.version.toNat ++ (t.encodeTime coin ++
    ((encodeVarInt t.inputs.length ++ encodeInputs t.inputs) ++
      ((encodeVarInt t.outputs.length ++ encodeOutputs t.outputs) ++
        (leBytes 4 t.lockTime.toNat ++ t.encodeSpeech coin))))

variable {m : Memory} {p : Ptr}

theorem loadVarInt_of_holds {n : Nat} (hn : n < 2 ^ 64) (h : Holds m p (encodeVarInt n)) :
    loadVarInt m p = (n, p + (encodeVarInt n).length) := by
  -- behind a marker stands the integer, `k` bytes wide
  have hwide : ∀ k, n < 256 ^ k → Holds m (p + 1) (leBytes k n) →
      loadVarInt m p = (load m (p + 1) k, p + 1 + k) →
      loadVarInt m p = (n, p + ((leBytes k n).length + 1 : Nat)) := by
    intro k hk hl hv
    rw [hv, load_of_holds hl hk, length_leBytes]
    push_cast
    rw [add_assoc, add_comm (1 : Int)]
  unfold encodeVarInt at h ⊢
  by_cases h1 : n < 0xFD
  · rw [if_pos h1] at h ⊢
    have hb : m p = UInt8.ofNat n := (holds_cons.mp h).1
    have hv : (UInt8.ofNat n).toNat = n := by simp; omega
    simp [loadVarInt, hb, hv, h1]
  rw [if_neg h1] at h ⊢
  by_cases h2 : n < 2 ^ 16
  · rw [if_pos h2] at h ⊢
    obtain ⟨hb, hl⟩ := holds_cons.mp h
    exact hwide 2 h2 hl (by simp [loadVarInt, hb])
  rw [if_neg h2] at h ⊢
  by_cases h3 : n < 2 ^ 32
  · rw [if_pos h3] at h ⊢
    obtain ⟨hb, hl⟩ := holds_cons.mp h
    exact hwide 4 h3 hl (by simp [loadVarInt, hb])
  · rw [if_neg h3] at h ⊢
    obtain ⟨hb, hl⟩ := holds_cons.mp h
    exact hwide 8 hn hl (by simp [loadVarInt, hb])

theorem TxOutput.length_encode (o : TxOutput) :
    o.encode.length = 8 + (encodeVarInt o.script.length).length + o.script.length := by
  simp [TxOutput.encode]
  omega

/-- What the parser reads of an output. -/
theorem output_of_holds {o : TxOutput} (h : Holds m p o.encode) :
    load m p 8 = o.value.toNat ∧ (loadVarInt m (p + 8)).1 = o.script.length ∧
    read m (loadVarInt m (p + 8)).2 o.script.length = o.script ∧
    outputNext m p = p + o.encode.length := by
  obtain ⟨hv, h⟩ := holds_append.mp h
  rw [length_leBytes] at h
  obtain ⟨hl, hs⟩ := holds_append.mp h
  have hvar := loadVarInt_of_holds o.script_lt hl
  have hvalue := load_of_holds hv o.value.toNat_lt
  push_cast at hvar
  refine ⟨hvalue, by rw [hvar], by rw [hvar]; exact hs, ?_⟩
  rw [outputNext, hvar, o.length_encode]
  push_cast
  ring

theorem TxInput.length_encode (i : TxInput) :
    i.encode.length = 36 + (encodeVarInt i.script.length).length + i.script.length + 4 := by
  have hh := i.prevHash.2
  simp [TxInput.encode, hh]
  omega

/-- What the parser reads of an input. -/
theorem input_of_holds {i : TxInput} (h : Holds m p i.encode) :
    Memory.hash m p = i.prevHash ∧ load m (p + 32) 4 = i.prevIndex.toNat ∧
    (loadVarInt m (p + 36)).1 = i.script.length ∧
    read m (loadVarInt m (p + 36)).2 i.script.length = i.script ∧
    inputNext m p = p + i.encode.length := by
  obtain ⟨hh, h⟩ := holds_append.mp h
  have hlen : i.prevHash.1.length = 32 := i.prevHash.2
  rw [hlen] at h
  obtain ⟨hi, h⟩ := holds_append.mp h
  rw [length_leBytes] at h
  obtain ⟨hl, h⟩ := holds_append.mp h
  rw [show p + ((32 : Nat) : Int) + ((4 : Nat) : Int) = p + 36 by push_cast; ring] at hl h
  obtain ⟨hs, -⟩ := holds_append.mp h
  have hvar := loadVarInt_of_holds i.script_lt hl
  refine ⟨?_, load_of_holds hi i.prevIndex.toNat_lt, by rw [hvar], by rw [hvar]; exact hs, ?_⟩
  · apply Subtype.ext
    rw [Holds, hlen] at hh
    exact hh
  · rw [inputNext, hvar, i.length_encode]
    push_cast
    ring

theorem cursorAfter_inputs {xs : List TxInput} (i : Nat) (h : Holds m p (encodeInputs xs)) :
    cursorAfter (fun _ => inputNext m) xs.length i p = p + (encodeInputs xs).length := by
  induction xs generalizing i p with
  | nil => simp [cursorAfter, encodeInputs]
  | cons x xs ih =>
    rw [encodeInputs, List.flatMap_cons] at h
    obtain ⟨hx, hxs⟩ := holds_append.mp h
    have hnext := (input_of_holds hx).2.2.2.2
    rw [List.length_cons, cursorAfter, hnext, ih (i + 1) hxs]
    simp only [encodeInputs, List.flatMap_cons, List.length_append]
    push_cast
    ring

theorem cursorAfter_outputs {os : List TxOutput} (i : Nat) (h : Holds m p (encodeOutputs os)) :
    cursorAfter (fun _ => outputNext m) os.length i p = p + (encodeOutputs os).length := by
  induction os generalizing i p with
  | nil => simp [cursorAfter, encodeOutputs]
  | cons o os ih =>
    rw [encodeOutputs, List.flatMap_cons] at h
    obtain ⟨ho, hos⟩ := holds_append.mp h
    have hnext := (output_of_holds ho).2.2.2
    rw [List.length_cons, cursorAfter, hnext, ih (i + 1) hos]
    simp only [encodeOutputs, List.flatMap_cons, List.length_append]
    push_cast
    ring

variable {coin : Coin} {t : Tx}

/-- Where the inputs, the outputs and the lock time of an encoded transaction start. -/
def Tx.inputsAt (coin : Coin) (t : Tx) (p : Ptr) : Ptr := p + 4 + (t.encodeTime coin).length

def Tx.outputsAt (coin : Coin) (t : Tx) (p : Ptr) : Ptr :=
  t.inputsAt coin p + (encodeVarInt t.inputs.length ++ encodeInputs t.inputs).length

def Tx.lockTimeAt (coin : Coin) (t : Tx) (p : Ptr) : Ptr :=
  t.outputsAt coin p + (encodeVarInt t.outputs.length ++ encodeOutputs t.outputs).length

theorem holds_encode (h : Holds m p (t.encode coin)) :
    load m p 4 = t.version.toNat ∧
    Holds m (t.inputsAt coin p) (encodeVarInt t.inputs.length ++ encodeInputs t.inputs) ∧
    Holds m (t.outputsAt coin p) (encodeVarInt t.outputs.length ++ encodeOutputs t.outputs) ∧
    Holds m (t.lockTimeAt coin p + 4) (t.encodeSpeech coin) := by
  obtain ⟨hver, h⟩ := holds_append.mp h
  rw [length_leBytes] at h
  obtain ⟨-, h⟩ := holds_append.mp h
  obtain ⟨hin, h⟩ := holds_append.mp h
  obtain ⟨hout, h⟩ := holds_append.mp h
  obtain ⟨-, hsp⟩ := holds_append.mp h
  rw [length_leBytes] at hsp
  exact ⟨load_of_holds hver t.version.toNat_lt, hin, hout, hsp⟩

theorem beforeInputs_eq (p : Ptr) : beforeInputs coin p = t.inputsAt coin p := by
  unfold beforeInputs Tx.inputsAt Tx.encodeTime
  split <;> simp

theorem afterOutputs_eq (h : Holds m p (t.encode coin)) :
    afterOutputs coin m t.version.toNat (t.lockTimeAt coin p) = p + (t.encode coin).length := by
  have hlen : p + ((t.encode coin).length : Int) =
      t.lockTimeAt coin p + 4 + (t.encodeSpeech coin).length := by
    simp only [Tx.encode, Tx.lockTimeAt, Tx.outputsAt, Tx.inputsAt, List.length_append,
      length_leBytes]
    push_cast
    ring
  have hsp := (holds_encode h).2.2.2
  rw [hlen, afterOutputs]
  unfold Tx.encodeSpeech at hsp ⊢
  by_cases hc : coin = .clam ∧ 1 < t.version.toNat
  · rw [if_pos hc] at hsp ⊢
    have hvar := loadVarInt_of_holds t.speech_lt (holds_append.mp hsp).1
    simp only [if_pos hc, hvar, List.length_append]
    push_cast
    ring
  · simp only [if_neg hc, List.length_nil]
    push_cast
    ring

/-- Skipping an encoded transaction leaves the cursor at its end. -/
theorem txNext_of_holds (h : Holds m p (t.encode coin)) :
    txNext coin m p = p + (t.encode coin).length := by
  obtain ⟨hver, hin, hout, -⟩ := holds_encode h
  obtain ⟨hni, hin⟩ := holds_append.mp hin
  obtain ⟨hno, hout⟩ := holds_append.mp hout
  have hi : inputsNext m (t.inputsAt coin p) = t.outputsAt coin p := by
    rw [inputsNext, loadVarInt_of_holds t.inputs_lt hni, cursorAfter_inputs 0 hin, Tx.outputsAt,
      List.length_append]
    push_cast
    ring
  have ho : outputsNext m (t.outputsAt coin p) = t.lockTimeAt coin p := by
    rw [outputsNext, loadVarInt_of_holds t.outputs_lt hno, cursorAfter_outputs 0 hout,
      Tx.lockTimeAt, List.length_append]
    push_cast
    ring
  rw [txNext, txOutputs, beforeInputs_eq (t := t), hi, ho, hver, afterOutputs_eq h]

end Blockparser.Format
