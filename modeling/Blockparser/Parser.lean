import Blockparser.Lib.Trace
import Blockparser.MemoryManager

/-! The block parser: loads from a byte stream, the transaction parser with its
unspent-output store, and the calls a callback receives. -/
namespace Blockparser.Parser
open Bytes Trace MemoryManager

abbrev Ptr := Int

/-- The coin a build is compiled for. -/
inductive Coin
  | bitcoin | testnet3 | litecoin | darkcoin | protoshares | fedoracoin | peercoin
  | clam | paycon | jumbucks | myriadcoin | unobtanium
deriving DecidableEq, Repr

def Coin.gHeaderSize : Coin → Nat
  | .protoshares => 88
  | _ => 80

def Coin.gExpectedMagic : Coin → Nat
  | .bitcoin => 0xd9b4bef9
  | .testnet3 => 0x0709110b
  | .litecoin => 0xdbb6c0fb
  | .darkcoin => 0xbd6b0cbf
  | .protoshares => 0xd9b5bdf9
  | .fedoracoin => 0xdead1337
  | .peercoin => 0xe5e9e8e6
  | .clam => 0x15352203
  | .paycon => 0x2d3b3c4b
  | .jumbucks => 0xb6f1f4fc
  | .myriadcoin => 0xee7645af
  | .unobtanium => 0x03b5d503

/-- PEERCOIN, CLAM, JUMBUCKS and PAYCON stamp transactions and sign blocks. -/
def Coin.isStake : Coin → Bool
  | .peercoin | .clam | .jumbucks | .paycon => true
  | _ => false

/-- `loadVarInt`: the integer at `p` and the cursor behind it. -/
def loadVarInt (m : Memory) (p : Ptr) : Nat × Ptr :=
  let r := (m p).toNat
  let p := p + 1
  if r < 0xFD then (r, p)
  else if r = 0xFD then (load m p 2, p + 2)
  else if r = 0xFE then (load m p 4, p + 4)
  else (load m p 8, p + 8)

/-- The cast `(int)x` of a 64-bit value. -/
def toInt (x : Nat) : Int := (BitVec.ofNat 32 x).toInt

def Memory.hash (m : Memory) (p : Ptr) : Hash256 := ⟨read m p 32, by simp⟩

/-- A pointer to a hash as a call sees it: the recycled cell it points to, if any,
and the 32 bytes behind it at the time of the call. -/
structure HashArg where
  cell : Option Addr
  value : Option Hash256
deriving DecidableEq

abbrev BlockRef := Nat

/-- The calls of `Callback` made during the deep parse. Scripts are the bytes
behind the script pointer at the time of the call. -/
inductive Call
  | startLC
  | start (s e : Option BlockRef)
  | startBlock (b : BlockRef)
  | endBlock (b : BlockRef)
  | startTXs (p : Ptr)
  | endTXs (p : Ptr)
  | startTX (p : Ptr) (hash : HashArg)
  | endTX (p : Ptr)
  | startInputs (p : Ptr)
  | endInputs (p : Ptr)
  | startInput (p : Ptr)
  | endInput (p : Ptr)
  | startOutputs (p : Ptr)
  | endOutputs (p : Ptr)
  | startOutput (p : Ptr)
  | endOutput (p : Ptr) (value : Nat) (txHash : HashArg) (outputIndex : Nat)
      (outputScript : List UInt8) (outputScriptSize : Nat)
  | edge (value : Nat) (upTXHash : HashArg) (outputIndex : Nat)
      (outputScript : List UInt8) (outputScriptSize : Nat) (downTXHash : HashArg)
      (inputIndex : Nat) (inputScript : List UInt8) (inputScriptSize : Nat)
  | wrapup
deriving DecidableEq

/-- Where a run stops: `errFatal` leaves the process with a message, `undefined`
is an access the language gives no meaning to. -/
inductive Fault
  | errFatal (msg : String)
  | undefined
deriving DecidableEq

/-- What a run reads and never writes. `done k` is what the callback answers the
`k`-th time it is asked whether it is done. -/
structure Env where
  coin : Coin
  gNeedUpstream : Bool
  sha256 : List UInt8 → Hash256
  done : Nat → Bool

def Env.sha256Twice (env : Env) (buf : List UInt8) : Hash256 := env.sha256 (env.sha256 buf).1

/-- `views` holds, for each call, the hash pool as the callback can read it then. -/
structure State where
  heap : Heap
  gTXOMap : List (Addr × Addr)
  calls : List Call
  views : List (Addr → Hash256)
  nbDone : Nat

def State.start : State := ⟨Heap.start, [], [], [], 0⟩

abbrev M := EStateM Fault State

def emit (c : Call) : M Unit := fun s =>
  .ok () { s with
    calls := s.calls ++ [c]
    views := s.views ++ [fun a => (s.heap.cells a).hash] }
def getState : M State := fun s => .ok s s
def setHeap (h : Heap) : M Unit := fun s => .ok () { s with heap := h }
def setMap (t : List (Addr × Addr)) : M Unit := fun s => .ok () { s with gTXOMap := t }
def fault {α : Type} (f : Fault) : M α := fun s => .error f s

/-- `none` is undefined behaviour. -/
def defined {α : Type} : Option α → M α
  | some a => pure a
  | none => fault .undefined

/-- A pointer to a hash: null, a cell of the hash pool, or bytes of the block. -/
structure HashPtr where
  cell : Option Addr
  load : Heap → Option Hash256

def HashPtr.null : HashPtr := ⟨none, fun _ => none⟩
def HashPtr.ofCell (a : Addr) : HashPtr := ⟨some a, fun h => some (h.cells a).hash⟩
def HashPtr.ofBytes (m : Memory) (p : Ptr) : HashPtr := ⟨none, fun _ => some (Memory.hash m p)⟩

def HashPtr.arg (t : HashPtr) (h : Heap) : HashArg := ⟨t.cell, t.load h⟩

/- parseOutput<skip, fullContext>, reading from `src`. -/
def parseOutput (skip fullContext : Bool) (src : Memory) (p : Ptr) (txHash : HashPtr)
    (outputIndex : Nat) (downTXHash : HashPtr) (downInputIndex : Nat)
    (downInputScript : List UInt8) (downInputScriptSize : Nat) : M Ptr := do
  onlyIf (!skip && !fullContext) (emit (.startOutput p))
  let value := load src p 8
  let outputScriptSize := (loadVarInt src (p + 8)).1
  let outputScript := (loadVarInt src (p + 8)).2
  let p := outputScript + outputScriptSize
  let script := read src outputScript outputScriptSize
  let s ← getState
  onlyIf (!skip && fullContext) (emit (.edge value (txHash.arg s.heap) outputIndex script
    outputScriptSize (downTXHash.arg s.heap) downInputIndex downInputScript downInputScriptSize))
  onlyIf (!skip && !fullContext) (emit (.endOutput p value (txHash.arg s.heap) outputIndex script
    outputScriptSize))
  pure p

/-- `mRawData[i]` of an array from `allocPtrs`: undefined past its length. -/
def loadSlot (h : Heap) (ptrs : Addr) (i : Nat) : Option (Option Addr) :=
  let c := h.cells (ptrs.sub 8)
  if (i : Int) < c.length then some (c.slots i) else none

def storeSlot (h : Heap) (ptrs : Addr) (i : Nat) (v : Option Addr) : Option Heap :=
  let c := h.cells (ptrs.sub 8)
  if (i : Int) < c.length then
    some (h.write (ptrs.sub 8) (.ptrs c.length (Function.update c.slots i v)))
  else none

/-- `memcpy` into a buffer from `allocTX`. -/
def copyTX (h : Heap) (data : Addr) (bytes : List UInt8) : Heap :=
  h.write (data.sub 1) (.buffer (h.cells (data.sub 1)).header bytes)

/- The body of parseOutputs that keeps the raw bytes of an output. -/
def storeOutput (m : Memory) (txo : Addr) (outputIndex : Nat) (outputStart p : Ptr) : M Unit := do
  let size := toInt (p - outputStart).toNat
  let s ← getState
  let r ← defined (allocTX s.heap size)
  let h := copyTX r.2 r.1 (read m outputStart size.toNat)
  let h ← defined (storeSlot h (h.cells txo).mRawData outputIndex (some r.1))
  setHeap h

/- txo->mRawData = allocPtrs((int)nbOutputs) -/
def allocRawData (txo : Addr) (nbOutputs : Nat) : M Unit := do
  let s ← getState
  let r ← defined (allocPtrs s.heap (toInt nbOutputs))
  setHeap (r.2.write txo (.txChunk r.1))

/- One turn of the loop of parseOutputs. -/
def parseOutputsBody (skip : Bool) (m : Memory) (txHash : HashPtr) (txo : Option Addr)
    (outputIndex : Nat) (p : Ptr) : M Ptr := do
  let outputStart := p
  let p ← parseOutput skip false m p txHash outputIndex .null 0 [] 0
  forSome txo fun txo => onlyIf (!skip) (storeOutput m txo outputIndex outputStart p)
  pure p

def parseOutputs (skip : Bool) (m : Memory) (p : Ptr) (txHash : HashPtr)
    (txo : Option Addr) : M Ptr := do
  onlyIf (!skip) (emit (.startOutputs p))
  let nbOutputs := (loadVarInt m p).1
  let p := (loadVarInt m p).2
  forSome txo fun txo => onlyIf (!skip) (allocRawData txo nbOutputs)
  let p ← forCount (parseOutputsBody skip m txHash txo) nbOutputs 0 p
  onlyIf (!skip) (emit (.endOutputs p))
  pure p

/-- `gTXOMap.find`: keys are pointers, compared by the bytes behind them. -/
def findTXO (s : State) (h : Hash256) : Option (Addr × Addr) :=
  s.gTXOMap.find? fun e => (s.heap.cells e.1).hash = h

/- The upstream look-up of parseInput. -/
def findUpstream (env : Env) (skip : Bool) (m : Memory) (upTXHash : Ptr) :
    M (Option (Addr × Addr)) :=
  if env.gNeedUpstream && !skip then
    if Memory.hash m upTXHash = nullHash then pure none
    else do
      let s ← getState
      match findTXO s (Memory.hash m upTXHash) with
      | none => fault (.errFatal "failed to locate upstream transaction")
      | some e => pure (some e)
  else pure none

/-- The bytes of a buffer from `allocTX`, as a memory with the buffer at 0. -/
def bufferMemory (h : Heap) (data : Addr) : Memory :=
  ofList (h.cells (data.sub 1)).data (fun _ => 0)

/- gTXOMap.erase, freePtrs, and the two pool frees of parseInput. -/
def dropUpstream (h256 : Hash256) (upTXHashOrig upTX : Addr) : M Unit := do
  let s ← getState
  setMap (s.gTXOMap.eraseP fun e => (s.heap.cells e.1).hash = h256)
  let h ← defined (freePtrs s.heap (s.heap.cells upTX).mRawData)
  setHeap ((h.free .txChunk upTX).free .uint256 upTXHashOrig)

/- The spending branch of parseInput. -/
def spendUpstream (m : Memory) (upTXHash : Ptr) (upTXHashOrig upTX : Addr) (upOutputIndex : Nat)
    (txHash : HashPtr) (inputIndex : Nat) (inputScript : Ptr) (inputScriptSize : Nat) :
    M Unit := do
  let s ← getState
  let mRawData := (s.heap.cells upTX).mRawData
  let slot ← defined (loadSlot s.heap mRawData upOutputIndex)
  let rawData ← defined slot
  let _ ← parseOutput false true (bufferMemory s.heap rawData) 0 (.ofBytes m upTXHash)
    upOutputIndex txHash inputIndex (read m inputScript inputScriptSize) inputScriptSize
  let h ← defined (storeSlot (freeTX s.heap rawData) mRawData upOutputIndex none)
  setHeap h
  onlyIf (countNonNullPtrs h mRawData == 0)
    (dropUpstream (Memory.hash m upTXHash) upTXHashOrig upTX)

/- parseInput<skip> -/
def parseInput (env : Env) (skip : Bool) (m : Memory) (txHash : HashPtr)
    (inputIndex : Nat) (p : Ptr) : M Ptr := do
  onlyIf (!skip) (emit (.startInput p))
  let upTXHash := p
  let upTX ← findUpstream env skip m upTXHash
  let upOutputIndex := load m (p + 32) 4
  let inputScriptSize := (loadVarInt m (p + 36)).1
  let p := (loadVarInt m (p + 36)).2
  forSome upTX fun e =>
    spendUpstream m upTXHash e.1 e.2 upOutputIndex txHash inputIndex p inputScriptSize
  let p := p + inputScriptSize + 4
  onlyIf (!skip) (emit (.endInput p))
  pure p

def parseInputs (env : Env) (skip : Bool) (m : Memory) (p : Ptr) (txHash : HashPtr) : M Ptr := do
  onlyIf (!skip) (emit (.startInputs p))
  let nbInputs := (loadVarInt m p).1
  let p := (loadVarInt m p).2
  let p ← forCount (parseInput env skip m txHash) nbInputs 0 p
  onlyIf (!skip) (emit (.endInputs p))
  pure p

/- gTXOMap[txHash] = txo, with txo the TXChunk that parseOutputs fills. -/
def newTXO (env : Env) (skip : Bool) (txHash : HashPtr) : M (Option Addr) :=
  match env.gNeedUpstream && !skip, txHash.cell with
  | true, some key => do
    let s ← getState
    let r := s.heap.alloc .txChunk
    setHeap r.2
    let same := fun e : Addr × Addr => (r.2.cells e.1).hash = (r.2.cells key).hash
    setMap (if s.gTXOMap.any same then s.gTXOMap.map fun e => if same e then (e.1, r.1) else e
      else (key, r.1) :: s.gTXOMap)
    pure (some r.1)
  | _, _ => pure none

/-- The cursor behind the fields that follow the outputs of a transaction. -/
def afterOutputs (coin : Coin) (m : Memory) (nVersion : Nat) (p : Ptr) : Ptr :=
  let p := p + 4
  if coin = .clam ∧ 1 < nVersion then
    let v := loadVarInt m p
    v.2 + v.1
  else p

/- parseTX<skip> from startTX on. -/
def parseTXBody (env : Env) (skip : Bool) (m : Memory) (p : Ptr) (txHash : HashPtr) : M Ptr := do
  let s ← getState
  onlyIf (!skip) (emit (.startTX p (txHash.arg s.heap)))
  let nVersion := load m p 4
  let p := p + 4
  let p := if env.coin.isStake then p + 4 else p
  let p ← parseInputs env skip m p txHash
  let txo ← newTXO env skip txHash
  let p ← parseOutputs skip m p txHash txo
  let p := afterOutputs env.coin m nVersion p
  onlyIf (!skip) (emit (.endTX p))
  pure p

/- The hash pre-scan of parseTX<false>. -/
def hashTX (env : Env) (m : Memory) (txStart : Ptr) : M HashPtr :=
  if env.gNeedUpstream then do
    let s ← getState
    let r := s.heap.alloc .uint256
    setHeap r.2
    let txEnd ← parseTXBody env true m txStart .null
    let s ← getState
    let txBytes := read m txStart (txEnd - txStart).toNat
    setHeap (s.heap.write r.1 (.hash256 (env.sha256Twice txBytes)))
    pure (.ofCell r.1)
  else pure .null

def parseTX (env : Env) (skip : Bool) (m : Memory) (p : Ptr) : M Ptr :=
  if skip then parseTXBody env true m p .null
  else do
    let txHash ← hashTX env m p
    parseTXBody env false m p txHash

/-- `done()`: ask the callback. -/
def done (env : Env) : M Bool := fun s => .ok (env.done s.nbDone) { s with nbDone := s.nbDone + 1 }

/-- The transaction loop of parseBlock: whether it was left through `done()`, and
the cursor. -/
def parseTXs (env : Env) (m : Memory) : Nat → Ptr → M (Bool × Ptr)
  | 0, p => pure (false, p)
  | n+1, p => do
    let p ← parseTX env false m p
    let d ← done env
    if d then pure (true, p) else parseTXs env m n p

/-- The first byte behind the header fields that parseBlock skips. -/
def afterHeader (coin : Coin) (p : Ptr) : Ptr :=
  let p := p + 4 + 32 + 32 + 4 + 4 + 4
  if coin = .protoshares then p + 4 + 4 else p

/- parseBlock: `m` holds the block's bytes from 0 on. The block signature of the
   stake coins lies behind the last call and moves only the local cursor. -/
def parseBlock (env : Env) (b : BlockRef) (m : Memory) : M Bool := do
  emit (.startBlock b)
  let p := afterHeader env.coin 0
  emit (.startTXs p)
  let nbTX := (loadVarInt m p).1
  let p := (loadVarInt m p).2
  let r ← parseTXs env m nbTX p
  if r.1 then pure true
  else do
    emit (.endTXs r.2)
    emit (.endBlock b)
    done env

end Blockparser.Parser
