import Blockparser.Lib.Segments
import Blockparser.Script

/-! The base reward of a block, and the three commands that print it: rewards, dumpTX and
rawdump, each with a block number of its own. -/
namespace Blockparser.BaseReward
open Bytes MemoryManager Blockparser.Parser Script

def kCoin : BitVec 64 := 100000000

/-- The shift takes its count modulo 64, as the machine does; the language leaves it
undefined from 64 on. -/
def getBaseReward (h : BitVec 64) : BitVec 64 := (50 * kCoin) >>> (h.toNat / 210000 % 64)

/-- What a command reads besides its own state: `height` is the field of a block, and
`data` the memory its pointers point into. -/
structure View where
  height : BlockRef → BitVec 64
  data : Memory
  solveOutputScript : List UInt8 → Solved

/-- Where the process ends inside a callback. -/
inductive Stop
  | abort
  | errFatal (msg : String)

/-- The time field of the header of a block. -/
def View.blkTime (view : View) : BitVec 32 := BitVec.ofNat 32 (load view.data 68 4)

namespace Rewards

/-- A line of endBlock. -/
structure Summary where
  block : BitVec 64
  baseReward : BitVec 64
  feesEarned : BitVec 64
  total : BitVec 64

structure State where
  fullDump : Bool
  reward : BitVec 64
  nbInputs : BitVec 64
  hasGenInput : Bool
  currBlock : BitVec 64
  currTXHash : HashArg
  summaries : List Summary

variable (view : View)

/-- The argument of getBaseReward. -/
def State.rewardArg (s : State) : BitVec 64 := s.currBlock

def startBlock (s : State) (b : BlockRef) : State :=
  { s with currBlock := view.height b - 1, reward := 0 }

def startInput (s : State) (p : Ptr) : State :=
  let s := if Memory.hash view.data p = nullHash then { s with hasGenInput := true } else s
  { s with nbInputs := s.nbInputs + 1 }

def endInputs (s : State) : Except Stop State :=
  if s.hasGenInput && s.nbInputs ≠ 1 then .error .abort else .ok s

/-- The rows of `--full` are left out. -/
def endOutput (s : State) (value : Nat) (outputScript : List UInt8) : Except Stop State :=
  if !s.hasGenInput then .ok s
  else
    let type := (view.solveOutputScript outputScript).scriptType
    if type = -2 then .ok s
    else if type < 0 ∧ value ≠ 0 ∧ s.fullDump then .error (.errFatal "invalid script")
    else .ok { s with reward := s.reward + BitVec.ofNat 64 value }

def endBlock (s : State) : State :=
  let baseReward := getBaseReward s.rewardArg
  { s with summaries := s.summaries ++ [⟨s.currBlock, baseReward, s.reward - baseReward, s.reward⟩] }

def onCall (s : State) : Call → Except Stop State
  | .startBlock b => .ok (startBlock view s b)
  | .startTX _ hash => .ok { s with currTXHash := hash }
  | .startInputs _ => .ok { s with hasGenInput := false, nbInputs := 0 }
  | .startInput p => .ok (startInput view s p)
  | .endInputs _ => endInputs s
  | .endOutput _ value _ _ outputScript _ => endOutput view s value outputScript
  | .endBlock _ => .ok (endBlock s)
  | _ => .ok s

end Rewards

namespace DumpTX

inductive Line
  | startTX (version : Nat) (block bTime : BitVec 64) (txHash : HashArg)
  | reward (value : BitVec 64)
  | endTX (nbInputs nbOutputs : BitVec 64) (byteSize : Int) (lockTime : Nat)
      (valueIn valueOut : BitVec 64) (fees : Option (BitVec 64))

structure State where
  dump : Bool
  isDone : Bool
  isGenTX : Bool
  txStart : Ptr
  nbInputs : BitVec 64
  nbOutputs : BitVec 64
  nbDumped : BitVec 64
  valueIn : BitVec 64
  valueOut : BitVec 64
  bTime : BitVec 64
  currBlock : BitVec 64
  lines : List Line

/- `txMap` has the transactions asked for. -/
variable (view : View) (txMap : List Hash256)

def State.print (s : State) (line : Line) : State := { s with lines := s.lines ++ [line] }

def State.rewardArg (s : State) : BitVec 64 := s.currBlock

def startBlock (s : State) (b : BlockRef) : State :=
  { s with currBlock := view.height b, bTime := view.blkTime.setWidth 64 }

def startTX (s : State) (p : Ptr) (hash : HashArg) : State :=
  let s := { s with
    txStart := p, nbInputs := 0, nbOutputs := 0
    dump := hash.value.any (· ∈ txMap) }
  if s.dump then s.print (.startTX (load view.data p 4) (s.currBlock - 1) s.bTime hash) else s

def startInput (s : State) (p : Ptr) : State :=
  if s.dump then
    let s := { s with
      nbInputs := s.nbInputs + 1, isGenTX := Memory.hash view.data p = nullHash }
    if s.isGenTX then
      let reward := getBaseReward s.rewardArg
      { s.print (.reward reward) with valueIn := s.valueIn + reward }
    else s
  else s

def endTX (s : State) (p : Ptr) : State :=
  let s :=
    if s.dump then
      let lockTime := load view.data p 4
      -- the load moves the pointer the size is taken from
      let p := p + 4
      let fees := if s.isGenTX then none else some (s.valueIn - s.valueOut)
      { s.print (.endTX s.nbInputs s.nbOutputs (p - s.txStart) lockTime s.valueIn s.valueOut
          fees) with
        nbDumped := s.nbDumped + 1 }
    else s
  { s with isDone := s.nbDumped = BitVec.ofNat 64 txMap.dedup.length }

def onCall (s : State) : Call → State
  | .startBlock b => startBlock view s b
  | .startTX p hash => startTX view txMap s p hash
  | .startInput p => startInput view s p
  | .edge value _ _ _ _ _ _ _ _ =>
    if s.dump then { s with valueIn := s.valueIn + BitVec.ofNat 64 value } else s
  | .startOutput _ => if s.dump then { s with nbOutputs := s.nbOutputs + 1 } else s
  | .endOutput _ value _ _ _ _ =>
    if s.dump then { s with valueOut := s.valueOut + BitVec.ofNat 64 value } else s
  | .endTX p => endTX view txMap s p
  | _ => s

end DumpTX

namespace RawDump

/-- `values` are those printed for generation inputs. -/
structure State where
  txId : BitVec 64
  isCoinBase : Bool
  inputId : BitVec 32
  outputId : BitVec 32
  currBlock : BitVec 32
  txIdInBlock : BitVec 32
  values : List (BitVec 64)

variable (view : View)

def State.rewardArg (s : State) : BitVec 64 := s.currBlock.setWidth 64

def startBlock (s : State) (b : BlockRef) : State :=
  { s with txIdInBlock := 0, currBlock := (view.height b).setWidth 32 }

def startInput (s : State) (p : Ptr) : State :=
  let s := { s with isCoinBase := Memory.hash view.data p = nullHash }
  if s.isCoinBase then { s with values := s.values ++ [getBaseReward s.rewardArg] } else s

def onCall (s : State) : Call → State
  | .startBlock b => startBlock view s b
  | .startInputs _ => { s with inputId := 0, isCoinBase := false }
  | .startInput p => startInput view s p
  | .endInput _ => { s with inputId := s.inputId + 1 }
  | .startOutputs _ => { s with outputId := 0 }
  | .endOutput _ _ _ _ _ _ => { s with outputId := s.outputId + 1 }
  | .endTX _ => { s with txIdInBlock := s.txIdInBlock + 1, txId := s.txId + 1 }
  | _ => s

end RawDump

/-- The calls of a block from its startBlock on, as far as they have come. -/
def InBlock (b : BlockRef) (calls : List Call) : Prop :=
  ∃ body, calls = .startBlock b :: body ∧ ∀ b', Call.startBlock b' ∉ body

variable {view : View} {txMap : List Hash256} {b : BlockRef} {calls : List Call} {h : BitVec 64}

/-- What startBlock sets and no other call changes stays as it is in the block. -/
theorem InBlock.foldl_keeps {σ α : Type} {onCall : σ → Call → σ} {get : σ → α} {v : α}
    (hset : ∀ s, get (onCall s (.startBlock b)) = v)
    (hkeep : ∀ s c, (∀ b', c ≠ .startBlock b') → get (onCall s c) = get s)
    (hb : InBlock b calls) (s : σ) : get (calls.foldl onCall s) = v := by
  obtain ⟨body, rfl, hnot⟩ := hb
  have hbody : ∀ c ∈ body, ∀ s, get (onCall s c) = get s := fun c hc s =>
    hkeep s c fun b' he => hnot b' (he ▸ hc)
  rw [List.foldl_cons, Segments.foldl_kept get hbody, hset]

namespace Rewards

theorem startInput_currBlock (s : State) (p : Ptr) :
    (startInput view s p).currBlock = s.currBlock := by
  unfold startInput
  dsimp only
  split <;> rfl

theorem startInput_summaries (s : State) (p : Ptr) :
    (startInput view s p).summaries = s.summaries := by
  unfold startInput
  dsimp only
  split <;> rfl

theorem endInputs_ok {s s' : State} (h : endInputs s = .ok s') : s' = s := by
  unfold endInputs at h
  split at h
  · cases h
  · cases h
    rfl

/-- An output changes the reward at most. -/
theorem endOutput_ok {s s' : State} {value : Nat} {outputScript : List UInt8}
    (h : endOutput view s value outputScript = .ok s') :
    ∃ reward, s' = { s with reward := reward } := by
  unfold endOutput at h
  dsimp only at h
  split at h
  · cases h
    exact ⟨s.reward, rfl⟩
  · split at h
    · cases h
      exact ⟨s.reward, rfl⟩
    · split at h
      · cases h
      · cases h
        exact ⟨_, rfl⟩

theorem onCall_currBlock {s s' : State} {c : Call} (hc : ∀ b, c ≠ .startBlock b)
    (h : onCall view s c = .ok s') : s'.currBlock = s.currBlock := by
  cases c with
  | startBlock b => exact absurd rfl (hc b)
  | startInput p =>
    cases h
    exact startInput_currBlock s p
  | endInputs p => rw [endInputs_ok h]
  | endOutput p value txHash outputIndex script size =>
    obtain ⟨reward, rfl⟩ := endOutput_ok h
    rfl
  | _ =>
    cases h
    rfl

theorem run_currBlock {s s' : State} (h : calls.foldlM (onCall view) s = .ok s')
    (hc : ∀ b, Call.startBlock b ∉ calls) : s'.currBlock = s.currBlock := by
  induction calls generalizing s with
  | nil =>
    cases h
    rfl
  | cons c calls ih =>
    rw [List.foldlM_cons] at h
    cases hs : onCall view s c with
    | error e =>
      rw [hs] at h
      cases h
    | ok s₁ =>
      rw [hs] at h
      rw [ih h fun b hmem => hc b (List.mem_cons_of_mem c hmem)]
      apply onCall_currBlock _ hs
      intro b he
      exact hc b (he ▸ List.mem_cons_self ..)

theorem rewardArg_eq {s s' : State} (hb : InBlock b calls)
    (h : calls.foldlM (onCall view) s = .ok s') : s'.rewardArg = view.height b - 1 := by
  obtain ⟨body, rfl, hnot⟩ := hb
  rw [List.foldlM_cons] at h
  exact run_currBlock h hnot

end Rewards

theorem DumpTX.rewardArg_eq (hb : InBlock b calls) (s : DumpTX.State) :
    (calls.foldl (DumpTX.onCall view txMap) s).rewardArg = view.height b := by
  refine hb.foldl_keeps (fun _ => rfl) ?_ s
  intro s c hc
  cases c with
  | startBlock b => exact absurd rfl (hc b)
  | startTX p hash =>
    dsimp only [onCall, startTX]
    split <;> rfl
  | startInput p =>
    dsimp only [onCall, startInput]
    split
    · split <;> rfl
    · rfl
  | edge =>
    dsimp only [onCall]
    split <;> rfl
  | startOutput p =>
    dsimp only [onCall]
    split <;> rfl
  | endOutput =>
    dsimp only [onCall]
    split <;> rfl
  | endTX p =>
    dsimp only [onCall, endTX]
    split <;> rfl
  | _ => rfl

theorem RawDump.rewardArg_eq (hb : InBlock b calls) (s : RawDump.State) :
    (calls.foldl (RawDump.onCall view) s).rewardArg = ((view.height b).setWidth 32).setWidth 64 := by
  refine hb.foldl_keeps (fun _ => rfl) ?_ s
  intro s c hc
  cases c with
  | startBlock b => exact absurd rfl (hc b)
  | startInput p =>
    dsimp only [onCall, startInput]
    split <;> rfl
  | _ => rfl

/-- The first block of a new reward, until the reward has gone to 0. -/
def Halving (h : BitVec 64) : Prop := h.toNat % 210000 = 0 ∧ h.toNat ≤ 33 * 210000

theorem getBaseReward_step : ∀ k < 63, ((50 * kCoin) >>> k = (50 * kCoin) >>> (k + 1) ↔ 33 ≤ k) := by
  decide

/-- The reward of a block differs from the one before it only at a halving. -/
theorem getBaseReward_sub_one (h0 : 1 ≤ h.toNat) (h1 : h.toNat < 64 * 210000) :
    getBaseReward (h - 1) = getBaseReward h ↔ ¬Halving h := by
  have hsub : (h - 1).toNat = h.toNat - 1 := BitVec.toNat_sub_of_le h0
  unfold getBaseReward Halving
  rw [hsub]
  generalize h.toNat = n at *
  rw [Nat.mod_eq_of_lt (by omega), Nat.mod_eq_of_lt (by omega)]
  by_cases hn : n % 210000 = 0
  · have hk : n / 210000 = (n - 1) / 210000 + 1 := by omega
    rw [hk, getBaseReward_step _ (by omega)]
    omega
  · have hk : n / 210000 = (n - 1) / 210000 := by omega
    rw [hk]
    simp [hn]

/-- No block up to `h` has a smaller reward, and there is none from the 33rd halving on. -/
def NeverGrows (h : BitVec 64) : Prop :=
  (∀ k ≤ h, getBaseReward h ≤ getBaseReward k) ∧ (33 ≤ h.toNat / 210000 → getBaseReward h = 0)

/-- The shift has not come around, or it has and shifts everything out. -/
def ShiftInRange (h : BitVec 64) : Prop :=
  h.toNat / 210000 < 64 ∨ 33 ≤ h.toNat / 210000 % 64

instance (h : BitVec 64) : Decidable (ShiftInRange h) := by unfold ShiftInRange; infer_instance

theorem toNat_getBaseReward (h : BitVec 64) :
    (getBaseReward h).toNat = 5000000000 / 2 ^ (h.toNat / 210000 % 64) := by
  rw [getBaseReward, BitVec.toNat_ushiftRight, Nat.shiftRight_eq_div_pow]
  rfl

theorem getBaseReward_eq_zero_iff (h : BitVec 64) :
    getBaseReward h = 0 ↔ 33 ≤ h.toNat / 210000 % 64 := by
  have hlt : h.toNat / 210000 % 64 < 64 := Nat.mod_lt _ (by norm_num)
  have hzero : ∀ k < 64, 5000000000 / 2 ^ k = 0 ↔ 33 ≤ k := by decide
  rw [← hzero _ hlt, ← toNat_getBaseReward]
  exact BitVec.toNat_inj.symm

theorem getBaseReward_anti {h k : BitVec 64} (hk : k ≤ h) (hh : h.toNat / 210000 < 64) :
    getBaseReward h ≤ getBaseReward k := by
  have hdiv : k.toNat / 210000 ≤ h.toNat / 210000 := Nat.div_le_div_right (BitVec.le_def.mp hk)
  rw [BitVec.le_def, toNat_getBaseReward, toNat_getBaseReward, Nat.mod_eq_of_lt hh,
    Nat.mod_eq_of_lt (lt_of_le_of_lt hdiv hh)]
  exact Nat.div_le_div_left (Nat.pow_le_pow_right (by norm_num) hdiv) (Nat.pow_pos (by norm_num))

/-- The reward is the one of the shift the machine makes, and it never grows where that
shift is in range. -/
theorem getBaseReward_neverGrows (h : BitVec 64) :
    (getBaseReward h).toNat = 5000000000 / 2 ^ (h.toNat / 210000 % 64) ∧
      (NeverGrows h ↔ ShiftInRange h) := by
  refine ⟨toNat_getBaseReward h, ?_⟩
  constructor
  · intro hn
    by_cases hlt : h.toNat / 210000 < 64
    · exact Or.inl hlt
    · exact Or.inr ((getBaseReward_eq_zero_iff h).mp (hn.2 (by omega)))
  · intro hr
    cases hr with
    | inl hlt =>
      constructor
      · intro k hk
        exact getBaseReward_anti hk hlt
      · intro h33
        rw [getBaseReward_eq_zero_iff, Nat.mod_eq_of_lt hlt]
        exact h33
    | inr h33 =>
      have hzero := (getBaseReward_eq_zero_iff h).mpr h33
      constructor
      · intro k _
        rw [hzero]
        exact BitVec.le_def.mpr (Nat.zero_le _)
      · intro _
        exact hzero

/-- After 64 halvings the reward is back at 50 coins. -/
theorem getBaseReward_comes_back : ¬∀ h k : BitVec 64, h ≤ k →
    getBaseReward k ≤ getBaseReward h ∧ (33 ≤ k.toNat / 210000 → getBaseReward k = 0) := by
  intro hall
  have h := hall 6930000 13440000 (by decide)
  exact absurd h (by decide)

/-- The three arguments of getBaseReward are equal. -/
def SameArgument (r : Rewards.State) (d : DumpTX.State) (w : RawDump.State) : Prop :=
  r.rewardArg = d.rewardArg ∧ r.rewardArg = w.rewardArg

def SameResult (r : Rewards.State) (d : DumpTX.State) (w : RawDump.State) : Prop :=
  getBaseReward r.rewardArg = getBaseReward d.rewardArg ∧
    getBaseReward r.rewardArg = getBaseReward w.rewardArg

/-- In no block do the three commands ask for the same reward, wherever in the block each
of them is; they get the same one in all blocks but those of a halving. -/
theorem rewardArg_differs (view : View) (txMap : List Hash256) (b : BlockRef)
    (callsR callsD callsW : List Call) (hR : InBlock b callsR) (hD : InBlock b callsD)
    (hW : InBlock b callsW) (r₀ r : Rewards.State) (d₀ : DumpTX.State) (w₀ : RawDump.State)
    (hr : callsR.foldlM (Rewards.onCall view) r₀ = .ok r) :
    let d := callsD.foldl (DumpTX.onCall view txMap) d₀
    let w := callsW.foldl (RawDump.onCall view) w₀
    ¬SameArgument r d w ∧ r.rewardArg ≠ d.rewardArg ∧ r.rewardArg ≠ w.rewardArg ∧
      (1 ≤ (view.height b).toNat → (view.height b).toNat < 64 * 210000 →
        (SameResult r d w ↔ ¬Halving (view.height b))) := by
  intro d w
  have hrarg := Rewards.rewardArg_eq hR hr
  have hdarg : d.rewardArg = view.height b := DumpTX.rewardArg_eq hD d₀
  have hwarg : w.rewardArg = ((view.height b).setWidth 32).setWidth 64 := RawDump.rewardArg_eq hW w₀
  have hone : (1 : BitVec 64).toNat = 1 := rfl
  have hrd : r.rewardArg ≠ d.rewardArg := by
    rw [hrarg, hdarg]
    intro he
    have := congrArg BitVec.toNat he
    rw [BitVec.toNat_sub, hone] at this
    omega
  have hrw : r.rewardArg ≠ w.rewardArg := by
    rw [hrarg, hwarg]
    intro he
    have := congrArg BitVec.toNat he
    rw [BitVec.toNat_sub, BitVec.toNat_setWidth, BitVec.toNat_setWidth, hone] at this
    omega
  refine ⟨fun hs => hrd hs.1, hrd, hrw, ?_⟩
  intro h0 h1
  have hsmall : ((view.height b).setWidth 32).setWidth 64 = view.height b := by
    apply BitVec.eq_of_toNat_eq
    rw [BitVec.toNat_setWidth, BitVec.toNat_setWidth]
    omega
  rw [SameResult, hrarg, hdarg, hwarg, hsmall, and_self]
  exact getBaseReward_sub_one h0 h1

/-- A generation transaction with one input, in a block of zeros. -/
def mintCalls : List Call :=
  [.startBlock 0, .startTXs 80, .startTX 81 ⟨none, some nullHash⟩, .startInputs 85, .startInput 86,
    .endInput 127, .endInputs 127, .endTX 132, .endTXs 132, .endBlock 0]

def mintView (h : BitVec 64) : View := ⟨fun _ => h, fun _ => 0, fun _ => ⟨-1, hashZero, 0⟩⟩

def Rewards.start : Rewards.State := ⟨false, 0, 0, false, 0, ⟨none, none⟩, []⟩

def DumpTX.start : DumpTX.State := ⟨false, false, false, 0, 0, 0, 0, 0, 0, 0, 0, []⟩

def RawDump.start : RawDump.State := ⟨0, false, 0, 0, 0, 0, []⟩

theorem mintCalls_inBlock : InBlock 0 mintCalls := ⟨mintCalls.tail, rfl, by simp [mintCalls]⟩

theorem rewardArg_differs_mintCalls : ∃ r,
    mintCalls.foldlM (Rewards.onCall (mintView 420000)) Rewards.start = .ok r ∧
      ¬SameArgument r (mintCalls.foldl (DumpTX.onCall (mintView 420000) [nullHash]) DumpTX.start)
        (mintCalls.foldl (RawDump.onCall (mintView 420000)) RawDump.start) :=
  ⟨_, rfl, (rewardArg_differs (mintView 420000) [nullHash] 0 mintCalls mintCalls mintCalls
    mintCalls_inBlock mintCalls_inBlock mintCalls_inBlock Rewards.start _ DumpTX.start
    RawDump.start rfl).1⟩

/-- In block 209999, of height 210000, rewards prints 50 coins and the other two 25. -/
theorem mintCalls_halving : ∃ r,
    mintCalls.foldlM (Rewards.onCall (mintView 210000)) Rewards.start = .ok r ∧
      (let d := mintCalls.foldl (DumpTX.onCall (mintView 210000) [nullHash]) DumpTX.start
      let w := mintCalls.foldl (RawDump.onCall (mintView 210000)) RawDump.start
      r.summaries.map (·.baseReward) = [5000000000] ∧ d.valueIn = 2500000000 ∧
        w.values = [2500000000] ∧ ¬SameArgument r d w ∧ ¬SameResult r d w) := by
  refine ⟨_, rfl, ?_⟩
  unfold SameArgument SameResult
  decide +kernel

end Blockparser.BaseReward
