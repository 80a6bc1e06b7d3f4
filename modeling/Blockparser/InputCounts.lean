import Blockparser.Runs
import Blockparser.Lib.Largest

/-! The largest number of inputs of a transaction, as simpleStats and txInputs find it: the
inputs of a transaction are compared at the start of the next one. -/
namespace Blockparser.InputCounts
open Bytes Trace MemoryManager Largest Blockparser.Parser Cursor Replay Runs
open Protocol (inputWords outputWords txWords)
open BlockIndex (gNullBlock)

namespace SimpleStats

/-- `nbBlocks` and `nbBlockFiles` are counted before the chain is parsed. -/
structure State where
  volume : BitVec 128
  nbBlocks : BitVec 128
  nbInputs : BitVec 128
  maxInputCountInTx : BitVec 128
  tmpMaxInputCountInTx : BitVec 128
  nbOutputs : BitVec 128
  nbBlockFiles : BitVec 128
  nbValidBlocks : BitVec 128
  nbTransactions : BitVec 128

def start (nbBlocks nbBlockFiles : BitVec 128) : State := ⟨0, nbBlocks, 0, 0, 0, 0, nbBlockFiles, 0, 0⟩

def startTX (s : State) : State :=
  let s := { s with nbTransactions := s.nbTransactions + 1 }
  let s :=
    if s.maxInputCountInTx < s.tmpMaxInputCountInTx then
      { s with maxInputCountInTx := s.tmpMaxInputCountInTx }
    else s
  { s with tmpMaxInputCountInTx := 0 }

def startInput (s : State) : State :=
  { s with nbInputs := s.nbInputs + 1, tmpMaxInputCountInTx := s.tmpMaxInputCountInTx + 1 }

def onCall (s : State) : Call → State
  | .startBlock _ => { s with nbValidBlocks := s.nbValidBlocks + 1 }
  | .startTX _ _ => startTX s
  | .startInput _ => startInput s
  | .startOutput _ => { s with nbOutputs := s.nbOutputs + 1 }
  | .endOutput _ value _ _ _ _ => { s with volume := s.volume + BitVec.ofNat 128 value }
  | _ => s

/-- The whole numbers that wrapup prints; the averages are left out. -/
structure Report where
  nbBlocks : BitVec 128
  nbBlockFiles : BitVec 128
  nbValidBlocks : BitVec 128
  nbOrphaned : BitVec 128
  nbInputs : BitVec 128
  maxInputCountInTx : BitVec 128
  nbOutputs : BitVec 128
  nbTransactions : BitVec 128
  volume : BitVec 128

def wrapup (s : State) : Report :=
  ⟨s.nbBlocks, s.nbBlockFiles, s.nbValidBlocks, s.nbBlocks - s.nbValidBlocks, s.nbInputs,
    s.maxInputCountInTx, s.nbOutputs, s.nbTransactions, s.volume⟩

end SimpleStats

namespace TxInputs

structure InputData where
  nbInputs : BitVec 128
  nbOutputs : BitVec 128
  volume : BitVec 128

/-- `txMap` is keyed by the hashes as they are when they are put; before wrapup nothing looks
one up. `tmpTxHash` is null until an output comes. -/
structure State where
  txMap : Hash256 → Option InputData
  maxInputCountInTx : BitVec 128
  nbOutputs : BitVec 128
  volume : BitVec 128
  tmpTxHash : Option Hash256
  tmpMaxInputCountInTx : BitVec 128
  tmpOutputs : BitVec 128
  tmpVolume : BitVec 128

def init : State := ⟨fun _ => none, 0, 0, 0, none, 0, 0, 0⟩

/-- `none` where a null pointer is put into the table. -/
def record (s : State) : Option State :=
  if s.maxInputCountInTx < s.tmpMaxInputCountInTx then
    s.tmpTxHash.map fun txHash => { s with
      maxInputCountInTx := s.tmpMaxInputCountInTx
      nbOutputs := s.tmpOutputs
      volume := s.tmpVolume
      txMap := Function.update s.txMap txHash
        (some ⟨s.tmpMaxInputCountInTx, s.tmpOutputs, s.tmpVolume⟩) }
  else some s

def startTX (s : State) : Option State :=
  (record s).map fun s => { s with tmpMaxInputCountInTx := 0, tmpOutputs := 0, tmpVolume := 0 }

def startInput (s : State) : State :=
  { s with tmpMaxInputCountInTx := s.tmpMaxInputCountInTx + 1 }

def endOutput (s : State) (value : Nat) (txHash : HashArg) : State :=
  { s with
    tmpVolume := s.tmpVolume + BitVec.ofNat 128 value
    tmpTxHash := some (txHash.value.getD nullHash) }

def onCall (s : State) : Call → Option State
  | .startTX _ _ => startTX s
  | .startInput _ => some (startInput s)
  | .startOutput _ => some { s with tmpOutputs := s.tmpOutputs + 1 }
  | .endOutput _ value txHash _ _ _ => some (endOutput s value txHash)
  | _ => some s

def step (r : Option State) (c : Call) : Option State := r.bind fun s => onCall s c

end TxInputs

section
variable (coin : Coin) (data : BlockRef → Memory)

/-- The numbers a transaction says it has. -/
def nbInputs (x : TxAt) : Nat := (loadVarInt (data x.block) (beforeInputs coin x.start)).1

def nbOutputs (x : TxAt) : Nat := (loadVarInt (data x.block) (txOutputs coin (data x.block) x.start)).1

def volume (x : TxAt) : Nat :=
  let m := data x.block
  valueSum m (nbOutputs coin data x) (loadVarInt m (txOutputs coin m x.start)).2

/-- The last transaction has no more inputs than one before it. -/
def LastIsSmaller (xs : List TxAt) : Prop :=
  ∀ x, xs.getLast? = some x → nbInputs coin data x ≤ largest (nbInputs coin data) xs.dropLast

/-- What txInputs says of the first transaction with the most inputs. -/
def SaysFirst (s : TxInputs.State) (xs : List TxAt) : Prop :=
  ∀ x, IsFirst (nbInputs coin data) xs x →
    s.nbOutputs.toNat = nbOutputs coin data x ∧ s.volume.toNat = volume coin data x

end

variable {coin : Coin} {data : BlockRef → Memory} {need : Bool} {m : Memory} {p : Ptr} {w : List Call}
  {x : TxAt} {xs : List TxAt} {i n : Nat}

theorem loadVarInt_lt (m : Memory) (p : Ptr) : (loadVarInt m p).1 < 2 ^ 64 := by
  have h2 := load_lt m (p + 1) 2
  have h4 := load_lt m (p + 1) 4
  have h8 := load_lt m (p + 1) 8
  have hb := (m p).toNat_lt
  unfold loadVarInt
  dsimp only
  split
  · dsimp only
    omega
  · split
    · dsimp only
      omega
    · split
      · dsimp only
        omega
      · dsimp only
        omega

theorem valueSum_lt (m : Memory) (n : Nat) (p : Ptr) : valueSum m n p ≤ n * 2 ^ 64 := by
  induction n generalizing p with
  | zero => exact Nat.zero_le _
  | succ n ih =>
    have h8 := load_lt m p 8
    have hrest := ih (outputNext m p)
    rw [valueSum, Nat.succ_mul]
    omega

theorem volume_lt (x : TxAt) : volume coin data x < 2 ^ 128 := by
  have hle := valueSum_lt (data x.block) (nbOutputs coin data x)
    (loadVarInt (data x.block) (txOutputs coin (data x.block) x.start)).2
  have hn : nbOutputs coin data x < 2 ^ 64 := loadVarInt_lt ..
  calc
    volume coin data x ≤ nbOutputs coin data x * 2 ^ 64 := hle
    _ < 2 ^ 64 * 2 ^ 64 := Nat.mul_lt_mul_of_pos_right hn (by norm_num)
    _ = 2 ^ 128 := by norm_num

theorem largest_split (f : TxAt → Nat) (xs : List TxAt) :
    largest f xs = max (largest f xs.dropLast) (xs.getLast?.elim 0 f) := by
  induction xs using List.reverseRecOn with
  | nil => rfl
  | append_singleton xs x _ =>
    rw [largest_append, largest_singleton, List.dropLast_concat, List.getLast?_concat]
    rfl

theorem lastIsSmaller_iff : LastIsSmaller coin data xs ↔
    largest (nbInputs coin data) xs.dropLast = largest (nbInputs coin data) xs := by
  unfold LastIsSmaller
  rw [largest_split _ xs]
  cases xs.getLast? with
  | none => simp
  | some x => simp

theorem nbInputs_lt (x : TxAt) : nbInputs coin data x < 2 ^ 64 := loadVarInt_lt ..

theorem toNat_small {n : Nat} (h : n < 2 ^ 128) : (0 + BitVec.ofNat 128 n).toNat = n := by
  have hzero : (0 : BitVec 128) + BitVec.ofNat 128 n = BitVec.ofNat 128 n := BitVec.zero_add _
  rw [hzero, BitVec.toNat_ofNat, Nat.mod_eq_of_lt h]

theorem ofNat_succ (n : Nat) (k : BitVec 128) :
    k + 1 + BitVec.ofNat 128 n = k + BitVec.ofNat 128 (n + 1) := by
  rw [Nat.add_comm n 1, BitVec.ofNat_add]
  exact BitVec.add_assoc ..

namespace SimpleStats

/-- Behind the transactions `xs`: the last one is not compared yet. -/
structure Late (coin : Coin) (data : BlockRef → Memory) (xs : List TxAt) (s : State) : Prop where
  max : s.maxInputCountInTx.toNat = largest (nbInputs coin data) xs.dropLast
  tmp : s.tmpMaxInputCountInTx.toNat = xs.getLast?.elim 0 (nbInputs coin data)

theorem startTX_max (s : State) : (startTX s).maxInputCountInTx.toNat =
    max s.maxInputCountInTx.toNat s.tmpMaxInputCountInTx.toNat := by
  unfold startTX
  dsimp only
  by_cases hlt : s.maxInputCountInTx < s.tmpMaxInputCountInTx
  · rw [if_pos hlt]
    have hnat := BitVec.lt_def.mp hlt
    exact (max_eq_right (Nat.le_of_lt hnat)).symm
  · rw [if_neg hlt]
    have hnat := BitVec.le_def.mp (BitVec.not_lt.mp hlt)
    exact (max_eq_left hnat).symm

/-- Behind its startTX a transaction adds its inputs to the counter. -/
theorem mid_foldl {mid : List Call} (hmid : ∀ c ∈ mid, isStartTX c = false) (s : State) :
    (mid.foldl onCall s).maxInputCountInTx = s.maxInputCountInTx ∧
      (mid.foldl onCall s).tmpMaxInputCountInTx =
        s.tmpMaxInputCountInTx + BitVec.ofNat 128 (mid.countP isStartInput) := by
  induction mid generalizing s with
  | nil => exact ⟨rfl, (BitVec.add_zero _).symm⟩
  | cons c mid ih =>
    have hc := hmid c List.mem_cons_self
    obtain ⟨hmax, htmp⟩ := ih (fun d hd => hmid d (List.mem_cons_of_mem c hd)) (onCall s c)
    rw [List.foldl_cons, hmax, htmp]
    cases c with
    | startTX p h => cases hc
    | startInput p =>
      rw [List.countP_cons_of_pos rfl, ← ofNat_succ]
      exact ⟨rfl, rfl⟩
    | _ =>
      rw [List.countP_cons_of_neg Bool.false_ne_true]
      exact ⟨rfl, rfl⟩

theorem Late.tx (hs : Late coin data xs s) {b : BlockRef}
    (hw : w ∈ txWords coin need (data b) p) :
    Late coin data (xs ++ [⟨b, p⟩]) (w.foldl onCall s) := by
  obtain ⟨h, mid, rfl, hcounts⟩ := txWords_counts hw
  obtain ⟨hmax, htmp⟩ := mid_foldl hcounts.noStart (startTX s)
  have hstart : onCall s (.startTX p h) = startTX s := rfl
  rw [List.foldl_cons, hstart]
  constructor
  · rw [hmax, startTX_max, hs.max, hs.tmp, List.dropLast_concat, ← largest_split]
  · have hzero : (startTX s).tmpMaxInputCountInTx = 0 := rfl
    have hlt := @nbInputs_lt coin data ⟨b, p⟩
    rw [htmp, hcounts.inputs, hzero, List.getLast?_concat]
    exact toNat_small (by unfold nbInputs at hlt; dsimp only at hlt; omega)

theorem start_late (coin : Coin) (data : BlockRef → Memory) (nbBlocks nbBlockFiles : BitVec 128) :
    Late coin data [] (start nbBlocks nbBlockFiles) := ⟨rfl, rfl⟩

theorem Late.other (hs : Late coin data xs s) {c : Call} (hc : isStartTX c = false)
    (hc' : isStartInput c = false) : Late coin data xs (onCall s c) := by
  cases c with
  | startTX p h => cases hc
  | startInput p => cases hc'
  | _ => exact ⟨hs.max, hs.tmp⟩

theorem run_late {cur : Option BlockRef} (h : Told coin need data cur w xs)
    (nbBlocks nbBlockFiles : BitVec 128) :
    Late coin data xs (w.foldl onCall (start nbBlocks nbBlockFiles)) := by
  have hbetween : ∀ c ys s, isBetween c = true → Late coin data ys s →
      Late coin data ys (onCall s c) := by
    intro c ys s hc hs
    apply hs.other
    · cases c <;> first | rfl | cases hc
    · cases c <;> first | rfl | cases hc
  exact Told.keeps (fun _ _ _ hs => hs.other rfl rfl) hbetween (fun _ _ _ _ _ hw hs => hs.tx hw) h
    (start_late coin data nbBlocks nbBlockFiles)

end SimpleStats

namespace TxInputs

/-- Behind the transactions `xs`: what is recorded is of those before the last one. -/
structure Late (coin : Coin) (data : BlockRef → Memory) (xs : List TxAt) (s : State) : Prop where
  max : s.maxInputCountInTx.toNat = largest (nbInputs coin data) xs.dropLast
  nbOutputs : s.nbOutputs.toNat =
    (best (nbInputs coin data) xs.dropLast).elim 0 (InputCounts.nbOutputs coin data)
  volume : s.volume.toNat =
    (best (nbInputs coin data) xs.dropLast).elim 0 (InputCounts.volume coin data)
  tmp : s.tmpMaxInputCountInTx.toNat = xs.getLast?.elim 0 (nbInputs coin data)
  tmpOutputs : s.tmpOutputs.toNat = xs.getLast?.elim 0 (InputCounts.nbOutputs coin data)
  tmpVolume : s.tmpVolume.toNat = xs.getLast?.elim 0 (InputCounts.volume coin data)

/-- What startTX records is of all the transactions so far. -/
theorem record_late {s' : State} (hs : Late coin data xs s) (h : record s = some s') :
    s'.maxInputCountInTx.toNat = largest (nbInputs coin data) xs ∧
      s'.nbOutputs.toNat =
        (best (nbInputs coin data) xs).elim 0 (InputCounts.nbOutputs coin data) ∧
      s'.volume.toNat = (best (nbInputs coin data) xs).elim 0 (InputCounts.volume coin data) := by
  have hbest : best (nbInputs coin data) xs =
      if s.maxInputCountInTx < s.tmpMaxInputCountInTx then xs.getLast?
      else best (nbInputs coin data) xs.dropLast := by
    have hlt := @BitVec.lt_def 128 s.maxInputCountInTx s.tmpMaxInputCountInTx
    rw [hs.max, hs.tmp] at hlt
    simp only [hlt]
    cases xs using List.reverseRecOn with
    | nil => rfl
    | append_singleton xs x _ =>
      rw [best_snoc, better, (best_spec xs).1, List.dropLast_concat, List.getLast?_concat]
      rfl
  rw [hbest, largest_split]
  unfold record at h
  by_cases hlt : s.maxInputCountInTx < s.tmpMaxInputCountInTx
  · rw [if_pos hlt] at h ⊢
    obtain ⟨txHash, -, rfl⟩ := Option.map_eq_some_iff.mp h
    have hnat := BitVec.lt_def.mp hlt
    rw [hs.max, hs.tmp] at hnat
    refine ⟨?_, hs.tmpOutputs, hs.tmpVolume⟩
    rw [max_eq_right (Nat.le_of_lt hnat)]
    exact hs.tmp
  · rw [if_neg hlt] at h ⊢
    cases h
    have hnat := BitVec.le_def.mp (BitVec.not_lt.mp hlt)
    rw [hs.max, hs.tmp] at hnat
    rw [max_eq_left hnat]
    exact ⟨hs.max, hs.nbOutputs, hs.volume⟩

theorem mid_foldl {mid : List Call} (hmid : ∀ c ∈ mid, isStartTX c = false) (s : State) :
    ∃ s', mid.foldl step (some s) = some s' ∧ s'.maxInputCountInTx = s.maxInputCountInTx ∧
      s'.nbOutputs = s.nbOutputs ∧ s'.volume = s.volume ∧
      s'.tmpMaxInputCountInTx =
        s.tmpMaxInputCountInTx + BitVec.ofNat 128 (mid.countP isStartInput) ∧
      s'.tmpOutputs = s.tmpOutputs + BitVec.ofNat 128 (mid.countP isStartOutput) ∧
      s'.tmpVolume = s.tmpVolume + BitVec.ofNat 128 (mid.filterMap endValue).sum := by
  induction mid generalizing s with
  | nil =>
    exact ⟨s, rfl, rfl, rfl, rfl, (BitVec.add_zero _).symm, (BitVec.add_zero _).symm,
      (BitVec.add_zero _).symm⟩
  | cons c mid ih =>
    have hc := hmid c List.mem_cons_self
    have hrest := ih fun d hd => hmid d (List.mem_cons_of_mem c hd)
    cases c with
    | startTX p h => cases hc
    | startInput p =>
      obtain ⟨s', hrun, hmax, hout, hvol, htmp, htmpOut, htmpVol⟩ := hrest (startInput s)
      refine ⟨s', hrun, hmax, hout, hvol, ?_, htmpOut, htmpVol⟩
      rw [htmp, List.countP_cons_of_pos rfl, ← ofNat_succ]
      rfl
    | startOutput p =>
      obtain ⟨s', hrun, hmax, hout, hvol, htmp, htmpOut, htmpVol⟩ :=
        hrest { s with tmpOutputs := s.tmpOutputs + 1 }
      refine ⟨s', hrun, hmax, hout, hvol, htmp, ?_, htmpVol⟩
      rw [htmpOut, List.countP_cons_of_pos rfl, ← ofNat_succ]
    | endOutput p value txHash index script size =>
      obtain ⟨s', hrun, hmax, hout, hvol, htmp, htmpOut, htmpVol⟩ :=
        hrest (endOutput s value txHash)
      refine ⟨s', hrun, hmax, hout, hvol, htmp, htmpOut, ?_⟩
      rw [htmpVol, List.filterMap_cons_some (f := endValue) rfl, List.sum_cons, BitVec.ofNat_add]
      exact BitVec.add_assoc ..
    | _ => exact hrest s

theorem foldl_none (w : List Call) : w.foldl step none = none := List.foldl_fixed' (fun _ => rfl) w

theorem Late.tx (hs : Late coin data xs s) {s' : State} {b : BlockRef}
    (hw : w ∈ txWords coin need (data b) p) (h : w.foldl step (some s) = some s') :
    Late coin data (xs ++ [⟨b, p⟩]) s' := by
  obtain ⟨harg, mid, rfl, hcounts⟩ := txWords_counts hw
  have hstart : step (some s) (.startTX p harg) = startTX s := rfl
  rw [List.foldl_cons, hstart] at h
  unfold startTX at h
  cases hrec : record s with
  | none =>
    rw [hrec, Option.map_none, foldl_none] at h
    cases h
  | some r =>
    obtain ⟨hmax, hout, hvol⟩ := record_late hs hrec
    obtain ⟨s₁, hrun, hmax', hout', hvol', htmp, htmpOut, htmpVol⟩ := mid_foldl hcounts.noStart
      { r with tmpMaxInputCountInTx := 0, tmpOutputs := 0, tmpVolume := 0 }
    rw [hrec, Option.map_some, hrun, Option.some_inj] at h
    subst h
    have hlt : (mid.countP isStartInput) < 2 ^ 64 := by
      rw [hcounts.inputs]
      exact loadVarInt_lt ..
    have hlt' : (mid.countP isStartOutput) < 2 ^ 64 := by
      rw [hcounts.outputs]
      exact loadVarInt_lt ..
    have hvolume : (mid.filterMap endValue).sum = InputCounts.volume coin data ⟨b, p⟩ :=
      hcounts.values
    constructor
    · rw [hmax', List.dropLast_concat]
      exact hmax
    · rw [hout', List.dropLast_concat]
      exact hout
    · rw [hvol', List.dropLast_concat]
      exact hvol
    · rw [htmp, toNat_small (by omega), List.getLast?_concat]
      exact hcounts.inputs
    · rw [htmpOut, toNat_small (by omega), List.getLast?_concat]
      exact hcounts.outputs
    · rw [htmpVol, hvolume, toNat_small (volume_lt _), List.getLast?_concat]
      rfl

theorem Late.other (hs : Late coin data xs s) {s' : State} {c : Call} (hc : isBetween c = true)
    (h : onCall s c = some s') : Late coin data xs s' := by
  cases c <;> first | (cases h; exact hs) | cases hc

theorem run_late {cur : Option BlockRef} (h : Told coin need data cur w xs) {s : State}
    (hrun : w.foldl step (some init) = some s) : Late coin data xs s := by
  have hinit : ∀ s, some init = some s → Late coin data [] s := by
    intro s hs
    rw [← Option.some.inj hs]
    exact ⟨rfl, rfl, rfl, rfl, rfl, rfl⟩
  have hblock : ∀ (b : BlockRef) ys r, (∀ s, r = some s → Late coin data ys s) →
      ∀ s, step r (.startBlock b) = some s → Late coin data ys s := by
    intro b ys r hr s hs
    obtain ⟨s₀, rfl, hcall⟩ := Option.bind_eq_some_iff.mp hs
    cases hcall
    exact hr _ rfl
  have hbetween : ∀ c ys r, isBetween c = true → (∀ s, r = some s → Late coin data ys s) →
      ∀ s, step r c = some s → Late coin data ys s := by
    intro c ys r hc hr s hs
    obtain ⟨s₀, rfl, hcall⟩ := Option.bind_eq_some_iff.mp hs
    exact (hr s₀ rfl).other hc hcall
  have htx : ∀ (b : BlockRef) p w ys r, w ∈ txWords coin need (data b) p →
      (∀ s, r = some s → Late coin data ys s) →
      ∀ s, w.foldl step r = some s → Late coin data (ys ++ [⟨b, p⟩]) s := by
    intro b p w ys r hw hr s hs
    cases r with
    | none =>
      rw [foldl_none] at hs
      cases hs
    | some s₀ => exact (hr s₀ rfl).tx hw hs
  exact Told.keeps (P := fun ys r => ∀ s, r = some s → Late coin data ys s) hblock hbetween htx h
    hinit s hrun

end TxInputs

/-- The output count and the volume are those of the first transaction with the most inputs,
when the last one is not the only one with so many, and the first one has no outputs if that
many is none. -/
theorem saysFirst_iff {s : TxInputs.State} (hs : TxInputs.Late coin data xs s) :
    (s.maxInputCountInTx.toNat = largest (nbInputs coin data) xs ∧ SaysFirst coin data s xs) ↔
      LastIsSmaller coin data xs ∧ (largest (nbInputs coin data) xs = 0 →
        ∀ x, xs.head? = some x → nbOutputs coin data x = 0) := by
  rw [hs.max, ← lastIsSmaller_iff]
  apply and_congr_right
  intro hlast
  obtain ⟨hvalue, hfirst⟩ := best_spec (f := nbInputs coin data) xs.dropLast
  have hout := hs.nbOutputs
  have hvol := hs.volume
  cases hbest : best (nbInputs coin data) xs.dropLast with
  | none =>
    rw [hbest] at hvalue hout hvol
    have hzero : largest (nbInputs coin data) xs = 0 :=
      (lastIsSmaller_iff.mp hlast).symm.trans hvalue.symm
    cases xs with
    | nil =>
      refine iff_of_true ?_ fun _ x hx => nomatch hx
      intro x hx
      obtain ⟨pre, post, hsplit, -⟩ := hx
      simp at hsplit
    | cons x xs =>
      have hx := isFirst_head hzero
      constructor
      · intro htold _ y hy
        rw [← Option.some.inj hy, ← (htold x hx).1]
        exact hout
      · intro hnone y hy
        have hnil := hnone hzero x rfl
        rw [hy.unique hx, hnil, volume, hnil]
        exact ⟨hout, hvol⟩
  | some y =>
    rw [hbest] at hvalue hout hvol
    obtain ⟨hy, hpos⟩ := hfirst y hbest
    have hyxs : IsFirst (nbInputs coin data) xs y := by
      cases hne : xs.getLast? with
      | none =>
        rw [List.getLast?_eq_none_iff.mp hne] at hy ⊢
        exact hy
      | some x =>
        have hsnoc := hy.snoc (hlast x hne)
        rwa [List.dropLast_append_getLast? x hne] at hsnoc
    refine iff_of_true ?_ ?_
    · intro x hx
      rw [hx.unique hyxs]
      exact ⟨hout, hvol⟩
    · intro hzero
      have hmax := hyxs.value
      omega

theorem parsedTXs_wrapup (b : BlockRef) (w : List Call) :
    parsedTXs b (w ++ [.wrapup]) = parsedTXs b w := by
  induction w generalizing b with
  | nil => rfl
  | cons c w ih => cases c <;> simp [parsedTXs, ih]

/-- At the end of any run simpleStats has the largest number of inputs of a transaction if and
only if the last transaction has no more than one before it. So has txInputs, and what it
says of the first such transaction is right if there is an input or the first transaction
has no outputs. -/
theorem maxInputCount_iff (env : Env) (data : BlockRef → Memory) (fuel : Nat) (h : Heights.State)
    (x x' : Blockparser.Parser.State) (hcalls : x.calls = [])
    (hrun : LongestChain.parseLongestChain env data fuel h x = .ok true x')
    (nbBlocks nbBlockFiles : BitVec 128) :
    let xs := parsedTXs gNullBlock x'.calls
    ((SimpleStats.wrapup (x'.calls.foldl SimpleStats.onCall
          (SimpleStats.start nbBlocks nbBlockFiles))).maxInputCountInTx.toNat =
        largest (nbInputs env.coin data) xs ↔ LastIsSmaller env.coin data xs) ∧
      ∀ s, x'.calls.foldl TxInputs.step (some TxInputs.init) = some s →
        (s.maxInputCountInTx.toNat = largest (nbInputs env.coin data) xs ∧
            SaysFirst env.coin data s xs ↔
          LastIsSmaller env.coin data xs ∧ (largest (nbInputs env.coin data) xs = 0 →
            ∀ x, xs.head? = some x → nbOutputs env.coin data x = 0)) := by
  intro xs
  obtain ⟨w, hw, htold⟩ := parseLongestChain_told hrun
  rw [hcalls, List.nil_append] at hw
  have hxs : xs = parsedTXs gNullBlock w := by
    show parsedTXs gNullBlock x'.calls = _
    rw [hw, parsedTXs_wrapup]
  rw [hxs, hw]
  constructor
  · have hlate := SimpleStats.run_late htold nbBlocks nbBlockFiles
    rw [lastIsSmaller_iff, ← hlate.max, List.foldl_append]
    rfl
  · intro s hs
    rw [List.foldl_append] at hs
    obtain ⟨s₀, hs₀, hcall⟩ := Option.bind_eq_some_iff.mp hs
    cases hcall
    exact saysFirst_iff (TxInputs.run_late htold hs₀)

/-- Between two generation transactions one that spends: its one input is the most. -/
theorem maxInputCount_iff_laterTx : ∃ x' s, runOf [Transaction.mintTx, Chain.spendTx, Chain.laterTx] =
      .ok true x' ∧ x'.calls.foldl TxInputs.step (some TxInputs.init) = some s ∧
    let data := fun _ : BlockRef => blockMemory .bitcoin
      [Transaction.mintTx, Chain.spendTx, Chain.laterTx]
    let xs := parsedTXs gNullBlock x'.calls
    largest (nbInputs .bitcoin data) xs = 1 ∧
      (SimpleStats.wrapup (x'.calls.foldl SimpleStats.onCall
        (SimpleStats.start 1 1))).maxInputCountInTx.toNat = largest (nbInputs .bitcoin data) xs ∧
      s.maxInputCountInTx.toNat = largest (nbInputs .bitcoin data) xs ∧
        SaysFirst .bitcoin data s xs := by
  have hall : (ended (runOf [Transaction.mintTx, Chain.spendTx, Chain.laterTx])).map (fun x =>
      (parsedTXs gNullBlock x.calls,
        (x.calls.foldl TxInputs.step (some TxInputs.init)).isSome)) =
      some ([⟨1, 81⟩, ⟨1, 101⟩, ⟨1, 162⟩], true) := by
    decide +kernel
  obtain ⟨x', hx, hvalues⟩ := Option.map_eq_some_iff.mp hall
  simp only [Prod.mk.injEq] at hvalues
  obtain ⟨hxs, hsome⟩ := hvalues
  obtain ⟨s, hs⟩ := Option.isSome_iff_exists.mp hsome
  have hrun := ended_eq hx
  obtain ⟨hstats, hinputs⟩ := maxInputCount_iff _ _ _ _ .start x' rfl hrun 1 1
  rw [hxs] at hstats hinputs
  have hlargest : largest (nbInputs .bitcoin fun _ => blockMemory .bitcoin
      [Transaction.mintTx, Chain.spendTx, Chain.laterTx]) [⟨1, 81⟩, ⟨1, 101⟩, ⟨1, 162⟩] = 1 := by
    decide +kernel
  have hlast : LastIsSmaller .bitcoin (fun _ => blockMemory .bitcoin
      [Transaction.mintTx, Chain.spendTx, Chain.laterTx]) [⟨1, 81⟩, ⟨1, 101⟩, ⟨1, 162⟩] := by
    intro y hy
    cases hy
    decide +kernel
  obtain ⟨hmax, hfirst⟩ := (hinputs s hs).mpr
    ⟨hlast, fun hzero => absurd (hlargest.symm.trans hzero) Nat.one_ne_zero⟩
  refine ⟨x', s, hrun, hs, ?_⟩
  intro data xs
  have heq : xs = [⟨1, 81⟩, ⟨1, 101⟩, ⟨1, 162⟩] := hxs
  rw [heq]
  exact ⟨hlargest, hstats.mpr hlast, hmax, hfirst⟩

/-- The input of the last transaction is not counted. -/
theorem maxInputCount_misses : ∃ x', runOf [Transaction.mintTx, Chain.spendTx] = .ok true x' ∧
    largest (nbInputs .bitcoin fun _ => blockMemory .bitcoin [Transaction.mintTx, Chain.spendTx])
      (parsedTXs gNullBlock x'.calls) = 1 ∧
    (SimpleStats.wrapup (x'.calls.foldl SimpleStats.onCall
      (SimpleStats.start 1 1))).maxInputCountInTx = 0 ∧
    (x'.calls.foldl TxInputs.step (some TxInputs.init)).map (·.maxInputCountInTx) = some 0 := by
  have hall : (ended (runOf [Transaction.mintTx, Chain.spendTx])).map (fun x =>
      (largest (nbInputs .bitcoin fun _ =>
          blockMemory .bitcoin [Transaction.mintTx, Chain.spendTx]) (parsedTXs gNullBlock x.calls),
        (SimpleStats.wrapup (x.calls.foldl SimpleStats.onCall
          (SimpleStats.start 1 1))).maxInputCountInTx,
        (x.calls.foldl TxInputs.step (some TxInputs.init)).map (·.maxInputCountInTx))) =
      some (1, 0, some 0) := by
    decide +kernel
  obtain ⟨x', hx, hvalues⟩ := Option.map_eq_some_iff.mp hall
  simp only [Prod.mk.injEq] at hvalues
  exact ⟨x', ended_eq hx, hvalues⟩

end Blockparser.InputCounts
