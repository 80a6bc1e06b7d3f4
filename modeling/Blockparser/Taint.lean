import Blockparser.Replay

/-! The taint command: which part of what flows through a transaction comes from the
source transactions, read over exact rationals. -/
namespace Blockparser.Taint
open Bytes MemoryManager Segments Blockparser.Parser Format Utxo Decode Upstream Transaction Chain
  Replay

/-- What startBlock reads of a block. -/
structure View where
  height : BlockRef → BitVec 64
  blkTime : BlockRef → BitVec 32

/-- A printed line. -/
structure Line where
  absTaint : ℚ
  taint : ℚ
  txHash : HashArg
  block : BitVec 64
  blockTime : BitVec 64
  txTotal : BitVec 128

/-- The maps are keyed by what is behind the pointers. -/
structure State where
  txBad : ℚ
  bTime : BitVec 64
  srcTxMap : List Hash256
  threshold : ℚ
  txTotal : BitVec 128
  taintMap : Hash256 → Option ℚ
  currBlock : BitVec 64
  txHash : HashArg
  lines : List Line

/-- The map after init: the source transactions are all bad. -/
def sources (rootHashes : List Hash256) : Hash256 → Option ℚ :=
  fun h => if h ∈ rootHashes then some 1 else none

def init (rootHashes : List Hash256) : State where
  txBad := 0
  bTime := 0
  srcTxMap := rootHashes
  threshold := 1 / 10 ^ 20
  txTotal := 0
  taintMap := sources rootHashes
  currBlock := 0
  txHash := ⟨none, none⟩
  lines := []

variable (view : View)

def startBlock (s : State) (b : BlockRef) : State :=
  { s with currBlock := view.height b, bTime := (view.blkTime b).setWidth 64 }

def startTX (s : State) (hash : HashArg) : State := { s with txHash := hash, txTotal := 0, txBad := 0 }

/- needUpstream holds, so the hash is never null. -/
def State.isSrcTX (s : State) : Bool := s.txHash.value.any (· ∈ s.srcTxMap)

/-- A transaction other than a source, with something bad in it. -/
def State.mixes (s : State) : Bool := !s.isSrcTX && decide (0 < s.txTotal) && decide (0 < s.txBad)

def State.taint (s : State) : ℚ :=
  if s.isSrcTX then 1 else if s.mixes then s.txBad / s.txTotal.toNat else 0

def State.store (s : State) : State :=
  if s.mixes then
    { s with taintMap := s.txHash.value.elim s.taintMap fun h =>
        Function.update s.taintMap h (some s.taint) }
  else s

def State.print (s : State) (taint : ℚ) : State :=
  if s.threshold < taint then
    { s with lines := s.lines ++ [⟨s.txTotal.toNat * taint, taint, s.txHash, s.currBlock - 1, s.bTime,
        s.txTotal⟩] }
  else s

def endTX (s : State) : State := s.store.print s.taint

def edge (s : State) (value : Nat) (upTXHash : Option Hash256) : State :=
  let s := match upTXHash.bind s.taintMap with
    | some taint => { s with txBad := s.txBad + value * taint }
    | none => s
  { s with txTotal := s.txTotal + BitVec.ofNat 128 value }

def onCall (s : State) : Call → State
  | .startBlock b => startBlock view s b
  | .startTX _ hash => startTX s hash
  | .endTX _ => endTX s
  | .edge value upTXHash _ _ _ _ _ _ _ => edge s value upTXHash.value
  | _ => s

/-- The value of the output an input names among the transactions `all`; a generation
input names none. -/
def valueOf (env : Env) (all : List Tx) (x : TxInput) : Nat :=
  if x.prevHash = nullHash then 0
  else ((all.find? fun u => txid env u = x.prevHash).bind
    fun u => u.outputs[x.prevIndex.toNat]?).elim 0 fun o => o.value.toNat

/-- Sum(i, Vi) and Sum(i, Vi * Ti). -/
def total (env : Env) (all : List Tx) (t : Tx) : Nat := (t.inputs.map (valueOf env all)).sum

def bad (env : Env) (all : List Tx) (T : Hash256 → Option ℚ) (t : Tx) : ℚ :=
  (t.inputs.map fun x => (valueOf env all x : ℚ) * (T x.prevHash).getD 0).sum

/-- The taints once one more transaction is mixed. -/
def mix (env : Env) (all : List Tx) (src : List Hash256) (T : Hash256 → Option ℚ) (t : Tx) :
    Hash256 → Option ℚ :=
  if txid env t ∉ src ∧ 0 < bad env all T t then
    Function.update T (txid env t) (some (bad env all T t / total env all t))
  else T

def taints (env : Env) (all : List Tx) (src : List Hash256) (ts : List Tx) : Hash256 → Option ℚ :=
  ts.foldl (mix env all src) (sources src)

/-- A chain of inputs with positive values leads to a source transaction. -/
inductive Tainted (env : Env) (all : List Tx) (src : List Hash256) : Tx → Prop
  | source {t : Tx} (hsrc : txid env t ∈ src) : Tainted env all src t
  | input {t u : Tx} {x : TxInput} (hx : x ∈ t.inputs) (hpos : 0 < valueOf env all x)
      (hu : u ∈ all) (hid : txid env u = x.prevHash) (ht : Tainted env all src u) :
      Tainted env all src t

variable {env : Env} {all pre post : List Tx} {src : List Hash256} {T T' : Hash256 → Option ℚ}
  {t u : Tx} {x : TxInput} {s : State} {xs : List (BlockRef × Tx)}

@[simp] theorem valueOf_null (hn : x.prevHash = nullHash) : valueOf env all x = 0 := if_pos hn

theorem valueOf_lt (env : Env) (all : List Tx) (x : TxInput) : valueOf env all x < 2 ^ 64 := by
  unfold valueOf
  split
  · norm_num
  · cases (all.find? fun u => txid env u = x.prevHash).bind
        fun u => u.outputs[x.prevIndex.toNat]? with
    | none => norm_num
    | some o => exact o.value.toNat_lt

theorem total_lt (env : Env) (all : List Tx) (t : Tx) : total env all t < 2 ^ 128 := by
  have hle : total env all t ≤ (t.inputs.map (valueOf env all)).length • (2 ^ 64 - 1) := by
    refine List.sum_le_card_nsmul _ _ ?_
    intro v hv
    obtain ⟨x, -, rfl⟩ := List.mem_map.mp hv
    have := valueOf_lt env all x
    omega
  rw [List.length_map, smul_eq_mul] at hle
  have hlen := t.inputs_lt
  calc
    total env all t ≤ t.inputs.length * (2 ^ 64 - 1) := hle
    _ ≤ 2 ^ 64 * (2 ^ 64 - 1) := Nat.mul_le_mul_right _ (Nat.le_of_lt hlen)
    _ < 2 ^ 128 := by norm_num

/-- Only the taints of the named transactions matter. -/
theorem bad_congr (h : ∀ x ∈ t.inputs, x.prevHash ≠ nullHash → T' x.prevHash = T x.prevHash) :
    bad env all T' t = bad env all T t := by
  unfold bad
  congr 1
  refine List.map_congr_left ?_
  intro x hx
  by_cases hn : x.prevHash = nullHash
  · simp [hn]
  · rw [h x hx hn]

/-- What is known of the taints of the transactions so far. -/
structure Mixed (env : Env) (all : List Tx) (src : List Hash256) (pre : List Tx)
    (T : Hash256 → Option ℚ) : Prop where
  source : ∀ h ∈ src, T h = some 1
  absent : ∀ h, h ∉ src → (∀ u ∈ pre, txid env u ≠ h) → T h = none
  value : ∀ u ∈ pre, txid env u ∉ src → T (txid env u) =
    if 0 < bad env all T u then some (bad env all T u / total env all u) else none
  bound : ∀ h τ, T h = some τ → 0 < τ ∧ τ ≤ 1
  tainted : ∀ u ∈ pre, T (txid env u) ≠ none ↔ Tainted env all src u

theorem Mixed.getD_bound (hm : Mixed env all src pre T) (h : Hash256) :
    0 ≤ (T h).getD 0 ∧ (T h).getD 0 ≤ 1 := by
  cases hT : T h with
  | none => simp
  | some τ =>
    obtain ⟨h0, h1⟩ := hm.bound h τ hT
    exact ⟨h0.le, h1⟩

theorem Mixed.bad_le (hm : Mixed env all src pre T) (t : Tx) :
    bad env all T t ≤ total env all t := by
  unfold bad total
  rw [Nat.cast_list_sum, List.map_map]
  refine List.sum_le_sum ?_
  intro x _
  have hv : (0 : ℚ) ≤ valueOf env all x := Nat.cast_nonneg _
  exact mul_le_of_le_one_right hv (hm.getD_bound _).2

/-- Something bad flows in exactly when an input of positive value is tainted. -/
theorem Mixed.bad_pos (hm : Mixed env all src pre T) (t : Tx) :
    0 < bad env all T t ↔ ∃ x ∈ t.inputs, 0 < valueOf env all x ∧ T x.prevHash ≠ none := by
  have hnn : ∀ x, (0 : ℚ) ≤ (valueOf env all x : ℚ) * (T x.prevHash).getD 0 := fun x =>
    mul_nonneg (Nat.cast_nonneg _) (hm.getD_bound _).1
  have hterm : ∀ x, 0 < (valueOf env all x : ℚ) * (T x.prevHash).getD 0 ↔
      0 < valueOf env all x ∧ T x.prevHash ≠ none := by
    intro x
    cases hT : T x.prevHash with
    | none => simp
    | some τ => simp [(hm.bound _ τ hT).1]
  unfold bad
  constructor
  · intro hpos
    by_contra hno
    push Not at hno
    have hzero : ∀ q ∈ t.inputs.map fun x => (valueOf env all x : ℚ) * (T x.prevHash).getD 0,
        q = 0 := by
      intro q hq
      obtain ⟨x, hx, rfl⟩ := List.mem_map.mp hq
      refine le_antisymm (not_lt.mp fun h => ?_) (hnn x)
      exact ((hterm x).mp h).2 (hno x hx ((hterm x).mp h).1)
    rw [List.sum_eq_zero hzero] at hpos
    exact lt_irrefl _ hpos
  · rintro ⟨x, hx, hv⟩
    refine lt_of_lt_of_le ((hterm x).mpr hv) (List.single_le_sum ?_ _ (List.mem_map_of_mem hx))
    intro q hq
    obtain ⟨y, -, rfl⟩ := List.mem_map.mp hq
    exact hnn y

theorem Mixed.total_pos (hm : Mixed env all src pre T) (hb : 0 < bad env all T t) :
    0 < total env all t := by
  have := lt_of_lt_of_le hb (hm.bad_le t)
  exact_mod_cast this

theorem mixed_sources : Mixed env all src [] (sources src) where
  source h hh := if_pos hh
  absent h hh _ := if_neg hh
  value u hu := nomatch hu
  bound := by
    intro h τ hτ
    unfold sources at hτ
    split at hτ
    · cases hτ
      norm_num
    · cases hτ
  tainted u hu := nomatch hu

/-- Mixing leaves the entries of other transactions alone. -/
theorem mix_of_ne {h : Hash256} (hh : h ≠ txid env t) : mix env all src T t h = T h := by
  unfold mix
  split
  · exact Function.update_of_ne hh _ _
  · rfl

theorem Mixed.mix_self (hm : Mixed env all src pre T) (hv : ValidChain env (pre ++ t :: post))
    (hsrc : txid env t ∉ src) : mix env all src T t (txid env t) =
      if 0 < bad env all T t then some (bad env all T t / total env all t) else none := by
  unfold mix
  by_cases hb : 0 < bad env all T t
  · rw [if_pos ⟨hsrc, hb⟩, if_pos hb, Function.update_self]
  · rw [if_neg (fun h => hb h.2), if_neg hb]
    exact hm.absent _ hsrc fun u hu => txid_ne hv hu

theorem mix_source (hsrc : txid env t ∈ src) : mix env all src T t = T := if_neg fun h => h.1 hsrc

/-- The named transactions of `u` are there before `t`, so that its sums stay. -/
theorem bad_mix (hv : ValidChain env (pre ++ t :: post)) (hu : u ∈ pre ++ [t]) :
    bad env all (mix env all src T t) u = bad env all T u := by
  refine bad_congr ?_
  intro x hx hn
  refine mix_of_ne ?_
  have hin : ∃ w ∈ pre, txid env w = x.prevHash := by
    cases List.mem_append.mp hu with
    | inl hu =>
      obtain ⟨a, b, rfl⟩ := List.append_of_mem hu
      have hv' : ValidChain env (a ++ u :: (b ++ t :: post)) := by simpa using hv
      obtain ⟨w, hw, hid, -⟩ := named hv' hx hn
      exact ⟨w, List.mem_append_left _ hw, hid⟩
    | inr hu =>
      rw [List.mem_singleton] at hu
      subst hu
      obtain ⟨w, hw, hid, -⟩ := named hv hx hn
      exact ⟨w, hw, hid⟩
  obtain ⟨w, hw, hid⟩ := hin
  rw [← hid]
  exact txid_ne hv hw

/-- One more transaction of a valid chain. -/
theorem Mixed.step (hv : ValidChain env all) (hall : all = pre ++ t :: post)
    (hm : Mixed env all src pre T) : Mixed env all src (pre ++ [t]) (mix env all src T t) := by
  have hv' : ValidChain env (pre ++ t :: post) := hall ▸ hv
  have hself : txid env t ∉ src → mix env all src T t (txid env t) =
      if 0 < bad env all T t then some (bad env all T t / total env all t) else none :=
    hm.mix_self hv'
  refine ⟨?_, ?_, ?_, ?_, ?_⟩
  · intro h hh
    by_cases hsrc : txid env t ∈ src
    · rw [mix_source hsrc]
      exact hm.source h hh
    · rw [mix_of_ne fun he => hsrc (he ▸ hh)]
      exact hm.source h hh
  · intro h hh hne
    rw [mix_of_ne (hne t (by simp)).symm]
    exact hm.absent h hh fun u hu => hne u (by simp [hu])
  · intro u hu hsrc
    rw [bad_mix hv' hu]
    cases List.mem_append.mp hu with
    | inl hup =>
      rw [mix_of_ne (txid_ne hv' hup)]
      exact hm.value u hup hsrc
    | inr hut =>
      rw [List.mem_singleton.mp hut] at hsrc ⊢
      exact hself hsrc
  · intro h τ hτ
    by_cases hh : h = txid env t
    · subst hh
      by_cases hsrc : txid env t ∈ src
      · rw [mix_source hsrc] at hτ
        exact hm.bound _ τ hτ
      · rw [hself hsrc] at hτ
        split at hτ
        · rename_i hb
          cases hτ
          have ht : (0 : ℚ) < total env all t := by exact_mod_cast hm.total_pos hb
          exact ⟨div_pos hb ht, (div_le_one ht).mpr (hm.bad_le t)⟩
        · cases hτ
    · rw [mix_of_ne hh] at hτ
      exact hm.bound h τ hτ
  · intro u hu
    cases List.mem_append.mp hu with
    | inl hup =>
      rw [mix_of_ne (txid_ne hv' hup)]
      exact hm.tainted u hup
    | inr hut =>
      rw [List.mem_singleton] at hut
      subst hut
      by_cases hsrc : txid env u ∈ src
      · rw [mix_source hsrc, hm.source _ hsrc]
        exact ⟨fun _ => Tainted.source hsrc, fun _ => by simp⟩
      · rw [hself hsrc, ite_ne_right_iff, hm.bad_pos u]
        constructor
        · rintro ⟨⟨x, hx, hpos, hT⟩, -⟩
          have hn : x.prevHash ≠ nullHash := by
            intro hn
            rw [valueOf_null hn] at hpos
            exact lt_irrefl 0 hpos
          obtain ⟨w, hw, hid, -⟩ := named hv' hx hn
          rw [← hid] at hT
          exact Tainted.input hx hpos (by simp [hall, hw]) hid ((hm.tainted w hw).mp hT)
        · intro ht
          cases ht with
          | source h => exact absurd h hsrc
          | @input _ w x hx hpos hw hid ht =>
            have hn : x.prevHash ≠ nullHash := by
              intro hn
              rw [valueOf_null hn] at hpos
              exact lt_irrefl 0 hpos
            obtain ⟨w', hw', hid', -⟩ := named hv' hx hn
            have hwp := mem_of_txid hv hall hw hw' (hid'.trans hid.symm)
            refine ⟨⟨x, hx, hpos, ?_⟩, by simp⟩
            rw [← hid]
            exact (hm.tainted w hwp).mpr ht

theorem taints_mixed (hv : ValidChain env all) (hall : all = pre ++ post) :
    Mixed env all src pre (taints env all src pre) := by
  induction pre using List.reverseRecOn generalizing post with
  | nil => exact mixed_sources
  | append_singleton pre t ih =>
    have hall' : all = pre ++ t :: post := by simpa using hall
    rw [taints, List.foldl_append]
    exact (ih hall').step hv hall'

/-- What the edges of a transaction add up to. -/
theorem edges_sum (es : List EdgeData) (s : State) :
    es.foldl (fun s e => edge s e.value e.upTXHash) s = { s with
      txBad := s.txBad + (es.map fun e => (e.value : ℚ) * (e.upTXHash.bind s.taintMap).getD 0).sum
      txTotal := s.txTotal + BitVec.ofNat 128 (es.map EdgeData.value).sum } := by
  induction es generalizing s with
  | nil => simp
  | cons e es ih =>
    have hedge : edge s e.value e.upTXHash = { s with
        txBad := s.txBad + (e.value : ℚ) * (e.upTXHash.bind s.taintMap).getD 0
        txTotal := s.txTotal + BitVec.ofNat 128 e.value } := by
      unfold edge
      cases e.upTXHash.bind s.taintMap with
      | none => simp
      | some τ => rfl
    rw [List.foldl_cons, ih, hedge]
    simp only [List.map_cons, List.sum_cons, BitVec.ofNat_add, Rat.add_assoc, BitVec.add_assoc]

/-- The edges of the inputs carry the values of the outputs they name. -/
theorem edges_values (hv : ValidChain env all) (hpre : ∀ u ∈ pre, u ∈ all) (xs : List TxInput)
    (i : Nat) (es : List EdgeData) (hes : List.Forall₂ (Names env) (inputSites pre t i xs) es) :
    (es.map EdgeData.value).sum = (xs.map (valueOf env all)).sum ∧
      (es.map fun e => (e.value : ℚ) * (e.upTXHash.bind T).getD 0).sum =
        (xs.map fun x => (valueOf env all x : ℚ) * (T x.prevHash).getD 0).sum := by
  induction xs generalizing i es with
  | nil =>
    cases hes
    simp
  | cons x xs ih =>
    rw [inputSites] at hes
    by_cases hn : x.prevHash = nullHash
    · rw [if_pos hn] at hes
      obtain ⟨h1, h2⟩ := ih (i + 1) es hes
      simp [hn, h1, h2]
    · rw [if_neg hn] at hes
      cases hes with
      | @cons _ e _ es hname hes =>
        obtain ⟨h1, h2⟩ := ih (i + 1) es hes
        obtain ⟨u, hu, hid, o, ho, hdata, -, -⟩ := hname
        have hval : valueOf env all x = o.value.toNat := by
          have ho' : u.outputs[x.prevIndex.toNat]? = some o := ho
          have hid' : txid env u = x.prevHash := hid
          rw [valueOf, if_neg hn, ← hid', find_txid hv (hpre u hu), Option.bind_some, ho']
          rfl
        have he : e.value = valueOf env all x ∧ e.upTXHash = some x.prevHash := by
          rw [TxOutput.data, OutputData.mk.injEq] at hdata
          exact ⟨hdata.1.trans hval.symm, hdata.2.1.trans (congrArg some hid)⟩
        simp [h1, h2, he.1, he.2]

theorem onCall_isInput {c : Call} (hc : isInput c = true) (s : State) :
    onCall view s c = (edgeData c).elim s fun e => edge s e.value e.upTXHash := by
  cases c <;> first | rfl | cases hc

theorem onCall_isOutput {c : Call} (hc : isOutput c = true) (s : State) : onCall view s c = s := by
  cases c <;> first | rfl | cases hc

theorem print_maps (s : State) (q : ℚ) :
    (s.print q).taintMap = s.taintMap ∧ (s.print q).srcTxMap = s.srcTxMap := by
  unfold State.print
  split <;> exact ⟨rfl, rfl⟩

theorem store_srcTxMap (s : State) : s.store.srcTxMap = s.srcTxMap := by
  unfold State.store
  split <;> rfl

theorem endTX_maps (s : State) (hid : s.txHash.value = some (txid env t)) (hT : s.taintMap = T)
    (hbad : s.txBad = bad env all T t) (htot : s.txTotal = BitVec.ofNat 128 (total env all t))
    (hpos : 0 < bad env all T t → 0 < total env all t) :
    (endTX s).taintMap = mix env all s.srcTxMap T t ∧ (endTX s).srcTxMap = s.srcTxMap := by
  have hnat : s.txTotal.toNat = total env all t := by
    rw [htot, BitVec.toNat_ofNat, Nat.mod_eq_of_lt (total_lt env all t)]
  have hmixes : s.mixes = true ↔ txid env t ∉ s.srcTxMap ∧ 0 < bad env all T t := by
    have htotal : 0 < s.txTotal ↔ 0 < total env all t := by
      rw [BitVec.lt_def, hnat]
      rfl
    simp only [State.mixes, State.isSrcTX, hid, hbad, Option.any_some, Bool.and_eq_true,
      Bool.not_eq_true', decide_eq_false_iff_not, decide_eq_true_eq, htotal]
    exact ⟨fun h => ⟨h.1.1, h.2⟩, fun h => ⟨⟨h.1, hpos h.2⟩, h.2⟩⟩
  obtain ⟨hmap, hsrc⟩ := print_maps s.store s.taint
  refine ⟨?_, hsrc.trans (store_srcTxMap s)⟩
  rw [endTX, hmap, mix, State.store]
  by_cases hm : s.mixes = true
  · have htaint : s.taint = bad env all T t / total env all t := by
      have hns : s.isSrcTX = false := by
        simp only [State.isSrcTX, hid, Option.any_some, decide_eq_false_iff_not]
        exact (hmixes.mp hm).1
      simp only [State.taint, hns, hm, Bool.false_eq_true, if_false, if_true, hbad, hnat]
    simp only [if_pos hm, if_pos (hmixes.mp hm), hid, hT, htaint, Option.elim_some]
  · rw [if_neg hm, if_neg fun h => hm (hmixes.mpr h), hT]

/-- Only endTX writes the map. -/
theorem onCall_maps {c : Call} (hc : isEndTX c = false) (s : State) :
    (onCall view s c).taintMap = s.taintMap ∧ (onCall view s c).srcTxMap = s.srcTxMap := by
  cases c with
  | endTX p => cases hc
  | edge value up =>
    unfold onCall edge
    dsimp only
    cases up.value.bind s.taintMap <;> exact ⟨rfl, rfl⟩
  | _ => exact ⟨rfl, rfl⟩

/-- The map is that of the transactions behind it, with these sources. -/
def Holding (env : Env) (all : List Tx) (src : List Hash256) (pre : List (BlockRef × Tx))
    (s : State) : Prop :=
  s.taintMap = taints env all src (txsOf pre) ∧ s.srcTxMap = src

theorem Holding.call {c : Call} (hs : Holding env all src xs s)
    (hc : isEndTX c = false) : Holding env all src xs (onCall view s c) := by
  obtain ⟨hmap, hsrc⟩ := onCall_maps view hc s
  exact ⟨hmap.trans hs.1, hsrc.trans hs.2⟩

theorem Holding.calls (w : List Call)
    (hw : ∀ c ∈ w, isEndTX c = false) (hs : Holding env all src xs s) :
    Holding env all src xs (w.foldl (onCall view) s) :=
  List.foldlRecOn w (onCall view) hs fun _ hs c hc => hs.call view (hw c hc)

/-- The accumulators before endTX. -/
theorem beforeEndTX (hv : ValidChain env all) (hall : all = pre ++ t :: post) {h : HashArg}
    (hid : h.value = some (txid env t)) (p : Ptr) (hT : s.taintMap = T) :
    let s' := (txInit env.coin (edgeCall h) h (ledger (pre.map (entryOf env))) t p).foldl
      (onCall view) s
    s'.txHash = h ∧ s'.txBad = bad env all T t ∧
      s'.txTotal = BitVec.ofNat 128 (total env all t) ∧ s'.taintMap = T ∧
      s'.srcTxMap = s.srcTxMap := by
  have hv' : ValidChain env (pre ++ t :: post) := hall ▸ hv
  have hdata := (txCalls_data (h := h) hid hv' p).1
  rw [← inCalls_data] at hdata
  have hin : ∀ s, (inCalls env.coin (edgeCall h) (ledger (pre.map (entryOf env))) t p).foldl
      (onCall view) s = _ := fun s => foldl_filterMap
    (fun c hc s => onCall_isInput view (isInput_of_mem (fun _ _ _ _ => isEdge_edgeCall h _ _ _) hc) s) s
  have hout : ∀ s, (outCalls env.coin h t p).foldl (onCall view) s = s := fun s =>
    foldl_ignored (fun c hc s => onCall_isOutput view (isOutput_of_mem hc) s) s
  have hpre : ∀ u ∈ pre, u ∈ all := fun u hu => by simp [hall, hu]
  obtain ⟨htot, hbad⟩ := edges_values (T := T) hv hpre t.inputs 0 _ hdata
  have hstart : onCall view s (.startTX p h) = startTX s h := rfl
  rw [txInit, List.foldl_cons, List.foldl_append, hout, hin, hstart, edges_sum]
  refine ⟨rfl, ?_, ?_, hT, rfl⟩
  · subst hT
    exact (zero_add _).trans hbad
  · exact (BitVec.zero_add _).trans (congrArg _ htot)

theorem taint_steps (data : BlockRef → Memory) (src : List Hash256) (hv : ValidChain env (txsOf xs)) :
    Steps env data edgeCall (onCall view) (fun _ => Holding env (txsOf xs) src)
      (Holding env (txsOf xs) src) xs where
  weaken _ _ _ hs := hs
  startBlock _ _ _ _ hs := hs
  startTXs _ _ _ _ hs := hs
  endTXs _ _ _ _ hs := hs
  endBlock _ _ _ _ hs := hs
  tx := by
    intro b pre t post cell p hxs _
    have hall : txsOf xs = txsOf pre ++ t :: txsOf post := by simp [hxs, txsOf]
    have hinit : ∀ c ∈ txInit env.coin (edgeCall (txArg env t cell)) (txArg env t cell)
        (ledger ((txsOf pre).map (entryOf env))) t p, isEndTX c = false :=
      fun c => not_isEndTX fun _ _ _ _ => isEdge_edgeCall _ _ _ _
    rw [txCalls_eq]
    refine Keeps.segment hinit rfl (fun _ hs => hs) ?_ ?_
    · intro s hs
      obtain ⟨hhash, hbad, htot, hT, hsrc⟩ := beforeEndTX view hv hall (h := txArg env t cell) rfl p hs.1
      have hm : Mixed env (txsOf xs) src (txsOf pre) _ := taints_mixed hv hall
      obtain ⟨hmap, hsrc'⟩ := endTX_maps _ (by rw [hhash]; rfl) hT hbad htot hm.total_pos
      rw [hsrc, hs.2] at hmap
      rw [List.foldl_append]
      refine ⟨?_, hsrc'.trans (hsrc.trans hs.2)⟩
      have hsnoc : taints env (txsOf xs) src (txsOf (pre ++ [(b, t)])) =
          mix env (txsOf xs) src (taints env (txsOf xs) src (txsOf pre)) t := by
        simp [taints, txsOf]
      rw [hsnoc]
      exact hmap
    · intro s hs v hv'
      exact hs.calls view v fun c hc => hinit c (hv'.subset hc)

/-- At every point of a run over a valid chain, for every transaction that has ended:
a source has taint 1, any other one has an entry exactly when something bad flows in, of
the part that is bad, and an entry is there exactly when a chain of inputs with positive
values leads to a source. -/
theorem taintMap_spec (env : Env) (view : View) {data : BlockRef → Memory} (src : List Hash256)
    (bs : List (Block env.coin data)) (hv : ValidChain env (chain bs)) (w : List Call)
    (hw : w <+: runCalls env edgeCall noEntries bs) :
    let all := chain bs
    let T := (w.foldl (onCall view) (init src)).taintMap
    ∀ t ∈ all.take (w.countP isEndTX),
      (txid env t ∈ src → T (txid env t) = some 1) ∧
      (txid env t ∉ src → (T (txid env t) ≠ none ↔ 0 < bad env all T t) ∧
        ∀ τ, T (txid env t) = some τ → τ = bad env all T t / total env all t ∧ 0 < τ ∧ τ ≤ 1) ∧
      (T (txid env t) ≠ none ↔ Tainted env all src t) := by
  intro all T t ht
  have hall : txsOf (placed bs) = all := txsOf_placed bs
  have hrun := runCalls_keeps (taint_steps view data src (hall ▸ hv)) bs [] rfl
  have hQ := hrun.mid (init src) ⟨none, rfl, rfl⟩ w hw
  have hT : T = taints env all src (all.take (w.countP isEndTX)) := by
    rw [← hall, txsOf, ← List.map_take]
    exact hQ.1
  have hm : Mixed env all src (all.take (w.countP isEndTX)) _ :=
    taints_mixed hv (List.take_append_drop (w.countP isEndTX) all).symm
  rw [← hT] at hm
  refine ⟨hm.source _, ?_, hm.tainted t ht⟩
  intro hsrc
  have hval := hm.value t ht hsrc
  refine ⟨?_, ?_⟩
  · rw [hval, ite_ne_right_iff]
    exact and_iff_left (by simp)
  intro τ hτ
  refine ⟨?_, hm.bound _ τ hτ⟩
  rw [hval] at hτ
  split at hτ
  · exact (Option.some_inj.mp hτ).symm
  · cases hτ

def zeroView : View := ⟨fun _ => 0, fun _ => 0⟩

/-- The transaction that spends the source is as bad as the source. -/
theorem taintMap_spec_spendTx :
    ((runCalls prefixEnv edgeCall noEntries [blockOf .bitcoin 1 [mintTx, spendTx] (by decide)]).foldl
      (onCall zeroView) (init [txid prefixEnv mintTx])).taintMap (txid prefixEnv spendTx) ≠ none := by
  have hended : (runCalls prefixEnv edgeCall noEntries
      [blockOf .bitcoin 1 [mintTx, spendTx] (by decide)]).countP isEndTX = 2 := by decide
  have hspec := taintMap_spec prefixEnv zeroView [txid prefixEnv mintTx]
    [blockOf .bitcoin 1 [mintTx, spendTx] (by decide)] spendChain_valid _ (List.prefix_refl _) spendTx
    (by rw [hended]; exact List.mem_cons_of_mem _ (List.mem_cons_self ..))
  refine hspec.2.2.mpr (Tainted.input (x := ⟨txid prefixEnv mintTx, 0, [], 0, by decide⟩)
    (List.mem_singleton.mpr rfl) (by decide) (List.mem_cons_self ..) rfl (Tainted.source ?_))
  exact List.mem_singleton.mpr rfl

end Blockparser.Taint
