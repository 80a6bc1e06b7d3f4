import Blockparser.BaseReward
import Blockparser.TopBalances
import Blockparser.Transactions

/-! Amounts as they are printed: satoshisToNormaForm takes an unsigned number, also where the
amount is signed. -/
namespace Blockparser.SignedAmounts
open TopBalances
open AllBalances hiding Coin
open Blockparser.Parser (Coin Env Call HashArg)
open MemoryManager (Hash160 nullHash)
open Transaction (bitcoinEnv)

/-- satoshisToNormaForm, the product taken as exact. -/
def satoshisToNormaForm (coin : Coin) (satoshis : BitVec 64) : ℚ :=
  satoshis.toNat * (if coin = .peercoin then 1 / 10 ^ 6 else 1 / 10 ^ 8)

/-- The amount in a row of `--detailed`. -/
def valueShown (coin : Coin) (o : Output) : ℚ := satoshisToNormaForm coin (BitVec.ofInt 64 o.value)

/-- The fees in a line of rewards. -/
def feesShown (coin : Coin) (l : BaseReward.Rewards.Summary) : ℚ :=
  satoshisToNormaForm coin l.feesEarned

/-- The amount in a line of transactions `--csv`. -/
def amountShown (coin : Coin) (l : Transactions.Line) : ℚ :=
  (if l.add then 1 else -1) * satoshisToNormaForm coin l.value

/-- The new balance in a line of transactions. -/
def newSumShown (coin : Coin) (l : Transactions.Line) : ℚ := satoshisToNormaForm coin l.newSum

/-- What is shown is the amount, divided by 10^8. -/
def Keeps (shown : ℚ) (amount : Int) : Prop := shown = amount / 10 ^ 8

/-- A signed amount that is not negative, in a build that divides by 10^8. -/
def Kept (coin : Coin) (amount : Int) : Prop := amount = 0 ∨ coin ≠ .peercoin ∧ 0 ≤ amount

/-- The outputs below a row. -/
def outputs : Row → List Output
  | .csv .. => []
  | .columns _ _ _ _ _ _ _ outputVec => outputVec.getD []

/-- The row of an output that is created. -/
def receipt (time : BitVec 32) (value : Nat) (txHash : HashArg) (outputIndex : Nat) : Output :=
  ⟨time, toInt64 value, BitVec.ofInt 64 (-1), BitVec.ofNat 64 outputIndex, txHash, noHash⟩

/-- The row of an output that is spent. -/
def spend (time : BitVec 32) (value : Nat) (upTXHash : HashArg) (outputIndex : Nat)
    (downTXHash : HashArg) (inputIndex : Nat) : Output :=
  ⟨time, -toInt64 value, BitVec.ofNat 64 inputIndex, BitVec.ofNat 64 outputIndex, upTXHash,
    downTXHash⟩

/-- A row of an output of `value` that a call creates. -/
def Receipt (calls : List Call) (o : Output) (value : Nat) : Prop :=
  ∃ p txHash outputIndex script size time,
    .endOutput p value txHash outputIndex script size ∈ calls ∧
      o = receipt time value txHash outputIndex

/-- A row of an output of `value` that a call spends. -/
def Spend (calls : List Call) (o : Output) (value : Nat) : Prop :=
  ∃ upTXHash outputIndex script size downTXHash inputIndex inputScript inputSize time,
    .edge value upTXHash outputIndex script size downTXHash inputIndex inputScript inputSize ∈
        calls ∧
      o = spend time value upTXHash outputIndex downTXHash inputIndex

variable {coin : Coin} {cfg : Config} {s : State} {P : Output → Prop}

theorem keeps_iff_natCast {x : BitVec 64} {amount : Int} :
    Keeps (satoshisToNormaForm coin x) amount ↔
      (if coin = .peercoin then 100 else 1) * (x.toNat : Int) = amount := by
  have hpos : (10 : ℚ) ^ 8 ≠ 0 := by norm_num
  unfold Keeps satoshisToNormaForm
  rw [eq_div_iff hpos, ← @Int.cast_inj ℚ]
  split
  · push_cast
    constructor <;> intro h <;> linarith
  · push_cast
    constructor <;> intro h <;> linarith

/-- The number a word has for a signed amount. -/
theorem toNat_ofInt_cases {amount : Int} (hlo : -2 ^ 64 < amount) (hhi : amount < 2 ^ 64) :
    0 ≤ amount ∧ ((BitVec.ofInt 64 amount).toNat : Int) = amount ∨
      amount < 0 ∧ 0 < (BitVec.ofInt 64 amount).toNat := by
  have hnat : ((BitVec.ofInt 64 amount).toNat : Int) = amount % 2 ^ 64 := by
    rw [BitVec.toNat_ofInt]
    omega
  by_cases h0 : 0 ≤ amount
  · left
    exact ⟨h0, by omega⟩
  · right
    exact ⟨by omega, by omega⟩

/-- A word keeps the amount it stands for exactly where the amount is not negative: a negative
one comes out larger than 0. -/
theorem keeps_iff {amount : Int} (hlo : -2 ^ 64 < amount) (hhi : amount < 2 ^ 64) :
    Keeps (satoshisToNormaForm coin (BitVec.ofInt 64 amount)) amount ↔ Kept coin amount := by
  have hcases := toNat_ofInt_cases hlo hhi
  rw [keeps_iff_natCast, Kept]
  by_cases hcoin : coin = .peercoin
  · have hno : ¬(coin ≠ .peercoin ∧ 0 ≤ amount) := fun h => h.1 hcoin
    rw [if_pos hcoin, or_iff_left hno]
    omega
  · rw [if_neg hcoin, and_iff_right hcoin]
    omega

theorem toInt64_bounds (v : Nat) : -2 ^ 63 ≤ toInt64 v ∧ toInt64 v < 2 ^ 63 := by
  have hlo := BitVec.le_toInt (BitVec.ofNat 64 v)
  have hhi := @BitVec.toInt_lt 64 (BitVec.ofNat 64 v)
  exact ⟨hlo, hhi⟩

/-- Minus a spent value is never shown. -/
theorem spend_keeps_iff (time : BitVec 32) (v : Nat) (up down : HashArg) (i j : Nat) :
    Keeps (valueShown coin (spend time v up i down j)) (-v) ↔ v = 0 := by
  rw [valueShown, keeps_iff_natCast]
  constructor
  · intro h
    split at h <;> omega
  · intro hv
    subst hv
    simp [spend, toInt64]

/-! The rows of `--detailed`. -/

/-- All outputs kept in the records are such. -/
def OutputsAre (P : Output → Prop) (p : Pool) : Prop := ∀ r, ∀ o ∈ (p.cells r).outputVec.getD [], P o

theorem OutputsAre.write {p : Pool} (hp : OutputsAre P p) {addr : AddrRef} {a : Addr}
    (ha : ∀ o ∈ a.outputVec.getD [], P o) : OutputsAre P (p.write addr a) := by
  intro r o ho
  by_cases hr : r = addr
  · subst hr
    simp only [Pool.write, Function.update_self] at ho
    exact ha o ho
  · simp only [Pool.write, Function.update_of_ne hr] at ho
    exact hp r o ho

theorem OutputsAre.getAddr (hs : OutputsAre P s.pool) (h : Hash160) (addrType : UInt8) :
    OutputsAre P (getAddr cfg s h addrType).2.pool := by
  unfold AllBalances.getAddr
  split
  · exact hs
  · have halloc : OutputsAre P s.pool.alloc.2 := by
      intro r
      rw [Pool.alloc_cells]
      exact hs r
    refine halloc.write ?_
    intro o ho
    dsimp only at ho
    split at ho <;> cases ho

theorem add_outputVec (a : Addr) (time : BitVec 32) (v : Int) :
    (a.add time v).outputVec = a.outputVec := by
  unfold Addr.add
  split <;> rfl

/-- A move adds its own row at most. -/
theorem OutputsAre.move (hs : OutputsAre P s.pool) (script : List UInt8) (up down : HashArg)
    (outputIndex : Nat) (v : Int) (inputIndex : BitVec 64)
    (hnew : ∀ time, P ⟨time, v, inputIndex, BitVec.ofNat 64 outputIndex, up, down⟩) :
    OutputsAre P (move cfg s script up outputIndex v down inputIndex).pool := by
  unfold AllBalances.move
  dsimp only
  split
  · exact hs
  · split
    · exact hs
    · have hg := @OutputsAre.getAddr cfg s P hs (cfg.solveOutputScript script).pubKeyHash
        (cfg.solveOutputScript script).addrType
      generalize AllBalances.getAddr cfg s (cfg.solveOutputScript script).pubKeyHash
        (cfg.solveOutputScript script).addrType = g at hg
      have hadd : ∀ o ∈ ((g.2.pool.cells g.1).add g.2.blockTime v).outputVec.getD [], P o := by
        rw [add_outputVec]
        exact hg g.1
      split
      · refine hg.write ?_
        intro o ho
        cases hvec : ((g.2.pool.cells g.1).add g.2.blockTime v).outputVec with
        | none =>
          rw [Addr.pushOutput, hvec] at ho
          cases ho
        | some outs =>
          rw [Addr.pushOutput, hvec] at ho
          rw [hvec] at hadd
          cases List.mem_append.mp ho with
          | inl hold => exact hadd o hold
          | inr hone =>
            rw [List.mem_singleton.mp hone]
            exact hnew _
      · split
        · exact hg.write hadd
        · exact hg.write hadd

/-- A row is that of an output that some call creates or spends. -/
def RowOf (calls : List Call) (o : Output) : Prop :=
  (∃ v, Receipt calls o v) ∨ ∃ v, Spend calls o v

theorem onCall_outputs {calls : List Call} {c : Call} (hc : c ∈ calls)
    (hs : OutputsAre (RowOf calls) s.pool) : OutputsAre (RowOf calls) (onCall cfg s c).pool := by
  cases c with
  | endOutput p value txHash outputIndex script size =>
    refine hs.move _ _ _ _ _ _ ?_
    intro time
    exact Or.inl ⟨value, p, txHash, outputIndex, script, size, time, hc, rfl⟩
  | edge value up outputIndex script size down inputIndex inputScript inputSize =>
    refine hs.move _ _ _ _ _ _ ?_
    intro time
    exact Or.inr ⟨value, up, outputIndex, script, size, down, inputIndex, inputScript, inputSize,
      time, hc, rfl⟩
  | _ => exact hs

theorem run_outputs (cfg : Config) (calls : List Call) :
    OutputsAre (RowOf calls) (calls.foldl (onCall cfg) start).pool := by
  have hstart : OutputsAre (RowOf calls) start.pool := by
    intro r o ho
    cases ho
  refine List.foldlRecOn (motive := fun s : State => OutputsAre (RowOf calls) s.pool) calls
    (onCall cfg) hstart ?_
  intro s hs c hc
  exact onCall_outputs hc hs

section Report
variable {env : Env} {buf : Bytes.Memory} {opt : Options} {l : List Addr} {r : Report}

/-- A row is printed for a record of the vector. -/
theorem loop_mem {row : Addr × Row} (h : row ∈ (loop env buf cfg opt r l).rows) :
    row ∈ r.rows ∨ row.1 ∈ l ∧ ∃ i, row.2 = rowOf env buf cfg opt i row.1 := by
  induction l generalizing r with
  | nil => exact Or.inl h
  | cons addr rest ih =>
    rw [loop] at h
    split at h
    · exact Or.inl h
    · split at h
      · cases ih h with
        | inl hold => exact Or.inl hold
        | inr hnew => exact Or.inr ⟨List.mem_cons_of_mem _ hnew.1, hnew.2⟩
      · cases ih h with
        | inl hold =>
          cases List.mem_append.mp hold with
          | inl hold => exact Or.inl hold
          | inr hone =>
            rw [List.mem_singleton.mp hone]
            exact Or.inr ⟨List.mem_cons_self .., r.i, rfl⟩
        | inr hnew => exact Or.inr ⟨List.mem_cons_of_mem _ hnew.1, hnew.2⟩

theorem outputs_rowOf {i : Int} {addr : Addr} {o : Output}
    (ho : o ∈ outputs (rowOf env buf cfg opt i addr)) : o ∈ addr.outputVec.getD [] := by
  unfold rowOf at ho
  split at ho
  · cases ho
  · dsimp only [outputs] at ho
    split at ho
    · exact ho
    · cases ho

theorem Order.mem {l' : List Addr} (h : Order opt l l') {addr : Addr} (ha : addr ∈ l') :
    addr ∈ l := by
  unfold Order at h
  split at h
  · rwa [h] at ha
  · exact h.perm.mem_iff.mp ha

/-- Every printed output comes from a call. -/
theorem printed_rowOf {calls : List Call} (it : Iteration (calls.foldl (onCall cfg) start))
    {addrs : List Addr} (hord : Order opt it.records addrs) {row : Addr × Row}
    (hrow : row ∈ (wrapup env buf cfg opt addrs).rows) {o : Output} (ho : o ∈ outputs row.2) :
    RowOf calls o := by
  cases loop_mem hrow with
  | inl hnil => cases hnil
  | inr hnew =>
    obtain ⟨hmem, i, hi⟩ := hnew
    rw [hi] at ho
    obtain ⟨a, -, hcell⟩ := List.mem_map.mp (Order.mem hord hmem)
    rw [← hcell] at ho
    exact run_outputs cfg calls a o (outputs_rowOf ho)

end Report

theorem RowOf.bounds {calls : List Call} {o : Output} (h : RowOf calls o) :
    -2 ^ 64 < o.value ∧ o.value < 2 ^ 64 := by
  cases h with
  | inl h =>
    obtain ⟨v, p, txHash, outputIndex, script, size, time, -, rfl⟩ := h
    have hv := toInt64_bounds v
    dsimp only [receipt]
    omega
  | inr h =>
    obtain ⟨v, up, outputIndex, script, size, down, inputIndex, inputScript, inputSize, time, -,
      rfl⟩ := h
    have hv := toInt64_bounds v
    dsimp only [spend]
    omega

theorem RowOf.keeps_iff {calls : List Call} {o : Output} (h : RowOf calls o) :
    (Keeps (valueShown coin o) o.value ↔ Kept coin o.value) ∧
      ∀ v, Spend calls o v → (Keeps (valueShown coin o) (-v) ↔ v = 0) := by
  refine ⟨SignedAmounts.keeps_iff h.bounds.1 h.bounds.2, ?_⟩
  intro v hspend
  obtain ⟨up, outputIndex, script, size, down, inputIndex, inputScript, inputSize, time, -, rfl⟩ :=
    hspend
  exact spend_keeps_iff time v up down outputIndex inputIndex

/-! The lines of rewards. -/

/-- The state in which endBlock is called, if it is. -/
def atEndBlock (s : BaseReward.Rewards.State) : Call → List BaseReward.Rewards.State
  | .endBlock _ => [s]
  | _ => []

/-- The states in which a run comes to endBlock. -/
def endBlocks (view : BaseReward.View) :
    BaseReward.Rewards.State → List Call → List BaseReward.Rewards.State
  | _, [] => []
  | s, c :: calls =>
    atEndBlock s c ++
      match BaseReward.Rewards.onCall view s c with
      | .ok s' => endBlocks view s' calls
      | .error _ => []

def startRewards (fullDump : Bool) : BaseReward.Rewards.State :=
  { BaseReward.Rewards.start with fullDump := fullDump }

/-- The line endBlock prints. -/
def lineOf (s : BaseReward.Rewards.State) : BaseReward.Rewards.Summary :=
  ⟨s.currBlock, BaseReward.getBaseReward s.rewardArg,
    s.reward - BaseReward.getBaseReward s.rewardArg, s.reward⟩

section Rewards
variable {view : BaseReward.View} {s s' : BaseReward.Rewards.State} {c : Call} {calls : List Call}

theorem onCall_summaries (h : BaseReward.Rewards.onCall view s c = .ok s') :
    s'.summaries = s.summaries ++ (atEndBlock s c).map lineOf := by
  cases c with
  | endBlock b =>
    cases h
    rfl
  | startInput p =>
    cases h
    simp only [atEndBlock, List.map_nil, List.append_nil, BaseReward.Rewards.startInput_summaries]
  | endInputs p =>
    rw [BaseReward.Rewards.endInputs_ok h]
    exact (List.append_nil _).symm
  | endOutput p value txHash outputIndex script size =>
    obtain ⟨reward, rfl⟩ := BaseReward.Rewards.endOutput_ok h
    exact (List.append_nil _).symm
  | _ =>
    cases h
    exact (List.append_nil _).symm

theorem run_summaries (h : calls.foldlM (BaseReward.Rewards.onCall view) s = .ok s') :
    s'.summaries = s.summaries ++ (endBlocks view s calls).map lineOf := by
  induction calls generalizing s with
  | nil =>
    cases h
    exact (List.append_nil _).symm
  | cons c calls ih =>
    rw [List.foldlM_cons] at h
    cases hs : BaseReward.Rewards.onCall view s c with
    | error e =>
      rw [hs] at h
      cases h
    | ok s₁ =>
      rw [hs] at h
      rw [ih h, onCall_summaries hs, endBlocks, hs, List.map_append, List.append_assoc]

/-- The fees are kept where the base reward is not above what was paid. -/
theorem fees_keeps_iff (s : BaseReward.Rewards.State) :
    Keeps (feesShown coin (lineOf s))
        ((lineOf s).total.toNat - (lineOf s).baseReward.toNat : Int) ↔
      Kept coin (s.reward.toNat - (BaseReward.getBaseReward s.rewardArg).toNat : Int) := by
  have hword : (lineOf s).feesEarned = BitVec.ofInt 64
      (s.reward.toNat - (BaseReward.getBaseReward s.rewardArg).toNat : Int) := by
    rw [sub_eq_add_neg, BitVec.ofInt_add, BitVec.ofInt_neg, BitVec.ofInt_natCast,
      BitVec.ofInt_natCast, BitVec.ofNat_toNat, BitVec.ofNat_toNat, BitVec.setWidth_eq,
      BitVec.setWidth_eq, ← BitVec.sub_eq_add_neg]
    rfl
  have hr := s.reward.isLt
  have hb := (BaseReward.getBaseReward s.rewardArg).isLt
  rw [feesShown, hword]
  exact keeps_iff (by omega) (by omega)

end Rewards

/-! The lines of transactions. -/

/-- What a line adds to the balance. -/
def signed (l : Transactions.Line) : Int := if l.add then l.value.toNat else -l.value.toNat

/-- The balance behind some lines. -/
def balance (ls : List Transactions.Line) : BitVec 64 := BitVec.ofInt 64 (ls.map signed).sum

/-- The sum, and the new balance in each line, is that of the lines so far. -/
structure Balanced (s : Transactions.State) : Prop where
  sum : s.sum = balance s.lines
  newSum : ∀ pre l, pre ++ [l] <+: s.lines → l.newSum = balance (pre ++ [l])

section Transactions
variable {cfg : Transactions.Config} {s : Transactions.State}

theorem balance_append (ls : List Transactions.Line) (l : Transactions.Line) :
    balance (ls ++ [l]) = balance ls + l.value * (if l.add then 1 else -1) := by
  have hone : BitVec.ofInt 64 (signed l) = l.value * (if l.add then 1 else -1) := by
    unfold signed
    cases l.add with
    | true => simp
    | false =>
      have hneg : l.value * -1 = -l.value := by ring
      simp only [Bool.false_eq_true, if_false]
      rw [hneg, BitVec.ofInt_neg, BitVec.ofInt_natCast, BitVec.ofNat_toNat, BitVec.setWidth_eq]
  rw [balance, balance, List.map_append, List.sum_append, BitVec.ofInt_add, List.map_singleton,
    List.sum_singleton, hone]

theorem move_balanced (hs : Balanced s) (script : List UInt8) (txHash down : HashArg)
    (value : BitVec 64) (add : Bool) :
    Balanced (Transactions.move cfg s script txHash value add down) := by
  unfold Transactions.move Transactions.State.matched
  dsimp only
  split
  · exact hs
  · split
    · exact hs
    · constructor
      · dsimp only
        rw [balance_append, hs.sum]
      · intro pre l hpre
        cases List.prefix_concat_iff.mp hpre with
        | inl heq =>
          obtain ⟨rfl, hl⟩ := List.append_inj' heq rfl
          cases hl
          rw [balance_append, ← hs.sum]
        | inr hold => exact hs.newSum pre l hold

theorem run_balanced (cfg : Transactions.Config) (calls : List Call) :
    Balanced (calls.foldl (Transactions.onCall cfg) Transactions.init) := by
  have hinit : Balanced Transactions.init := by
    refine ⟨rfl, ?_⟩
    intro pre l hpre
    have hnil := List.prefix_nil.mp hpre
    simp at hnil
  refine List.foldlRecOn (motive := Balanced) calls (Transactions.onCall cfg) hinit ?_
  intro s hs c _
  cases c with
  | startBlock b => exact ⟨hs.sum, hs.newSum⟩
  | endOutput => exact move_balanced hs _ _ _ _ _
  | edge => exact move_balanced hs _ _ _ _ _
  | _ => exact hs

/-- The amount in a line of `--csv` has its sign from a factor of its own. -/
theorem amount_keeps (hcoin : coin ≠ .peercoin) (l : Transactions.Line) :
    Keeps (amountShown coin l) (signed l) := by
  unfold Keeps amountShown satoshisToNormaForm signed
  rw [if_neg hcoin]
  cases l.add with
  | true =>
    push_cast
    simp only [if_true]
    ring
  | false =>
    simp only [Bool.false_eq_true, if_false]
    push_cast
    ring

theorem newSum_keeps_iff (calls : List Call) {pre : List Transactions.Line}
    {l : Transactions.Line}
    (h : pre ++ [l] <+: (calls.foldl (Transactions.onCall cfg) Transactions.init).lines) :
    Keeps (newSumShown coin l) l.newSum.toInt ↔ Kept coin (balance (pre ++ [l])).toInt := by
  have hlo := BitVec.le_toInt l.newSum
  have hhi := @BitVec.toInt_lt 64 l.newSum
  have hiff := @keeps_iff coin l.newSum.toInt (by omega) (by omega)
  rw [BitVec.ofInt_toInt] at hiff
  rw [← (run_balanced cfg calls).newSum pre l h]
  exact hiff

end Transactions

/-- What the commands show of their signed amounts is the amount divided by 10^8 exactly where
it is 0, or not negative and the build none that divides by 10^6. So in allBalances
`--detailed` minus a spent value is not shown unless it is 0; in rewards the fees are shown as
total minus base reward where endBlock finds no reward below the base reward; and in
transactions a new balance is shown where what the lines so far add up to is not negative,
while the amounts of `--csv` have their sign. -/
theorem signed_amounts_iff (env : Env) (calls : List Call) (buf : Bytes.Memory) (cfg : Config)
    (opt : Options) (view : BaseReward.View) (fullDump : Bool) (tcfg : Transactions.Config) :
    (∀ (it : Iteration (calls.foldl (onCall cfg) start)) (addrs : List Addr),
      Order opt it.records addrs → ∀ row ∈ (wrapup env buf cfg opt addrs).rows,
        ∀ o ∈ outputs row.2, RowOf calls o ∧
          (Keeps (valueShown env.coin o) o.value ↔ Kept env.coin o.value) ∧
          ∀ v, Spend calls o v → (Keeps (valueShown env.coin o) (-v) ↔ v = 0)) ∧
    (∀ s, calls.foldlM (BaseReward.Rewards.onCall view) (startRewards fullDump) = .ok s →
      List.Forall₂ (fun l t => Keeps (feesShown env.coin l)
            (l.total.toNat - l.baseReward.toNat : Int) ↔
          Kept env.coin (t.reward.toNat - (BaseReward.getBaseReward t.rewardArg).toNat : Int))
        s.summaries (endBlocks view (startRewards fullDump) calls)) ∧
    (∀ pre l, pre ++ [l] <+: (calls.foldl (Transactions.onCall tcfg) Transactions.init).lines →
      (Keeps (newSumShown env.coin l) l.newSum.toInt ↔
        Kept env.coin (balance (pre ++ [l])).toInt) ∧
      (env.coin ≠ .peercoin → Keeps (amountShown env.coin l) (signed l))) := by
  refine ⟨?_, ?_, ?_⟩
  · intro it addrs hord row hrow o ho
    have hcall := printed_rowOf it hord hrow ho
    exact ⟨hcall, hcall.keeps_iff⟩
  · intro s hrun
    have hlines : s.summaries = (endBlocks view (startRewards fullDump) calls).map lineOf :=
      run_summaries hrun
    rw [hlines, List.forall₂_map_left_iff, List.forall₂_same]
    intro t _
    exact fees_keeps_iff t
  · intro pre l hpre
    exact ⟨newSum_keeps_iff calls hpre, fun hcoin => amount_keeps hcoin l⟩

/-- A generation transaction that takes `value`, in a block of its own. -/
def mintCalls (value : Nat) : List Call :=
  [.startBlock 0, .startTXs 80, .startTX 81 ⟨none, some nullHash⟩, .startInputs 85, .startInput 86,
    .endInput 127, .endInputs 127, .startOutputs 127, .startOutput 128,
    .endOutput 162 value ⟨none, some nullHash⟩ 0 payScript 25, .endOutputs 162, .endTX 166,
    .endTXs 166, .endBlock 0]

def mintView : BaseReward.View := ⟨fun _ => 1, fun _ => 0, solvePayToHash⟩

def detailedConfig : Config := ⟨true, [], fun _ => 0, solvePayToHash⟩

theorem shown_bitcoin (x : BitVec 64) (n : Nat) (h : x.toNat = n) :
    satoshisToNormaForm .bitcoin x = n / 10 ^ 8 := by
  rw [satoshisToNormaForm, if_neg (by decide), h]
  ring

/-- A miner who takes 51 coins has fees of one coin. -/
theorem signed_amounts_iff_fees : ∃ s,
    (mintCalls 5100000000).foldlM (BaseReward.Rewards.onCall mintView) (startRewards false) =
        .ok s ∧ s.summaries.length = 1 ∧
      ∀ l ∈ s.summaries, Keeps (feesShown .bitcoin l) (l.total.toNat - l.baseReward.toNat : Int) := by
  have hiff := (signed_amounts_iff bitcoinEnv (mintCalls 5100000000) (fun _ => 0) detailedConfig
    ⟨false, 0, 0⟩ mintView false ⟨[], fun _ => 0, solvePayToHash⟩).2.1
  obtain ⟨hline, -⟩ := List.forall₂_cons.mp (hiff _ rfl)
  refine ⟨_, rfl, rfl, ?_⟩
  intro l hl
  rw [List.mem_singleton.mp hl]
  exact hline.mpr (Or.inr ⟨by decide, by decide⟩)

/-- One who takes a satoshi less than 50 coins has fees of 184467440737.09551615, and an output
of 5 satoshis that is spent shows 184467440737.09551611. -/
theorem signed_amounts_lost :
    (∃ s l, (mintCalls 4999999999).foldlM (BaseReward.Rewards.onCall mintView)
          (startRewards false) = .ok s ∧ s.summaries = [l] ∧
        l.total.toNat = 4999999999 ∧ l.baseReward.toNat = 5000000000 ∧
        feesShown .bitcoin l = 18446744073709551615 / 10 ^ 8 ∧
        ¬Keeps (feesShown .bitcoin l) (l.total.toNat - l.baseReward.toNat : Int)) ∧
    (∃ a o, (smallCalls.foldl (onCall detailedConfig) start).record
          ⟨List.replicate 20 7, length_sevens⟩ = some a ∧
        o ∈ a.outputVec.getD [] ∧ Spend smallCalls o 5 ∧
        valueShown .bitcoin o = 18446744073709551611 / 10 ^ 8 ∧
        ¬Keeps (valueShown .bitcoin o) (-5)) := by
  constructor
  · refine ⟨_, _, rfl, rfl, by decide, by decide, shown_bitcoin _ _ (by decide), ?_⟩
    rw [feesShown, keeps_iff_natCast]
    decide
  · refine ⟨_, _, rfl, List.mem_cons_of_mem _ (List.mem_cons_self ..), ?_,
      shown_bitcoin _ _ (by decide), ?_⟩
    · exact ⟨noHash, 0, payScript, 25, noHash, 0, [], 0, 0, List.mem_cons_of_mem _
        (List.mem_cons_self ..), rfl⟩
    · rw [valueShown, keeps_iff_natCast]
      decide

end Blockparser.SignedAmounts
