import Blockparser.Balances

/-! The two modes of the allBalances command: when the row of an address is the same with
and without `--detailed`. -/
namespace Blockparser.Modes
open Script AllBalances Balances
open MemoryManager (Hash160)
open Blockparser.Parser (Call)

def credits (h : Hash160) (ms : List Move) : List Move := (movesFor h ms).filter (0 < ·.value)

def debits (h : Hash160) (ms : List Move) : List Move := (movesFor h ms).filter (·.value ≤ 0)

/-- The time of the last of some moves, or `time` when there is none. -/
def lastTime (time : BitVec 32) (ms : List Move) : BitVec 32 := (ms.getLast?.map Move.time).getD time

/-- The moves cut where the plain mode made the row it holds for `h`: at the first move of
`h` after its balance was last 0. Without a row, all of them are `before`. -/
structure Split where
  before : List Move
  since : List Move

def Split.step (h : Hash160) (x : Split) (m : Move) : Split :=
  let x : Split := if x.since = [] ∧ m.hash ≠ h then ⟨x.before ++ [m], []⟩
    else ⟨x.before, x.since ++ [m]⟩
  if m.hash = h ∧ BitVec.ofInt 64 (sumOf h x.since) = 0 then ⟨x.before ++ x.since, []⟩ else x

def split (h : Hash160) (ms : List Move) : Split := ms.foldl (Split.step h) ⟨[], []⟩

/-- The balances, and a stack of times: a balance that goes to 0 leaves the time it does
so, a balance that leaves 0 takes a time away. -/
structure Trail where
  bal : Hash160 → Int
  times : List (BitVec 32)

def Trail.step (x : Trail) (m : Move) : Trail :=
  let bal := x.bal m.hash + m.value
  let times := if x.bal m.hash = 0 then x.times.tail else x.times
  ⟨Function.update x.bal m.hash bal, if bal = 0 then m.time :: times else times⟩

def trail (ms : List Move) : Trail := ms.foldl Trail.step ⟨fun _ => 0, []⟩

/-- Nothing that the plain mode forgets about `h` makes a difference: the counts of what
came before the row in use are 0 as 64-bit numbers, and without a debit since, the cell of
the row has the time of the last one before, or 0. -/
def Agrees (h : Hash160) (ms : List Move) : Prop :=
  2 ^ 64 ∣ (credits h (split h ms).before).length ∧ 2 ^ 64 ∣ (debits h (split h ms).before).length ∧
    (debits h (split h ms).since ≠ [] ∨
      (trail (split h ms).before).times.headD 0 = lastTime 0 (debits h (split h ms).before))

/-- Balances stay in the range of an unsigned sum. -/
def Solvent (ms : List Move) : Prop :=
  ∀ h, ∀ pre, pre <+: ms → 0 ≤ sumOf h pre ∧ sumOf h pre < 2 ^ 64

variable {cfg : Config} {h : Hash160} {m : Move} {ms : List Move} {b : Books} {r : Row}

/-- A row after some more moves. -/
def rowAfter (r : Row) (ms : List Move) : Row := ms.foldl (fun r m => r.add m.time m.value) r

theorem rowAfter_append (r : Row) (m : Move) :
    rowAfter r (ms ++ [m]) = (rowAfter r ms).add m.time m.value := by
  simp [rowAfter]

theorem lastTime_append (time : BitVec 32) (ms : List Move) (m : Move) :
    lastTime time (ms ++ [m]) = m.time := by
  simp [lastTime]

theorem rowAfter_eq (r : Row) (ms : List Move) : rowAfter r ms =
    ⟨r.sum + BitVec.ofInt 64 (ms.map Move.value).sum,
      r.nbIn + BitVec.ofNat 64 (ms.filter (0 < ·.value)).length,
      r.nbOut + BitVec.ofNat 64 (ms.filter (·.value ≤ 0)).length,
      lastTime r.lastIn (ms.filter (0 < ·.value)), lastTime r.lastOut (ms.filter (·.value ≤ 0))⟩ := by
  induction ms using List.reverseRecOn with
  | nil => simp [rowAfter, lastTime]
  | append_singleton ms m ih =>
    have hsum : ((ms ++ [m]).map Move.value).sum = (ms.map Move.value).sum + m.value := by simp
    rw [rowAfter_append, ih, hsum, BitVec.ofInt_add]
    unfold Row.add
    by_cases hv : 0 < m.value
    · have hv' : ¬m.value ≤ 0 := by omega
      simp only [List.filter_append, List.filter_cons, List.filter_nil, hv, hv', decide_true,
        decide_false, if_true, List.append_nil, lastTime_append, List.length_append,
        List.length_singleton, BitVec.ofNat_add, ← BitVec.add_assoc, Bool.false_eq_true, if_false]
      rfl
    · have hv' : m.value ≤ 0 := by omega
      simp only [List.filter_append, List.filter_cons, List.filter_nil, hv, hv', decide_true,
        decide_false, if_true, List.append_nil, lastTime_append, List.length_append,
        List.length_singleton, BitVec.ofNat_add, ← BitVec.add_assoc, Bool.false_eq_true, if_false]
      rfl

theorem Books.run_append (detailed : Bool) (ms : List Move) (m : Move) :
    Books.run detailed (ms ++ [m]) = (Books.run detailed ms).apply detailed m := by
  simp [Books.run]

theorem Books.apply_of_ne (detailed : Bool) (b : Books) (hm : m.hash ≠ h) :
    (b.apply detailed m).rows h = b.rows h := by
  unfold Books.apply
  dsimp only
  split <;> exact Function.update_of_ne (Ne.symm hm) ..

/-- With `--detailed` the row of an address has all its moves. -/
theorem detailed_row (ms : List Move) (h : Hash160) : (Books.run true ms).spare = [] ∧
    (Books.run true ms).row h = rowAfter ⟨0, 0, 0, 0, 0⟩ (movesFor h ms) ∧
    ((Books.run true ms).rows h = none ↔ movesFor h ms = []) := by
  induction ms using List.reverseRecOn with
  | nil => exact ⟨rfl, rfl, by simp [Books.run, Books.start, movesFor]⟩
  | append_singleton ms m ih =>
    obtain ⟨hspare, hrow, hnone⟩ := ih
    have happ : (Books.run true (ms ++ [m])) =
        ⟨Function.update (Books.run true ms).rows m.hash
          (some (((Books.run true ms).row m.hash).add m.time m.value)), []⟩ := by
      rw [Books.run_append, Books.apply, if_neg (by simp), Books.left, hspare]
      simp
    by_cases hm : m.hash = h
    · subst hm
      rw [happ, movesFor_append, movesFor_self, rowAfter_append, ← hrow]
      simp [Books.row]
    · rw [happ, movesFor_append, movesFor_of_ne hm, List.append_nil, ← hrow, ← hnone]
      simp [Books.row, Ne.symm hm, hspare]

theorem split_append (h : Hash160) (ms : List Move) (m : Move) :
    split h (ms ++ [m]) = (split h ms).step h m := by
  simp [split]

/-- What the plain mode holds for `h`: nothing, or a row with the moves since it was made. -/
structure Held (h : Hash160) (ms : List Move) (x : Split) : Prop where
  moves : x.before ++ x.since = ms
  none : (Books.run false x.before).rows h = none
  row : x.since ≠ [] → (Books.run false ms).rows h =
    some (rowAfter ((Books.run false x.before).row h) (movesFor h x.since))

theorem Held.row_eq {x : Split} (hx : Held h ms x) : (Books.run false ms).row h =
    rowAfter ((Books.run false x.before).row h) (movesFor h x.since) := by
  by_cases hs : x.since = []
  · have hms := hx.moves
    rw [hs, List.append_nil] at hms
    rw [hms, hs]
    rfl
  · rw [Books.row, hx.row hs]
    rfl

theorem row_sum_of_none (hn : b.rows h = none) : (b.row h).sum = 0 := by
  rw [Books.row, hn]
  rfl

theorem Held.step {x : Split} (hx : Held h ms x) (m : Move) :
    Held h (ms ++ [m]) (x.step h m) := by
  unfold Split.step
  by_cases hm : m.hash = h
  · subst hm
    have hsince : ¬(x.since = [] ∧ m.hash ≠ m.hash) := fun hs => hs.2 rfl
    have hrow : ((Books.run false ms).row m.hash).add m.time m.value =
        rowAfter ((Books.run false x.before).row m.hash) (movesFor m.hash (x.since ++ [m])) := by
      rw [movesFor_append, movesFor_self, rowAfter_append, hx.row_eq]
    have hsum : (((Books.run false ms).row m.hash).add m.time m.value).sum =
        BitVec.ofInt 64 (sumOf m.hash (x.since ++ [m])) := by
      rw [hrow, rowAfter_eq, row_sum_of_none hx.none, sumOf]
      exact BitVec.zero_add _
    have hms : x.before ++ (x.since ++ [m]) = ms ++ [m] := by
      rw [← List.append_assoc, hx.moves]
    simp only [if_neg hsince, true_and]
    by_cases h0 : BitVec.ofInt 64 (sumOf m.hash (x.since ++ [m])) = 0
    · rw [if_pos h0]
      refine ⟨by rw [List.append_nil, hms], ?_, fun hs => absurd rfl hs⟩
      dsimp only
      rw [hms, Books.run_append, Books.apply, if_pos ⟨rfl, hsum.trans h0⟩]
      exact Function.update_self ..
    · rw [if_neg h0]
      refine ⟨hms, hx.none, ?_⟩
      intro _
      rw [Books.run_append, Books.apply, if_neg (fun hs => h0 (hsum.symm.trans hs.2)), hrow]
      exact Function.update_self ..
  · by_cases hs : x.since = []
    · have hms := hx.moves
      rw [hs, List.append_nil] at hms
      simp only [hs, hm, ne_eq, not_false_eq_true, and_self, if_true, false_and, if_false]
      refine ⟨by rw [List.append_nil, hms], ?_, fun hs => absurd rfl hs⟩
      rw [Books.run_append, Books.apply_of_ne false _ hm]
      exact hx.none
    · simp only [hs, hm, false_and, if_false]
      refine ⟨by rw [← List.append_assoc, hx.moves], hx.none, ?_⟩
      intro _
      rw [Books.run_append, Books.apply_of_ne false _ hm, hx.row hs, movesFor_append,
        movesFor_of_ne hm, List.append_nil]

theorem split_held (h : Hash160) (ms : List Move) : Held h ms (split h ms) := by
  induction ms using List.reverseRecOn with
  | nil => exact ⟨rfl, rfl, fun hs => absurd rfl hs⟩
  | append_singleton ms m ih =>
    rw [split_append]
    exact ih.step m

theorem Solvent.initial {pre : List Move} (hs : Solvent ms) (hp : pre <+: ms) : Solvent pre :=
  fun h p hpre => hs h p (hpre.trans hp)

theorem Solvent.ofInt_eq_zero (hs : Solvent ms) (h : Hash160) :
    BitVec.ofInt 64 (sumOf h ms) = 0 ↔ sumOf h ms = 0 := by
  obtain ⟨h0, h1⟩ := hs h ms (List.prefix_refl ms)
  constructor
  · intro he
    have := congrArg BitVec.toNat he
    rw [BitVec.toNat_ofInt] at this
    simp at this
    omega
  · intro he
    rw [he]
    rfl

theorem Books.apply_ne_zero (b : Books) (m : Move)
    (hb : ∀ h r, b.rows h = some r → r.sum ≠ 0) :
    ∀ h r, (b.apply false m).rows h = some r → r.sum ≠ 0 := by
  intro h r hr
  unfold Books.apply at hr
  dsimp only at hr
  split at hr
  · by_cases hh : h = m.hash
    · subst hh
      simp at hr
    · exact hb h r (by simpa [hh] using hr)
  · next hn =>
    by_cases hh : h = m.hash
    · subst hh
      simp only [Function.update_self, Option.some.injEq] at hr
      subst hr
      exact fun h0 => hn ⟨rfl, h0⟩
    · exact hb h r (by simpa [hh] using hr)

/-- The plain mode holds no row with the sum 0. -/
theorem run_ne_zero (ms : List Move) : ∀ h r, (Books.run false ms).rows h = some r → r.sum ≠ 0 := by
  induction ms using List.reverseRecOn with
  | nil =>
    intro h r hr
    cases hr
  | append_singleton ms m ih =>
    rw [Books.run_append]
    exact Books.apply_ne_zero _ m ih

theorem plain_rows_eq_none (ms : List Move) (h : Hash160) :
    (Books.run false ms).rows h = none ↔ BitVec.ofInt 64 (sumOf h ms) = 0 := by
  rw [← Books.run_sum false, Books.sum]
  cases hr : (Books.run false ms).rows h with
  | none => simp
  | some r => simpa using run_ne_zero ms h r hr

theorem Solvent.rows_eq_none (hs : Solvent ms) (h : Hash160) :
    (Books.run false ms).rows h = none ↔ sumOf h ms = 0 := by
  rw [plain_rows_eq_none, hs.ofInt_eq_zero]

theorem trail_append (ms : List Move) (m : Move) : trail (ms ++ [m]) = (trail ms).step m := by
  simp [trail]

theorem trail_bal (ms : List Move) (h : Hash160) : (trail ms).bal h = sumOf h ms := by
  induction ms using List.reverseRecOn with
  | nil => rfl
  | append_singleton ms m ih =>
    rw [trail_append, sumOf_append, ← ih]
    by_cases hm : m.hash = h
    · subst hm
      simp [Trail.step]
    · simp [Trail.step, sumOf_of_ne hm, Ne.symm hm]

theorem Row.add_lastOut (r : Row) (time : BitVec 32) {v : Int} (hv : v ≤ 0) :
    (r.add time v).lastOut = time := by
  rw [Row.add, if_neg (by omega)]

/-- The times of the debits in the cells that the plain mode gave back. -/
theorem Solvent.spare_eq (hs : Solvent ms) :
    (Books.run false ms).spare.map Prod.snd = (trail ms).times := by
  induction ms using List.reverseRecOn with
  | nil => rfl
  | append_singleton ms m ih =>
    have hpre : Solvent ms := hs.initial (List.prefix_append ms [m])
    have hleft : ((Books.run false ms).left m.hash).map Prod.snd =
        if (trail ms).bal m.hash = 0 then (trail ms).times.tail else (trail ms).times := by
      rw [trail_bal, Books.left, ← ih hpre]
      by_cases h0 : sumOf m.hash ms = 0
      · rw [if_pos h0, if_pos ((hpre.rows_eq_none _).mpr h0), List.map_tail]
      · rw [if_neg h0, if_neg fun hn => h0 ((hpre.rows_eq_none _).mp hn)]
    have hsum : (((Books.run false ms).row m.hash).add m.time m.value).sum = 0 ↔
        (trail ms).bal m.hash + m.value = 0 := by
      rw [trail_bal, Row.add_sum, Books.row_sum, Books.run_sum, ← BitVec.ofInt_add, ← sumOf_self m,
        ← sumOf_append, hs.ofInt_eq_zero]
    rw [Books.run_append, trail_append, Trail.step, Books.apply]
    dsimp only
    by_cases h0 : (trail ms).bal m.hash + m.value = 0
    · have hle : m.value ≤ 0 := by
        have := (hpre m.hash ms (List.prefix_refl ms)).1
        rw [trail_bal] at h0
        omega
      rw [if_pos ⟨rfl, hsum.mpr h0⟩, if_pos h0, List.map_cons, hleft, Row.add_lastOut _ _ hle]
    · rw [if_neg fun hh => h0 (hsum.mp hh.2), if_neg h0, hleft]

theorem lastTime_append_list (time : BitVec 32) (ms ms' : List Move) :
    lastTime time (ms ++ ms') = lastTime (lastTime time ms) ms' := by
  unfold lastTime
  cases hl : ms'.getLast? with
  | none => simp [List.getLast?_append, hl]
  | some m => simp [List.getLast?_append, hl]

theorem lastTime_of_ne_nil (time time' : BitVec 32) (hms : ms ≠ []) :
    lastTime time ms = lastTime time' ms := by
  unfold lastTime
  rw [List.getLast?_eq_some_getLast hms]
  rfl

theorem lastTime_eq_iff (time time' : BitVec 32) (ms : List Move) :
    lastTime time ms = lastTime time' ms ↔ ms ≠ [] ∨ time = time' := by
  by_cases hms : ms = []
  · simp [hms, lastTime]
  · simp [hms, lastTime_of_ne_nil time time' hms]

/-- Two counters that start from 0 agree. -/
theorem ofNat_add_eq (a b : Nat) :
    (0 : BitVec 64) + BitVec.ofNat 64 b = 0 + BitVec.ofNat 64 (a + b) ↔ 2 ^ 64 ∣ a := by
  have hzero : ∀ x : BitVec 64, 0 + x = x := fun x => BitVec.zero_add x
  rw [hzero, hzero, ← BitVec.toNat_inj, BitVec.toNat_ofNat, BitVec.toNat_ofNat]
  omega

/-- Without a credit the balance would not be above 0. -/
theorem credits_ne_nil (h0 : 0 < sumOf h ms) : credits h ms ≠ [] := by
  intro hc
  have hle : ((movesFor h ms).map Move.value).sum ≤ ((movesFor h ms).map fun _ => 0).sum := by
    apply List.sum_le_sum
    intro m hm
    by_contra hpos
    have hmem : m ∈ credits h ms := List.mem_filter.mpr ⟨hm, by simpa using hpos⟩
    rw [hc] at hmem
    cases hmem
  rw [List.sum_map_zero] at hle
  rw [sumOf] at h0
  omega

theorem detailed_rows_eq_some (hne : sumOf h ms ≠ 0) : (Books.run true ms).rows h =
    some (rowAfter ⟨0, 0, 0, 0, 0⟩ (movesFor h ms)) := by
  obtain ⟨-, hrow, hnone⟩ := detailed_row ms h
  have hsome : (Books.run true ms).rows h ≠ none := by
    intro hn
    apply hne
    rw [sumOf, hnone.mp hn]
    rfl
  obtain ⟨r, hr⟩ := Option.ne_none_iff_exists'.mp hsome
  rw [hr, ← hrow, Books.row, hr]
  rfl

/-- Rows of the moves from somewhere on and of all moves, where those before add up to 0. -/
theorem rowAfter_eq_iff {before since : List Move} {lastIn lastOut : BitVec 32}
    (h0 : sumOf h before = 0) (hc : credits h since ≠ []) :
    rowAfter ⟨0, 0, 0, lastIn, lastOut⟩ (movesFor h since) =
        rowAfter ⟨0, 0, 0, 0, 0⟩ (movesFor h (before ++ since)) ↔
      2 ^ 64 ∣ (credits h before).length ∧ 2 ^ 64 ∣ (debits h before).length ∧
        (debits h since ≠ [] ∨ lastOut = lastTime 0 (debits h before)) := by
  have hsum : sumOf h (before ++ since) = sumOf h since := by
    rw [sumOf_append, h0, Int.zero_add]
  have hin : lastTime lastIn (credits h since) =
      lastTime (lastTime 0 (credits h before)) (credits h since) := lastTime_of_ne_nil _ _ hc
  have hcredits : (movesFor h (before ++ since)).filter (0 < ·.value) =
      credits h before ++ credits h since := by
    rw [movesFor_append, List.filter_append]
    rfl
  have hdebits : (movesFor h (before ++ since)).filter (·.value ≤ 0) =
      debits h before ++ debits h since := by
    rw [movesFor_append, List.filter_append]
    rfl
  rw [rowAfter_eq, rowAfter_eq, Row.mk.injEq, hcredits, hdebits, ← sumOf, ← sumOf, hsum,
    ← credits, ← debits]
  dsimp only
  rw [List.length_append, List.length_append, lastTime_append_list, lastTime_append_list, ← hin,
    lastTime_eq_iff lastOut]
  simp only [ofNat_add_eq, true_and]

/-- Where the balance of an address is not 0, its rows in the two modes are the same
exactly when nothing that the plain mode forgot makes a difference. -/
theorem rows_eq_iff (hs : Solvent ms) (hne : sumOf h ms ≠ 0) :
    (Books.run false ms).rows h = (Books.run true ms).rows h ↔ Agrees h ms := by
  have hx := split_held h ms
  have hpre : Solvent (split h ms).before := hs.initial ⟨_, hx.moves⟩
  have h0 : sumOf h (split h ms).before = 0 := (hpre.rows_eq_none h).mp hx.none
  have hsum : sumOf h ms = sumOf h (split h ms).since := by
    conv_lhs => rw [← hx.moves]
    rw [sumOf_append, h0, Int.zero_add]
  have hpos : 0 < sumOf h (split h ms).since := by
    have := (hs h ms (List.prefix_refl ms)).1
    omega
  have hsince : (split h ms).since ≠ [] := by
    intro he
    rw [he] at hpos
    exact Int.lt_irrefl 0 hpos
  have hstale : (Books.run false (split h ms).before).row h =
      ⟨0, 0, 0, ((Books.run false (split h ms).before).spare.headD (0, 0)).1,
        (trail (split h ms).before).times.headD 0⟩ := by
    rw [Books.row, hx.none, ← hpre.spare_eq]
    cases (Books.run false (split h ms).before).spare <;> rfl
  have hmoves : movesFor h ms = movesFor h ((split h ms).before ++ (split h ms).since) := by
    rw [hx.moves]
  rw [hx.row hsince, detailed_rows_eq_some hne, hstale, Option.some_inj, hmoves]
  exact rowAfter_eq_iff h0 (credits_ne_nil hpos)

variable {time : BitVec 32} {coins : Multiset Coin} {calls : List Call}

theorem sumOf_paid (ha : cfg.Allows h) (script : List UInt8) (v : Int) :
    sumOf h (paid cfg time script v).toList = if cfg.account script = some h then v else 0 := by
  unfold paid
  cases hacc : cfg.account script with
  | none => rfl
  | some h' =>
    rw [Option.bind_some]
    by_cases hh : h' = h
    · subst hh
      simp [ha, sumOf, movesFor]
    · by_cases ha' : cfg.Allows h'
      · simp [ha', hh, sumOf, movesFor]
      · simp [ha', hh, sumOf, movesFor]

theorem total_after (hsmall : AllBalances.Small coins) {c : Call} (hs : Spends coins c) (ha : cfg.Allows h) :
    (total cfg (unspentAfter coins c) h : Int) =
      total cfg coins h + sumOf h (moveOf cfg time c).toList := by
  cases c with
  | endOutput p value txHash outputIndex outputScript size =>
    rw [moveOf, sumOf_paid ha, toInt64_of_lt hs, unspentAfter, total_cons]
    split <;> simp_all [Int.add_comm]
  | edge value upTXHash outputIndex outputScript size downTXHash inputIndex inputScript inputSize =>
    rw [moveOf, sumOf_paid ha, toInt64_of_lt (hsmall _ hs), unspentAfter, total_erase hs]
    split <;> simp_all
  | _ => exact (Int.add_zero _).symm

/-- In a valid run the moves add up to the unspent outputs, wherever they are cut. -/
theorem ValidCalls.moves (hv : ValidCalls cfg coins calls) (hsmall : AllBalances.Small coins)
    (ha : cfg.Allows h) (hlt : total cfg coins h < 2 ^ 64) :
    (total cfg (calls.foldl unspentAfter coins) h : Int) =
        total cfg coins h + sumOf h (movesOf cfg time calls) ∧
      ∀ pre, pre <+: movesOf cfg time calls →
        0 ≤ total cfg coins h + sumOf h pre ∧ total cfg coins h + sumOf h pre < 2 ^ 64 := by
  induction calls generalizing coins time with
  | nil =>
    refine ⟨(Int.add_zero _).symm, ?_⟩
    intro pre hp
    rw [List.prefix_nil.mp hp]
    simp only [sumOf, movesFor, List.filter_nil, List.map_nil, List.sum_nil]
    omega
  | cons c calls ih =>
    obtain ⟨hs, hlt', hv'⟩ := hv
    have hafter := @total_after cfg h time coins hsmall c hs ha
    obtain ⟨hsum, hpre⟩ := @ih (timeAfter cfg time c) _ hv' (hsmall.after hs) (hlt' h)
    refine ⟨?_, ?_⟩
    · rw [List.foldl_cons, hsum, movesOf, sumOf_append, hafter, Int.add_assoc]
    · intro pre hp
      rw [movesOf] at hp
      cases hm : moveOf cfg time c with
      | none =>
        rw [hm] at hp hafter
        have := hpre pre hp
        rw [hafter] at this
        simpa [sumOf, movesFor] using this
      | some m =>
        rw [hm] at hp hafter
        cases pre with
        | nil =>
          simp only [sumOf, movesFor, List.filter_nil, List.map_nil, List.sum_nil]
          omega
        | cons m' pre =>
          obtain ⟨rfl, hrest⟩ := List.cons_prefix_cons.mp (show m' :: pre <+: m :: _ from hp)
          have := hpre pre hrest
          rw [hafter] at this
          rw [← List.singleton_append, sumOf_append]
          simp only [Option.toList_some] at this
          omega

theorem movesFor_of_not_allowed (ha : ¬cfg.Allows h) (hms : ∀ m ∈ ms, cfg.Allows m.hash) :
    movesFor h ms = [] := by
  apply List.filter_eq_nil_iff.mpr
  intro m hm
  have hne : m.hash ≠ h := by
    intro he
    exact ha (he ▸ hms m hm)
  simpa using hne

theorem ValidCalls.solvent (hv : ValidCalls cfg 0 calls) : Solvent (movesOf cfg time calls) := by
  intro h pre hp
  by_cases ha : cfg.Allows h
  · have := (@ValidCalls.moves cfg h time 0 calls hv (by simp [AllBalances.Small]) ha (by simp [total])).2 pre hp
    simpa [total] using this
  · have hnil : movesFor h pre = [] := by
      apply movesFor_of_not_allowed ha
      exact fun m hm => movesOf_allowed (hp.subset hm)
    rw [sumOf, hnil]
    decide

def withMode (cfg : Config) (detailed : Bool) : Config := { cfg with detailed := detailed }

theorem movesOf_withMode (detailed : Bool) (time : BitVec 32) (calls : List Call) :
    movesOf (withMode cfg detailed) time calls = movesOf cfg time calls := by
  induction calls generalizing time with
  | nil => rfl
  | cons c calls ih =>
    rw [movesOf, movesOf, ih]
    rfl

/-- The row wrapup finds for `h` in one of the modes. -/
def finalRow (cfg : Config) (detailed : Bool) (calls : List Call) (h : Hash160) : Option Row :=
  ((calls.foldl (AllBalances.onCall (withMode cfg detailed)) AllBalances.start).record h).map rowOf

theorem finalRow_eq (detailed : Bool) (calls : List Call) :
    finalRow cfg detailed calls h = (Books.run detailed (movesOf cfg 0 calls)).rows h := by
  rw [finalRow, run_rows, movesOf_withMode]
  rfl

/-- After a valid run, the two modes have the same row for an address that has something
left exactly when nothing that the plain mode forgot makes a difference. -/
theorem finalRow_eq_iff (cfg : Config) (calls : List Call) (hv : ValidCalls cfg 0 calls)
    (h : Hash160) (hne : total cfg (calls.foldl unspentAfter 0) h ≠ 0) :
    (cfg.Allows h → (finalRow cfg false calls h = finalRow cfg true calls h ↔
      Agrees h (movesOf cfg 0 calls))) ∧
    (¬cfg.Allows h → finalRow cfg false calls h = finalRow cfg true calls h) := by
  have hs : Solvent (movesOf cfg 0 calls) := ValidCalls.solvent hv
  rw [finalRow_eq, finalRow_eq]
  constructor
  · intro ha
    have hsum := (@ValidCalls.moves cfg h 0 0 calls hv (by simp [AllBalances.Small]) ha (by simp [total])).1
    apply rows_eq_iff hs
    intro h0
    rw [h0] at hsum
    simp [total] at hsum
    exact hne (by simpa [total] using hsum)
  · intro ha
    have hnil : movesFor h (movesOf cfg 0 calls) = [] :=
      movesFor_of_not_allowed ha fun m hm => movesOf_allowed hm
    have hplain : (Books.run false (movesOf cfg 0 calls)).rows h = none := by
      apply (hs.rows_eq_none h).mpr
      rw [sumOf, hnil]
      rfl
    rw [hplain, ((detailed_row _ h).2.2.mpr hnil)]

def payee : Hash160 := ⟨List.replicate 20 7, AllBalances.length_sevens⟩

/-- An output of 5 coins, and one of 3 when the first is spent. -/
def refillCalls : List Call :=
  smallCalls ++ [.endOutput 0 3 noHash 1 payScript 25]

theorem refillCalls_valid : ValidCalls smallConfig 0 refillCalls := by
  have hle : ∀ coins h, total smallConfig coins h ≤ (coins.map Coin.value).sum := fun _ _ =>
    Balance.balance_le
  refine ⟨by simp [Spends], ?_, by simp [Spends, unspentAfter], ?_, by simp [Spends], ?_, trivial⟩
  · intro h
    exact Nat.lt_of_le_of_lt (hle _ h) (by decide)
  · intro h
    exact Nat.lt_of_le_of_lt (hle _ h) (by decide)
  · intro h
    exact Nat.lt_of_le_of_lt (hle _ h) (by decide)

/-- After it is spent and there is another, the plain mode counts one output received and
none spent, the other two and one. -/
theorem finalRow_refillCalls :
    finalRow smallConfig false refillCalls payee ≠ finalRow smallConfig true refillCalls payee := by
  rw [finalRow_eq, finalRow_eq]
  decide +kernel

end Blockparser.Modes
