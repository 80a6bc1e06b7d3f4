import Blockparser.Replay

/-! Where allBalances stops: at the block of `--atBlock` or when it is interrupted. -/
namespace Blockparser.AtBlock
open Bytes Trace MemoryManager Segments Blockparser.Parser Cursor Transaction Chain Replay
open Protocol (txWords txsWords blockWords cutAt asked)
open BlockIndex (gNullBlock)

/-- The value of `--atBlock`, -1 by default, and the heights of the blocks. -/
structure Config where
  cutoffBlock : Int
  height : BlockRef → Int

structure State where
  isDone : Bool
  curBlock : Option BlockRef

def init : State := ⟨false, none⟩

variable (cfg : Config)

def startBlock (s : State) (b : BlockRef) : State where
  isDone := s.isDone || (decide (0 ≤ cfg.cutoffBlock) && decide (cfg.cutoffBlock ≤ cfg.height b))
  curBlock := some b

def onCall (s : State) : Call → State
  | .startBlock b => startBlock cfg s b
  | _ => s

/-- What the callback answers, `interrupted` by SIGINT or not. -/
def done (interrupted : Bool) (s : State) : Bool × State :=
  let s := if interrupted then { s with isDone := true } else s
  (s.isDone, s)

/-- `sigint` is the first time done is called with the signal behind it, if it comes. -/
def interrupted (sigint : Option Nat) (k : Nat) : Bool := sigint.any (· ≤ k)

/-- The calls behind which the parser asks whether the callback is done. -/
def isAsk : Call → Bool
  | .endTX _ | .endBlock _ => true
  | _ => false

/-- The answers of `env` are those of the callback during a run with these calls. -/
def Answers (sigint : Option Nat) (env : Env) (w : List Call) : Prop :=
  ∀ n (hn : n < w.length), isAsk w[n] = true → env.done ((w.take n).countP isAsk) =
    (done (interrupted sigint ((w.take n).countP isAsk)) ((w.take (n + 1)).foldl (onCall cfg) init)).1

instance (cfg : Config) (sigint : Option Nat) (env : Env) (w : List Call) :
    Decidable (Answers cfg sigint env w) :=
  inferInstanceAs (Decidable (∀ n (hn : n < w.length), isAsk w[n] = true → _ = _))

/-- The transactions whose moves are applied, each by its block and its place there. -/
def applied : BlockRef → Nat → List Call → List (BlockRef × Nat)
  | _, _, [] => []
  | _, _, .startBlock b :: w => applied b 0 w
  | b, i, .startTX _ _ :: w => (b, i) :: applied b (i + 1) w
  | b, i, _ :: w => applied b i w

/-- The number of transactions in a block. -/
def nbTX (env : Env) (data : BlockRef → Memory) (b : BlockRef) : Nat :=
  (loadVarInt (data b) (afterHeader env.coin 0)).1

/-- How often done is called before the `j`-th of some blocks when they are parsed to their ends. -/
def asksBefore (ns : List Nat) (j : Nat) : Nat := ((ns.take j).map (· + 1)).sum

variable {cfg} {env : Env} {data : BlockRef → Memory} {m : Memory} {b : BlockRef} {s : State}
  {w u v : List Call} {c : Call} {ns : List Nat} {i j k n : Nat} {sigint : Option Nat}

theorem exists_ask (hi : i < w.countP isAsk) :
    ∃ v c, v ++ [c] <+: w ∧ isAsk c = true ∧ v.countP isAsk = i := by
  induction w using List.reverseRecOn with
  | nil => simp at hi
  | append_singleton w c ih =>
    rw [List.countP_append] at hi
    by_cases hlt : i < w.countP isAsk
    · obtain ⟨v, d, hv, hd, hcount⟩ := ih hlt
      exact ⟨v, d, hv.trans (List.prefix_append w [c]), hd, hcount⟩
    · by_cases hc : isAsk c = true
      · refine ⟨w, c, List.prefix_rfl, hc, ?_⟩
        simp [hc] at hi
        omega
      · simp [hc] at hi
        omega

/-- The answers from one state on, when the next one is the `k`-th. -/
def AnswersFrom (cfg : Config) (sigint : Option Nat) (env : Env) (k : Nat) (s : State)
    (w : List Call) : Prop :=
  ∀ v c, v ++ [c] <+: w → isAsk c = true → env.done (k + v.countP isAsk) =
    (done (interrupted sigint (k + v.countP isAsk)) ((v ++ [c]).foldl (onCall cfg) s)).1

theorem Answers.from (h : Answers cfg sigint env w) : AnswersFrom cfg sigint env 0 init w := by
  intro v c hv hc
  obtain ⟨u, rfl⟩ := hv
  have hn : v.length < (v ++ [c] ++ u).length := by simp
  have hget : (v ++ [c] ++ u)[v.length] = c := by simp
  have htake : (v ++ [c] ++ u).take v.length = v := by simp
  have htake' : (v ++ [c] ++ u).take (v.length + 1) = v ++ [c] := by
    rw [List.take_left' (by simp)]
  have hask := h v.length hn (by rw [hget]; exact hc)
  rw [htake, htake'] at hask
  rwa [Nat.zero_add]

theorem AnswersFrom.split (h : AnswersFrom cfg sigint env k s (w ++ u)) :
    AnswersFrom cfg sigint env k s w ∧
      AnswersFrom cfg sigint env (k + w.countP isAsk) (w.foldl (onCall cfg) s) u := by
  constructor
  · intro v c hv hc
    exact h v c (hv.trans (List.prefix_append w u)) hc
  · intro v c hv hc
    have hwv : w ++ v ++ [c] <+: w ++ u := by
      rw [List.append_assoc]
      exact (List.prefix_append_right_inj w).mpr hv
    have hask := h (w ++ v) c hwv hc
    rwa [List.countP_append, List.append_assoc, List.foldl_append, ← Nat.add_assoc] at hask

/-- A part of the calls of block `b`, from its `k`-th transaction on: `n` transactions,
and `a` calls behind which the callback is asked. -/
structure Part (b : BlockRef) (k n a : Nat) (w : List Call) : Prop where
  quiet : ∀ c ∈ w, ∀ (cfg : Config) s, onCall cfg s c = s
  asks : w.countP isAsk = a
  applied : ∀ u, applied b k (w ++ u) = (List.range' k n).map (b, ·) ++ AtBlock.applied b (k + n) u

theorem Part.nil (b : BlockRef) (k : Nat) : Part b k 0 0 [] := by
  refine ⟨?_, rfl, fun u => rfl⟩
  intro c hc
  cases hc

theorem Part.append {n' a a' : Nat} (hw : Part b k n a w) (hu : Part b (k + n) n' a' u) :
    Part b k (n + n') (a + a') (w ++ u) where
  quiet := by
    intro c hc
    cases List.mem_append.mp hc with
    | inl hc => exact hw.quiet c hc
    | inr hc => exact hu.quiet c hc
  asks := by rw [List.countP_append, hw.asks, hu.asks]
  applied := by
    intro v
    rw [List.append_assoc, hw.applied, hu.applied, ← List.append_assoc, ← List.map_append,
      List.range'_append_1, Nat.add_assoc]

/-- Calls that are no part of a transaction and start no block. -/
def isAround : Call → Bool
  | .startTX .. | .startBlock _ | .endTX _ | .endBlock _ => false
  | _ => true

theorem Part.around (hc : isAround c = true) (b : BlockRef) (k : Nat) : Part b k 0 0 [c] := by
  refine ⟨?_, ?_, ?_⟩
  · intro d hd
    rw [List.mem_singleton.mp hd]
    cases c <;> first | exact fun _ _ => rfl | cases hc
  · cases c <;> first | rfl | cases hc
  · intro u
    cases c <;> first | rfl | cases hc

theorem Part.ask (hc : isAsk c = true) (b : BlockRef) (k : Nat) : Part b k 0 1 [c] := by
  refine ⟨?_, ?_, ?_⟩
  · intro d hd
    rw [List.mem_singleton.mp hd]
    cases c <;> first | exact fun _ _ => rfl | cases hc
  · cases c <;> first | rfl | cases hc
  · intro u
    cases c <;> first | rfl | cases hc

theorem Part.body {mid : List Call} (hmid : ∀ c ∈ mid, isBody c = true) (b : BlockRef) (k : Nat) :
    Part b k 0 0 mid := by
  induction mid with
  | nil => exact Part.nil b k
  | cons c mid ih =>
    have hc : isAround c = true := by
      have := hmid c (List.mem_cons_self ..)
      cases c <;> first | rfl | cases this
    exact (Part.around hc b k).append (ih fun d hd => hmid d (List.mem_cons_of_mem c hd))

theorem Part.startTX (p : Ptr) (h : HashArg) (b : BlockRef) (k : Nat) :
    Part b k 1 0 [.startTX p h] := by
  refine ⟨?_, rfl, fun u => rfl⟩
  intro c hc
  rw [List.mem_singleton.mp hc]
  exact fun _ _ => rfl

theorem txWords_part {coin : Coin} {need : Bool} {p : Ptr} (hw : w ∈ txWords coin need m p)
    (b : BlockRef) (k : Nat) : Part b k 1 1 w := by
  obtain ⟨h, mid, rfl, hmid⟩ := txWords_shape hw
  have hbody := Part.body hmid b (k + 1)
  exact (Part.startTX p h b k).append (hbody.append (Part.ask rfl b (k + 1)))

theorem txsWords_part {coin : Coin} {need : Bool} {p : Ptr} (n : Nat)
    (hw : w ∈ txsWords coin need m n p) (b : BlockRef) (k : Nat) : Part b k n n w := by
  induction n generalizing p w k with
  | zero =>
    cases hw
    exact Part.nil b k
  | succ n ih =>
    obtain ⟨t, ht, rest, hrest, rfl⟩ := hw
    have hpart := (txWords_part ht b k).append (ih hrest (k + 1))
    rwa [Nat.add_comm 1 n] at hpart

/-- Behind its startBlock a block is one part. -/
theorem blockWords_part {coin : Coin} {need : Bool} {cut : Nat × Bool}
    (hw : w ∈ blockWords coin need b m cut) :
    ∃ u, w = .startBlock b :: u ∧ Part b 0 cut.1 (asked cut) u := by
  obtain ⟨_, rfl, _, ⟨_, rfl, _, ⟨txs, htxs, v, hv, rfl⟩, rfl⟩, rfl⟩ := hw
  refine ⟨_, rfl, ?_⟩
  have htxs' := (Part.around (c := .startTXs (afterHeader coin 0)) rfl b 0).append
    (txsWords_part cut.1 htxs b 0)
  unfold asked
  split at hv
  · rename_i hcut
    cases hv
    rw [if_pos hcut]
    simpa using htxs'
  · rename_i hcut
    cases hv
    rw [if_neg hcut]
    have hend : ∀ p k, Part b k 0 1 [.endTXs p, .endBlock b] := fun p k =>
      (Part.around (c := .endTXs p) rfl b k).append (Part.ask (c := .endBlock b) rfl b k)
    simpa using htxs'.append (hend _ _)

theorem cutAt_early {done : Nat → Bool} (h : (cutAt done k n).2 = true) :
    ∃ i < n, cutAt done k n = (i + 1, true) ∧ done (k + i) = true ∧ ∀ d < i, done (k + d) = false := by
  induction n generalizing k with
  | zero => cases h
  | succ n ih =>
    rw [cutAt] at h ⊢
    split at h
    · rename_i hd
      exact ⟨0, Nat.succ_pos n, by rw [if_pos hd], hd, fun d hd => absurd hd (Nat.not_lt_zero d)⟩
    · rename_i hd
      obtain ⟨i, hi, hcut, hdone, hbefore⟩ := ih h
      refine ⟨i + 1, Nat.succ_lt_succ hi, ?_, ?_, ?_⟩
      · rw [if_neg hd, hcut]
      · rw [← hdone]
        congr 1
        omega
      · intro d hlt
        cases d with
        | zero => exact Bool.not_eq_true _ ▸ hd
        | succ d =>
          rw [← hbefore d (by omega)]
          congr 1
          omega

theorem cutAt_late {done : Nat → Bool} (h : (cutAt done k n).2 = false) :
    ∀ d < n, done (k + d) = false := by
  induction n generalizing k with
  | zero => exact fun d hd => absurd hd (Nat.not_lt_zero d)
  | succ n ih =>
    rw [cutAt] at h
    split at h
    · cases h
    · rename_i hd
      intro d hlt
      cases d with
      | zero => exact Bool.not_eq_true _ ▸ hd
      | succ d =>
        rw [← ih h d (by omega)]
        congr 1
        omega

/-- The calls of a run over some blocks whose first answer is the `k`-th, and whether the
callback was done: then it was behind the `i`-th transaction of a block or, when the block
has no more than `i`, behind its end. -/
inductive Ran (env : Env) (data : BlockRef → Memory) : Nat → List BlockRef → Bool → List Call → Prop
  | nil {k : Nat} : Ran env data k [] false []
  | stop {k : Nat} {b : BlockRef} {refs : List BlockRef} {i : Nat} {u : List Call}
      (part : Part b 0 (min (i + 1) (nbTX env data b)) (i + 1) u) (le : i ≤ nbTX env data b)
      (before : ∀ d < i, env.done (k + d) = false) (last : env.done (k + i) = true) :
      Ran env data k (b :: refs) true (.startBlock b :: u)
  | next {k : Nat} {b : BlockRef} {refs : List BlockRef} {r : Bool} {u w : List Call}
      (part : Part b 0 (nbTX env data b) (nbTX env data b + 1) u)
      (before : ∀ d < nbTX env data b + 1, env.done (k + d) = false)
      (rest : Ran env data (k + (nbTX env data b + 1)) refs r w) :
      Ran env data k (b :: refs) r (.startBlock b :: (u ++ w))

theorem parseBlock_ran {r : Bool} {x x' : Blockparser.Parser.State}
    (h : parseBlock env b (data b) x = .ok r x') : ∃ u, x'.calls = x.calls ++ .startBlock b :: u ∧
      x'.nbDone = x.nbDone + u.countP isAsk ∧
      ((r = true ∧ ∃ i ≤ nbTX env data b, Part b 0 (min (i + 1) (nbTX env data b)) (i + 1) u ∧
          (∀ d < i, env.done (x.nbDone + d) = false) ∧ env.done (x.nbDone + i) = true) ∨
        (r = false ∧ Part b 0 (nbTX env data b) (nbTX env data b + 1) u ∧
          ∀ d < nbTX env data b + 1, env.done (x.nbDone + d) = false)) := by
  have hwords := @Protocol.parseBlock_words env _ (data b) b x rfl
  rw [h] at hwords
  obtain ⟨hr, hnb, w, hw, hcalls⟩ := hwords
  obtain ⟨u, rfl, hpart⟩ := blockWords_part hw
  refine ⟨u, hcalls, ?_, ?_⟩
  · rw [hnb, hpart.asks]
  · cases hcut : (cutAt env.done x.nbDone (nbTX env data b)).2 with
    | true =>
      obtain ⟨i, hi, heq, hdone, hbefore⟩ := cutAt_early hcut
      have heq' : cutAt env.done x.nbDone (loadVarInt (data b) (afterHeader env.coin 0)).1 =
          (i + 1, true) := heq
      rw [heq'] at hpart hr
      have hmin : min (i + 1) (nbTX env data b) = i + 1 := Nat.min_eq_left hi
      refine Or.inl ⟨hr, i, Nat.le_of_lt hi, ?_, hbefore, hdone⟩
      rw [hmin]
      exact hpart
    | false =>
      have hbefore := cutAt_late hcut
      have heq' : cutAt env.done x.nbDone (loadVarInt (data b) (afterHeader env.coin 0)).1 =
          (nbTX env data b, false) := cutAt_whole hcut
      rw [heq'] at hpart hr
      have hr' : r = env.done (x.nbDone + nbTX env data b) := hr
      have hmin : min (nbTX env data b + 1) (nbTX env data b) = nbTX env data b :=
        Nat.min_eq_right (Nat.le_succ _)
      cases hlast : env.done (x.nbDone + nbTX env data b) with
      | true =>
        refine Or.inl ⟨hr'.trans hlast, nbTX env data b, le_refl _, ?_, hbefore, hlast⟩
        rw [hmin]
        exact hpart
      | false =>
        refine Or.inr ⟨hr'.trans hlast, hpart, ?_⟩
        intro d hd
        cases Nat.lt_succ_iff_lt_or_eq.mp hd with
        | inl hd => exact hbefore d hd
        | inr hd => rwa [hd]

theorem parseUntilDone_ran {refs : List BlockRef} {r : Bool} {x x' : Blockparser.Parser.State}
    (h : parseUntilDone env data refs x = .ok r x') : ∃ w, x'.calls = x.calls ++ w ∧
      x'.nbDone = x.nbDone + w.countP isAsk ∧ Ran env data x.nbDone refs r w := by
  induction refs generalizing x with
  | nil =>
    cases h
    exact ⟨[], by simp, rfl, Ran.nil⟩
  | cons b refs ih =>
    rw [parseUntilDone, run_bind] at h
    cases hb : parseBlock env b (data b) x with
    | error e y =>
      rw [hb] at h
      cases h
    | ok r' y =>
      rw [hb] at h
      obtain ⟨u, hcalls, hnb, hcase⟩ := parseBlock_ran hb
      cases hcase with
      | inl hstop =>
        obtain ⟨rfl, i, hle, hpart, hbefore, hlast⟩ := hstop
        cases h
        exact ⟨_, hcalls, hnb, Ran.stop hpart hle hbefore hlast⟩
      | inr hnext =>
        obtain ⟨rfl, hpart, hbefore⟩ := hnext
        obtain ⟨w, hcalls', hnb', hran⟩ := ih h
        refine ⟨.startBlock b :: (u ++ w), ?_, ?_, Ran.next hpart hbefore ?_⟩
        · rw [hcalls', hcalls, List.append_assoc]
          rfl
        · rw [hnb', hnb, List.countP_cons_of_neg (by simp [isAsk]), List.countP_append, Nat.add_assoc]
        · rwa [hnb, hpart.asks] at hran

theorem asksBefore_cons (n : Nat) (ns : List Nat) (j : Nat) :
    asksBefore (n :: ns) (j + 1) = n + 1 + asksBefore ns j := by
  simp [asksBefore]

/-- All the transactions of some blocks. -/
def wholes (env : Env) (data : BlockRef → Memory) (refs : List BlockRef) : List (BlockRef × Nat) :=
  refs.flatMap fun b => (List.range (nbTX env data b)).map (b, ·)

theorem wholes_cons (b : BlockRef) (refs : List BlockRef) : wholes env data (b :: refs) =
    (List.range' 0 (nbTX env data b)).map (b, ·) ++ wholes env data refs := by
  rw [wholes, List.flatMap_cons, List.range_eq_range']
  rfl

abbrev sizes (env : Env) (data : BlockRef → Memory) (refs : List BlockRef) : List Nat :=
  refs.map (nbTX env data)

theorem sizes_getElem? {refs : List BlockRef} :
    (sizes env data refs)[j]? = some n ↔ ∃ b, refs[j]? = some b ∧ nbTX env data b = n := by
  rw [List.getElem?_map, Option.map_eq_some_iff]

/-- The run is stopped in block `j` with its `i`-th answer there. -/
structure StopsAt (env : Env) (data : BlockRef → Memory) (k : Nat) (refs : List BlockRef)
    (w : List Call) (j i : Nat) (b : BlockRef) : Prop where
  block : refs[j]? = some b
  le : i ≤ nbTX env data b
  count : w.countP isAsk = asksBefore (sizes env data refs) j + i + 1
  before : ∀ d < asksBefore (sizes env data refs) j + i, env.done (k + d) = false
  last : env.done (k + (asksBefore (sizes env data refs) j + i)) = true
  applied : ∀ b' i', applied b' i' w = wholes env data (refs.take j) ++
    (List.range (min (i + 1) (nbTX env data b))).map (b, ·)

variable {refs : List BlockRef}

theorem asksBefore_next (b : BlockRef) (refs : List BlockRef) (j i : Nat) :
    asksBefore (sizes env data (b :: refs)) (j + 1) + i =
      nbTX env data b + 1 + (asksBefore (sizes env data refs) j + i) := by
  rw [sizes, List.map_cons, asksBefore_cons, Nat.add_assoc]

theorem Part.count_start {a : Nat} (h : Part b k n a u) (w : List Call) :
    (Call.startBlock b :: (u ++ w)).countP isAsk = a + w.countP isAsk := by
  rw [List.countP_cons_of_neg (by simp [isAsk]), List.countP_append, h.asks]

theorem Ran.stopped {r : Bool} (h : Ran env data k refs r w) (hr : r = true) :
    ∃ j i b, StopsAt env data k refs w j i b := by
  induction h with
  | nil => cases hr
  | @stop k b refs i u hpart hle hbefore hlast =>
    have hzero : asksBefore (sizes env data (b :: refs)) 0 + i = i := Nat.zero_add i
    refine ⟨0, i, b, rfl, hle, ?_, ?_, ?_, ?_⟩
    · have hcount := hpart.count_start []
      rwa [List.append_nil, List.countP_nil, Nat.add_zero, ← hzero] at hcount
    · rwa [hzero]
    · rwa [hzero]
    · intro b' i'
      have happ := hpart.applied []
      rw [List.append_nil, ← List.range_eq_range'] at happ
      exact happ.trans (List.append_nil _)
  | @next k b refs r u w hpart hbefore _ ih =>
    obtain ⟨j, i, c, hs⟩ := ih hr
    have hsum : _ = nbTX env data b + 1 + _ := asksBefore_next b refs j i
    refine ⟨j + 1, i, c, hs.block, hs.le, ?_, ?_, ?_, ?_⟩
    · rw [hpart.count_start, hs.count, hsum]
      rfl
    · intro d hd
      rw [hsum] at hd
      by_cases hlt : d < nbTX env data b + 1
      · exact hbefore d hlt
      · rw [← hs.before (d - (nbTX env data b + 1)) (by omega)]
        congr 1
        omega
    · rw [hsum, ← Nat.add_assoc]
      exact hs.last
    · intro b' i'
      rw [List.take_succ_cons, wholes_cons, List.append_assoc, ← hs.applied b (0 + nbTX env data b)]
      exact hpart.applied w

theorem Ran.ended {r : Bool} (h : Ran env data k refs r w) (hr : r = false) :
    (∀ d < w.countP isAsk, env.done (k + d) = false) ∧
      w.countP isAsk = asksBefore (sizes env data refs) refs.length := by
  induction h with
  | nil => exact ⟨fun d hd => absurd hd (Nat.not_lt_zero d), rfl⟩
  | stop => cases hr
  | @next k b refs r u w hpart hbefore _ ih =>
    obtain ⟨hfalse, hcount⟩ := ih hr
    rw [hpart.count_start]
    refine ⟨?_, ?_⟩
    · intro d hd
      by_cases hlt : d < nbTX env data b + 1
      · exact hbefore d hlt
      · rw [← hfalse (d - (nbTX env data b + 1)) (by omega)]
        congr 1
        omega
    · rw [sizes, List.map_cons, List.length_cons, asksBefore_cons, hcount]

theorem quiet_foldl (h : ∀ c ∈ u, ∀ (cfg : Config) s, onCall cfg s c = s) (cfg : Config) (s : State) :
    u.foldl (onCall cfg) s = s := foldl_ignored (fun c hc s => h c hc cfg s) s

/-- While a block is parsed the callback answers by what startBlock has left. -/
theorem Part.answers {a : Nat} (h : Part b 0 n a u)
    (hans : AnswersFrom cfg sigint env k s (.startBlock b :: u)) (hi : i < a) :
    env.done (k + i) = (interrupted sigint (k + i) || (startBlock cfg s b).isDone) := by
  rw [← h.asks] at hi
  obtain ⟨v, c, hv, hc, hcount⟩ := exists_ask hi
  have hpre : Call.startBlock b :: v ++ [c] <+: .startBlock b :: u :=
    (List.prefix_append_right_inj [Call.startBlock b]).mpr hv
  have hask := hans (.startBlock b :: v) c hpre hc
  rw [List.countP_cons_of_neg (by simp [isAsk]), hcount] at hask
  have hquiet : (v ++ [c]).foldl (onCall cfg) (startBlock cfg s b) = startBlock cfg s b :=
    quiet_foldl (fun d hd => h.quiet d (hv.subset hd)) cfg _
  rw [hask, List.cons_append, List.foldl_cons]
  change (done _ ((v ++ [c]).foldl (onCall cfg) (startBlock cfg s b))).1 = _
  rw [hquiet]
  unfold done
  cases interrupted sigint (k + i) <;> rfl

theorem Ran.answers {r : Bool} (h : Ran env data k refs r w)
    (hans : AnswersFrom cfg sigint env k s w) (hj : refs[j]? = some b) (hi : i ≤ nbTX env data b)
    (hlt : asksBefore (sizes env data refs) j + i < w.countP isAsk) :
    env.done (k + (asksBefore (sizes env data refs) j + i)) =
      (interrupted sigint (k + (asksBefore (sizes env data refs) j + i)) ||
        ((refs.take (j + 1)).foldl (startBlock cfg) s).isDone) := by
  induction h generalizing s j with
  | nil => cases hj
  | @stop k c refs i' u hpart hle hbefore hlast =>
    have hcount := hpart.count_start []
    rw [List.append_nil, List.countP_nil, Nat.add_zero] at hcount
    rw [hcount] at hlt
    cases j with
    | zero =>
      have hzero : asksBefore (sizes env data (c :: refs)) 0 + i = i := Nat.zero_add i
      rw [hzero] at hlt ⊢
      exact hpart.answers hans hlt
    | succ j =>
      rw [asksBefore_next] at hlt
      omega
  | @next k c refs r u w hpart hbefore _ ih =>
    have hsplit := AnswersFrom.split (w := .startBlock c :: u) hans
    cases j with
    | zero =>
      have hzero : asksBefore (sizes env data (c :: refs)) 0 + i = i := Nat.zero_add i
      cases hj
      rw [hzero]
      exact hpart.answers hsplit.1 (by omega)
    | succ j =>
      have hcount := hpart.count_start []
      rw [List.append_nil, List.countP_nil, Nat.add_zero] at hcount
      have hfold : (Call.startBlock c :: u).foldl (onCall cfg) s = startBlock cfg s c :=
        quiet_foldl hpart.quiet cfg _
      have hrest := hsplit.2
      rw [hcount, hfold] at hrest
      rw [hpart.count_start] at hlt
      rw [asksBefore_next] at hlt ⊢
      have hih := ih hrest hj (by omega)
      rw [Nat.add_assoc] at hih
      rw [hih]
      rfl

theorem asksBefore_succ (hn : ns[j]? = some n) : asksBefore ns (j + 1) = asksBefore ns j + n + 1 := by
  rw [asksBefore, List.take_add_one, hn, List.map_append, List.sum_append]
  rfl

theorem asksBefore_mono (ns : List Nat) : Monotone (asksBefore ns) := by
  refine monotone_nat_of_le_succ ?_
  intro j
  rw [asksBefore, asksBefore, List.take_add_one, List.map_append, List.sum_append]
  exact Nat.le_add_right _ _

/-- Each time done is called belongs to one block. -/
theorem asks_split (hk : k < asksBefore ns j) :
    ∃ j' i n, j' < j ∧ ns[j']? = some n ∧ i ≤ n ∧ k = asksBefore ns j' + i := by
  induction j with
  | zero => exact absurd hk (Nat.not_lt_zero k)
  | succ j ih =>
    by_cases hlt : k < asksBefore ns j
    · obtain ⟨j', i, n, hj, hrest⟩ := ih hlt
      exact ⟨j', i, n, Nat.lt_succ_of_lt hj, hrest⟩
    · cases hn : ns[j]? with
      | none =>
        rw [asksBefore, List.take_add_one, hn, Option.toList_none, List.append_nil] at hk
        exact absurd hk hlt
      | some n =>
        rw [asksBefore_succ hn] at hk
        exact ⟨j, k - asksBefore ns j, n, Nat.lt_succ_self j, hn, by omega, by omega⟩

theorem asks_le {i' j' : Nat} (hn : ns[j]? = some n) (hi : i ≤ n)
    (h : asksBefore ns j' + i' ≤ asksBefore ns j + i) : j' ≤ j := by
  by_contra hlt
  have hle := asksBefore_mono ns (Nat.succ_le_of_lt (Nat.lt_of_not_le hlt))
  rw [Nat.succ_eq_add_one, asksBefore_succ hn] at hle
  omega

/-- The callback wants to stop the `k`-th time it is asked: it is interrupted, or the block
whose height is the value of `--atBlock`, or else the first block, has begun. -/
def Wanted (cutoffBlock : Int) (sigint : Option Nat) (ns : List Nat) (k : Nat) : Prop :=
  (∃ t, sigint = some t ∧ t ≤ k) ∨
    0 ≤ cutoffBlock ∧ asksBefore ns (cutoffBlock - 1).toNat ≤ k

/-- The first time the callback wants to stop is behind the last transaction of a block or
behind its end, and without SIGINT that block has no transactions. `ns` are the numbers
of transactions of the blocks. -/
def Coherent (cutoffBlock : Int) (sigint : Option Nat) (ns : List Nat) : Prop :=
  ∀ j i n, ns[j]? = some n → i ≤ n → Wanted cutoffBlock sigint ns (asksBefore ns j + i) →
    (∀ k < asksBefore ns j + i, ¬Wanted cutoffBlock sigint ns k) →
    n ≤ i + 1 ∧ (sigint = none → n = 0)

/-- The heights along the chain, the first block's is 1. -/
def Climbs (height : BlockRef → Int) (refs : List BlockRef) : Prop :=
  ∀ i b, refs[i]? = some b → height b = (i + 1 : Nat)

theorem isDone_foldl (refs : List BlockRef) (s : State) :
    (refs.foldl (startBlock cfg) s).isDone = true ↔ s.isDone = true ∨
      ∃ b ∈ refs, 0 ≤ cfg.cutoffBlock ∧ cfg.cutoffBlock ≤ cfg.height b := by
  induction refs generalizing s with
  | nil => simp
  | cons b refs ih =>
    rw [List.foldl_cons, ih]
    simp [startBlock, or_assoc]

theorem isDone_iff (hh : Climbs cfg.height refs) (hj : refs[j]? = some b) (hi : i ≤ nbTX env data b) :
    ((refs.take (j + 1)).foldl (startBlock cfg) init).isDone = true ↔ 0 ≤ cfg.cutoffBlock ∧
      asksBefore (sizes env data refs) (cfg.cutoffBlock - 1).toNat ≤
        asksBefore (sizes env data refs) j + i := by
  have hn : (sizes env data refs)[j]? = some (nbTX env data b) := by simp [hj]
  rw [isDone_foldl]
  constructor
  · rintro (h | ⟨c, hc, h0, hle⟩)
    · cases h
    · obtain ⟨l, hl⟩ := List.mem_iff_getElem?.mp hc
      rw [List.getElem?_take, Option.ite_none_right_eq_some] at hl
      rw [hh l c hl.2] at hle
      refine ⟨h0, (asksBefore_mono _ ?_).trans (Nat.le_add_right _ _)⟩
      omega
  · rintro ⟨h0, hle⟩
    rw [← Nat.add_zero (asksBefore _ (cfg.cutoffBlock - 1).toNat)] at hle
    have hlej : (cfg.cutoffBlock - 1).toNat ≤ j := asks_le hn hi hle
    refine Or.inr ⟨b, ?_, h0, ?_⟩
    · refine List.mem_iff_getElem?.mpr ⟨j, ?_⟩
      rwa [List.getElem?_take_of_lt (Nat.lt_succ_self j)]
    · rw [hh j b hj]
      omega

theorem Ran.done_iff {r : Bool} (h : Ran env data 0 refs r w) (hh : Climbs cfg.height refs)
    (hans : AnswersFrom cfg sigint env 0 init w) (hj : refs[j]? = some b) (hi : i ≤ nbTX env data b)
    (hlt : asksBefore (sizes env data refs) j + i < w.countP isAsk) :
    env.done (asksBefore (sizes env data refs) j + i) = true ↔
      Wanted cfg.cutoffBlock sigint (sizes env data refs) (asksBefore (sizes env data refs) j + i) := by
  have hdone := h.answers hans hj hi hlt
  rw [Nat.zero_add] at hdone
  have hint : ∀ k, interrupted sigint k = true ↔ ∃ t, sigint = some t ∧ t ≤ k := by
    intro k
    cases sigint <;> simp [interrupted]
  rw [hdone, Bool.or_eq_true, hint, isDone_iff hh hj hi]
  rfl

/-- The transactions of the blocks below a height. -/
def Below (env : Env) (data : BlockRef → Memory) (height : BlockRef → Int) (refs : List BlockRef)
    (H : Int) (q : BlockRef × Nat) : Prop :=
  q.1 ∈ refs ∧ height q.1 < H ∧ q.2 < nbTX env data q.1

theorem below_iff {height : BlockRef → Int} (hh : Climbs height refs) (j : Nat) (q : BlockRef × Nat) :
    Below env data height refs (j + 1) q ↔ q ∈ wholes env data (refs.take j) := by
  simp only [Below, wholes, List.mem_flatMap, List.mem_map, List.mem_range]
  constructor
  · rintro ⟨hmem, hlt, hn⟩
    obtain ⟨l, hl⟩ := List.mem_iff_getElem?.mp hmem
    rw [hh l q.1 hl] at hlt
    refine ⟨q.1, List.mem_iff_getElem?.mpr ⟨l, ?_⟩, q.2, hn, rfl⟩
    rwa [List.getElem?_take_of_lt (by omega)]
  · rintro ⟨b, hb, i, hi, rfl⟩
    obtain ⟨l, hl⟩ := List.mem_iff_getElem?.mp hb
    rw [List.getElem?_take, Option.ite_none_right_eq_some] at hl
    refine ⟨List.mem_of_getElem? hl.2, ?_, hi⟩
    rw [hh l b hl.2]
    omega

theorem Climbs.inj {height : BlockRef → Int} (hh : Climbs height refs) {l : Nat}
    (hl : refs[l]? = some b) (hj : refs[j]? = some b) : l = j := by
  have heq := (hh l b hl).symm.trans (hh j b hj)
  omega

/-- The ledger of a block boundary: the applied transactions are those below some height,
and below `cutoffBlock` in a run without SIGINT that comes to that height. -/
structure Boundary (env : Env) (data : BlockRef → Memory) (cfg : Config) (sigint : Option Nat)
    (refs : List BlockRef) (txs : List (BlockRef × Nat)) : Prop where
  below : ∃ H, ∀ q, q ∈ txs ↔ Below env data cfg.height refs H q
  cutoff : 0 ≤ cfg.cutoffBlock → sigint = none → cfg.cutoffBlock ≤ refs.length →
    ∀ q, q ∈ txs ↔ Below env data cfg.height refs cfg.cutoffBlock q

theorem mem_stopped (h : StopsAt env data k refs w j i b) (b' : BlockRef) (i' : Nat)
    (q : BlockRef × Nat) : q ∈ applied b' i' w ↔ q ∈ wholes env data (refs.take j) ∨
      q.1 = b ∧ q.2 < min (i + 1) (nbTX env data b) := by
  rw [h.applied, List.mem_append, List.mem_map]
  simp only [List.mem_range]
  constructor
  · rintro (h | ⟨a, ha, rfl⟩)
    · exact Or.inl h
    · exact Or.inr ⟨rfl, ha⟩
  · rintro (h | ⟨h1, h2⟩)
    · exact Or.inl h
    · exact Or.inr ⟨q.2, h2, by rw [← h1]⟩

theorem not_mem_wholes {height : BlockRef → Int} (hh : Climbs height refs) (hj : refs[j]? = some b)
    {q : BlockRef × Nat} (hq : q.1 = b) : q ∉ wholes env data (refs.take j) := by
  intro hmem
  obtain ⟨-, hlt, -⟩ := (below_iff hh j q).mpr hmem
  rw [hq, hh j b hj] at hlt
  omega

/-- A stop in block `j` is at a boundary when all of its transactions are parsed. -/
theorem exists_below_iff {height : BlockRef → Int} (hh : Climbs height refs)
    (h : StopsAt env data k refs w j i b) (b' : BlockRef) (i' : Nat) :
    (∃ H, ∀ q, q ∈ applied b' i' w ↔ Below env data height refs H q) ↔ nbTX env data b ≤ i + 1 := by
  constructor
  · rintro ⟨H, hH⟩
    by_contra hlt
    have hfirst : (b, 0) ∈ applied b' i' w := by
      rw [mem_stopped h]
      exact Or.inr ⟨rfl, lt_min (Nat.succ_pos i) (by omega)⟩
    obtain ⟨hmem, hheight, -⟩ := (hH _).mp hfirst
    have hlast : (b, i + 1) ∈ applied b' i' w := (hH _).mpr ⟨hmem, hheight, by
      show i + 1 < nbTX env data b
      omega⟩
    rw [mem_stopped h] at hlast
    cases hlast with
    | inl hold => exact not_mem_wholes hh h.block rfl hold
    | inr hnew => exact absurd (lt_of_lt_of_le hnew.2 (min_le_left _ _)) (lt_irrefl _)
  · intro hle
    refine ⟨((j + 1 : Nat) : Int) + 1, ?_⟩
    intro q
    rw [below_iff hh, mem_stopped h, min_eq_right hle, List.take_add_one, h.block]
    simp only [wholes, List.flatMap_append, List.mem_append, Option.toList_some, List.flatMap_singleton,
      List.mem_map, List.mem_range]
    refine or_congr_right ?_
    constructor
    · rintro ⟨h1, h2⟩
      exact ⟨q.2, h2, by rw [← h1]⟩
    · rintro ⟨a, ha, rfl⟩
      exact ⟨rfl, ha⟩

/-- Where the callback wants to stop first, the run stops. -/
theorem StopsAt.first {r : Bool} (h : Ran env data 0 refs r w) (hh : Climbs cfg.height refs)
    (hans : AnswersFrom cfg sigint env 0 init w) (hs : StopsAt env data 0 refs w j i b) :
    Wanted cfg.cutoffBlock sigint (sizes env data refs) (asksBefore (sizes env data refs) j + i) ∧
      ∀ k < asksBefore (sizes env data refs) j + i,
        ¬Wanted cfg.cutoffBlock sigint (sizes env data refs) k := by
  have hlast := hs.last
  have hcount := hs.count
  rw [Nat.zero_add] at hlast
  refine ⟨(h.done_iff hh hans hs.block hs.le (by omega)).mp hlast, ?_⟩
  intro k hk hwanted
  have hn : (sizes env data refs)[j]? = some (nbTX env data b) := by simp [hs.block]
  have hkj : k < asksBefore (sizes env data refs) (j + 1) := by
    rw [asksBefore_succ hn]
    have := hs.le
    omega
  obtain ⟨j', i', n, -, hn', hi', rfl⟩ := asks_split hkj
  obtain ⟨b', hb', rfl⟩ := sizes_getElem?.mp hn'
  have hdone := (h.done_iff hh hans hb' hi' (by omega)).mpr hwanted
  have hbefore := hs.before _ hk
  rw [Nat.zero_add, hdone] at hbefore
  cases hbefore

/-- A run does not go past the first time the callback wants to stop. -/
theorem Ran.stopsAt {r : Bool} (h : Ran env data 0 refs r w) (hh : Climbs cfg.height refs)
    (hans : AnswersFrom cfg sigint env 0 init w) (hj : refs[j]? = some b) (hi : i ≤ nbTX env data b)
    (hwanted : Wanted cfg.cutoffBlock sigint (sizes env data refs)
      (asksBefore (sizes env data refs) j + i))
    (hfirst : ∀ k < asksBefore (sizes env data refs) j + i,
      ¬Wanted cfg.cutoffBlock sigint (sizes env data refs) k) :
    r = true ∧ StopsAt env data 0 refs w j i b := by
  have hn : (sizes env data refs)[j]? = some (nbTX env data b) := by simp [hj]
  cases r with
  | false =>
    obtain ⟨hfalse, hcount⟩ := h.ended rfl
    have hlt : asksBefore (sizes env data refs) j + i < w.countP isAsk := by
      have hle := asksBefore_mono (sizes env data refs) (Nat.succ_le_of_lt (List.getElem?_eq_some_iff.mp hj).1)
      rw [Nat.succ_eq_add_one, asksBefore_succ hn] at hle
      omega
    have hdone := (h.done_iff hh hans hj hi hlt).mpr hwanted
    have hbefore := hfalse _ hlt
    rw [Nat.zero_add, hdone] at hbefore
    cases hbefore
  | true =>
    refine ⟨rfl, ?_⟩
    obtain ⟨j', i', b', hs⟩ := h.stopped rfl
    have hn' : (sizes env data refs)[j']? = some (nbTX env data b') := by simp [hs.block]
    have hcount := hs.count
    obtain ⟨hwanted', -⟩ := hs.first h hh hans
    have heq : asksBefore (sizes env data refs) j' + i' = asksBefore (sizes env data refs) j + i := by
      refine Nat.le_antisymm ?_ (Nat.le_of_not_lt fun hlt => hfirst _ hlt hwanted')
      by_contra hlt
      have hbefore := hs.before _ (Nat.lt_of_not_le hlt)
      rw [Nat.zero_add, (h.done_iff hh hans hj hi (by omega)).mpr hwanted] at hbefore
      cases hbefore
    have hjj : j' = j := Nat.le_antisymm (asks_le hn hi heq.le) (asks_le hn' hs.le heq.ge)
    subst hjj
    have hii : i' = i := Nat.add_left_cancel heq
    subst hii
    rw [hs.block, Option.some_inj] at hj
    exact hj ▸ hs

/-- Without SIGINT the first time is behind the startBlock of the block of `cutoffBlock`, or of
the first block. -/
theorem Wanted.cutoff {N : Int} (hwanted : Wanted N none ns (asksBefore ns j + i)) (hn : ns[j]? = some n)
    (hi : i ≤ n) (hfirst : ∀ k < asksBefore ns j + i, ¬Wanted N none ns k) :
    0 ≤ N ∧ (N - 1).toNat = j := by
  rcases hwanted with ⟨t, ht, -⟩ | ⟨h0, hle⟩
  · cases ht
  · have hle' : asksBefore ns (N - 1).toNat + 0 ≤ asksBefore ns j + i := hle
    refine ⟨h0, Nat.le_antisymm (asks_le hn hi hle') ?_⟩
    by_contra hlt
    refine hfirst (asksBefore ns (N - 1).toNat) ?_ (Or.inr ⟨h0, le_refl _⟩)
    have hlt' := Nat.lt_of_not_le hlt
    obtain ⟨n', hn'⟩ : ∃ n', ns[(N - 1).toNat]? = some n' := by
      have := (List.getElem?_eq_some_iff.mp hn).1
      exact ⟨_, List.getElem?_eq_getElem (by omega)⟩
    have hmono := asksBefore_mono ns (Nat.succ_le_of_lt hlt')
    rw [Nat.succ_eq_add_one, asksBefore_succ hn'] at hmono
    omega

theorem boundary_iff {r : Bool} (h : Ran env data 0 refs r w) (hh : Climbs cfg.height refs)
    (hans : AnswersFrom cfg sigint env 0 init w) (b₀ : BlockRef) (i₀ : Nat) :
    (r = true → Boundary env data cfg sigint refs (applied b₀ i₀ w)) ↔
      Coherent cfg.cutoffBlock sigint (sizes env data refs) := by
  constructor
  · intro hbound j i n hn hi hwanted hfirst
    obtain ⟨b, hb, rfl⟩ := sizes_getElem?.mp hn
    obtain ⟨hr, hs⟩ := h.stopsAt hh hans hb hi hwanted hfirst
    obtain ⟨hbelow, hcutoff⟩ := hbound hr
    refine ⟨(exists_below_iff hh hs b₀ i₀).mp hbelow, ?_⟩
    intro hnone
    subst hnone
    obtain ⟨h0, hN⟩ := hwanted.cutoff hn hi hfirst
    have hjlt := (List.getElem?_eq_some_iff.mp hb).1
    by_contra hpos
    -- the first transaction of the block is applied, but its height is not below
    have hmem : (b, 0) ∈ applied b₀ i₀ w := by
      rw [mem_stopped hs]
      exact Or.inr ⟨rfl, lt_min (Nat.succ_pos i) (Nat.pos_of_ne_zero hpos)⟩
    obtain ⟨-, hheight, -⟩ := (hcutoff h0 rfl (by omega) _).mp hmem
    rw [hh j b hb] at hheight
    omega
  · intro hcoh hr
    obtain ⟨j, i, b, hs⟩ := h.stopped hr
    obtain ⟨hwanted, hfirst⟩ := hs.first h hh hans
    have hn : (sizes env data refs)[j]? = some (nbTX env data b) := by simp [hs.block]
    obtain ⟨hlast, hempty⟩ := hcoh j i _ hn hs.le hwanted hfirst
    refine ⟨(exists_below_iff hh hs b₀ i₀).mpr hlast, ?_⟩
    intro h0 hnone hlen q
    subst hnone
    obtain ⟨-, hN⟩ := hwanted.cutoff hn hs.le hfirst
    have hzero := hempty rfl
    have hheights : ∀ c ∈ refs, cfg.height c < cfg.cutoffBlock ↔ cfg.height c < (j : Int) + 1 := by
      intro c hc
      obtain ⟨l, hl⟩ := List.mem_iff_getElem?.mp hc
      rw [hh l c hl]
      omega
    rw [mem_stopped hs, hzero]
    have hbelow : Below env data cfg.height refs cfg.cutoffBlock q ↔
        Below env data cfg.height refs ((j : Int) + 1) q :=
      and_congr_right fun hq => and_congr_left' (hheights q.1 hq)
    rw [hbelow, below_iff hh]
    simp

/-- The loop of parseLongestChain comes to the blocks that following `next` visits. -/
theorem parseChain_follow {h : Heights.State} {fuel : Nat} {blk : Option BlockRef}
    (hf : LongestChain.followNext h fuel blk = some refs) :
    LongestChain.parseChain env data h fuel blk =
      (do let _ ← parseUntilDone env data refs; pure true) := by
  induction fuel generalizing blk refs with
  | zero =>
    cases blk with
    | none =>
      cases hf
      rfl
    | some b => cases hf
  | succ fuel ih =>
    cases blk with
    | none =>
      cases hf
      rfl
    | some b =>
      obtain ⟨rest, hrest, rfl⟩ := Option.map_eq_some_iff.mp hf
      rw [LongestChain.parseChain, ih hrest]
      funext x
      rw [parseUntilDone, run_bind, run_bind, run_bind]
      cases hr : parseBlock env b (data b) x with
      | error e y => rfl
      | ok r y => cases r <;> rfl

theorem applied_around {v : List Call} (hv : ∀ c ∈ v, isAround c = true) (b : BlockRef) (i : Nat)
    (w : List Call) : applied b i (v ++ w) = applied b i w := by
  induction v with
  | nil => rfl
  | cons c v ih =>
    have hc := hv c (List.mem_cons_self ..)
    have hrest := ih fun d hd => hv d (List.mem_cons_of_mem c hd)
    cases c <;> first | exact hrest | cases hc

theorem applied_wrapup (b : BlockRef) (i : Nat) (w : List Call) :
    applied b i (w ++ [.wrapup]) = applied b i w := by
  induction w generalizing b i with
  | nil => rfl
  | cons c w ih => cases c <;> simp [applied, ih]

theorem parseLongestChain_ran {h : Heights.State} {fuel : Nat} {r : Bool}
    {x x' : Blockparser.Parser.State}
    (hf : LongestChain.followNext h fuel (h.blocks gNullBlock).next = some refs)
    (hrun : LongestChain.parseLongestChain env data fuel h x = .ok r x') :
    ∃ stopped w, x'.calls = x.calls ++
        ([.startLC, .start (h.blocks gNullBlock).next h.gMaxBlock] ++ (w ++ [.wrapup])) ∧
      x'.nbDone = x.nbDone + w.countP isAsk ∧ Ran env data x.nbDone refs stopped w := by
  unfold LongestChain.parseLongestChain at hrun
  rw [run_bind_ok (run_emit _ _), run_bind_ok (run_emit _ _), parseChain_follow hf, bind_assoc, run_bind] at hrun
  cases hu : parseUntilDone env data refs { x with
      calls := x.calls ++ [.startLC] ++ [.start (h.blocks gNullBlock).next h.gMaxBlock]
      views := x.views ++ [fun a => (x.heap.cells a).hash] ++ [fun a => (x.heap.cells a).hash] } with
  | error e y =>
    rw [hu] at hrun
    cases hrun
  | ok stopped y =>
    rw [hu] at hrun
    cases hrun
    obtain ⟨w, hcalls, hnb, hran⟩ := parseUntilDone_ran hu
    refine ⟨stopped, w, ?_, hnb, hran⟩
    show y.calls ++ [.wrapup] = _
    rw [hcalls]
    simp

/-- In every run of the parser over the longest chain, with the answers of the callback: when
the run is stopped the ledger is that of a block boundary, if and only if the first time the
callback wants to stop is at one. -/
theorem dump_iff (env : Env) (data : BlockRef → Memory) (fuel : Nat) (h : Heights.State)
    (refs : List BlockRef) (x x' : Blockparser.Parser.State) (cutoffBlock : Int)
    (sigint : Option Nat)
    (hf : LongestChain.followNext h fuel (h.blocks gNullBlock).next = some refs)
    (hh : ∀ i b, refs[i]? = some b → (h.blocks b).height = (i + 1 : Nat))
    (hcalls : x.calls = []) (hnb : x.nbDone = 0)
    (hrun : LongestChain.parseLongestChain env data fuel h x = .ok true x')
    (hans : Answers ⟨cutoffBlock, fun b => (h.blocks b).height⟩ sigint env x'.calls) :
    ((∃ k < x'.nbDone, env.done k = true) →
        Boundary env data ⟨cutoffBlock, fun b => (h.blocks b).height⟩ sigint refs
          (applied gNullBlock 0 x'.calls)) ↔
      Coherent cutoffBlock sigint (refs.map (nbTX env data)) := by
  obtain ⟨stopped, w, hw, hcount, hran⟩ := parseLongestChain_ran hf hrun
  rw [hcalls, List.nil_append] at hw
  rw [hnb] at hcount hran
  rw [hw] at hans
  have hfrom := hans.from.split.2.split.1
  have hclimbs : Climbs (Config.mk cutoffBlock fun b => (h.blocks b).height).height refs := hh
  refine Iff.trans ?_ (boundary_iff hran hclimbs hfrom gNullBlock 0)
  rw [hw, applied_around (by simp [isAround]), applied_wrapup]
  refine imp_congr_left ?_
  rw [hcount, Nat.zero_add]
  constructor
  · rintro ⟨k, hk, hdone⟩
    cases stopped with
    | true => rfl
    | false =>
      have hfalse := (hran.ended rfl).1 k hk
      rw [Nat.zero_add, hdone] at hfalse
      cases hfalse
  · intro hstopped
    obtain ⟨j, i, b, hs⟩ := hran.stopped hstopped
    have hlast := hs.last
    rw [Nat.zero_add] at hlast
    exact ⟨_, by rw [hs.count]; exact Nat.lt_succ_self _, hlast⟩

/-- The callback is done the first time it is asked. -/
def doneEnv : Env := { prefixEnv with done := fun _ => true }

def oneBlock (txs : List Format.Tx) : BlockRef → Memory := fun _ => blockMemory .bitcoin txs

def runOf (txs : List Format.Tx) : EStateM.Result Fault Blockparser.Parser.State Bool :=
  LongestChain.parseLongestChain doneEnv (oneBlock txs) 1 (chainOf 1) .start

def configOf (cutoffBlock : Int) : Config := ⟨cutoffBlock, fun b => ((chainOf 1).blocks b).height⟩

theorem exists_run {r : EStateM.Result Fault Blockparser.Parser.State Bool} {cfg : Config}
    {sigint : Option Nat} {env : Env} {applies : List (BlockRef × Nat)} {n : Nat}
    (hrun : (ended r).map (fun x => (decide (Answers cfg sigint env x.calls), x.nbDone,
      applied gNullBlock 0 x.calls)) = some (true, n, applies)) :
    ∃ x', r = .ok true x' ∧ Answers cfg sigint env x'.calls ∧ x'.nbDone = n ∧
      applied gNullBlock 0 x'.calls = applies := by
  obtain ⟨x', hx, heq⟩ := Option.map_eq_some_iff.mp hrun
  rw [Prod.mk.injEq, Prod.mk.injEq, decide_eq_true_eq] at heq
  exact ⟨x', ended_eq hx, heq⟩

/-- The callback is done from the second time on. -/
def laterEnv : Env := { prefixEnv with done := fun k => decide (1 ≤ k) }

/-- Two transactions in block 1, and one in block 2. -/
def twoBlocks : BlockRef → Memory := fun b =>
  blockMemory .bitcoin (if b = 1 then [mintTx, spendTx] else [laterTx])

def twoConfig : Config := ⟨-1, fun b => ((chainOf 2).blocks b).height⟩

theorem twoConfig_climbs : Climbs twoConfig.height [1, 2] := by
  intro i b hb
  cases i with
  | zero =>
    cases hb
    rfl
  | succ i =>
    cases i with
    | zero =>
      cases hb
      rfl
    | succ i => cases hb

/-- An interrupt behind the last transaction of block 1, with a block behind it. -/
theorem dump_iff_interrupted : ∃ x',
    LongestChain.parseLongestChain laterEnv twoBlocks 2 (chainOf 2) .start = .ok true x' ∧
    applied gNullBlock 0 x'.calls = [(1, 0), (1, 1)] ∧
    ∃ H, ∀ q, q ∈ applied gNullBlock 0 x'.calls ↔
      Below laterEnv twoBlocks twoConfig.height [1, 2] H q := by
  obtain ⟨x', hrun, hans, hnb, happ⟩ := @exists_run
    (LongestChain.parseLongestChain laterEnv twoBlocks 2 (chainOf 2) .start) twoConfig (some 1)
    laterEnv [(1, 0), (1, 1)] 2 (by decide +kernel)
  have hspec := dump_iff laterEnv twoBlocks 2 (chainOf 2) [1, 2] .start x' (-1) (some 1) rfl
    twoConfig_climbs rfl rfl hrun hans
  have hsize : [1, 2].map (nbTX laterEnv twoBlocks) = [2, 1] := by decide +kernel
  rw [hsize] at hspec
  refine ⟨x', hrun, happ, (hspec.mpr ?_ ⟨1, by rw [hnb]; decide, rfl⟩).below⟩
  intro j i n hn _ hwanted hfirst
  have hlate : asksBefore [2, 1] j + i ≤ 1 := by
    by_contra hgt
    exact hfirst 1 (Nat.lt_of_not_le hgt) (Or.inl ⟨1, rfl, Nat.le_refl 1⟩)
  have hearly : 1 ≤ asksBefore [2, 1] j + i := by
    cases hwanted with
    | inl hsig =>
      obtain ⟨t, ht, hle⟩ := hsig
      cases ht
      exact hle
    | inr hcut => exact absurd hcut.1 (by decide)
  refine ⟨?_, fun h => nomatch h⟩
  cases j with
  | zero =>
    cases hn
    have hnone : asksBefore [2, 1] 0 = 0 := rfl
    omega
  | succ j =>
    cases j with
    | zero =>
      have hthree : asksBefore [2, 1] (0 + 1) = 3 := rfl
      omega
    | succ j => cases hn

/-- With `--atBlock 1` the first transaction of block 1 is applied, and the second one is not. -/
theorem dump_cut : ∃ x', runOf [mintTx, spendTx] = .ok true x' ∧
    Answers (configOf 1) none doneEnv x'.calls ∧ (∃ k < x'.nbDone, doneEnv.done k = true) ∧
    ¬∃ H, ∀ q, q ∈ applied gNullBlock 0 x'.calls ↔
      Below doneEnv (oneBlock [mintTx, spendTx]) (configOf 1).height [1] H q := by
  obtain ⟨x', hrun, hans, hnb, happ⟩ := @exists_run
    (runOf [mintTx, spendTx]) (configOf 1) none doneEnv [(1, 0)] 1 (by decide +kernel)
  refine ⟨x', hrun, hans, ⟨0, by rw [hnb]; decide, rfl⟩, ?_⟩
  rintro ⟨H, hH⟩
  rw [happ] at hH
  obtain ⟨hmem, hheight, -⟩ := (hH (1, 0)).mp (List.mem_singleton.mpr rfl)
  have hsecond := (hH (1, 1)).mpr ⟨hmem, hheight, by decide +kernel⟩
  cases List.mem_singleton.mp hsecond

end Blockparser.AtBlock
