import Blockparser.Cursor

/-! The callback protocol: the calls parseBlock makes, as words of a language
fixed by the bytes of the block. -/
namespace Blockparser.Protocol
open Bytes Trace MemoryManager Blockparser.Parser Cursor

def noHash : HashArg := ⟨none, none⟩

/-- A call without its hash arguments; `edge` calls vanish. -/
def eraseCall : Call → Option Call
  | .edge .. => none
  | .startTX p _ => some (.startTX p noHash)
  | .endOutput p value _ i script size => some (.endOutput p value noHash i script size)
  | c => some c

def erase (w : List Call) : List Call := w.filterMap eraseCall

/-- startOutput endOutput, for output `i` at `p`. -/
def outputCalls (m : Memory) (h : HashArg) (i : Nat) (p : Ptr) : List Call :=
  [.startOutput p, .endOutput (outputNext m p) (load m p 8) h i
    (read m (loadVarInt m (p + 8)).2 (loadVarInt m (p + 8)).1) (loadVarInt m (p + 8)).1]

/-- startInput edge? endInput, for the input at `p`. -/
def inputCalls (m : Memory) (edge : List Call) (p : Ptr) : List Call :=
  [.startInput p] ++ edge ++ [.endInput (inputNext m p)]

/-- The edge of input `i` at `p`: it names the output the input names. -/
def edgeOf (m : Memory) (i : Nat) (p : Ptr) : Language Call :=
  {e | ∃ value script size down, e = [.edge value ⟨none, some (Memory.hash m p)⟩
    (load m (p + 32) 4) script size down i
    (read m (loadVarInt m (p + 36)).2 (loadVarInt m (p + 36)).1) (loadVarInt m (p + 36)).1]}

/-- One edge when upstream data is needed and the input is no generation input,
none otherwise. -/
def edgeWords (need : Bool) (m : Memory) (i : Nat) (p : Ptr) : Language Call :=
  if need = true ∧ Memory.hash m p ≠ nullHash then edgeOf m i p else 1

def inputWords (need : Bool) (m : Memory) (i : Nat) (p : Ptr) : Language Call :=
  {w | ∃ e ∈ edgeWords need m i p, w = inputCalls m e p}

def outputWords (m : Memory) (i : Nat) (p : Ptr) : Language Call :=
  {w | ∃ h, w = outputCalls m h i p}

def inputsWords (need : Bool) (m : Memory) (p : Ptr) : Language Call :=
  {[.startInputs p]} *
    (loopWords (inputWords need m) (fun _ => inputNext m) (loadVarInt m p).1 0 (loadVarInt m p).2 *
      {[.endInputs (inputsNext m p)]})

def outputsWords (m : Memory) (p : Ptr) : Language Call :=
  {[.startOutputs p]} *
    (loopWords (outputWords m) (fun _ => outputNext m) (loadVarInt m p).1 0 (loadVarInt m p).2 *
      {[.endOutputs (outputsNext m p)]})

def startTXWords (p : Ptr) : Language Call := {w | ∃ h, w = [.startTX p h]}

def txWords (coin : Coin) (need : Bool) (m : Memory) (p : Ptr) : Language Call :=
  startTXWords p * (inputsWords need m (beforeInputs coin p) *
    (outputsWords m (txOutputs coin m p) * {[.endTX (txNext coin m p)]}))

def txsWords (coin : Coin) (need : Bool) (m : Memory) : Nat → Ptr → Language Call
  | 0, _ => 1
  | n+1, p => txWords coin need m p * txsWords coin need m n (txNext coin m p)

def txsNext (coin : Coin) (m : Memory) : Nat → Ptr → Ptr
  | 0, p => p
  | n+1, p => txsNext coin m n (txNext coin m p)

/-- How many of `n` transactions are parsed when the callback's next answer is its
`c`-th, and whether it was done before the end. -/
def cutAt (done : Nat → Bool) : Nat → Nat → Nat × Bool
  | _, 0 => (0, false)
  | c, n+1 => if done c then (1, true) else ((cutAt done (c+1) n).1 + 1, (cutAt done (c+1) n).2)

/-- The calls of a block whose transaction loop was left after `k` turns, early or
at the end. -/
def blockWords (coin : Coin) (need : Bool) (b : BlockRef) (m : Memory) (cut : Nat × Bool) :
    Language Call :=
  let p := afterHeader coin 0
  let q := (loadVarInt m p).2
  {[.startBlock b]} * ({[.startTXs p]} * (txsWords coin need m cut.1 q *
    if cut.2 then 1 else {[.endTXs (txsNext coin m cut.1 q), .endBlock b]}))

/-- A step that makes no call and asks nothing. -/
def Quiet {α : Type} (a : M α) : Prop :=
  ∀ s, match a s with
    | .ok _ s' => s'.calls = s.calls ∧ s'.nbDone = s.nbDone
    | .error _ s' => s'.calls = s.calls

variable {α β : Type}

theorem Quiet.pure (a : α) : Quiet (pure a) := fun _ => ⟨rfl, rfl⟩
theorem Quiet.getState : Quiet getState := fun _ => ⟨rfl, rfl⟩
theorem Quiet.setHeap (h : Heap) : Quiet (setHeap h) := fun _ => ⟨rfl, rfl⟩
theorem Quiet.setMap (t : List (Addr × Addr)) : Quiet (setMap t) := fun _ => ⟨rfl, rfl⟩
theorem Quiet.fault (f : Fault) : Quiet (fault f : M α) := fun _ => rfl

theorem Quiet.defined (o : Option α) : Quiet (defined o) := by
  cases o with
  | none => exact Quiet.fault _
  | some a => exact Quiet.pure a

theorem Quiet.bind {a : M α} {f : α → M β} (ha : Quiet a) (hf : ∀ x, Quiet (f x)) :
    Quiet (a >>= f) := by
  intro s
  have h1 := ha s
  rw [run_bind]
  cases hr : a s with
  | error e s' =>
    rw [hr] at h1
    exact h1
  | ok x s' =>
    rw [hr] at h1
    have h2 := hf x s'
    dsimp only at h1 h2 ⊢
    rw [h1.1, h1.2] at h2
    exact h2

theorem Quiet.onlyIf {a : M Unit} (ha : Quiet a) (c : Bool) : Quiet (onlyIf c a) := by
  cases c with
  | true => exact ha
  | false => exact Quiet.pure ()

theorem Quiet.storeOutput (m : Memory) (txo : Addr) (i : Nat) (start p : Ptr) :
    Quiet (storeOutput m txo i start p) :=
  Quiet.getState.bind fun _ => (Quiet.defined _).bind fun _ => (Quiet.defined _).bind fun _ =>
    Quiet.setHeap _

theorem Quiet.allocRawData (txo : Addr) (n : Nat) : Quiet (allocRawData txo n) :=
  Quiet.getState.bind fun _ => (Quiet.defined _).bind fun _ => Quiet.setHeap _

theorem Quiet.dropUpstream (h : Hash256) (key txo : Addr) : Quiet (dropUpstream h key txo) :=
  Quiet.getState.bind fun _ => (Quiet.setMap _).bind fun _ => (Quiet.defined _).bind fun _ =>
    Quiet.setHeap _

theorem Quiet.newTXO (env : Env) (skip : Bool) (txHash : HashPtr) :
    Quiet (newTXO env skip txHash) := by
  unfold Parser.newTXO
  split
  · exact Quiet.getState.bind fun _ => (Quiet.setHeap _).bind fun _ => (Quiet.setMap _).bind
      fun _ => Quiet.pure _
  · exact Quiet.pure _

theorem Quiet.hashTX (env : Env) (m : Memory) (p : Ptr) : Quiet (hashTX env m p) := by
  unfold Parser.hashTX
  split
  · refine Quiet.getState.bind fun _ => (Quiet.setHeap _).bind fun _ => Quiet.bind ?_ fun _ =>
      Quiet.getState.bind fun _ => (Quiet.setHeap _).bind fun _ => Quiet.pure _
    intro s
    rw [parseTXBody_skip]
    exact ⟨rfl, rfl⟩
  · exact Quiet.pure _

/-- What a step of the parser says that finds the callback asked `c` times and leaves
it asked `d` times. Only a parse with upstream data can stop. -/
abbrev SaysTo (env : Env) (c d : Nat) (a : M α) (L : Language Call) (r : α) : Prop :=
  Emits State.calls (env.gNeedUpstream = true) (fun s => s.nbDone = c) (fun s => s.nbDone = d) a L r

abbrev Says (env : Env) (c : Nat) (a : M α) (L : Language Call) (r : α) : Prop :=
  SaysTo env c c a L r

variable {env : Env} {c : Nat} {m : Memory} {K L : Language Call} {r : α}

theorem Says.emit (x : Call) : Says env c (emit x) {[x]} () :=
  fun _ hs => ⟨rfl, hs, [x], rfl, rfl⟩

theorem Says.emit_bind (x : Call) {f : Unit → M α} (hf : Says env c (f ()) K r)
    (hK : ∃ w, w ∈ K) : Says env c (Parser.emit x >>= f) ({[x]} * K) r :=
  (Says.emit x).bind hf hK

theorem Says.emit_pure (x : Call) (r : α) : Says env c (do Parser.emit x; pure r) {[x]} r := by
  rw [← mul_one ({[x]} : Language Call)]
  exact Says.emit_bind x (Emits.pure r) ⟨[], rfl⟩

theorem Says.quiet_bind {a : M β} {f : β → M α} (hq : Quiet a) (hn : env.gNeedUpstream = true)
    (hf : ∀ x, Says env c (f x) K r) (hK : ∃ w, w ∈ K) : Says env c (a >>= f) K r := by
  refine Emits.silent_bind hK ?_
  intro s hs
  have h := hq s
  cases hr : a s with
  | ok x s' =>
    rw [hr] at h
    exact ⟨h.2.trans hs, h.1, hf x⟩
  | error e s' =>
    rw [hr] at h
    exact ⟨hn, h⟩

theorem Says.getState_bind {f : State → M α} (hf : ∀ x, Says env c (f x) K r) :
    Says env c (Parser.getState >>= f) K r := fun s hs => hf s s hs

theorem Says.quiet {a : M Unit} (hq : Quiet a) (hn : env.gNeedUpstream = true) :
    Says env c a 1 () := by
  intro s hs
  have h := hq s
  cases hr : a s with
  | ok x s' =>
    rw [hr] at h
    exact ⟨rfl, h.2.trans hs, [], rfl, by simp [h.1]⟩
  | error e s' =>
    rw [hr] at h
    exact ⟨hn, [], [], rfl, by simp [h]⟩

theorem inhabited_mul (hL : ∃ w, w ∈ L) (hK : ∃ w, w ∈ K) : ∃ w, w ∈ L * K := by
  obtain ⟨w, hw⟩ := hL
  obtain ⟨v, hv⟩ := hK
  exact ⟨w ++ v, Language.append_mem_mul hw hv⟩

theorem inhabited_word (w : List Call) : ∃ v, v ∈ ({w} : Language Call) := ⟨w, rfl⟩

theorem edgeWords_inhabited (need : Bool) (m : Memory) (i : Nat) (p : Ptr) :
    ∃ e, e ∈ edgeWords need m i p := by
  unfold edgeWords
  split
  · exact ⟨_, 0, [], 0, noHash, rfl⟩
  · exact ⟨[], rfl⟩

theorem inputWords_eq (need : Bool) (m : Memory) (i : Nat) (p : Ptr) :
    inputWords need m i p =
      {[.startInput p]} * (edgeWords need m i p * {[.endInput (inputNext m p)]}) := by
  ext w
  constructor
  · rintro ⟨e, he, rfl⟩
    rw [inputCalls, List.append_assoc]
    exact Language.append_mem_mul rfl (Language.append_mem_mul he rfl)
  · rintro ⟨_, rfl, _, ⟨e, he, _, rfl, rfl⟩, rfl⟩
    exact ⟨e, he, by simp [inputCalls]⟩

theorem inputWords_inhabited (need : Bool) (m : Memory) (i : Nat) (p : Ptr) :
    ∃ w, w ∈ inputWords need m i p := by
  obtain ⟨e, he⟩ := edgeWords_inhabited need m i p
  exact ⟨_, e, he, rfl⟩

theorem outputWords_inhabited (m : Memory) (i : Nat) (p : Ptr) : ∃ w, w ∈ outputWords m i p :=
  ⟨_, noHash, rfl⟩

theorem inputsWords_inhabited (need : Bool) (m : Memory) (p : Ptr) :
    ∃ w, w ∈ inputsWords need m p :=
  inhabited_mul (inhabited_word _) (inhabited_mul
    (loopWords_inhabited (fun i p => inputWords_inhabited need m i p) _ _ _) (inhabited_word _))

theorem outputsWords_inhabited (m : Memory) (p : Ptr) : ∃ w, w ∈ outputsWords m p :=
  inhabited_mul (inhabited_word _) (inhabited_mul
    (loopWords_inhabited (fun i p => outputWords_inhabited m i p) _ _ _) (inhabited_word _))

theorem txWords_inhabited (coin : Coin) (need : Bool) (m : Memory) (p : Ptr) :
    ∃ w, w ∈ txWords coin need m p :=
  inhabited_mul ⟨_, noHash, rfl⟩ (inhabited_mul (inputsWords_inhabited need m _)
    (inhabited_mul (outputsWords_inhabited m _) (inhabited_word _)))

theorem parseOutput_words (h : HashPtr) (i : Nat) (p : Ptr) :
    Says env c (parseOutput false false m p h i .null 0 [] 0) (outputWords m i p)
      (outputNext m p) := by
  intro s hs
  refine ⟨rfl, hs, outputCalls m (h.arg s.heap) i p, ⟨_, rfl⟩, ?_⟩
  show (s.calls ++ [_]) ++ [_] = _
  rw [List.append_assoc]
  rfl

theorem parseOutputsBody_words (h : HashPtr) (txo : Option Addr)
    (ht : txo ≠ none → env.gNeedUpstream = true) (i : Nat) (p : Ptr) :
    Says env c (parseOutputsBody false m h txo i p) (outputWords m i p) (outputNext m p) := by
  rw [← mul_one (outputWords m i p)]
  refine (parseOutput_words h i p).bind ?_ ⟨[], rfl⟩
  cases txo with
  | none => exact Emits.pure _
  | some a =>
    exact Says.quiet_bind ((Quiet.storeOutput m a i p _).onlyIf _) (ht (by simp))
      (fun _ => Emits.pure _) ⟨[], rfl⟩

theorem parseOutputs_words (p : Ptr) (h : HashPtr) (txo : Option Addr)
    (ht : txo ≠ none → env.gNeedUpstream = true) :
    Says env c (parseOutputs false m p h txo) (outputsWords m p) (outputsNext m p) := by
  have hend : Says env c
      (do let q ← forCount (parseOutputsBody false m h txo) (loadVarInt m p).1 0 (loadVarInt m p).2
          onlyIf (!false) (emit (.endOutputs q))
          pure q)
      (loopWords (outputWords m) (fun _ => outputNext m) (loadVarInt m p).1 0 (loadVarInt m p).2 *
        {[.endOutputs (outputsNext m p)]}) (outputsNext m p) :=
    (Emits.forCount (outputWords_inhabited m)
      (fun i p => parseOutputsBody_words h txo ht i p) _ _ _).bind
      (Says.emit_pure _ _) (inhabited_word _)
  have hinh : ∃ w, w ∈ loopWords (outputWords m) (fun _ => outputNext m) (loadVarInt m p).1 0
      (loadVarInt m p).2 * {[.endOutputs (outputsNext m p)]} :=
    inhabited_mul (loopWords_inhabited (outputWords_inhabited m) _ _ _) (inhabited_word _)
  refine Says.emit_bind (.startOutputs p) ?_ hinh
  cases txo with
  | none => exact hend
  | some a =>
    exact Says.quiet_bind ((Quiet.allocRawData a _).onlyIf _) (ht (by simp)) (fun _ => hend) hinh

/-- The spending branch issues the edge of its input. -/
theorem spendUpstream_words (hn : env.gNeedUpstream = true) (p : Ptr) (key txo : Addr)
    (h : HashPtr) (i : Nat) :
    Says env c (spendUpstream m p key txo (load m (p + 32) 4) h i (loadVarInt m (p + 36)).2
      (loadVarInt m (p + 36)).1) (edgeOf m i p) () := by
  have hinh : ∃ e, e ∈ edgeOf m i p := ⟨_, 0, [], 0, noHash, rfl⟩
  have hedge : ∀ (src : Memory), Says env c
      (parseOutput false true src 0 (.ofBytes m p) (load m (p + 32) 4) h i
        (read m (loadVarInt m (p + 36)).2 (loadVarInt m (p + 36)).1) (loadVarInt m (p + 36)).1)
      (edgeOf m i p) (outputNext src 0) :=
    fun src s hs => ⟨rfl, hs, _, ⟨_, _, _, _, rfl⟩, rfl⟩
  refine Says.quiet_bind Quiet.getState hn (fun s => ?_) hinh
  refine Says.quiet_bind (Quiet.defined _) hn (fun slot => ?_) hinh
  refine Says.quiet_bind (Quiet.defined _) hn (fun rawData => ?_) hinh
  rw [← mul_one (edgeOf m i p)]
  refine (hedge _).bind ?_ ⟨[], rfl⟩
  refine Says.quiet_bind (Quiet.defined _) hn (fun hp => ?_) ⟨[], rfl⟩
  refine Says.quiet_bind (Quiet.setHeap _) hn (fun _ => ?_) ⟨[], rfl⟩
  exact Says.quiet ((Quiet.dropUpstream _ _ _).onlyIf _) hn

theorem parseInput_words (h : HashPtr) (i : Nat) (p : Ptr) :
    Says env c (parseInput env false m h i p) (inputWords env.gNeedUpstream m i p)
      (inputNext m p) := by
  rw [inputWords_eq]
  have hinh := inhabited_mul (edgeWords_inhabited env.gNeedUpstream m i p)
    (inhabited_word [.endInput (inputNext m p)])
  refine Says.emit_bind (.startInput p) ?_ hinh
  have hend : Says env c _ _ _ := Says.emit_pure (.endInput (inputNext m p)) (inputNext m p)
  -- without upstream data, or for a generation input, there is nothing to spend
  have hskip : edgeWords env.gNeedUpstream m i p = 1 →
      (∀ s, findUpstream env false m p s = .ok none s) → Says env c
      (do let upTX ← findUpstream env false m p
          forSome upTX fun e => spendUpstream m p e.1 e.2 (load m (p + 32) 4) h i
            (loadVarInt m (p + 36)).2 (loadVarInt m (p + 36)).1
          onlyIf (!false) (emit (.endInput (inputNext m p)))
          pure (inputNext m p))
      (edgeWords env.gNeedUpstream m i p * {[.endInput (inputNext m p)]}) (inputNext m p) := by
    intro hone hfind
    rw [hone, one_mul]
    intro s hs
    rw [run_bind_ok (hfind s)]
    exact hend s hs
  by_cases hneed : env.gNeedUpstream = true
  · by_cases hgen : Memory.hash m p = nullHash
    · refine hskip (by simp [edgeWords, hgen]) ?_
      intro s
      simp [findUpstream, hneed, hgen]
    · have hedge : edgeWords env.gNeedUpstream m i p = edgeOf m i p := by
        simp [edgeWords, hneed, hgen]
      refine Emits.silent_bind hinh ?_
      intro s hs
      cases hf : findTXO s (Memory.hash m p) with
      | none =>
        have hfind : findUpstream env false m p s =
            .error (.errFatal "failed to locate upstream transaction") s := by
          simp [findUpstream, hneed, hgen, getState, run_bind, hf, fault]
        rw [hfind]
        exact ⟨hneed, rfl⟩
      | some e =>
        have hfind : findUpstream env false m p s = .ok (some e) s := by
          simp [findUpstream, hneed, hgen, getState, run_bind, hf]
        rw [hfind]
        refine ⟨hs, rfl, ?_⟩
        rw [hedge]
        exact Emits.bind (spendUpstream_words hneed p e.1 e.2 h i) hend (inhabited_word _)
  · refine hskip (by simp [edgeWords, hneed]) ?_
    intro s
    simp [findUpstream, hneed]

theorem parseInputs_words (p : Ptr) (h : HashPtr) :
    Says env c (parseInputs env false m p h) (inputsWords env.gNeedUpstream m p)
      (inputsNext m p) := by
  refine Says.emit_bind (.startInputs p) ?_ ?_
  · exact (Emits.forCount (inputWords_inhabited env.gNeedUpstream m)
      (fun i p => parseInput_words h i p) _ _ _).bind (Says.emit_pure _ _) (inhabited_word _)
  · exact (inhabited_mul (loopWords_inhabited (inputWords_inhabited _ m) _ _ _) (inhabited_word _))

theorem newTXO_idle {h : HashPtr} {s : State} (hn : ¬env.gNeedUpstream = true) :
    newTXO env false h s = .ok none s := by
  have hf : env.gNeedUpstream = false := by simpa using hn
  simp [newTXO, hf]

theorem parseTXBody_words (h : HashPtr) (p : Ptr) :
    Says env c (parseTXBody env false m p h) (txWords env.coin env.gNeedUpstream m p)
      (txNext env.coin m p) := by
  have hrest := inhabited_mul (outputsWords_inhabited m (txOutputs env.coin m p))
    (inhabited_word [.endTX (txNext env.coin m p)])
  have hout : ∀ txo : Option Addr, (txo ≠ none → env.gNeedUpstream = true) → Says env c
      (do let q ← parseOutputs false m (txOutputs env.coin m p) h txo
          onlyIf (!false) (emit (.endTX (afterOutputs env.coin m (load m p 4) q)))
          pure (afterOutputs env.coin m (load m p 4) q))
      (outputsWords m (txOutputs env.coin m p) * {[.endTX (txNext env.coin m p)]})
      (txNext env.coin m p) :=
    fun txo ht => (parseOutputs_words _ h txo ht).bind (Says.emit_pure _ _) (inhabited_word _)
  refine Says.getState_bind fun s => ?_
  have hstart : Says env c (emit (.startTX p (h.arg s.heap))) (startTXWords p) () :=
    (Says.emit _).mono (by rintro w rfl; exact ⟨_, rfl⟩)
  refine hstart.bind ?_ (inhabited_mul (inputsWords_inhabited _ m _) hrest)
  refine (parseInputs_words (beforeInputs env.coin p) h).bind ?_ hrest
  refine Emits.silent_bind hrest ?_
  intro s' hs'
  have hq := Quiet.newTXO env false h s'
  cases hr : newTXO env false h s' with
  | error e s'' =>
    rw [hr] at hq
    refine ⟨?_, hq⟩
    by_contra hn
    rw [newTXO_idle hn] at hr
    cases hr
  | ok txo s'' =>
    rw [hr] at hq
    refine ⟨hq.2.trans hs', hq.1, hout txo ?_⟩
    intro hne
    by_contra hn
    rw [newTXO_idle hn] at hr
    cases hr
    exact hne rfl

theorem parseTX_words (p : Ptr) :
    Says env c (parseTX env false m p) (txWords env.coin env.gNeedUpstream m p)
      (txNext env.coin m p) := by
  by_cases hn : env.gNeedUpstream = true
  · exact Says.quiet_bind (Quiet.hashTX env m p) hn (fun h => parseTXBody_words h p)
      (txWords_inhabited _ _ m p)
  · intro s hs
    have hh : hashTX env m p s = .ok .null s := by simp [hashTX, hn]
    have he : parseTX env false m p s = parseTXBody env false m p .null s := run_bind_ok hh
    rw [he]
    exact parseTXBody_words .null p s hs

theorem txsWords_inhabited (coin : Coin) (need : Bool) (m : Memory) (n : Nat) (p : Ptr) :
    ∃ w, w ∈ txsWords coin need m n p := by
  induction n generalizing p with
  | zero => exact ⟨[], rfl⟩
  | succ n ih => exact inhabited_mul (txWords_inhabited coin need m p) (ih _)

theorem done_words (env : Env) (c : Nat) : SaysTo env c (c + 1) (done env) 1 (env.done c) := by
  intro s he
  subst he
  exact ⟨rfl, rfl, [], rfl, (List.append_nil _).symm⟩

/-- The loop of parseBlock stops at the first transaction after which the callback
is done. -/
theorem parseTXs_words (n : Nat) (p : Ptr) :
    SaysTo env c (c + (cutAt env.done c n).1) (parseTXs env m n p)
      (txsWords env.coin env.gNeedUpstream m (cutAt env.done c n).1 p)
      ((cutAt env.done c n).2, txsNext env.coin m (cutAt env.done c n).1 p) := by
  induction n generalizing c p with
  | zero => exact Emits.pure _
  | succ n ih =>
    have hinh := fun k => txsWords_inhabited env.coin env.gNeedUpstream m k (txNext env.coin m p)
    by_cases hd : env.done c = true
    · have hcut : cutAt env.done c (n+1) = (1, true) := by simp [cutAt, hd]
      rw [hcut]
      refine (parseTX_words p).bind ?_ (hinh 0)
      rw [show txsWords env.coin env.gNeedUpstream m 0 (txNext env.coin m p) = 1 * 1 from
        (one_mul 1).symm]
      refine (done_words env c).bind ?_ ⟨[], rfl⟩
      rw [if_pos hd]
      exact Emits.pure _
    · have hcut : cutAt env.done c (n+1) =
          ((cutAt env.done (c+1) n).1 + 1, (cutAt env.done (c+1) n).2) := by simp [cutAt, hd]
      rw [hcut]
      refine (parseTX_words p).bind ?_ (hinh _)
      rw [← one_mul (txsWords env.coin env.gNeedUpstream m _ _)]
      refine (done_words env c).bind ?_ (hinh _)
      rw [if_neg hd]
      have hstep := ih (c := c + 1) (txNext env.coin m p)
      rwa [show c + 1 + (cutAt env.done (c+1) n).1 = c + ((cutAt env.done (c+1) n).1 + 1) by omega]
        at hstep

/-- How often parseBlock asks the callback. -/
def asked (cut : Nat × Bool) : Nat := if cut.2 then cut.1 else cut.1 + 1

theorem parseBlock_words (b : BlockRef) :
    let cut := cutAt env.done c (loadVarInt m (afterHeader env.coin 0)).1
    SaysTo env c (c + asked cut) (parseBlock env b m)
      (blockWords env.coin env.gNeedUpstream b m cut)
      (if cut.2 then true else env.done (c + cut.1)) := by
  intro cut
  have htail : ∃ w, w ∈ (if cut.2 then 1 else
      {[.endTXs (txsNext env.coin m cut.1 (loadVarInt m (afterHeader env.coin 0)).2),
        .endBlock b]} : Language Call) := by
    split
    · exact ⟨[], rfl⟩
    · exact inhabited_word _
  have htxs := inhabited_mul (txsWords_inhabited env.coin env.gNeedUpstream m cut.1
    (loadVarInt m (afterHeader env.coin 0)).2) htail
  refine Emits.bind (Says.emit _) ?_ (inhabited_mul (inhabited_word _) htxs)
  refine Emits.bind (Says.emit _) ?_ htxs
  refine Emits.bind (parseTXs_words _ _) ?_ htail
  cases hc : cut.2 with
  | true =>
    have ha : asked cut = cut.1 := by simp [asked, hc]
    rw [ha]
    exact Emits.pure _
  | false =>
    have ha : asked cut = cut.1 + 1 := by simp [asked, hc]
    rw [ha]
    refine fun s hs => ?_
    exact ⟨congrArg env.done hs, congrArg Nat.succ hs, _, rfl, by
      show (s.calls ++ [_]) ++ [_] = _
      rw [List.append_assoc]; rfl⟩

theorem erase_append (v w : List Call) : erase (v ++ w) = erase v ++ erase w :=
  List.filterMap_append

/-- The words of a language that depends on whether upstream data is needed all
erase to one word. -/
def OneErasure (F : Bool → Language Call) : Prop := ∃ v, ∀ need, ∀ w ∈ F need, erase w = v

theorem OneErasure.word (w : List Call) : OneErasure fun _ => {w} := by
  refine ⟨erase w, ?_⟩
  rintro - v rfl
  rfl

theorem OneErasure.one : OneErasure fun _ => 1 := OneErasure.word []

theorem OneErasure.mul {F G : Bool → Language Call} (hF : OneErasure F) (hG : OneErasure G) :
    OneErasure fun need => F need * G need := by
  obtain ⟨u, hu⟩ := hF
  obtain ⟨v, hv⟩ := hG
  refine ⟨u ++ v, ?_⟩
  rintro need _ ⟨w, hw, x, hx, rfl⟩
  show erase (w ++ x) = u ++ v
  rw [erase_append, hu need w hw, hv need x hx]

theorem OneErasure.loop {L : Bool → Nat → Ptr → Language Call} {next : Nat → Ptr → Ptr}
    (h : ∀ i p, OneErasure fun need => L need i p) (n i : Nat) (p : Ptr) :
    OneErasure fun need => loopWords (L need) next n i p := by
  induction n generalizing i p with
  | zero => exact OneErasure.one
  | succ n ih => exact (h i p).mul (ih (i+1) (next i p))

theorem OneErasure.input (m : Memory) (i : Nat) (p : Ptr) :
    OneErasure fun need => inputWords need m i p := by
  refine ⟨[.startInput p, .endInput (inputNext m p)], ?_⟩
  rintro need _ ⟨e, he, rfl⟩
  have hnil : erase e = [] := by
    unfold edgeWords at he
    split at he
    · obtain ⟨_, _, _, _, rfl⟩ := he
      rfl
    · rw [show e = [] from he]
      rfl
  rw [inputCalls, erase_append, erase_append, hnil]
  rfl

theorem OneErasure.output (m : Memory) (i : Nat) (p : Ptr) :
    OneErasure fun _ => outputWords m i p := by
  refine ⟨outputCalls m noHash i p, ?_⟩
  rintro - _ ⟨h, rfl⟩
  rfl

theorem OneErasure.tx (coin : Coin) (m : Memory) (p : Ptr) :
    OneErasure fun need => txWords coin need m p := by
  have hstart : OneErasure fun _ => startTXWords p := by
    refine ⟨[.startTX p noHash], ?_⟩
    rintro - _ ⟨h, rfl⟩
    rfl
  have hin : OneErasure fun need => inputsWords need m (beforeInputs coin p) :=
    (OneErasure.word _).mul ((OneErasure.loop (OneErasure.input m) _ _ _).mul (OneErasure.word _))
  have hout : OneErasure fun _ => outputsWords m (txOutputs coin m p) :=
    (OneErasure.word _).mul ((OneErasure.loop (L := fun _ => outputWords m)
      (OneErasure.output m) _ _ _).mul (OneErasure.word _))
  exact hstart.mul (hin.mul (hout.mul (OneErasure.word _)))

theorem OneErasure.txs (coin : Coin) (m : Memory) (n : Nat) (p : Ptr) :
    OneErasure fun need => txsWords coin need m n p := by
  induction n generalizing p with
  | zero => exact OneErasure.one
  | succ n ih => exact (OneErasure.tx coin m p).mul (ih _)

theorem OneErasure.block (coin : Coin) (b : BlockRef) (m : Memory) (cut : Nat × Bool) :
    OneErasure fun need => blockWords coin need b m cut := by
  have htail : OneErasure fun _ => if cut.2 then 1 else
      {[.endTXs (txsNext coin m cut.1 (loadVarInt m (afterHeader coin 0)).2), .endBlock b]} := by
    split
    · exact OneErasure.one
    · exact OneErasure.word _
  exact (OneErasure.word _).mul ((OneErasure.word _).mul ((OneErasure.txs coin m _ _).mul htail))

/-- The loop over `n` transactions is cut right after the first one for which the
callback answers that it is done, and is not cut when it never does. -/
def FirstDone (done : Nat → Bool) (c n : Nat) (cut : Nat × Bool) : Prop :=
  if cut.2 then 0 < cut.1 ∧ cut.1 ≤ n ∧ done (c + (cut.1 - 1)) = true ∧
      ∀ i, i < cut.1 - 1 → done (c + i) = false
  else cut.1 = n ∧ ∀ i, i < n → done (c + i) = false

theorem cutAt_firstDone (done : Nat → Bool) (c n : Nat) :
    FirstDone done c n (cutAt done c n) := by
  induction n generalizing c with
  | zero => simp [cutAt, FirstDone]
  | succ n ih =>
    by_cases hd : done c = true
    · simp [cutAt, hd, FirstDone]
    · have hd' : done c = false := by simpa using hd
      have hback : ∀ k, (∀ i, i < k → done (c + 1 + i) = false) →
          ∀ i, i < k + 1 → done (c + i) = false := by
        intro k hk i hi
        cases i with
        | zero => exact hd'
        | succ i =>
          have := hk i (by omega)
          rwa [add_assoc, add_comm 1 i] at this
      have h := ih (c + 1)
      rw [cutAt, if_neg hd]
      unfold FirstDone at h ⊢
      dsimp only
      split at h
      · rename_i hc
        obtain ⟨h0, hn, ht, hf⟩ := h
        rw [if_pos hc]
        refine ⟨by omega, by omega, ?_, ?_⟩
        · rwa [show c + ((cutAt done (c+1) n).1 + 1 - 1) = c + 1 + ((cutAt done (c+1) n).1 - 1)
            by omega]
        · intro i hi
          exact hback _ hf i (by omega)
      · rename_i hc
        rw [if_neg hc]
        exact ⟨by omega, hback n h.2⟩

/-- The calls made once a run has ended or stopped. -/
def callsAfter {α : Type} : EStateM.Result Fault State α → List Call
  | .ok _ s => s.calls
  | .error _ s => s.calls

/-- The calls of parseBlock form the word of the block, cut where the callback is
done. A parse with upstream data may stop before the end of the word; without, it
never stops. Up to edges and hashes the word does not depend on upstream data. -/
theorem parseBlock_protocol (env : Env) (b : BlockRef) (m : Memory) (s : State) :
    ∃ cut, FirstDone env.done s.nbDone (loadVarInt m (afterHeader env.coin 0)).1 cut ∧
      (match parseBlock env b m s with
        | .ok _ s' => ∃ w ∈ blockWords env.coin env.gNeedUpstream b m cut,
            s'.calls = s.calls ++ w
        | .error _ s' => env.gNeedUpstream = true ∧
            ∃ w v, w ++ v ∈ blockWords env.coin env.gNeedUpstream b m cut ∧
              s'.calls = s.calls ++ w) ∧
      OneErasure fun need => blockWords env.coin need b m cut := by
  refine ⟨_, cutAt_firstDone env.done s.nbDone _, ?_, OneErasure.block env.coin b m _⟩
  have h := @parseBlock_words env _ m b s rfl
  cases hr : parseBlock env b m s with
  | ok r s' =>
    rw [hr] at h
    exact h.2.2
  | error e s' =>
    rw [hr] at h
    exact h

theorem endBlock_mem_blockWords {coin : Coin} {need : Bool} {b : BlockRef} {m : Memory} {k : Nat}
    {w : List Call} (h : w ∈ blockWords coin need b m (k, false)) : .endBlock b ∈ w := by
  obtain ⟨_, -, _, ⟨_, -, _, ⟨_, -, _, rfl, rfl⟩, rfl⟩, rfl⟩ := h
  simp

/-- The first input of this block names a transaction the store does not hold: the
run stops at its startInput. -/
theorem parseBlock_stops_short :
    ¬ ∀ (env : Env) (b : BlockRef) (m : Memory) (s : State) (cut : Nat × Bool),
      FirstDone env.done s.nbDone (loadVarInt m (afterHeader env.coin 0)).1 cut →
      ∃ w ∈ blockWords env.coin env.gNeedUpstream b m cut,
        callsAfter (parseBlock env b m s) = s.calls ++ w := by
  intro h
  let env : Env := ⟨.bitcoin, true, fun _ => nullHash, fun _ => false⟩
  let m : Memory := fun i => if 80 ≤ i then 1 else 0
  obtain ⟨w, hw, he⟩ := h env 0 m .start (1, false) ⟨by decide, fun _ _ => rfl⟩
  have hend := endBlock_mem_blockWords hw
  have hcalls : callsAfter (parseBlock env 0 m .start) = w := he
  rw [← hcalls] at hend
  exact absurd hend (by decide)

end Blockparser.Protocol
