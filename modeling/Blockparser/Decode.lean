import Blockparser.Store

/-! The calls a parse makes over an encoded transaction, and the traversals that make
them, whatever is done about upstream data on the way. -/
namespace Blockparser.Decode
open Bytes Trace MemoryManager Blockparser.Parser Cursor Format Utxo Store

/-- Around a run that makes the calls `w`: at each of them the cells of `K` read as `K`
says, and the hash pool only gets cells of `K` back. -/
structure Logs (K : Addr → Hash256 → Prop) (w : List Call) (s s' : State) : Prop where
  calls : s'.calls = s.calls ++ w
  views : ∃ vs, s'.views = s.views ++ vs ∧ vs.length = w.length ∧
    ∀ f ∈ vs, ∀ a v, K a v → f a = v
  garbage : ∃ ds, s'.heap.hashGarbage = ds ++ s.heap.hashGarbage ∧ ∀ d ∈ ds, ∃ v, K d v

theorem logging (K : Addr → Hash256 → Prop) : Logging (Logs K) where
  nil s := ⟨by simp, ⟨[], by simp, rfl, by simp⟩, [], by simp, by simp⟩
  append := by
    intro v w s s' s'' h1 h2
    obtain ⟨vs, hv, hvl, hvK⟩ := h1.views
    obtain ⟨ws, hw, hwl, hwK⟩ := h2.views
    obtain ⟨ds, hd, hdK⟩ := h1.garbage
    obtain ⟨es, he, heK⟩ := h2.garbage
    refine ⟨by rw [h2.calls, h1.calls, List.append_assoc], ?_, ?_⟩
    · refine ⟨vs ++ ws, by rw [hw, hv, List.append_assoc], by simp [hvl, hwl], ?_⟩
      intro f hf
      cases List.mem_append.mp hf with
      | inl hf =>
        exact hvK f hf
      | inr hf =>
        exact hwK f hf
    · refine ⟨es ++ ds, by rw [he, hd, List.append_assoc], ?_⟩
      intro d hdm
      cases List.mem_append.mp hdm with
      | inl hdm =>
        exact heK d hdm
      | inr hdm =>
        exact hdK d hdm

/-- A predicate that no call disturbs and that fixes what the cells of `K` hold. -/
structure Watches (K : Addr → Hash256 → Prop) (P : State → Prop) : Prop where
  emit : ∀ s cs vs, P s → P { s with calls := cs, views := vs }
  view : ∀ s, P s → ∀ a v, K a v → (s.heap.cells a).hash = v

variable {K : Addr → Hash256 → Prop} {P Q : State → Prop} {env : Env} {m : Memory} {p : Ptr}
  {α : Type}

theorem emit_runs (hP : Watches K P) (c : Call) : Runs (Logs K) P P (emit c) [c] () := by
  intro s hs
  refine ⟨_, rfl, hP.emit s _ _ hs, rfl, ⟨_, rfl, rfl, ?_⟩, [], rfl, by simp⟩
  intro f hf a v hK
  rw [List.mem_singleton.mp hf]
  exact hP.view s hs a v hK

theorem emit_pure_runs (hP : Watches K P) (c : Call) (r : α) :
    Runs (Logs K) P P (do emit c; pure r) [c] r :=
  (emit_runs hP c).bind (logging K) (Runs.pure (logging K) r)

/-- A step that makes no call and leaves the hash pool alone. -/
theorem runs_of_quiet {a : M α} {r : α} (h : ∀ s, P s → ∃ s', a s = .ok r s' ∧ Q s' ∧
    s'.calls = s.calls ∧ s'.views = s.views ∧ s'.heap.hashGarbage = s.heap.hashGarbage) :
    Runs (Logs K) P Q a [] r := by
  intro s hs
  obtain ⟨s', hr, hQ, hc, hv, hg⟩ := h s hs
  exact ⟨s', hr, hQ, by simp [hc], ⟨[], by simp [hv], rfl, by simp⟩, [], by simp [hg], by simp⟩

/-- startInput edge? endInput -/
def inputCalls (x : TxInput) (edge : List Call) (p : Ptr) : List Call :=
  [.startInput p] ++ (edge ++ [.endInput (p + x.encode.length)])

/-- startOutput endOutput -/
def outputCalls (o : TxOutput) (h : HashArg) (i : Nat) (p : Ptr) : List Call :=
  [.startOutput p, .endOutput (p + o.encode.length) o.value.toNat h i o.script o.script.length]

/-- The ledger after an input: generation inputs spend nothing. -/
def spendInput (L : TXOs) (x : TxInput) : TXOs :=
  if x.prevHash = nullHash then L else L.spend x.prevHash x.prevIndex.toNat

def inputsCalls (edge : TXOs → Nat → TxInput → List Call) :
    TXOs → Nat → Ptr → List TxInput → List Call
  | _, _, _, [] => []
  | L, i, p, x :: xs =>
    inputCalls x (edge L i x) p ++
      inputsCalls edge (spendInput L x) (i + 1) (p + x.encode.length) xs

def outputsCalls (h : HashArg) : Nat → Ptr → List TxOutput → List Call
  | _, _, [] => []
  | i, p, o :: os => outputCalls o h i p ++ outputsCalls h (i + 1) (p + o.encode.length) os

/-- The calls of a transaction that stands at `p` and meets the ledger `L`. -/
def txCalls (coin : Coin) (edge : TXOs → Nat → TxInput → List Call) (h : HashArg) (L : TXOs)
    (t : Tx) (p : Ptr) : List Call :=
  [.startTX p h] ++
    (([.startInputs (t.inputsAt coin p)] ++
      (inputsCalls edge L 0 (t.inputsAt coin p + (encodeVarInt t.inputs.length).length) t.inputs ++
        [.endInputs (t.outputsAt coin p)])) ++
    (([.startOutputs (t.outputsAt coin p)] ++
      (outputsCalls h 0 (t.outputsAt coin p + (encodeVarInt t.outputs.length).length) t.outputs ++
        [.endOutputs (t.lockTimeAt coin p)])) ++
    [.endTX (p + (t.encode coin).length)]))

/-- Every input of the list meets `Ok` in the ledger it finds. -/
def AllInputs (Ok : TXOs → TxInput → Prop) : TXOs → List TxInput → Prop
  | _, [] => True
  | L, x :: xs => Ok L x ∧ AllInputs Ok (spendInput L x) xs

variable {I : TXOs → State → Prop} {J : List TxOutput → State → Prop}
  {edge : TXOs → Nat → TxInput → List Call} {Ok : TXOs → TxInput → Prop} {h : HashPtr}
  {arg : HashArg}

/-- The input loop: each turn takes the ledger past one input. -/
theorem inputs_runs (hbody : ∀ L i p x, Holds m p x.encode → Ok L x →
      Runs (Logs K) (I L) (I (spendInput L x)) (parseInput env false m h i p)
        (inputCalls x (edge L i x) p) (p + x.encode.length))
    (xs : List TxInput) (L : TXOs) (i : Nat) (p : Ptr) (hok : AllInputs Ok L xs)
    (hm : Holds m p (encodeInputs xs)) :
    Runs (Logs K) (I L) (I (xs.foldl spendInput L))
      (forCount (parseInput env false m h) xs.length i p) (inputsCalls edge L i p xs)
      (p + (encodeInputs xs).length) := by
  induction xs generalizing L i p with
  | nil => simpa [encodeInputs, inputsCalls, forCount] using Runs.pure (logging K) p
  | cons x xs ih =>
    rw [encodeInputs, List.flatMap_cons] at hm
    obtain ⟨hx, hxs⟩ := holds_append.mp hm
    have hrest := ih (spendInput L x) (i + 1) (p + x.encode.length) hok.2 hxs
    have hlen : p + ((encodeInputs (x :: xs)).length : Int) =
        p + x.encode.length + (encodeInputs xs).length := by
      simp only [encodeInputs, List.flatMap_cons, List.length_append]
      push_cast
      ring
    rw [hlen]
    exact (hbody L i p x hx hok.1).bind (logging K) hrest

theorem parseInputs_runs (hI : ∀ L, Watches K (I L))
    (hbody : ∀ L i p x, Holds m p x.encode → Ok L x →
      Runs (Logs K) (I L) (I (spendInput L x)) (parseInput env false m h i p)
        (inputCalls x (edge L i x) p) (p + x.encode.length))
    {xs : List TxInput} (hlt : xs.length < 2 ^ 64) {L : TXOs} (hok : AllInputs Ok L xs)
    (hm : Holds m p (encodeVarInt xs.length ++ encodeInputs xs)) :
    Runs (Logs K) (I L) (I (xs.foldl spendInput L)) (parseInputs env false m p h)
      ([.startInputs p] ++ (inputsCalls edge L 0 (p + (encodeVarInt xs.length).length) xs ++
        [.endInputs (p + (encodeVarInt xs.length ++ encodeInputs xs).length)]))
      (p + (encodeVarInt xs.length ++ encodeInputs xs).length) := by
  obtain ⟨hn, hxs⟩ := holds_append.mp hm
  have hvar := loadVarInt_of_holds hlt hn
  have hloop := inputs_runs hbody xs L 0 _ hok hxs
  have hlen : p + ((encodeVarInt xs.length).length : Int) + (encodeInputs xs).length =
      p + (encodeVarInt xs.length ++ encodeInputs xs).length := by
    rw [List.length_append]
    push_cast
    ring
  rw [hlen] at hloop
  refine (emit_runs (hI L) _).bind (logging K) ?_
  rw [hvar]
  exact hloop.bind (logging K) (emit_pure_runs (hI _) _ _)

/-- An output in plain context issues startOutput and endOutput. -/
theorem parseOutput_runs (hP : Watches K P) (harg : ∀ s, P s → h.arg s.heap = arg) {o : TxOutput}
    (hm : Holds m p o.encode) (i : Nat) :
    Runs (Logs K) P P (parseOutput false false m p h i .null 0 [] 0) (outputCalls o arg i p)
      (p + o.encode.length) := by
  intro s hs
  obtain ⟨hvalue, hsize, hscript, hnext⟩ := output_of_holds hm
  have hprog : parseOutput false false m p h i .null 0 [] 0 s =
      (do emit (.startOutput p)
          emit (.endOutput (outputNext m p) (load m p 8) (h.arg s.heap) i
            (read m (loadVarInt m (p + 8)).2 (loadVarInt m (p + 8)).1) (loadVarInt m (p + 8)).1)
          pure (outputNext m p) : M Ptr) s := rfl
  rw [hprog, hnext, hvalue, hsize, hscript, harg s hs]
  exact (emit_runs hP _).bind (logging K) (emit_pure_runs hP _ _) s hs

/-- The output loop: `J os` is what holds once the outputs `os` have been kept. -/
theorem outputs_runs {txo : Option Addr} (hJ : ∀ os, Watches K (J os))
    (harg : ∀ os s, J os s → h.arg s.heap = arg) {all : List TxOutput}
    (hkeep : ∀ os o p, os ++ [o] <+: all → Holds m p o.encode → Runs (Logs K) (J os) (J (os ++ [o]))
      (forSome txo fun a => storeOutput m a os.length p (p + o.encode.length)) [] ())
    (os done : List TxOutput) (hall : done ++ os = all) (p : Ptr)
    (hm : Holds m p (encodeOutputs os)) :
    Runs (Logs K) (J done) (J all) (forCount (parseOutputsBody false m h txo) os.length done.length p)
      (outputsCalls arg done.length p os) (p + (encodeOutputs os).length) := by
  induction os generalizing done p with
  | nil =>
    rw [List.append_nil] at hall
    subst hall
    simpa [encodeOutputs, outputsCalls, forCount] using Runs.pure (logging K) p
  | cons o os ih =>
    rw [encodeOutputs, List.flatMap_cons] at hm
    obtain ⟨ho, hos⟩ := holds_append.mp hm
    have hrest := ih (done ++ [o]) (by simpa using hall) (p + o.encode.length) hos
    have hlen : p + ((encodeOutputs (o :: os)).length : Int) =
        p + o.encode.length + (encodeOutputs os).length := by
      simp only [encodeOutputs, List.flatMap_cons, List.length_append]
      push_cast
      ring
    have hpre : done ++ [o] <+: all := ⟨os, by simpa using hall⟩
    have hturn : Runs (Logs K) (J done) (J (done ++ [o]))
        (parseOutputsBody false m h txo done.length p)
        (outputCalls o arg done.length p ++ ([] ++ [])) (p + o.encode.length) :=
      (parseOutput_runs (hJ done) (harg done) ho done.length).bind (logging K)
        ((hkeep done o p hpre ho).bind (logging K) (Runs.pure (logging K) _))
    rw [hlen]
    rw [List.length_append] at hrest
    simpa [outputsCalls, forCount] using hturn.bind (logging K) hrest

theorem parseOutputs_runs {txo : Option Addr} {all : List TxOutput} (hP : Watches K P)
    (hJ : ∀ os, Watches K (J os)) (harg : ∀ os s, J os s → h.arg s.heap = arg)
    (hlt : all.length < 2 ^ 64)
    (halloc : Runs (Logs K) P (J []) (forSome txo fun a => allocRawData a all.length) [] ())
    (hkeep : ∀ os o p, os ++ [o] <+: all → Holds m p o.encode → Runs (Logs K) (J os) (J (os ++ [o]))
      (forSome txo fun a => storeOutput m a os.length p (p + o.encode.length)) [] ())
    (hm : Holds m p (encodeVarInt all.length ++ encodeOutputs all)) :
    Runs (Logs K) P (J all) (parseOutputs false m p h txo)
      ([.startOutputs p] ++ (outputsCalls arg 0 (p + (encodeVarInt all.length).length) all ++
        [.endOutputs (p + (encodeVarInt all.length ++ encodeOutputs all).length)]))
      (p + (encodeVarInt all.length ++ encodeOutputs all).length) := by
  obtain ⟨hn, hos⟩ := holds_append.mp hm
  have hvar := loadVarInt_of_holds hlt hn
  have hloop := outputs_runs hJ harg hkeep all [] rfl _ hos
  have hlen : p + ((encodeVarInt all.length).length : Int) + (encodeOutputs all).length =
      p + (encodeVarInt all.length ++ encodeOutputs all).length := by
    rw [List.length_append]
    push_cast
    ring
  rw [hlen] at hloop
  refine (emit_runs hP _).bind (logging K) ?_
  rw [hvar]
  refine halloc.bind (logging K) (v := []) ?_
  exact hloop.bind (logging K) (emit_pure_runs (hJ _) _ _)

theorem parseTXBody_eq (s : State) :
    parseTXBody env false m p h s =
      (do emit (.startTX p (h.arg s.heap))
          let p₁ ← parseInputs env false m (beforeInputs env.coin p) h
          let txo ← newTXO env false h
          let p₂ ← parseOutputs false m p₁ h txo
          emit (.endTX (afterOutputs env.coin m (load m p 4) p₂))
          pure (afterOutputs env.coin m (load m p 4) p₂) : M Ptr) s := rfl

/-- The whole transaction, from what each input and the entry of its outputs do. -/
theorem parseTXBody_runs {t : Tx} {L : TXOs} {Q : Option Addr → State → Prop}
    {J : Option Addr → List TxOutput → State → Prop} {R : State → Prop}
    (hI : ∀ L, Watches K (I L)) (hQ : ∀ txo, Watches K (Q txo))
    (hJ : ∀ txo os, Watches K (J txo os)) (hargI : ∀ s, I L s → h.arg s.heap = arg)
    (hargJ : ∀ txo os s, J txo os s → h.arg s.heap = arg)
    (hbody : ∀ L i p x, Holds m p x.encode → Ok L x →
      Runs (Logs K) (I L) (I (spendInput L x)) (parseInput env false m h i p)
        (inputCalls x (edge L i x) p) (p + x.encode.length))
    (hok : AllInputs Ok L t.inputs)
    (hnew : ∀ s, I (t.inputs.foldl spendInput L) s → ∃ txo s', newTXO env false h s = .ok txo s' ∧
      Q txo s' ∧ Logs K [] s s')
    (halloc : ∀ txo, Runs (Logs K) (Q txo) (J txo [])
      (forSome txo fun a => allocRawData a t.outputs.length) [] ())
    (hkeep : ∀ txo os o p, os ++ [o] <+: t.outputs → Holds m p o.encode →
      Runs (Logs K) (J txo os) (J txo (os ++ [o]))
        (forSome txo fun a => storeOutput m a os.length p (p + o.encode.length)) [] ())
    (hfin : ∀ txo s, J txo t.outputs s → R s) (hm : Holds m p (t.encode env.coin)) :
    Runs (Logs K) (I L) R (parseTXBody env false m p h)
      (txCalls env.coin edge arg L t p) (p + (t.encode env.coin).length) := by
  obtain ⟨hver, hin, hout, -⟩ := holds_encode hm
  have hend := afterOutputs_eq hm
  intro s hs
  rw [parseTXBody_eq, hargI s hs, hver, beforeInputs_eq (t := t)]
  have hinputs := parseInputs_runs hI hbody t.inputs_lt hok hin
  refine (emit_runs (hI L) _).bind (logging K) (hinputs.bind (logging K)
    (Runs.bind_any (logging K) (v := []) hnew fun txo => ?_)) s hs
  have houtputs := parseOutputs_runs (hQ txo) (hJ txo) (hargJ txo) t.outputs_lt (halloc txo)
    (hkeep txo) hout
  have hlast := emit_pure_runs (hJ txo t.outputs) (.endTX (p + (t.encode env.coin).length))
    (p + ((t.encode env.coin).length : Int))
  rw [← hend] at hlast ⊢
  exact houtputs.bind (logging K) (hlast.post (hfin txo))

end Blockparser.Decode
