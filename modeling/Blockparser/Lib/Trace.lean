import Mathlib.Tactic
import Mathlib.Computability.Language
import Mathlib.Order.CompletePartialOrder

/-! Runs that log what they do. A step runs in `EStateM`: it returns a value or
stops with a fault, and both outcomes keep the state. `Emits` says which words a
run may append to its log; a run that stops has logged a prefix of such a word. -/
namespace Trace
variable {ε σ α β κ π : Type}

/-- Run `m` only when `c` holds. -/
def onlyIf (c : Bool) (m : EStateM ε σ Unit) : EStateM ε σ Unit :=
  if c then m else pure ()

/-- Run `f` on the value of `o`, when there is one. -/
def forSome (o : Option α) (f : α → EStateM ε σ Unit) : EStateM ε σ Unit :=
  match o with
  | some a => f a
  | none => pure ()

/-- The counted loop `for(i=0; i<n; ++i)`, threading a cursor through its body. -/
def forCount (body : Nat → π → EStateM ε σ π) : Nat → Nat → π → EStateM ε σ π
  | 0, _, p => pure p
  | n+1, i, p => do
      let p ← body i p
      forCount body n (i+1) p

/-- The cursor after `n` turns of a loop whose body moves it by `next`. -/
def cursorAfter (next : Nat → π → π) : Nat → Nat → π → π
  | 0, _, p => p
  | n+1, i, p => cursorAfter next n (i+1) (next i p)

/-- The log of `n` turns of a loop: one word of `L` a turn. -/
def loopWords (L : Nat → π → Language κ) (next : Nat → π → π) : Nat → Nat → π → Language κ
  | 0, _, _ => 1
  | n+1, i, p => L i p * loopWords L next n (i+1) (next i p)

@[simp] theorem run_pure (a : α) (s : σ) :
    (pure a : EStateM ε σ α) s = .ok a s := rfl

theorem run_bind (m : EStateM ε σ α) (f : α → EStateM ε σ β) (s : σ) :
    (m >>= f) s = match m s with
      | .ok a s' => f a s'
      | .error e s' => .error e s' := rfl

theorem run_bind_ok {m : EStateM ε σ α} {f : α → EStateM ε σ β} {s s' : σ} {a : α}
    (h : m s = .ok a s') : (m >>= f) s = f a s' := by
  rw [run_bind, h]

theorem run_bind_error {m : EStateM ε σ α} {f : α → EStateM ε σ β} {s s' : σ} {e : ε}
    (h : m s = .error e s') : (m >>= f) s = .error e s' := by
  rw [run_bind, h]

/-- What a run does from every state satisfying `P`: it returns `a`, ends in `Q` and
appends a word of `L` to the log, or it stops, which only happens when `stop`
holds, after a prefix of such a word. -/
def Emits (log : σ → List κ) (stop : Prop) (P Q : σ → Prop)
    (m : EStateM ε σ α) (L : Language κ) (a : α) : Prop :=
  ∀ s, P s → match m s with
    | .ok b s' => b = a ∧ Q s' ∧ ∃ w ∈ L, log s' = log s ++ w
    | .error _ s' => stop ∧ ∃ w v, w ++ v ∈ L ∧ log s' = log s ++ w

variable {log : σ → List κ} {P Q R : σ → Prop} {stop : Prop}
  {m : EStateM ε σ α} {f : α → EStateM ε σ β} {L K : Language κ} {a : α} {b : β}

theorem Emits.pure (a : α) : Emits (ε := ε) log stop P P (pure a) 1 a := by
  intro s hs
  exact ⟨rfl, hs, [], rfl, by simp⟩

theorem Emits.mono (h : Emits log stop P Q m L a) (hLK : L ≤ K) : Emits log stop P Q m K a := by
  intro s hs
  have hm := h s hs
  cases hr : m s with
  | ok b s' =>
    rw [hr] at hm
    obtain ⟨hb, hP, w, hw, hl⟩ := hm
    exact ⟨hb, hP, w, hLK hw, hl⟩
  | error e s' =>
    rw [hr] at hm
    obtain ⟨hst, w, v, hw, hl⟩ := hm
    exact ⟨hst, w, v, hLK hw, hl⟩

/-- Sequencing concatenates the logs. The second language is inhabited, so that a
stop in the first part is a prefix of a word of the whole. -/
theorem Emits.bind (hm : Emits log stop P Q m L a) (hf : Emits log stop Q R (f a) K b)
    (hK : ∃ w, w ∈ K) : Emits log stop P R (m >>= f) (L * K) b := by
  intro s hs
  have h1 := hm s hs
  rw [run_bind]
  cases hr : m s with
  | error e s' =>
    rw [hr] at h1
    obtain ⟨hst, w, v, hw, hl⟩ := h1
    obtain ⟨u, hu⟩ := hK
    refine ⟨hst, w, v ++ u, ?_, hl⟩
    rw [← List.append_assoc]
    exact Language.append_mem_mul hw hu
  | ok c s' =>
    rw [hr] at h1
    obtain ⟨rfl, hP, w, hw, hl⟩ := h1
    have h2 := hf s' hP
    show match f c s' with
      | .ok b' s'' => b' = b ∧ R s'' ∧ ∃ w ∈ L * K, log s'' = log s ++ w
      | .error _ s'' => stop ∧ ∃ w v, w ++ v ∈ L * K ∧ log s'' = log s ++ w
    cases hr2 : f c s' with
    | ok b' s'' =>
      rw [hr2] at h2
      obtain ⟨hb, hP', w', hw', hl'⟩ := h2
      exact ⟨hb, hP', w ++ w', Language.append_mem_mul hw hw', by rw [hl', hl, List.append_assoc]⟩
    | error e s'' =>
      rw [hr2] at h2
      obtain ⟨hst, w', v, hw', hl'⟩ := h2
      refine ⟨hst, w ++ w', v, ?_, by rw [hl', hl, List.append_assoc]⟩
      rw [List.append_assoc]
      exact Language.append_mem_mul hw hw'

/-- A silent step before the rest of a run, whatever value it hands on. -/
theorem Emits.silent_bind {K : Language κ} (hK : ∃ w, w ∈ K)
    (hm : ∀ s, P s → match m s with
      | .ok c s' => P s' ∧ log s' = log s ∧ Emits log stop P R (f c) K b
      | .error _ s' => stop ∧ log s' = log s) : Emits log stop P R (m >>= f) K b := by
  intro s hs
  have h1 := hm s hs
  rw [run_bind]
  cases hr : m s with
  | error e s' =>
    rw [hr] at h1
    obtain ⟨w, hw⟩ := hK
    exact ⟨h1.1, [], w, hw, by simp [h1.2]⟩
  | ok c s' =>
    rw [hr] at h1
    obtain ⟨hP, hl, hf⟩ := h1
    have h2 := hf s' hP
    rw [hl] at h2
    exact h2

theorem loopWords_inhabited {L : Nat → π → Language κ} {next : Nat → π → π}
    (h : ∀ i p, ∃ w, w ∈ L i p) (n i : Nat) (p : π) : ∃ w, w ∈ loopWords L next n i p := by
  induction n generalizing i p with
  | zero => exact ⟨[], rfl⟩
  | succ n ih =>
    obtain ⟨w, hw⟩ := h i p
    obtain ⟨v, hv⟩ := ih (i+1) (next i p)
    exact ⟨w ++ v, Language.append_mem_mul hw hv⟩

/-- The letters of the words of a language. -/
def Letters (ok : κ → Prop) (L : Language κ) : Prop := ∀ w ∈ L, ∀ c ∈ w, ok c

theorem Letters.one (ok : κ → Prop) : Letters ok 1 := by
  rintro _ rfl c hc
  cases hc

theorem Letters.word {ok : κ → Prop} {w : List κ} (h : ∀ c ∈ w, ok c) : Letters ok {w} := by
  rintro _ rfl c hc
  exact h c hc

theorem Letters.mul {ok : κ → Prop} (hL : Letters ok L) (hK : Letters ok K) : Letters ok (L * K) := by
  rintro _ ⟨w, hw, v, hv, rfl⟩ c hc
  cases List.mem_append.mp hc with
  | inl hc => exact hL w hw c hc
  | inr hc => exact hK v hv c hc

theorem Letters.loop {ok : κ → Prop} {L : Nat → π → Language κ} {next : Nat → π → π}
    (h : ∀ i p, Letters ok (L i p)) (n i : Nat) (p : π) : Letters ok (loopWords L next n i p) := by
  induction n generalizing i p with
  | zero => exact Letters.one ok
  | succ n ih => exact (h i p).mul (ih (i+1) (next i p))

/-- So many letters of a kind a turn. -/
theorem countP_loopWords {q : κ → Bool} {k : Nat} {L : Nat → π → Language κ} {next : Nat → π → π}
    (h : ∀ i p, ∀ w ∈ L i p, w.countP q = k) {n i : Nat} {p : π} {w : List κ}
    (hw : w ∈ loopWords L next n i p) : w.countP q = n * k := by
  induction n generalizing i p w with
  | zero =>
    cases hw
    simp
  | succ n ih =>
    obtain ⟨v, hv, u, hu, rfl⟩ := hw
    rw [List.countP_append, h i p v hv, ih hu, Nat.succ_mul, Nat.add_comm]

/-- The loop rule: a body that logs a word of `L i p` and moves the cursor by
`next` makes a loop that logs one such word a turn. -/
theorem Emits.forCount {body : Nat → π → EStateM ε σ π} {L : Nat → π → Language κ}
    {next : Nat → π → π} (hL : ∀ i p, ∃ w, w ∈ L i p)
    (h : ∀ i p, Emits log stop P P (body i p) (L i p) (next i p)) (n i : Nat) (p : π) :
    Emits log stop P P (forCount body n i p) (loopWords L next n i p) (cursorAfter next n i p) := by
  induction n generalizing i p with
  | zero => exact Emits.pure p
  | succ n ih =>
    exact (h i p).bind (ih (i+1) (next i p)) (loopWords_inhabited hL n (i+1) (next i p))

/-- The run ends in a fault. -/
def Stops (m : EStateM ε σ α) (s : σ) : Prop := ∃ e s', m s = .error e s'

theorem Stops.left {s : σ} (h : Stops m s) : Stops (m >>= f) s := by
  obtain ⟨e, s', h⟩ := h
  exact ⟨e, s', run_bind_error h⟩

theorem Stops.right {s s' : σ} (hm : m s = .ok a s') (hf : Stops (f a) s') : Stops (m >>= f) s := by
  obtain ⟨e, s'', h⟩ := hf
  exact ⟨e, s'', (run_bind_ok hm).trans h⟩

theorem Stops.of_eq {m' : EStateM ε σ α} {s : σ} (he : m s = m' s) (h : Stops m' s) : Stops m s := by
  obtain ⟨e, s', h⟩ := h
  exact ⟨e, s', he.trans h⟩

theorem Stops.not_ok {s s' : σ} (h : Stops m s) : m s ≠ .ok a s' := by
  obtain ⟨e, s'', h⟩ := h
  simp [h]

/-- A relation between the states around a run that logs a word. -/
structure Logging (R : List κ → σ → σ → Prop) : Prop where
  nil : ∀ s, R [] s s
  append : ∀ {v w s s' s''}, R v s s' → R w s' s'' → R (v ++ w) s s''

/-- The exact run: from every state satisfying `P`, `m` returns `a`, ends in `Q` and
logs `w`. -/
def Runs (R : List κ → σ → σ → Prop) (P Q : σ → Prop) (m : EStateM ε σ α) (w : List κ) (a : α) :
    Prop :=
  ∀ s, P s → ∃ s', m s = .ok a s' ∧ Q s' ∧ R w s s'

variable {E : List κ → σ → σ → Prop} {v w : List κ}

theorem Runs.pure (hE : Logging E) (a : α) : Runs (ε := ε) E P P (pure a) [] a :=
  fun s hs => ⟨s, rfl, hs, hE.nil s⟩

theorem Runs.bind (hE : Logging E) (hm : Runs E P Q m v a) (hf : Runs E Q R (f a) w b) :
    Runs E P R (m >>= f) (v ++ w) b := by
  intro s hs
  obtain ⟨s', hr, hQ, hv⟩ := hm s hs
  obtain ⟨s'', hr', hR, hw⟩ := hf s' hQ
  exact ⟨s'', by rw [run_bind_ok hr, hr'], hR, hE.append hv hw⟩

/-- A first part whose result depends on the state. -/
theorem Runs.bind_any {Q : α → σ → Prop} (hE : Logging E)
    (hm : ∀ s, P s → ∃ a s', m s = .ok a s' ∧ Q a s' ∧ E v s s')
    (hf : ∀ a, Runs E (Q a) R (f a) w b) : Runs E P R (m >>= f) (v ++ w) b := by
  intro s hs
  obtain ⟨a, s', hr, hQ, hv⟩ := hm s hs
  obtain ⟨s'', hr', hR, hw⟩ := hf a s' hQ
  exact ⟨s'', by rw [run_bind_ok hr, hr'], hR, hE.append hv hw⟩

theorem Runs.post (hm : Runs E P Q m w a) {Q' : σ → Prop} (hQ : ∀ s, Q s → Q' s) :
    Runs E P Q' m w a := by
  intro s hs
  obtain ⟨s', hr, hQs, hw⟩ := hm s hs
  exact ⟨s', hr, hQ s' hQs, hw⟩

end Trace
