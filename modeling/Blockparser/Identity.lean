import Blockparser.Chain

/-! The cell a callback is handed as txHash: how long it still reads as the id of its
transaction. -/
namespace Blockparser.Identity
open Bytes Trace MemoryManager Blockparser.Parser Cursor Format Utxo Store Decode Upstream
  Transaction Chain

/-- The txHash of startTX and endOutput. -/
def txHashArg : Call → Option HashArg
  | .startTX _ h => some h
  | .endOutput _ _ h _ _ _ => some h
  | _ => none

/-- Every cell handed out as a txHash reads, at every later call and at the end, as it
read when it was handed out. -/
def KeepsIdentity (s : State) : Prop :=
  ∀ (i : Nat) (c : Call) (a : Addr) (v : Hash256), s.calls[i]? = some c →
    txHashArg c = some ⟨some a, some v⟩ →
    (∀ (j : Nat) (f : Addr → Hash256), i ≤ j → s.views[j]? = some f → f a = v) ∧
      (s.heap.cells a).hash = v

/-- `t` spends the last unspent output of a transaction before it. -/
def SpendsLast (env : Env) (pre : List Tx) (t : Tx) : Prop :=
  ∃ u ∈ pre, (∃ i, i < u.outputs.length ∧ (txid env u, i) ∉ spent pre) ∧
    ∀ i, i < u.outputs.length → (txid env u, i) ∈ spent (pre ++ [t])

/-- No transaction but the last of the run spends the last unspent output of another. -/
def NoneSpent (env : Env) (ts : List Tx) : Prop :=
  ∀ pre t post, ts = pre ++ t :: post → post ≠ [] → ¬SpendsLast env pre t

variable {env : Env} {K : Addr → Hash256 → Prop} {loc : Role → Addr} {s : State} {t : Tx}
  {pre : List Tx}

/-- After the transactions of `pre`, `K` being the cells handed out so far. -/
structure Handed (env : Env) (K : Addr → Hash256 → Prop) (pre : List Tx) (s : State) : Prop where
  rep : ∃ loc, Rep loc ∅ K (ledger (pre.map (entryOf env))) s
  length : s.views.length = s.calls.length
  args : ∀ c ∈ s.calls, ∀ h, txHashArg c = some h → ∃ a v, h = ⟨some a, some v⟩ ∧ K a v
  handed : ∀ a v, K a v → ∃ c ∈ s.calls, txHashArg c = some ⟨some a, some v⟩
  ids : ∀ a v, K a v → v ∈ pre.map (txid env)
  one_cell : ∀ a b v, K a v → K b v → a = b
  one_id : ∀ a v w, K a v → K a w → v = w
  kept : ∀ (i : Nat) (c : Call) (a : Addr) (v : Hash256), s.calls[i]? = some c →
    txHashArg c = some ⟨some a, some v⟩ →
    ∀ (j : Nat) (f : Addr → Hash256), i ≤ j → s.views[j]? = some f → f a = v

/-- Every call of a transaction that is given a txHash is given its cell. -/
theorem txCalls_args {coin : Coin} {edge : TXOs → Nat → TxInput → List Call} {h h' : HashArg}
    {L : TXOs} {p : Ptr} (hedge : ∀ L i x, ∀ c ∈ edge L i x, txHashArg c = none) {c : Call}
    (hc : c ∈ txCalls coin edge h L t p) (ha : txHashArg c = some h') : h' = h := by
  have hin : ∀ (xs : List TxInput) (L : TXOs) i p, ∀ c ∈ inputsCalls edge L i p xs,
      txHashArg c = none := by
    intro xs
    induction xs with
    | nil => exact fun _ _ _ _ hc => nomatch hc
    | cons x xs ih =>
      intro L i p c hc
      cases List.mem_append.mp hc with
      | inl hc =>
        cases List.mem_append.mp hc with
        | inl hc =>
          rw [List.mem_singleton.mp hc]
          rfl
        | inr hc =>
          cases List.mem_append.mp hc with
          | inl hc =>
            exact hedge L i x c hc
          | inr hc =>
            rw [List.mem_singleton.mp hc]
            rfl
      | inr hc =>
        exact ih _ _ _ c hc
  have hout : ∀ (os : List TxOutput) i p, ∀ c ∈ outputsCalls h i p os,
      ∀ h', txHashArg c = some h' → h' = h := by
    intro os
    induction os with
    | nil => exact fun _ _ _ hc => nomatch hc
    | cons o os ih =>
      intro i p c hc h' hh
      cases List.mem_append.mp hc with
      | inl hc =>
        cases List.mem_cons.mp hc with
        | inl he =>
          subst he
          cases hh
        | inr hc =>
          rw [List.mem_singleton.mp hc] at hh
          exact (Option.some_inj.mp hh).symm
      | inr hc =>
        exact ih _ _ c hc h' hh
  simp only [txCalls, List.mem_append, List.mem_singleton] at hc
  rcases hc with rfl | (rfl | hc | rfl) | (rfl | hc | rfl) | rfl
  · exact (Option.some_inj.mp ha).symm
  · cases ha
  · rw [hin _ _ _ _ c hc] at ha
    cases ha
  · cases ha
  · cases ha
  · exact hout _ _ _ c hc h' ha
  · cases ha
  · cases ha

theorem edgeCall_args (h : HashArg) (L : TXOs) (i : Nat) (x : TxInput) :
    ∀ c ∈ edgeCall h L i x, txHashArg c = none := by
  unfold edgeCall
  split
  · exact fun _ hc => nomatch hc
  · split
    · intro c hc
      rw [List.mem_singleton.mp hc]
      rfl
    · exact fun _ hc => nomatch hc

theorem handed_nil (hv : s.heap.Valid ∅) (hmap : s.gTXOMap = []) (hc : s.calls = [])
    (hview : s.views = []) : Handed env (fun _ _ => False) [] s := by
  obtain ⟨-, loc, hrep⟩ := empty_represents hv hmap
  exact {
    rep := ⟨loc, ⟨hrep.holding, fun t ht => absurd rfl ht, fun _ _ h => h.elim⟩, hrep.mapped⟩
    length := by rw [hc, hview]; rfl
    args := by simp [hc]
    handed := fun _ _ h => h.elim
    ids := fun _ _ h => h.elim
    one_cell := fun _ _ _ h => h.elim
    one_id := fun _ _ _ h => h.elim
    kept := by simp [hc] }

theorem Handed.keepsIdentity (hh : Handed env K pre s) : KeepsIdentity s := by
  intro i c a v hc ha
  refine ⟨hh.kept i c a v hc ha, ?_⟩
  obtain ⟨a', v', he, hK⟩ := hh.args c (List.mem_of_getElem? hc) _ ha
  obtain ⟨rfl, rfl⟩ : a = a' ∧ v = v' := by simpa using he
  obtain ⟨loc, hrep⟩ := hh.rep
  exact hrep.toKept.view hK

/-- Every transaction of `pre` still has an unspent output. -/
def AllLive (env : Env) (pre : List Tx) : Prop :=
  ∀ u ∈ pre, ledger (pre.map (entryOf env)) (txid env u) ≠ none

/-- While all its transactions live, the cell of an id is the key of its entry, and not
in the free list. -/
theorem Handed.key (hh : Handed env K pre s) (hlive : AllLive env pre)
    (hrep : Rep loc ∅ K (ledger (pre.map (entryOf env))) s) {a : Addr} {v : Hash256} (hK : K a v) :
    a = loc (.key v) ∧ ledger (pre.map (entryOf env)) v ≠ none := by
  obtain ⟨u, hu, rfl⟩ := List.mem_map.mp (hh.ids a v hK)
  exact ⟨hh.one_cell _ _ _ hK (hrep.keys _ (hlive u hu)), hlive u hu⟩

/-- One more transaction, whose calls are all given the cell `k`. -/
theorem Handed.extend (hh : Handed env K pre s) {s' : State} {w : List Call}
    {vs : List (Addr → Hash256)} {k : Addr}
    (hrep : ∃ loc, Rep loc ∅ (withKey K k (txid env t)) (ledger ((pre ++ [t]).map (entryOf env))) s')
    (hc : s'.calls = s.calls ++ w) (hv : s'.views = s.views ++ vs) (hlen : vs.length = w.length)
    (hvK : ∀ f ∈ vs, ∀ a v, withKey K k (txid env t) a v → f a = v)
    (hargs : ∀ c ∈ w, ∀ h, txHashArg c = some h → h = ⟨some k, some (txid env t)⟩)
    (hfirst : ∃ c ∈ w, txHashArg c = some ⟨some k, some (txid env t)⟩) (hnew : ∀ v, ¬K k v)
    (hid : txid env t ∉ pre.map (txid env)) :
    Handed env (withKey K k (txid env t)) (pre ++ [t]) s' := by
  have hargs' : ∀ c ∈ s'.calls, ∀ h, txHashArg c = some h →
      ∃ a v, h = ⟨some a, some v⟩ ∧ withKey K k (txid env t) a v := by
    intro c hcm h ha
    rw [hc] at hcm
    cases List.mem_append.mp hcm with
    | inl hcm =>
      obtain ⟨a, v, he, hK⟩ := hh.args c hcm h ha
      exact ⟨a, v, he, Or.inl hK⟩
    | inr hcm =>
      exact ⟨k, txid env t, hargs c hcm h ha, Or.inr ⟨rfl, rfl⟩⟩
  refine ⟨hrep, by rw [hv, hc, List.length_append, List.length_append, hh.length, hlen], hargs',
    ?_, ?_, ?_, ?_, ?_⟩
  · rintro a v (hK | ⟨rfl, rfl⟩)
    · obtain ⟨c, hcm, ha⟩ := hh.handed a v hK
      exact ⟨c, by rw [hc]; exact List.mem_append_left _ hcm, ha⟩
    · obtain ⟨c, hcm, ha⟩ := hfirst
      exact ⟨c, by rw [hc]; exact List.mem_append_right _ hcm, ha⟩
  · rw [List.map_append]
    rintro a v (hK | ⟨-, rfl⟩)
    · exact List.mem_append_left _ (hh.ids a v hK)
    · exact List.mem_append_right _ (by simp)
  · rintro a b v (hKa | ⟨rfl, rfl⟩) (hKb | ⟨rfl, hb⟩)
    · exact hh.one_cell a b v hKa hKb
    · exact absurd (hb ▸ hh.ids a v hKa) hid
    · exact absurd (hh.ids b _ hKb) hid
    · rfl
  · rintro a v w (hKv | ⟨rfl, rfl⟩) (hKw | ⟨hk, hw⟩)
    · exact hh.one_id a v w hKv hKw
    · exact absurd (hk ▸ hKv) (hnew v)
    · exact absurd hKw (hnew w)
    · exact hw.symm
  · intro i c a v hci ha j f hij hf
    obtain ⟨a', v', he, hK⟩ := hargs' c (List.mem_of_getElem? hci) _ ha
    obtain ⟨rfl, rfl⟩ : a = a' ∧ v = v' := by simpa using he
    rw [hv] at hf
    by_cases hj : j < s.views.length
    · rw [List.getElem?_append_left hj] at hf
      have hi : i < s.calls.length := by
        have := hh.length
        omega
      rw [hc, List.getElem?_append_left hi] at hci
      exact hh.kept i c a v hci ha j f hij hf
    · rw [List.getElem?_append_right (by omega)] at hf
      exact hvK f (List.mem_of_getElem? hf) a v hK

theorem txid_notMem {post : List Tx} (hv : ValidChain env (pre ++ t :: post)) :
    txid env t ∉ pre.map (txid env) := by
  have hids := hv.ids
  rw [List.map_map, List.map_append, List.nodup_append] at hids
  intro hmem
  exact hids.2.2 _ hmem _ (by simp [entryOf]) rfl

/-- The step lemma: the next transaction gets a cell nobody was handed before. -/
theorem handed_step {post : List Tx} {m : Memory} {p : Ptr} (hneed : env.gNeedUpstream = true)
    (hv : ValidChain env (pre ++ t :: post)) (hfit : Fits t) (hh : Handed env K pre s)
    (hlive : AllLive env pre) (hm : Holds m p (t.encode env.coin)) :
    ∃ k s', parseTX env false m p s = .ok (p + (t.encode env.coin).length) s' ∧
      Handed env (withKey K k (txid env t)) (pre ++ [t]) s' ∧
      ∃ ds, s'.heap.hashGarbage = ds ++ s.heap.hashGarbage.tail ∧
        ∀ d ∈ ds, ∃ v, withKey K k (txid env t) d v := by
  obtain ⟨loc, hrep⟩ := hh.rep
  have hnew : ∀ v, ¬K (s.heap.alloc .uint256).1 v := by
    intro v hK
    obtain ⟨hkey, hne⟩ := hh.key hlive hrep hK
    exact (hrep.holding.valid.alloc .uint256).1 (Or.inl ⟨.key v, hne, hkey.symm⟩)
  obtain ⟨k, s₁, s', rfl, hrun, hcalls, hviews, htail, hrep', hlog⟩ :=
    chain_step hneed hv hfit hrep hnew hm
  obtain ⟨vs, hvs, hlen, hvK⟩ := hlog.views
  obtain ⟨ds, hds, hdK⟩ := hlog.garbage
  refine ⟨_, s', hrun, hh.extend hrep' (by rw [hlog.calls, hcalls]) (by rw [hvs, hviews]) hlen hvK
    ?_ ⟨_, List.mem_append_left _ (List.mem_singleton_self _), rfl⟩ hnew (txid_notMem hv),
    ds, by rw [hds, htail], hdK⟩
  intro c hc h ha
  exact txCalls_args (edgeCall_args _) hc ha

/-- When the last transaction spent nobody's last output, all live on. -/
theorem allLive_append (hv : ValidChain env (pre ++ [t])) (hlive : AllLive env pre)
    (hns : ¬SpendsLast env pre t) : AllLive env (pre ++ [t]) := by
  intro u hu
  rw [chain_entry hv hu]
  cases List.mem_append.mp hu with
  | inl hu' =>
    by_contra hno
    push Not at hno
    exact hns ⟨u, hu', (chain_entry hv.initial hu').mp (hlive u hu'), hno⟩
  | inr hu' =>
    rw [List.mem_singleton.mp hu']
    have hv' : Valid (pre.map (entryOf env) ++ [entryOf env t]) := by
      simpa [ValidChain] using hv
    refine ⟨0, List.length_pos_of_ne_nil (hv'.outs (entryOf env t) (by simp)), ?_⟩
    have hlast := hv'.last_unnamed 0
    rwa [← List.map_singleton, ← List.map_append, spent_eq] at hlast

/-- After a transaction that spent somebody's last output, the hash pool hands out next
a cell that a callback was handed. -/
theorem garbage_handed {K' : Addr → Hash256 → Prop} {s' : State} (hv : ValidChain env (pre ++ [t]))
    (hh : Handed env K pre s) (hlive : AllLive env pre) (hsub : ∀ a v, K a v → K' a v)
    (hh' : Handed env K' (pre ++ [t]) s')
    (hds : ∃ ds, s'.heap.hashGarbage = ds ++ s.heap.hashGarbage.tail ∧ ∀ d ∈ ds, ∃ v, K' d v)
    (hsp : SpendsLast env pre t) : ∃ d ds v, s'.heap.hashGarbage = d :: ds ∧ K' d v := by
  obtain ⟨loc, hrep⟩ := hh.rep
  obtain ⟨loc', hrep'⟩ := hh'.rep
  obtain ⟨u, hu, -, hall⟩ := hsp
  have hdead : ledger ((pre ++ [t]).map (entryOf env)) (txid env u) = none := by
    by_contra hne
    obtain ⟨i, hi, hns⟩ := (chain_entry hv (List.mem_append_left _ hu)).mp hne
    exact hns (hall i hi)
  -- the cell of `u` was the key of its entry; now it can only be free
  have hK := hrep.keys _ (hlive u hu)
  have hgarb : loc (.key (txid env u)) ∈ s'.heap.hashGarbage := by
    rcases (hrep'.keep _ _ (hsub _ _ hK)).2 with hX | ⟨v, hv', he⟩ | hg
    · exact absurd hX (Set.notMem_empty _)
    · have hid := hh'.one_id _ _ _ (hsub _ _ hK) (he ▸ hrep'.keys v hv')
      exact absurd (hid ▸ hdead) hv'
    · exact hg
  have hout : loc (.key (txid env u)) ∉ s.heap.hashGarbage := fun hg =>
    hrep.holding.valid.owns.free_dead .uint256 _ hg
      (hrep.holding.mem_live (show Role.key (txid env u) ∈ roles _ from hlive u hu))
  obtain ⟨ds, hds, hdK⟩ := hds
  cases ds with
  | nil =>
    rw [hds] at hgarb
    exact absurd (List.mem_of_mem_tail hgarb) hout
  | cons d ds =>
    obtain ⟨v, hv'⟩ := hdK d (by simp)
    exact ⟨d, ds ++ s.heap.hashGarbage.tail, v, hds, hv'⟩

/-- The transaction after that writes its own id into the cell. -/
theorem identity_lost {y : Placed env.coin} {ys : List (Placed env.coin)}
    (hneed : env.gNeedUpstream = true) (hv : ValidChain env (pre ++ (y :: ys).map Placed.tx))
    (hfit : ∀ x ∈ y :: ys, Fits x.tx) (hh : Handed env K pre s) {d : Addr} {ds : List Addr}
    {v : Hash256} (hg : s.heap.hashGarbage = d :: ds) (hK : K d v) :
    ¬∃ s', runTXs env (y :: ys) s = .ok () s' ∧ KeepsIdentity s' := by
  rintro ⟨s'', hrun'', hkeep⟩
  obtain ⟨loc, hrep⟩ := hh.rep
  rw [List.map_cons] at hv
  have hL : Ledger.Complete (ledger (pre.map (entryOf env))) := ledger_complete hv.initial.outs
  obtain ⟨-, loc₁, hrep₁⟩ := represents_of_rep hL hrep
  obtain ⟨k, s₁, s', rfl, hrun, hcalls, hviews, -, ⟨loc', hrep'⟩, hlog⟩ :=
    chain_step hneed hv (hfit y (by simp)) hrep₁ (Rep.alloc_notKey hrep₁) y.holds
  have hk : (s.heap.alloc .uint256).1 = d := s.heap.alloc_hashGarbage.2 d ds hg
  have hv' : ValidChain env ((pre ++ [y.tx]) ++ ys.map Placed.tx) := by simpa using hv
  obtain ⟨s₂, w, hrun', -, hcalls', ⟨us, hus⟩, -⟩ := runTXs_run hneed ys (pre ++ [y.tx]) s' hv'
    (fun x hx => hfit x (by simp [hx])) (represents_of_rep (ledger_complete hv'.initial.outs) hrep')
  have hall : runTXs env (y :: ys) s = .ok () s₂ := (run_bind_ok hrun).trans hrun'
  obtain rfl : s₂ = s'' := by
    rw [hall] at hrun''
    exact (EStateM.Result.ok.inj hrun'').2
  obtain ⟨vs, hvs, hlen, hvK⟩ := hlog.views
  obtain ⟨f, vs, rfl⟩ := List.exists_cons_of_ne_nil (l := vs) (by
    intro he
    subst he
    simp [txCalls] at hlen)
  obtain ⟨c, hc, ha⟩ := hh.handed d v hK
  obtain ⟨i, hi⟩ := List.mem_iff_getElem?.mp hc
  have hil : i < s.calls.length := (List.getElem?_eq_some_iff.mp hi).1
  have hci : s₂.calls[i]? = some c := by
    rw [hcalls', hlog.calls, hcalls, List.append_assoc, List.getElem?_append_left hil, hi]
  have hfj : s₂.views[s.views.length]? = some f := by
    rw [hus, hvs, hviews, List.append_assoc, List.getElem?_append_right (Nat.le_refl _)]
    simp
  have hold := (hkeep i c d v hci ha).1 _ f (by rw [hh.length]; omega) hfj
  have hnew := hvK f (by simp) d (txid env y.tx) (Or.inr ⟨hk.symm, rfl⟩)
  exact txid_notMem hv (by rw [← hnew, hold]; exact hh.ids d v hK)

/-- The run lemma. -/
theorem identity_run (hneed : env.gNeedUpstream = true) (xs : List (Placed env.coin))
    (pre : List Tx) (K : Addr → Hash256 → Prop) (s : State)
    (hv : ValidChain env (pre ++ xs.map Placed.tx)) (hfit : ∀ x ∈ xs, Fits x.tx)
    (hh : Handed env K pre s) (hlive : AllLive env pre) :
    (∃ s', runTXs env xs s = .ok () s' ∧ KeepsIdentity s') ↔
      ∀ p t q, xs.map Placed.tx = p ++ t :: q → q ≠ [] → ¬SpendsLast env (pre ++ p) t := by
  induction xs generalizing pre K s with
  | nil =>
    refine ⟨fun _ p t q h => ?_, fun _ => ⟨s, rfl, hh.keepsIdentity⟩⟩
    simp at h
  | cons x xs ih =>
    have hvx : ValidChain env (pre ++ x.tx :: xs.map Placed.tx) := hv
    obtain ⟨k, s', hrun, hh', hds⟩ := handed_step hneed hvx (hfit x (by simp)) hh hlive x.holds
    have hv' : ValidChain env ((pre ++ [x.tx]) ++ xs.map Placed.tx) := by simpa using hvx
    have hbind : runTXs env (x :: xs) s = runTXs env xs s' := run_bind_ok hrun
    have hfit' : ∀ y ∈ xs, Fits y.tx := fun y hy => hfit y (by simp [hy])
    rw [hbind]
    cases xs with
    | nil =>
      refine ⟨fun _ p t q h hq => ?_, fun _ => ⟨s', rfl, hh'.keepsIdentity⟩⟩
      rw [List.map_cons, List.map_nil, eq_comm, List.append_eq_cons_iff] at h
      simp [hq] at h
    | cons y ys =>
      by_cases hsp : SpendsLast env pre x.tx
      · obtain ⟨d, ds, v, hg, hK⟩ := garbage_handed hv'.initial hh hlive (fun _ _ => Or.inl) hh' hds
          hsp
        refine iff_of_false (identity_lost hneed hv' hfit' hh' hg hK) fun hall => ?_
        exact hall [] x.tx ((y :: ys).map Placed.tx) rfl (by simp) (by simpa using hsp)
      · rw [ih (pre ++ [x.tx]) _ s' hv' hfit' hh' (allLive_append hv'.initial hlive hsp)]
        constructor
        · intro hall p t q hpq hq
          cases p with
          | nil =>
            obtain ⟨rfl, rfl⟩ := List.cons.inj hpq
            simpa using hsp
          | cons z p =>
            obtain ⟨rfl, hpq'⟩ := List.cons.inj hpq
            have := hall p t q hpq' hq
            simpa using this
        · intro hall p t q hpq hq
          have := hall (x.tx :: p) t q (by rw [List.map_cons, hpq]; rfl) hq
          simpa using this

/-- Over every valid chain whose sizes fit their casts, and from every state of the free
lists: the cells handed out keep their ids exactly when no transaction but the last spends
the last unspent output of an earlier one. -/
theorem keepsIdentity_iff (env : Env) (hneed : env.gNeedUpstream = true) (s : State)
    (hs : s.heap.Valid ∅) (hmap : s.gTXOMap = []) (hcalls : s.calls = []) (hviews : s.views = [])
    (xs : List (Placed env.coin)) (hv : ValidChain env (xs.map Placed.tx))
    (hfit : ∀ x ∈ xs, Fits x.tx) :
    (∃ s', runTXs env xs s = .ok () s' ∧ KeepsIdentity s') ↔
      NoneSpent env (xs.map Placed.tx) := by
  have hlive : AllLive env [] := fun u hu => nomatch hu
  exact identity_run hneed xs [] _ s hv hfit (handed_nil hs hmap hcalls hviews) hlive

theorem keepsIdentity_iff_spendChain :
    (∃ s', runTXs prefixEnv [placedAtZero .bitcoin mintTx, placedAtZero .bitcoin spendTx] .start =
      .ok () s' ∧ KeepsIdentity s') ↔ NoneSpent prefixEnv [mintTx, spendTx] :=
  keepsIdentity_iff prefixEnv rfl .start Heap.start_valid rfl rfl rfl
    [placedAtZero .bitcoin mintTx, placedAtZero .bitcoin spendTx] spendChain_valid (by decide)

theorem keepsIdentity_laterChain : ¬ ∀ (env : Env) (s : State) (xs : List (Placed env.coin)),
    env.gNeedUpstream = true → s.heap.Valid ∅ → s.gTXOMap = [] → s.calls = [] → s.views = [] →
    ValidChain env (xs.map Placed.tx) → (∀ x ∈ xs, Fits x.tx) →
    ∃ s', runTXs env xs s = .ok () s' ∧ KeepsIdentity s' := by
  intro h
  have hkeep := h prefixEnv .start [placedAtZero .bitcoin mintTx, placedAtZero .bitcoin spendTx,
    placedAtZero .bitcoin laterTx] rfl Heap.start_valid rfl rfl rfl laterChain_valid (by decide)
  have hnone := (identity_run rfl _ [] _ .start laterChain_valid (by decide)
    (handed_nil Heap.start_valid rfl rfl rfl) fun u hu => nomatch hu).mp hkeep
  refine hnone [mintTx] spendTx [laterTx] rfl (by simp) ⟨mintTx, by simp, ⟨0, ?_⟩, ?_⟩
  · decide
  · decide

end Blockparser.Identity
