import Blockparser.Replay
import Mathlib.Data.List.AList

/-! The pristine command: a table of the generation transactions, zeroed when one of their
outputs is spent, and a count kept beside it. -/
namespace Blockparser.Pristine
open Bytes MemoryManager Segments Blockparser.Parser Format Utxo Store Decode Upstream Transaction Chain
  Replay

/-- Keyed by what is behind the pointers. A cell goes to another transaction once all outputs of
its own are spent, so the entry it leaves behind is zero; the entry of the other one is that one
or comes before it on the way from the hash, as long as the table keeps the room init gives it. -/
abbrev TxMap := AList fun _ : Hash256 => BitVec 64

/-- What the callbacks read of a block: its height and its bytes. -/
structure View where
  height : BlockRef → BitVec 64
  data : BlockRef → Memory

/-- `chunk` is the block that the pointers of the calls point into. -/
structure State where
  txMap : TxMap
  nbInputs : BitVec 64
  hasGenInput : Bool
  currTime : BitVec 64
  currBlock : BitVec 64
  nbPristine : BitVec 64
  currTXHash : HashArg
  chunk : BlockRef

structure Row where
  blk : BitVec 64
  cTime : BitVec 64
  txHash : Hash256
deriving DecidableEq

def init : State := ⟨∅, 0, false, 0, 0, 0, ⟨none, none⟩, 0⟩

variable (view : View)

def startBlock (s : State) (b : BlockRef) : State :=
  { s with
    currBlock := view.height b, currTime := BitVec.ofNat 64 (load (view.data b) 68 4), chunk := b }

def startInput (s : State) (p : Ptr) : State :=
  let s := if Memory.hash (view.data s.chunk) p = nullHash then { s with hasGenInput := true } else s
  { s with nbInputs := s.nbInputs + 1 }

/-- `(age<<32) + blk`. -/
def State.stamp (s : State) : BitVec 64 := s.currTime <<< 32 + s.currBlock

/-- No state is left behind an abort() or a null hash. -/
def endInputs (s : State) : Option State :=
  if s.hasGenInput then
    if s.nbInputs ≠ 1 then none
    else s.currTXHash.value.map fun h =>
      { s with txMap := s.txMap.insert h s.stamp, nbPristine := s.nbPristine + 1 }
  else some s

def edge (s : State) (upTXHash : Hash256) : State :=
  match s.txMap.lookup upTXHash with
  | some v => { s with
      nbPristine := if 0 < v then s.nbPristine - 1 else s.nbPristine
      txMap := s.txMap.insert upTXHash 0 }
  | none => s

def onCall (s : State) : Call → Option State
  | .startBlock b => some (startBlock view s b)
  | .startTX _ hash => some { s with currTXHash := hash }
  | .startInputs _ => some { s with hasGenInput := false, nbInputs := 0 }
  | .startInput p => some (startInput view s p)
  | .endInputs _ => endInputs s
  | .edge _ upTXHash _ _ _ _ _ _ _ => upTXHash.value.map (edge s)
  | _ => some s

/-- The entries that are not zero. -/
def TxMap.live (m : TxMap) : List (Hash256 × BitVec 64) :=
  (m.entries.map fun e => (e.1, e.2)).filter fun e => 0 < e.2

def rowOf (e : Hash256 × BitVec 64) : Row := ⟨e.2 &&& 0xFFFFFFFF, e.2 >>> 32, e.1⟩

/-- The printed count and the printed rows. -/
def wrapup (s : State) : BitVec 64 × List Row := (s.nbPristine, (TxMap.live s.txMap).map rowOf)

def step (o : Option State) (c : Call) : Option State := o.bind fun s => onCall view s c

/-- Each input that is no generation input has its edge. -/
def OneEdge (edge : EdgeCalls) : Prop := ∀ h L i x,
  if x.prevHash = nullHash then edge h L i x = []
  else ∃ value o size, edge h L i x = [.edge value ⟨none, some x.prevHash⟩ x.prevIndex.toNat o size h
    i x.script x.script.length]

def isGen (t : Tx) : Prop := ∃ x ∈ t.inputs, x.prevHash = nullHash

/-- An input of `t` spends an output of a transaction with this id. -/
def SpendsFrom (t : Tx) (id : Hash256) : Prop :=
  ∃ x ∈ t.inputs, x.prevHash ≠ nullHash ∧ x.prevHash = id

instance (t : Tx) : Decidable (isGen t) := inferInstanceAs (Decidable (∃ x ∈ t.inputs, _))
instance (t : Tx) (id : Hash256) : Decidable (SpendsFrom t id) :=
  inferInstanceAs (Decidable (∃ x ∈ t.inputs, _))

/-- The generation transactions none of whose outputs is spent later. -/
def pristine (env : Env) : List (BlockRef × Tx) → List (BlockRef × Tx)
  | [] => []
  | x :: xs =>
    if isGen x.2 ∧ ∀ y ∈ xs, ¬SpendsFrom y.2 (txid env x.2) then x :: pristine env xs
    else pristine env xs

/-- The stamp of a block. -/
def View.stamp (b : BlockRef) : BitVec 64 :=
  BitVec.ofNat 64 (load (view.data b) 68 4) <<< 32 + view.height b

def keyOf (env : Env) (x : BlockRef × Tx) : Hash256 × BitVec 64 := (txid env x.2, view.stamp x.1)

/-- A generation transaction after `xs` whose id is that of no pristine one, with a stamp
that is not zero, and room in the counter. -/
structure Fresh (env : Env) (xs : List (BlockRef × Tx)) (x : BlockRef × Tx) : Prop where
  new : ∀ y ∈ pristine env xs, txid env y.2 ≠ txid env x.2
  stamp : view.stamp x.1 ≠ 0
  room : (pristine env xs).length + 1 < 2 ^ 64

/-- No transaction of the list makes the process abort. -/
def Single (xs : List (BlockRef × Tx)) : Prop := ∀ x ∈ xs, isGen x.2 → x.2.inputs.length = 1

variable {view} {env : Env} {xs : List (BlockRef × Tx)} {s : State} {m : TxMap} {id : Hash256}
  {v : BitVec 64}

theorem pristine_append (xs : List (BlockRef × Tx)) (y : BlockRef × Tx) :
    pristine env (xs ++ [y]) = (pristine env xs).filter (fun x => ¬SpendsFrom y.2 (txid env x.2)) ++
      if isGen y.2 then [y] else [] := by
  induction xs with
  | nil => simp [pristine]
  | cons x xs ih =>
    rw [List.cons_append, pristine, pristine, ih]
    by_cases hx : isGen x.2 ∧ ∀ z ∈ xs, ¬SpendsFrom z.2 (txid env x.2)
    · by_cases hy : SpendsFrom y.2 (txid env x.2)
      · rw [if_neg fun h => h.2 y (by simp) hy, if_pos hx,
          List.filter_cons_of_neg (by simpa using hy)]
      · have hall : ∀ z ∈ xs ++ [y], ¬SpendsFrom z.2 (txid env x.2) := by
          intro z hz
          cases List.mem_append.mp hz with
          | inl hz => exact hx.2 z hz
          | inr hz => rwa [List.mem_singleton.mp hz]
        rw [if_pos ⟨hx.1, hall⟩, if_pos hx, List.filter_cons_of_pos (by simpa using hy),
          List.cons_append]
    · rw [if_neg fun h => hx ⟨h.1, fun z hz => h.2 z (List.mem_append_left _ hz)⟩, if_neg hx]

theorem kerase_eq_filter {β : Hash256 → Type} {l : List (Sigma β)} (h : l.NodupKeys) (id : Hash256) :
    l.kerase id = l.filter fun e => e.1 ≠ id := by
  induction l with
  | nil => rfl
  | cons e l ih =>
    obtain ⟨hnew, hnd⟩ := List.nodupKeys_cons.mp h
    by_cases he : id = e.1
    · rw [List.kerase_cons_eq he, List.filter_cons_of_neg (by simp [he])]
      refine (List.filter_eq_self.mpr ?_).symm
      intro d hd
      have hne : d.1 ≠ id := fun hde => hnew (he ▸ hde ▸ List.mem_keys_of_mem hd)
      simpa using hne
    · rw [List.kerase_cons_ne he, ih hnd, List.filter_cons_of_pos (by simpa using Ne.symm he)]

theorem live_insert (m : TxMap) (id : Hash256) (v : BitVec 64) : TxMap.live (m.insert id v) =
    (if 0 < v then [(id, v)] else []) ++ (TxMap.live m).filter fun e => e.1 ≠ id := by
  have hrest : ((m.entries.kerase id).map fun e => (e.1, e.2)).filter (fun e => 0 < e.2) =
      (TxMap.live m).filter fun e => e.1 ≠ id := by
    rw [kerase_eq_filter m.nodupKeys, TxMap.live, List.filter_filter, List.filter_map,
      List.filter_map, List.filter_filter]
    congr 1
    exact List.filter_congr fun e _ => Bool.and_comm _ _
  rw [TxMap.live, AList.entries_insert, List.map_cons]
  by_cases hv : 0 < v
  · rw [List.filter_cons_of_pos (by simpa using hv), hrest, if_pos hv]
    rfl
  · rw [List.filter_cons_of_neg (by simpa using hv), hrest, if_neg hv]
    rfl

theorem live_keys_nodup (m : TxMap) : ((TxMap.live m).map Prod.fst).Nodup := by
  have hsub : ((TxMap.live m).map Prod.fst).Sublist m.keys := by
    have hmap : m.keys = (m.entries.map fun e => (e.1, e.2)).map Prod.fst := by
      rw [List.map_map]
      rfl
    rw [hmap]
    exact List.Sublist.map _ List.filter_sublist
  exact m.keys_nodup.sublist hsub

theorem mem_live : (id, v) ∈ TxMap.live m ↔ m.lookup id = some v ∧ 0 < v := by
  rw [TxMap.live, List.mem_filter, List.mem_map]
  simp only [Prod.mk.injEq, decide_eq_true_eq]
  refine and_congr_left fun _ => ?_
  rw [← Option.mem_def, AList.mem_lookup_iff]
  constructor
  · rintro ⟨⟨a, b⟩, he, rfl, rfl⟩
    exact he
  · intro he
    exact ⟨⟨id, v⟩, he, rfl, rfl⟩

/-- At most one live entry has a given key. -/
theorem live_length (m : TxMap) (id : Hash256) : (TxMap.live m).length =
    ((TxMap.live m).filter fun e => e.1 ≠ id).length +
      if ∃ v, m.lookup id = some v ∧ 0 < v then 1 else 0 := by
  have hcount : ((TxMap.live m).map Prod.fst).count id =
      if ∃ v, m.lookup id = some v ∧ 0 < v then 1 else 0 := by
    rw [(live_keys_nodup m).count]
    refine if_congr ?_ rfl rfl
    rw [List.mem_map]
    constructor
    · rintro ⟨⟨a, v⟩, he, rfl⟩
      exact ⟨v, mem_live.mp he⟩
    · rintro ⟨v, hv⟩
      exact ⟨(id, v), mem_live.mpr hv, rfl⟩
  rw [← hcount, List.length_eq_countP_add_countP (fun e => decide (e.1 ≠ id)),
    ← List.countP_eq_length_filter, List.count, List.countP_map]
  congr 1
  refine List.countP_congr ?_
  intro e _
  simp [Subtype.ext_iff]

/-- The count is that of the entries that are not zero. -/
def Matches (s : State) : Prop := s.nbPristine.toNat = (TxMap.live s.txMap).length

theorem edge_live (s : State) (id : Hash256) : TxMap.live (edge s id).txMap =
    (TxMap.live s.txMap).filter fun e => e.1 ≠ id := by
  unfold edge
  cases hv : s.txMap.lookup id with
  | some v =>
    have hinsert := live_insert s.txMap id 0
    rw [if_neg (by simp), List.nil_append] at hinsert
    exact hinsert
  | none =>
    refine (List.filter_eq_self.mpr ?_).symm
    rintro ⟨a, w⟩ he
    have hne : a ≠ id := by
      intro ha
      rw [ha, mem_live, hv] at he
      cases he.1
    simpa using hne

theorem edge_matches (hs : Matches s) (id : Hash256) : Matches (edge s id) := by
  have hlen := live_length s.txMap id
  rw [Matches, edge_live]
  unfold edge
  cases hv : s.txMap.lookup id with
  | some v =>
    by_cases hpos : 0 < v
    · have hex : ∃ w, s.txMap.lookup id = some w ∧ 0 < w := ⟨v, hv, hpos⟩
      rw [if_pos hex] at hlen
      simp only [if_pos hpos]
      rw [Matches] at hs
      bv_omega
    · have hex : ¬∃ w, s.txMap.lookup id = some w ∧ 0 < w := by
        rintro ⟨w, hw, hw0⟩
        rw [hv, Option.some_inj] at hw
        exact hpos (hw ▸ hw0)
      rw [if_neg hex, Nat.add_zero] at hlen
      simp only [if_neg hpos]
      exact hs.trans hlen
  | none =>
    have hex : ¬∃ w, s.txMap.lookup id = some w ∧ 0 < w := by simp [hv]
    rw [if_neg hex, Nat.add_zero] at hlen
    exact hs.trans hlen

/-- Counting one more generation transaction keeps the match exactly when its id has no
live entry, its stamp is not zero and the counter has room. -/
theorem mint_matches_iff (hs : Matches s) (id : Hash256) :
    Matches { s with txMap := s.txMap.insert id s.stamp, nbPristine := s.nbPristine + 1 } ↔
      id ∉ (TxMap.live s.txMap).map Prod.fst ∧ s.stamp ≠ 0 ∧
        (TxMap.live s.txMap).length + 1 < 2 ^ 64 := by
  have hlen := live_length s.txMap id
  have hkey : id ∈ (TxMap.live s.txMap).map Prod.fst ↔ ∃ v, s.txMap.lookup id = some v ∧ 0 < v := by
    rw [List.mem_map]
    constructor
    · rintro ⟨⟨a, v⟩, he, rfl⟩
      exact ⟨v, mem_live.mp he⟩
    · rintro ⟨v, hv⟩
      exact ⟨(id, v), mem_live.mpr hv, rfl⟩
  have hpos : 0 < s.stamp ↔ s.stamp ≠ 0 := BitVec.pos_iff_ne_zero s.stamp
  have hlt := s.nbPristine.isLt
  rw [Matches] at hs
  rw [Matches, live_insert, hkey, List.length_append, BitVec.toNat_add, hs]
  generalize ((TxMap.live s.txMap).filter fun e => e.1 ≠ id).length = k at hlen ⊢
  by_cases h0 : s.stamp = 0
  · rw [if_neg (by simp [h0])]
    simp only [List.length_nil, h0, ne_eq, not_true_eq_false, false_and, and_false, iff_false]
    split at hlen
    · change ¬(_ + 1) % 2 ^ 64 = _
      omega
    · change ¬(_ + 1) % 2 ^ 64 = _
      omega
  · rw [if_pos (hpos.mpr h0)]
    split at hlen
    · rename_i hex
      simp only [List.length_singleton, hex, not_true_eq_false, false_and, iff_false]
      change ¬(_ + 1) % 2 ^ 64 = _
      omega
    · rename_i hex
      simp only [List.length_singleton, hex, not_false_eq_true, h0, ne_eq, true_and]
      change (_ + 1) % 2 ^ 64 = _ ↔ _
      omega

/-- The state after startTX and startInputs. -/
def State.enter (s : State) (h : HashArg) : State :=
  { s with currTXHash := h, hasGenInput := false, nbInputs := 0 }

/-- The state after an input and its edge. -/
def afterInput (s : State) (x : TxInput) : State :=
  if x.prevHash = nullHash then { s with hasGenInput := true, nbInputs := s.nbInputs + 1 }
  else edge { s with nbInputs := s.nbInputs + 1 } x.prevHash

@[simp] theorem edge_frame (s : State) (id : Hash256) : (edge s id).chunk = s.chunk ∧
    (edge s id).stamp = s.stamp ∧ (edge s id).currTXHash = s.currTXHash ∧
    (edge s id).hasGenInput = s.hasGenInput ∧ (edge s id).nbInputs = s.nbInputs := by
  unfold edge
  cases s.txMap.lookup id <;> exact ⟨rfl, rfl, rfl, rfl, rfl⟩

variable {edges : EdgeCalls} {h : HashArg} {L : TXOs} {i : Nat} {p : Ptr} {x : TxInput}
  {ins : List TxInput} {b : BlockRef} {t : Tx}

theorem input_run (hedges : OneEdge edges) (hm : Holds (view.data s.chunk) p x.encode) :
    (inputCalls x (edges h L i x) p).foldl (step view) (some s) = some (afterInput s x) := by
  have hhash : Memory.hash (view.data s.chunk) p = x.prevHash := (input_of_holds hm).1
  have hedge := hedges h L i x
  have hstart : [Call.startInput p].foldl (step view) (some s) = some (startInput view s p) := rfl
  rw [inputCalls, List.foldl_append, hstart, List.foldl_append, startInput, hhash, afterInput]
  by_cases hx : x.prevHash = nullHash
  · rw [if_pos hx] at hedge ⊢
    rw [hedge, if_pos hx]
    rfl
  · rw [if_neg hx] at hedge ⊢
    obtain ⟨value, o, size, he⟩ := hedge
    rw [he, if_neg hx]
    rfl

theorem inputs_run (hedges : OneEdge edges)
    (hm : Holds (view.data s.chunk) p (encodeInputs ins)) :
    (inputsCalls (edges h) L i p ins).foldl (step view) (some s) = some (ins.foldl afterInput s) := by
  induction ins generalizing L i p s with
  | nil => rfl
  | cons x ins ih =>
    rw [encodeInputs, List.flatMap_cons] at hm
    obtain ⟨hx, hrest⟩ := holds_append.mp hm
    have hchunk : (afterInput s x).chunk = s.chunk := by
      unfold afterInput
      split
      · rfl
      · exact (edge_frame _ _).1
    rw [inputsCalls, List.foldl_append, input_run hedges hx, List.foldl_cons]
    refine ih ?_
    rw [hchunk]
    exact hrest

/-- What the inputs leave of the state. -/
theorem inputs_state (ins : List TxInput) (s : State) :
    let s' := ins.foldl afterInput s
    s'.chunk = s.chunk ∧ s'.stamp = s.stamp ∧ s'.currTXHash = s.currTXHash ∧
      (s'.hasGenInput = true ↔ s.hasGenInput = true ∨ ∃ x ∈ ins, x.prevHash = nullHash) ∧
      s'.nbInputs = s.nbInputs + BitVec.ofNat 64 ins.length ∧
      TxMap.live s'.txMap = (TxMap.live s.txMap).filter
        fun e => ∀ x ∈ ins, x.prevHash ≠ nullHash → x.prevHash ≠ e.1 := by
  induction ins generalizing s with
  | nil => simp
  | cons x ins ih =>
    obtain ⟨h1, h2, h3, h4, h5, h6⟩ := ih (afterInput s x)
    have hnb : (afterInput s x).nbInputs = s.nbInputs + 1 := by
      unfold afterInput
      split
      · rfl
      · exact (edge_frame _ _).2.2.2.2
    have hlen : (afterInput s x).nbInputs + BitVec.ofNat 64 ins.length =
        s.nbInputs + BitVec.ofNat 64 (ins.length + 1) := by
      rw [hnb, BitVec.ofNat_add, BitVec.add_assoc, BitVec.add_comm 1]
      rfl
    rw [List.foldl_cons]
    by_cases hx : x.prevHash = nullHash
    · have hafter : afterInput s x =
          { s with hasGenInput := true, nbInputs := s.nbInputs + 1 } := if_pos hx
      refine ⟨h1.trans (by rw [hafter]), h2.trans (by rw [hafter]; rfl),
        h3.trans (by rw [hafter]), ?_, h5.trans hlen, ?_⟩
      · rw [h4, hafter]
        simp [hx]
      · rw [h6, hafter]
        simp [hx]
    · have hafter : afterInput s x = edge { s with nbInputs := s.nbInputs + 1 } x.prevHash :=
        if_neg hx
      obtain ⟨f1, f2, f3, f4, -⟩ := edge_frame { s with nbInputs := s.nbInputs + 1 } x.prevHash
      rw [← hafter] at f1 f2 f3 f4
      refine ⟨h1.trans f1, h2.trans f2, h3.trans f3, ?_, h5.trans hlen, ?_⟩
      · rw [h4, f4]
        simp [hx]
      · rw [h6, hafter, edge_live, List.filter_filter]
        refine List.filter_congr ?_
        intro e _
        rw [Bool.eq_iff_iff]
        simp only [Bool.and_eq_true, decide_eq_true_eq, List.forall_mem_cons]
        exact ⟨fun h => ⟨fun _ he => h.2 he.symm, h.1⟩, fun h => ⟨h.2, fun he => h.1 hx he.symm⟩⟩

/-- What a run keeps between its transactions. -/
structure Inv (view : View) (env : Env) (cur : Option BlockRef) (pre : List (BlockRef × Tx))
    (s : State) : Prop where
  chunk : ∀ b, cur = some b → s.chunk = b ∧ s.stamp = view.stamp b
  single : Single pre
  rows : (TxMap.live s.txMap).Perm ((pristine env pre).map (keyOf view env))
  count : Matches s

/-- The condition on a run: each generation transaction it comes to is fresh. -/
def AllFresh (view : View) (env : Env) (all : List (BlockRef × Tx)) : Prop :=
  ∀ pre x post, all = pre ++ x :: post → Single (pre ++ [x]) → isGen x.2 → Fresh view env pre x

/-- The state before endInputs. -/
structure Entered (view : View) (env : Env) (b : BlockRef) (t : Tx) (pre : List (BlockRef × Tx))
    (s : State) : Prop where
  chunk : s.chunk = b ∧ s.stamp = view.stamp b
  hash : s.currTXHash.value = some (txid env t)
  gen : s.hasGenInput = true ↔ isGen t
  nbInputs : s.nbInputs = BitVec.ofNat 64 t.inputs.length
  single : Single pre
  rows : (TxMap.live s.txMap).Perm
    (((pristine env pre).filter fun x => ¬SpendsFrom t (txid env x.2)).map (keyOf view env))
  count : Matches s

theorem init_inv : Inv view env none [] init where
  chunk b hb := nomatch hb
  single x hx := nomatch hx
  rows := by simp [init, TxMap.live, pristine]
  count := rfl

/-- Every call but endInputs keeps the match. -/
theorem onCall_matches {c : Call} {s' : State} (hc : ∀ p, c ≠ .endInputs p) (hs : Matches s)
    (h : onCall view s c = some s') : Matches s' := by
  cases c with
  | endInputs p => exact absurd rfl (hc p)
  | edge value up =>
    obtain ⟨id, -, rfl⟩ := Option.map_eq_some_iff.mp h
    exact edge_matches hs id
  | startInput p =>
    cases h
    unfold startInput
    split <;> exact hs
  | _ =>
    cases h
    exact hs

@[simp] theorem foldl_none (w : List Call) : w.foldl (step view) none = none :=
  List.foldl_fixed' (fun _ => rfl) w

def MatchesIfAny (o : Option State) : Prop := ∀ s, o = some s → Matches s

theorem calls_match {o : Option State} {w : List Call} (hw : ∀ c ∈ w, ∀ p, c ≠ .endInputs p)
    (ho : MatchesIfAny o) : MatchesIfAny (w.foldl (step view) o) := by
  apply List.foldlRecOn w (step view) ho
  intro o ho c hc s' hs'
  obtain ⟨s, rfl, hs⟩ := Option.bind_eq_some_iff.mp hs'
  exact onCall_matches (hw c hc) (ho s rfl) hs

theorem OneEdge.isEdge (hedges : OneEdge edges) (h : HashArg) (L : TXOs) (i : Nat) (x : TxInput) :
    ∀ c ∈ edges h L i x, isEdge c = true := by
  have hedge := hedges h L i x
  intro c hc
  split at hedge
  · rw [hedge] at hc
    cases hc
  · obtain ⟨value, o, size, he⟩ := hedge
    rw [he, List.mem_singleton] at hc
    rw [hc]
    rfl

/-- The calls of a transaction before endInputs. -/
def entering (coin : Coin) (edges : EdgeCalls) (h : HashArg) (L : TXOs) (t : Tx) (p : Ptr) :
    List Call :=
  .startTX p h :: .startInputs (t.inputsAt coin p) ::
    inputsCalls (edges h) L 0 (t.inputsAt coin p + (encodeVarInt t.inputs.length).length) t.inputs

theorem mem_entering (hedges : OneEdge edges) {coin : Coin} {c : Call}
    (hc : c ∈ entering coin edges h L t p) : (∀ q, c ≠ .endInputs q) ∧ isEndTX c = false := by
  rw [entering, List.mem_cons, List.mem_cons] at hc
  rcases hc with rfl | rfl | hc
  · exact ⟨fun q => by simp, rfl⟩
  · exact ⟨fun q => by simp, rfl⟩
  · have := isOfInput_of_mem (hedges.isEdge h) hc
    cases c <;> first | (cases this; done) | exact ⟨fun q he => (nomatch he), rfl⟩

theorem txCalls_entering (coin : Coin) : txCalls coin (edges h) h L t p =
    entering coin edges h L t p ++ (([.endInputs (t.outputsAt coin p)] ++ outCalls coin h t p) ++
      [.endTX (p + (t.encode coin).length)]) := by
  simp [txCalls, entering, outCalls]

theorem entering_run (hedges : OneEdge edges) (hs : Inv view env (some b) xs s)
    (hm : Holds (view.data b) p (t.encode env.coin)) (hid : h.value = some (txid env t)) :
    ∃ s', (entering env.coin edges h L t p).foldl (step view) (some s) = some s' ∧
      Entered view env b t xs s' := by
  obtain ⟨hchunk, hstamp⟩ := hs.chunk b rfl
  obtain ⟨-, hins⟩ := holds_append.mp (holds_encode hm).2.1
  have hrun : (entering env.coin edges h L t p).foldl (step view) (some s) =
      some (t.inputs.foldl afterInput (s.enter h)) :=
    @inputs_run view (s.enter h) edges h L 0 _ t.inputs hedges (hchunk.symm ▸ hins)
  obtain ⟨h1, h2, h3, h4, h5, h6⟩ := inputs_state t.inputs (s.enter h)
  refine ⟨_, hrun, ⟨h1.trans hchunk, h2.trans hstamp⟩, by rw [h3]; exact hid, ?_, ?_, hs.single, ?_, ?_⟩
  · rw [h4]
    simp [isGen, State.enter]
  · rw [h5]
    exact BitVec.zero_add _
  · rw [h6]
    refine (hs.rows.filter _).trans (List.Perm.of_eq ?_)
    rw [List.filter_map]
    refine congrArg (List.map _) (List.filter_congr ?_)
    intro x _
    rw [Bool.eq_iff_iff, decide_eq_true_iff, SpendsFrom]
    refine decide_eq_true_iff.trans ?_
    simp [keyOf]
  · refine calls_match (fun c hc => (mem_entering hedges hc).1) ?_ _ hrun
    intro s' hs'
    cases hs'
    exact hs.count

/-- A generation transaction is entered in the table; any other one leaves it alone. -/
theorem endInputs_inv {all post : List (BlockRef × Tx)} {s' : State} (hall : all = xs ++ (b, t) :: post)
    (hfresh : AllFresh view env all) (hs : Entered view env b t xs s) (hrun : endInputs s = some s') :
    Inv view env (some b) (xs ++ [(b, t)]) s' := by
  unfold endInputs at hrun
  by_cases hg : s.hasGenInput = true
  · rw [if_pos hg] at hrun
    have hgen := hs.gen.mp hg
    split at hrun
    · cases hrun
    · rename_i hnb
      rw [not_not, hs.nbInputs] at hnb
      have hone : t.inputs.length = 1 := by
        have := congrArg BitVec.toNat hnb
        rw [BitVec.toNat_ofNat, Nat.mod_eq_of_lt t.inputs_lt] at this
        exact this
      have hsingle : Single (xs ++ [(b, t)]) := by
        intro x hx hxg
        cases List.mem_append.mp hx with
        | inl hx => exact hs.single x hx hxg
        | inr hx =>
          rw [List.mem_singleton.mp hx]
          exact hone
      have hf := hfresh xs (b, t) post hall hsingle hgen
      rw [hs.hash, Option.map_some, Option.some_inj] at hrun
      subst hrun
      have hkeys : ∀ e ∈ TxMap.live s.txMap, e.1 ≠ txid env t := by
        intro e he
        obtain ⟨x, hx, rfl⟩ := List.mem_map.mp (hs.rows.mem_iff.mp he)
        exact hf.new x (List.mem_of_mem_filter hx)
      have hstamp : s.stamp ≠ 0 := by
        rw [hs.chunk.2]
        exact hf.stamp
      refine ⟨?_, hsingle, ?_, ?_⟩
      · intro b' hb'
        cases hb'
        exact hs.chunk
      · have hlive := live_insert s.txMap (txid env t) s.stamp
        have hpos : 0 < s.stamp := (BitVec.pos_iff_ne_zero s.stamp).mpr hstamp
        rw [if_pos hpos, List.filter_eq_self.mpr fun e he => by simpa using hkeys e he] at hlive
        rw [pristine_append, if_pos hgen, List.map_append, hlive]
        refine List.perm_append_comm.trans (hs.rows.append (List.Perm.of_eq ?_))
        rw [hs.chunk.2]
        rfl
      · refine (mint_matches_iff hs.count _).mpr ⟨?_, hstamp, ?_⟩
        · intro hmem
          obtain ⟨e, he, hid⟩ := List.mem_map.mp hmem
          exact hkeys e he hid
        · have hlen := hs.rows.length_eq
          rw [List.length_map] at hlen
          have hle := List.length_filter_le (fun x => decide ¬SpendsFrom t (txid env x.2))
            (pristine env xs)
          have hroom := hf.room
          omega
  · rw [if_neg hg] at hrun
    cases hrun
    have hgen : ¬isGen t := fun h => hg (hs.gen.mpr h)
    refine ⟨?_, ?_, ?_, hs.count⟩
    · intro b' hb'
      cases hb'
      exact hs.chunk
    · intro x hx hxg
      cases List.mem_append.mp hx with
      | inl hx => exact hs.single x hx hxg
      | inr hx =>
        rw [List.mem_singleton.mp hx] at hxg
        exact absurd hxg hgen
    · rw [pristine_append, if_neg hgen, List.append_nil]
      exact hs.rows

/-- The calls behind endInputs change nothing. -/
theorem step_isOutput {c : Call} (hc : isOutput c = true ∨ isEndTX c = true) (o : Option State) :
    step view o c = o := by
  cases o with
  | none => rfl
  | some s => cases c <;> first | rfl | cases hc <;> contradiction

def EnteredIfAny (view : View) (env : Env) (b : BlockRef) (t : Tx) (pre : List (BlockRef × Tx))
    (o : Option State) : Prop := ∀ s, o = some s → Entered view env b t pre s

/-- What is kept between the transactions, while the process is alive. -/
def InvIfAny (view : View) (env : Env) (cur : Option BlockRef) (pre : List (BlockRef × Tx))
    (o : Option State) : Prop := ∀ s, o = some s → Inv view env cur pre s

theorem InvIfAny.matches {cur : Option BlockRef} {o : Option State}
    (ho : InvIfAny view env cur xs o) : MatchesIfAny o := fun s hs => (ho s hs).count

theorem InvIfAny.call {cur cur' : Option BlockRef} {o : Option State} {c : Call}
    (ho : InvIfAny view env cur xs o)
    (h : ∀ s, Inv view env cur xs s → ∃ s', onCall view s c = some s' ∧ Inv view env cur' xs s') :
    InvIfAny view env cur' xs (step view o c) := by
  intro s' hs'
  obtain ⟨s, rfl, hs⟩ := Option.bind_eq_some_iff.mp hs'
  obtain ⟨s'', hs'', hinv⟩ := h s (ho s rfl)
  rw [hs'', Option.some_inj] at hs
  exact hs ▸ hinv

theorem pristine_tx (hedges : OneEdge edges) {all post : List (BlockRef × Tx)}
    (hall : all = xs ++ (b, t) :: post) (hfresh : AllFresh view env all)
    (hm : Holds (view.data b) p (t.encode env.coin)) (hid : h.value = some (txid env t)) :
    Keeps isEndTX (step view) (InvIfAny view env (some b)) (InvIfAny view env (some b))
      (fun _ => MatchesIfAny) xs (txCalls env.coin (edges h) h L t p) [(b, t)] := by
  have hout : ∀ c ∈ outCalls env.coin h t p, isOutput c = true := fun c => isOutput_of_mem
  have hrest : ∀ v, v <+: outCalls env.coin h t p → ∀ o, v.foldl (step view) o = o := fun v hv o =>
    foldl_ignored (fun c hc o => step_isOutput (Or.inl (hout c (hv.subset hc))) o) o
  have hinputs : Keeps isEndTX (step view) (InvIfAny view env (some b)) (EnteredIfAny view env b t)
      (fun _ => MatchesIfAny) xs (entering env.coin edges h L t p) [] := by
    refine Keeps.inside (fun c hc => (mem_entering hedges hc).2) ?_ ?_
    · intro o ho s' hs'
      cases o with
      | none =>
        rw [foldl_none] at hs'
        cases hs'
      | some s =>
        obtain ⟨s₁, hrun, hent⟩ := entering_run hedges (ho s rfl) hm hid
        rw [hrun, Option.some_inj] at hs'
        exact hs' ▸ hent
    · intro o ho v hv
      exact calls_match (fun c hc => (mem_entering hedges (hv.subset hc)).1) ho.matches
  have hend : ∀ o, EnteredIfAny view env b t xs o → InvIfAny view env (some b) (xs ++ [(b, t)])
      (step view o (.endInputs (t.outputsAt env.coin p))) := by
    intro o ho s' hs'
    obtain ⟨s, rfl, hs⟩ := Option.bind_eq_some_iff.mp hs'
    exact endInputs_inv hall hfresh (ho s rfl) hs
  rw [txCalls_entering]
  refine hinputs.append ?_
  rw [List.append_nil]
  refine Keeps.segment ?_ rfl (fun o ho => ho.matches) ?_ ?_
  · intro c hc
    cases List.mem_append.mp hc with
    | inl hc => rw [List.mem_singleton.mp hc]; rfl
    | inr hc => have := hout c hc; cases c <;> first | rfl | cases this
  · intro o ho
    rw [List.foldl_append, List.foldl_append, hrest _ (List.prefix_refl _)]
    refine Eq.mpr (congrArg _ (step_isOutput (Or.inr rfl) _)) (hend o ho)
  · intro o ho v hv
    cases prefix_cases hv with
    | inl hv =>
      cases List.prefix_concat_iff.mp (show v <+: [] ++ [_] from hv) with
      | inl hv =>
        rw [hv]
        exact (hend o ho).matches
      | inr hv =>
        rw [List.prefix_nil.mp hv]
        exact fun s hs => (ho s hs).count
    | inr hv =>
      obtain ⟨v', rfl, hv'⟩ := hv
      rw [List.foldl_append, hrest v' hv']
      exact (hend o ho).matches

theorem pristine_steps (env : Env) (view : View) (hedges : OneEdge edges) {all : List (BlockRef × Tx)}
    (hfresh : AllFresh view env all) :
    Steps env view.data edges (step view) (InvIfAny view env) (fun _ => MatchesIfAny) all where
  weaken _ _ _ ho := ho.matches
  startBlock := by
    intro cur b pre o ho
    refine ho.call fun s hs => ⟨_, rfl, ?_, hs.single, hs.rows, hs.count⟩
    intro b' hb'
    cases hb'
    exact ⟨rfl, rfl⟩
  startTXs _ _ _ _ ho := ho.call fun s hs => ⟨s, rfl, hs⟩
  endTXs _ _ _ _ ho := ho.call fun s hs => ⟨s, rfl, hs⟩
  endBlock _ _ _ _ ho := ho.call fun s hs => ⟨s, rfl, hs⟩
  tx _ _ _ _ _ _ hall hm := pristine_tx hedges hall hfresh hm rfl

/-- In a run whose generation transactions are fresh the count is that of the entries
that are not zero at every point, and the printed count that of the printed rows, which
are those of the generation transactions none of whose outputs is spent. -/
theorem nbPristine_matches (env : Env) (view : View) (edges : EdgeCalls) (hedges : OneEdge edges)
    (bs : List (Block env.coin view.data)) (hfresh : AllFresh view env (placed bs)) :
    let calls := runCalls env edges noEntries bs
    (∀ w s, w <+: calls → w.foldl (step view) (some init) = some s →
      s.nbPristine.toNat = (TxMap.live s.txMap).length) ∧
    ∀ s, calls.foldl (step view) (some init) = some s →
      (wrapup s).1.toNat = (wrapup s).2.length ∧
      (wrapup s).2.Perm (((pristine env (placed bs)).map (keyOf view env)).map rowOf) := by
  intro calls
  have hrun := runCalls_keeps (pristine_steps env view hedges hfresh) bs [] rfl
  have hinit : InvIfAny view env none [] (some init) := by
    intro s hs
    cases hs
    exact init_inv
  refine ⟨?_, ?_⟩
  · intro w s hw hs
    exact hrun.mid (some init) ⟨none, hinit⟩ w hw s hs
  · intro s hs
    obtain ⟨cur, hlast⟩ := hrun.last (some init) ⟨none, hinit⟩
    have hinv := hlast s hs
    refine ⟨?_, hinv.rows.map rowOf⟩
    rw [wrapup, List.length_map]
    exact hinv.count

/-- A generation transaction. -/
def genTx : Tx := { mintTx with
  inputs := [⟨nullHash, 0xFFFFFFFF, [], 0, length_nil_lt⟩]
  inputs_lt := by decide }

def genView : View := ⟨fun b => BitVec.ofNat 64 b, fun _ => blockMemory .bitcoin [genTx]⟩

def namedEdge : EdgeCalls := fun h _ i x =>
  if x.prevHash = nullHash then []
  else [.edge 0 ⟨none, some x.prevHash⟩ x.prevIndex.toNat [] 0 h i x.script x.script.length]

theorem namedEdge_oneEdge : OneEdge namedEdge := by
  intro h L i x
  unfold namedEdge
  split
  · rfl
  · exact ⟨_, _, _, rfl⟩

def genBlock (b : BlockRef) : Block prefixEnv.coin genView.data :=
  blockOf .bitcoin b [genTx] (by decide)

/-- It spends the output of `genTx`. -/
def spendGenTx : Tx := { mintTx with
  inputs := [⟨txid prefixEnv genTx, 0, [], 0, length_nil_lt⟩]
  inputs_lt := by decide }

/-- Another generation transaction. -/
def laterGenTx : Tx := { genTx with version := 2 }

def spentTxs : List Tx := [genTx, spendGenTx, laterGenTx]

def spentView : View := ⟨fun b => BitVec.ofNat 64 b, fun _ => blockMemory .bitcoin spentTxs⟩

def spentBlock : Block prefixEnv.coin spentView.data := blockOf .bitcoin 1 spentTxs (by decide)

theorem spentBlock_fresh : AllFresh spentView prefixEnv (placed [spentBlock]) := by
  have hplaced : placed [spentBlock] = [(1, genTx), (1, spendGenTx), (1, laterGenTx)] := rfl
  intro pre x post hall _ hgen
  rw [hplaced] at hall
  cases pre with
  | nil =>
    obtain ⟨rfl, -⟩ := List.cons.inj hall
    exact ⟨fun y hy => absurd hy List.not_mem_nil, by decide +kernel, by decide⟩
  | cons y pre =>
    obtain ⟨rfl, hrest⟩ := List.cons.inj hall
    cases pre with
    | nil =>
      obtain ⟨hx, -⟩ := List.cons.inj hrest
      rw [← hx] at hgen
      exact absurd hgen (by decide +kernel)
    | cons z pre =>
      obtain ⟨rfl, hlast⟩ := List.cons.inj hrest
      cases pre with
      | nil =>
        obtain ⟨hx, -⟩ := List.cons.inj hlast
        rw [← hx]
        exact ⟨by decide +kernel, by decide +kernel, by decide +kernel⟩
      | cons u pre =>
        obtain ⟨-, hnone⟩ := List.cons.inj hlast
        simp at hnone

/-- Two generation transactions, the output of the first one spent: the other one is left. -/
theorem nbPristine_matches_spentBlock : ∃ s,
    (runCalls prefixEnv namedEdge noEntries [spentBlock]).foldl (step spentView) (some init) =
        some s ∧
      (wrapup s).1.toNat = (wrapup s).2.length ∧
      (wrapup s).2 = [rowOf (keyOf spentView prefixEnv (1, laterGenTx))] := by
  have hsome : ((runCalls prefixEnv namedEdge noEntries [spentBlock]).foldl (step spentView)
      (some init)).isSome = true := by
    decide +kernel
  obtain ⟨s, hs⟩ := Option.isSome_iff_exists.mp hsome
  obtain ⟨hcount, hrows⟩ := (nbPristine_matches prefixEnv spentView namedEdge namedEdge_oneEdge
    [spentBlock] spentBlock_fresh).2 s hs
  have hleft : ((pristine prefixEnv (placed [spentBlock])).map (keyOf spentView prefixEnv)).map rowOf =
      [rowOf (keyOf spentView prefixEnv (1, laterGenTx))] := by
    decide +kernel
  rw [hleft] at hrows
  exact ⟨s, hs, hcount, List.perm_singleton.mp hrows⟩

/-- Two blocks with the same generation transaction: counted twice, entered once. -/
theorem nbPristine_repeated : ¬ ∀ (env : Env) (view : View) (edges : EdgeCalls), OneEdge edges →
    ∀ (bs : List (Block env.coin view.data)) (s : State),
      (runCalls env edges noEntries bs).foldl (step view) (some init) = some s →
      s.nbPristine.toNat = (TxMap.live s.txMap).length := by
  intro h
  have hrun : ((runCalls prefixEnv namedEdge noEntries [genBlock 1, genBlock 2]).foldl (step genView)
      (some init)).map (fun s => (s.nbPristine.toNat, (TxMap.live s.txMap).length)) = some (2, 1) := by
    decide +kernel
  obtain ⟨s, hs, hcount⟩ := Option.map_eq_some_iff.mp hrun
  have hmatch := h prefixEnv genView namedEdge namedEdge_oneEdge _ s hs
  rw [Prod.mk.injEq] at hcount
  omega

end Blockparser.Pristine
