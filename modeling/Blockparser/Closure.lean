import Blockparser.Lib.Components
import Blockparser.Replay
import Blockparser.Script

/-! The closure command: addresses that inputs of one transaction spend from are taken to
belong to one party. -/
namespace Blockparser.Closure
open Bytes Trace MemoryManager Segments Components Blockparser.Parser Cursor Script Replay
open Chain Format Transaction
open Protocol (txWords txsWords blockWords)

/-- What the command uses of boost's adjacency_list: connected_components fills the vector
that is as long as there are vertices. -/
structure Boost where
  Graph : Type
  empty : Graph
  add_edge : Nat → Nat → Graph → Graph
  num_vertices : Graph → Nat
  connected_components : Graph → List Nat

/-- The graph with these edges, added one after the other. -/
def Boost.build (B : Boost) (es : List (Nat × Nat)) : B.Graph :=
  es.foldl (fun g e => B.add_edge e.1 e.2 g) B.empty

/-- add_edge extends the vertices up to its larger end, and connected_components labels
each vertex by its component. -/
structure Boost.Lawful (B : Boost) : Prop where
  num_empty : B.num_vertices B.empty = 0
  num_add : ∀ a b g, B.num_vertices (B.add_edge a b g) = max (B.num_vertices g) (max a b + 1)
  labels_length : ∀ g, (B.connected_components g).length = B.num_vertices g
  labels : ∀ es u v, u < B.num_vertices (B.build es) → v < B.num_vertices (B.build es) →
    ((B.connected_components (B.build es))[u]? = (B.connected_components (B.build es))[v]? ↔
      SameComponent es u v)

structure State (B : Boost) where
  graph : B.Graph
  addrMap : Hash160 → Option (BitVec 64)
  allAddrs : List Hash160
  vertices : List (BitVec 64)

def init (B : Boost) : State B := ⟨B.empty, fun _ => none, [], []⟩

variable {B : Boost}

/-- The address of an edge, where its script has one. -/
def spentAddr (solve : List UInt8 → Solved) : Call → Option Hash160
  | .edge _ _ _ outputScript _ _ _ _ _ =>
    if (solve outputScript).scriptType < 0 then none else some (solve outputScript).pubKeyHash
  | _ => none

/-- The number of an address, given to it when it is spent from for the first time. -/
def addVertex (s : State B) (pubKeyHash : Hash160) : State B :=
  match s.addrMap pubKeyHash with
  | some a => { s with vertices := s.vertices ++ [a] }
  | none =>
    let a := BitVec.ofNat 64 s.allAddrs.length
    { s with
      addrMap := Function.update s.addrMap pubKeyHash (some a)
      allAddrs := s.allAddrs ++ [pubKeyHash]
      vertices := s.vertices ++ [a] }

def edge (solve : List UInt8 → Solved) (s : State B) (outputScript : List UInt8) : State B :=
  let r := solve outputScript
  if r.scriptType < 0 then s else addVertex s r.pubKeyHash

/-- The cast `(unsigned int)a`. -/
def vertexOf (a : BitVec 64) : Nat := (a.setWidth 32).toNat

/-- One edge for each two neighbours of `vertices`. -/
def endTX (s : State B) : State B :=
  let add_edge := fun g (e : BitVec 64 × BitVec 64) => B.add_edge (vertexOf e.1) (vertexOf e.2) g
  { s with graph := (s.vertices.zip s.vertices.tail).foldl add_edge s.graph }

def onCall (solve : List UInt8 → Solved) (s : State B) : Call → State B
  | .startTX _ _ => { s with vertices := [] }
  | .endTX _ => endTX s
  | .edge _ _ _ outputScript _ _ _ _ _ => edge solve s outputScript
  | _ => s

/-- What is printed for a root: that it was never spent from, or the addresses. -/
inductive Listing
  | never
  | cluster (addrs : List Hash160)
deriving DecidableEq

/-- The turn of wrapup's loop for one root. It is none when the component vector or the
addresses are read outside their bounds. -/
def State.wrapupKey (s : State B) (keyHash : Hash160) : Option Listing :=
  let cc := B.connected_components s.graph
  match s.addrMap keyHash with
  | none => some .never
  | some addrIndex => do
    let homeComponentIndex ← cc[vertexOf addrIndex]?
    let addrs ← ((List.range cc.length).filter fun k => cc[k]? = some homeComponentIndex).mapM
      fun k => s.allAddrs[k]?
    some (.cluster addrs)

def State.wrapup (s : State B) (rootHashes : List Hash160) : Option (List Listing) :=
  rootHashes.mapM s.wrapupKey

/-- The addresses that each transaction of a run spends from. -/
def spends (solve : List UInt8 → Solved) : List Call → List (List Hash160)
  | [] => []
  | .startTX _ _ :: w => (w.takeWhile fun c => !isEndTX c).filterMap (spentAddr solve) :: spends solve w
  | _ :: w => spends solve w

/-- Both are spent by inputs of one transaction. -/
def CoSpent (S : List (List Hash160)) (x y : Hash160) : Prop := ∃ as ∈ S, x ∈ as ∧ y ∈ as

abbrev Linked (S : List (List Hash160)) : Hash160 → Hash160 → Prop := Relation.ReflTransGen (CoSpent S)

/-- The place of an address in the order in which they are spent from first. -/
def number (l : List Hash160) (y : Hash160) : Nat := l.eraseDups.idxOf y

/-- The number as `addrMap` has it. -/
def index (l : List Hash160) (y : Hash160) : BitVec 64 := BitVec.ofNat 64 (number l y)

/-- The vertex of an address: its number cut down to 32 bits. -/
def vertex (S : List (List Hash160)) (y : Hash160) : Nat := number S.flatten y % 2 ^ 32

/-- The edges between the vertices of neighbours. -/
def edges (S : List (List Hash160)) : List (Nat × Nat) :=
  S.flatMap fun as => (as.zip as.tail).map fun e => (vertex S e.1, vertex S e.2)

variable {solve : List UInt8 → Solved} {s : State B} {S X Y : List (List Hash160)} {w u : List Call}
  {l as : List Hash160} {x y root : Hash160} {g : B.Graph} {c : Call}

theorem eraseDups_snoc (l : List Hash160) (y : Hash160) :
    (l ++ [y]).eraseDups = if y ∈ l then l.eraseDups else l.eraseDups ++ [y] := by
  rw [List.eraseDups_append]
  by_cases hy : y ∈ l
  · simp [hy, List.removeAll]
  · simp [hy, List.removeAll, List.eraseDups_cons]

theorem nodup_eraseDups (l : List Hash160) : l.eraseDups.Nodup := by
  induction l using List.reverseRecOn with
  | nil => exact List.nodup_nil
  | append_singleton l y ih =>
    rw [eraseDups_snoc]
    split
    · exact ih
    · rename_i hy
      rw [List.nodup_append]
      refine ⟨ih, List.nodup_singleton y, ?_⟩
      rintro a ha b hb rfl
      rw [List.mem_singleton] at hb
      subst hb
      exact hy (List.mem_eraseDups.mp ha)

theorem number_append (hy : y ∈ l) (k : List Hash160) : number (l ++ k) y = number l y := by
  rw [number, List.eraseDups_append]
  exact List.idxOf_append_of_mem (List.mem_eraseDups.mpr hy)

theorem number_new (hy : y ∉ l) : number (l ++ [y]) y = l.eraseDups.length := by
  rw [number, eraseDups_snoc, if_neg hy, List.idxOf_append_of_notMem (by simpa using hy),
    List.idxOf_cons_self, Nat.add_zero]

theorem number_lt (hy : y ∈ l) : number l y < l.eraseDups.length :=
  List.idxOf_lt_length_of_mem (List.mem_eraseDups.mpr hy)

theorem vertexOf_index (l : List Hash160) (y : Hash160) :
    vertexOf (index l y) = number l y % 2 ^ 32 := by
  simp [vertexOf, index]

/-- The addresses spent from so far have the numbers of `addrMap`. -/
structure Tracks (l : List Hash160) (g : B.Graph) (s : State B) : Prop where
  addrs : s.allAddrs = l.eraseDups
  map : ∀ y, s.addrMap y = if y ∈ l then some (index l y) else none
  graph : s.graph = g

theorem Tracks.addVertex (hs : Tracks l g s) (hsub : ∀ y ∈ as, y ∈ l)
    (hv : s.vertices = as.map (index l)) (y : Hash160) :
    Tracks (l ++ [y]) g (addVertex s y) ∧ (addVertex s y).vertices =
      (as ++ [y]).map (index (l ++ [y])) := by
  have hold : ∀ z ∈ l, index (l ++ [y]) z = index l z := by
    intro z hz
    rw [index, number_append hz [y], index]
  have hverts : s.vertices = as.map (index (l ++ [y])) := by
    rw [hv]
    refine List.map_congr_left ?_
    intro z hz
    rw [hold z (hsub z hz)]
  have hy := hs.map y
  by_cases hmem : y ∈ l
  · rw [if_pos hmem] at hy
    simp only [Closure.addVertex, hy]
    refine ⟨⟨?_, ?_, hs.graph⟩, ?_⟩
    · rw [eraseDups_snoc, if_pos hmem]
      exact hs.addrs
    · intro z
      rw [hs.map z]
      by_cases hz : z ∈ l
      · simp [hz, hold z hz]
      · have hzy : z ≠ y := fun h => hz (h ▸ hmem)
        simp [hz, hzy]
    · rw [List.map_append, hverts, List.map_singleton, hold y hmem]
  · rw [if_neg hmem] at hy
    have hnew : index (l ++ [y]) y = BitVec.ofNat 64 s.allAddrs.length := by
      rw [index, number_new hmem, hs.addrs]
    simp only [Closure.addVertex, hy]
    refine ⟨⟨?_, ?_, hs.graph⟩, ?_⟩
    · rw [eraseDups_snoc, if_neg hmem, hs.addrs]
    · intro z
      by_cases hzy : z = y
      · subst hzy
        simp [hnew]
      · show Function.update s.addrMap y _ z = _
        rw [Function.update_of_ne hzy, hs.map z]
        by_cases hz : z ∈ l
        · simp [hz, hold z hz]
        · simp [hz, hzy]
    · rw [List.map_append, hverts, List.map_singleton, hnew]

theorem Tracks.addVertices (hs : Tracks l g s) (hsub : ∀ y ∈ as, y ∈ l)
    (hv : s.vertices = as.map (index l)) (ys : List Hash160) :
    Tracks (l ++ ys) g (ys.foldl Closure.addVertex s) ∧ (ys.foldl Closure.addVertex s).vertices =
      (as ++ ys).map (index (l ++ ys)) := by
  induction ys generalizing s l as with
  | nil => simpa using ⟨hs, hv⟩
  | cons y ys ih =>
    obtain ⟨hs', hv'⟩ := hs.addVertex hsub hv y
    have hsub' : ∀ z ∈ as ++ [y], z ∈ l ++ [y] := by
      intro z hz
      cases List.mem_append.mp hz with
      | inl hz => exact List.mem_append_left _ (hsub z hz)
      | inr hz => exact List.mem_append_right _ hz
    have hrest := ih hs' hsub' hv'
    rw [List.append_assoc, List.append_assoc] at hrest
    exact hrest

theorem vertex_append (hy : y ∈ S.flatten) (X : List (List Hash160)) : vertex (S ++ X) y = vertex S y := by
  rw [vertex, List.flatten_append, number_append hy]
  rfl

theorem edges_snoc (S : List (List Hash160)) (as : List Hash160) : edges (S ++ [as]) =
    edges S ++ (as.zip as.tail).map fun e => (vertex (S ++ [as]) e.1, vertex (S ++ [as]) e.2) := by
  rw [edges, List.flatMap_append, List.flatMap_singleton]
  congr 1
  refine List.flatMap_congr ?_
  intro as' has'
  refine List.map_congr_left ?_
  intro e he
  obtain ⟨-, h1, h2⟩ := mem_of_neighbours he
  rw [vertex_append (List.mem_flatten.mpr ⟨as', has', h1⟩),
    vertex_append (List.mem_flatten.mpr ⟨as', has', h2⟩)]

/-- Between two transactions. -/
abbrev Tracked (S : List (List Hash160)) (s : State B) : Prop := Tracks S.flatten (B.build (edges S)) s

theorem Tracked.endTX (hs : Tracks (S.flatten ++ as) (B.build (edges S)) s)
    (hv : s.vertices = as.map (index (S.flatten ++ as))) :
    Tracked (S ++ [as]) (endTX s) := by
  have hflat : (S ++ [as]).flatten = S.flatten ++ as := by simp
  refine ⟨hs.addrs.trans (by rw [hflat]), ?_, ?_⟩
  · rw [hflat]
    exact hs.map
  · have hzip : s.vertices.zip s.vertices.tail = (as.zip as.tail).map
        (Prod.map (index (S.flatten ++ as)) (index (S.flatten ++ as))) := by
      rw [hv, ← List.map_tail, List.zip_map]
    rw [edges_snoc, Boost.build, List.foldl_append, List.foldl_map, ← Boost.build]
    simp only [Closure.endTX, hzip, List.foldl_map, Prod.map_fst, Prod.map_snd, vertexOf_index,
      hs.graph, vertex, hflat]

/-- A word of whole transactions, which spend from `X`. -/
structure Whole (solve : List UInt8 → Solved) (w : List Call) (X : List (List Hash160)) : Prop where
  keeps : ∀ (B : Boost) S (s : State B), Tracked S s → Tracked (S ++ X) (w.foldl (onCall solve) s)
  spends_append : ∀ u, spends solve (w ++ u) = X ++ spends solve u

theorem Whole.nil : Whole solve [] [] where
  keeps B S s hs := by simpa using hs
  spends_append u := rfl

theorem Whole.append (hw : Whole solve w X) (hu : Whole solve u Y) :
    Whole solve (w ++ u) (X ++ Y) where
  keeps B S s hs := by
    rw [List.foldl_append, ← List.append_assoc]
    exact hu.keeps B _ _ (hw.keeps B S s hs)
  spends_append v := by
    rw [List.append_assoc, hw.spends_append, hu.spends_append, List.append_assoc]

/-- The calls around the transactions are not listened to. -/
def isAround : Call → Bool
  | .startTX .. | .endTX _ => false
  | .edge .. => false
  | _ => true

theorem Whole.around (hc : isAround c = true) : Whole solve [c] [] where
  keeps B S s hs := by
    rw [List.append_nil]
    cases c <;> first | exact hs | cases hc
  spends_append u := by cases c <;> first | rfl | cases hc

/-- The calls between startTX and endTX. -/
def isInside : Call → Bool
  | .startTX .. | .endTX _ => false
  | _ => true

theorem onCall_inside (hc : isInside c = true) (s : State B) :
    onCall solve s c = (spentAddr solve c).elim s (addVertex s) := by
  cases c with
  | startTX | endTX => cases hc
  | edge _ _ _ outputScript =>
    unfold onCall edge spentAddr
    dsimp only
    split <;> rfl
  | _ => rfl

theorem spends_inside {mid : List Call} (hmid : ∀ c ∈ mid, isInside c = true) (u : List Call) :
    spends solve (mid ++ u) = spends solve u := by
  induction mid with
  | nil => rfl
  | cons c mid ih =>
    have hrest := ih fun d hd => hmid d (List.mem_cons_of_mem c hd)
    have hc := hmid c (List.mem_cons_self ..)
    cases c <;> first | exact hrest | cases hc

theorem takeWhile_inside {mid : List Call} (hmid : ∀ c ∈ mid, isInside c = true) (q : Ptr)
    (u : List Call) : (mid ++ .endTX q :: u).takeWhile (fun c => !isEndTX c) = mid := by
  have hall : ∀ c ∈ mid, (!isEndTX c) = true := by
    intro c hc
    have := hmid c hc
    cases c <;> first | rfl | cases this
  rw [List.takeWhile_append_of_pos hall, List.takeWhile_cons_of_neg (by simp [isEndTX]),
    List.append_nil]

theorem Whole.tx {mid : List Call} (hmid : ∀ c ∈ mid, isInside c = true) (p : Ptr) (h : HashArg)
    (q : Ptr) :
    Whole solve (.startTX p h :: (mid ++ [.endTX q])) [mid.filterMap (spentAddr solve)] where
  keeps B S s hs := by
    have hstart : Tracks S.flatten (B.build (edges S)) { s with vertices := [] } := ⟨hs.1, hs.2, hs.3⟩
    have hmids : ∀ s : State B, mid.foldl (onCall solve) s =
        (mid.filterMap (spentAddr solve)).foldl addVertex s := fun s =>
      foldl_filterMap (fun c hc s => onCall_inside (hmid c hc) s) s
    have hnone : ∀ y ∈ ([] : List Hash160), y ∈ S.flatten := by simp
    obtain ⟨hs', hv⟩ := hstart.addVertices hnone rfl (mid.filterMap (spentAddr solve))
    rw [List.foldl_cons, List.foldl_append, hmids]
    exact Tracked.endTX hs' hv
  spends_append u := by
    have hrest : spends solve (.endTX q :: u) = spends solve u := rfl
    rw [List.cons_append, List.append_assoc, List.singleton_append, spends, takeWhile_inside hmid,
      spends_inside hmid, hrest]
    rfl

variable {env : Env} {m : Memory} {data : BlockRef → Memory}

theorem txWords_whole (solve : List UInt8 → Solved) {coin : Coin} {need : Bool} {p : Ptr}
    (hw : w ∈ txWords coin need m p) : ∃ X, Whole solve w X := by
  obtain ⟨h, mid, rfl, hmid⟩ := txWords_shape hw
  have hinside : ∀ c ∈ mid, isInside c = true := by
    intro c hc
    have := hmid c hc
    cases c <;> first | rfl | cases this
  exact ⟨_, Whole.tx hinside p h (txNext coin m p)⟩

theorem txsWords_whole (solve : List UInt8 → Solved) {coin : Coin} {need : Bool} (n : Nat) {p : Ptr}
    (hw : w ∈ txsWords coin need m n p) : ∃ X, Whole solve w X := by
  induction n generalizing p w with
  | zero =>
    cases hw
    exact ⟨[], Whole.nil⟩
  | succ n ih =>
    obtain ⟨t, ht, rest, hrest, rfl⟩ := hw
    obtain ⟨X, hX⟩ := txWords_whole solve ht
    obtain ⟨Y, hY⟩ := ih hrest
    exact ⟨X ++ Y, hX.append hY⟩

theorem blockWords_whole (solve : List UInt8 → Solved) {coin : Coin} {need : Bool} {b : BlockRef}
    {cut : Nat × Bool} (hw : w ∈ blockWords coin need b m cut) : ∃ X, Whole solve w X := by
  obtain ⟨_, rfl, _, ⟨_, rfl, _, ⟨txs, htxs, v, hv, rfl⟩, rfl⟩, rfl⟩ := hw
  obtain ⟨X, hX⟩ := txsWords_whole solve cut.1 htxs
  have hend : Whole solve v [] := by
    split at hv
    · cases hv
      exact Whole.nil
    · cases hv
      exact (Whole.around rfl).append (Whole.around rfl)
  have hstart : Whole solve [Call.startBlock b] [] := Whole.around rfl
  have hstartTXs : Whole solve [Call.startTXs (afterHeader coin 0)] [] := Whole.around rfl
  exact ⟨_, hstart.append (hstartTXs.append (hX.append hend))⟩

/-- A step of the parser that tells the command of whole transactions. -/
def Tells {α : Type} (solve : List UInt8 → Solved) (a : M α) : Prop :=
  ∀ x r x', a x = .ok r x' → ∃ w X, x'.calls = x.calls ++ w ∧ Whole solve w X

theorem Tells.pure {α : Type} (r : α) : Tells solve (pure r : M α) := by
  intro x r' x' h
  cases h
  exact ⟨[], [], by simp, Whole.nil⟩

theorem Tells.emit (hc : isAround c = true) : Tells solve (emit c) := by
  intro x r x' h
  cases h
  exact ⟨[c], [], rfl, Whole.around hc⟩

theorem Tells.bind {α β : Type} {a : M α} {f : α → M β} (ha : Tells solve a)
    (hf : ∀ r, Tells solve (f r)) : Tells solve (a >>= f) := by
  intro x r x' h
  rw [run_bind] at h
  cases hr : a x with
  | error e y =>
    rw [hr] at h
    cases h
  | ok v y =>
    rw [hr] at h
    obtain ⟨w, X, hcalls, hw⟩ := ha x v y hr
    obtain ⟨u, Y, hcalls', hu⟩ := hf v y r x' h
    refine ⟨w ++ u, X ++ Y, ?_, hw.append hu⟩
    rw [hcalls', hcalls, List.append_assoc]

theorem parseBlock_tells (env : Env) (b : BlockRef) (m : Memory) : Tells solve (parseBlock env b m) := by
  intro x r x' h
  have hwords := @Protocol.parseBlock_words env _ m b x rfl
  rw [h] at hwords
  obtain ⟨-, -, w, hw, hcalls⟩ := hwords
  obtain ⟨X, hX⟩ := blockWords_whole solve hw
  exact ⟨w, X, hcalls, hX⟩

theorem parseChain_tells (env : Env) (data : BlockRef → Memory) (h : Heights.State) (fuel : Nat)
    (blk : Option BlockRef) : Tells solve (LongestChain.parseChain env data h fuel blk) := by
  induction fuel generalizing blk with
  | zero => cases blk <;> exact Tells.pure _
  | succ fuel ih =>
    cases blk with
    | none => exact Tells.pure _
    | some b =>
      refine (parseBlock_tells env b (data b)).bind ?_
      intro r
      cases r with
      | true => exact Tells.pure _
      | false => exact ih _

theorem parseLongestChain_tells (env : Env) (data : BlockRef → Memory) (fuel : Nat)
    (h : Heights.State) : Tells solve (LongestChain.parseLongestChain env data fuel h) := by
  refine (Tells.emit rfl).bind fun _ => (Tells.emit rfl).bind fun _ =>
    (parseChain_tells env data h fuel _).bind fun ended => ?_
  refine Tells.bind ?_ fun _ => Tells.pure _
  cases ended with
  | true => exact Tells.emit rfl
  | false => exact Tells.pure _

theorem tracked_init (B : Boost) : Tracked [] (init B) := ⟨rfl, fun _ => rfl, rfl⟩

/-- The run lemma: after a run the command has the numbers and the edges of what was spent. -/
theorem run_tracked {fuel : Nat} {h : Heights.State} {r : Bool} {x x' : Blockparser.Parser.State}
    (hcalls : x.calls = [])
    (hrun : LongestChain.parseLongestChain env data fuel h x = .ok r x') (B : Boost) :
    Tracked (spends solve x'.calls) (x'.calls.foldl (onCall solve) (init B)) := by
  have htells : Tells solve _ := parseLongestChain_tells env data fuel h
  obtain ⟨w, X, hw, hwhole⟩ := htells x r x' hrun
  rw [hcalls, List.nil_append] at hw
  have hX : spends solve w = X := by
    have := hwhole.spends_append []
    rwa [List.append_nil, spends, List.append_nil] at this
  rw [hw, hX]
  exact hwhole.keeps B [] (init B) (tracked_init B)

theorem number_iff {k : Nat} : l.eraseDups[k]? = some y ↔ y ∈ l ∧ number l y = k := by
  constructor
  · intro h
    obtain ⟨hk, hget⟩ := List.getElem?_eq_some_iff.mp h
    refine ⟨List.mem_eraseDups.mp (List.mem_of_getElem? h), ?_⟩
    rw [number, ← hget]
    exact (nodup_eraseDups l).idxOf_getElem k hk
  · rintro ⟨hy, rfl⟩
    rw [List.getElem?_eq_getElem (number_lt hy)]
    exact congrArg some (List.getElem_idxOf (number_lt hy))

theorem number_inj (hx : x ∈ l) (h : number l x = number l y) (hy : y ∈ l) : x = y := by
  have hx' := number_iff.mpr ⟨hx, h⟩
  rw [number_iff.mpr ⟨hy, rfl⟩] at hx'
  exact (Option.some_inj.mp hx').symm

theorem Boost.build_snoc (B : Boost) (es : List (Nat × Nat)) (e : Nat × Nat) :
    B.build (es ++ [e]) = B.add_edge e.1 e.2 (B.build es) := by
  rw [build, List.foldl_append]
  rfl

/-- The vertices are those up to the largest end of an edge. -/
theorem Boost.Lawful.lt_vertices (hB : B.Lawful) (es : List (Nat × Nat)) (v : Nat) :
    v < B.num_vertices (B.build es) ↔ ∃ e ∈ es, v ≤ e.1 ∨ v ≤ e.2 := by
  induction es using List.reverseRecOn with
  | nil =>
    have : B.num_vertices (B.build []) = 0 := hB.num_empty
    simp [this]
  | append_singleton es e ih =>
    have hmax : v < max e.1 e.2 + 1 ↔ v ≤ e.1 ∨ v ≤ e.2 := by
      rw [Nat.lt_succ_iff, le_max_iff]
    simp only [B.build_snoc, hB.num_add, lt_max_iff, ih, hmax, List.mem_append, List.mem_singleton,
      or_and_right, exists_or, exists_eq_left]

theorem mem_edges {e : Nat × Nat} : e ∈ edges S ↔
    ∃ as ∈ S, ∃ d ∈ as.zip as.tail, (vertex S d.1, vertex S d.2) = e := by
  simp only [edges, List.mem_flatMap, List.mem_map]

/-- There are vertices up to the largest one of a transaction with two or more. -/
theorem lt_vertices (hB : B.Lawful) (S : List (List Hash160)) (v : Nat) :
    v < B.num_vertices (B.build (edges S)) ↔
      ∃ as ∈ S, 2 ≤ as.length ∧ ∃ y ∈ as, v ≤ vertex S y := by
  rw [hB.lt_vertices]
  constructor
  · rintro ⟨e, he, hv⟩
    obtain ⟨as, has, d, hd, rfl⟩ := mem_edges.mp he
    obtain ⟨hlen, h1, h2⟩ := mem_of_neighbours hd
    cases hv with
    | inl hv => exact ⟨as, has, hlen, d.1, h1, hv⟩
    | inr hv => exact ⟨as, has, hlen, d.2, h2, hv⟩
  · rintro ⟨as, has, hlen, y, hy, hv⟩
    obtain ⟨d, hd, hend⟩ := mem_neighbours hlen hy
    refine ⟨_, mem_edges.mpr ⟨as, has, d, hd, rfl⟩, ?_⟩
    cases hend with
    | inl h => exact Or.inl (by rw [h]; exact hv)
    | inr h => exact Or.inr (by rw [h]; exact hv)

theorem joined_of_mem (has : as ∈ S) (hx : x ∈ as) (hy : y ∈ as) :
    SameComponent (edges S) (vertex S x) (vertex S y) := by
  have hj := joined_neighbours (as.map (vertex S)) (List.mem_map_of_mem hx) (List.mem_map_of_mem hy)
  refine hj.mono ?_
  intro e he
  rw [← List.map_tail, List.zip_map, List.mem_map] at he
  obtain ⟨d, hd, rfl⟩ := he
  exact mem_edges.mpr ⟨as, has, d, hd, rfl⟩

theorem joined_of_linked (h : Linked S x y) : SameComponent (edges S) (vertex S x) (vertex S y) := by
  induction h with
  | refl => exact SameComponent.refl _
  | tail _ hstep ih =>
    obtain ⟨as, has, hb, hc⟩ := hstep
    exact ih.trans (joined_of_mem has hb hc)

theorem mapM_defined {α β : Type} {f : α → Option β} {xs : List α} (h : ∀ a ∈ xs, (f a).isSome) :
    xs.mapM f = some (xs.filterMap f) := by
  induction xs with
  | nil => rfl
  | cons a xs ih =>
    obtain ⟨b, hb⟩ := Option.isSome_iff_exists.mp (h a (List.mem_cons_self ..))
    rw [List.mapM_cons, hb, ih fun c hc => h c (List.mem_cons_of_mem a hc), List.filterMap_cons_some hb]
    rfl

theorem mapM_undefined {α β : Type} {f : α → Option β} {xs : List α} {a : α} (ha : a ∈ xs)
    (h : f a = none) : xs.mapM f = none := by
  induction xs with
  | nil => cases ha
  | cons b xs ih =>
    rw [List.mapM_cons]
    cases List.mem_cons.mp ha with
    | inl hab =>
      rw [← hab, h]
      rfl
    | inr ha =>
      rw [ih ha]
      cases f b <;> rfl

/-- What is listed for `root`: the addresses of the vertices with its label. -/
def listed (B : Boost) (S : List (List Hash160)) (root : Hash160) : List Hash160 :=
  let cc := B.connected_components (B.build (edges S))
  ((List.range cc.length).filter fun k => cc[k]? = cc[vertex S root]?).filterMap
    fun k => S.flatten.eraseDups[k]?

/-- The addresses are never read outside their bounds, the component vector is when
there is no vertex for the root. -/
theorem wrapupKey_eq (hB : B.Lawful) (hs : Tracked S s) (hroot : root ∈ S.flatten) :
    s.wrapupKey root =
      if vertex S root < B.num_vertices (B.build (edges S)) then some (.cluster (listed B S root))
      else none := by
  have hmap : s.addrMap root = some (index S.flatten root) := by rw [hs.map, if_pos hroot]
  simp only [State.wrapupKey, hmap, vertexOf_index, hs.graph, hs.addrs]
  rw [← vertex]
  split
  · rename_i hv
    rw [← hB.labels_length] at hv
    rw [List.getElem?_eq_getElem hv, Option.bind_eq_bind, Option.bind_some, mapM_defined]
    · rw [listed, List.getElem?_eq_getElem hv]
      rfl
    · intro k hk
      have hk' := (List.mem_filter.mp hk).1
      rw [List.mem_range, hB.labels_length, lt_vertices hB] at hk'
      obtain ⟨as, has, -, y, hy, hle⟩ := hk'
      have hlt : k < S.flatten.eraseDups.length := by
        have := number_lt (List.mem_flatten.mpr ⟨as, has, hy⟩)
        exact lt_of_le_of_lt (hle.trans (Nat.mod_le _ _)) this
      rw [List.getElem?_eq_getElem hlt]
      rfl
  · rename_i hv
    rw [← hB.labels_length, not_lt] at hv
    rw [List.getElem?_eq_none hv]
    rfl

theorem mem_listed (hB : B.Lawful) (hv : vertex S root < B.num_vertices (B.build (edges S))) :
    y ∈ listed B S root ↔ y ∈ S.flatten ∧
      number S.flatten y < B.num_vertices (B.build (edges S)) ∧
      SameComponent (edges S) (vertex S root) (number S.flatten y) := by
  simp only [listed, List.mem_filterMap, List.mem_filter, List.mem_range, hB.labels_length,
    decide_eq_true_eq, number_iff]
  constructor
  · rintro ⟨k, ⟨hk, hlabel⟩, hy, rfl⟩
    exact ⟨hy, hk, ((hB.labels _ _ _ hk hv).mp hlabel).symm⟩
  · rintro ⟨hy, hk, hj⟩
    exact ⟨_, ⟨hk, (hB.labels _ _ _ hk hv).mpr hj.symm⟩, hy, rfl⟩

theorem nodup_listed (B : Boost) (S : List (List Hash160)) (root : Hash160) :
    (listed B S root).Nodup := by
  refine List.Nodup.filterMap ?_ (List.nodup_range.filter _)
  intro k k' y hk hk'
  rw [Option.mem_def, number_iff] at hk hk'
  exact hk.2.symm.trans hk'.2

/-- All the roots are looked up inside the vector when each has a vertex. -/
theorem wrapup_defined (hB : B.Lawful) (hs : Tracked S s) (roots : List Hash160)
    (hroots : ∀ root ∈ roots, root ∈ S.flatten) :
    (s.wrapup roots).isSome ↔
      ∀ root ∈ roots, vertex S root < B.num_vertices (B.build (edges S)) := by
  have hkey : ∀ root ∈ roots, (s.wrapupKey root).isSome ↔
      vertex S root < B.num_vertices (B.build (edges S)) := by
    intro root hroot
    rw [wrapupKey_eq hB hs (hroots root hroot)]
    split
    · rename_i hv
      simp [hv]
    · rename_i hv
      simp [hv]
  constructor
  · intro h root hroot
    rw [← hkey root hroot]
    by_contra hnone
    rw [Option.not_isSome_iff_eq_none] at hnone
    rw [State.wrapup, mapM_undefined hroot hnone] at h
    cases h
  · intro h
    rw [State.wrapup, mapM_defined fun root hroot => (hkey root hroot).mpr (h root hroot)]
    rfl

/-- `x` has the vertex of an address that is linked to `root`. -/
def Beside (S : List (List Hash160)) (root x : Hash160) : Prop :=
  ∃ z, Linked S root z ∧ vertex S x = number S.flatten z

/-- When the listing of `root` is right. There is a vertex up to its number: an address with
no smaller one was spent together with another. The cut to 32 bits does no harm: it
keeps the numbers of the linked addresses, and no other address falls on them that is
spent together with one that does not. -/
structure Fits (S : List (List Hash160)) (root : Hash160) : Prop where
  reached : ∃ as ∈ S, 2 ≤ as.length ∧ ∃ y ∈ as, number S.flatten root ≤ vertex S y
  small : ∀ y, Linked S root y → number S.flatten y < 2 ^ 32
  apart : ∀ as ∈ S, ∀ x ∈ as, ∀ y ∈ as, Beside S root x → Beside S root y

theorem mem_of_linked (hroot : root ∈ S.flatten) (h : Linked S root y) : y ∈ S.flatten := by
  cases h with
  | refl => exact hroot
  | tail _ hstep =>
    obtain ⟨as, has, -, hy⟩ := hstep
    exact List.mem_flatten.mpr ⟨as, has, hy⟩

/-- Up to 2^32 addresses the cut changes nothing. -/
theorem fits_of_few (hroot : root ∈ S.flatten) (hfew : S.flatten.eraseDups.length ≤ 2 ^ 32) :
    Fits S root ↔ ∃ as ∈ S, 2 ≤ as.length ∧ ∃ y ∈ as, number S.flatten root ≤ number S.flatten y := by
  have hsmall : ∀ y ∈ S.flatten, number S.flatten y < 2 ^ 32 := fun y hy =>
    lt_of_lt_of_le (number_lt hy) hfew
  have hvertex : ∀ y ∈ S.flatten, vertex S y = number S.flatten y := fun y hy =>
    Nat.mod_eq_of_lt (hsmall y hy)
  have hmem : ∀ as ∈ S, ∀ y ∈ as, y ∈ S.flatten := fun as has y hy =>
    List.mem_flatten.mpr ⟨as, has, hy⟩
  constructor
  · intro h
    obtain ⟨as, has, hlen, y, hy, hle⟩ := h.reached
    rw [hvertex y (hmem as has y hy)] at hle
    exact ⟨as, has, hlen, y, hy, hle⟩
  · rintro ⟨as, has, hlen, y, hy, hle⟩
    refine ⟨⟨as, has, hlen, y, hy, ?_⟩, fun z hz => hsmall z (mem_of_linked hroot hz), ?_⟩
    · rwa [hvertex y (hmem as has y hy)]
    · rintro as has x hx y hy ⟨z, hz, hxz⟩
      have hx' := hmem as has x hx
      rw [hvertex x hx'] at hxz
      have hxz' := number_inj hx' hxz (mem_of_linked hroot hz)
      subst hxz'
      exact ⟨y, hz.tail ⟨as, has, hx, hy⟩, hvertex y (hmem as has y hy)⟩

/-- The vertices with the label of the root are those beside it. -/
theorem Fits.joined (h : Fits S root) {k : Nat} (hk : SameComponent (edges S) (vertex S root) k) :
    ∃ z, Linked S root z ∧ k = number S.flatten z := by
  have hclosed := hk.least (R := fun a b => (∃ z, Linked S root z ∧ a = number S.flatten z) ↔
    ∃ z, Linked S root z ∧ b = number S.flatten z)
    ⟨fun _ => Iff.rfl, Iff.symm, Iff.trans⟩ (by
      intro e he
      obtain ⟨as, has, d, hd, rfl⟩ := mem_edges.mp he
      obtain ⟨-, h1, h2⟩ := mem_of_neighbours hd
      exact ⟨h.apart as has _ h1 _ h2, h.apart as has _ h2 _ h1⟩)
  exact hclosed.mp ⟨root, Relation.ReflTransGen.refl, Nat.mod_eq_of_lt
    (h.small root Relation.ReflTransGen.refl)⟩

theorem vertex_lt {v : Nat} (hB : B.Lawful) (hv : v < B.num_vertices (B.build (edges S))) :
    v < 2 ^ 32 := by
  rw [lt_vertices hB] at hv
  obtain ⟨as, -, -, y, -, hle⟩ := hv
  exact lt_of_le_of_lt hle (Nat.mod_lt _ (by norm_num))

theorem two_le_length (hx : x ∈ as) (hy : y ∈ as) (hne : x ≠ y) : 2 ≤ as.length := by
  by_contra hlen
  have hle : as.length ≤ 1 := by omega
  match as, hx, hy, hle with
  | [a], hx, hy, _ =>
    rw [List.mem_singleton] at hx hy
    exact hne (hx.trans hy.symm)

theorem vertex_of_linked (hB : B.Lawful) (hv : vertex S root < B.num_vertices (B.build (edges S)))
    (h : Linked S root y) : vertex S y < B.num_vertices (B.build (edges S)) := by
  induction h with
  | refl => exact hv
  | @tail x y _ hstep ih =>
    obtain ⟨as, has, hx, hy⟩ := hstep
    by_cases hne : x = y
    · rwa [← hne]
    · exact (lt_vertices hB S _).mpr ⟨as, has, two_le_length hx hy hne, y, hy, le_refl _⟩

/-- A vertex with the label of the root is the number of a listed address. -/
theorem listed_of_vertex (hB : B.Lawful) (hv : vertex S root < B.num_vertices (B.build (edges S)))
    (hlist : ∀ y, y ∈ listed B S root ↔ Linked S root y)
    (hy : vertex S y < B.num_vertices (B.build (edges S))) (hmem : y ∈ S.flatten)
    (hsame : SameComponent (edges S) (vertex S root) (vertex S y)) : Beside S root y := by
  have hlt : vertex S y < S.flatten.eraseDups.length :=
    lt_of_le_of_lt (Nat.mod_le _ _) (number_lt hmem)
  obtain ⟨hz, hnum⟩ := number_iff.mp (List.getElem?_eq_getElem hlt)
  refine ⟨_, (hlist _).mp ((mem_listed hB hv).mpr ⟨hz, ?_, ?_⟩), hnum.symm⟩
  · rwa [hnum]
  · rwa [hnum]

theorem listed_iff (hB : B.Lawful) (hroot : root ∈ S.flatten) :
    (vertex S root < B.num_vertices (B.build (edges S)) ∧
      ∀ y, y ∈ listed B S root ↔ Linked S root y) ↔ Fits S root := by
  constructor
  · rintro ⟨hv, hlist⟩
    have hown : ∀ y, Linked S root y → number S.flatten y < B.num_vertices (B.build (edges S)) :=
      fun y hy => ((mem_listed hB hv).mp ((hlist y).mpr hy)).2.1
    have hsmall : ∀ y, Linked S root y → number S.flatten y < 2 ^ 32 := fun y hy =>
      vertex_lt hB (hown y hy)
    refine ⟨(lt_vertices hB S _).mp (hown root Relation.ReflTransGen.refl), hsmall, ?_⟩
    rintro as has x hx y hy ⟨z, hz, hxz⟩
    by_cases hne : x = y
    · exact ⟨z, hz, hne ▸ hxz⟩
    · -- the neighbours of `x` have its label, which is that of `z` and of the root
      have hzx : vertex S z = vertex S x := by
        rw [hxz]
        exact Nat.mod_eq_of_lt (hsmall z hz)
      have hsame : SameComponent (edges S) (vertex S root) (vertex S x) := hzx ▸ joined_of_linked hz
      exact listed_of_vertex hB hv hlist
        ((lt_vertices hB S _).mpr ⟨as, has, two_le_length hx hy hne, y, hy, le_refl _⟩)
        (List.mem_flatten.mpr ⟨as, has, hy⟩) (hsame.trans (joined_of_mem has hx hy))
  · intro h
    have hown : ∀ y, Linked S root y → vertex S y = number S.flatten y := fun y hy =>
      Nat.mod_eq_of_lt (h.small y hy)
    have hv : vertex S root < B.num_vertices (B.build (edges S)) := by
      rw [hown root Relation.ReflTransGen.refl]
      exact (lt_vertices hB S _).mpr h.reached
    refine ⟨hv, ?_⟩
    intro y
    rw [mem_listed hB hv]
    constructor
    · rintro ⟨hy, -, hsame⟩
      obtain ⟨z, hz, hyz⟩ := h.joined hsame
      rwa [number_inj hy hyz (mem_of_linked hroot hz)]
    · intro hy
      rw [← hown y hy]
      exact ⟨mem_of_linked hroot hy, vertex_of_linked hB hv hy, joined_of_linked hy⟩

/-- After every run, for every root that was spent from: its component is looked up inside
the vector and exactly the addresses are listed that co-spending leads to, each once,
if and only if its number fits. -/
theorem cluster_iff (B : Boost) (hB : B.Lawful) (solve : List UInt8 → Solved) (env : Env)
    (data : BlockRef → Memory) (fuel : Nat) (h : Heights.State) (x x' : Blockparser.Parser.State)
    (hcalls : x.calls = [])
    (hrun : LongestChain.parseLongestChain env data fuel h x = .ok true x') (root : Hash160)
    (hroot : root ∈ (spends solve x'.calls).flatten) :
    let s := x'.calls.foldl (onCall solve) (init B)
    let S := spends solve x'.calls
    (∃ addrs, s.wrapupKey root = some (.cluster addrs) ∧ addrs.Nodup ∧
      ∀ y, y ∈ addrs ↔ Linked S root y) ↔ Fits S root := by
  intro s S
  have hs : Tracked S s := run_tracked hcalls hrun B
  rw [← listed_iff hB hroot, wrapupKey_eq hB hs hroot]
  constructor
  · rintro ⟨addrs, hkey, -, hlist⟩
    split at hkey
    · rename_i hv
      cases hkey
      exact ⟨hv, hlist⟩
    · cases hkey
  · rintro ⟨hv, hlist⟩
    exact ⟨_, if_pos hv, nodup_listed B S root, hlist⟩

/-- The number of vertices of a list of edges. -/
def verticesOf (es : List (Nat × Nat)) : Nat := (es.map fun e => max e.1 e.2 + 1).foldl max 0

theorem verticesOf_snoc (es : List (Nat × Nat)) (e : Nat × Nat) :
    verticesOf (es ++ [e]) = max (verticesOf es) (max e.1 e.2 + 1) := by
  rw [verticesOf, List.map_append, List.foldl_append]
  rfl

/-- A graph as its list of edges, with classes for components. -/
def edgeList : Boost where
  Graph := List (Nat × Nat)
  empty := []
  add_edge a b es := es ++ [(a, b)]
  num_vertices := verticesOf
  connected_components es := (List.range (verticesOf es)).map (classes es)

theorem edgeList_build (es : List (Nat × Nat)) : edgeList.build es = es := by
  induction es using List.reverseRecOn with
  | nil => rfl
  | append_singleton es e ih =>
    rw [Boost.build_snoc, ih]
    rfl

theorem edgeList_lawful : edgeList.Lawful where
  num_empty := rfl
  num_add a b es := verticesOf_snoc es (a, b)
  labels_length := by
    intro es
    simp [edgeList]
  labels := by
    intro es u v hu hv
    rw [edgeList_build] at hu hv ⊢
    have hget : ∀ k, k < verticesOf es →
        (edgeList.connected_components es)[k]? = some (classes es k) := by
      intro k hk
      simp [edgeList, hk]
    rw [hget u hu, hget v hv, Option.some_inj, classes_iff]

def addressOf (n : UInt8) : Hash160 := ⟨List.replicate 20 n, by simp⟩

/-- The script that pays to an address. -/
def payTo (h : Hash160) : List UInt8 := [0x76, 0xA9, 0x14] ++ h.1 ++ [0x88, 0xAC]

def solveAlone (script : List UInt8) : Solved :=
  solveOutputScript ⟨prefixHash, fun _ => hashZero⟩ (surrounded script 0) script.length 0

def payTwoTx : Tx := { mintTx with
  outputs := [⟨50, payTo (addressOf 1), by decide⟩, ⟨50, payTo (addressOf 2), by decide⟩]
  outputs_lt := by decide }

def spendTwo : List TxInput := [⟨txid prefixEnv payTwoTx, 0, [], 0, length_nil_lt⟩,
  ⟨txid prefixEnv payTwoTx, 1, [], 0, length_nil_lt⟩]

/-- Spends the first `n` outputs of `payTwoTx`. -/
def spendFirstTx (n : Nat) : Tx := { mintTx with
  inputs := spendTwo.take n
  inputs_lt := lt_of_le_of_lt (List.length_take_le' n _) (by decide) }

def runOf (n : Nat) : EStateM.Result Fault Blockparser.Parser.State Bool :=
  LongestChain.parseLongestChain prefixEnv
    (fun _ => blockMemory .bitcoin [payTwoTx, spendFirstTx n]) 1 (chainOf 1) .start

theorem exists_run (n : Nat) (S : List (List Hash160))
    (h : (ended (runOf n)).map (fun x => spends solveAlone x.calls) = some S) :
    ∃ x', runOf n = .ok true x' ∧ spends solveAlone x'.calls = S := by
  obtain ⟨x', hx, hS⟩ := Option.map_eq_some_iff.mp h
  exact ⟨x', ended_eq hx, hS⟩

/-- Two addresses that one transaction spends from are listed for each other. -/
theorem cluster_iff_two : ∃ x', runOf 2 = .ok true x' ∧ ∃ addrs,
    (x'.calls.foldl (onCall solveAlone) (init edgeList)).wrapupKey (addressOf 2) =
      some (.cluster addrs) ∧ addressOf 1 ∈ addrs := by
  obtain ⟨x', hrun, hS⟩ := exists_run 2 [[], [addressOf 1, addressOf 2]] (by decide +kernel)
  have hroot : addressOf 2 ∈ (spends solveAlone x'.calls).flatten := by
    rw [hS]
    decide
  have hspec := cluster_iff edgeList edgeList_lawful solveAlone prefixEnv _ 1 (chainOf 1) .start x' rfl
    hrun (addressOf 2) hroot
  dsimp only at hspec
  have hfits : Fits (spends solveAlone x'.calls) (addressOf 2) := by
    rw [fits_of_few hroot (by rw [hS]; decide), hS]
    exact ⟨[addressOf 1, addressOf 2], by decide, by decide, addressOf 2, by decide, le_refl _⟩
  obtain ⟨addrs, hkey, -, hlist⟩ := hspec.mpr hfits
  refine ⟨x', hrun, addrs, hkey, (hlist _).mpr (Relation.ReflTransGen.single ?_)⟩
  rw [hS]
  exact ⟨[addressOf 1, addressOf 2], by decide, by decide, by decide⟩

/-- An address that is spent from alone has no vertex: its component is looked up behind
the end of the vector. -/
theorem cluster_alone : ∃ x', runOf 1 = .ok true x' ∧
    addressOf 1 ∈ (spends solveAlone x'.calls).flatten ∧
    (x'.calls.foldl (onCall solveAlone) (init edgeList)).wrapupKey (addressOf 1) = none := by
  obtain ⟨x', hrun, hS⟩ := exists_run 1 [[], [addressOf 1]] (by decide +kernel)
  have hroot : addressOf 1 ∈ (spends solveAlone x'.calls).flatten := by
    rw [hS]
    decide
  refine ⟨x', hrun, hroot, ?_⟩
  rw [wrapupKey_eq edgeList_lawful (run_tracked rfl hrun edgeList) hroot, hS]
  decide +kernel

end Blockparser.Closure
