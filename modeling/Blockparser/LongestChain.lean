import Blockparser.Depths
import Blockparser.Protocol

/-! Pass 3 wires the longest chain forward, and pass 4 parses the blocks along it. -/
namespace Blockparser.LongestChain
open Bytes Trace MemoryManager Blockparser.Parser BlockIndex Heights Forest

/-- The loop of wireLongestChain. -/
def wireLoop : Nat → Heights.State → BlockRef → Except Heights.Fault Heights.State
  | 0, _, _ => .error .outOfFuel
  | fuel + 1, s, block =>
    match (s.blocks block).prev with
    | none => .ok s
    | some prev => wireLoop fuel (s.setNext prev (some block)) prev

def wireLongestChain (fuel : Nat) (s : Heights.State) : Except Heights.Fault Heights.State :=
  match s.gMaxBlock with
  | none => .error .undefined
  | some block => wireLoop fuel s block

/-- The loop of parseLongestChain, for at most so many turns; whether it ended. `data`
is what `getData` gives for each block. -/
def parseChain (env : Env) (data : BlockRef → Memory) (s : Heights.State) :
    Nat → Option BlockRef → M Bool
  | _, none => pure true
  | 0, some _ => pure false
  | fuel + 1, some blk => do
    let r ← parseBlock env blk (data blk)
    if r then pure true else parseChain env data s fuel (s.blocks blk).next

def parseLongestChain (env : Env) (data : BlockRef → Memory) (fuel : Nat) (s : Heights.State) :
    M Bool := do
  emit .startLC
  let blk := (s.blocks gNullBlock).next
  emit (.start blk s.gMaxBlock)
  let ended ← parseChain env data s fuel blk
  onlyIf ended (emit .wrapup)
  pure ended

/-- The blocks that following `next` visits, when it ends within so many steps. -/
def followNext (s : Heights.State) : Nat → Option BlockRef → Option (List BlockRef)
  | _, none => some []
  | 0, some _ => none
  | n + 1, some b => (followNext s n (s.blocks b).next).map (b :: ·)

/-- parseBlock on each block of a list. -/
def parseBlocks (env : Env) (data : BlockRef → Memory) : List BlockRef → M Unit
  | [] => pure ()
  | b :: bs => do
    let _ ← parseBlock env b (data b)
    parseBlocks env data bs

/-- `next` runs from `b` along `path` and ends there. -/
def Wired (s : Heights.State) : BlockRef → List BlockRef → Prop
  | b, [] => (s.blocks b).next = none
  | b, c :: cs => (s.blocks b).next = some c ∧ Wired s c cs

variable {coin : Coin} {files : List (List UInt8)} {s₀ s : Heights.State} {order : List BlockRef}
  {b m : BlockRef} {path : List BlockRef} {fuel : Nat}

theorem Wired.congr {t : Heights.State} (h : Wired s b path)
    (hnext : ∀ c ∈ b :: path, (t.blocks c).next = (s.blocks c).next) : Wired t b path := by
  induction path generalizing b with
  | nil => exact (hnext b (by simp)).trans h
  | cons c cs ih =>
    obtain ⟨h1, h2⟩ := h
    exact ⟨(hnext b (by simp)).trans h1, ih h2 fun d hd => hnext d (List.mem_cons_of_mem b hd)⟩

theorem Wired.followNext (h : Wired s b path) (hfuel : path.length ≤ fuel) :
    followNext s fuel (s.blocks b).next = some path := by
  induction path generalizing b fuel with
  | nil =>
    have hn : (s.blocks b).next = none := h
    simp [hn, LongestChain.followNext]
  | cons c cs ih =>
    obtain ⟨k, rfl⟩ : ∃ k, fuel = k + 1 := ⟨fuel - 1, by simp at hfuel; omega⟩
    rw [h.1, LongestChain.followNext, ih h.2 (by simpa using hfuel)]
    rfl

/-- From a block whose way down is wired, the loop wires the way down from the null
block. -/
theorem wireLoop_spec (hb : Built coin files s₀ order) (hi : Inv coin files s₀ order s)
    (h0 : 0 ≤ (s.blocks b).height) (hwired : Wired s b path)
    (hdesc : Descends (parent coin files s₀.toIndex) b path)
    (hmem : ∀ c ∈ b :: path, c ∈ order) (hlast : [m] <:+ b :: path)
    (hfuel : order.length < fuel + path.length) :
    ∃ u chain, wireLoop fuel s b = .ok u ∧ Inv coin files s₀ order u ∧
      (∀ c, (u.blocks c).height = (s.blocks c).height) ∧ u.gMaxBlock = s.gMaxBlock ∧
      u.gMaxHeight = s.gMaxHeight ∧ Wired u gNullBlock chain ∧
      Descends (parent coin files s₀.toIndex) gNullBlock chain ∧
      (∀ c ∈ gNullBlock :: chain, c ∈ order) ∧ [m] <:+ gNullBlock :: chain := by
  induction fuel generalizing s b path with
  | zero =>
    have hle := (List.subperm_of_subset (hdesc.nodup hb.acyclic) hmem).length_le
    rw [List.length_cons] at hle
    omega
  | succ fuel ih =>
    rw [wireLoop]
    by_cases hn : b = gNullBlock
    · subst hn
      have hprev : (s.blocks gNullBlock).prev = none := by
        cases hi.prev _ hb.null_mem with
        | inl h => exact h
        | inr h => exact h.trans (by simp [parent])
      rw [hprev]
      exact ⟨s, path, rfl, hi, fun _ => rfl, rfl, rfl, hwired, hdesc, hmem, hlast⟩
    · have hm := hmem b (by simp)
      obtain ⟨p, hprev, hp0⟩ := hi.linked b hm hn h0
      have hp : parent coin files s₀.toIndex b = some p := by
        cases hi.prev b hm with
        | inl h => cases hprev.symm.trans h
        | inr h => rw [← h, hprev]
      have hdesc' : Descends (parent coin files s₀.toIndex) p (b :: path) := ⟨hp, hdesc⟩
      have hnd := hdesc'.nodup hb.acyclic
      have hwired' : Wired (s.setNext p (some b)) p (b :: path) := by
        refine ⟨by simp, hwired.congr ?_⟩
        intro c hc
        have hcp : c ≠ p := fun hcp => (List.nodup_cons.mp hnd).1 (hcp ▸ hc)
        simp [hcp]
      have hmem' : ∀ c ∈ p :: b :: path, c ∈ order := by
        intro c hc
        cases hc with
        | head => exact parent_mem hb hp
        | tail _ hc => exact hmem c hc
      obtain ⟨u, chain, hrun, hinv, hsame, hres⟩ := ih (hi.setNext p (some b)) (by simpa using hp0)
        hwired' hdesc' hmem' (hlast.trans (List.suffix_cons p _)) (by simp; omega)
      rw [hprev]
      exact ⟨u, chain, hrun, hinv, fun c => by rw [hsame, setNext_height], hres⟩

section
variable {env : Env}

theorem cutAt_not_done {done : Nat → Bool} (hd : ∀ k, done k = false) (c n : Nat) :
    (Protocol.cutAt done c n).2 = false := by
  induction n generalizing c with
  | zero => rfl
  | succ n ih => simp [Protocol.cutAt, hd, ih]

/-- As long as the callback is not done, parseBlock asks for the next block. -/
theorem parseBlock_not_done (hd : ∀ k, env.done k = false) {blk : BlockRef} {d : Memory} {r : Bool}
    {x y : Parser.State} (h : parseBlock env blk d x = .ok r y) : r = false := by
  have hw := @Protocol.parseBlock_words env _ d blk x rfl
  rw [h] at hw
  rw [hw.1, cutAt_not_done hd, hd]
  rfl

theorem parseChain_all (hd : ∀ k, env.done k = false) (data : BlockRef → Memory)
    (h : Wired s b path) (hfuel : path.length ≤ fuel) :
    parseChain env data s fuel (s.blocks b).next = (do parseBlocks env data path; pure true) := by
  induction path generalizing b fuel with
  | nil =>
    have hn : (s.blocks b).next = none := h
    rw [hn]
    cases fuel <;> rfl
  | cons c cs ih =>
    obtain ⟨k, rfl⟩ : ∃ k, fuel = k + 1 := ⟨fuel - 1, by simp at hfuel; omega⟩
    rw [h.1, parseChain, ih h.2 (by simpa using hfuel)]
    funext x
    rw [parseBlocks, run_bind, run_bind, run_bind]
    cases hr : parseBlock env c (data c) x with
    | error e y => rfl
    | ok r y =>
      rw [parseBlock_not_done hd hr]
      rfl

theorem parseLongestChain_all (hd : ∀ k, env.done k = false) (data : BlockRef → Memory)
    (h : Wired s gNullBlock path) (hfuel : path.length ≤ fuel) :
    parseLongestChain env data fuel s = (do
      emit .startLC
      emit (.start (s.blocks gNullBlock).next s.gMaxBlock)
      parseBlocks env data path
      emit .wrapup
      pure true) := by
  unfold parseLongestChain
  dsimp only
  rw [parseChain_all hd data h hfuel]
  simp only [bind_assoc, pure_bind]
  rfl

end

/-- What passes 3 and 4 make of the longest chain. `chain` is what following `next` from
the null block visits. -/
structure Follows (coin : Coin) (files : List (List UInt8)) (s₀ : Heights.State)
    (u : Heights.State) (m : BlockRef) (chain : List BlockRef) : Prop where
  maxBlock : u.gMaxBlock = some m
  nodup : chain.Nodup
  mem_iff : ∀ b, b ∈ chain ↔
    b ≠ gNullBlock ∧ (b = m ∨ Above (parent coin files s₀.toIndex) m b)
  last : chain.getLast? = some m
  height : ∀ i b, chain[i]? = some b → (u.blocks b).height = (i + 1 : Nat)
  length : (chain.length : Int) = u.gMaxHeight

/-- The blocks that are parsed are those of the longest chain, in the order of their
heights. -/
theorem longestChain_parsed (coin : Coin) (files : List (List UInt8)) (s₀ : Heights.State)
    (order : List BlockRef) (fuel : Nat) (hb : Built coin files s₀ order)
    (hfuel : order.length < fuel)
    (hc : ∃ b ∈ order, b ≠ gNullBlock ∧
      Connected (parent coin files s₀.toIndex) gNullBlock b) :
    ∃ t u m chain, computeBlockHeights coin files fuel order s₀ = .ok t ∧
      wireLongestChain fuel t = .ok u ∧
      followNext u fuel (u.blocks gNullBlock).next = some chain ∧
      Follows coin files s₀ u m chain ∧
      ∀ env data, (∀ k, env.done k = false) → parseLongestChain env data fuel u = (do
        emit .startLC
        emit (.start (u.blocks gNullBlock).next (some m))
        parseBlocks env data chain
        emit .wrapup
        pure true) := by
  obtain ⟨t, hrun, ht⟩ := hb.done hfuel
  obtain ⟨b, hbm, hbn, hbc⟩ := hc
  obtain ⟨m, hm, k, hmax, hheight, hk, hpos, hdk⟩ := ht.maxBlock hbm hbn hbc
  have hm0 : 0 ≤ (t.blocks m).height := by omega
  have hmn : m ≠ gNullBlock := by
    intro he
    subst he
    rw [ht.null] at hheight
    omega
  obtain ⟨u, chain, hwire, -, hsame, hub, huh, hwired, hdesc, hmem, hlast⟩ :=
    wireLoop_spec hb ht.toInv hm0 (show Wired t m [] from ht.clean m hm hm0) trivial
      (by simpa using hm) (List.suffix_refl [m]) (show order.length < fuel + 0 by simpa using hfuel)
  have hnd := hdesc.nodup hb.acyclic
  have hne : ∀ c ∈ chain, c ≠ gNullBlock := fun c hc hcn => (List.nodup_cons.mp hnd).1 (hcn ▸ hc)
  have hlen : chain.length < order.length := by
    have hle := (List.subperm_of_subset hnd hmem).length_le
    rwa [List.length_cons] at hle
  have hchain : [m] <:+ chain := by
    cases List.suffix_cons_iff.mp hlast with
    | inl h =>
      simp at h
      exact absurd h.1 hmn
    | inr h => exact h
  have hheights : ∀ i c, chain[i]? = some c → (u.blocks c).height = (i + 1 : Nat) := by
    intro i c hc
    have hcm := hmem c (List.mem_cons_of_mem _ (List.mem_of_getElem? hc))
    rw [hsame, ht.height_eq hcm (hdesc.depth hne Depth.root i hc)]
    omega
  have hgetLast : chain.getLast? = some m := by
    obtain ⟨l, hl⟩ := hchain
    rw [← hl]
    simp
  refine ⟨t, u, m, chain, hrun, ?_, hwired.followNext (by omega), ⟨?_, (List.nodup_cons.mp hnd).2,
    ?_, hgetLast, hheights, ?_⟩, ?_⟩
  · rw [wireLongestChain, hmax]
    exact hwire
  · rw [hub, hmax]
  · intro c
    constructor
    · intro hc
      exact ⟨hne c hc, hdesc.above_last hlast c (List.mem_cons_of_mem _ hc)⟩
    · rintro ⟨hcn, rfl | hca⟩
      · exact hchain.subset (by simp)
      · cases hdesc.mem_of_above hlast hca with
        | inl h => exact (List.mem_cons.mp h).resolve_left hcn
        | inr h => exact absurd h (not_above_of_none (by simp [parent]))
  · have hpos' : chain ≠ [] := by
      intro he
      subst he
      simp at hgetLast
    have hidx : chain[chain.length - 1]? = some m := by
      rw [← List.getLast?_eq_getElem?, hgetLast]
    have hlen' := List.length_pos_of_ne_nil hpos'
    have hmh := hheights _ m hidx
    rw [hsame, hheight] at hmh
    rw [huh, hmh]
    omega
  · intro env data hd
    rw [parseLongestChain_all hd data hwired (by omega), hub, hmax]

theorem smallTable_connected :
    Connected (parent .bitcoin [smallFile] smallTable.toIndex) gNullBlock 1 :=
  (connected_step (by decide) (smallTable_parent 1)).mpr connected_root

theorem longestChain_parsed_smallTable :
    ∃ t u m chain, computeBlockHeights .bitcoin [smallFile] 5 [2, 3, 1, 0] smallTable = .ok t ∧
      wireLongestChain 5 t = .ok u ∧ Follows .bitcoin [smallFile] smallTable u m chain := by
  obtain ⟨t, u, m, chain, hrun, hwire, -, hfollows, -⟩ := longestChain_parsed .bitcoin [smallFile]
    smallTable [2, 3, 1, 0] 5 smallTable_built (by decide)
    ⟨1, by decide, by decide, smallTable_connected⟩
  exact ⟨t, u, m, chain, hrun, hwire, hfollows⟩

end Blockparser.LongestChain
