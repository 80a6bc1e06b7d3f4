import Blockparser.Balances

/-! The allBalances command with a journal beside it: every output that is received or
spent, and the record it is counted in. -/
namespace Blockparser.Records
open Script AllBalances Balances
open MemoryManager (Hash160)
open Blockparser.Parser (Call HashArg)

/-- A move, with the type of the address and whether the output is received or spent. -/
structure Posting extends Move where
  addrType : UInt8
  received : Bool
deriving DecidableEq

def posted (cfg : Config) (time : BitVec 32) (script : List UInt8) (received : Bool)
    (value : Int) : Option Posting :=
  (paid cfg time script value).map fun m =>
    ⟨m, (cfg.solveOutputScript script).addrType, received⟩

def postingOf (cfg : Config) (time : BitVec 32) : Call → Option Posting
  | .endOutput _ value _ _ outputScript _ => posted cfg time outputScript true (toInt64 value)
  | .edge value _ _ outputScript _ _ _ _ _ => posted cfg time outputScript false (-toInt64 value)
  | _ => none

def postingsOf (cfg : Config) : BitVec 32 → List Call → List Posting
  | _, [] => []
  | time, c :: calls =>
    (postingOf cfg time c).toList ++ postingsOf cfg (timeAfter cfg time c) calls

structure Entry where
  posting : Posting
  record : Nat
deriving DecidableEq

/-- The records are numbered as they are made, `number` is that of the record in a cell. -/
structure Journal where
  state : State
  made : Nat
  number : AddrRef → Nat
  entries : List Entry

def Journal.start : Journal := ⟨AllBalances.start, 0, fun _ => 0, []⟩

/-- The record of `h`, which is the next one where there is none. -/
def Journal.recordOf (j : Journal) (h : Hash160) : Nat :=
  ((j.state.addrMap (h, 0)).map j.number).getD j.made

/-- A posting goes to the record getAddr finds or makes. -/
def Journal.post (cfg : Config) (j : Journal) (s : State) (p : Posting) : Journal where
  state := s
  -- stays where the record is in use: its number is below `made`
  made := max j.made (j.recordOf p.hash + 1)
  number :=
    Function.update j.number (getAddr cfg j.state p.hash p.addrType).1 (j.recordOf p.hash)
  entries := j.entries ++ [⟨p, j.recordOf p.hash⟩]

def Journal.step (cfg : Config) (j : Journal) (c : Call) : Journal :=
  match postingOf cfg j.state.blockTime c with
  | some p => j.post cfg (onCall cfg j.state c) p
  | none => { j with state := onCall cfg j.state c }

def journal (cfg : Config) (calls : List Call) : Journal := calls.foldl (Journal.step cfg) .start

/-- The postings of the record in a cell, since it was made. -/
def Journal.countedIn (j : Journal) (addr : AddrRef) : List Posting :=
  (j.entries.filter (·.record = j.number addr)).map Entry.posting

/-- The postings of the record of `h`, if there is one. -/
def Journal.history (j : Journal) (h : Hash160) : List Posting :=
  ((j.state.addrMap (h, 0)).map j.countedIn).getD []

variable {cfg : Config} {s s' : State} {j : Journal} {p : Posting} {c : Call} {h : Hash160}
  {ps : List Posting} {time : BitVec 32} {script : List UInt8} {received : Bool} {v : Int}
  {addr : AddrRef}

theorem mem_countedIn : p ∈ j.countedIn addr ↔
    ∃ e ∈ j.entries, e.record = j.number addr ∧ e.posting = p := by
  simp [Journal.countedIn, and_assoc]

theorem posted_toMove : (posted cfg time script received v).map Posting.toMove =
    paid cfg time script v := by
  unfold posted
  cases paid cfg time script v <;> rfl

theorem postingOf_toMove (cfg : Config) (time : BitVec 32) (c : Call) :
    (postingOf cfg time c).map Posting.toMove = moveOf cfg time c := by
  cases c with
  | endOutput => exact posted_toMove
  | edge => exact posted_toMove
  | _ => rfl

theorem posted_eq_some (hp : posted cfg time script received v = some p) :
    ¬(cfg.solveOutputScript script).scriptType < 0 ∧
      ¬(cfg.restricts ≠ [] ∧ (cfg.solveOutputScript script).pubKeyHash ∉ cfg.restricts) ∧
      p = ⟨⟨(cfg.solveOutputScript script).pubKeyHash, v, time⟩,
        (cfg.solveOutputScript script).addrType, received⟩ := by
  rw [posted, paid_eq] at hp
  dsimp only at hp
  split at hp
  · cases hp
  · next hneg =>
    split at hp
    · cases hp
    · next hallow =>
      cases hp
      exact ⟨hneg, hallow, rfl⟩

theorem posted_eq_none (hp : posted cfg time script received v = none) :
    (cfg.solveOutputScript script).scriptType < 0 ∨
      cfg.restricts ≠ [] ∧ (cfg.solveOutputScript script).pubKeyHash ∉ cfg.restricts := by
  rw [posted, paid_eq] at hp
  dsimp only at hp
  split at hp
  · next hneg => exact Or.inl hneg
  · split at hp
    · next hallow => exact Or.inr hallow
    · cases hp

/-- What a posting does to the table and to the types of the records. -/
structure Counts (cfg : Config) (s s' : State) (p : Posting) : Prop where
  self : s'.addrMap (p.hash, 0) = none ∨
    s'.addrMap (p.hash, 0) = some (getAddr cfg s p.hash p.addrType).1
  other : ∀ k, k ≠ (p.hash, 0) → s'.addrMap k = s.addrMap k
  type : (s'.pool.cells (getAddr cfg s p.hash p.addrType).1).type =
    ((s.record p.hash).map Addr.type).getD p.addrType
  types : ∀ r, r ≠ (getAddr cfg s p.hash p.addrType).1 →
    (s'.pool.cells r).type = (s.pool.cells r).type

theorem getAddr_of_some {addrType : UInt8} (hk : s.addrMap (h, 0) = some addr) :
    getAddr cfg s h addrType = (addr, s) := by
  rw [getAddr, hk]

theorem getAddr_fst_of_none {addrType : UInt8} (hk : s.addrMap (h, 0) = none) :
    (getAddr cfg s h addrType).1 = s.pool.alloc.1 := by
  rw [getAddr, hk]

@[simp] theorem add_type (a : Addr) (t : BitVec 32) (v : Int) : (a.add t v).type = a.type := by
  unfold Addr.add
  split <;> rfl

/-- getAddr by itself: the record has the hash, its type is kept or set. -/
theorem getAddr_counts (ho : Owned s) (p : Posting) :
    ((getAddr cfg s p.hash p.addrType).2.pool.cells
        (getAddr cfg s p.hash p.addrType).1).hash = (p.hash, 0) ∧
      Counts cfg s (getAddr cfg s p.hash p.addrType).2 p := by
  cases hk : s.addrMap (p.hash, 0) with
  | some addr =>
    have hg := @getAddr_of_some cfg s p.hash addr p.addrType hk
    have hrec : s.record p.hash = some (s.pool.cells addr) := record_eq_some.mpr ⟨addr, hk, rfl⟩
    refine ⟨?_, ?_, ?_, ?_, ?_⟩
    · rw [hg]
      exact ho.hash _ _ hk
    · rw [hg]
      exact Or.inr hk
    · intro k _
      rw [hg]
    · rw [hg, hrec]
      rfl
    · intro r _
      rw [hg]
  | none =>
    have htail : (s.pool.alloc.2.cells s.pool.alloc.1).hash.2 = 0 := by
      rw [Pool.alloc_cells]
      exact ho.tail _
    have hrec : s.record p.hash = none := record_eq_none.mpr hk
    have hmap : (getAddr cfg s p.hash p.addrType).2.addrMap =
        Function.update s.addrMap (p.hash, 0) (some s.pool.alloc.1) := by
      rw [getAddr, hk]
      dsimp only
      rw [htail]
    refine ⟨?_, ?_, ?_, ?_, ?_⟩
    · rw [getAddr_fst_of_none hk, getAddr, hk]
      simp [Pool.write, htail]
    · rw [hmap, getAddr_fst_of_none hk]
      exact Or.inr (Function.update_self ..)
    · intro k hne
      rw [hmap]
      exact Function.update_of_ne hne ..
    · rw [getAddr_fst_of_none hk, hrec, getAddr, hk]
      simp [Pool.write]
    · intro r hr
      rw [getAddr_fst_of_none hk] at hr
      rw [getAddr, hk]
      simp [Pool.write, hr, Pool.alloc_cells]

theorem Counts.write (hc : Counts cfg s s' p) {a : Addr}
    (ha : a.type = (s'.pool.cells (getAddr cfg s p.hash p.addrType).1).type) :
    Counts cfg s (s'.writeRecord (getAddr cfg s p.hash p.addrType).1 a) p where
  self := hc.self
  other := hc.other
  type := by simp [State.writeRecord, Pool.write, ha, hc.type]
  types r hr := by
    rw [← hc.types r hr]
    simp [State.writeRecord, Pool.write, hr]

theorem Counts.erase (hc : Counts cfg s s' p) :
    Counts cfg s (s'.eraseRecord p.hash (getAddr cfg s p.hash p.addrType).1) p where
  self := Or.inl (Function.update_self ..)
  other k hk := by
    rw [← hc.other k hk]
    exact Function.update_of_ne hk ..
  type := hc.type
  types := hc.types

theorem move_counts (ho : Owned s) (hp : posted cfg s.blockTime script received v = some p)
    (up down : HashArg) (outputIndex : Nat) (inputIndex : BitVec 64) :
    Counts cfg s (move cfg s script up outputIndex v down inputIndex) p := by
  obtain ⟨hneg, hallow, heq⟩ := posted_eq_some hp
  obtain ⟨hhash, hc⟩ := @getAddr_counts cfg s ho p
  have hkey : (cfg.solveOutputScript script).pubKeyHash = p.hash := by rw [heq]
  have htype : (cfg.solveOutputScript script).addrType = p.addrType := by rw [heq]
  unfold move
  dsimp only
  rw [if_neg hneg, if_neg hallow, hkey, htype]
  cases hd : cfg.detailed with
  | true => exact hc.write (add_type ..)
  | false =>
    have hw := hc.write (add_type ((getAddr cfg s p.hash p.addrType).2.pool.cells
      (getAddr cfg s p.hash p.addrType).1) (getAddr cfg s p.hash p.addrType).2.blockTime v)
    rw [if_neg (by decide), Addr.add_hash, hhash]
    split
    · exact hw.erase
    · exact hw

theorem move_idle (hp : posted cfg s.blockTime script received v = none)
    (up down : HashArg) (outputIndex : Nat) (inputIndex : BitVec 64) :
    move cfg s script up outputIndex v down inputIndex = s := by
  unfold move
  dsimp only
  cases posted_eq_none hp with
  | inl hneg => rw [if_pos hneg]
  | inr hallow =>
    rw [if_pos hallow]
    exact ite_self s

theorem onCall_counts (ho : Owned s) (hp : postingOf cfg s.blockTime c = some p) :
    Counts cfg s (onCall cfg s c) p := by
  cases c with
  | endOutput => exact move_counts ho hp ..
  | edge => exact move_counts ho hp ..
  | _ => cases hp

theorem onCall_idle (hp : postingOf cfg s.blockTime c = none) :
    (onCall cfg s c).addrMap = s.addrMap ∧ (onCall cfg s c).pool = s.pool := by
  cases c with
  | endOutput =>
    rw [onCall, move_idle hp]
    exact ⟨rfl, rfl⟩
  | edge =>
    rw [onCall, move_idle hp]
    exact ⟨rfl, rfl⟩
  | _ => exact ⟨rfl, rfl⟩

theorem recordOf_of_some (hk : j.state.addrMap (h, 0) = some addr) :
    j.recordOf h = j.number addr := by
  rw [Journal.recordOf, hk]
  rfl

theorem recordOf_of_none (hk : j.state.addrMap (h, 0) = none) : j.recordOf h = j.made := by
  rw [Journal.recordOf, hk]
  rfl

theorem history_of_some (hk : j.state.addrMap (h, 0) = some addr) :
    j.history h = j.countedIn addr := by
  rw [Journal.history, hk]
  rfl

theorem history_of_none (hk : j.state.addrMap (h, 0) = none) : j.history h = [] := by
  rw [Journal.history, hk]
  rfl

/-- getAddr never takes the record of another address. -/
theorem getAddr_ne (ho : Owned s) {k : TypedHash160} (hk : s.addrMap k = some addr)
    (hne : k ≠ (p.hash, 0)) : addr ≠ (getAddr cfg s p.hash p.addrType).1 := by
  intro he
  cases hp : s.addrMap (p.hash, 0) with
  | some addr' =>
    rw [getAddr_of_some hp] at he
    subst he
    exact hne (ho.inj hk hp)
  | none =>
    rw [getAddr_fst_of_none hp] at he
    exact ho.alloc_notMem ⟨k, he ▸ hk⟩

/-- The types of the records after a posting. -/
theorem Counts.record_type (hc : Counts cfg s s' p) (ho : Owned s) (h : Hash160) :
    (s'.record h).map Addr.type =
      if h = p.hash then if s'.record h = none then none
        else some (((s.record h).map Addr.type).getD p.addrType)
      else (s.record h).map Addr.type := by
  by_cases hh : h = p.hash
  · subst hh
    rw [if_pos rfl]
    cases hc.self with
    | inl hnone => simp [State.record, hnone]
    | inr hsome => simp [State.record, hsome, hc.type]
  · have hne := key_ne hh
    rw [if_neg hh, State.record, State.record, hc.other _ hne, Option.map_map, Option.map_map]
    apply Option.map_congr
    intro r hr
    exact hc.types r (getAddr_ne ho hr hne)

/-- The records are numbered one by one. -/
structure Numbered (j : Journal) : Prop where
  entry : ∀ e ∈ j.entries, e.record < j.made
  lt : ∀ k addr, j.state.addrMap k = some addr → j.number addr < j.made
  inj : ∀ k k' addr addr', j.state.addrMap k = some addr → j.state.addrMap k' = some addr' →
    j.number addr = j.number addr' → k = k'

theorem start_numbered : Numbered .start where
  entry e he := by cases he
  lt k addr hk := by cases hk
  inj k k' addr addr' hk := by cases hk

/-- The number of a record in the table after a posting. -/
theorem post_number (ho : Owned j.state) (hc : Counts cfg j.state s p) {k : TypedHash160}
    (hk : s.addrMap k = some addr) :
    (k = (p.hash, 0) ∧ addr = (getAddr cfg j.state p.hash p.addrType).1 ∧
        (j.post cfg s p).number addr = j.recordOf p.hash) ∨
      (k ≠ (p.hash, 0) ∧ j.state.addrMap k = some addr ∧
        (j.post cfg s p).number addr = j.number addr) := by
  by_cases hkp : k = (p.hash, 0)
  · subst hkp
    have haddr : addr = (getAddr cfg j.state p.hash p.addrType).1 := by
      cases hc.self with
      | inl hnone => cases hnone.symm.trans hk
      | inr hsome => exact Option.some_inj.mp (hk.symm.trans hsome)
    refine Or.inl ⟨rfl, haddr, ?_⟩
    rw [haddr]
    exact Function.update_self ..
  · rw [hc.other k hkp] at hk
    exact Or.inr ⟨hkp, hk, Function.update_of_ne (getAddr_ne ho hk hkp) ..⟩

section
variable (hn : Numbered j)
include hn

theorem Numbered.recordOf_ne {k : TypedHash160} (hk : j.state.addrMap k = some addr)
    (hne : k ≠ (p.hash, 0)) : j.number addr ≠ j.recordOf p.hash := by
  cases hp : j.state.addrMap (p.hash, 0) with
  | some addr' =>
    rw [recordOf_of_some hp]
    exact fun he => hne (hn.inj _ _ _ _ hk hp he)
  | none =>
    rw [recordOf_of_none hp]
    exact Nat.ne_of_lt (hn.lt _ _ hk)

/-- The postings of the record that `h` has or is about to have. -/
theorem Numbered.filter_recordOf (h : Hash160) :
    (j.entries.filter (·.record = j.recordOf h)).map Entry.posting = j.history h := by
  cases hp : j.state.addrMap (h, 0) with
  | some addr =>
    rw [recordOf_of_some hp, history_of_some hp]
    rfl
  | none =>
    rw [recordOf_of_none hp, history_of_none hp, List.map_eq_nil_iff, List.filter_eq_nil_iff]
    intro e he
    have hlt := hn.entry e he
    simp only [decide_eq_true_eq]
    omega

variable (ho : Owned j.state) (hc : Counts cfg j.state s p)
include ho hc

theorem Numbered.post : Numbered (j.post cfg s p) where
  entry e he := by
    cases List.mem_append.mp he with
    | inl he => exact Nat.lt_of_lt_of_le (hn.entry e he) (Nat.le_max_left ..)
    | inr he =>
      cases List.mem_singleton.mp he
      exact Nat.lt_of_lt_of_le (Nat.lt_succ_self _) (Nat.le_max_right ..)
  lt k addr hk := by
    obtain ⟨-, -, hnum⟩ | ⟨-, hk, hnum⟩ := post_number ho hc hk
    · rw [hnum]
      exact Nat.lt_of_lt_of_le (Nat.lt_succ_self _) (Nat.le_max_right ..)
    · rw [hnum]
      exact Nat.lt_of_lt_of_le (hn.lt k addr hk) (Nat.le_max_left ..)
  inj k k' addr addr' hk hk' he := by
    obtain ⟨hkp, -, hnum⟩ | ⟨hkp, hk, hnum⟩ := post_number ho hc hk <;>
      obtain ⟨hkp', -, hnum'⟩ | ⟨hkp', hk', hnum'⟩ := post_number ho hc hk' <;>
      rw [hnum, hnum'] at he
    · rw [hkp, hkp']
    · exact absurd he.symm (hn.recordOf_ne hk' hkp')
    · exact absurd he (hn.recordOf_ne hk hkp)
    · exact hn.inj _ _ _ _ hk hk' he

theorem Numbered.post_countedIn {k : TypedHash160} (hk : s.addrMap k = some addr) :
    (j.post cfg s p).countedIn addr =
      if k = (p.hash, 0) then j.history p.hash ++ [p] else j.countedIn addr := by
  obtain ⟨hkp, -, hnum⟩ | ⟨hkp, hk, hnum⟩ := post_number ho hc hk
  · rw [if_pos hkp, Journal.countedIn, hnum, ← hn.filter_recordOf]
    simp [Journal.post]
  · have hne := hn.recordOf_ne hk hkp
    rw [if_neg hkp, Journal.countedIn, hnum, Journal.countedIn]
    simp [Journal.post, Ne.symm hne]

/-- A posting is added to the history of its address, the others stay. -/
theorem Numbered.post_history (h : Hash160) : (j.post cfg s p).history h =
    if h = p.hash then if s.record h = none then [] else j.history h ++ [p]
    else j.history h := by
  cases hk : s.addrMap (h, 0) with
  | none =>
    rw [history_of_none hk, if_pos (record_eq_none.mpr hk)]
    by_cases hh : h = p.hash
    · rw [if_pos hh]
    · have hne := key_ne hh
      rw [if_neg hh, history_of_none ((hc.other _ hne).symm.trans hk)]
  | some addr =>
    have hrec : s.record h ≠ none := by simp [State.record, hk]
    rw [history_of_some hk, hn.post_countedIn ho hc hk, if_neg hrec]
    by_cases hh : h = p.hash
    · rw [hh, if_pos rfl, if_pos rfl]
    · have hne := key_ne hh
      rw [if_neg hne, if_neg hh, history_of_some ((hc.other _ hne).symm.trans hk)]

end

/-- A journal of these postings, beside the records of a run. -/
structure Kept (cfg : Config) (j : Journal) (ps : List Posting) : Prop extends Numbered j where
  rep : Rep j.state (Books.run cfg.detailed (ps.map Posting.toMove))
  entries : j.entries.map Entry.posting = ps

theorem start_kept (cfg : Config) : Kept cfg .start [] where
  toNumbered := start_numbered
  rep := start_rep
  entries := rfl

theorem Kept.step (hj : Kept cfg j ps) (c : Call) :
    Kept cfg (j.step cfg c) (ps ++ (postingOf cfg j.state.blockTime c).toList) := by
  have hrep := (@Rep.onCall cfg _ _ hj.rep c).1
  rw [← postingOf_toMove] at hrep
  unfold Journal.step
  cases hp : postingOf cfg j.state.blockTime c with
  | none =>
    obtain ⟨hmap, -⟩ := onCall_idle hp
    rw [hp] at hrep
    rw [Option.toList_none, List.append_nil]
    refine ⟨⟨hj.entry, ?_, ?_⟩, hrep, hj.entries⟩
    · intro k addr hk
      exact hj.lt k addr (by rwa [← hmap])
    · intro k k' addr addr' hk hk'
      exact hj.inj k k' addr addr' (by rwa [← hmap]) (by rwa [← hmap])
  | some p =>
    rw [hp] at hrep
    have hnum := hj.toNumbered.post hj.rep.toOwned (onCall_counts hj.rep.toOwned hp)
    refine ⟨hnum, ?_, ?_⟩
    · simpa [Books.run, Journal.post] using hrep
    · simp [Journal.post, hj.entries]

theorem step_state (cfg : Config) (j : Journal) (c : Call) :
    (j.step cfg c).state = onCall cfg j.state c := by
  unfold Journal.step
  split <;> rfl

theorem journal_append (cfg : Config) (calls : List Call) (c : Call) :
    journal cfg (calls ++ [c]) = (journal cfg calls).step cfg c := by
  simp [journal]

/-- The journal goes with the records, and does not change them. -/
theorem journal_state (cfg : Config) (calls : List Call) :
    (journal cfg calls).state = calls.foldl (onCall cfg) AllBalances.start := by
  induction calls using List.reverseRecOn with
  | nil => rfl
  | append_singleton calls c ih =>
    rw [journal_append, step_state, ih, List.foldl_append]
    rfl

theorem Kept.post_history (hj : Kept cfg j ps) {c : Call}
    (hp : postingOf cfg j.state.blockTime c = some q) (h : Hash160) :
    (j.step cfg c).history h =
      if h = q.hash then if (j.step cfg c).state.record h = none then []
        else j.history h ++ [q] else j.history h := by
  have hpost := hj.toNumbered.post_history hj.rep.toOwned (onCall_counts hj.rep.toOwned hp) h
  rw [step_state, Journal.step, hp]
  exact hpost

theorem idle_history {c : Call} (hp : postingOf cfg j.state.blockTime c = none) (h : Hash160) :
    (j.step cfg c).history h = j.history h := by
  have hmap := (onCall_idle hp).1
  rw [Journal.step, hp, Journal.history, Journal.history]
  dsimp only
  rw [hmap]
  rfl

theorem postingsOf_append (cfg : Config) (time : BitVec 32) (calls : List Call) (c : Call) :
    postingsOf cfg time (calls ++ [c]) = postingsOf cfg time calls ++
      (postingOf cfg (calls.foldl (timeAfter cfg) time) c).toList := by
  induction calls generalizing time with
  | nil => simp [postingsOf]
  | cons c' calls ih =>
    rw [List.cons_append, postingsOf, ih, postingsOf, List.append_assoc]
    rfl

theorem journal_time (cfg : Config) (calls : List Call) :
    (journal cfg calls).state.blockTime = calls.foldl (timeAfter cfg) 0 := by
  induction calls using List.reverseRecOn with
  | nil => rfl
  | append_singleton calls c ih =>
    have htime : (onCall cfg (journal cfg calls).state c).blockTime =
        timeAfter cfg (journal cfg calls).state.blockTime c := by
      rw [journal_state]
      exact ((start_rep.calls calls).onCall c).2
    rw [journal_append, step_state, htime, ih, List.foldl_append]
    rfl

/-- The journal of a run has the postings of its calls. -/
theorem journal_kept (cfg : Config) (calls : List Call) :
    Kept cfg (journal cfg calls) (postingsOf cfg 0 calls) := by
  induction calls using List.reverseRecOn with
  | nil => exact start_kept cfg
  | append_singleton calls c ih =>
    have hstep := ih.step c
    rw [journal_time] at hstep
    rw [journal_append, postingsOf_append]
    exact hstep

end Blockparser.Records
