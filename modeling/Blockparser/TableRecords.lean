import Blockparser.TableLedgers

/-! The allBalances command over its tables with a journal beside it: which outputs its records
are counted of, and what they tell of them. -/
namespace Blockparser.TableRecords
open Bytes Script Balances ReservedKeys DenseHashtable AddrTables Prefixes
open MemoryManager (Hash160)
open Blockparser.Parser (Call)
open AllBalances (AddrRef Config Owned movedBy noHash payScript)
open Records (Posting Entry postingOf postingsOf posted Apart Typed Tells Untangled CleanStep
  typedConfig payScriptHash twoTypes not_keepsTypes_twoTypes recycledConfig otherScript recycled
  not_ownHistories_recycled)

/-- What getAddr finds or makes is noted beside the tables. -/
structure Journal where
  tables : AddrTables.State
  made : Nat
  number : AddrRef → Nat
  entries : List Entry

variable (cfg : Config)

def Journal.start : Except Fault Journal := do
  let s ← init cfg
  return ⟨s, 0, fun _ => 0, []⟩

/-- The posting of a call, if the restriction does not leave it out. -/
def counted (s : AddrTables.State) (c : Call) : Except Fault (Option Posting) :=
  match postingOf { cfg with restricts := [] } s.blockTime c with
  | none => return none
  | some p => do
    let out ← leftOut s p.hash
    return if out then none else some p

def Journal.post (j : Journal) (tables : AddrTables.State) (p : Posting) :
    Except Fault Journal := do
  let i ← j.tables.addrMap.find typedHash160Traits (p.hash, 0)
  let g ← getAddr cfg j.tables p.hash p.addrType
  let record := if i.isSome then j.number g.1 else j.made
  return ⟨tables, max j.made (record + 1), Function.update j.number g.1 record,
    j.entries ++ [⟨p, record⟩]⟩

def Journal.step (j : Journal) (c : Call) : Except Fault Journal := do
  let tables ← onCall cfg j.tables c
  let q ← counted cfg j.tables c
  match q with
  | some p => j.post cfg tables p
  | none => return { j with tables := tables }

def journal (calls : List Call) : Except Fault Journal := do
  let j ← Journal.start cfg
  calls.foldlM (Journal.step cfg) j

/-- The journal with its table read by find. -/
def Journal.view (j : Journal) : Records.Journal := ⟨j.tables.view, j.made, j.number, j.entries⟩

variable {cfg} {j : Journal} {d : AddrTables.State} {n : Nat} {c : Call} {p : Posting}
  {mark : Option AllBalances.TypedHash160} {script : List UInt8} {time : BitVec 32} {value : Int}
  {received : Bool}

theorem posted_restricted : posted cfg time script received value =
    (posted { cfg with restricts := [] } time script received value).filter fun p =>
      decide (cfg.Allows p.hash) := by
  unfold posted paid
  have hacc : Config.account { cfg with restricts := [] } script = cfg.account script := rfl
  rw [hacc]
  cases cfg.account script with
  | none => rfl
  | some h =>
    have hall : Config.Allows { cfg with restricts := [] } h := Or.inl rfl
    rw [Option.bind_some, Option.bind_some, if_pos hall]
    by_cases ha : cfg.Allows h
    · rw [if_pos ha]
      exact (if_pos (decide_eq_true ha)).symm
    · rw [if_neg ha]
      exact (if_neg (by simpa using ha)).symm

theorem postingOf_restricted (cfg : Config) (time : BitVec 32) (c : Call) :
    postingOf cfg time c = (postingOf { cfg with restricts := [] } time c).filter fun p =>
      decide (cfg.Allows p.hash) := by
  cases c with
  | endOutput => exact posted_restricted
  | edge => exact posted_restricted
  | _ => rfl

theorem posted_account (hp : posted cfg time script received value = some p) :
    cfg.account script = some p.hash := by
  obtain ⟨hneg, -, rfl⟩ := Records.posted_eq_some hp
  exact if_neg hneg

theorem postingOf_movedBy (hp : postingOf cfg time c = some p) : movedBy cfg c = some p.hash := by
  cases c with
  | endOutput => exact posted_account hp
  | edge => exact posted_account hp
  | _ => nomatch hp

/-- The restriction leaves out what is not asked for. -/
theorem counted_eq (hs : Sound cfg mark d n)
    (hc : ∀ h, movedBy cfg c = some h → cfg.Allows h → h ≠ reservedHash 0x52) :
    counted cfg d c = .ok (postingOf cfg d.blockTime c) := by
  rw [postingOf_restricted]
  unfold counted
  cases hp : postingOf { cfg with restricts := [] } d.blockTime c with
  | none => rfl
  | some p =>
    have hmoved : movedBy cfg c = some p.hash := by
      have hfree := postingOf_movedBy hp
      cases c <;> exact hfree
    dsimp only
    by_cases ha : cfg.Allows p.hash
    · rw [bind_ok (leftOut_allowed hs ha (Or.inr (hc _ hmoved ha))),
        Option.filter_some_pos (by simpa using ha)]
      rfl
    · rw [bind_ok (leftOut_other hs ha), Option.filter_some_neg (by simpa using ha)]
      rfl

theorem post_view (hs : Sound cfg mark j.tables n) (ho : Owned j.tables.view)
    (hn : n < maxSize) (hf : Free mark p.hash) (tables : AddrTables.State) :
    ∃ j', j.post cfg tables p = .ok j' ∧ j'.tables = tables ∧
      j'.view = j.view.post cfg tables.view p := by
  obtain ⟨r, hfind, hval⟩ := hs.addrs.find (p.hash, 0)
  obtain ⟨d', hget, -, -⟩ := getAddr_view hs ho hn hf p.addrType
  have hnumber : (if r.isSome then
      j.number (AllBalances.getAddr cfg j.tables.view p.hash p.addrType).1 else j.made) =
        j.view.recordOf p.hash := by
    cases r with
    | none =>
      have hk : j.view.state.addrMap (p.hash, 0) = none := hval.symm
      rw [Records.recordOf_of_none hk]
      rfl
    | some q =>
      have hk : j.view.state.addrMap (p.hash, 0) = some (j.tables.addrMap.valueAt q) := hval.symm
      have hget := @Records.getAddr_of_some cfg j.tables.view p.hash _ p.addrType hk
      rw [Records.recordOf_of_some hk, hget]
      rfl
  unfold Journal.post
  rw [bind_ok hfind, bind_ok hget]
  refine ⟨_, rfl, rfl, ?_⟩
  unfold Journal.view Records.Journal.post
  dsimp only
  rw [hnumber]
  rfl

/-- One call beside the tables. -/
theorem step_view (hs : Sound cfg mark j.tables n) (ho : Owned j.tables.view) (hn : n < maxSize)
    (hc : ∀ h, movedBy cfg c = some h → cfg.Allows h →
      Free mark h ∧ Keeps cfg mark j.tables.view h (movedValue c)) :
    ∃ j', j.step cfg c = .ok j' ∧ Sound cfg mark j'.tables (n + 1) ∧
      j'.view = j.view.step cfg c := by
  obtain ⟨tables, hrun, hs', hview⟩ := onCall_view hs ho hn hc
  have hcount := @counted_eq cfg j.tables n c mark hs fun h hm ha => (hc h hm ha).1.1
  unfold Journal.step
  rw [bind_ok hrun, bind_ok hcount]
  unfold Records.Journal.step
  have htime : j.view.state.blockTime = j.tables.blockTime := rfl
  have hstate : AllBalances.onCall cfg j.view.state c = tables.view := hview.symm
  rw [htime, hstate]
  cases hp : postingOf cfg j.tables.blockTime c with
  | none => exact ⟨_, rfl, hs', rfl⟩
  | some p =>
    have hallowed : cfg.Allows p.hash := by
      rw [postingOf_restricted] at hp
      simpa using (Option.filter_eq_some_iff.mp hp).2
    obtain ⟨j', hpost, htables, hview'⟩ :=
      post_view hs ho hn (hc _ (postingOf_movedBy hp) hallowed).1 tables
    refine ⟨j', hpost, ?_, hview'⟩
    rw [htables]
    exact hs'

theorem journal_append (cfg : Config) (calls : List Call) (c : Call) :
    journal cfg (calls ++ [c]) = journal cfg calls >>= fun j => j.step cfg c := by
  unfold journal
  cases Journal.start cfg with
  | error e => rfl
  | ok j =>
    simp only [bind_ok_eq, List.foldlM_append, List.foldlM_cons, List.foldlM_nil]
    cases List.foldlM (Journal.step cfg) j calls with
    | error e => rfl
    | ok j' =>
      simp only [bind_ok_eq]
      cases j'.step cfg c <;> rfl

/-- The journal beside the tables is the one beside the map. -/
theorem journal_view (hR : cfg.restricts.length < 2 ^ 60) {calls : List Call}
    (hlen : calls.length < 2 ^ 60) (hu : Unreserved cfg calls) :
    ∃ j, journal cfg calls = .ok j ∧ Sound cfg (eraseMark cfg) j.tables calls.length ∧
      j.view = Records.journal cfg calls := by
  induction calls using List.reverseRecOn with
  | nil =>
    obtain ⟨d, hrun, hs, hview⟩ := run_view hR hlen hu
    unfold AddrTables.run at hrun
    obtain ⟨d', hinit, hret⟩ := of_bind_ok hrun
    cases hret
    unfold journal Journal.start
    rw [hinit]
    refine ⟨_, rfl, hs, ?_⟩
    unfold Journal.view
    dsimp only
    rw [hview]
    rfl
  | append_singleton calls c ih =>
    rw [List.length_append, List.length_singleton] at hlen ⊢
    obtain ⟨j, hrun, hs, hview⟩ := ih (by omega) (hu.initial (List.prefix_append _ _))
    have ho : Owned j.tables.view := by
      have hstate := congrArg Records.Journal.state hview
      rw [Records.journal_state] at hstate
      change j.tables.view = _ at hstate
      rw [hstate]
      exact owned_run cfg _
    obtain ⟨j', hstep, hs', hview'⟩ := step_view hs ho (by unfold maxSize; omega)
      fun h hm ha => by
        obtain ⟨h52, h53⟩ := hu c (List.mem_append_right _ List.mem_cons_self) h hm ha
        exact ⟨⟨h52, eraseMark_ne h53⟩, keeps_eraseMark ..⟩
    rw [journal_append, bind_ok hrun, Records.journal_append, ← hview]
    exact ⟨j', hstep, hs', hview'⟩

/-- The journal leaves the tables as they are. -/
theorem journal_run {calls : List Call} (hj : journal cfg calls = .ok j) :
    AddrTables.run cfg calls = .ok j.tables := by
  induction calls using List.reverseRecOn generalizing j with
  | nil =>
    unfold journal Journal.start at hj
    obtain ⟨j', hstart, hret⟩ := of_bind_ok hj
    obtain ⟨s, hinit, hret'⟩ := of_bind_ok hstart
    cases hret
    cases hret'
    unfold AddrTables.run
    rw [bind_ok hinit]
    rfl
  | append_singleton calls c ih =>
    rw [journal_append] at hj
    obtain ⟨j', hrun, hstep⟩ := of_bind_ok hj
    obtain ⟨tables, hcall, hrest⟩ := of_bind_ok hstep
    obtain ⟨q, -, hrest⟩ := of_bind_ok hrest
    rw [run_append, bind_ok (ih hrun), hcall]
    refine congrArg Except.ok ?_
    cases q with
    | none =>
      cases hrest
      rfl
    | some p =>
      obtain ⟨i, -, hrest⟩ := of_bind_ok hrest
      obtain ⟨g, -, hret⟩ := of_bind_ok hrest
      cases hret
      rfl

/-- It holds of the journal, and of the tables beside it, all along a run. -/
def Throughout (cfg : Config) (P : Records.Journal → Prop) (calls : List Call) : Prop :=
  Always (fun pre => ∃ j, journal cfg pre = .ok j ∧ AddrTables.run cfg pre = .ok j.tables ∧
    P j.view) calls

def KeepsTypes (cfg : Config) (calls : List Call) : Prop :=
  Throughout cfg (fun j => Apart j ∧ Typed j) calls

def OwnHistories (cfg : Config) (calls : List Call) : Prop :=
  Throughout cfg (fun j => ∀ k addr, j.state.addrMap k = some addr →
    Tells (rowOf (j.state.pool.cells addr)) (j.countedIn addr)) calls

theorem throughout_iff {calls : List Call} (hf : Fits cfg calls) (hu : Unreserved cfg calls)
    (P : Records.Journal → Prop) :
    Throughout cfg P calls ↔ Always (fun pre => P (Records.journal cfg pre)) calls := by
  unfold Throughout Always
  refine forall_congr' fun pre => forall_congr' fun hp => ?_
  obtain ⟨j, hj, -, hview⟩ :=
    journal_view hf.1 (Nat.lt_of_le_of_lt hp.length_le hf.2) (hu.initial hp)
  dsimp only
  rw [← hview]
  constructor
  · intro hall
    obtain ⟨j', hj', -, hP⟩ := hall
    cases hj.symm.trans hj'
    exact hP
  · intro hP
    exact ⟨j, hj, journal_run hj, hP⟩

/-- In a run that counts nothing under a reserved key, outputs are counted in a record of their
own type all along exactly when none comes while the record of its hash is kept for another
type. -/
theorem recordTypes_iff (cfg : Config) (calls : List Call) (hf : Fits cfg calls)
    (hu : Unreserved cfg calls) :
    KeepsTypes cfg calls ↔ Untangled cfg.detailed (postingsOf cfg 0 calls) := by
  unfold KeepsTypes
  rw [throughout_iff hf hu]
  exact Records.keepsTypes_iff cfg calls

/-- An address is paid, another too, the first is emptied, and its hash is paid as that of a
script. -/
def retyped : List Call :=
  [.endOutput 0 5 noHash 0 payScript 25, .endOutput 0 2 noHash 1 otherScript 25,
    .edge 5 noHash 0 payScript 25 noHash 0 [] 0, .endOutput 0 7 noHash 2 payScriptHash 23]

theorem recordTypes_iff_retyped : KeepsTypes typedConfig retyped := by
  have hapart : ∀ i < 5, Apart (Records.journal typedConfig (retyped.take i)) := by
    unfold Apart
    decide +kernel
  have hkeeps : Records.KeepsTypes typedConfig retyped := by
    intro pre hp
    have hlt : pre.length < 5 := Nat.lt_succ_of_le hp.length_le
    have hpre := hapart pre.length hlt
    rw [← List.prefix_iff_eq_take.mp hp] at hpre
    exact ⟨hpre, hpre.typed⟩
  exact (recordTypes_iff typedConfig retyped ⟨by decide, by decide⟩
    (Unreserved.of_moved (by decide +kernel))).mpr ((Records.keepsTypes_iff ..).mp hkeeps)

/-- Without it being emptied both are counted in one record. -/
theorem not_recordTypes_twoTypes : ¬KeepsTypes typedConfig twoTypes := by
  unfold KeepsTypes
  rw [throughout_iff ⟨by decide, by decide⟩ (Unreserved.of_moved (by decide +kernel))]
  exact not_keepsTypes_twoTypes

/-- And every record tells its own history all along exactly when every call is clean. -/
theorem recordHistories_iff (cfg : Config) (calls : List Call) (hf : Fits cfg calls)
    (hu : Unreserved cfg calls) :
    OwnHistories cfg calls ↔
      Steps (fun pre c => ∃ d, AddrTables.run cfg pre = .ok d ∧ CleanStep cfg d.view c) calls := by
  unfold OwnHistories
  rw [throughout_iff hf hu]
  refine (Records.ownHistories_iff cfg calls).trans ?_
  unfold Steps
  refine forall_congr' fun pre => forall_congr' fun c => forall_congr' fun hp => ?_
  have hpre : pre <+: calls := (List.prefix_append pre [c]).trans hp
  obtain ⟨d, hrun, -, hview⟩ :=
    run_view hf.1 (Nat.lt_of_le_of_lt hpre.length_le hf.2) (hu.initial hpre)
  dsimp only
  rw [← hview]
  constructor
  · exact fun hclean => ⟨d, hrun, hclean⟩
  · intro hall
    obtain ⟨d', hrun', hclean⟩ := hall
    cases hrun.symm.trans hrun'
    exact hclean

/-- An address is paid twice and spends once, another is paid. -/
def cleanCalls : List Call :=
  [.startBlock 0, .endOutput 0 5 noHash 0 payScript 25, .endOutput 0 3 noHash 1 payScript 25,
    .edge 3 noHash 1 payScript 25 noHash 0 [] 0, .endOutput 0 2 noHash 2 otherScript 25]

theorem recordHistories_iff_cleanCalls : OwnHistories recycledConfig cleanCalls := by
  have hu : Unreserved recycledConfig cleanCalls := Unreserved.of_moved (by decide +kernel)
  have hclean : ∀ i < 5, ∀ c ∈ cleanCalls[i]?, CleanStep recycledConfig
      ((cleanCalls.take i).foldl (AllBalances.onCall recycledConfig) AllBalances.start) c := by
    decide +kernel
  refine (recordHistories_iff recycledConfig cleanCalls ⟨by decide, by decide⟩ hu).mpr ?_
  intro pre c hp
  have hpre : pre <+: cleanCalls := (List.prefix_append pre [c]).trans hp
  have hlt : pre.length < 5 := by
    have hle := hp.length_le
    rw [List.length_append, List.length_singleton] at hle
    exact hle
  have hget : c ∈ cleanCalls[pre.length]? := by
    obtain ⟨rest, hrest⟩ := hp
    rw [← hrest]
    simp
  have hstep := hclean pre.length hlt c hget
  rw [← List.prefix_iff_eq_take.mp hpre] at hstep
  obtain ⟨d, hrun, -, hview⟩ := run_view (by decide)
    (Nat.lt_trans hlt (by decide)) (hu.initial hpre)
  refine ⟨d, hrun, ?_⟩
  rw [hview]
  exact hstep

/-- A record in the cell of one that was given back has its times. -/
theorem not_recordHistories_recycled : ¬OwnHistories recycledConfig recycled := by
  unfold OwnHistories
  rw [throughout_iff ⟨by decide, by decide⟩ (Unreserved.of_moved (by decide +kernel))]
  exact not_ownHistories_recycled

end Blockparser.TableRecords
