import Blockparser.Runs
import Blockparser.SQLDump

/-! The four files of sqldump: what is written to them and when they are closed, over a whole
run of the parser. -/
namespace Blockparser.SQLFiles
open Trace MemoryManager Blockparser.Parser Replay Runs
open Protocol (txWords)
open BlockIndex (gNullBlock)
open SQLDump (Config)

inductive File
  | txFile
  | blockFile
  | inputFile
  | outputFile
deriving DecidableEq

/-- The row a call writes, in the block that was started last. -/
structure Row where
  file : File
  block : BlockRef
  call : Call
deriving DecidableEq

inductive Event
  | write (row : Row)
  | close (file : File)
deriving DecidableEq

/-- The order of wrapup. -/
def closeAll : List Event := [.close .outputFile, .close .inputFile, .close .blockFile, .close .txFile]

def fileOf : Call → Option File
  | .startBlock _ => some .blockFile
  | .startTX .. => some .txFile
  | .endOutput .. => some .outputFile
  | .edge .. => some .inputFile
  | _ => none

def blockAfter (b : BlockRef) : Call → BlockRef
  | .startBlock b => b
  | _ => b

def rowOf (b : BlockRef) (c : Call) : Option Row := (fileOf c).map fun file => ⟨file, blockAfter b c, c⟩

variable (cfg : Config)

/-- The block is behind the one of `--atBlock`. -/
def PastCutoff (b : BlockRef) : Prop :=
  0 ≤ cfg.cutoffBlock.toInt ∧ cfg.cutoffBlock.toInt < (cfg.height b).toInt

instance (b : BlockRef) : Decidable (PastCutoff cfg b) := by unfold PastCutoff; infer_instance

/-- wrapup, and the startBlock that calls it. -/
def closes : Call → Bool
  | .startBlock b => PastCutoff cfg b
  | .wrapup => true
  | _ => false

/-- What a call does to the files; none of them is looked at. -/
def events (b : BlockRef) (c : Call) : List Event :=
  (if closes cfg c then closeAll else []) ++ (rowOf b c).toList.map .write

def fileEvents : BlockRef → List Call → List Event
  | _, [] => []
  | b, c :: w => events cfg b c ++ fileEvents (blockAfter b c) w

/-- The rows of a run, whatever happens to the files. -/
def rowsOf : BlockRef → List Call → List Row
  | _, [] => []
  | b, c :: w => (rowOf b c).toList ++ rowsOf (blockAfter b c) w

def written : Event → Option Row
  | .write row => some row
  | .close _ => none

/-- All blocks are wanted when the cutoff is negative. -/
def Wanted (b : BlockRef) : Prop :=
  cfg.cutoffBlock.toInt < 0 ∨ (cfg.height b).toInt ≤ cfg.cutoffBlock.toInt

instance (b : BlockRef) : Decidable (Wanted cfg b) := by unfold Wanted; infer_instance

/-- Each file is closed once, nothing is written to it afterwards, and what is written are
the rows of the blocks that are wanted. -/
structure FilesOk (w : List Call) : Prop where
  once : ∀ f, (fileEvents cfg gNullBlock w).count (.close f) = 1
  silent : (fileEvents cfg gNullBlock w).Pairwise fun e e' =>
    ∀ row, e' = .write row → e ≠ .close row.file
  rows : (fileEvents cfg gNullBlock w).filterMap written =
    (rowsOf gNullBlock w).filter fun row => Wanted cfg row.block

variable {cfg} {b : BlockRef} {c : Call} {v w : List Call} {R : List Row} {coin : Coin} {need : Bool}
  {data : BlockRef → Bytes.Memory} {xs : List TxAt} {cur : Option BlockRef}

theorem fileEvents_append (b : BlockRef) (v w : List Call) :
    fileEvents cfg b (v ++ w) = fileEvents cfg b v ++ fileEvents cfg (v.foldl blockAfter b) w := by
  induction v generalizing b with
  | nil => rfl
  | cons c v ih => rw [List.cons_append, fileEvents, ih, fileEvents, List.append_assoc]; rfl

theorem rowsOf_append (b : BlockRef) (v w : List Call) :
    rowsOf b (v ++ w) = rowsOf b v ++ rowsOf (v.foldl blockAfter b) w := by
  induction v generalizing b with
  | nil => rfl
  | cons c v ih => rw [List.cons_append, rowsOf, ih, rowsOf, List.append_assoc]; rfl

/-- Until the files are closed the rows are written. -/
theorem fileEvents_open (h : ∀ c ∈ w, closes cfg c = false) (b : BlockRef) :
    fileEvents cfg b w = (rowsOf b w).map .write := by
  induction w generalizing b with
  | nil => rfl
  | cons c w ih =>
    have hc := h c List.mem_cons_self
    rw [fileEvents, rowsOf, ih (fun d hd => h d (List.mem_cons_of_mem c hd)), List.map_append, events,
      hc, if_neg Bool.false_ne_true, List.nil_append]

theorem silent_closed (R : List Row) : (R.map Event.write ++ closeAll).Pairwise fun e e' =>
    ∀ row, e' = .write row → e ≠ .close row.file := by
  rw [List.pairwise_append]
  refine ⟨?_, ?_, ?_⟩
  · rw [List.pairwise_map]
    apply List.pairwise_of_forall
    intro row row' r _ he
    cases he
  · simp [closeAll]
  · intro e he e' he' row heq
    obtain ⟨r, -, rfl⟩ := List.mem_map.mp he
    intro hclose
    cases hclose

theorem count_closed (R : List Row) (f : File) : (R.map Event.write ++ closeAll).count (.close f) = 1 := by
  have hnone : (R.map Event.write).count (.close f) = 0 := by
    rw [List.count_eq_zero]
    intro hmem
    obtain ⟨r, -, he⟩ := List.mem_map.mp hmem
    cases he
  rw [List.count_append, hnone]
  cases f <;> rfl

theorem written_closed (R : List Row) : (R.map Event.write ++ closeAll).filterMap written = R := by
  have hrows : (R.map Event.write).filterMap written = R := by
    rw [List.filterMap_map]
    exact List.filterMap_some
  rw [List.filterMap_append, hrows]
  exact List.append_nil R

theorem fileOf_between (hc : isBetween c = true) : fileOf c = none := by
  cases c <;> first | rfl | cases hc

theorem blockAfter_between (hc : isBetween c = true) (b : BlockRef) : blockAfter b c = b := by
  cases c <;> first | rfl | cases hc

theorem closes_between (hc : isBetween c = true) : closes cfg c = false := by
  cases c <;> first | rfl | cases hc

/-- The calls of a transaction start no block and close no file. -/
theorem tx_keeps {p : Ptr} (hw : w ∈ txWords coin need (data b) p) :
    ∀ c ∈ w, (∀ b, blockAfter b c = b) ∧ ∀ cfg, closes cfg c = false := by
  obtain ⟨h, mid, rfl, hmid⟩ := txWords_shape hw
  intro c hc
  simp only [List.mem_cons, List.mem_append, List.not_mem_nil, or_false] at hc
  rcases hc with rfl | hc | rfl
  · exact ⟨fun _ => rfl, fun _ => rfl⟩
  · have hbody := hmid c hc
    cases c <;> first | exact ⟨fun _ => rfl, fun _ => rfl⟩ | cases hbody
  · exact ⟨fun _ => rfl, fun _ => rfl⟩

theorem rowsOf_block (h : ∀ c ∈ w, blockAfter b c = b) : ∀ row ∈ rowsOf b w, row.block = b := by
  induction w with
  | nil =>
    intro row hrow
    cases hrow
  | cons c w ih =>
    have hc := h c List.mem_cons_self
    intro row hrow
    rw [rowsOf, hc] at hrow
    cases List.mem_append.mp hrow with
    | inl hone =>
      rw [Option.mem_toList, rowOf, Option.map_eq_some_iff] at hone
      obtain ⟨file, -, rfl⟩ := hone
      exact hc
    | inr hrest => exact ih (fun d hd => h d (List.mem_cons_of_mem c hd)) row hrest

/-- A row belongs to a block that was started. -/
theorem row_started (h : Told coin need data cur w xs) :
    ∀ row ∈ rowsOf (cur.getD gNullBlock) w, Call.startBlock row.block ∈ w ∨ cur = some row.block := by
  induction h with
  | nil =>
    intro row hrow
    cases hrow
  | @startBlock cur b w xs _ ih =>
    intro row hrow
    cases List.mem_cons.mp hrow with
    | inl hone =>
      rw [hone]
      exact Or.inl List.mem_cons_self
    | inr hrest =>
      cases ih row hrest with
      | inl hmem => exact Or.inl (List.mem_cons_of_mem _ hmem)
      | inr hcur =>
        cases hcur
        exact Or.inl List.mem_cons_self
  | between hc _ ih =>
    intro row hrow
    rw [rowsOf, rowOf, fileOf_between hc, blockAfter_between hc] at hrow
    exact (ih row hrow).imp_left (List.mem_cons_of_mem _)
  | @tx b p u v xs hu _ ih =>
    have hstay : ∀ c ∈ u, ∀ b, blockAfter b c = b := fun c hc => (tx_keeps hu c hc).1
    intro row hrow
    rw [Option.getD_some, rowsOf_append, Segments.foldl_ignored hstay] at hrow
    cases List.mem_append.mp hrow with
    | inl hone =>
      rw [rowsOf_block (fun c hc => hstay c hc b) row hone]
      exact Or.inr rfl
    | inr hrest => exact (ih row hrest).imp_left (List.mem_append_right u)

theorem not_closes (h : Told coin need data cur w xs)
    (hcut : ∀ b, Call.startBlock b ∈ w → ¬PastCutoff cfg b) : ∀ c ∈ w, closes cfg c = false := by
  induction h with
  | nil =>
    intro c hc
    cases hc
  | @startBlock cur b w xs _ ih =>
    intro c hc
    cases List.mem_cons.mp hc with
    | inl hone =>
      rw [hone]
      exact decide_eq_false (hcut b List.mem_cons_self)
    | inr hrest => exact ih (fun b' hb' => hcut b' (List.mem_cons_of_mem _ hb')) c hrest
  | between hbetween _ ih =>
    intro c hc
    cases List.mem_cons.mp hc with
    | inl hone =>
      rw [hone]
      exact closes_between hbetween
    | inr hrest => exact ih (fun b hb => hcut b (List.mem_cons_of_mem _ hb)) c hrest
  | @tx b p u v xs hu _ ih =>
    intro c hc
    cases List.mem_append.mp hc with
    | inl hone => exact (tx_keeps hu c hone).2 cfg
    | inr hrest => exact ih (fun b hb => hcut b (List.mem_append_right u hb)) c hrest

/-- The block row behind the cutoff comes when its file is closed. -/
theorem not_silent (hmem : Call.startBlock b ∈ w) (hcut : PastCutoff cfg b) (b₀ : BlockRef) :
    ¬(fileEvents cfg b₀ w).Pairwise fun e e' => ∀ row, e' = .write row → e ≠ .close row.file := by
  intro hsilent
  obtain ⟨u, v, rfl⟩ := List.append_of_mem hmem
  have hevents : events cfg (u.foldl blockAfter b₀) (.startBlock b) =
      closeAll ++ [.write ⟨.blockFile, b, .startBlock b⟩] := by
    rw [events, if_pos (show closes cfg (.startBlock b) = true from decide_eq_true hcut)]
    rfl
  rw [fileEvents_append, fileEvents, hevents, List.pairwise_append] at hsilent
  have hrow := (List.pairwise_append.mp (List.pairwise_append.mp hsilent.2.1).1).2.2
    (.close .blockFile) (by simp [closeAll]) _ List.mem_cons_self _ rfl
  exact hrow rfl

/-- The tables of a run of sqldump. -/
def tableSize (s : SQLDump.State) : File → Nat
  | .txFile => s.transactions.length
  | .blockFile => s.blocks.length
  | .inputFile => s.inputs.length
  | .outputFile => s.outputs.length

theorem open_closed {s : SQLDump.State} {u : Unit} (h : s.open = .ok u) : s.closed = false := by
  unfold SQLDump.State.open at h
  cases hc : s.closed with
  | false => rfl
  | true =>
    rw [hc] at h
    cases h

/-- What one call does to the files of sqldump when nothing goes wrong. -/
structure Uses (cfg : Config) (c : Call) (s s' : SQLDump.State) : Prop where
  isOpen : s.closed = true → fileOf c = none ∧ closes cfg c = false
  last : closes cfg c = true → fileOf c = none
  closed : s'.closed = (s.closed || closes cfg c)
  sizes : ∀ f, tableSize s' f = tableSize s f + (fileOf c).toList.count f

/-- A row is written into a file that is open. -/
theorem Uses.row {s s' : SQLDump.State} {f : File} (hopen : s.closed = false)
    (hclosed : s'.closed = s.closed) (hfile : fileOf c = some f) (hcloses : closes cfg c = false)
    (hsizes : ∀ g, tableSize s' g = tableSize s g + [f].count g) : Uses cfg c s s' where
  isOpen := fun hc => absurd (hopen.symm.trans hc) Bool.false_ne_true
  last := fun hc => absurd (hcloses.symm.trans hc) Bool.false_ne_true
  closed := by rw [hclosed, hcloses, Bool.or_false]
  sizes := by
    rw [hfile]
    exact hsizes

theorem Uses.none {s : SQLDump.State} (hfile : fileOf c = none) (hcloses : closes cfg c = false) :
    Uses cfg c s s where
  isOpen := fun _ => ⟨hfile, hcloses⟩
  last := fun _ => hfile
  closed := by rw [hcloses, Bool.or_false]
  sizes := by
    rw [hfile]
    exact fun f => rfl

theorem onCall_uses {env : Env} {s s' : SQLDump.State} (h : SQLDump.onCall env cfg s c = .ok s') :
    Uses cfg c s s' := by
  cases c with
  | startBlock b =>
    obtain ⟨s₁, hcut, hrun⟩ := SQLDump.bind_ok h
    obtain ⟨_, hopen₁, hrun⟩ := SQLDump.bind_ok hrun
    cases hrun
    have hopen := open_closed hopen₁
    unfold SQLDump.cutoff at hcut
    split at hcut
    · obtain ⟨-, -, hclose⟩ := SQLDump.bind_ok hcut
      cases hclose
      cases hopen
    · rename_i hpast
      cases hcut
      refine Uses.row hopen rfl rfl (decide_eq_false hpast) fun g => ?_
      cases g <;> simp [tableSize]
  | startTX p hash =>
    obtain ⟨_, hopen, hrun⟩ := SQLDump.bind_ok h
    obtain ⟨id, -, hrun⟩ := SQLDump.bind_ok hrun
    cases hrun
    refine Uses.row (open_closed hopen) rfl rfl rfl fun g => ?_
    cases g <;> simp [tableSize]
  | endOutput p value txHash =>
    obtain ⟨_, hopen, hrun⟩ := SQLDump.bind_ok h
    obtain ⟨id, -, hrun⟩ := SQLDump.bind_ok hrun
    cases hrun
    refine Uses.row (open_closed hopen) rfl rfl rfl fun g => ?_
    cases g <;> simp [tableSize]
  | edge value up =>
    obtain ⟨id, -, hrun⟩ := SQLDump.bind_ok h
    split at hrun
    · cases hrun
    · obtain ⟨_, hopen, hrun⟩ := SQLDump.bind_ok hrun
      cases hrun
      refine Uses.row (open_closed hopen) rfl rfl rfl fun g => ?_
      cases g <;> simp [tableSize]
  | wrapup =>
    obtain ⟨_, hopen, hrun⟩ := SQLDump.bind_ok h
    cases hrun
    exact ⟨fun hc => absurd ((open_closed hopen).symm.trans hc) Bool.false_ne_true, fun _ => rfl,
      (Bool.or_true _).symm, fun _ => rfl⟩
  | _ =>
    cases h
    exact Uses.none rfl rfl

/-- When nothing goes wrong sqldump writes rows and then closes the files, if it does. -/
theorem dump_events {env : Env} {s s' : SQLDump.State}
    (h : w.foldl (SQLDump.step env cfg) (.ok s) = .ok s') (b : BlockRef) : ∃ R,
    fileEvents cfg b w = R.map .write ++ (if s'.closed && !s.closed then closeAll else []) ∧
      (s.closed = true → s'.closed = true ∧ R = []) ∧
      ∀ f, tableSize s' f = tableSize s f + (R.map Row.file).count f := by
  induction w generalizing s b with
  | nil =>
    cases h
    exact ⟨[], by simp [fileEvents], fun hc => ⟨hc, rfl⟩, fun f => rfl⟩
  | cons c w ih =>
    have hstep : SQLDump.step env cfg (.ok s) c = SQLDump.onCall env cfg s c := rfl
    rw [List.foldl_cons, hstep] at h
    cases hc : SQLDump.onCall env cfg s c with
    | error f =>
      rw [hc, SQLDump.foldl_error] at h
      cases h
    | ok s₁ =>
      rw [hc] at h
      have huses := onCall_uses hc
      obtain ⟨R, hevents, hclosed, hsizes⟩ := ih h (blockAfter b c)
      have hfiles : ((rowOf b c).toList ++ R).map Row.file = (fileOf c).toList ++ R.map Row.file := by
        rw [rowOf, List.map_append]
        cases fileOf c <;> rfl
      refine ⟨(rowOf b c).toList ++ R, ?_, ?_, ?_⟩
      · rw [fileEvents, hevents, events, List.map_append, List.append_assoc, List.append_assoc]
        cases hs : s.closed with
        | true =>
          have hnone := huses.isOpen hs
          have hs₁ : s₁.closed = true := by rw [huses.closed, hs, Bool.true_or]
          rw [hnone.2, hs₁]
          rfl
        | false =>
          cases hcloses : closes cfg c with
          | false =>
            have hs₁ : s₁.closed = false := by rw [huses.closed, hs, hcloses, Bool.or_false]
            rw [hs₁]
            rfl
          | true =>
            have hs₁ : s₁.closed = true := by rw [huses.closed, hs, hcloses, Bool.or_true]
            obtain ⟨hs', rfl⟩ := hclosed hs₁
            rw [rowOf, huses.last hcloses, hs₁, hs']
            rfl
      · intro hs
        have hnone := huses.isOpen hs
        have hs₁ : s₁.closed = true := by rw [huses.closed, hs, Bool.true_or]
        rw [rowOf, hnone.1]
        exact hclosed hs₁
      · intro f
        rw [hsizes, huses.sizes, hfiles, List.count_append, Nat.add_assoc]

/-- sqldump comes to the end of its run only if no block is behind the cutoff. -/
theorem dump_cutoff {env : Env} {s : SQLDump.State}
    (h : w.foldl (SQLDump.step env cfg) (.ok SQLDump.init) = .ok s) :
    ∀ b, Call.startBlock b ∈ w → ¬PastCutoff cfg b := by
  intro b hmem hcut
  obtain ⟨R, hevents, -, -⟩ := dump_events h gNullBlock
  apply not_silent hmem hcut gNullBlock
  rw [hevents]
  cases s.closed with
  | false =>
    have hrows := (List.pairwise_append.mp (silent_closed R)).1
    rwa [← List.append_nil (R.map Event.write)] at hrows
  | true => exact silent_closed R

/-- Over every run of the parser that comes to its end: the files are closed once, written
only before, and have the rows of the wanted blocks, if and only if there is no cutoff or no
block of the run is behind it. -/
theorem files_iff (env : Env) (data : BlockRef → Bytes.Memory) (fuel : Nat) (h : Heights.State)
    (x x' : Blockparser.Parser.State) (hcalls : x.calls = [])
    (hrun : LongestChain.parseLongestChain env data fuel h x = .ok true x') (cfg : Config) :
    FilesOk cfg x'.calls ↔ ∀ b, Call.startBlock b ∈ x'.calls → ¬PastCutoff cfg b := by
  obtain ⟨w, hw, htold⟩ := parseLongestChain_told hrun
  rw [hcalls, List.nil_append] at hw
  rw [hw]
  constructor
  · intro hok b hmem hcut
    exact not_silent hmem hcut gNullBlock hok.silent
  · intro hcut
    have hw' : ∀ b, Call.startBlock b ∈ w → ¬PastCutoff cfg b := fun b hmem =>
      hcut b (List.mem_append_left _ hmem)
    have hevents : fileEvents cfg gNullBlock (w ++ [.wrapup]) =
        (rowsOf gNullBlock w).map .write ++ closeAll := by
      rw [fileEvents_append, fileEvents_open (not_closes htold hw')]
      rfl
    have hrows : rowsOf gNullBlock (w ++ [.wrapup]) = rowsOf gNullBlock w := by
      rw [rowsOf_append]
      exact List.append_nil _
    constructor
    · rw [hevents]
      exact count_closed _
    · rw [hevents]
      exact silent_closed _
    · rw [hevents, hrows, written_closed]
      refine (List.filter_eq_self.mpr ?_).symm
      intro row hrow
      rw [decide_eq_true_eq]
      cases row_started htold row hrow with
      | inl hmem =>
        have hnot := hw' row.block hmem
        unfold PastCutoff at hnot
        unfold Wanted
        omega
      | inr hcur => cases hcur

theorem files_iff_mintTx : ∃ x', runOf [Transaction.mintTx] = .ok true x' ∧
    FilesOk SQLDump.plainConfig x'.calls := by
  have hended : (ended (runOf [Transaction.mintTx])).isSome = true := by decide +kernel
  obtain ⟨x', hx⟩ := Option.isSome_iff_exists.mp hended
  have hrun := ended_eq hx
  refine ⟨x', hrun, (files_iff _ _ _ _ .start x' rfl hrun SQLDump.plainConfig).mpr ?_⟩
  intro b _ hcut
  exact absurd hcut.1 (by decide)

/-- With `--atBlock 0` the files are closed at the first block and again at the end. -/
theorem files_cutoff : ∃ x', runOf [Transaction.mintTx] = .ok true x' ∧
    (fileEvents { SQLDump.plainConfig with cutoffBlock := 0 } gNullBlock x'.calls).count
      (.close .blockFile) = 2 ∧
    ¬FilesOk { SQLDump.plainConfig with cutoffBlock := 0 } x'.calls := by
  have hall : (ended (runOf [Transaction.mintTx])).map (fun x =>
      (fileEvents { SQLDump.plainConfig with cutoffBlock := 0 } gNullBlock x.calls).count
        (.close .blockFile)) = some 2 := by
    decide +kernel
  obtain ⟨x', hx, htwice⟩ := Option.map_eq_some_iff.mp hall
  refine ⟨x', ended_eq hx, htwice, fun hok => ?_⟩
  have honce := hok.once .blockFile
  omega

end Blockparser.SQLFiles
