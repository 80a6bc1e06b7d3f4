import Blockparser.CommandLines
import Blockparser.KeyList

/-! The options of the commands, and what their init functions take from a command line: the
options, and for the commands about addresses the key lists its words give or name. -/
namespace Blockparser.Optparse
open Bytes Hex MemoryManager Blockparser.Parser

/-- initCallback spoils the dashes in front of the command's name. -/
def crossOut (name : Str) : Str :=
  List.replicate (name.takeWhile fun c => c = 0x2D).length 0x78 ++
    name.dropWhile fun c => c = 0x2D

/-- The call of init in initCallback; `argv` is without the program. -/
def initCallback {ε α : Type} (init : List Str → Except ε α) : List Str → Except ε α
  | [] => init []
  | name :: args => init (crossOut name :: args)

/-- `.action("store").type("int").set_default(n)`. -/
def number (n : Int) (o : Opt) : Opt :=
  { o.setAction .store with type := .int, default := printInt n }

/-- `.action("store_true").set_default(false)`. -/
def flag (o : Opt) : Opt := { o.setAction .storeTrue with default := ascii "0" }

/-- What loadKeyList works with, and what it finds in `stdin` and in the files of a name. -/
structure KeyReader where
  sha256 : List UInt8 → Hash256
  coin : Coin
  buf : Memory
  h160 : Memory
  stdin : List UInt8
  fopen : List UInt8 → Option (List UInt8)

/-- How init ends the process: in the parser, in a key list, for want of an address, or at
a look at `stdin` after loadKeyList has closed it. -/
inductive Stop
  | exit (exit : Exit)
  | keyList (stop : KeyList.Stop)
  | fatal
  | closed
deriving DecidableEq

def KeyReader.load (keys : KeyReader) (result : List Hash160) (str : Str) :
    Except KeyList.Stop (List Hash160) :=
  KeyList.loadKeyList keys.sha256 keys.coin keys.buf keys.h160 keys.stdin keys.fopen result str

/-- The word that names `stdin`. -/
def stdIn : Str := KeyList.filePrefix ++ [0x2D]

/-- The loop of init over its words; `closed` says that one of them was `stdIn`. -/
def loadKeyLists (keys : KeyReader) : Bool → List Hash160 → List Str → Except Stop (List Hash160)
  | _, result, [] => .ok result
  | closed, result, arg :: args =>
    if closed = true ∧ arg = stdIn then .error .closed
    else
      match keys.load result arg with
      | .error stop => .error (.keyList stop)
      | .ok result => loadKeyLists keys (closed || arg = stdIn) result args

/-- The parser first, then the rest of init. -/
def initWith {α : Type} (reads : Streams) (p : OptionParser)
    (rest : Values → List Str → Except Stop α) (argv : List Str) : Except Stop α :=
  match parseArgs reads p argv with
  | .error exit => .error (.exit exit)
  | .ok r => rest r.1 (r.2.drop 1)

namespace AllBalances

def parser : OptionParser :=
  OptionParser.construct
    |>.addOption [ascii "-a", ascii "--atBlock"] (number (-1))
    |>.addOption [ascii "-l", ascii "--limit"] (number (-1))
    |>.addOption [ascii "-w", ascii "--withAddr"] (number 500)
    |>.addOption [ascii "-d", ascii "--detailed"] flag
    |>.addOption [ascii "-c", ascii "--csv"] flag

/-- The fields that init sets, less those it sets to the same values in every run. -/
structure Settings where
  cutoffBlock : Int
  showAddr : Int
  detailed : Bool
  limit : Int
  csv : Bool
  restricts : List Hash160
deriving DecidableEq

def init (reads : Streams) (keys : KeyReader) : List Str → Except Stop Settings :=
  initWith reads parser fun values args =>
    (loadKeyLists keys false [] args).map fun restricts =>
      { cutoffBlock := values.asInt64 (ascii "atBlock")
        showAddr := values.asInt64 (ascii "withAddr")
        detailed := values.asBool (ascii "detailed")
        limit := values.asInt64 (ascii "limit")
        csv := values.asBool (ascii "csv")
        restricts := restricts }

end AllBalances

namespace SQLDump

def parser : OptionParser :=
  OptionParser.construct |>.addOption [ascii "-a", ascii "--atBlock"] (number (-1))

/-- cutoffBlock. -/
def init (reads : Streams) (argv : List Str) : Except Exit Int :=
  (parseArgs reads parser argv).map fun r => r.1.asInt64 (ascii "atBlock")

end SQLDump

/-- For the two coins without an address the source has a call of fatal. -/
def getInterestingAddr : Coin → Option Str
  | .bitcoin => some (ascii "1dice8EMZmqKvrGE4Qc9bUFf9PX3xaYDp")
  | .testnet3 => some (ascii "mxRN6AQJaDi5R6KmvMaEmZGe3n5ScV9u33")
  | .litecoin => some (ascii "LKvTVnkK2rAkJXfgPdkaDRgvEGvazxWS9o")
  | .darkcoin => some (ascii "XnuCAYmAiVHE6Xv3D7Xw685wWzqtcfexLh")
  | .peercoin => some (ascii "PDH9AeruMUGh2JzYYTpaNtjLAcfGV5LEto")
  | .clam => some (ascii "xQKq1LwJQQkg1A5cmB9znGozCKLkAaKJHW")
  | .paycon => some (ascii "PShpEEfcy8UrBPWoefsNnq8oz6bX7dNxnP")
  | .jumbucks => some (ascii "JhbrvAmM7kNpwA6wD5KoAsbtikLWWMNPcM")
  | .myriadcoin => some (ascii "MDiceoNDTQboRxYKMTstxxRBY493Lg9bV2")
  | .unobtanium => some (ascii "udicetdXSo6Zc7vhWgAZfz4XrwagAX34RK")
  | .protoshares => none
  | .fedoracoin => none

namespace Transactions

def parser : OptionParser :=
  OptionParser.construct |>.addOption [ascii "-c", ascii "--csv"] flag

/-- The list of the words, or where it is empty the interesting address. -/
def rootHashes (keys : KeyReader) (args : List Str) : Except Stop (List Hash160) :=
  match loadKeyLists keys false [] args with
  | .error stop => .error stop
  | .ok [] =>
    match getInterestingAddr keys.coin with
    | none => .error .fatal
    | some addr => (keys.load [] addr).mapError Stop.keyList
  | .ok result => .ok result

/-- csv and rootHashes. -/
def init (reads : Streams) (keys : KeyReader) : List Str → Except Stop (Bool × List Hash160) :=
  initWith reads parser fun values args =>
    (rootHashes keys args).map fun hashes => (values.asBool (ascii "csv"), hashes)

end Transactions

namespace Rewards

def parser : OptionParser :=
  OptionParser.construct |>.addOption [ascii "-f", ascii "--full"] flag

/-- fullDump. -/
def init (reads : Streams) (argv : List Str) : Except Exit Bool :=
  (parseArgs reads parser argv).map fun r => r.1.asBool (ascii "full")

end Rewards

variable {reads : Streams} {p : OptionParser} {args rest : List Str} {d : Str}
  {xs : List Setting} {x : Setting} {items : List Item}

/-! Words and names. -/

theorem isWord_crossOut (name : Str) : IsWord (crossOut name) := by
  intro hhead
  have hfirst : (crossOut name).head? ≠ some 0x2D := by
    unfold crossOut
    cases (name.takeWhile fun c => decide (c = 0x2D)).length with
    | succ n => simp [List.replicate_succ]
    | zero =>
      have hdrop := List.head?_dropWhile_not (fun c : UInt8 => decide (c = 0x2D)) name
      intro h
      rw [List.replicate_zero, List.nil_append] at h
      rw [h] at hdrop
      nomatch hdrop
  exact absurd hhead hfirst

theorem Reads.not_word {arg : Str} (h : Reads p (arg :: args) x rest) : ¬IsWord arg := by
  intro hword
  cases h <;> exact List.cons_ne_nil _ _ (List.cons.inj (hword rfl)).2

/-- A word in front is a word of the command line. -/
theorem spells_word {arg : Str} (hword : IsWord arg) (hinter : p.interspersedArgs = true) :
    Spells p (arg :: args) items ↔ ∃ items', items = .word arg :: items' ∧ Spells p args items' := by
  constructor
  · intro ⟨before, rest, leftover, hbegin, hend, hitems⟩
    cases hbegin with
    | here =>
      cases hend with
      | dashes => exact absurd (hword rfl) (by decide)
      | word _ hfalse => exact absurd (hinter.symm.trans hfalse) (by decide)
    | setting hreads _ => exact absurd hword hreads.not_word
    | word _ _ hbegin => exact ⟨_, hitems, _, _, _, hbegin, hend, rfl⟩
  · intro ⟨items', hitems, before, rest, leftover, hbegin, hend, hspell⟩
    subst hspell
    exact ⟨_, rest, leftover, .word hword hinter hbegin, hend, hitems⟩

/-! The values of one option. -/

def optionsOf (p : OptionParser) : List Opt := (p.optmapS ++ p.optmapL).map Prod.snd

theorem Reads.mem_options (h : Reads p args x rest) : x.option ∈ optionsOf p := by
  have hshort : ∀ {c o}, Short p c o → o ∈ optionsOf p := by
    intro c o hc
    exact List.mem_map.mpr ⟨_, List.mem_append_left _ (List.mem_of_find?_eq_some hc.2), rfl⟩
  have hlong : ∀ {l o}, Long p l o → o ∈ optionsOf p := by
    intro l o ⟨_, name, hl⟩
    have hmem : (name, o) ∈ matching p l := by rw [hl]; exact List.mem_singleton_self _
    exact List.mem_map.mpr ⟨_, List.mem_append_right _ (List.mem_filter.mp hmem).1, rfl⟩
  cases h with
  | shortAttached hc => exact hshort hc
  | shortNext hc => exact hshort hc
  | flag hc => exact hshort hc
  | group hc => exact hshort hc
  | longAttached hl => exact hlong hl
  | longNext hl => exact hlong hl
  | longFlag hl => exact hlong hl

theorem Begins.mem_options (h : Begins p args items rest) :
    ∀ x ∈ settings items, x.option ∈ optionsOf p := by
  induction h with
  | here => exact fun x hx => nomatch hx
  | setting hreads _ ih =>
    intro x hx
    cases List.mem_cons.mp hx with
    | inl hx =>
      rw [hx]
      exact hreads.mem_options
    | inr hx => exact ih x hx
  | word _ _ _ ih => exact ih

theorem Spells.mem_options (h : Spells p args items) :
    ∀ x ∈ settings items, x.option ∈ optionsOf p := by
  obtain ⟨before, rest, leftover, hbegin, -, rfl⟩ := h
  rw [settings_append, settings_words, List.append_nil]
  exact hbegin.mem_options

/-- The options that set `d` store numbers, from `n` on. -/
def IsNumber (p : OptionParser) (d : Str) (n : Int) : Prop :=
  (∀ o ∈ optionsOf p, o.dest = d → o.action = .store ∧ o.type = .int) ∧
    (defaultsOf p).lookup d = some (printInt n)

/-- The options that set `d` are flags that are off. -/
def IsFlag (p : OptionParser) (d : Str) : Prop :=
  (∀ o ∈ optionsOf p, o.dest = d → o.action = .storeTrue) ∧
    (defaultsOf p).lookup d = some (ascii "0")

instance (p : OptionParser) (d : Str) (n : Int) : Decidable (IsNumber p d n) := by
  unfold IsNumber
  infer_instance

instance (p : OptionParser) (d : Str) : Decidable (IsFlag p d) := by
  unfold IsFlag
  infer_instance

/-- The number that was given last. -/
def lastNumber (d : Str) (n : Int) (xs : List Setting) : Int :=
  match (settingsTo d xs).getLast? with
  | some x => (readLong x.value).1
  | none => n

def isGiven (d : Str) (xs : List Setting) : Bool := !(settingsTo d xs).isEmpty

/-- What is stored whatever was there before is what was stored last. -/
theorem foldl_store (val : Setting → Str) (hval : ∀ x ∈ xs, ∀ old, x.store old = some (val x))
    (old : Option Str) :
    xs.foldl (fun old x => x.store old) old = (xs.getLast?.map val).or old := by
  induction xs using List.reverseRecOn with
  | nil => simp
  | append_singleton xs x ih =>
    rw [List.foldl_append, List.foldl_cons, List.foldl_nil, hval x (by simp), List.getLast?_concat]
    rfl

/-- What stands for a number, and nothing behind it. -/
theorem readLong_digits {s : Str} (hne : s ≠ []) (hs : ∀ c ∈ s, Decimal.isDigit c)
    (hlt : Decimal.value s < 2 ^ 63) : readLong s = ((Decimal.value s : Int), true) ∧
      readLong (ascii "-" ++ s) = (-(Decimal.value s : Int), true) := by
  have htake : s.takeWhile (fun c => decide (Decimal.isDigit c)) = s :=
    List.takeWhile_eq_self_iff.mpr fun c hc => decide_eq_true (hs c hc)
  have hspace : s.dropWhile isspace = s ∧ s.head? ≠ some 0x2D ∧ s.head? ≠ some 0x2B := by
    cases s with
    | nil => exact absurd rfl hne
    | cons c s =>
      have hc := hs c List.mem_cons_self
      have hlow : ∀ b : UInt8, Decimal.isDigit b → isspace b = false ∧ b ≠ 0x2D ∧ b ≠ 0x2B := by
        apply Bytes.forall_byte
        decide +kernel
      obtain ⟨hsp, hminus, hplus⟩ := hlow c hc
      exact ⟨List.dropWhile_cons_of_neg (by simp [hsp]), by simpa using hminus,
        by simpa using hplus⟩
  have hrange : ¬((Decimal.value s : Int) < -2 ^ 63) ∧ ¬(2 ^ 63 ≤ (Decimal.value s : Int)) ∧
      ¬(-(Decimal.value s : Int) < -2 ^ 63) ∧ ¬(2 ^ 63 ≤ -(Decimal.value s : Int)) := by omega
  obtain ⟨hdrop, hminus, hplus⟩ := hspace
  constructor
  · unfold readLong
    dsimp only
    rw [hdrop]
    simp only [hminus, hplus, or_self, if_false]
    rw [htake, if_neg hne, if_neg hrange.1, if_neg hrange.2.1]
  · unfold readLong
    have hdash : (ascii "-" ++ s).dropWhile isspace = 0x2D :: s := by
      rw [ascii_dash, List.cons_append, List.nil_append, List.dropWhile_cons_of_neg (by decide)]
    dsimp only
    rw [hdash]
    simp only [List.head?_cons, true_or, if_true, List.drop_succ_cons, List.drop_zero]
    rw [htake, if_neg hne, if_neg hrange.2.2.1, if_neg hrange.2.2.2]

theorem readLong_printInt {i : Int} (hlo : -2 ^ 63 < i) (hhi : i < 2 ^ 63) :
    readLong (printInt i) = (i, true) := by
  unfold printInt
  by_cases h0 : i = 0
  · rw [if_pos h0, h0]
    decide
  · have hpos : 0 < i.natAbs := Int.natAbs_pos.mpr h0
    have hdec := Decimal.isDecimal_digits hpos
    obtain ⟨hplus, hminus⟩ := readLong_digits hdec.nonempty hdec.digits
      (by rw [hdec.value]; omega)
    rw [hdec.value] at hplus hminus
    rw [if_neg h0]
    split
    · next hneg =>
      rw [hminus, show -(i.natAbs : Int) = i by omega]
    · next hneg =>
      rw [hplus, show (i.natAbs : Int) = i by omega]

theorem asInt64_outcome {n : Int} (hd : IsNumber p d n) (hlo : -2 ^ 63 < n) (hhi : n < 2 ^ 63)
    (hxs : ∀ x ∈ xs, x.option ∈ optionsOf p) (hpass : ∀ x ∈ xs, rejection reads x = none) :
    (outcome p xs).asInt64 d = lastNumber d n xs := by
  have hstore : ∀ x ∈ settingsTo d xs, x.option.action = .store ∧ x.option.type = .int := by
    intro x hx
    obtain ⟨hmem, hdest⟩ := List.mem_filter.mp hx
    exact hd.1 _ (hxs x hmem) (by simpa using hdest)
  have hmap : (outcome p xs).map d =
      ((settingsTo d xs).getLast?.map Setting.value).or (some (printInt n)) := by
    unfold outcome valuesAfter
    dsimp only
    rw [hd.2, foldl_store Setting.value]
    · simp [Values.construct]
    · intro x hx old
      rw [Setting.store, (hstore x hx).1]
  unfold Values.asInt64 lastNumber
  rw [hmap]
  cases hlast : (settingsTo d xs).getLast? with
  | none =>
    rw [Option.map_none, Option.none_or]
    dsimp only
    rw [readLong_printInt hlo hhi, if_pos rfl]
  | some x =>
    have hx := List.mem_of_getLast? hlast
    have hread : (readLong x.value).2 = true := by
      have hrej := hpass x (List.mem_filter.mp hx).1
      by_contra hbad
      unfold rejection Opt.checkType at hrej
      rw [(hstore x hx).1, (hstore x hx).2] at hrej
      dsimp only at hrej
      rw [if_neg hbad, if_pos (by simp [ascii])] at hrej
      cases hrej
    rw [Option.map_some, Option.some_or]
    dsimp only
    rw [if_pos hread]

theorem asBool_outcome (hd : IsFlag p d) (hxs : ∀ x ∈ xs, x.option ∈ optionsOf p) :
    (outcome p xs).asBool d = isGiven d xs := by
  have hmap : (outcome p xs).map d =
      ((settingsTo d xs).getLast?.map fun _ => ascii "1").or (some (ascii "0")) := by
    unfold outcome valuesAfter
    dsimp only
    rw [hd.2, foldl_store fun _ => ascii "1"]
    · simp [Values.construct]
    · intro x hx old
      obtain ⟨hmem, hdest⟩ := List.mem_filter.mp hx
      rw [Setting.store, hd.1 _ (hxs x hmem) (by simpa using hdest)]
  unfold Values.asBool isGiven
  rw [hmap]
  cases hlast : (settingsTo d xs).getLast? with
  | none =>
    rw [List.getLast?_eq_none_iff.mp hlast]
    decide
  | some x =>
    have hne : settingsTo d xs ≠ [] := List.ne_nil_of_mem (List.mem_of_getLast? hlast)
    rw [Option.map_some, Option.some_or, List.isEmpty_eq_false_iff.mpr hne]
    decide

/-! The commands. -/

theorem interspersed_addStandard (p : OptionParser) :
    (addStandard p).interspersedArgs = p.interspersedArgs := by
  unfold addStandard
  dsimp only
  split
  · split <;> rfl
  · split <;> rfl

/-- What the parser makes of a command line that has the name of the command in front. -/
theorem parseArgs_named {res : Values × List Str} (hinter : p.interspersedArgs = true)
    (name : Str) (args : List Str) :
    parseArgs reads p (crossOut name :: args) = .ok res ↔
      ∃ items, Spells (addStandard p) args items ∧ Passes reads items ∧
        res = (outcome (addStandard p) (settings items), crossOut name :: words items) := by
  have hinter' : (addStandard p).interspersedArgs = true := by
    rw [interspersed_addStandard, hinter]
  have hspells := fun items => @spells_word (addStandard p) args items _
    (isWord_crossOut name) hinter'
  constructor
  · intro hparse
    obtain ⟨items, hspell, hpass, hres⟩ := spelled_of_parseArgs hparse
    obtain ⟨items', rfl, hspell'⟩ := (hspells items).mp hspell
    exact ⟨items', hspell', passes_word.mp hpass, hres⟩
  · intro ⟨items, hspell, hpass, hres⟩
    rw [parseArgs_spelled ((hspells _).mpr ⟨items, rfl, hspell⟩) (passes_word.mpr hpass), hres]
    rfl

theorem init_named {α : Type} {f : Values × List Str → α} {r : α}
    (hinter : p.interspersedArgs = true) (name : Str) (args : List Str) :
    initCallback (fun argv => (parseArgs reads p argv).map f) (name :: args) = .ok r ↔
      ∃ items, Spells (addStandard p) args items ∧ Passes reads items ∧
        r = f (outcome (addStandard p) (settings items), crossOut name :: words items) := by
  have hcall : initCallback (fun argv => (parseArgs reads p argv).map f) (name :: args) =
      (parseArgs reads p (crossOut name :: args)).map f := rfl
  rw [hcall]
  constructor
  · intro h
    cases hparse : parseArgs reads p (crossOut name :: args) with
    | error e =>
      rw [hparse] at h
      nomatch h
    | ok res =>
      obtain ⟨items, hspell, hpass, hres⟩ := (parseArgs_named hinter name args).mp hparse
      rw [hparse] at h
      cases h
      exact ⟨items, hspell, hpass, congrArg f hres⟩
  · intro ⟨items, hspell, hpass, hr⟩
    rw [(parseArgs_named hinter name args).mpr ⟨items, hspell, hpass, rfl⟩, hr]
    rfl

theorem initWith_named {α : Type} {next : Values → List Str → Except Stop α} {r : α}
    (hinter : p.interspersedArgs = true) (name : Str) (args : List Str) :
    initCallback (initWith reads p next) (name :: args) = .ok r ↔
      ∃ items, Spells (addStandard p) args items ∧ Passes reads items ∧
        next (outcome (addStandard p) (settings items)) (words items) = .ok r := by
  have hcall : initCallback (initWith reads p next) (name :: args) =
      initWith reads p next (crossOut name :: args) := rfl
  rw [hcall]
  unfold initWith
  constructor
  · intro h
    cases hparse : parseArgs reads p (crossOut name :: args) with
    | error e =>
      rw [hparse] at h
      cases h
    | ok res =>
      obtain ⟨items, hspell, hpass, hres⟩ := (parseArgs_named hinter name args).mp hparse
      rw [hparse, hres] at h
      exact ⟨items, hspell, hpass, h⟩
  · intro ⟨items, hspell, hpass, hnext⟩
    rw [(parseArgs_named hinter name args).mpr ⟨items, hspell, hpass, rfl⟩]
    exact hnext

/-! The key lists. -/

/-- Each word is read on its own, to its own list, and `stdin` at most once. -/
def Loads (keys : KeyReader) (args : List Str) (lists : List (List Hash160)) : Prop :=
  List.Forall₂ (fun arg hs => keys.load [] arg = .ok hs) args lists ∧ args.count stdIn ≤ 1

variable {keys : KeyReader} {lists : List (List Hash160)} {result loaded : List Hash160}

theorem load_append (keys : KeyReader) (result : List Hash160) (arg : Str) :
    keys.load result arg = (keys.load [] arg).map fun hs => result ++ hs :=
  KeyList.loadKeyList_append keys.sha256 keys.coin keys.buf keys.h160 keys.stdin keys.fopen result
    arg

/-- The loop adds the lists of the words; a word that is `stdIn` leaves no room for another. -/
theorem loadKeyLists_ok_iff (keys : KeyReader) (closed : Bool) (result : List Hash160)
    (args : List Str) : loadKeyLists keys closed result args = .ok loaded ↔
      ∃ lists, List.Forall₂ (fun arg hs => keys.load [] arg = .ok hs) args lists ∧
        args.count stdIn + closed.toNat ≤ 1 ∧ loaded = result ++ lists.flatten := by
  induction args generalizing closed result with
  | nil =>
    have hroom : ([] : List Str).count stdIn + closed.toNat ≤ 1 := by cases closed <;> decide
    constructor
    · intro h
      cases h
      exact ⟨[], List.Forall₂.nil, hroom, by simp⟩
    · intro ⟨lists, hload, _, hloaded⟩
      cases hload
      rw [hloaded, List.flatten_nil, List.append_nil]
      rfl
  | cons arg args ih =>
    -- the words behind this one find `stdin` closed if it was, or if this one closes it
    have hroom : (arg :: args).count stdIn + closed.toNat ≤ 1 ↔
        ¬(closed = true ∧ arg = stdIn) ∧
          args.count stdIn + (closed || decide (arg = stdIn)).toNat ≤ 1 := by
      rw [List.count_cons]
      by_cases harg : arg = stdIn
      · cases closed <;> simp [harg]
      · cases closed <;> simp [harg]
    unfold loadKeyLists
    by_cases hclosed : closed = true ∧ arg = stdIn
    · rw [if_pos hclosed]
      constructor
      · intro h
        cases h
      · intro ⟨lists, _, hcount, _⟩
        exact absurd hclosed (hroom.mp hcount).1
    · rw [if_neg hclosed, load_append]
      cases hload : keys.load [] arg with
      | error stop =>
        constructor
        · intro h
          cases h
        · intro ⟨lists, hlists, _⟩
          cases hlists with
          | cons hfirst _ =>
            rw [hload] at hfirst
            cases hfirst
      | ok hs =>
        refine (ih _ (result ++ hs)).trans ?_
        constructor
        · intro ⟨lists, hlists, hcount, hloaded⟩
          refine ⟨hs :: lists, List.Forall₂.cons hload hlists, hroom.mpr ⟨hclosed, hcount⟩, ?_⟩
          rw [hloaded, List.flatten_cons, List.append_assoc]
        · intro ⟨lists, hlists, hcount, hloaded⟩
          cases hlists with
          | @cons _ hs' _ lists hfirst hlists =>
            rw [hload] at hfirst
            cases hfirst
            refine ⟨lists, hlists, (hroom.mp hcount).2, ?_⟩
            rw [hloaded, List.flatten_cons, List.append_assoc]

theorem loadKeyLists_iff : loadKeyLists keys false [] args = .ok loaded ↔
    ∃ lists, Loads keys args lists ∧ loaded = lists.flatten := by
  refine (loadKeyLists_ok_iff keys false [] args).trans (exists_congr fun lists => ?_)
  rw [Bool.toNat_false, Nat.add_zero, List.nil_append, Loads, and_assoc]

/-- Whichever way its options are spelled and mixed with its arguments, allBalances works with
the numbers given last, with the flags given at all, with its defaults for the others, and with
the hashes its arguments load, in order; and it works only where each argument loads. -/
theorem allBalances_init_iff (reads : Streams) (keys : KeyReader) (name : Str) (args : List Str)
    (cfg : AllBalances.Settings) :
    initCallback (AllBalances.init reads keys) (name :: args) = .ok cfg ↔
      ∃ items lists, Spells (addStandard AllBalances.parser) args items ∧ Passes reads items ∧
        Loads keys (words items) lists ∧
        cfg = { cutoffBlock := lastNumber (ascii "atBlock") (-1) (settings items)
                showAddr := lastNumber (ascii "withAddr") 500 (settings items)
                detailed := isGiven (ascii "detailed") (settings items)
                limit := lastNumber (ascii "limit") (-1) (settings items)
                csv := isGiven (ascii "csv") (settings items)
                restricts := lists.flatten } := by
  have hatBlock : IsNumber (addStandard AllBalances.parser) (ascii "atBlock") (-1) := by decide
  have hwithAddr : IsNumber (addStandard AllBalances.parser) (ascii "withAddr") 500 := by decide
  have hlimit : IsNumber (addStandard AllBalances.parser) (ascii "limit") (-1) := by decide
  have hdetailed : IsFlag (addStandard AllBalances.parser) (ascii "detailed") := by decide
  have hcsv : IsFlag (addStandard AllBalances.parser) (ascii "csv") := by decide
  refine (initWith_named rfl name args).trans (exists_congr fun items => ?_)
  rw [exists_and_left]
  refine and_congr_right fun hspell => ?_
  rw [exists_and_left]
  refine and_congr_right fun hpass => ?_
  have hmem := hspell.mem_options
  rw [asInt64_outcome hatBlock (by decide) (by decide) hmem hpass,
    asInt64_outcome hwithAddr (by decide) (by decide) hmem hpass,
    asInt64_outcome hlimit (by decide) (by decide) hmem hpass,
    asBool_outcome hdetailed hmem, asBool_outcome hcsv hmem]
  constructor
  · intro h
    cases hload : loadKeyLists keys false [] (words items) with
    | error stop =>
      rw [hload] at h
      cases h
    | ok loaded =>
      rw [hload] at h
      cases h
      obtain ⟨lists, hlists, hloaded⟩ := loadKeyLists_iff.mp hload
      exact ⟨lists, hlists, by rw [hloaded]⟩
  · intro ⟨lists, hlists, hcfg⟩
    rw [loadKeyLists_iff.mpr ⟨lists, hlists, rfl⟩, hcfg]
    rfl

theorem sqldump_init_iff (reads : Streams) (name : Str) (args : List Str) (cutoffBlock : Int) :
    initCallback (SQLDump.init reads) (name :: args) = .ok cutoffBlock ↔
      ∃ items, Spells (addStandard SQLDump.parser) args items ∧ Passes reads items ∧
        cutoffBlock = lastNumber (ascii "atBlock") (-1) (settings items) := by
  have hatBlock : IsNumber (addStandard SQLDump.parser) (ascii "atBlock") (-1) := by decide
  refine (init_named rfl name args).trans (exists_congr fun items => ?_)
  refine and_congr_right fun hspell => and_congr_right fun hpass => ?_
  rw [asInt64_outcome hatBlock (by decide) (by decide) hspell.mem_options hpass]

/-- The hashes the words load; where they load none, those of the interesting address. -/
theorem rootHashes_ok_iff {hashes : List Hash160} :
    Transactions.rootHashes keys args = .ok hashes ↔
      ∃ lists, Loads keys args lists ∧
        ((lists.flatten ≠ [] ∧ hashes = lists.flatten) ∨
          (lists.flatten = [] ∧
            ∃ addr, getInterestingAddr keys.coin = some addr ∧ keys.load [] addr = .ok hashes)) := by
  unfold Transactions.rootHashes
  constructor
  · intro h
    cases hload : loadKeyLists keys false [] args with
    | error stop =>
      rw [hload] at h
      cases h
    | ok loaded =>
      obtain ⟨lists, hlists, hloaded⟩ := loadKeyLists_iff.mp hload
      rw [hload] at h
      cases loaded with
      | cons hash loaded =>
        cases h
        exact ⟨lists, hlists, Or.inl ⟨by rw [← hloaded]; exact List.cons_ne_nil _ _, hloaded⟩⟩
      | nil =>
        refine ⟨lists, hlists, Or.inr ⟨hloaded.symm, ?_⟩⟩
        dsimp only at h
        cases haddr : getInterestingAddr keys.coin with
        | none =>
          rw [haddr] at h
          cases h
        | some addr =>
          rw [haddr] at h
          cases hdefault : keys.load [] addr with
          | error stop =>
            dsimp only at h
            rw [hdefault] at h
            cases h
          | ok found =>
            dsimp only at h
            rw [hdefault] at h
            cases h
            exact ⟨addr, rfl, hdefault⟩
  · intro ⟨lists, hlists, hcases⟩
    rw [loadKeyLists_iff.mpr ⟨lists, hlists, rfl⟩]
    cases hcases with
    | inl hsome =>
      obtain ⟨hne, hhashes⟩ := hsome
      cases hflat : lists.flatten with
      | nil => exact absurd hflat hne
      | cons hash loaded => rw [hhashes, hflat]
    | inr hnone =>
      obtain ⟨hflat, addr, haddr, hdefault⟩ := hnone
      rw [hflat]
      dsimp only
      rw [haddr]
      dsimp only
      rw [hdefault]
      rfl

theorem transactions_init_iff (reads : Streams) (keys : KeyReader) (name : Str) (args : List Str)
    (r : Bool × List Hash160) :
    initCallback (Transactions.init reads keys) (name :: args) = .ok r ↔
      ∃ items, Spells (addStandard Transactions.parser) args items ∧ Passes reads items ∧
        r.1 = isGiven (ascii "csv") (settings items) ∧
        Transactions.rootHashes keys (words items) = .ok r.2 := by
  have hcsv : IsFlag (addStandard Transactions.parser) (ascii "csv") := by decide
  refine (initWith_named rfl name args).trans (exists_congr fun items => ?_)
  refine and_congr_right fun hspell => and_congr_right fun _ => ?_
  rw [asBool_outcome hcsv hspell.mem_options]
  cases Transactions.rootHashes keys (words items) with
  | error stop =>
    constructor
    · intro h
      cases h
    · intro h
      cases h.2
  | ok hashes =>
    constructor
    · intro h
      cases h
      exact ⟨rfl, rfl⟩
    · intro ⟨hcsv, hhashes⟩
      cases hhashes
      rw [← hcsv]
      rfl

theorem rewards_init_iff (reads : Streams) (name : Str) (args : List Str) (fullDump : Bool) :
    initCallback (Rewards.init reads) (name :: args) = .ok fullDump ↔
      ∃ items, Spells (addStandard Rewards.parser) args items ∧ Passes reads items ∧
        fullDump = isGiven (ascii "full") (settings items) := by
  have hfull : IsFlag (addStandard Rewards.parser) (ascii "full") := by decide
  refine (init_named rfl name args).trans (exists_congr fun items => ?_)
  refine and_congr_right fun hspell => and_congr_right fun _ => ?_
  rw [asBool_outcome hfull hspell.mem_options]

end Blockparser.Optparse
