import Blockparser.Decimal

/-! The option parser of the commands. Arguments wait in a queue; an option takes its value from
the argument it stands in or from the next one, and what is left of a group of short options goes
back to the front. -/
namespace Blockparser.Optparse
open Hex

abbrev Str := List UInt8

/-- The actions process_opt tells apart. A callback is null, so its action does nothing. -/
inductive Action
  | store | storeConst | storeTrue | storeFalse | append | appendConst | count | help | version
  | callback
deriving DecidableEq

/-- The types check_type tells apart: "int" and "long", "float" and "double" are one. -/
inductive OptType
  | string | int | float | choice | complex
deriving DecidableEq

/-- class Option. -/
structure Opt where
  shortOpts : List Str
  longOpts : List Str
  action : Action
  type : OptType
  dest : Str
  default : Str
  nargs : Nat
  const : Str
  choices : List Str
deriving DecidableEq

def Opt.construct : Opt := ⟨[], [], .store, .string, [], [], 1, [], []⟩

def Opt.setAction (o : Opt) (a : Action) : Opt :=
  let o := { o with action := a }
  match a with
  | .storeConst | .storeTrue | .storeFalse | .appendConst | .count | .help | .version =>
    { o with nargs := 0 }
  | _ => o

structure Values where
  map : Str → Option Str
  appendMap : Str → List Str
  userSet : Str → Bool

def Values.construct : Values := ⟨fun _ => none, fun _ => [], fun _ => false⟩

/-- What `operator[]` finds. -/
def Values.at (v : Values) (d : Str) : Str := (v.map d).getD []

def Values.isSet (v : Values) (d : Str) : Bool := (v.map d).isSome

def Values.set (v : Values) (d val : Str) : Values :=
  { v with map := Function.update v.map d (some val) }

def Values.push (v : Values) (d val : Str) : Values :=
  { v with appendMap := Function.update v.appendMap d (v.appendMap d ++ [val]) }

def Values.setByUser (v : Values) (d : Str) : Values :=
  { v with userSet := Function.update v.userSet d true }

/-- A std::map by its sorted pairs: `m[k] = b`. -/
def mapInsert {β : Type} (k : Str) (b : β) : List (Str × β) → List (Str × β)
  | [] => [(k, b)]
  | e :: m =>
    if k = e.1 then (k, b) :: m
    else if k < e.1 then (k, b) :: e :: m
    else e :: mapInsert k b m

structure OptionGroup where
  opts : List Opt
  defaults : List (Str × Str)

structure OptionParser where
  version : Str
  addHelpOption : Bool
  addVersionOption : Bool
  interspersedArgs : Bool
  opts : List Opt
  optmapS : List (Str × Opt)
  optmapL : List (Str × Opt)
  defaults : List (Str × Str)
  groups : List OptionGroup

def OptionParser.construct : OptionParser := ⟨[], true, true, true, [], [], [], [], []⟩

/-- str_replace for one character. -/
def replaceChar (a b : UInt8) (s : Str) : Str := s.map fun c => if c = a then b else c

/-- The names of a new option: those of each kind, and where its values go. -/
def nameOption (v : List Str) : Opt :=
  let o := v.foldl (fun (o : Opt) it =>
    if it.take 2 = ascii "--" then
      let s := it.drop 2
      { o with
        dest := if o.dest = [] then replaceChar 0x2D 0x5F s else o.dest
        longOpts := o.longOpts ++ [s] }
    else { o with shortOpts := o.shortOpts ++ [(it.drop 1).take 1] }) Opt.construct
  if o.dest = [] then { o with dest := (o.shortOpts.find? fun s => s ≠ []).getD [] } else o

/-- add_option and the calls chained to it. -/
def OptionParser.addOption (p : OptionParser) (v : List Str) (chained : Opt → Opt) :
    OptionParser :=
  let option := chained (nameOption v)
  { p with
    opts := p.opts ++ [option]
    optmapS := option.shortOpts.foldl (fun m s => mapInsert s option m) p.optmapS
    optmapL := option.longOpts.foldl (fun m s => mapInsert s option m) p.optmapL }

/-- How a run ends early: with a message and exit(2), or with exit(0). -/
inductive Exit
  | error (msg : Str)
  | help
  | version
deriving DecidableEq

/-- What `istringstream(val) >> t` finds of the types the model does not read itself. -/
structure Streams where
  readsDouble : Str → Bool
  readsComplex : Str → Bool

def isspace (c : UInt8) : Bool := c = 0x20 ∨ (0x09 ≤ c ∧ c ≤ 0x0D)

/-- `istringstream(s) >> t` for a long: the value of t, and whether it was read. -/
def readLong (s : Str) : Int × Bool :=
  let s := s.dropWhile isspace
  let negative := s.head? = some 0x2D
  let s := if negative ∨ s.head? = some 0x2B then s.drop 1 else s
  let digits := s.takeWhile fun c => decide (Decimal.isDigit c)
  if digits = [] then (0, false)
  else
    let t : Int := if negative then -Decimal.value digits else Decimal.value digits
    if t < -2 ^ 63 then (-2 ^ 63, false)
    else if 2 ^ 63 ≤ t then (2 ^ 63 - 1, false)
    else (t, true)

/-- `ss << i`. -/
def printInt (i : Int) : Str :=
  if i = 0 then ascii "0"
  else if i < 0 then ascii "-" ++ Decimal.digits i.natAbs
  else Decimal.digits i.natAbs

/-- `i + 1` for every long but the largest, where the source overflows. -/
def strInc (s : Str) : Str := printInt ((readLong (if s = [] then ascii "0" else s)).1 + 1)

def quoted (s : Str) : Str := ascii "'" ++ s ++ ascii "'"

def strJoin (sep : Str) (l : List Str) : Str := sep.intercalate l

variable (reads : Streams)

/-- The message about a value of the wrong type; empty if it is right. -/
def Opt.checkType (o : Opt) (opt val : Str) : Str :=
  let err what := ascii "option " ++ opt ++ ascii what ++ ascii ": " ++ quoted val
  match o.type with
  | .string => []
  | .int => if (readLong val).2 then [] else err ": invalid integer value"
  | .float => if reads.readsDouble val then [] else err ": invalid floating-point value"
  | .choice =>
    if val ∈ o.choices then []
    else err ": invalid choice" ++ ascii " (choose from " ++
      strJoin (ascii ", ") (o.choices.map quoted) ++ ascii ")"
  | .complex => if reads.readsComplex val then [] else err ": invalid complex value"

def processOpt (o : Opt) (opt value : Str) (values : Values) : Except Exit Values :=
  match o.action with
  | .store =>
    let err := o.checkType reads opt value
    if err ≠ [] then .error (.error err)
    else .ok ((values.set o.dest value).setByUser o.dest)
  | .storeConst => .ok ((values.set o.dest o.const).setByUser o.dest)
  | .storeTrue => .ok ((values.set o.dest (ascii "1")).setByUser o.dest)
  | .storeFalse => .ok ((values.set o.dest (ascii "0")).setByUser o.dest)
  | .append =>
    let err := o.checkType reads opt value
    if err ≠ [] then .error (.error err)
    else .ok (((values.set o.dest value).push o.dest value).setByUser o.dest)
  | .appendConst => .ok (((values.set o.dest o.const).push o.dest o.const).setByUser o.dest)
  | .count => .ok ((values.set o.dest (strInc (values.at o.dest))).setByUser o.dest)
  | .help => .error .help
  | .version => .error .version
  | .callback => .ok values

variable (p : OptionParser)

def lookupShortOpt (opt : Str) : Except Exit Opt :=
  match p.optmapS.find? fun e => e.1 = opt with
  | none => .error (.error (ascii "no such option: -" ++ opt))
  | some e => .ok e.2

def lookupLongOpt (opt : Str) : Except Exit Opt :=
  match p.optmapL.filter fun e => e.1.take opt.length = opt with
  | [] => .error (.error (ascii "no such option: --" ++ opt))
  | [e] => .ok e.2
  | matching => .error (.error (ascii "ambiguous option: --" ++ opt ++ ascii " (" ++
      strJoin (ascii ", ") (matching.map Prod.fst) ++ ascii "?)"))

structure State where
  values : Values
  remaining : List Str
  leftover : List Str

def State.process (s : State) (o : Opt) (opt value : Str) : Except Exit State :=
  (processOpt reads o opt value s.values).map fun values => { s with values }

/-- `arg` is the front of the queue, `opt` its second character. -/
def handleShortOpt (opt arg : Str) (s : State) : Except Exit State :=
  let s := { s with remaining := s.remaining.tail }
  match lookupShortOpt p opt with
  | .error e => .error e
  | .ok option =>
    if option.nargs = 1 then
      let value := arg.drop 2
      if value = [] then
        match s.remaining with
        | [] => .error (.error (ascii "-" ++ opt ++ ascii " option requires an argument"))
        | value :: remaining => { s with remaining }.process reads option (ascii "-" ++ opt) value
      else s.process reads option (ascii "-" ++ opt) value
    else
      let remaining :=
        if 2 < arg.length then (ascii "-" ++ arg.drop 2) :: s.remaining else s.remaining
      { s with remaining }.process reads option (ascii "-" ++ opt) []

/-- The value of a long option, from its equals sign on or from the next argument where there is
one, and the arguments left. -/
def longValue (option : Opt) (delim : Str) (remaining : List Str) : Str × List Str :=
  if option.nargs = 1 ∧ delim = [] then (remaining.headD [], remaining.tail)
  else (delim.drop 1, remaining)

/-- `optstr` is the front of the queue without the dashes. -/
def handleLongOpt (optstr : Str) (s : State) : Except Exit State :=
  let s := { s with remaining := s.remaining.tail }
  let opt := optstr.takeWhile fun c => c ≠ 0x3D
  let delim := optstr.dropWhile fun c => c ≠ 0x3D
  match lookupLongOpt p opt with
  | .error e => .error e
  | .ok option =>
    let r := longValue option delim s.remaining
    if option.nargs = 1 ∧ r.1 = [] then
      .error (.error (ascii "--" ++ opt ++ ascii " option requires an argument"))
    else { s with remaining := r.2 }.process reads option (ascii "--" ++ opt) r.1

/-- One turn of the loop of parse_args; `true` if the loop goes on. -/
def turn (arg : Str) (s : State) : Except Exit (State × Bool) :=
  if arg = ascii "--" then .ok ({ s with remaining := s.remaining.tail }, false)
  else if arg.take 2 = ascii "--" then
    (handleLongOpt reads p (arg.drop 2) s).map fun s => (s, true)
  else if arg.take 1 = ascii "-" ∧ 1 < arg.length then
    (handleShortOpt reads p ((arg.drop 1).take 1) arg s).map fun s => (s, true)
  else
    .ok ({ s with remaining := s.remaining.tail, leftover := s.leftover ++ [arg] },
      p.interspersedArgs)

/-- The characters in the queue, and one more for each argument. -/
def weight (remaining : List Str) : Nat := (remaining.map fun arg => arg.length + 1).sum

theorem weight_tail_lt {arg : Str} {remaining : List Str} :
    weight remaining < weight (arg :: remaining) := by
  simp [weight]

theorem weight_tail_le (remaining : List Str) : weight remaining.tail ≤ weight remaining := by
  cases remaining with
  | nil => exact Nat.le_refl _
  | cons arg remaining => exact Nat.le_of_lt weight_tail_lt

theorem remaining_process {s s' : State} {o : Opt} {opt value : Str}
    (h : s.process reads o opt value = .ok s') :
    s'.remaining = s.remaining ∧ s'.leftover = s.leftover ∧
      processOpt reads o opt value s.values = .ok s'.values := by
  unfold State.process at h
  cases hp : processOpt reads o opt value s.values with
  | error e =>
    rw [hp] at h
    nomatch h
  | ok values =>
    rw [hp] at h
    cases h
    exact ⟨rfl, rfl, rfl⟩

theorem weight_shortOpt {opt arg : Str} {args : List Str} {s s' : State}
    (hs : s.remaining = arg :: args) (h : handleShortOpt reads p opt arg s = .ok s') :
    weight s'.remaining < weight s.remaining := by
  unfold handleShortOpt at h
  rw [hs] at h ⊢
  dsimp only [List.tail_cons] at h
  split at h
  · nomatch h
  · split at h
    · split at h
      · split at h
        · nomatch h
        · next value remaining =>
          rw [(remaining_process reads h).1]
          exact Nat.lt_trans weight_tail_lt weight_tail_lt
      · rw [(remaining_process reads h).1]
        exact weight_tail_lt
    · rw [(remaining_process reads h).1]
      split
      · next hlen =>
        have hdrop : (ascii "-" ++ arg.drop 2).length + 2 = arg.length + 1 := by
          rw [List.length_append, List.length_drop, show (ascii "-").length = 1 from rfl]
          omega
        simp only [weight, List.map_cons, List.sum_cons]
        omega
      · exact weight_tail_lt

theorem weight_longOpt {optstr arg : Str} {args : List Str} {s s' : State}
    (hs : s.remaining = arg :: args) (h : handleLongOpt reads p optstr s = .ok s') :
    weight s'.remaining < weight s.remaining := by
  unfold handleLongOpt at h
  rw [hs] at h ⊢
  dsimp only [List.tail_cons] at h
  split at h
  · nomatch h
  · next option _ =>
    have hle : ∀ delim, weight (longValue option delim args).2 ≤ weight args := by
      intro delim
      unfold longValue
      split
      · exact weight_tail_le args
      · exact Nat.le_refl _
    split at h
    · nomatch h
    · rw [(remaining_process reads h).1]
      exact Nat.lt_of_le_of_lt (hle _) weight_tail_lt

theorem turn_weight {arg : Str} {args : List Str} {s s' : State} {b : Bool}
    (hs : s.remaining = arg :: args) (h : turn reads p arg s = .ok (s', b)) :
    weight s'.remaining < weight s.remaining := by
  have hmap : ∀ x : Except Exit State, x.map (fun s => (s, true)) = .ok (s', b) → x = .ok s' := by
    intro x hx
    cases x with
    | error e => nomatch hx
    | ok a =>
      cases hx
      rfl
  unfold turn at h
  split at h
  · cases h
    rw [hs]
    exact weight_tail_lt
  · split at h
    · exact weight_longOpt reads p hs (hmap _ h)
    · split at h
      · exact weight_shortOpt reads p hs (hmap _ h)
      · cases h
        rw [hs]
        exact weight_tail_lt

/-- The first loop of parse_args. -/
def parseLoop (s : State) : Except Exit State :=
  match _hs : s.remaining with
  | [] => .ok s
  | arg :: _ =>
    match _h : turn reads p arg s with
    | .error e => .error e
    | .ok (s', false) => .ok s'
    | .ok (s', true) => parseLoop s'
termination_by weight s.remaining
decreasing_by exact turn_weight reads p _hs _h

def Values.default (values : Values) (d val : Str) : Values :=
  if values.isSet d then values else values.set d val

def setDefaults (defaults : List (Str × Str)) (opts : List Opt) (values : Values) : Values :=
  let values := defaults.foldl (fun values e => values.default e.1 e.2) values
  opts.foldl (fun values o => if o.default ≠ [] then values.default o.dest o.default else values)
    values

/-- The last option moves to the front. -/
def spliceLast (p : OptionParser) : OptionParser :=
  { p with opts := p.opts.getLast?.toList ++ p.opts.dropLast }

/-- The options parse_args adds by itself. -/
def addStandard : OptionParser :=
  let p :=
    if p.addVersionOption ∧ p.version ≠ [] then
      spliceLast (p.addOption [ascii "--version"] fun o => o.setAction .version)
    else p
  if p.addHelpOption then
    spliceLast (p.addOption [ascii "-h", ascii "--help"] fun o => o.setAction .help)
  else p

/-- parse_args with what stands in argv behind the program: the values, and the arguments that
are no options. -/
def parseArgs (args : List Str) : Except Exit (Values × List Str) :=
  let p := addStandard p
  match parseLoop reads p ⟨.construct, args, []⟩ with
  | .error e => .error e
  | .ok s =>
    let values := setDefaults p.defaults p.opts s.values
    let values := p.groups.foldl (fun values g => setDefaults g.defaults g.opts values) values
    .ok (values, s.leftover ++ s.remaining)

/-- `values.get(d).asInt64()`. -/
def Values.asInt64 (values : Values) (d : Str) : Int :=
  match values.map d with
  | none => 0
  | some str => if (readLong str).2 then (readLong str).1 else 0

/-- `values.get(d)` as a bool: a number is read, and no other than 0 and 1. -/
def Values.asBool (values : Values) (d : Str) : Bool :=
  match values.map d with
  | none => false
  | some str => decide (readLong str = (1, true))

end Blockparser.Optparse
