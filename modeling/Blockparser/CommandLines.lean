import Blockparser.Optparse
import Mathlib.Data.List.TakeWhile

/-! The command lines the option parser accepts, as a grammar, and what they mean: for each
destination what the settings made there leave, or its default. -/
namespace Blockparser.Optparse
open Hex

/-- An option as it was given: under which name, and with what value. -/
structure Setting where
  option : Opt
  opt : Str
  value : Str

inductive Item
  | setting (x : Setting)
  | word (arg : Str)

def Item.setting? : Item → Option Setting
  | .setting x => some x
  | .word _ => none

def Item.word? : Item → Option Str
  | .setting _ => none
  | .word arg => some arg

def settings (items : List Item) : List Setting := items.filterMap Item.setting?

def words (items : List Item) : List Str := items.filterMap Item.word?

/-- An argument that is no option: without a dash, or the dash alone. -/
def IsWord (arg : Str) : Prop := arg.head? = some 0x2D → arg = [0x2D]

instance (arg : Str) : Decidable (IsWord arg) := by unfold IsWord; infer_instance

/-- The option with the short name `c`. -/
def Short (p : OptionParser) (c : UInt8) (o : Opt) : Prop :=
  c ≠ 0x2D ∧ p.optmapS.find? (fun e => e.1 = [c]) = some ([c], o)

/-- The long names that `l` is the beginning of. -/
def matching (p : OptionParser) (l : Str) : List (Str × Opt) :=
  p.optmapL.filter fun e => e.1.take l.length = l

/-- The only option whose long name begins with `l`. -/
def Long (p : OptionParser) (l : Str) (o : Opt) : Prop :=
  0x3D ∉ l ∧ ∃ name, matching p l = [(name, o)]

/-- The ways to give an option in the first of some arguments; the value may take the second,
and of a group of short options the rest stays. -/
inductive Reads (p : OptionParser) : List Str → Setting → List Str → Prop
  | shortAttached {c : UInt8} {o : Opt} {value : Str} {args : List Str} : Short p c o →
      o.nargs = 1 → value ≠ [] → Reads p ((0x2D :: c :: value) :: args) ⟨o, [0x2D, c], value⟩ args
  | shortNext {c : UInt8} {o : Opt} {value : Str} {args : List Str} : Short p c o →
      o.nargs = 1 → Reads p ([0x2D, c] :: value :: args) ⟨o, [0x2D, c], value⟩ args
  | flag {c : UInt8} {o : Opt} {args : List Str} : Short p c o →
      o.nargs ≠ 1 → Reads p ([0x2D, c] :: args) ⟨o, [0x2D, c], []⟩ args
  | group {c : UInt8} {o : Opt} {others : Str} {args : List Str} : Short p c o → o.nargs ≠ 1 →
      others ≠ [] →
        Reads p ((0x2D :: c :: others) :: args) ⟨o, [0x2D, c], []⟩ ((0x2D :: others) :: args)
  | longAttached {l value : Str} {o : Opt} {args : List Str} : Long p l o →
      (o.nargs = 1 → value ≠ []) →
        Reads p ((0x2D :: 0x2D :: (l ++ 0x3D :: value)) :: args) ⟨o, 0x2D :: 0x2D :: l, value⟩ args
  | longNext {l value : Str} {o : Opt} {args : List Str} : Long p l o → l ≠ [] → o.nargs = 1 →
      value ≠ [] → Reads p ((0x2D :: 0x2D :: l) :: value :: args) ⟨o, 0x2D :: 0x2D :: l, value⟩ args
  | longFlag {l : Str} {o : Opt} {args : List Str} : Long p l o → l ≠ [] → o.nargs ≠ 1 →
      Reads p ((0x2D :: 0x2D :: l) :: args) ⟨o, 0x2D :: 0x2D :: l, []⟩ args

/-- The arguments up to some place are these items. -/
inductive Begins (p : OptionParser) : List Str → List Item → List Str → Prop
  | here {args : List Str} : Begins p args [] args
  | setting {args args' rest : List Str} {x : Setting} {items : List Item} : Reads p args x args' →
      Begins p args' items rest → Begins p args (.setting x :: items) rest
  | word {arg : Str} {args rest : List Str} {items : List Item} : IsWord arg →
      p.interspersedArgs = true → Begins p args items rest →
        Begins p (arg :: args) (.word arg :: items) rest

/-- Where the options end: at the end, at two dashes, or at a word if words end them. -/
inductive Ends (p : OptionParser) : List Str → List Str → Prop
  | nil : Ends p [] []
  | dashes {args : List Str} : Ends p ([0x2D, 0x2D] :: args) args
  | word {arg : Str} {args : List Str} : IsWord arg → p.interspersedArgs = false →
      Ends p (arg :: args) (arg :: args)

/-- The arguments are these items, whichever way they are spelled. -/
def Spells (p : OptionParser) (args : List Str) (items : List Item) : Prop :=
  ∃ before rest leftover, Begins p args before rest ∧ Ends p rest leftover ∧
    items = before ++ leftover.map Item.word

/-- How the parser stops at a setting. -/
def rejection (reads : Streams) (x : Setting) : Option Exit :=
  match x.option.action with
  | .store | .append =>
    let err := x.option.checkType reads x.opt x.value
    if err ≠ [] then some (.error err) else none
  | .help => some .help
  | .version => some .version
  | _ => none

/-- The arguments no option can be read from, and the settings the parser stops at. -/
inductive Fails (reads : Streams) (p : OptionParser) : List Str → Exit → Prop
  | rejected {args rest : List Str} {x : Setting} {e : Exit} : Reads p args x rest →
      rejection reads x = some e → Fails reads p args e
  | unknownShort {c : UInt8} {s : Str} {args : List Str} : c ≠ 0x2D →
      p.optmapS.find? (fun e => e.1 = [c]) = none →
        Fails reads p ((0x2D :: c :: s) :: args) (.error (ascii "no such option: -" ++ [c]))
  | shortAlone {c : UInt8} {o : Opt} : Short p c o → o.nargs = 1 →
      Fails reads p [[0x2D, c]] (.error (ascii "-" ++ [c] ++ ascii " option requires an argument"))
  | unknownLong {l eq : Str} {args : List Str} : l ++ eq ≠ [] → 0x3D ∉ l →
      (eq = [] ∨ eq.head? = some 0x3D) → matching p l = [] →
        Fails reads p ((0x2D :: 0x2D :: (l ++ eq)) :: args)
          (.error (ascii "no such option: --" ++ l))
  | ambiguous {l eq : Str} {args : List Str} : l ++ eq ≠ [] → 0x3D ∉ l →
      (eq = [] ∨ eq.head? = some 0x3D) → 2 ≤ (matching p l).length →
        Fails reads p ((0x2D :: 0x2D :: (l ++ eq)) :: args) (.error (ascii "ambiguous option: --" ++
          l ++ ascii " (" ++ strJoin (ascii ", ") ((matching p l).map Prod.fst) ++ ascii "?)"))
  | longAttachedEmpty {l : Str} {o : Opt} {args : List Str} : Long p l o → o.nargs = 1 →
      Fails reads p ((0x2D :: 0x2D :: (l ++ [0x3D])) :: args)
        (.error (ascii "--" ++ l ++ ascii " option requires an argument"))
  | longAlone {l : Str} {o : Opt} {args : List Str} : Long p l o → l ≠ [] → o.nargs = 1 →
      (args = [] ∨ args.head? = some []) → Fails reads p ((0x2D :: 0x2D :: l) :: args)
        (.error (ascii "--" ++ l ++ ascii " option requires an argument"))

/-- What a setting leaves where its destination had `old`. -/
def Setting.store (x : Setting) (old : Option Str) : Option Str :=
  match x.option.action with
  | .store | .append => some x.value
  | .storeConst | .appendConst => some x.option.const
  | .storeTrue => some (ascii "1")
  | .storeFalse => some (ascii "0")
  | .count => some (strInc (old.getD []))
  | .help | .version | .callback => old

def Setting.pushed (x : Setting) : List Str :=
  match x.option.action with
  | .append => [x.value]
  | .appendConst => [x.option.const]
  | _ => []

/-- The settings with this destination, in order. -/
def settingsTo (d : Str) (xs : List Setting) : List Setting := xs.filter fun x => x.option.dest = d

/-- The values after some settings: each destination by its own settings alone. -/
def valuesAfter (values : Values) (xs : List Setting) : Values where
  map d := (settingsTo d xs).foldl (fun old x => x.store old) (values.map d)
  appendMap d := values.appendMap d ++ (settingsTo d xs).flatMap Setting.pushed
  userSet d := values.userSet d || (settingsTo d xs).any fun x => x.option.action ≠ .callback

/-- Every default by its destination; the first counts. -/
def defaultsOf (p : OptionParser) : List (Str × Str) :=
  let ofOpts (opts : List Opt) :=
    (opts.filter fun o => o.default ≠ []).map fun o => (o.dest, o.default)
  p.defaults ++ ofOpts p.opts ++ p.groups.flatMap fun g => g.defaults ++ ofOpts g.opts

/-- What the settings mean: a destination none of them has keeps its default. -/
def outcome (p : OptionParser) (xs : List Setting) : Values :=
  let values := valuesAfter .construct xs
  { values with map := fun d => (values.map d).or ((defaultsOf p).lookup d) }

variable {reads : Streams} {p : OptionParser} {args rest : List Str} {arg : Str} {s : State}
  {values : Values} {x : Setting} {xs : List Setting} {items : List Item} {e : Exit}

/-! One setting. -/

theorem settingsTo_cons (d : Str) (x : Setting) (xs : List Setting) :
    settingsTo d (x :: xs) = settingsTo d [x] ++ settingsTo d xs := by
  unfold settingsTo
  rw [← List.filter_append]
  rfl

theorem valuesAfter_nil : valuesAfter values [] = values := by
  simp [valuesAfter, settingsTo]

theorem valuesAfter_cons :
    valuesAfter values (x :: xs) = valuesAfter (valuesAfter values [x]) xs := by
  unfold valuesAfter
  congr 1
  · funext d
    rw [settingsTo_cons, List.foldl_append]
  · funext d
    rw [settingsTo_cons, List.flatMap_append, List.append_assoc]
  · funext d
    rw [settingsTo_cons, List.any_append, Bool.or_assoc]

theorem settingsTo_one (d : Str) (x : Setting) :
    settingsTo d [x] = if x.option.dest = d then [x] else [] := by
  by_cases hd : x.option.dest = d <;> simp [settingsTo, hd]

/-- A setting changes its own destination only. -/
theorem valuesAfter_one {val : Str} (hstore : x.store (values.map x.option.dest) = some val)
    (hact : x.option.action ≠ .callback) : valuesAfter values [x] =
      ⟨Function.update values.map x.option.dest (some val),
        Function.update values.appendMap x.option.dest
          (values.appendMap x.option.dest ++ x.pushed),
        Function.update values.userSet x.option.dest true⟩ := by
  unfold valuesAfter
  simp only [settingsTo_one]
  congr 1
  · funext d
    by_cases hd : x.option.dest = d
    · subst hd
      simp [hstore]
    · rw [Function.update_of_ne (Ne.symm hd), if_neg hd]
      rfl
  · funext d
    by_cases hd : x.option.dest = d
    · subst hd
      simp
    · rw [Function.update_of_ne (Ne.symm hd), if_neg hd]
      simp
  · funext d
    by_cases hd : x.option.dest = d
    · subst hd
      simp [hact]
    · rw [Function.update_of_ne (Ne.symm hd), if_neg hd]
      simp

theorem set_eq {val : Str} (hstore : x.store (values.map x.option.dest) = some val)
    (hpush : x.pushed = []) (hact : x.option.action ≠ .callback) :
    (values.set x.option.dest val).setByUser x.option.dest = valuesAfter values [x] := by
  rw [valuesAfter_one hstore hact, hpush, List.append_nil, Function.update_eq_self]
  rfl

theorem push_eq {val : Str} (hstore : x.store (values.map x.option.dest) = some val)
    (hpush : x.pushed = [val]) (hact : x.option.action ≠ .callback) :
    ((values.set x.option.dest val).push x.option.dest val).setByUser x.option.dest =
      valuesAfter values [x] := by
  rw [valuesAfter_one hstore hact, hpush]
  rfl

theorem valuesAfter_callback (hact : x.option.action = .callback) :
    valuesAfter values [x] = values := by
  cases values
  unfold valuesAfter
  simp only [settingsTo_one]
  congr 1
  · funext d
    by_cases hd : x.option.dest = d <;> simp [hd, Setting.store, hact]
  · funext d
    by_cases hd : x.option.dest = d <;> simp [hd, Setting.pushed, hact]
  · funext d
    by_cases hd : x.option.dest = d <;> simp [hd, hact]

theorem processOpt_eq : processOpt reads x.option x.opt x.value values =
    match rejection reads x with
    | some e => .error e
    | none => .ok (valuesAfter values [x]) := by
  have hset : ∀ val : Str, x.store (values.map x.option.dest) = some val → x.pushed = [] →
      x.option.action ≠ .callback → _ := fun _ => set_eq
  have hpush : ∀ val : Str, x.store (values.map x.option.dest) = some val → x.pushed = [val] →
      x.option.action ≠ .callback → _ := fun _ => push_eq
  unfold Setting.store at hset hpush
  unfold Setting.pushed at hset hpush
  unfold processOpt rejection
  cases hact : x.option.action with
  | store =>
    by_cases herr : x.option.checkType reads x.opt x.value = []
    · simpa [herr] using hset x.value (by rw [hact]) (by rw [hact]) (by simp [hact])
    · simp [herr]
  | append =>
    by_cases herr : x.option.checkType reads x.opt x.value = []
    · simpa [herr] using hpush x.value (by rw [hact]) (by rw [hact]) (by simp [hact])
    · simp [herr]
  | storeConst =>
    exact congrArg Except.ok (hset _ (by rw [hact]) (by rw [hact]) (by simp [hact]))
  | storeTrue =>
    exact congrArg Except.ok (hset _ (by rw [hact]) (by rw [hact]) (by simp [hact]))
  | storeFalse =>
    exact congrArg Except.ok (hset _ (by rw [hact]) (by rw [hact]) (by simp [hact]))
  | appendConst =>
    exact congrArg Except.ok (hpush _ (by rw [hact]) (by rw [hact]) (by simp [hact]))
  | count =>
    exact congrArg Except.ok (hset _ (by rw [hact]; rfl) (by rw [hact]) (by simp [hact]))
  | help => rfl
  | version => rfl
  | callback =>
    exact congrArg Except.ok (valuesAfter_callback hact).symm

theorem process_eq : s.process reads x.option x.opt x.value =
    match rejection reads x with
    | some e => .error e
    | none => .ok { s with values := valuesAfter s.values [x] } := by
  unfold State.process
  rw [processOpt_eq]
  cases rejection reads x with
  | some e => rfl
  | none => rfl

/-! One turn of the loop. -/

theorem ascii_dash : ascii "-" = [0x2D] := by decide

theorem ascii_dashes : ascii "--" = [0x2D, 0x2D] := by decide

theorem lookupShortOpt_short {c : UInt8} {o : Opt} (h : Short p c o) :
    lookupShortOpt p [c] = .ok o := by
  rw [lookupShortOpt, h.2]

theorem turn_short {c : UInt8} {s' : Str} (hc : c ≠ 0x2D) :
    turn reads p (0x2D :: c :: s') s =
      (handleShortOpt reads p [c] (0x2D :: c :: s') s).map fun s => (s, true) := by
  unfold turn
  rw [ascii_dash, ascii_dashes, if_neg (by simp [hc]), if_neg (by simp [hc]), if_pos (by simp)]
  rfl

theorem turn_long {optstr : Str} (h : optstr ≠ []) :
    turn reads p (0x2D :: 0x2D :: optstr) s =
      (handleLongOpt reads p optstr s).map fun s => (s, true) := by
  unfold turn
  rw [ascii_dashes, if_neg (by simp [h]), if_pos (by simp)]
  rfl

theorem turn_word (h : IsWord arg) : turn reads p arg s =
    .ok ({ s with remaining := s.remaining.tail, leftover := s.leftover ++ [arg] },
      p.interspersedArgs) := by
  have hdash : ¬(arg.take 1 = [0x2D] ∧ 1 < arg.length) := by
    intro ⟨hhead, hlen⟩
    cases arg with
    | nil => nomatch hhead
    | cons c cs =>
      have hc : c = 0x2D := by simpa using hhead
      rw [h (by simp [hc])] at hlen
      exact absurd hlen (by decide)
  have hdashes : ∀ cs, arg ≠ 0x2D :: 0x2D :: cs := by
    intro cs hcs
    rw [hcs] at hdash
    exact hdash ⟨rfl, by simp⟩
  unfold turn
  rw [ascii_dash, ascii_dashes, if_neg (hdashes []), if_neg, if_neg hdash]
  intro htake
  have hsplit := List.take_append_drop 2 arg
  rw [htake] at hsplit
  exact hdashes _ hsplit.symm

theorem split_long {l eq : Str} (hl : 0x3D ∉ l) (heq : eq = [] ∨ eq.head? = some 0x3D) :
    (l ++ eq).takeWhile (fun c => decide (c ≠ 0x3D)) = l ∧
      (l ++ eq).dropWhile (fun c => decide (c ≠ 0x3D)) = eq := by
  have hpos : ∀ c ∈ l, decide (c ≠ (0x3D : UInt8)) = true := by
    intro c hc
    exact decide_eq_true fun h0 => hl (h0 ▸ hc)
  rw [List.takeWhile_append_of_pos hpos, List.dropWhile_append_of_pos hpos]
  cases eq with
  | nil => simp
  | cons c cs =>
    have hc : c = 0x3D := by simpa using heq
    simp [hc]

theorem lookupLongOpt_long {l : Str} {o : Opt} (h : Long p l o) : lookupLongOpt p l = .ok o := by
  obtain ⟨-, name, hname⟩ := h
  unfold matching at hname
  rw [lookupLongOpt, hname]

theorem longValue_attached (o : Opt) (value : Str) (args : List Str) :
    longValue o (0x3D :: value) args = (value, args) :=
  if_neg fun h => List.cons_ne_nil _ _ h.2

theorem longValue_next {o : Opt} (h : o.nargs = 1) (args : List Str) :
    longValue o [] args = (args.headD [], args.tail) := if_pos ⟨h, rfl⟩

theorem longValue_flag {o : Opt} (h : o.nargs ≠ 1) (args : List Str) :
    longValue o [] args = ([], args) := if_neg fun hn => h hn.1

/-- What handleLongOpt makes of a name and what follows it. -/
theorem handleLongOpt_long {l eq : Str} {o : Opt} (h : Long p l o)
    (heq : eq = [] ∨ eq.head? = some 0x3D) : handleLongOpt reads p (l ++ eq) s =
      if o.nargs = 1 ∧ (longValue o eq s.remaining.tail).1 = [] then
        .error (.error (ascii "--" ++ l ++ ascii " option requires an argument"))
      else { s with remaining := (longValue o eq s.remaining.tail).2 }.process reads o
        (ascii "--" ++ l) (longValue o eq s.remaining.tail).1 := by
  obtain ⟨htake, hdrop⟩ := split_long h.1 heq
  unfold handleLongOpt
  dsimp only
  rw [htake, hdrop, lookupLongOpt_long h]

theorem handleLongOpt_bare {l : Str} {o : Opt} (h : Long p l o) : handleLongOpt reads p l s =
      if o.nargs = 1 ∧ (longValue o [] s.remaining.tail).1 = [] then
        .error (.error (ascii "--" ++ l ++ ascii " option requires an argument"))
      else { s with remaining := (longValue o [] s.remaining.tail).2 }.process reads o
        (ascii "--" ++ l) (longValue o [] s.remaining.tail).1 := by
  rw [← handleLongOpt_long h (Or.inl rfl), List.append_nil]

/-- A setting is taken from the front of the queue. -/
theorem turn_reads (h : Reads p (arg :: args) x rest) (hs : s.remaining = arg :: args) :
    turn reads p arg s =
      ({ s with remaining := rest }.process reads x.option x.opt x.value).map fun s => (s, true) := by
  cases h with
  | shortAttached hshort hn hv =>
    rw [turn_short hshort.1]
    unfold handleShortOpt
    rw [lookupShortOpt_short hshort, hs]
    dsimp only [List.tail_cons]
    rw [if_pos hn, if_neg (by simpa using hv)]
    rfl
  | shortNext hshort hn =>
    rw [turn_short hshort.1]
    unfold handleShortOpt
    rw [lookupShortOpt_short hshort, hs]
    dsimp only [List.tail_cons]
    rw [if_pos hn, if_pos (by rfl)]
    rfl
  | flag hshort hn =>
    rw [turn_short hshort.1]
    unfold handleShortOpt
    rw [lookupShortOpt_short hshort, hs]
    dsimp only [List.tail_cons]
    rw [if_neg hn, if_neg (by simp)]
    rfl
  | group hshort hn hothers =>
    rw [turn_short hshort.1]
    unfold handleShortOpt
    rw [lookupShortOpt_short hshort, hs]
    dsimp only [List.tail_cons]
    have hlen := List.length_pos_of_ne_nil hothers
    rw [if_neg hn, if_pos (by simp only [List.length_cons]; omega)]
    rfl
  | longAttached hlong hv =>
    rw [turn_long (by simp), handleLongOpt_long hlong (Or.inr rfl), longValue_attached, hs,
      if_neg (fun h => hv h.1 h.2)]
    rfl
  | longNext hlong hl hn hv =>
    rw [turn_long hl, handleLongOpt_bare hlong, longValue_next hn, hs, if_neg (fun h => hv h.2)]
    rfl
  | longFlag hlong hl hn =>
    rw [turn_long hl, handleLongOpt_bare hlong, longValue_flag hn, hs, if_neg (fun h => hn h.1)]
    rfl

theorem turn_rejected (h : Reads p (arg :: args) x rest) (hs : s.remaining = arg :: args)
    (he : rejection reads x = some e) : turn reads p arg s = .error e := by
  rw [turn_reads h hs, process_eq, he]
  rfl

/-- The loop goes on behind a setting it accepts. -/
theorem turn_accepted (h : Reads p (arg :: args) x rest) (hs : s.remaining = arg :: args)
    (hx : rejection reads x = none) : turn reads p arg s =
      .ok ({ s with values := valuesAfter s.values [x], remaining := rest }, true) := by
  rw [turn_reads h hs, process_eq, hx]
  rfl

theorem handleLongOpt_error {l eq : Str} (hl : 0x3D ∉ l) (heq : eq = [] ∨ eq.head? = some 0x3D)
    (he : lookupLongOpt p l = .error e) : handleLongOpt reads p (l ++ eq) s = .error e := by
  obtain ⟨htake, hdrop⟩ := split_long hl heq
  unfold handleLongOpt
  dsimp only
  rw [htake, he]

theorem lookupLongOpt_unknown {l : Str} (h : matching p l = []) :
    lookupLongOpt p l = .error (.error (ascii "no such option: --" ++ l)) := by
  unfold matching at h
  rw [lookupLongOpt, h]

theorem lookupLongOpt_ambiguous {l : Str} (h : 2 ≤ (matching p l).length) :
    lookupLongOpt p l = .error (.error (ascii "ambiguous option: --" ++ l ++ ascii " (" ++
      strJoin (ascii ", ") ((matching p l).map Prod.fst) ++ ascii "?)")) := by
  unfold matching at h ⊢
  rw [lookupLongOpt]
  split
  · next heq =>
    rw [heq] at h
    exact absurd h (by simp)
  · next heq =>
    rw [heq] at h
    exact absurd h (by simp)
  · rfl

theorem turn_fails (h : Fails reads p (arg :: args) e) (hs : s.remaining = arg :: args) :
    turn reads p arg s = .error e := by
  cases h with
  | rejected hreads he => exact turn_rejected hreads hs he
  | unknownShort hc hnone =>
    rw [turn_short hc]
    unfold handleShortOpt lookupShortOpt
    rw [hnone]
    rfl
  | shortAlone hshort hn =>
    rw [turn_short hshort.1]
    unfold handleShortOpt
    rw [lookupShortOpt_short hshort, hs]
    dsimp only [List.tail_cons]
    rw [if_pos hn, if_pos (by rfl)]
    rfl
  | unknownLong hne hl heq hnone =>
    rw [turn_long hne, handleLongOpt_error hl heq (lookupLongOpt_unknown hnone)]
    rfl
  | ambiguous hne hl heq htwo =>
    rw [turn_long hne, handleLongOpt_error hl heq (lookupLongOpt_ambiguous htwo)]
    rfl
  | longAttachedEmpty hlong hn =>
    rw [turn_long (by simp), handleLongOpt_long hlong (Or.inr rfl), longValue_attached,
      if_pos ⟨hn, rfl⟩]
    rfl
  | longAlone hlong hl hn hargs =>
    have hempty : args.headD [] = [] := by
      cases hargs with
      | inl h => rw [h]; rfl
      | inr h => rw [List.headD_eq_head?_getD, h, Option.getD_some]
    rw [turn_long hl, handleLongOpt_bare hlong, longValue_next hn, hs, if_pos ⟨hn, hempty⟩]
    rfl

theorem short_cases {c : UInt8} (hc : c ≠ 0x2D) (s' : Str) (args : List Str) :
    (∃ x rest, Reads p ((0x2D :: c :: s') :: args) x rest) ∨
      ∃ e, Fails reads p ((0x2D :: c :: s') :: args) e := by
  cases hfind : p.optmapS.find? fun e => e.1 = [c] with
  | none => exact .inr ⟨_, .unknownShort hc hfind⟩
  | some entry =>
    have hname : entry.1 = [c] := by simpa using List.find?_some hfind
    have hshort : Short p c entry.2 := ⟨hc, by rw [hfind, ← hname]⟩
    by_cases hn : entry.2.nargs = 1
    · cases s' with
      | nil =>
        cases args with
        | nil => exact .inr ⟨_, .shortAlone hshort hn⟩
        | cons value args => exact .inl ⟨_, _, .shortNext hshort hn⟩
      | cons d s' => exact .inl ⟨_, _, .shortAttached hshort hn (List.cons_ne_nil d s')⟩
    · cases s' with
      | nil => exact .inl ⟨_, _, .flag hshort hn⟩
      | cons d s' => exact .inl ⟨_, _, .group hshort hn (List.cons_ne_nil d s')⟩

theorem long_cases {optstr : Str} (h : optstr ≠ []) (args : List Str) :
    (∃ x rest, Reads p ((0x2D :: 0x2D :: optstr) :: args) x rest) ∨
      ∃ e, Fails reads p ((0x2D :: 0x2D :: optstr) :: args) e := by
  obtain ⟨l, eq, rfl, hl, heq⟩ : ∃ l eq, optstr = l ++ eq ∧ 0x3D ∉ l ∧
      (eq = [] ∨ eq.head? = some 0x3D) := by
    refine ⟨optstr.takeWhile fun c => decide (c ≠ 0x3D),
      optstr.dropWhile fun c => decide (c ≠ 0x3D), List.takeWhile_append_dropWhile.symm, ?_, ?_⟩
    · intro hmem
      simpa using List.mem_takeWhile_imp hmem
    · have hhead := List.head?_dropWhile_not (fun c : UInt8 => decide (c ≠ 0x3D)) optstr
      cases hdrop : optstr.dropWhile fun c => decide (c ≠ 0x3D) with
      | nil => exact .inl rfl
      | cons c cs =>
        rw [hdrop] at hhead
        exact .inr (by simpa using hhead)
  cases hm : matching p l with
  | nil => exact .inr ⟨_, .unknownLong h hl heq hm⟩
  | cons entry others =>
    cases others with
    | cons entry' others =>
      exact .inr ⟨_, .ambiguous h hl heq (by rw [hm]; simp)⟩
    | nil =>
      have hlong : Long p l entry.2 := ⟨hl, entry.1, hm⟩
      cases eq with
      | nil =>
        rw [List.append_nil] at h ⊢
        by_cases hn : entry.2.nargs = 1
        · cases args with
          | nil => exact .inr ⟨_, .longAlone hlong h hn (.inl rfl)⟩
          | cons value args =>
            by_cases hv : value = []
            · exact .inr ⟨_, .longAlone hlong h hn (.inr (by rw [hv]; rfl))⟩
            · exact .inl ⟨_, _, .longNext hlong h hn hv⟩
        · exact .inl ⟨_, _, .longFlag hlong h hn⟩
      | cons c value =>
        have hc : c = 0x3D := by simpa using heq
        subst hc
        by_cases hv : entry.2.nargs = 1 ∧ value = []
        · rw [hv.2]
          exact .inr ⟨_, .longAttachedEmpty hlong hv.1⟩
        · exact .inl ⟨_, _, .longAttached hlong fun hn h0 => hv ⟨hn, h0⟩⟩

/-- What may stand at the front of the queue. -/
theorem front_cases (reads : Streams) (p : OptionParser) (arg : Str) (args : List Str) :
    arg = [0x2D, 0x2D] ∨ IsWord arg ∨ (∃ x rest, Reads p (arg :: args) x rest) ∨
      ∃ e, Fails reads p (arg :: args) e := by
  cases arg with
  | nil => exact .inr (.inl fun h => nomatch h)
  | cons c cs =>
    by_cases hc : c = 0x2D
    · subst hc
      cases cs with
      | nil => exact .inr (.inl fun _ => rfl)
      | cons c cs =>
        by_cases hc : c = 0x2D
        · subst hc
          by_cases hcs : cs = []
          · exact .inl (by rw [hcs])
          · exact .inr (.inr (long_cases hcs args))
        · exact .inr (.inr (short_cases hc cs args))
    · exact .inr (.inl fun h => absurd (by simpa using h) hc)

/-! The loop. -/

theorem parseLoop_cons (hs : s.remaining = arg :: args) : parseLoop reads p s =
    (turn reads p arg s).bind fun r => if r.2 then parseLoop reads p r.1 else .ok r.1 := by
  rw [parseLoop]
  split
  · next h =>
    rw [hs] at h
    cases h
  · next arg' args' h =>
    rw [hs] at h
    cases h
    split <;> simp_all [Except.bind]

theorem Reads.weight_lt (h : Reads p args x rest) : weight rest < weight args := by
  cases h with
  | shortAttached => exact weight_tail_lt
  | shortNext => exact Nat.lt_trans weight_tail_lt weight_tail_lt
  | flag => exact weight_tail_lt
  | group =>
    simp only [weight, List.map_cons, List.sum_cons, List.length_cons]
    omega
  | longAttached => exact weight_tail_lt
  | longNext => exact Nat.lt_trans weight_tail_lt weight_tail_lt
  | longFlag => exact weight_tail_lt

theorem Reads.cons (h : Reads p args x rest) : ∃ arg args', args = arg :: args' := by
  cases h <;> exact ⟨_, _, rfl⟩

/-- All settings among the items pass. -/
def Passes (reads : Streams) (items : List Item) : Prop :=
  ∀ x ∈ settings items, rejection reads x = none

theorem passes_setting : Passes reads (.setting x :: items) ↔
    rejection reads x = none ∧ Passes reads items := by
  simp [Passes, settings, Item.setting?]

theorem passes_word : Passes reads (.word arg :: items) ↔ Passes reads items := by
  simp [Passes, settings, Item.setting?]

/-- The loop comes to the end of the items it accepts. -/
theorem parseLoop_begins (h : Begins p args items rest) (hpass : Passes reads items)
    (values : Values) (leftover : List Str) :
    parseLoop reads p ⟨values, args, leftover⟩ =
      parseLoop reads p ⟨valuesAfter values (settings items), rest, leftover ++ words items⟩ := by
  induction h generalizing values leftover with
  | here => simp [settings, words, valuesAfter_nil]
  | setting hreads _ ih =>
    obtain ⟨hx, hpass'⟩ := passes_setting.mp hpass
    obtain ⟨arg, args', rfl⟩ := hreads.cons
    rw [parseLoop_cons rfl, turn_accepted hreads rfl hx]
    dsimp only [Except.bind]
    rw [if_pos rfl, ih hpass', ← valuesAfter_cons]
    rfl
  | word hword hinter _ ih =>
    rw [parseLoop_cons rfl, turn_word hword, hinter]
    dsimp only [List.tail_cons, Except.bind]
    rw [if_pos rfl, ih (passes_word.mp hpass), List.append_assoc]
    rfl

theorem parseLoop_ends (reads : Streams) {left : List Str} (h : Ends p rest left)
    (values : Values) (leftover : List Str) : ∃ s', parseLoop reads p ⟨values, rest, leftover⟩ = .ok s' ∧
      s'.values = values ∧ s'.leftover ++ s'.remaining = leftover ++ left := by
  cases h with
  | nil =>
    refine ⟨⟨values, [], leftover⟩, ?_, rfl, rfl⟩
    rw [parseLoop]
  | dashes =>
    refine ⟨⟨values, left, leftover⟩, ?_, rfl, rfl⟩
    rw [parseLoop_cons rfl, turn, ascii_dashes, if_pos rfl]
    rfl
  | @word arg args hword hinter =>
    refine ⟨⟨values, args, leftover ++ [arg]⟩, ?_, rfl, by simp⟩
    rw [parseLoop_cons rfl, turn_word hword, hinter]
    rfl

theorem parseLoop_fails (h : Fails reads p rest e) (values : Values) (leftover : List Str) :
    parseLoop reads p ⟨values, rest, leftover⟩ = .error e := by
  obtain ⟨arg, args, rfl⟩ : ∃ arg args, rest = arg :: args := by
    cases h with
    | rejected hreads => exact hreads.cons
    | _ => exact ⟨_, _, rfl⟩
  rw [parseLoop_cons rfl, turn_fails h rfl]
  rfl

/-- From every place the items can be read to the end, or to where they fail. -/
theorem exists_reading (reads : Streams) (p : OptionParser) (args : List Str) :
    ∃ items rest, Begins p args items rest ∧ Passes reads items ∧
      ((∃ left, Ends p rest left) ∨ ∃ e, Fails reads p rest e) := by
  induction hw : weight args using Nat.strong_induction_on generalizing args with
  | _ w ih =>
    have hnone : Passes reads [] := fun x hx => nomatch hx
    cases args with
    | nil => exact ⟨[], [], .here, hnone, .inl ⟨[], .nil⟩⟩
    | cons arg args =>
      obtain rfl | hword | ⟨x, rest, hreads⟩ | hfail := front_cases reads p arg args
      · exact ⟨[], _, .here, hnone, .inl ⟨_, .dashes⟩⟩
      · cases hinter : p.interspersedArgs with
        | false => exact ⟨[], _, .here, hnone, .inl ⟨_, .word hword hinter⟩⟩
        | true =>
          obtain ⟨items, rest, hbegin, hpass, hend⟩ := ih _ (hw ▸ weight_tail_lt) args rfl
          exact ⟨_, rest, .word hword hinter hbegin, passes_word.mpr hpass, hend⟩
      · cases he : rejection reads x with
        | some e => exact ⟨[], _, .here, hnone, .inr ⟨e, .rejected hreads he⟩⟩
        | none =>
          obtain ⟨items, rest', hbegin, hpass, hend⟩ := ih _ (hw ▸ hreads.weight_lt) rest rfl
          exact ⟨_, rest', .setting hreads hbegin, passes_setting.mpr ⟨he, hpass⟩, hend⟩
      · exact ⟨[], _, .here, hnone, .inr hfail⟩

/-! The defaults. -/

def fillIn (defaults : List (Str × Str)) (values : Values) : Values :=
  defaults.foldl (fun values e => values.default e.1 e.2) values

theorem fillIn_append (ds ds' : List (Str × Str)) (values : Values) :
    fillIn (ds ++ ds') values = fillIn ds' (fillIn ds values) := List.foldl_append

theorem lookup_of_ne {d : Str} {e : Str × Str} {defaults : List (Str × Str)} (h : d ≠ e.1) :
    (e :: defaults).lookup d = defaults.lookup d := by
  rw [List.lookup_cons, show (d == e.1) = false by simpa using h]

theorem fillIn_eq (defaults : List (Str × Str)) (values : Values) : fillIn defaults values =
    { values with map := fun d => (values.map d).or (defaults.lookup d) } := by
  induction defaults generalizing values with
  | nil => simp [fillIn]
  | cons e defaults ih =>
    have hstep : fillIn (e :: defaults) values = fillIn defaults (values.default e.1 e.2) := rfl
    rw [hstep, ih]
    unfold Values.default Values.isSet
    cases hv : values.map e.1 with
    | some val =>
      rw [if_pos (by rfl)]
      congr 1
      funext d
      by_cases hd : d = e.1
      · rw [hd, hv]
        rfl
      · rw [lookup_of_ne hd]
    | none =>
      rw [if_neg (by simp)]
      unfold Values.set
      congr 1
      funext d
      by_cases hd : d = e.1
      · rw [hd, hv, List.lookup_cons_self]
        dsimp only
        rw [Function.update_self]
        rfl
      · rw [lookup_of_ne hd]
        dsimp only
        rw [Function.update_of_ne hd]

theorem setDefaults_eq (defaults : List (Str × Str)) (opts : List Opt) (values : Values) :
    setDefaults defaults opts values = fillIn (defaults ++
      (opts.filter fun o => o.default ≠ []).map fun o => (o.dest, o.default)) values := by
  rw [fillIn_append, setDefaults]
  generalize hv : fillIn defaults values = values'
  unfold fillIn at hv
  rw [hv]
  clear hv
  induction opts generalizing values' with
  | nil => rfl
  | cons o opts ih =>
    by_cases ho : o.default ≠ []
    · rw [List.foldl_cons, if_pos ho, List.filter_cons_of_pos (by simpa using ho)]
      exact ih _
    · rw [List.foldl_cons, if_neg ho, List.filter_cons_of_neg (by simpa using ho)]
      exact ih _

theorem setDefaults_groups (groups : List OptionGroup) (values : Values) :
    groups.foldl (fun values g => setDefaults g.defaults g.opts values) values =
      fillIn (groups.flatMap fun g => g.defaults ++
        (g.opts.filter fun o => o.default ≠ []).map fun o => (o.dest, o.default)) values := by
  induction groups generalizing values with
  | nil => rfl
  | cons g groups ih =>
    rw [List.foldl_cons, ih, setDefaults_eq, List.flatMap_cons, ← fillIn_append]

theorem outcome_eq (p : OptionParser) (xs : List Setting) :
    p.groups.foldl (fun values g => setDefaults g.defaults g.opts values)
      (setDefaults p.defaults p.opts (valuesAfter .construct xs)) = outcome p xs := by
  rw [setDefaults_groups, setDefaults_eq, ← fillIn_append, fillIn_eq]
  rfl

theorem settings_words (left : List Str) : settings (left.map Item.word) = [] := by
  induction left with
  | nil => rfl
  | cons arg left ih => exact ih

theorem words_words (left : List Str) : words (left.map Item.word) = left := by
  induction left with
  | nil => rfl
  | cons arg left ih => exact congrArg (arg :: ·) ih

theorem settings_append (items items' : List Item) :
    settings (items ++ items') = settings items ++ settings items' := List.filterMap_append

theorem words_append (items items' : List Item) :
    words (items ++ items') = words items ++ words items' := List.filterMap_append

/-- A command line that is read to its end. -/
theorem parseArgs_reading {left : List Str} (hbegin : Begins (addStandard p) args items rest)
    (hpass : Passes reads items) (hend : Ends (addStandard p) rest left) :
    parseArgs reads p args = .ok (outcome (addStandard p) (settings items), words items ++ left) := by
  obtain ⟨s', hrun, hvalues, hleft⟩ := parseLoop_ends reads hend
    (valuesAfter .construct (settings items)) ([] ++ words items)
  unfold parseArgs
  dsimp only
  rw [parseLoop_begins hbegin hpass, hrun]
  dsimp only
  rw [hvalues, hleft, outcome_eq]
  rfl

theorem parseArgs_failing (hbegin : Begins (addStandard p) args items rest)
    (hpass : Passes reads items) (hfail : Fails reads (addStandard p) rest e) :
    parseArgs reads p args = .error e := by
  unfold parseArgs
  dsimp only
  rw [parseLoop_begins hbegin hpass, parseLoop_fails hfail]

theorem parseArgs_spelled (h : Spells (addStandard p) args items) (hpass : Passes reads items) :
    parseArgs reads p args = .ok (outcome (addStandard p) (settings items), words items) := by
  obtain ⟨before, rest, left, hbegin, hend, rfl⟩ := h
  have hbefore : Passes reads before := by
    unfold Passes at hpass
    rwa [settings_append, settings_words, List.append_nil] at hpass
  rw [parseArgs_reading hbegin hbefore hend, settings_append, settings_words, List.append_nil,
    words_append, words_words]

theorem spelled_of_parseArgs {r : Values × List Str} (h : parseArgs reads p args = .ok r) :
    ∃ items, Spells (addStandard p) args items ∧ Passes reads items ∧
      r = (outcome (addStandard p) (settings items), words items) := by
  obtain ⟨items, rest, hbegin, hpass, ⟨left, hend⟩ | ⟨e, hfail⟩⟩ :=
    exists_reading reads (addStandard p) args
  · have hspell : Spells (addStandard p) args (items ++ left.map Item.word) :=
      ⟨items, rest, left, hbegin, hend, rfl⟩
    have hpass' : Passes reads (items ++ left.map Item.word) := by
      unfold Passes
      rw [settings_append, settings_words, List.append_nil]
      exact hpass
    rw [parseArgs_spelled hspell hpass'] at h
    cases h
    exact ⟨_, hspell, hpass', rfl⟩
  · rw [parseArgs_failing hbegin hpass hfail] at h
    nomatch h

/-- The command lines that are accepted are the spellings of settings that pass and of words;
the values are what the settings mean, and the words are left over. -/
theorem parseArgs_ok_iff (reads : Streams) (p : OptionParser) (args : List Str) (values : Values)
    (leftover : List Str) :
    parseArgs reads p args = .ok (values, leftover) ↔
      ∃ items, Spells (addStandard p) args items ∧ Passes reads items ∧
        values = outcome (addStandard p) (settings items) ∧ leftover = words items := by
  constructor
  · intro h
    obtain ⟨items, hspell, hpass, hr⟩ := spelled_of_parseArgs h
    cases hr
    exact ⟨items, hspell, hpass, rfl, rfl⟩
  · intro ⟨items, hspell, hpass, hvalues, hleft⟩
    rw [parseArgs_spelled hspell hpass, hvalues, hleft]

/-- The command lines that are refused begin with items that pass, up to arguments that fail:
with the message about the first of them. -/
theorem parseArgs_error_iff (reads : Streams) (p : OptionParser) (args : List Str) (e : Exit) :
    parseArgs reads p args = .error e ↔
      ∃ items rest, Begins (addStandard p) args items rest ∧ Passes reads items ∧
        Fails reads (addStandard p) rest e := by
  constructor
  · intro h
    obtain ⟨items, rest, hbegin, hpass, ⟨left, hend⟩ | ⟨e', hfail⟩⟩ :=
      exists_reading reads (addStandard p) args
    · rw [parseArgs_reading hbegin hpass hend] at h
      nomatch h
    · rw [parseArgs_failing hbegin hpass hfail] at h
      cases h
      exact ⟨items, rest, hbegin, hpass, hfail⟩
  · intro ⟨items, rest, hbegin, hpass, hfail⟩
    exact parseArgs_failing hbegin hpass hfail

end Blockparser.Optparse
