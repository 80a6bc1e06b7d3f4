import Blockparser.BaseReward
import Blockparser.Runs

/-! The end of a transaction, as dumpTX and rawdump read it again, and as parseTX has it. -/
namespace Blockparser.TransactionTail
open Bytes Trace MemoryManager Blockparser.Parser Cursor Replay Runs
open Transaction (mintTx bitcoinEnv)
open BaseReward (View)

/-- Where parseTX skips the lock time. -/
def lockTimeAt (coin : Coin) (m : Memory) (p : Ptr) : Ptr := outputsNext m (txOutputs coin m p)

/-- The two memories have the same bytes from `p` up to `q`. -/
def AgreeOn (p q : Ptr) (m m' : Memory) : Prop := ∀ a, p ≤ a → a < q → m' a = m a

variable {env : Env} {need : Bool} {m : Memory} {p q : Ptr} {x x' : Blockparser.Parser.State}

/-- The calls of parseTX<false>. -/
theorem parseTX_calls (hrun : parseTX env false m p x = .ok q x') :
    q = txNext env.coin m p ∧ ∃ w ∈ Protocol.txWords env.coin env.gNeedUpstream m p,
      x'.calls = x.calls ++ w := by
  have hwords := @Protocol.parseTX_words env x.nbDone m p x rfl
  rw [hrun] at hwords
  exact ⟨hwords.1, hwords.2.2⟩

/-- What a traversal that ends has come to. -/
def parsed : EStateM.Result Fault Blockparser.Parser.State Ptr → Option (Ptr × Blockparser.Parser.State)
  | .ok q x => some (q, x)
  | .error _ _ => none

theorem parsed_eq {r : EStateM.Result Fault Blockparser.Parser.State Ptr}
    (h : parsed r = some (q, x)) : r = .ok q x := by
  cases r with
  | ok =>
    cases h
    rfl
  | error => cases h

section Size
open BaseReward.DumpTX

/-- The size and the lock time of the line of endTX. -/
def endLine (s : BaseReward.DumpTX.State) : Option (Int × Nat) :=
  match s.lines.getLast? with
  | some (.endTX _ _ byteSize lockTime _ _ _) => some (byteSize, lockTime)
  | _ => none

/-- endTX reads nothing but the transaction. -/
def ReadsInside (view : View) (txMap : List Hash256) (p q : Ptr) (s : BaseReward.DumpTX.State) :
    Prop :=
  ∀ data, AgreeOn p q view.data data →
    endTX { view with data := data } txMap s q = endTX view txMap s q

/-- What endTX prints at `q` is the size and the lock time of the transaction from `p` to `q`,
and it reads nothing outside of it. -/
structure EndMatches (coin : Coin) (view : View) (txMap : List Hash256) (p q : Ptr)
    (s : BaseReward.DumpTX.State) : Prop where
  byteSize : (endLine (endTX view txMap s q)).map Prod.fst = some (q - p)
  lockTime : (endLine (endTX view txMap s q)).map Prod.snd =
    some (load view.data (lockTimeAt coin view.data p) 4)
  inside : ReadsInside view txMap p q s

variable {view : View} {txMap : List Hash256}

theorem onCall_keeps (view : View) (txMap : List Hash256) {c : Call} (hc : isBody c = true)
    (s : BaseReward.DumpTX.State) :
    (onCall view txMap s c).dump = s.dump ∧ (onCall view txMap s c).txStart = s.txStart := by
  cases c with
  | startInput p =>
    dsimp only [onCall, startInput]
    split
    · split <;> exact ⟨rfl, rfl⟩
    · exact ⟨rfl, rfl⟩
  | edge =>
    dsimp only [onCall]
    split <;> exact ⟨rfl, rfl⟩
  | startOutput =>
    dsimp only [onCall]
    split <;> exact ⟨rfl, rfl⟩
  | endOutput =>
    dsimp only [onCall]
    split <;> exact ⟨rfl, rfl⟩
  | _ => first | exact ⟨rfl, rfl⟩ | cases hc

theorem foldl_keeps (view : View) (txMap : List Hash256) {mid : List Call}
    (hmid : ∀ c ∈ mid, isBody c = true) (s : BaseReward.DumpTX.State) :
    (mid.foldl (onCall view txMap) s).dump = s.dump ∧
      (mid.foldl (onCall view txMap) s).txStart = s.txStart := by
  have hkeeps : ∀ c ∈ mid, ∀ s, (onCall view txMap s c).dump = s.dump ∧
      (onCall view txMap s c).txStart = s.txStart := fun c hc => onCall_keeps view txMap (hmid c hc)
  constructor
  · exact Segments.foldl_kept State.dump (fun c hc s => (hkeeps c hc s).1) s
  · exact Segments.foldl_kept State.txStart (fun c hc s => (hkeeps c hc s).2) s

theorem endLine_endTX {s : BaseReward.DumpTX.State} (hdump : s.dump = true) (q : Ptr) :
    endLine (endTX view txMap s q) = some (q + 4 - s.txStart, load view.data q 4) := by
  simp [endTX, hdump, endLine, State.print]

theorem more_than_size (p q : Int) : q + 4 - p ≠ q - p := by omega

/-- The size that is printed is always four too large. -/
theorem not_endMatches {coin : Coin} {s : BaseReward.DumpTX.State} (hdump : s.dump = true)
    (hstart : s.txStart = p) : ¬EndMatches coin view txMap p q s := by
  intro hmatches
  have hprinted := hmatches.byteSize
  rw [endLine_endTX hdump, hstart] at hprinted
  have hsize : q + 4 - p = q - p := Option.some.inj hprinted
  exact more_than_size p q hsize

/-- The byte at `q` is read. -/
theorem not_readsInside {s : BaseReward.DumpTX.State} (hdump : s.dump = true) :
    ¬ReadsInside view txMap p q s := by
  intro hinside
  let m' := Function.update view.data q (view.data q + 1)
  have hagree : AgreeOn p q view.data m' := fun a _ ha => Function.update_of_ne (Int.ne_of_lt ha) ..
  have hsame := congrArg endLine (hinside _ hagree)
  rw [endLine_endTX hdump, endLine_endTX hdump] at hsame
  have hload : load m' q 4 = load view.data q 4 :=
    congrArg Prod.snd (Option.some.inj hsame)
  have hfirst : m' q = view.data q + 1 := Function.update_self ..
  have hlt := (view.data q).toNat_lt
  rw [load_succ m' q 3, load_succ view.data q 3, hfirst, UInt8.toNat_add, UInt8.toNat_one] at hload
  omega

/-- Whatever transaction parseTX parses and dumpTX dumps: the size that is printed is that of
the transaction and four more bytes, and the lock time is read from the four bytes behind the
transaction. -/
theorem endTX_matches_never (env : Env) (view : View) (p q : Ptr) (x x' : Blockparser.Parser.State)
    (hrun : parseTX env false view.data p x = .ok q x') (txMap : List Hash256)
    (s : BaseReward.DumpTX.State) :
    ∃ h mid, x'.calls = x.calls ++ (.startTX p h :: (mid ++ [.endTX q])) ∧
      let s' := (Call.startTX p h :: mid).foldl (onCall view txMap) s
      h.value.any (· ∈ txMap) = true →
        ¬EndMatches env.coin view txMap p q s' ∧ ¬ReadsInside view txMap p q s' ∧
          endLine (endTX view txMap s' q) = some (q - p + 4, load view.data q 4) := by
  obtain ⟨hq, w, hw, hcalls⟩ := parseTX_calls hrun
  obtain ⟨h, mid, rfl, hmid⟩ := txWords_shape hw
  refine ⟨h, mid, by rw [hcalls, hq], ?_⟩
  intro s' hasked
  have hstart : (startTX view txMap s p h).dump = true ∧ (startTX view txMap s p h).txStart = p := by
    simp [startTX, hasked, State.print]
  have hkeeps := foldl_keeps view txMap hmid (startTX view txMap s p h)
  have hdump : s'.dump = true := hkeeps.1.trans hstart.1
  have hp : s'.txStart = p := hkeeps.2.trans hstart.2
  refine ⟨not_endMatches hdump hp, not_readsInside hdump, ?_⟩
  rw [endLine_endTX hdump, hp, add_sub_right_comm]

/-- A transaction and nothing but zeros behind it. -/
def aloneView (coin : Coin) (t : Format.Tx) : View :=
  { BaseReward.mintView 1 with data := ofList (t.encode coin) fun _ => 0 }

theorem endTX_matches_never_mintTx : ∃ x',
    parseTX bitcoinEnv false (aloneView .bitcoin mintTx).data 0 .start = .ok 20 x' ∧
      ∃ mid, x'.calls = .startTX 0 ⟨some ⟨1, 0⟩, some nullHash⟩ :: (mid ++ [.endTX 20]) ∧
        ¬EndMatches .bitcoin (aloneView .bitcoin mintTx) [nullHash] 0 20
          ((Call.startTX 0 ⟨some ⟨1, 0⟩, some nullHash⟩ :: mid).foldl
            (onCall (aloneView .bitcoin mintTx) [nullHash]) BaseReward.DumpTX.start) := by
  have hparsed : (parsed (parseTX bitcoinEnv false (aloneView .bitcoin mintTx).data 0 .start)).map
      (fun r => (r.1, r.2.calls[0]?)) = some (20, some (.startTX 0 ⟨some ⟨1, 0⟩, some nullHash⟩)) := by
    decide +kernel
  obtain ⟨⟨q, x'⟩, hx, hvalues⟩ := Option.map_eq_some_iff.mp hparsed
  simp only [Prod.mk.injEq] at hvalues
  obtain ⟨rfl, hfirst⟩ := hvalues
  have hrun := parsed_eq hx
  obtain ⟨h, mid, hcalls, hnever⟩ := endTX_matches_never bitcoinEnv (aloneView .bitcoin mintTx) 0 20
    .start x' hrun [nullHash] BaseReward.DumpTX.start
  rw [hcalls] at hfirst
  cases hfirst
  exact ⟨x', hrun, mid, hcalls, (hnever (by decide)).1⟩

/-- parseTX takes the 20 bytes of `mintTx`, and dumpTX prints a size of 24. -/
theorem endTX_size_mintTx : ∃ x',
    parseTX bitcoinEnv false (aloneView .bitcoin mintTx).data 0 .start = .ok 20 x' ∧
      endLine (x'.calls.foldl (onCall (aloneView .bitcoin mintTx) [nullHash])
        BaseReward.DumpTX.start) = some (24, 0) := by
  have hall : (parsed (parseTX bitcoinEnv false (aloneView .bitcoin mintTx).data 0 .start)).map
      (fun r => (r.1, endLine (r.2.calls.foldl (onCall (aloneView .bitcoin mintTx) [nullHash])
        BaseReward.DumpTX.start))) = some (20, some (24, 0)) := by
    decide +kernel
  obtain ⟨⟨q, x'⟩, hx, hvalues⟩ := Option.map_eq_some_iff.mp hall
  simp only [Prod.mk.injEq] at hvalues
  obtain ⟨rfl, hline⟩ := hvalues
  exact ⟨x', parsed_eq hx, hline⟩

end Size

/-- Some bytes, each with where it is. -/
def bytesAt (m : Memory) (p : Ptr) (n : Nat) : List (Ptr × UInt8) :=
  (List.range n).map fun (i : Nat) => (p + i, m (p + i))

/-- The comment of a CLAM transaction, as the commands print it. -/
structure Comment where
  heading : String
  bytes : List (Ptr × UInt8)
deriving DecidableEq

/-- What rawdump and dumpTX keep for the comments of a CLAM build. -/
structure Comments where
  txVersion : Nat
  printed : List Comment

namespace Comments
variable (heading : String) (m : Memory)

def startTX (s : Comments) (p : Ptr) : Comments := { s with txVersion := load m p 4 }

def endOutputs (s : Comments) (p : Ptr) : Comments :=
  if 1 < s.txVersion then
    let strCLAMSpeechLen := loadVarInt m p
    { s with
      printed := s.printed ++ [⟨heading, bytesAt m strCLAMSpeechLen.2 strCLAMSpeechLen.1⟩] }
  else s

def onCall (s : Comments) : Call → Comments
  | .startTX p _ => startTX m s p
  | .endOutputs p => endOutputs heading m s p
  | _ => s

end Comments

def RawDump.onCall : Memory → Comments → Call → Comments := Comments.onCall "txComment = '"

/-- Whether the transaction is dumped makes no difference. -/
def DumpTX.onCall : Memory → Comments → Call → Comments := Comments.onCall "comment = '"

/-- The bytes parseTX skips as the comment of the transaction from `p` to `q`. -/
def speech (m : Memory) (p q : Ptr) : List (Ptr × UInt8) :=
  let start := (loadVarInt m (lockTimeAt .clam m p + 4)).2
  bytesAt m start (q - start).toNat

/-- Neither the bytes of the lock time nor those behind it say that there is a comment. -/
def NoComment (m : Memory) (p : Ptr) : Prop :=
  (loadVarInt m (lockTimeAt .clam m p)).1 = 0 ∧ (loadVarInt m (lockTimeAt .clam m p + 4)).1 = 0

theorem bytesAt_inj {a b : Ptr} {n k : Nat} (h : bytesAt m a n = bytesAt m b k) :
    n = k ∧ (0 < n → a = b) := by
  have hlen := congrArg List.length h
  simp only [bytesAt, List.length_map, List.length_range] at hlen
  refine ⟨hlen, fun hn => ?_⟩
  have hfirst := congrArg (·[0]?) h
  simp only [bytesAt, List.getElem?_map, List.getElem?_range hn,
    List.getElem?_range (hlen ▸ hn : 0 < k), Option.map_some, Option.some.injEq,
    Prod.mk.injEq] at hfirst
  simpa using hfirst.1

/-- Two lengths four bytes apart with the same bytes behind them are 0. -/
theorem same_window {r : Int} (hlen : (loadVarInt m r).1 = (loadVarInt m (r + 4)).1)
    (hwhere : (loadVarInt m r).2 = (loadVarInt m (r + 4)).2) : (loadVarInt m r).1 = 0 := by
  have hfour : load m (r + 1) 4 = load m (r + 1) 3 + 16777216 * (m (r + 4)).toNat := by
    have hadd := load_add m (r + 1) 3 1
    have hlast : r + 1 + ((3 : Nat) : Int) = r + 4 := by omega
    rw [hlast, load_one] at hadd
    simpa using hadd
  have height : load m (r + 1) 8 = load m (r + 1) 4 + 4294967296 * load m (r + 4 + 1) 4 := by
    have hadd := load_add m (r + 1) 4 4
    have hlast : r + 1 + ((4 : Nat) : Int) = r + 4 + 1 := by omega
    rw [hlast] at hadd
    simpa using hadd
  change @Eq Int _ _ at hwhere
  unfold loadVarInt at hlen hwhere ⊢
  dsimp only at hlen hwhere ⊢
  -- the last bytes of a length of 4 or 8 bytes are the other length
  split_ifs at hlen hwhere ⊢ <;> dsimp only at hlen hwhere ⊢ <;> omega

theorem Comments.onCall_ofInput {heading : String} {c : Call} (hc : isOfInput c = true)
    (s : Comments) : Comments.onCall heading m s c = s := by
  cases c <;> first | rfl | cases hc

theorem Comments.onCall_ofOutput {heading : String} {c : Call} (hc : isOfOutput c = true)
    (s : Comments) : Comments.onCall heading m s c = s := by
  cases c <;> first | rfl | cases hc

/-- What is printed in a transaction. -/
theorem comments_foldl {heading : String} {w : List Call}
    (hw : w ∈ Protocol.txWords .clam need m p) (hversion : 1 < load m p 4) (s : Comments) :
    (w.foldl (Comments.onCall heading m) s).printed = s.printed ++ [⟨heading,
      bytesAt m (loadVarInt m (lockTimeAt .clam m p)).2 (loadVarInt m (lockTimeAt .clam m p)).1⟩] := by
  obtain ⟨h, ins, outs, rfl, hins, houts⟩ := txWords_parts hw
  have hin : ∀ s, ins.foldl (Comments.onCall heading m) s = s :=
    Segments.foldl_ignored fun c hc =>
      Comments.onCall_ofInput (inputs_letters need m _ _ _ ins hins c hc)
  have hout : ∀ s, outs.foldl (Comments.onCall heading m) s = s :=
    Segments.foldl_ignored fun c hc =>
      Comments.onCall_ofOutput (outputs_letters m _ _ _ outs houts c hc)
  simp only [List.foldl_cons, List.foldl_append, hin, hout, List.foldl_nil, Comments.onCall]
  rw [Comments.endOutputs, if_pos (show 1 < (Comments.startTX m s p).txVersion from hversion)]
  rfl

theorem speech_eq (hversion : 1 < load m p 4) : speech m p (txNext .clam m p) =
    bytesAt m (loadVarInt m (lockTimeAt .clam m p + 4)).2 (loadVarInt m (lockTimeAt .clam m p + 4)).1 := by
  have hend : txNext .clam m p = (loadVarInt m (lockTimeAt .clam m p + 4)).2 +
      (loadVarInt m (lockTimeAt .clam m p + 4)).1 := by
    rw [txNext, afterOutputs, if_pos ⟨rfl, hversion⟩]
    rfl
  rw [speech, hend]
  simp

/-- The bytes at the lock time are those of the comment only if there are none. -/
theorem bytesAt_speech : bytesAt m (loadVarInt m (lockTimeAt .clam m p)).2
      (loadVarInt m (lockTimeAt .clam m p)).1 =
    bytesAt m (loadVarInt m (lockTimeAt .clam m p + 4)).2
      (loadVarInt m (lockTimeAt .clam m p + 4)).1 ↔ NoComment m p := by
  constructor
  · intro h
    obtain ⟨hlen, hwhere⟩ := bytesAt_inj h
    by_cases hnone : (loadVarInt m (lockTimeAt .clam m p)).1 = 0
    · exact ⟨hnone, hlen ▸ hnone⟩
    · exact absurd (same_window hlen (hwhere (Nat.pos_of_ne_zero hnone))) hnone
  · intro h
    rw [h.1, h.2]
    rfl

/-- Whatever CLAM transaction with a comment field parseTX parses: rawdump and dumpTX print
one comment for it, and it is the one that parseTX skips if and only if there is none, and
the bytes of the lock time say so too. -/
theorem comments_match_iff (env : Env) (hcoin : env.coin = .clam) (m : Memory) (p q : Ptr)
    (x x' : Blockparser.Parser.State) (hrun : parseTX env false m p x = .ok q x')
    (hversion : 1 < load m p 4) (s : Comments) :
    ∃ w, x'.calls = x.calls ++ w ∧
      ((w.foldl (RawDump.onCall m) s).printed = s.printed ++ [⟨"txComment = '", speech m p q⟩] ↔
        NoComment m p) ∧
      ((w.foldl (DumpTX.onCall m) s).printed = s.printed ++ [⟨"comment = '", speech m p q⟩] ↔
        NoComment m p) := by
  obtain ⟨hq, w, hw, hcalls⟩ := parseTX_calls hrun
  rw [hcoin] at hq hw
  have hone : ∀ heading, (w.foldl (Comments.onCall heading m) s).printed =
      s.printed ++ [⟨heading, speech m p q⟩] ↔ NoComment m p := by
    intro heading
    rw [comments_foldl hw hversion s, hq, speech_eq hversion, ← bytesAt_speech]
    simp
  exact ⟨w, hcalls, hone _, hone _⟩

def clamEnv : Env := { bitcoinEnv with coin := .clam }

theorem hi_lt : ([0x68, 0x69] : List UInt8).length < 2 ^ 64 := by decide

def silentTx : Format.Tx := { mintTx with version := 2 }

def hiTx : Format.Tx := { silentTx with
  speech := [0x68, 0x69]
  speech_lt := hi_lt }

def clamMemory (t : Format.Tx) : Memory := ofList (t.encode .clam) fun _ => 0

theorem comments_match_iff_silent : ∃ q x',
    parseTX clamEnv false (clamMemory silentTx) 0 .start = .ok q x' ∧
      ∃ w, x'.calls = w ∧ (w.foldl (RawDump.onCall (clamMemory silentTx)) ⟨0, []⟩).printed =
        [⟨"txComment = '", speech (clamMemory silentTx) 0 q⟩] := by
  have hparsed : (parsed (parseTX clamEnv false (clamMemory silentTx) 0 .start)).isSome = true := by
    decide +kernel
  obtain ⟨⟨q, x'⟩, hx⟩ := Option.isSome_iff_exists.mp hparsed
  have hrun := parsed_eq hx
  obtain ⟨w, hcalls, hraw, -⟩ := comments_match_iff clamEnv rfl (clamMemory silentTx) 0 q
    .start x' hrun (by decide +kernel) ⟨0, []⟩
  exact ⟨q, x', hrun, w, hcalls, hraw.mpr (by unfold NoComment; decide +kernel)⟩

/-- A comment of two bytes, and a lock time of 0: nothing is printed. -/
theorem comments_hi : ∃ q x',
    parseTX clamEnv false (clamMemory hiTx) 0 .start = .ok q x' ∧
      (speech (clamMemory hiTx) 0 q).map Prod.snd = [0x68, 0x69] ∧
      (x'.calls.foldl (RawDump.onCall (clamMemory hiTx)) ⟨0, []⟩).printed =
        [⟨"txComment = '", []⟩] ∧
      (x'.calls.foldl (DumpTX.onCall (clamMemory hiTx)) ⟨0, []⟩).printed =
        [⟨"comment = '", []⟩] := by
  have hall : (parsed (parseTX clamEnv false (clamMemory hiTx) 0 .start)).map
      (fun r => ((speech (clamMemory hiTx) 0 r.1).map Prod.snd,
        (r.2.calls.foldl (RawDump.onCall (clamMemory hiTx)) ⟨0, []⟩).printed,
        (r.2.calls.foldl (DumpTX.onCall (clamMemory hiTx)) ⟨0, []⟩).printed)) =
      some ([0x68, 0x69], [⟨"txComment = '", []⟩], [⟨"comment = '", []⟩]) := by
    decide +kernel
  obtain ⟨⟨q, x'⟩, hx, hvalues⟩ := Option.map_eq_some_iff.mp hall
  simp only [Prod.mk.injEq] at hvalues
  exact ⟨q, x', parsed_eq hx, hvalues⟩

end Blockparser.TransactionTail
