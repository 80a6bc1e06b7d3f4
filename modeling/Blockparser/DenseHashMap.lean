import Blockparser.DenseResizing

/-! What a dense_hash_map holds is a finite map, whatever was done to it: searches end, no
assertion fails, and growing, shrinking and the marks of deleted keys do not show. -/
namespace Blockparser.DenseHashtable
open Probing

variable {K V : Type} {t : DenseHashtable K V} [DecidableEq K] {tr : Traits K} {m : K → Option V}

/-- What an operation makes of a table, with one element more at most. -/
structure Becomes (tr : Traits K) (t t' : DenseHashtable K V) (m : K → Option V) : Prop where
  valid : t'.Valid tr
  map : t'.Represents m
  emptyval : t'.emptyval = t.emptyval
  delkey : t'.delkey = t.delkey
  elements : t'.numElements ≤ t.numElements + 1
  exact : t.Exact → t'.Exact

theorem Kept.becomes {t' : DenseHashtable K V} (h : Kept tr t t') (hr : t.Represents m) :
    Becomes tr t t' m :=
  ⟨h.valid, h.map m hr, h.emptyval, h.delkey, Nat.le_succ_of_le h.elements, h.exact⟩

theorem Kept.then_becomes {t' t'' : DenseHashtable K V} (h : Kept tr t t')
    (h' : Becomes tr t' t'' m) : Becomes tr t t'' m :=
  ⟨h'.valid, h'.map, h'.emptyval.trans h.emptyval, h'.delkey.trans h.delkey,
    h'.elements.trans (Nat.add_le_add_right h.elements 1), fun hx => h'.exact (h.exact hx)⟩

omit [DecidableEq K] in
theorem Usable.of_eq {t' : DenseHashtable K V} {key : K} (hu : t.Usable key)
    (he : t'.emptyval = t.emptyval) (hd : t'.delkey = t.delkey) : t'.Usable key := by
  unfold Usable
  rw [he, hd]
  exact hu

/-- insert_at takes a free bucket or that of a deleted key. -/
theorem insertAt_spec {q : Nat} {key : K} {v : V} (hv : t.Valid tr) (hr : t.Represents m)
    (hq : q < t.bucketCount) (hvac : Vacant t.bucketCount tr.hash t.cell key q)
    (hnew : ∀ p < t.bucketCount, t.cell p ≠ .full key) (hu : t.Usable key)
    (hroom : 2 * (t.numElements + 1) ≤ t.bucketCount) (hmax : t.numElements < tr.maxSize) :
    ∃ t', t.insertAt tr (key, v) q = .ok t' ∧
      Becomes tr t t' (Function.update m key (some v)) ∧
      t'.cell q = .full key ∧ t'.bucket q = (key, v) ∧ t'.bucketCount = t.bucketCount := by
  have hold : ∀ key', t.cell q = .full key' → key' = key := by
    intro key' hc
    rcases hvac.open' with h | h <;> rw [h] at hc <;> nomatch hc
  have hnew' : ∀ p < t.bucketCount, p ≠ q → t.cell p ≠ .full key := fun p hp _ => hnew p hp
  have hsize : ¬ tr.maxSize ≤ t.size := by
    unfold size
    omega
  unfold insertAt
  rw [if_neg hsize, hv.checkDeleted, bind_ok_eq]
  split
  · next hd =>
    have hdel := (hv.testDeleted_iff hq).mp hd
    have htomb := (cell_tomb_iff hv.keys).mpr hdel
    have hpos : 0 < t.numDeleted := by
      rw [hv.deleted]
      exact List.countP_pos_iff.mpr ⟨t.bucket q, bucket_mem hq, by simpa using hdel⟩
    have hsome : t.delkey.isSome = true := by rw [hdel]; rfl
    rw [hsome, decide_eq_true hpos]
    exact ⟨t.withValue q (key, v) t.numElements (t.numDeleted - 1), rfl,
      ⟨hv.put hq hvac hnew hu (.inr ⟨htomb, rfl, rfl⟩), hr.put hq hnew' hold hu, rfl, rfl,
        Nat.le_succ _, fun hx => hx.put hq hu (.inr ⟨htomb, rfl, rfl⟩)⟩,
      cell_withValue_full hq hu, bucket_withValue hq, bucketCount_withValue⟩
  · next hd =>
    have hfree : t.cell q = .free := by
      rcases hvac.open' with h | h
      · exact h
      · exact absurd ((hv.testDeleted_iff hq).mpr ((cell_tomb_iff hv.keys).mp h)) hd
    exact ⟨t.withValue q (key, v) (t.numElements + 1) t.numDeleted, rfl,
      ⟨hv.put hq hvac hnew hu (.inl ⟨hfree, rfl, rfl, hroom⟩), hr.put hq hnew' hold hu, rfl, rfl,
        Nat.le_refl _, fun hx => hx.put hq hu (.inl ⟨hfree, rfl, rfl, hroom⟩)⟩,
      cell_withValue_full hq hu, bucket_withValue hq, bucketCount_withValue⟩

theorem checkKey_ok {key : K} (hu : t.Usable key) : t.checkKey tr key = .ok () := by
  unfold checkKey
  rw [decide_eq_true hu.1, check_true, bind_ok_eq, decide_eq_true hu.2]
  rfl

/-- insert gives a new key its value and leaves the value of an old one. -/
theorem insertNoresize_spec {key : K} {v : V} (hv : t.Valid tr) (hr : t.Represents m)
    (hu : t.Usable key) (hroom : 2 * (t.numElements + 1) ≤ t.bucketCount)
    (hmax : t.numElements < tr.maxSize) :
    ∃ p t', t.insertNoresize tr (key, v) = .ok ((p, (m key).isNone), t') ∧
      Becomes tr t t' (Function.update m key (some ((m key).getD v))) ∧
      p < t'.bucketCount ∧ t'.cell p = .full key ∧ (t'.bucket p).2 = (m key).getD v := by
  unfold insertNoresize
  rw [checkKey_ok hu, bind_ok_eq]
  rcases hv.findPosition_spec key with ⟨p, hp, hrun, hfull⟩ | ⟨q, hq, hrun, hvac, hnew⟩
  · rw [bind_ok hrun]
    have hm : m key = some (t.bucket p).2 := (hr key _).mpr ⟨p, hp, hfull, rfl⟩
    refine ⟨p, t, ?_, ?_, hp, hfull, ?_⟩
    · rw [hm]
      rfl
    · rw [hm, Option.getD_some, ← hm, Function.update_eq_self]
      exact (hv.kept t.considerShrink).becomes hr
    · rw [hm]
      rfl
  · rw [bind_ok hrun]
    have hm : m key = none := hr.eq_none hnew
    obtain ⟨t', hins, hbec, hfull, hb, hcount⟩ :=
      insertAt_spec (v := v) hv hr hq hvac hnew hu hroom hmax
    dsimp only
    rw [bind_ok hins, hm]
    exact ⟨q, t', rfl, hbec, hcount ▸ hq, hfull, congrArg Prod.snd hb⟩

theorem insert_spec {key : K} {v : V} (hv : t.Valid tr) (hr : t.Represents m)
    (hu : t.Usable key) (hsize : t.numElements + 1 < 2 ^ 61) (hmax : t.numElements < tr.maxSize) :
    ∃ p t', t.insert tr (key, v) = .ok ((p, (m key).isNone), t') ∧
      Becomes tr t t' (Function.update m key (some ((m key).getD v))) := by
  obtain ⟨b, t₁, hrun, hk, hroom, -⟩ := resizeDelta_spec 1 hv hr hsize
  obtain ⟨p, t', hins, hbec, -⟩ := insertNoresize_spec (v := v) hk.valid (hk.map m hr)
    (hu.of_eq hk.emptyval hk.delkey) hroom (Nat.lt_of_le_of_lt hk.elements hmax)
  unfold insert
  rw [bind_ok hrun]
  exact ⟨p, t', hins, hk.then_becomes hbec⟩

/-- find ends at the value of the key, or at end(). -/
theorem find_spec (hv : t.Valid tr) (hr : t.Represents m) (key : K) :
    ∃ r, t.find tr key = .ok r ∧ r.map (fun p => (t.bucket p).2) = m key ∧
      ∀ p, r = some p → p < t.bucketCount ∧ t.cell p = .full key := by
  unfold find
  split
  · next hzero =>
    have hnil : t.entries = [] := by
      have hle : t.entries.length ≤ t.size := Nat.le_sub_of_add_le hv.entries_le
      exact List.eq_nil_of_length_eq_zero (by omega)
    refine ⟨none, rfl, ?_, nofun⟩
    cases hm : m key with
    | none => rfl
    | some v =>
      have := (hv.entries_iff hr key v).mpr hm
      rw [hnil] at this
      nomatch this
  · rcases hv.findPosition_spec key with ⟨p, hp, hrun, hfull⟩ | ⟨q, hq, hrun, -, hnew⟩
    · rw [bind_ok hrun]
      refine ⟨some p, rfl, ((hr key _).mpr ⟨p, hp, hfull, rfl⟩).symm, ?_⟩
      intro p' h
      cases h
      exact ⟨hp, hfull⟩
    · rw [bind_ok hrun]
      exact ⟨none, rfl, (hr.eq_none hnew).symm, nofun⟩

variable [Inhabited V]

/-- operator[] refers to the value of the key, which is T() where there was none. -/
theorem findOrInsert_spec {key : K} (hv : t.Valid tr) (hr : t.Represents m)
    (hu : t.Usable key) (hsize : t.numElements + 1 < 2 ^ 61) (hmax : t.numElements < tr.maxSize) :
    ∃ p t', t.findOrInsert tr key = .ok (p, t') ∧
      Becomes tr t t' (Function.update m key (some ((m key).getD default))) ∧
      p < t'.bucketCount ∧ t'.cell p = .full key ∧ (t'.bucket p).2 = (m key).getD default := by
  unfold findOrInsert
  rw [checkKey_ok hu, bind_ok_eq]
  rcases hv.findPosition_spec key with ⟨p, hp, hrun, hfull⟩ | ⟨q, hq, hrun, hvac, hnew⟩
  · rw [bind_ok hrun]
    have hm : m key = some (t.bucket p).2 := (hr key _).mpr ⟨p, hp, hfull, rfl⟩
    refine ⟨p, t, rfl, ?_, hp, hfull, ?_⟩
    · rw [hm, Option.getD_some, ← hm, Function.update_eq_self]
      exact (hv.kept t.considerShrink).becomes hr
    · rw [hm]
      rfl
  · rw [bind_ok hrun]
    have hm : m key = none := hr.eq_none hnew
    obtain ⟨b, t₁, hres, hk, hroom, hsame⟩ := resizeDelta_spec 1 hv hr hsize
    have hu₁ := hu.of_eq hk.emptyval hk.delkey
    have hmax₁ := Nat.lt_of_le_of_lt hk.elements hmax
    dsimp only
    rw [bind_ok hres]
    cases b with
    | true =>
      obtain ⟨p, t', hins, hbec, hp⟩ :=
        insertNoresize_spec (v := default) hk.valid (hk.map m hr) hu₁ hroom hmax₁
      dsimp only
      rw [if_pos rfl, bind_ok hins]
      exact ⟨p, t', rfl, hk.then_becomes hbec, hp⟩
    | false =>
      -- the position found before is still that of the key
      obtain ⟨c, rfl⟩ := hsame rfl
      obtain ⟨t', hins, hbec, hfull, hb, hcount⟩ :=
        insertAt_spec (v := default) hk.valid (hk.map m hr) hq hvac hnew hu₁ hroom hmax₁
      dsimp only
      rw [if_neg (by nofun), bind_ok hins, hm]
      exact ⟨q, t', rfl, hk.then_becomes hbec, hcount ▸ hq, hfull, congrArg Prod.snd hb⟩

omit [Inhabited V] in
/-- An assignment through what operator[] refers to. -/
theorem assign_spec {p : Nat} {key : K} {v : V} (hv : t.Valid tr) (hr : t.Represents m)
    (hp : p < t.bucketCount) (hfull : t.cell p = .full key) :
    Becomes tr t (t.assign p v) (Function.update m key (some v)) := by
  obtain ⟨hu, hk⟩ := cell_full_iff.mp hfull
  have heq : t.assign p v = t.withValue p (key, v) t.numElements t.numDeleted := by
    unfold assign
    rw [hk]
    rfl
  rw [heq]
  refine ⟨hv.assign hp hfull, ?_, rfl, rfl, Nat.le_succ _, fun hx => hx.assign hp hfull⟩
  refine hr.put hp ?_ ?_ hu
  · intro q hq hqp hfull'
    exact hqp (hv.placed.unique q hq p hp key hfull' hfull)
  · intro key' hfull'
    rw [hfull] at hfull'
    cases hfull'
    rfl

omit [Inhabited V] in
/-- A key that is buried is in the map no more. -/
theorem Represents.bury {q e d : Nat} {key delkey : K} {v : V} (hv : t.Valid tr)
    (hr : t.Represents m) (hq : q < t.bucketCount) (hfull : t.cell q = .full key)
    (hd : t.delkey = some delkey) :
    (t.withValue q (delkey, v) e d).Represents (Function.update m key none) := by
  have htomb : (t.withValue q (delkey, v) e d).cell q = .tomb := by
    refine (cell_tomb_iff (t := t.withValue q (delkey, v) e d) hv.keys).mpr ?_
    rw [bucket_withValue hq]
    exact hd
  intro key' v'
  rw [bucketCount_withValue]
  have hother : ∀ p < t.bucketCount, p ≠ q → t.cell p ≠ .full key :=
    fun p hp hpq hc => hpq (hv.placed.unique p hp q hq key hc hfull)
  by_cases hk : key' = key
  · rw [hk, Function.update_self]
    constructor
    · intro h
      nomatch h
    · intro ⟨p, hp, hc, _⟩
      by_cases hpq : p = q
      · rw [hpq, htomb] at hc
        nomatch hc
      · rw [cell_withValue hp hpq] at hc
        exact absurd hc (hother p hp hpq)
  · rw [Function.update_of_ne hk, hr key' v']
    constructor
    · intro ⟨p, hp, hc, hb⟩
      have hpq : p ≠ q := by
        intro hpq
        rw [hpq, hfull] at hc
        cases hc
        exact hk rfl
      exact ⟨p, hp, (cell_withValue hp hpq).trans hc, bucket_withValue_ne hp hpq ▸ hb⟩
    · intro ⟨p, hp, hc, hb⟩
      have hpq : p ≠ q := by
        intro hpq
        rw [hpq, htomb] at hc
        nomatch hc
      rw [cell_withValue hp hpq] at hc
      rw [bucket_withValue_ne hp hpq] at hb
      exact ⟨p, hp, hc, hb⟩

/-- erase takes the key out, and counts it if it was there. -/
theorem erase_spec {key delkey : K} (hv : t.Valid tr) (hr : t.Represents m)
    (hu : t.Usable key) (hd : t.delkey = some delkey) :
    ∃ t', t.erase tr key = .ok (if (m key).isSome then 1 else 0, t') ∧
      Becomes tr t t' (Function.update m key none) ∧ t'.numElements = t.numElements := by
  obtain ⟨r, hrun, hval, hpos⟩ := find_spec hv hr key
  unfold erase
  rw [checkKey_ok hu, bind_ok_eq, bind_ok hrun]
  cases r with
  | none =>
    have hm : m key = none := hval.symm
    rw [hm, ← hm, Function.update_eq_self]
    refine ⟨t, ?_, (hv.kept t.considerShrink).becomes hr, rfl⟩
    rw [hm]
    rfl
  | some p =>
    obtain ⟨hp, hfull⟩ := hpos p rfl
    have hm : m key = some (t.bucket p).2 := hval.symm
    have hdel : t.testDeleted p = false := by
      rw [Bool.eq_false_iff]
      intro h
      have htomb := (cell_tomb_iff hv.keys).mpr ((hv.testDeleted_iff hp).mp h)
      rw [hfull] at htomb
      nomatch htomb
    have hset : t.setDeleted p = .ok (t.setBucket p (delkey, default)) := by
      unfold setDeleted
      rw [hd]
    have hbury := hv.bury (v := default) hp hfull hd
    dsimp only
    rw [hdel, hv.checkDeleted, bind_ok_eq, decide_eq_true (by nofun), check_true, bind_ok_eq,
      bind_ok hset, hm]
    exact ⟨_, rfl, ⟨(hbury.kept true).valid,
      hr.bury (e := t.numElements) (d := t.numDeleted + 1) hv hp hfull hd, rfl, rfl,
      Nat.le_succ _, fun hx => hx.bury hv hp hfull hd⟩, rfl⟩

/-- What the program asks of a table. -/
inductive Op (K V : Type)
  | find (key : K)
  | insert (key : K) (v : V)
  | subscript (key : K)
  | store (key : K) (v : V)
  | erase (key : K)
  | resize (hint : Nat)

inductive Answer (V : Type)
  | done
  | value (v : Option V)
  | inserted (new : Bool)
  | erased (n : Nat)

/-- The value an iterator or a reference is at. -/
def valueAt (t : DenseHashtable K V) (pos : Nat) : V := (t.bucket pos).2

def step (tr : Traits K) (t : DenseHashtable K V) :
    Op K V → Except Fault (Answer V × DenseHashtable K V)
  | .find key => do
    let r ← t.find tr key
    return (.value (r.map t.valueAt), t)
  | .insert key v => do
    let r ← t.insert tr (key, v)
    return (.inserted r.1.2, r.2)
  | .subscript key => do
    let r ← t.findOrInsert tr key
    return (.value (some (r.2.valueAt r.1)), r.2)
  | .store key v => do
    let r ← t.findOrInsert tr key
    return (.done, r.2.assign r.1 v)
  | .erase key => do
    let r ← t.erase tr key
    return (.erased r.1, r.2)
  | .resize hint => do
    let t ← t.resize tr hint
    return (.done, t)

/-- The same on a finite map. -/
def mapStep (m : K → Option V) : Op K V → Answer V × (K → Option V)
  | .find key => (.value (m key), m)
  | .insert key v => (.inserted (m key).isNone, Function.update m key (some ((m key).getD v)))
  | .subscript key =>
    let v := (m key).getD default
    (.value (some v), Function.update m key (some v))
  | .store key v => (.done, Function.update m key (some v))
  | .erase key => (.erased (if (m key).isSome then 1 else 0), Function.update m key none)
  | .resize _ => (.done, m)

def run (tr : Traits K) (t : DenseHashtable K V) :
    List (Op K V) → Except Fault (List (Answer V) × DenseHashtable K V)
  | [] => .ok ([], t)
  | op :: ops => do
    let r ← t.step tr op
    let rs ← r.2.run tr ops
    return (r.1 :: rs.1, rs.2)

def mapRun (m : K → Option V) : List (Op K V) → List (Answer V) × (K → Option V)
  | [] => ([], m)
  | op :: ops =>
    let r := mapStep m op
    let rs := mapRun r.2 ops
    (r.1 :: rs.1, rs.2)

/-- What a caller must not do: put in or take out a key that stands for no key, take keys out
of a table that has no mark for that, ask for 2^60 elements. -/
def Allowed (emptykey : K) (delkey : Option K) : Op K V → Prop
  | .find _ => True
  | .insert key _ => key ≠ emptykey ∧ delkey ≠ some key
  | .subscript key => key ≠ emptykey ∧ delkey ≠ some key
  | .store key _ => key ≠ emptykey ∧ delkey ≠ some key
  | .erase key => key ≠ emptykey ∧ delkey ≠ some key ∧ delkey.isSome
  | .resize hint => hint < 2 ^ 60

theorem step_spec (op : Op K V) (hv : t.Valid tr) (hr : t.Represents m)
    (hop : Allowed t.emptyval.1 t.delkey op) (hsize : t.numElements + 1 < 2 ^ 60)
    (hmax : t.numElements < tr.maxSize) :
    ∃ t', t.step tr op = .ok ((mapStep m op).1, t') ∧ Becomes tr t t' (mapStep m op).2 := by
  cases op with
  | find key =>
    obtain ⟨r, hrun, hval, -⟩ := find_spec hv hr key
    refine ⟨t, ?_, (hv.kept t.considerShrink).becomes hr⟩
    rw [step, bind_ok hrun]
    exact congrArg (fun v => Except.ok (Answer.value v, t)) hval
  | insert key v =>
    obtain ⟨p, t', hrun, hbec⟩ := insert_spec (v := v) hv hr hop (by omega) hmax
    refine ⟨t', ?_, hbec⟩
    rw [step, bind_ok hrun]
    rfl
  | subscript key =>
    obtain ⟨p, t', hrun, hbec, -, -, hval⟩ := findOrInsert_spec hv hr hop (by omega) hmax
    refine ⟨t', ?_, hbec⟩
    rw [step, bind_ok hrun]
    exact congrArg (fun v => Except.ok (Answer.value (some v), t')) hval
  | store key v =>
    obtain ⟨p, t', hrun, hbec, hp, hfull, -⟩ := findOrInsert_spec hv hr hop (by omega) hmax
    obtain ⟨hv', hr', he, hd, -, hx⟩ := assign_spec (v := v) hbec.valid hbec.map hp hfull
    rw [Function.update_idem] at hr'
    refine ⟨t'.assign p v, ?_, hv', hr', he.trans hbec.emptyval, hd.trans hbec.delkey,
      hbec.elements, fun hx' => hx (hbec.exact hx')⟩
    rw [step, bind_ok hrun]
    rfl
  | erase key =>
    obtain ⟨delkey, hd⟩ := Option.isSome_iff_exists.mp hop.2.2
    obtain ⟨t', hrun, hbec, -⟩ := erase_spec hv hr ⟨hop.1, hop.2.1⟩ hd
    refine ⟨t', ?_, hbec⟩
    rw [step, bind_ok hrun]
    rfl
  | resize hint =>
    obtain ⟨t', hrun, hk⟩ := resize_spec hv hr (by omega) hop
    refine ⟨t', ?_, hk.becomes hr⟩
    rw [step, bind_ok hrun]
    rfl

theorem run_spec (ops : List (Op K V)) (hv : t.Valid tr) (hr : t.Represents m)
    (hops : ∀ op ∈ ops, Allowed t.emptyval.1 t.delkey op)
    (hsize : t.numElements + ops.length < 2 ^ 60)
    (hmax : t.numElements + ops.length ≤ tr.maxSize) :
    ∃ t', t.run tr ops = .ok ((mapRun m ops).1, t') ∧ t'.Valid tr ∧
      t'.Represents (mapRun m ops).2 ∧ (t.Exact → t'.Exact) := by
  induction ops generalizing t m with
  | nil => exact ⟨t, rfl, hv, hr, id⟩
  | cons op ops ih =>
    rw [List.length_cons] at hsize hmax
    obtain ⟨t₁, hrun, hbec⟩ :=
      step_spec op hv hr (hops op List.mem_cons_self) (by omega) (by omega)
    have hele := hbec.elements
    obtain ⟨t', hrun', hv', hr', hx⟩ := ih hbec.valid hbec.map
      (by
        intro op' hmem
        rw [hbec.emptyval, hbec.delkey]
        exact hops op' (List.mem_cons_of_mem op hmem))
      (by omega) (by omega)
    refine ⟨t', ?_, hv', hr', fun hx' => hx (hbec.exact hx')⟩
    rw [run, bind_ok hrun]
    dsimp only
    rw [bind_ok hrun']
    rfl

/-- A table as the program makes one: it names the key of the empty buckets, and that of the
deleted ones if it is to erase. -/
def start (tr : Traits K) (expectedMaxItems : Nat) (emptyval : K × V) (delkey : Option K) :
    Except Fault (DenseHashtable K V) := do
  let t ← construct expectedMaxItems emptyval
  match delkey with
  | none => return t
  | some key => t.setDeletedKey tr key

/-- A table whose buckets are still to be made. -/
def noBuckets (emptyval : K × V) : DenseHashtable K V where
  enlargeThreshold := 0
  shrinkThreshold := 0
  considerShrink := false
  delkey := none
  numDeleted := 0
  numElements := 0
  emptyval := emptyval
  table := []

omit [DecidableEq K] [Inhabited V] in
theorem construct_spec {expected : Nat} (emptyval : K × V) (hexp : expected < 2 ^ 60) :
    ∃ k ≤ 63, 2 ≤ k ∧
      construct expected emptyval = .ok ((noBuckets emptyval).clearToSize (2 ^ k)) := by
  unfold construct
  split
  · exact ⟨5, by decide, by decide, rfl⟩
  · obtain ⟨r, hr⟩ := @minBuckets_total expected 0 (by omega) (by omega)
    obtain ⟨⟨k, hk2, hk63, rfl⟩, -⟩ := minBuckets_spec hr
    rw [bind_ok hr]
    exact ⟨k, hk63, hk2, rfl⟩

omit [Inhabited V] in
theorem start_spec {expected : Nat} (emptyval : K × V) (delkey : Option K)
    (hexp : expected < 2 ^ 60) (hd : delkey ≠ some emptyval.1) :
    ∃ t, start tr expected emptyval delkey = .ok t ∧ t.Valid tr ∧
      t.Represents (fun _ => none) ∧ t.emptyval = emptyval ∧ t.delkey = delkey ∧
      t.numElements = 0 ∧ t.numDeleted = 0 ∧ t.Exact := by
  obtain ⟨k, hk63, hk2, hrun⟩ := construct_spec emptyval hexp
  unfold start
  rw [bind_ok hrun]
  cases delkey with
  | none =>
    exact ⟨_, rfl, clearToSize_valid hk2 hk63 nofun, clearToSize_represents _, rfl, rfl, rfl,
      rfl, clearToSize_exact _⟩
  | some key =>
    dsimp only
    unfold setDeletedKey squashDeleted
    have hemp : ((noBuckets emptyval).clearToSize (2 ^ k)).emptyval = emptyval := rfl
    have hne : ¬ key = emptyval.1 := fun h => hd (congrArg some h)
    have hzero : ¬ ((noBuckets emptyval).clearToSize (2 ^ k)).numDeleted ≠ 0 := fun h => h rfl
    rw [hemp, decide_eq_true hne, check_true, bind_ok_eq, if_neg hzero, bind_ok_eq]
    -- the same empty buckets, with the mark of deleted keys named
    have heq : ∀ t : DenseHashtable K V, { t.clearToSize (2 ^ k) with delkey := some key } =
        { t with delkey := some key }.clearToSize (2 ^ k) := fun _ => rfl
    rw [heq]
    exact ⟨_, rfl, clearToSize_valid hk2 hk63 hd, clearToSize_represents _, rfl, rfl, rfl, rfl,
      clearToSize_exact _⟩

/-- Whatever is done to a table, in any order, its answers are those of a finite map: no
assertion fails, nothing is lost when it grows or shrinks, and no search goes on for ever. -/
theorem table_is_map (tr : Traits K) (expected : Nat) (emptyval : K × V) (delkey : Option K)
    (ops : List (Op K V)) (hexp : expected < 2 ^ 60) (hd : delkey ≠ some emptyval.1)
    (hops : ∀ op ∈ ops, Allowed emptyval.1 delkey op) (hlen : ops.length < 2 ^ 60)
    (hmax : ops.length ≤ tr.maxSize) :
    ∃ t t', start tr expected emptyval delkey = .ok t ∧
      t.run tr ops = .ok ((mapRun (fun _ => none) ops).1, t') ∧
      t'.Represents (mapRun (fun _ => none) ops).2 := by
  obtain ⟨t, hrun, hv, hr, he, hdel, hzero, -, hx⟩ := @start_spec K V _ tr expected emptyval delkey hexp hd
  obtain ⟨t', hrun', -, hr', -⟩ := run_spec ops hv hr (by rw [he, hdel]; exact hops)
    (by omega) (by omega)
  exact ⟨t, t', hrun, hrun', hr'⟩

/-- One key in the place of another that was erased, and both on the walk of a third. -/
theorem table_is_map_collisions : ∃ t t' : DenseHashtable Nat Nat,
    start ⟨fun k => k % 4, 9, false⟩ 0 (0, 0) (some 1) = .ok t ∧
      t.run ⟨fun k => k % 4, 9, false⟩
          [.store 6 60, .store 10 100, .store 14 140, .erase 10, .store 18 180, .resize 0,
            .find 14, .find 10] =
        .ok ([.done, .done, .done, .erased 1, .done, .done, .value (some 140), .value none], t') ∧
      t'.Represents (mapRun (fun _ => none)
        [.store 6 60, .store 10 100, .store 14 140, .erase 10, .store 18 180, .resize 0,
          .find 14, .find 10]).2 :=
  table_is_map ⟨fun k => k % 4, 9, false⟩ 0 (0, 0) (some 1)
    [.store 6 60, .store 10 100, .store 14 140, .erase 10, .store 18 180, .resize 0,
      .find 14, .find 10]
    (by decide) (by decide) (by simp [Allowed]) (by decide) (by decide)

/-- After any such run a loop over the table comes by each key of the map once, with its value,
and size() is the number of them, at most half of the buckets. -/
theorem iteration_visits_once (tr : Traits K) (expected : Nat) (emptyval : K × V)
    (delkey : Option K) (ops : List (Op K V)) (hexp : expected < 2 ^ 60)
    (hd : delkey ≠ some emptyval.1) (hops : ∀ op ∈ ops, Allowed emptyval.1 delkey op)
    (hlen : ops.length < 2 ^ 60) (hmax : ops.length ≤ tr.maxSize) :
    ∃ t answers t', start tr expected emptyval delkey = .ok t ∧
      t.run tr ops = .ok (answers, t') ∧
      (t'.entries.map Prod.fst).Nodup ∧ t'.size = t'.entries.length ∧
      (∀ key v, (key, v) ∈ t'.entries ↔ (mapRun (fun _ => none) ops).2 key = some v) ∧
      2 * t'.size ≤ t'.bucketCount := by
  obtain ⟨t, hrun, hv, hr, he, hdel, hzero, -, hx⟩ := @start_spec K V _ tr expected emptyval delkey hexp hd
  obtain ⟨t', hrun', hv', hr', hx'⟩ := run_spec ops hv hr (by rw [he, hdel]; exact hops)
    (by omega) (by omega)
  have hload := hv'.load
  have hsub : t'.size = t'.numElements - t'.numDeleted := rfl
  exact ⟨t, _, t', hrun, hrun', hv'.entries_nodup, (hx' hx).size_eq hv',
    fun key v => hv'.entries_iff hr' key v, by omega⟩

theorem iteration_visits_once_two : ∃ t answers, ∃ t' : DenseHashtable Nat Nat,
    start ⟨fun k => k % 4, 9, false⟩ 0 (0, 0) (some 1) = .ok t ∧
      t.run ⟨fun k => k % 4, 9, false⟩ [.store 6 60, .store 10 100, .erase 6] = .ok (answers, t') ∧
      (t'.entries.map Prod.fst).Nodup ∧ t'.size = t'.entries.length ∧
      (∀ key v, (key, v) ∈ t'.entries ↔
        (mapRun (fun _ => none) [.store 6 60, .store 10 100, .erase 6]).2 key = some v) ∧
      2 * t'.size ≤ t'.bucketCount :=
  iteration_visits_once ⟨fun k => k % 4, 9, false⟩ 0 (0, 0) (some 1)
    [.store 6 60, .store 10 100, .erase 6]
    (by decide) (by decide) (by simp [Allowed]) (by decide) (by decide)

end Blockparser.DenseHashtable
