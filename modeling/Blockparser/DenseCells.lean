import Blockparser.DenseHashtable

/-! The cells of a dense_hash_map: the walk of find_position over them, the finite map they
make, and what becomes of it when one cell takes another key. -/
namespace Blockparser.DenseHashtable
open Probing

variable {K V : Type} {t : DenseHashtable K V}

theorem bind_ok {α β : Type} {x : Except Fault α} {f : α → Except Fault β} {a : α}
    (h : x = .ok a) : (x >>= f) = f a := by
  rw [h]
  rfl

theorem of_bind_ok {α β : Type} {x : Except Fault α} {f : α → Except Fault β} {b : β}
    (h : (x >>= f) = .ok b) : ∃ a, x = .ok a ∧ f a = .ok b := by
  cases x with
  | error e => nomatch h
  | ok a => exact ⟨a, rfl, h⟩

@[simp] theorem bind_ok_eq {α β : Type} (a : α) (f : α → Except Fault β) :
    ((Except.ok a : Except Fault α) >>= f) = f a := rfl

@[simp] theorem pure_eq_ok {α : Type} (a : α) : (pure a : Except Fault α) = .ok a := rfl

@[simp] theorem check_true (tr : Traits K) : check tr true = .ok () := rfl

@[simp] theorem bucketCount_setBucket (pos : Nat) (obj : K × V) :
    (t.setBucket pos obj).bucketCount = t.bucketCount := by
  simp [setBucket, bucketCount]

@[simp] theorem emptyval_setBucket (pos : Nat) (obj : K × V) :
    (t.setBucket pos obj).emptyval = t.emptyval := rfl

@[simp] theorem delkey_setBucket (pos : Nat) (obj : K × V) :
    (t.setBucket pos obj).delkey = t.delkey := rfl

theorem bucket_eq {p : Nat} (hp : p < t.table.length) : t.bucket p = t.table[p] := by
  unfold bucket
  rw [List.getD_eq_getElem?_getD, List.getElem?_eq_getElem hp, Option.getD_some]

theorem bucket_mem {p : Nat} (hp : p < t.bucketCount) : t.bucket p ∈ t.table :=
  bucket_eq hp ▸ List.getElem_mem hp

theorem bucket_set {p q : Nat} {obj : K × V} (hp : p < t.bucketCount) :
    (t.setBucket q obj).bucket p = if p = q then obj else t.bucket p := by
  have hp' : p < (t.setBucket q obj).bucketCount := by rwa [bucketCount_setBucket]
  rw [bucket_eq hp', bucket_eq hp]
  simp only [setBucket, List.getElem_set]
  by_cases hpq : p = q
  · rw [if_pos hpq, if_pos hpq.symm]
  · rw [if_neg hpq, if_neg (Ne.symm hpq)]
    rfl

theorem countP_setBucket (f : K × V → Bool) {q : Nat} (hq : q < t.bucketCount) (obj : K × V) :
    (t.setBucket q obj).table.countP f =
      t.table.countP f - (if f (t.bucket q) then 1 else 0) + (if f obj then 1 else 0) := by
  unfold setBucket
  rw [List.countP_set hq, bucket_eq hq]

/-- Another value in one cell, and other counts. -/
def withValue (t : DenseHashtable K V) (q : Nat) (obj : K × V) (numElements numDeleted : Nat) :
    DenseHashtable K V :=
  { t.setBucket q obj with numElements := numElements, numDeleted := numDeleted }

theorem clearToSize_bucket {sz p : Nat} (hp : p < sz) :
    (t.clearToSize sz).bucket p = t.emptyval := by
  have hlen : p < (t.clearToSize sz).bucketCount :=
    hp.trans_eq (List.length_replicate (n := sz) (a := t.emptyval)).symm
  rw [bucket_eq hlen]
  exact List.getElem_replicate _

@[simp] theorem bucketCount_clearToSize (sz : Nat) : (t.clearToSize sz).bucketCount = sz :=
  List.length_replicate

section
variable {q e d : Nat} {obj : K × V}

@[simp] theorem bucketCount_withValue : (t.withValue q obj e d).bucketCount = t.bucketCount :=
  bucketCount_setBucket q obj

theorem bucket_withValue (hq : q < t.bucketCount) : (t.withValue q obj e d).bucket q = obj :=
  (bucket_set hq).trans (if_pos rfl)

theorem bucket_withValue_ne {p : Nat} (hp : p < t.bucketCount) (hpq : p ≠ q) :
    (t.withValue q obj e d).bucket p = t.bucket p :=
  (bucket_set hp).trans (if_neg hpq)

end

variable [DecidableEq K]

/-- What a cell holds, read off its key. -/
def cell (t : DenseHashtable K V) (pos : Nat) : Cell K :=
  if t.emptyval.1 = (t.bucket pos).1 then .free
  else if t.delkey = some (t.bucket pos).1 then .tomb
  else .full (t.bucket pos).1

structure Valid (tr : Traits K) (t : DenseHashtable K V) : Prop where
  powerOfTwo : ∃ k, 2 ≤ k ∧ k ≤ 63 ∧ t.bucketCount = 2 ^ k
  placed : Placed t.bucketCount tr.hash t.cell
  elements : (t.table.countP fun v => ¬ t.emptyval.1 = v.1) ≤ t.numElements
  deleted : t.numDeleted = t.table.countP fun v => t.delkey = some v.1
  keys : t.delkey ≠ some t.emptyval.1
  load : 2 * t.numElements ≤ t.bucketCount
  enlarge : t.enlargeThreshold = t.bucketCount / 2

/-- Every element that is counted is there. An element that is put in under the key of the
empty buckets is counted and not there. -/
def Exact (t : DenseHashtable K V) : Prop :=
  t.numElements = t.table.countP fun v => ¬ t.emptyval.1 = v.1

/-- The finite map the cells of a table make. -/
def Represents (t : DenseHashtable K V) (m : K → Option V) : Prop :=
  ∀ key v, m key = some v ↔
    ∃ p < t.bucketCount, t.cell p = .full key ∧ (t.bucket p).2 = v

/-- A key the table is not kept from by its marks. -/
def Usable (t : DenseHashtable K V) (key : K) : Prop :=
  key ≠ t.emptyval.1 ∧ t.delkey ≠ some key

variable {tr : Traits K} {m : K → Option V}

theorem cell_congr {t' : DenseHashtable K V} {p : Nat} (he : t'.emptyval = t.emptyval)
    (hd : t'.delkey = t.delkey) (hb : t'.bucket p = t.bucket p) : t'.cell p = t.cell p := by
  unfold cell
  rw [he, hd, hb]

theorem cell_full_iff {p : Nat} {key : K} :
    t.cell p = .full key ↔ t.Usable key ∧ (t.bucket p).1 = key := by
  unfold cell Usable
  split
  · next h =>
    constructor
    · intro hc
      nomatch hc
    · intro ⟨⟨hne, _⟩, hk⟩
      exact absurd (h.trans hk).symm hne
  · next h =>
    split
    · next hd =>
      constructor
      · intro hc
        nomatch hc
      · intro ⟨⟨_, hne⟩, hk⟩
        exact absurd (hk ▸ hd) hne
    · next hd =>
      constructor
      · intro hc
        cases hc
        exact ⟨⟨fun he => h he.symm, hd⟩, rfl⟩
      · intro ⟨_, hk⟩
        rw [hk]

theorem cell_free_iff {p : Nat} : t.cell p = .free ↔ (t.bucket p).1 = t.emptyval.1 := by
  unfold cell
  split
  · next h => exact ⟨fun _ => h.symm, fun _ => rfl⟩
  · next h =>
    constructor
    · intro hc
      split at hc <;> nomatch hc
    · intro hk
      exact absurd hk.symm h

theorem cell_tomb_iff (hk : t.delkey ≠ some t.emptyval.1) {p : Nat} :
    t.cell p = .tomb ↔ t.delkey = some (t.bucket p).1 := by
  unfold cell
  split
  · next h =>
    constructor
    · intro hc
      nomatch hc
    · intro hd
      exact absurd (h ▸ hd) hk
  · next h =>
    split
    · next hd => exact ⟨fun _ => hd, fun _ => rfl⟩
    · next hd =>
      constructor
      · intro hc
        nomatch hc
      · intro hd'
        exact absurd hd' hd

/-- test_deleted also asks for num_deleted > 0, which a tomb makes true. -/
theorem Valid.testDeleted_iff (hv : t.Valid tr) {p : Nat} (hp : p < t.bucketCount) :
    t.testDeleted p = true ↔ t.delkey = some (t.bucket p).1 := by
  unfold testDeleted
  simp only [decide_eq_true_eq]
  constructor
  · exact fun h => h.2
  · intro hd
    refine ⟨?_, hd⟩
    rw [hv.deleted]
    exact List.countP_pos_iff.mpr ⟨t.bucket p, bucket_mem hp, by simpa using hd⟩

theorem Valid.checkDeleted (hv : t.Valid tr) : t.checkDeleted tr = .ok () := by
  unfold DenseHashtable.checkDeleted
  have hb : (t.delkey.isSome || t.numDeleted == 0) = true := by
    cases hd : t.delkey with
    | some key => rfl
    | none =>
      have hzero : t.numDeleted = 0 := by
        rw [hv.deleted, hd]
        exact List.countP_eq_zero.mpr fun v _ => by simp
      rw [hzero]
      rfl
  rw [hb, check_true]

theorem Valid.pos (hv : t.Valid tr) : 0 < t.bucketCount := by
  obtain ⟨k, -, -, hk⟩ := hv.powerOfTwo
  rw [hk]
  exact Nat.two_pow_pos k

theorem Valid.and_mask (hv : t.Valid tr) (x : Nat) :
    x &&& (t.bucketCount - 1) = x % t.bucketCount := by
  obtain ⟨k, -, -, hk⟩ := hv.powerOfTwo
  rw [hk, Nat.and_two_pow_sub_one_eq_mod]

/-- find_position is the walk over the cells. -/
theorem Valid.findPositionFrom_eq (hv : t.Valid tr) (key : K) (fuel j : Nat)
    (tomb : Option Nat) :
    t.findPositionFrom tr key fuel j (probe t.bucketCount (tr.hash key) j) tomb =
      (search t.bucketCount tr.hash t.cell key fuel j tomb).elim (.error .assertion) .ok := by
  induction fuel generalizing j tomb with
  | zero => rfl
  | succ fuel ih =>
    have hp := probe_lt hv.pos (tr.hash key) j
    have hnext : (probe t.bucketCount (tr.hash key) j + (j + 1)) &&& (t.bucketCount - 1) =
        probe t.bucketCount (tr.hash key) (j + 1) := hv.and_mask _
    unfold findPositionFrom search
    dsimp only
    rw [hnext, ih, ih, hv.checkDeleted, bind_ok_eq]
    generalize hq : probe t.bucketCount (tr.hash key) j = q at hp ⊢
    cases hc : t.cell q with
    | free =>
      have he : t.testEmpty q = true := by
        simpa [testEmpty, eq_comm] using cell_free_iff.mp hc
      rw [if_pos he]
      rfl
    | tomb =>
      have hd := (cell_tomb_iff hv.keys).mp hc
      have he : ¬ t.testEmpty q = true := by
        intro he
        have hfree : t.cell q = .free :=
          cell_free_iff.mpr (by simpa [testEmpty, eq_comm] using he)
        rw [hfree] at hc
        cases hc
      rw [if_neg he, if_pos ((hv.testDeleted_iff hp).mpr hd)]
    | full key' =>
      obtain ⟨hu, hk⟩ := cell_full_iff.mp hc
      have he : ¬ t.testEmpty q = true := by
        intro he
        exact hu.1 (hk.symm.trans (by simpa [testEmpty, eq_comm] using he))
      have hd : ¬ t.testDeleted q = true := by
        intro hd
        exact hu.2 (hk ▸ (hv.testDeleted_iff hp).mp hd)
      rw [if_neg he, if_neg hd, hk]
      dsimp only
      by_cases hkey : key = key'
      · rw [if_pos hkey, if_pos hkey]
        rfl
      · rw [if_neg hkey, if_neg hkey]

/-- So is the loop of copy_from. -/
theorem Valid.emptyBucketFrom_eq (hv : t.Valid tr) (key : K) (fuel j : Nat) :
    t.emptyBucketFrom fuel j (probe t.bucketCount (tr.hash key) j) =
      (firstFree t.bucketCount (tr.hash key) t.cell fuel j).elim (.error .assertion) .ok := by
  induction fuel generalizing j with
  | zero => rfl
  | succ fuel ih =>
    have hnext : (probe t.bucketCount (tr.hash key) j + (j + 1)) &&& (t.bucketCount - 1) =
        probe t.bucketCount (tr.hash key) (j + 1) := hv.and_mask _
    unfold emptyBucketFrom firstFree
    rw [hnext, ih]
    generalize probe t.bucketCount (tr.hash key) j = q
    by_cases hc : t.cell q = .free
    · have he : t.testEmpty q = true := by
        simpa [testEmpty, eq_comm] using cell_free_iff.mp hc
      rw [if_pos he, hc]
      rfl
    · have he : ¬ t.testEmpty q = true :=
        fun he => hc (cell_free_iff.mpr (by simpa [testEmpty, eq_comm] using he))
      rw [if_neg he]
      cases hcell : t.cell q with
      | free => exact absurd hcell hc
      | tomb => rfl
      | full key' => rfl

/-- At least half of the cells are free. -/
theorem Valid.exists_free (hv : t.Valid tr) : ∃ p < t.bucketCount, t.cell p = .free := by
  by_contra hnone
  have hall : t.table.countP (fun v => decide ¬ t.emptyval.1 = v.1) = t.table.length := by
    rw [List.countP_eq_length]
    intro v hmem
    obtain ⟨p, hp, hpv⟩ := List.mem_iff_getElem.mp hmem
    have hne : t.cell p ≠ .free := fun hf => hnone ⟨p, hp, hf⟩
    rw [Ne, cell_free_iff, bucket_eq hp, hpv] at hne
    have hne' : ¬ t.emptyval.1 = v.1 := fun h => hne h.symm
    simpa using hne'
  have hload := hv.load
  have hele := hv.elements
  rw [hall] at hele
  have hpos := hv.pos
  unfold bucketCount at hload hpos
  omega

theorem Valid.findPosition_spec (hv : t.Valid tr) (key : K) :
    (∃ p < t.bucketCount, t.findPosition tr key = .ok (.found p) ∧ t.cell p = .full key) ∨
    (∃ q < t.bucketCount, t.findPosition tr key = .ok (.absent q) ∧
      Vacant t.bucketCount tr.hash t.cell key q ∧ ∀ p < t.bucketCount, t.cell p ≠ .full key) := by
  obtain ⟨r, hr⟩ : ∃ r, search t.bucketCount tr.hash t.cell key t.bucketCount 0 none = some r := by
    obtain ⟨p, hp, hfree⟩ := hv.exists_free
    obtain ⟨k, -, -, hk⟩ := hv.powerOfTwo
    rw [hk] at hp ⊢
    exact search_total hp hfree
  have heq : t.findPosition tr key = .ok r := by
    unfold findPosition
    rw [hv.and_mask]
    refine (hv.findPositionFrom_eq key t.bucketCount 0 none).trans ?_
    rw [hr]
    rfl
  cases r with
  | found p =>
    obtain ⟨hfull, i, hi⟩ := search_found hr
    exact .inl ⟨p, hi ▸ probe_lt hv.pos _ _, heq, hfull⟩
  | absent q =>
    obtain ⟨hvac, -⟩ := search_absent (Passed.start _ _ _ key) hr
    obtain ⟨j, hj, -⟩ := hvac.reach
    exact .inr ⟨q, hj ▸ probe_lt hv.pos _ _, heq, hvac, hv.placed.not_full hr⟩

theorem Represents.eq_none (hr : t.Represents m) {key : K}
    (h : ∀ p < t.bucketCount, t.cell p ≠ .full key) : m key = none := by
  cases hm : m key with
  | none => rfl
  | some v =>
    obtain ⟨p, hp, hfull, -⟩ := (hr key v).mp hm
    exact absurd hfull (h p hp)

section WithValue
variable {q e d : Nat} {obj : K × V}

theorem cell_withValue {p : Nat} (hp : p < t.bucketCount) (hpq : p ≠ q) :
    (t.withValue q obj e d).cell p = t.cell p :=
  cell_congr rfl rfl ((bucket_set hp).trans (if_neg hpq))

theorem cell_withValue_full {key : K} {v : V} (hq : q < t.bucketCount) (hu : t.Usable key) :
    (t.withValue q (key, v) e d).cell q = .full key :=
  cell_full_iff.mpr ⟨hu, congrArg Prod.fst (bucket_withValue hq)⟩

/-- How many values are there when a free cell takes a key. -/
theorem countP_of_free (hq : q < t.bucketCount) (hfree : t.cell q = .free)
    (hobj : obj.1 ≠ t.emptyval.1) :
    ((t.setBucket q obj).table.countP fun v => ¬ t.emptyval.1 = v.1) =
      (t.table.countP fun v => ¬ t.emptyval.1 = v.1) + 1 := by
  have hcount := countP_setBucket (t := t) (fun v => ¬ t.emptyval.1 = v.1) hq obj
  rw [if_neg (by simp [cell_free_iff.mp hfree]),
    @if_pos (decide (¬ t.emptyval.1 = obj.1) = true) _ (by simpa using fun h => hobj h.symm)] at hcount
  exact hcount

/-- A cell that is not free has a value before and after. -/
theorem countP_of_not_free (obj : K × V) (hq : q < t.bucketCount) (hcell : t.cell q ≠ .free)
    (hobj : obj.1 ≠ t.emptyval.1) :
    ((t.setBucket q obj).table.countP fun v => ¬ t.emptyval.1 = v.1) =
      t.table.countP fun v => ¬ t.emptyval.1 = v.1 := by
  have hcount := countP_setBucket (t := t) (fun v => ¬ t.emptyval.1 = v.1) hq obj
  have hk : ¬ t.emptyval.1 = (t.bucket q).1 := fun h => hcell (cell_free_iff.mpr h.symm)
  have hpos : 0 < t.table.countP fun v => ¬ t.emptyval.1 = v.1 :=
    List.countP_pos_iff.mpr ⟨t.bucket q, bucket_mem hq, by simpa using hk⟩
  rw [if_pos (by simpa using hk),
    @if_pos (decide (¬ t.emptyval.1 = obj.1) = true) _ (by simpa using fun h => hobj h.symm)] at hcount
  omega

/-- The counts when a cell takes a key: a free one is one element more, a tomb one deleted
less. -/
def Counted (t : DenseHashtable K V) (q e d : Nat) : Prop :=
  (t.cell q = .free ∧ e = t.numElements + 1 ∧ d = t.numDeleted ∧
    2 * (t.numElements + 1) ≤ t.bucketCount) ∨
  (t.cell q = .tomb ∧ e = t.numElements ∧ d = t.numDeleted - 1)

theorem Valid.put {key : K} {v : V} (hv : t.Valid tr) (hq : q < t.bucketCount)
    (hvac : Vacant t.bucketCount tr.hash t.cell key q)
    (hnew : ∀ p < t.bucketCount, t.cell p ≠ .full key) (hu : t.Usable key)
    (hc : t.Counted q e d) : (t.withValue q (key, v) e d).Valid tr := by
  have hcountD := countP_setBucket (t := t) (fun v => t.delkey = some v.1) hq (key, v)
  rw [@if_neg (decide (t.delkey = some key) = true) _ (by simpa using hu.2), ← hv.deleted,
    Nat.add_zero] at hcountD
  refine ⟨?_, ?_, ?_, ?_, hv.keys, ?_, ?_⟩
  · rw [bucketCount_withValue]
    exact hv.powerOfTwo
  · rw [bucketCount_withValue]
    exact hv.placed.put hv.pos hvac hnew (cell_withValue_full hq hu)
      fun p hp hpq => cell_withValue hp hpq
  · have hele := hv.elements
    show ((t.setBucket q (key, v)).table.countP fun v => ¬ t.emptyval.1 = v.1) ≤ e
    rcases hc with ⟨hcell, he, -, -⟩ | ⟨hcell, he, -⟩
    · rw [countP_of_free hq hcell hu.1, he]
      exact Nat.succ_le_succ hele
    · rw [countP_of_not_free (key, v) hq (by rw [hcell]; nofun) hu.1, he]
      exact hele
  · show d = (t.setBucket q (key, v)).table.countP fun v => t.delkey = some v.1
    rcases hc with ⟨hcell, -, hd, -⟩ | ⟨hcell, -, hd⟩
    · have hk : ¬ t.delkey = some (t.bucket q).1 := by
        intro h
        rw [(cell_tomb_iff hv.keys).mpr h] at hcell
        nomatch hcell
      rw [if_neg (by simpa using hk)] at hcountD
      omega
    · have hk := (cell_tomb_iff hv.keys).mp hcell
      rw [if_pos (by simpa using hk)] at hcountD
      omega
  · rw [bucketCount_withValue]
    show 2 * e ≤ t.bucketCount
    rcases hc with ⟨-, he, -, hload⟩ | ⟨-, he, -⟩
    · rw [he]
      exact hload
    · rw [he]
      exact hv.load
  · rw [bucketCount_withValue]
    exact hv.enlarge

theorem Exact.put {key : K} {v : V} (hx : t.Exact) (hq : q < t.bucketCount) (hu : t.Usable key)
    (hc : t.Counted q e d) : (t.withValue q (key, v) e d).Exact := by
  show e = (t.setBucket q (key, v)).table.countP fun v => ¬ t.emptyval.1 = v.1
  rcases hc with ⟨hcell, he, -, -⟩ | ⟨hcell, he, -⟩
  · rw [countP_of_free hq hcell hu.1, he, hx]
  · rw [countP_of_not_free (key, v) hq (by rw [hcell]; nofun) hu.1, he, hx]

theorem Represents.put {key : K} {v : V} (hr : t.Represents m) (hq : q < t.bucketCount)
    (hnew : ∀ p < t.bucketCount, p ≠ q → t.cell p ≠ .full key)
    (hold : ∀ key', t.cell q = .full key' → key' = key) (hu : t.Usable key) :
    (t.withValue q (key, v) e d).Represents (Function.update m key (some v)) := by
  intro key' v'
  have hfull := cell_withValue_full (v := v) (e := e) (d := d) hq hu
  rw [bucketCount_withValue]
  by_cases hk : key' = key
  · rw [hk, Function.update_self]
    constructor
    · intro hv
      cases hv
      exact ⟨q, hq, hfull, congrArg Prod.snd (bucket_withValue hq)⟩
    · intro ⟨p, hp, hc, hb⟩
      by_cases hpq : p = q
      · rw [hpq, bucket_withValue hq] at hb
        exact congrArg some hb
      · rw [cell_withValue hp hpq] at hc
        exact absurd hc (hnew p hp hpq)
  · rw [Function.update_of_ne hk, hr key' v']
    constructor
    · intro ⟨p, hp, hc, hb⟩
      have hpq : p ≠ q := by
        intro hpq
        exact hk (hold key' (hpq ▸ hc))
      exact ⟨p, hp, (cell_withValue hp hpq).trans hc, (bucket_withValue_ne hp hpq ▸ hb)⟩
    · intro ⟨p, hp, hc, hb⟩
      have hpq : p ≠ q := by
        intro hpq
        rw [hpq, hfull] at hc
        cases hc
        exact hk rfl
      rw [cell_withValue hp hpq] at hc
      rw [bucket_withValue_ne hp hpq] at hb
      exact ⟨p, hp, hc, hb⟩

/-- A key gives way to the mark of deleted keys. -/
theorem Valid.bury {key delkey : K} {v : V} (hv : t.Valid tr) (hq : q < t.bucketCount)
    (hfull : t.cell q = .full key) (hd : t.delkey = some delkey) :
    (t.withValue q (delkey, v) t.numElements (t.numDeleted + 1)).Valid tr := by
  obtain ⟨hu, hk⟩ := cell_full_iff.mp hfull
  have hne : t.emptyval.1 ≠ delkey := fun h => hv.keys (h ▸ hd)
  have hcountE := countP_of_not_free (delkey, v) hq (by rw [hfull]; nofun) hne.symm
  have hcountD := countP_setBucket (t := t) (fun v => t.delkey = some v.1) hq (delkey, v)
  rw [if_neg (by simpa [hk] using hu.2),
    @if_pos (decide (t.delkey = some delkey) = true) _ (by simpa using hd), ← hv.deleted] at hcountD
  have htomb : (t.withValue q (delkey, v) t.numElements (t.numDeleted + 1)).cell q = .tomb := by
    refine (cell_tomb_iff (t := t.withValue q (delkey, v) _ _) hv.keys).mpr ?_
    rw [bucket_withValue hq]
    exact hd
  refine ⟨?_, ?_, ?_, ?_, hv.keys, hv.load.trans_eq bucketCount_withValue.symm, ?_⟩
  · rw [bucketCount_withValue]
    exact hv.powerOfTwo
  · rw [bucketCount_withValue]
    exact hv.placed.bury hv.pos htomb fun p hp hpq => cell_withValue hp hpq
  · exact hcountE.trans_le hv.elements
  · show t.numDeleted + 1 = (t.setBucket q (delkey, v)).table.countP fun v => t.delkey = some v.1
    omega
  · rw [bucketCount_withValue]
    exact hv.enlarge

end WithValue

theorem Exact.bury {key delkey : K} {v : V} {q : Nat} (hx : t.Exact) (hv : t.Valid tr)
    (hq : q < t.bucketCount) (hfull : t.cell q = .full key) (hd : t.delkey = some delkey) :
    (t.withValue q (delkey, v) t.numElements (t.numDeleted + 1)).Exact := by
  have hne : delkey ≠ t.emptyval.1 := fun h => hv.keys (h ▸ hd)
  exact hx.trans (countP_of_not_free (delkey, v) hq (by rw [hfull]; nofun) hne).symm

/-- A value of the same key in the place of one. -/
theorem Valid.assign {key : K} {v : V} {q : Nat} (hv : t.Valid tr) (hq : q < t.bucketCount)
    (hfull : t.cell q = .full key) :
    (t.withValue q (key, v) t.numElements t.numDeleted).Valid tr := by
  obtain ⟨hu, hk⟩ := cell_full_iff.mp hfull
  have hsame := countP_setBucket (t := t) (fun v => t.delkey = some v.1) hq (key, v)
  rw [if_neg (by simpa [hk] using hu.2), if_neg (by simpa using hu.2)] at hsame
  have hcell : ∀ p < t.bucketCount,
      (t.withValue q (key, v) t.numElements t.numDeleted).cell p = t.cell p := by
    intro p hp
    by_cases hpq : p = q
    · rw [hpq, hfull]
      exact cell_withValue_full hq hu
    · exact cell_withValue hp hpq
  refine ⟨?_, ?_, ?_, ?_, hv.keys, hv.load.trans_eq bucketCount_withValue.symm, ?_⟩
  · rw [bucketCount_withValue]
    exact hv.powerOfTwo
  · rw [bucketCount_withValue]
    exact hv.placed.congr hv.pos hcell
  · exact (countP_of_not_free (key, v) hq (by rw [hfull]; nofun) hu.1).trans_le
      hv.elements
  · exact hv.deleted.trans hsame.symm
  · rw [bucketCount_withValue]
    exact hv.enlarge

theorem Exact.assign {key : K} {v : V} {q : Nat} (hx : t.Exact) (hq : q < t.bucketCount)
    (hfull : t.cell q = .full key) :
    (t.withValue q (key, v) t.numElements t.numDeleted).Exact :=
  hx.trans (countP_of_not_free (key, v) hq (by rw [hfull]; nofun)
    (cell_full_iff.mp hfull).1.1).symm

/-- min_buckets gives a power of two in which so many elements are less than half. -/
theorem minBucketsFrom_spec {n w fuel k r : Nat} (hfuel : k + fuel = 64)
    (h : minBucketsFrom n w fuel (2 ^ k) = .ok r) :
    ∃ j, k ≤ j ∧ j ≤ 63 ∧ r = 2 ^ j ∧ w ≤ r ∧ n < r / 2 := by
  induction fuel generalizing k with
  | zero => nomatch h
  | succ fuel ih =>
    unfold minBucketsFrom at h
    split at h
    · rw [← Nat.pow_succ] at h
      obtain ⟨j, hkj, hj⟩ := ih (by omega) h
      exact ⟨j, by omega, hj⟩
    · next hc =>
      cases h
      unfold enlargeSize at hc
      exact ⟨k, Nat.le_refl k, by omega, rfl, by omega, by omega⟩

theorem minBuckets_spec {n w r : Nat} (h : minBuckets n w = .ok r) :
    (∃ j, 2 ≤ j ∧ j ≤ 63 ∧ r = 2 ^ j) ∧ w ≤ r ∧ n < r / 2 := by
  obtain ⟨j, hj2, hj63, hr, hw, hn⟩ := @minBucketsFrom_spec n w 62 2 r rfl h
  exact ⟨⟨j, hj2, hj63, hr⟩, hw, hn⟩

theorem minBucketsFrom_total {n w fuel k : Nat} (hn : n < 2 ^ 62) (hw : w ≤ 2 ^ 63)
    (hfuel : k + fuel = 63) : ∃ r, minBucketsFrom n w (fuel + 1) (2 ^ k) = .ok r := by
  induction fuel generalizing k with
  | zero =>
    have hk : k = 63 := hfuel
    unfold minBucketsFrom enlargeSize
    rw [hk, if_neg (by omega)]
    exact ⟨_, rfl⟩
  | succ fuel ih =>
    unfold minBucketsFrom
    split
    · rw [← Nat.pow_succ]
      exact ih (by omega)
    · exact ⟨_, rfl⟩

theorem minBuckets_total {n w : Nat} (hn : n < 2 ^ 62) (hw : w ≤ 2 ^ 63) :
    ∃ r, minBuckets n w = .ok r :=
  @minBucketsFrom_total n w 61 2 hn hw rfl

theorem Valid.live_iff (hv : t.Valid tr) {v : K × V} (hmem : v ∈ t.table) :
    (¬ t.emptyval.1 = v.1 ∧ ¬ (0 < t.numDeleted ∧ t.delkey = some v.1)) ↔ t.Usable v.1 := by
  unfold Usable
  constructor
  · intro ⟨he, hd⟩
    refine ⟨fun h => he h.symm, fun h => hd ⟨?_, h⟩⟩
    rw [hv.deleted]
    exact List.countP_pos_iff.mpr ⟨v, hmem, by simpa using h⟩
  · intro ⟨he, hd⟩
    exact ⟨fun h => he h.symm, fun h => hd h.2⟩

theorem Valid.mem_entries (hv : t.Valid tr) {v : K × V} :
    v ∈ t.entries ↔ v ∈ t.table ∧ t.Usable v.1 := by
  unfold entries
  rw [List.mem_filter]
  constructor
  · intro ⟨hmem, hlive⟩
    exact ⟨hmem, (hv.live_iff hmem).mp (of_decide_eq_true hlive)⟩
  · intro ⟨hmem, hu⟩
    exact ⟨hmem, decide_eq_true ((hv.live_iff hmem).mpr hu)⟩

theorem Valid.entries_iff (hv : t.Valid tr) (hr : t.Represents m) (key : K) (v : V) :
    (key, v) ∈ t.entries ↔ m key = some v := by
  rw [hv.mem_entries, hr key v]
  constructor
  · intro ⟨hmem, hu⟩
    obtain ⟨p, hp, hpv⟩ := List.mem_iff_getElem.mp hmem
    have hb : t.bucket p = (key, v) := (bucket_eq hp).trans hpv
    exact ⟨p, hp, cell_full_iff.mpr ⟨hu, congrArg Prod.fst hb⟩, congrArg Prod.snd hb⟩
  · intro ⟨p, hp, hc, hb⟩
    obtain ⟨hu, hk⟩ := cell_full_iff.mp hc
    exact ⟨(Prod.ext hk hb : t.bucket p = (key, v)) ▸ bucket_mem hp, hu⟩

/-- Iterating comes by no key twice. -/
theorem Valid.entries_nodup (hv : t.Valid tr) : (t.entries.map Prod.fst).Nodup := by
  unfold entries List.Nodup
  rw [List.pairwise_map, List.pairwise_filter, List.pairwise_iff_getElem]
  intro i j hi hj hij hli hlj heq
  have hcell : ∀ p (hp : p < t.table.length),
      (¬ t.emptyval.1 = t.table[p].1 ∧ ¬ (0 < t.numDeleted ∧ t.delkey = some t.table[p].1)) →
      t.cell p = .full t.table[p].1 := by
    intro p hp hlive
    have hb := bucket_eq hp
    refine cell_full_iff.mpr ⟨(hv.live_iff (List.getElem_mem hp)).mp hlive, ?_⟩
    rw [hb]
  have hci := hcell i hi (of_decide_eq_true hli)
  have hcj := hcell j hj (of_decide_eq_true hlj)
  rw [heq] at hci
  have := hv.placed.unique i hi j hj _ hci hcj
  omega

theorem countP_split {α : Type} {f g h : α → Bool} (l : List α)
    (hs : ∀ a ∈ l, (if f a then 1 else 0) = (if g a then 1 else 0) + if h a then 1 else 0) :
    l.countP f = l.countP g + l.countP h := by
  induction l with
  | nil => rfl
  | cons a l ih =>
    have ha := hs a List.mem_cons_self
    have hl := ih fun b hb => hs b (List.mem_cons_of_mem a hb)
    rw [List.countP_cons, List.countP_cons, List.countP_cons]
    omega

theorem Valid.countP_eq (hv : t.Valid tr) :
    (t.table.countP fun v => ¬ t.emptyval.1 = v.1) = t.entries.length + t.numDeleted := by
  have hlen : t.entries.length = t.table.countP fun v =>
      ¬ t.emptyval.1 = v.1 ∧ ¬ (0 < t.numDeleted ∧ t.delkey = some v.1) := by
    unfold entries
    rw [List.countP_eq_length_filter]
  rw [hlen, hv.deleted]
  refine countP_split t.table fun v hmem => ?_
  have hlive := hv.live_iff hmem
  unfold Usable at hlive
  simp only [decide_eq_true_eq, ← hv.deleted, hlive]
  have hkeys := hv.keys
  by_cases he : v.1 = t.emptyval.1
  · have hd : t.delkey ≠ some v.1 := he ▸ hkeys
    simp [he, hkeys]
  · have he' : ¬ t.emptyval.1 = v.1 := fun h => he h.symm
    by_cases hd : t.delkey = some v.1 <;> simp [he, he', hd]

theorem Valid.entries_le (hv : t.Valid tr) : t.entries.length + t.numDeleted ≤ t.numElements :=
  hv.countP_eq.symm.trans_le hv.elements

/-- size() is how many values there are to come by. -/
theorem Exact.size_eq (hx : t.Exact) (hv : t.Valid tr) : t.size = t.entries.length := by
  have hcount := hx.trans hv.countP_eq
  unfold size
  omega

theorem Valid.resetThresholds (hv : t.Valid tr) : t.resetThresholds.Valid tr :=
  ⟨hv.powerOfTwo, hv.placed, hv.elements, hv.deleted, hv.keys, hv.load, rfl⟩

theorem clearToSize_cell {sz p : Nat} (hp : p < sz) : (t.clearToSize sz).cell p = .free :=
  cell_free_iff.mpr (congrArg Prod.fst (clearToSize_bucket hp))

theorem clearToSize_exact (sz : Nat) : (t.clearToSize sz).Exact := by
  refine (List.countP_eq_zero.mpr fun v hmem => ?_).symm
  rw [List.eq_of_mem_replicate hmem]
  simp [clearToSize, DenseHashtable.resetThresholds]

theorem clearToSize_valid {k : Nat} (hk2 : 2 ≤ k) (hk63 : k ≤ 63)
    (hkeys : t.delkey ≠ some t.emptyval.1) : (t.clearToSize (2 ^ k)).Valid tr where
  powerOfTwo := ⟨k, hk2, hk63, bucketCount_clearToSize _⟩
  placed := Placed.empty fun p hp => clearToSize_cell (hp.trans_eq (bucketCount_clearToSize _))
  elements := (clearToSize_exact _).ge
  deleted := by
    refine (List.countP_eq_zero.mpr fun v hmem => ?_).symm
    rw [List.eq_of_mem_replicate hmem]
    rw [decide_eq_true_eq]
    exact hkeys
  keys := hkeys
  load := Nat.zero_le _
  enlarge := rfl

theorem clearToSize_represents (sz : Nat) :
    (t.clearToSize sz).Represents fun _ => none := by
  intro key v
  constructor
  · intro h
    nomatch h
  · intro ⟨p, hp, hc, _⟩
    rw [clearToSize_cell (hp.trans_eq (bucketCount_clearToSize _))] at hc
    nomatch hc

end Blockparser.DenseHashtable
