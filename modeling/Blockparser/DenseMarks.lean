import Blockparser.DenseHashMap

/-! The two keys that stand for no key in a dense_hash_map. Neither is found again by its
name. The key of the deleted buckets does no harm before the first is erased, that of the
empty ones does none in a table that is only filled. -/
namespace Blockparser.DenseHashtable
open Probing

variable {K V : Type} {t : DenseHashtable K V} {tr : Traits K} {m : K → Option V}
  {mark : Option K}

/-- The table with another key for its deleted buckets. -/
def withMark (t : DenseHashtable K V) (mark : Option K) : DenseHashtable K V :=
  { t with delkey := mark }

@[simp] theorem withMark_withMark (mark mark' : Option K) :
    (t.withMark mark).withMark mark' = t.withMark mark' := rfl

section
variable (t) (mark : Option K)

theorem bucketCount_withMark : (t.withMark mark).bucketCount = t.bucketCount := rfl

theorem numElements_withMark : (t.withMark mark).numElements = t.numElements := rfl

theorem numDeleted_withMark : (t.withMark mark).numDeleted = t.numDeleted := rfl

theorem enlargeThreshold_withMark :
    (t.withMark mark).enlargeThreshold = t.enlargeThreshold := rfl

theorem shrinkThreshold_withMark : (t.withMark mark).shrinkThreshold = t.shrinkThreshold := rfl

theorem resizeTarget_withMark (delta needed sz : Nat) :
    (t.withMark mark).resizeTarget delta needed sz = t.resizeTarget delta needed sz := rfl

end

@[simp] theorem withMark_delkey : t.withMark t.delkey = t := rfl

variable [DecidableEq K]

/-- A bucket that is found is one of the key, and neither empty nor deleted. -/
theorem findPositionFrom_found {key : K} {fuel n b p : Nat} {insertPos : Option Nat}
    (h : t.findPositionFrom tr key fuel n b insertPos = .ok (.found p)) :
    t.testEmpty p = false ∧ t.testDeleted p = false ∧ key = (t.bucket p).1 := by
  induction fuel generalizing n b insertPos with
  | zero => cases h
  | succ fuel ih =>
    unfold findPositionFrom at h
    dsimp only at h
    split at h
    · cases h
    · next hempty =>
      cases hcheck : t.checkDeleted tr with
      | error e =>
        rw [hcheck] at h
        cases h
      | ok u =>
        rw [bind_ok hcheck] at h
        split at h
        · exact ih h
        · next hdel =>
          split at h
          · next hkey =>
            cases h
            exact ⟨Bool.eq_false_iff.mpr hempty, Bool.eq_false_iff.mpr hdel, hkey⟩
          · exact ih h

theorem find_found {key : K} {p : Nat} (h : t.find tr key = .ok (some p)) :
    t.testEmpty p = false ∧ t.testDeleted p = false ∧ key = (t.bucket p).1 := by
  unfold find at h
  split at h
  · cases h
  · cases hpos : t.findPosition tr key with
    | error e =>
      rw [hpos] at h
      cases h
    | ok pos =>
      rw [bind_ok hpos] at h
      cases pos with
      | found q =>
        cases h
        exact findPositionFrom_found hpos
      | absent q => cases h

theorem find_emptyKey (t : DenseHashtable K V) (tr : Traits K) (p : Nat) :
    t.find tr t.emptyval.1 ≠ .ok (some p) := by
  intro h
  obtain ⟨hempty, -, hkey⟩ := find_found h
  unfold testEmpty at hempty
  exact of_decide_eq_false hempty hkey

/-- The key of the deleted buckets is not found either, once there is one. -/
theorem find_deletedKey {key : K} (hd : t.delkey = some key) (hpos : 0 < t.numDeleted) (p : Nat) :
    t.find tr key ≠ .ok (some p) := by
  intro h
  obtain ⟨-, hdel, hkey⟩ := find_found h
  unfold testDeleted at hdel
  exact of_decide_eq_false hdel ⟨hpos, hkey ▸ hd⟩

omit [DecidableEq K] in
theorem check_ndebug (hnd : tr.ndebug = true) (b : Bool) : check tr b = .ok () := by
  unfold check
  rw [hnd, Bool.or_true]
  rfl

theorem findPositionFrom_ends (hnd : tr.ndebug = true) {k : Nat} (hk : t.bucketCount = 2 ^ k)
    {key : K} {fuel j : Nat} (insertPos : Option Nat) (h : ∃ i, j ≤ i ∧ i < j + fuel ∧
      t.testEmpty (probe t.bucketCount (tr.hash key) i) = true) :
    ∃ r, t.findPositionFrom tr key fuel j (probe t.bucketCount (tr.hash key) j) insertPos =
      .ok r := by
  induction fuel generalizing j insertPos with
  | zero =>
    obtain ⟨i, hge, hlt, -⟩ := h
    omega
  | succ fuel ih =>
    obtain ⟨i, hge, hlt, hi⟩ := h
    have hnext : (probe t.bucketCount (tr.hash key) j + (j + 1)) &&& (t.bucketCount - 1) =
        probe t.bucketCount (tr.hash key) (j + 1) := by
      rw [hk, Nat.and_two_pow_sub_one_eq_mod]
      rfl
    unfold findPositionFrom checkDeleted
    dsimp only
    rw [hnext, check_ndebug hnd, bind_ok_eq]
    by_cases he : t.testEmpty (probe t.bucketCount (tr.hash key) j) = true
    · rw [if_pos he]
      exact ⟨_, rfl⟩
    · have hij : i ≠ j := fun hij => he (hij ▸ hi)
      have hlater : ∃ i, j + 1 ≤ i ∧ i < j + 1 + fuel ∧
          t.testEmpty (probe t.bucketCount (tr.hash key) i) = true :=
        ⟨i, by omega, by omega, hi⟩
      rw [if_neg he]
      split
      · exact ih _ hlater
      · split
        · exact ⟨_, rfl⟩
        · exact ih _ hlater

/-- find comes to an end as long as one bucket is empty, whatever the others hold. -/
theorem find_ends (hnd : tr.ndebug = true) {k : Nat} (hk : t.bucketCount = 2 ^ k) {p : Nat}
    (hp : p < t.bucketCount) (he : t.testEmpty p = true) (key : K) :
    ∃ r, t.find tr key = .ok r := by
  unfold find
  split
  · exact ⟨_, rfl⟩
  · rw [hk] at hp
    obtain ⟨j, hj, hjp⟩ := probe_surjective (tr.hash key) hp
    rw [← hjp, ← hk] at he
    rw [← hk, ← Nat.zero_add t.bucketCount] at hj
    obtain ⟨r, hr⟩ := @findPositionFrom_ends _ _ _ _ _ hnd _ hk key t.bucketCount 0 none
      ⟨j, Nat.zero_le j, hj, he⟩
    have hpos : t.findPosition tr key = .ok r := by
      unfold findPosition
      rw [hk, Nat.and_two_pow_sub_one_eq_mod, ← hk]
      exact hr
    rw [bind_ok hpos]
    cases r <;> exact ⟨_, rfl⟩

/- Whatever is done to a table, the key of its empty buckets stays. -/
section Frame
variable {t' : DenseHashtable K V} {key : K} {b : Bool} {w p : Nat}

theorem copyValues_emptyval {vs : List (K × V)} (h : vs.foldlM (copyValue tr) t = .ok t') :
    t'.emptyval = t.emptyval := by
  induction vs generalizing t with
  | nil =>
    cases h
    rfl
  | cons v vs ih =>
    rw [List.foldlM_cons] at h
    obtain ⟨t₁, hcopy, hrest⟩ := of_bind_ok h
    obtain ⟨q, -, hset⟩ := of_bind_ok hcopy
    cases hset
    have he := ih hrest
    exact he

theorem swapCopy_emptyval (h : t.swapCopy tr w = .ok t') : t'.emptyval = t.emptyval := by
  obtain ⟨t₁, hcopy, hswap⟩ := of_bind_ok h
  obtain ⟨sz, -, h₁⟩ := of_bind_ok hcopy
  obtain ⟨u, -, h₂⟩ := of_bind_ok h₁
  obtain ⟨u', -, h₃⟩ := of_bind_ok h₂
  cases hswap
  have he := copyValues_emptyval h₃
  exact he

theorem shrinkIf_emptyval {r : Bool × DenseHashtable K V} (h : t.shrinkIf tr b = .ok r) :
    r.2.emptyval = t.emptyval := by
  unfold shrinkIf at h
  split at h
  · obtain ⟨u, -, h₁⟩ := of_bind_ok h
    obtain ⟨u', -, h₂⟩ := of_bind_ok h₁
    obtain ⟨u'', -, h₃⟩ := of_bind_ok h₂
    dsimp only at h₃
    split at h₃
    · obtain ⟨t₁, hcopy, hres⟩ := of_bind_ok h₃
      cases hres
      have he := swapCopy_emptyval hcopy
      exact he
    · cases h₃
      rfl
  · cases h
    rfl

theorem resizeDelta_emptyval {delta : Nat} {r : Bool × DenseHashtable K V}
    (h : t.resizeDelta tr delta = .ok r) : r.2.emptyval = t.emptyval := by
  obtain ⟨r₁, hshrink, hgrow⟩ := of_bind_ok h
  have he := shrinkIf_emptyval hshrink
  unfold growBy at hgrow
  split at hgrow
  · nomatch hgrow
  · split at hgrow
    · cases hgrow
      exact he
    · obtain ⟨needed, -, h₁⟩ := of_bind_ok hgrow
      split at h₁
      · cases h₁
        exact he
      · obtain ⟨sz, -, h₂⟩ := of_bind_ok h₁
        obtain ⟨t₁, hcopy, hres⟩ := of_bind_ok h₂
        cases hres
        exact (swapCopy_emptyval hcopy).trans he

theorem insertAt_emptyval {obj : K × V} (h : t.insertAt tr obj p = .ok t') :
    t'.emptyval = t.emptyval := by
  unfold insertAt at h
  split at h
  · cases h
  · obtain ⟨u, -, h₁⟩ := of_bind_ok h
    dsimp only at h₁
    split at h₁
    · obtain ⟨u', -, h₂⟩ := of_bind_ok h₁
      obtain ⟨u'', -, h₃⟩ := of_bind_ok h₂
      cases h₃
      rfl
    · cases h₁
      rfl

theorem insertNoresize_emptyval {obj : K × V} {r : (Nat × Bool) × DenseHashtable K V}
    (h : t.insertNoresize tr obj = .ok r) : r.2.emptyval = t.emptyval := by
  obtain ⟨u, -, h₁⟩ := of_bind_ok h
  obtain ⟨pos, -, h₂⟩ := of_bind_ok h₁
  cases pos with
  | found q =>
    cases h₂
    rfl
  | absent q =>
    obtain ⟨t₁, hins, hres⟩ := of_bind_ok h₂
    cases hres
    exact insertAt_emptyval hins

variable [Inhabited V]

theorem findOrInsert_emptyval {r : Nat × DenseHashtable K V}
    (h : t.findOrInsert tr key = .ok r) : r.2.emptyval = t.emptyval := by
  obtain ⟨u, -, h₁⟩ := of_bind_ok h
  obtain ⟨pos, -, h₂⟩ := of_bind_ok h₁
  cases pos with
  | found q =>
    cases h₂
    rfl
  | absent q =>
    obtain ⟨r₁, hres, h₃⟩ := of_bind_ok h₂
    have he := resizeDelta_emptyval hres
    split at h₃
    · obtain ⟨r₂, hins, hret⟩ := of_bind_ok h₃
      cases hret
      exact (insertNoresize_emptyval hins).trans he
    · obtain ⟨t₂, hins, hret⟩ := of_bind_ok h₃
      cases hret
      exact (insertAt_emptyval hins).trans he

theorem erase_emptyval {r : Nat × DenseHashtable K V} (h : t.erase tr key = .ok r) :
    r.2.emptyval = t.emptyval := by
  obtain ⟨u, -, h₁⟩ := of_bind_ok h
  obtain ⟨pos, -, h₂⟩ := of_bind_ok h₁
  cases pos with
  | none =>
    cases h₂
    rfl
  | some q =>
    obtain ⟨u', -, h₃⟩ := of_bind_ok h₂
    obtain ⟨u'', -, h₄⟩ := of_bind_ok h₃
    obtain ⟨t₁, hset, hret⟩ := of_bind_ok h₄
    unfold setDeleted at hset
    cases hd : t.delkey with
    | none =>
      rw [hd] at hset
      nomatch hset
    | some delkey =>
      rw [hd] at hset
      cases hset
      cases hret
      rfl

end Frame

section Unmarked

theorem testDeleted_of_zero (h0 : t.numDeleted = 0) (p : Nat) : t.testDeleted p = false := by
  unfold testDeleted
  rw [h0]
  exact decide_eq_false fun h => Nat.lt_irrefl 0 h.1

omit [DecidableEq K] in
theorem checkDeleted_of_zero (h0 : t.numDeleted = 0) : t.checkDeleted tr = .ok () := by
  unfold checkDeleted
  rw [h0, beq_self_eq_true, Bool.or_true, check_true]

theorem findPosition_withMark (h0 : t.numDeleted = 0) (mark : Option K) (key : K) :
    (t.withMark mark).findPosition tr key = t.findPosition tr key := by
  have hfrom : ∀ fuel n b insertPos, (t.withMark mark).findPositionFrom tr key fuel n b insertPos =
      t.findPositionFrom tr key fuel n b insertPos := by
    intro fuel
    induction fuel with
    | zero => exact fun _ _ _ => rfl
    | succ fuel ih =>
      intro n b insertPos
      unfold findPositionFrom
      rw [checkDeleted_of_zero h0, checkDeleted_of_zero (t := t.withMark mark) h0,
        testDeleted_of_zero h0, testDeleted_of_zero (t := t.withMark mark) h0]
      simp only [ih]
      rfl
  exact hfrom ..

theorem find_withMark (h0 : t.numDeleted = 0) (mark : Option K) (key : K) :
    (t.withMark mark).find tr key = t.find tr key := by
  unfold find
  rw [findPosition_withMark h0]
  rfl

theorem copyValues_withMark (mark : Option K) (vs : List (K × V)) (t : DenseHashtable K V) :
    vs.foldlM (copyValue tr) (t.withMark mark) =
      (vs.foldlM (copyValue tr) t).map (withMark · mark) := by
  have hfrom : ∀ (t : DenseHashtable K V) fuel n b,
      (t.withMark mark).emptyBucketFrom fuel n b = t.emptyBucketFrom fuel n b := by
    intro t fuel
    induction fuel with
    | zero => exact fun _ _ => rfl
    | succ fuel ih =>
      intro n b
      unfold emptyBucketFrom
      rw [ih]
      rfl
  induction vs generalizing t with
  | nil => rfl
  | cons v vs ih =>
    have hcopy : (t.withMark mark).copyValue tr v = (t.copyValue tr v).map (withMark · mark) := by
      unfold copyValue
      rw [hfrom, bucketCount_withMark]
      cases t.emptyBucketFrom t.bucketCount 0 (tr.hash v.1 &&& (t.bucketCount - 1)) <;> rfl
    rw [List.foldlM_cons, List.foldlM_cons, hcopy]
    cases t.copyValue tr v with
    | error e => rfl
    | ok t' => exact ih t'

theorem entries_withMark (h0 : t.numDeleted = 0) (mark : Option K) :
    (t.withMark mark).entries = t.entries := by
  have h0' : (t.withMark mark).numDeleted = 0 := h0
  unfold entries
  simp only [h0, h0', Nat.lt_irrefl, false_and, not_false_eq_true, and_true]
  rfl

theorem swapCopy_withMark (h0 : t.numDeleted = 0) (mark : Option K) (w : Nat) :
    (t.withMark mark).swapCopy tr w = (t.swapCopy tr w).map (withMark · mark) := by
  unfold swapCopy copyFrom
  rw [entries_withMark h0, checkDeleted_of_zero h0, checkDeleted_of_zero (t := t.withMark mark) h0]
  change ((minBuckets t.size w >>= _) >>= _) = ((minBuckets t.size w >>= _) >>= _).map _
  cases minBuckets t.size w with
  | error e => rfl
  | ok sz =>
    simp only [bind_ok_eq]
    have hclear : (t.withMark mark).clearToSize sz = (t.clearToSize sz).withMark mark := rfl
    rw [hclear, copyValues_withMark]
    change ((check tr (isPowerOfTwo (t.clearToSize sz).bucketCount) >>= _) >>= _) =
      ((check tr (isPowerOfTwo (t.clearToSize sz).bucketCount) >>= _) >>= _).map _
    cases check tr (isPowerOfTwo (t.clearToSize sz).bucketCount) with
    | error e => rfl
    | ok u =>
      simp only [bind_ok_eq]
      cases t.entries.foldlM (copyValue tr) (t.clearToSize sz) <;> rfl

/-- What an operation answers, with the table under another mark. -/
def marked {α : Type} (mark : Option K) (r : α × DenseHashtable K V) : α × DenseHashtable K V :=
  (r.1, r.2.withMark mark)

omit [DecidableEq K] in
theorem map_bind {α β γ : Type} (x : Except Fault α) (f : α → Except Fault β) (g : β → γ) :
    (x >>= f).map g = x >>= fun a => (f a).map g := by
  cases x <;> rfl

theorem maybeShrink_withMark (h0 : t.numDeleted = 0) (mark : Option K) :
    (t.withMark mark).maybeShrink tr = (t.maybeShrink tr).map (marked mark) := by
  unfold maybeShrink
  simp only [map_bind]
  refine bind_congr fun _ => bind_congr fun _ => bind_congr fun _ => ?_
  rw [shrinkThreshold_withMark, numElements_withMark, numDeleted_withMark, bucketCount_withMark]
  by_cases hs : 0 < t.shrinkThreshold ∧ t.numElements - t.numDeleted < t.shrinkThreshold ∧
      defaultStartingBuckets < t.bucketCount
  · rw [if_pos hs, if_pos hs, map_bind, swapCopy_withMark h0]
    cases t.swapCopy tr (shrinkTo (t.numElements - t.numDeleted) (t.bucketCount / 2)) <;> rfl
  · rw [if_neg hs, if_neg hs]
    rfl

theorem shrinkIf_withMark (h0 : t.numDeleted = 0) (mark : Option K) (b : Bool) :
    (t.withMark mark).shrinkIf tr b = (t.shrinkIf tr b).map (marked mark) := by
  unfold shrinkIf
  split
  · exact maybeShrink_withMark h0 mark
  · rfl

theorem growBy_withMark (h0 : t.numDeleted = 0) (mark : Option K) (delta : Nat) (b : Bool) :
    (t.withMark mark).growBy tr delta b = (t.growBy tr delta b).map (marked mark) := by
  unfold growBy
  rw [enlargeThreshold_withMark, numElements_withMark, bucketCount_withMark]
  by_cases hmax : sizeTypeMax - delta ≤ t.numElements
  · rw [if_pos hmax, if_pos hmax]
    rfl
  · rw [if_neg hmax, if_neg hmax]
    by_cases hok : minBucketsAllowed ≤ t.bucketCount ∧ t.numElements + delta ≤ t.enlargeThreshold
    · rw [if_pos hok, if_pos hok]
      rfl
    · rw [if_neg hok, if_neg hok, map_bind]
      refine bind_congr fun needed => ?_
      by_cases hn : needed ≤ t.bucketCount
      · rw [if_pos hn, if_pos hn]
        rfl
      · rw [if_neg hn, if_neg hn, map_bind]
        refine bind_congr fun resizeTo => ?_
        rw [map_bind, swapCopy_withMark h0, resizeTarget_withMark]
        cases t.swapCopy tr (t.resizeTarget delta needed resizeTo) <;> rfl

theorem insertAt_withMark (h0 : t.numDeleted = 0) (mark : Option K) (obj : K × V) (pos : Nat) :
    (t.withMark mark).insertAt tr obj pos = (t.insertAt tr obj pos).map (withMark · mark) := by
  unfold insertAt
  rw [checkDeleted_of_zero h0, checkDeleted_of_zero (t := t.withMark mark) h0,
    testDeleted_of_zero h0, testDeleted_of_zero (t := t.withMark mark) h0]
  by_cases hmax : tr.maxSize ≤ t.size
  · rw [if_pos hmax]
    exact if_pos hmax
  · rw [if_neg hmax]
    exact if_neg hmax

theorem checkKey_ndebug (hnd : tr.ndebug = true) (key : K) : t.checkKey tr key = .ok () := by
  unfold checkKey
  rw [check_ndebug hnd, check_ndebug hnd]
  rfl

theorem insertNoresize_withMark (hnd : tr.ndebug = true) (h0 : t.numDeleted = 0)
    (mark : Option K) (obj : K × V) :
    (t.withMark mark).insertNoresize tr obj = (t.insertNoresize tr obj).map (marked mark) := by
  unfold insertNoresize
  rw [checkKey_ndebug hnd, checkKey_ndebug hnd, findPosition_withMark h0, bind_ok_eq, bind_ok_eq,
    map_bind]
  refine bind_congr fun pos => ?_
  cases pos with
  | found p => rfl
  | absent q =>
    dsimp only
    rw [insertAt_withMark h0]
    cases t.insertAt tr obj q <;> rfl

theorem Valid.numDeleted_eq_zero (hv : t.Valid tr) (hnone : t.delkey = none) :
    t.numDeleted = 0 := by
  rw [hv.deleted, hnone]
  exact List.countP_eq_zero.mpr fun v _ => by simp

/-- Where nothing was deleted the mark can be left out. -/
theorem Valid.unmark (hv : t.Valid tr) (h0 : t.numDeleted = 0) :
    (t.withMark none).Valid tr ∧ ∀ m, t.Represents m → (t.withMark none).Represents m := by
  have hcell : ∀ p < t.bucketCount, (t.withMark none).cell p = t.cell p := by
    intro p hp
    have hne : t.delkey ≠ some (t.bucket p).1 := by
      intro hd
      have hdel := (hv.testDeleted_iff hp).mpr hd
      rw [testDeleted_of_zero h0] at hdel
      nomatch hdel
    change (if _ then _ else _) = if _ then _ else _
    rw [if_neg hne]
    exact if_congr Iff.rfl rfl (if_neg nofun)
  refine ⟨⟨hv.powerOfTwo, hv.placed.congr hv.pos hcell, hv.elements, ?_, nofun, hv.load,
    hv.enlarge⟩, ?_⟩
  · refine Eq.trans h0 (List.countP_eq_zero.mpr fun v _ => ?_).symm
    rw [decide_eq_true_eq]
    exact nofun
  · intro m hr key v
    rw [hr key v]
    exact exists_congr fun p => and_congr_right fun hp => by rw [hcell p hp]; rfl

variable [Inhabited V]

/-- operator[] in a table where nothing was deleted. -/
theorem findOrInsert_withMark (hnd : tr.ndebug = true) (hv : t.Valid tr) (hr : t.Represents m)
    (hnone : t.delkey = none) (hsize : t.numElements + 1 < 2 ^ 61) (mark : Option K) (key : K) :
    (t.withMark mark).findOrInsert tr key = (t.findOrInsert tr key).map (marked mark) := by
  have h0 := hv.numDeleted_eq_zero hnone
  unfold findOrInsert
  rw [checkKey_ndebug hnd, checkKey_ndebug hnd, findPosition_withMark h0, bind_ok_eq, bind_ok_eq,
    map_bind]
  refine bind_congr fun pos => ?_
  cases pos with
  | found p => rfl
  | absent q =>
    obtain ⟨b, t₁, hshrink, hk, -⟩ := shrinkIf_spec t.considerShrink hv hr (by omega)
    have h0₁ := hk.valid.numDeleted_eq_zero (hk.delkey.trans hnone)
    have hele := hk.elements
    obtain ⟨b', t₂, hgrow, hk', -⟩ := growBy_spec 1 b hk.valid (hk.map m hr) (by omega)
    have h0₂ := hk'.valid.numDeleted_eq_zero (hk'.delkey.trans (hk.delkey.trans hnone))
    have hres : t.resizeDelta tr 1 = .ok (b', t₂) := by
      unfold resizeDelta
      rw [bind_ok hshrink]
      exact hgrow
    have hres' : (t.withMark mark).resizeDelta tr 1 = .ok (b', t₂.withMark mark) := by
      unfold resizeDelta
      change (t.withMark mark).shrinkIf tr t.considerShrink >>= _ = _
      rw [shrinkIf_withMark h0, hshrink]
      change (t₁.withMark mark).growBy tr 1 b = _
      rw [growBy_withMark h0₁, hgrow]
      rfl
    dsimp only
    rw [bind_ok hres, bind_ok hres']
    dsimp only
    cases b' with
    | true =>
      rw [if_pos rfl, if_pos rfl, insertNoresize_withMark hnd h0₂]
      cases t₂.insertNoresize tr (key, default) <;> rfl
    | false =>
      rw [if_neg nofun, if_neg nofun, insertAt_withMark h0₂]
      cases t₂.insertAt tr (key, default) q <;> rfl

end Unmarked

/-- The table holds this map. `mark` is its key for deleted buckets, or none as long as nothing
was deleted and no assertion looks at that key. -/
structure Reads (tr : Traits K) (t : DenseHashtable K V) (mark : Option K) (m : K → Option V) :
    Prop where
  which : mark = t.delkey ∨ mark = none ∧ tr.ndebug = true
  valid : (t.withMark mark).Valid tr
  map : (t.withMark mark).Represents m

theorem Reads.find_eq (h : Reads tr t mark m) (key : K) :
    (t.withMark mark).find tr key = t.find tr key := by
  cases h.which with
  | inl hmark =>
    rw [hmark]
    rfl
  | inr hmark =>
    have hv := h.valid
    rw [hmark.1] at hv ⊢
    exact find_withMark (t := t) (hv.numDeleted_eq_zero rfl) none key

theorem Reads.find (h : Reads tr t mark m) (key : K) :
    ∃ r, t.find tr key = .ok r ∧ r.map t.valueAt = m key := by
  obtain ⟨r, hrun, hval, -⟩ := find_spec h.valid h.map key
  rw [h.find_eq] at hrun
  exact ⟨r, hrun, hval⟩

/-- What a loop over the table comes by. -/
theorem Reads.entries_eq (h : Reads tr t mark m) : (t.withMark mark).entries = t.entries := by
  cases h.which with
  | inl hmark =>
    rw [hmark]
    rfl
  | inr hmark =>
    have hv := h.valid
    rw [hmark.1] at hv ⊢
    exact entries_withMark (t := t) (hv.numDeleted_eq_zero rfl) none

theorem Reads.mem_entries (h : Reads tr t mark m) {key : K} {v : V} :
    (key, v) ∈ t.entries ↔ m key = some v := by
  rw [← h.entries_eq]
  exact h.valid.entries_iff h.map key v

section Store
variable [Inhabited V] {key : K}

/-- An assignment through operator[]. -/
theorem Reads.store (h : Reads tr t mark m) (hkey : key ≠ t.emptyval.1) (hmark : mark ≠ some key)
    (hsize : t.numElements + 1 < 2 ^ 61) (hmax : t.numElements < tr.maxSize) (v : V) :
    ∃ p t', t.findOrInsert tr key = .ok (p, t') ∧
      Reads tr (t'.assign p v) mark (Function.update m key (some v)) ∧
      (t'.assign p v).emptyval = t.emptyval ∧ (t'.assign p v).delkey = t.delkey ∧
      (t'.assign p v).numElements ≤ t.numElements + 1 := by
  obtain ⟨p, t₁, hrun, hbec, hp, hfull, -⟩ :=
    findOrInsert_spec h.valid h.map ⟨hkey, hmark⟩ hsize hmax
  have hass := assign_spec (v := v) hbec.valid hbec.map hp hfull
  rw [Function.update_idem] at hass
  have hdel : t₁.delkey = mark := hbec.delkey
  cases h.which with
  | inl hm =>
    subst hm
    refine ⟨p, t₁, hrun, ⟨Or.inl hdel.symm, ?_, ?_⟩, hbec.emptyval, hdel, hbec.elements⟩
    · rw [← hdel]
      exact hass.valid
    · rw [← hdel]
      exact hass.map
  | inr hm =>
    obtain ⟨rfl, hnd⟩ := hm
    have hmarked := findOrInsert_withMark hnd h.valid h.map rfl hsize t.delkey key
    rw [hrun] at hmarked
    have heq : ((t₁.withMark t.delkey).assign p v).withMark none = t₁.assign p v := by
      have hdel' : (t₁.assign p v).delkey = none := hdel
      rw [← withMark_delkey (t := t₁.assign p v), hdel']
      rfl
    refine ⟨p, t₁.withMark t.delkey, hmarked, ⟨Or.inr ⟨rfl, hnd⟩, ?_, ?_⟩, hbec.emptyval, rfl,
      hbec.elements⟩
    · rw [heq]
      exact hass.valid
    · rw [heq]
      exact hass.map

theorem Reads.erase {delkey : K} (h : Reads tr t (some delkey) m) (hd : t.delkey = some delkey)
    (hkey : key ≠ t.emptyval.1) (hne : delkey ≠ key) :
    ∃ t', t.erase tr key = .ok (if (m key).isSome then 1 else 0, t') ∧
      Reads tr t' (some delkey) (Function.update m key none) ∧ t'.emptyval = t.emptyval ∧
      t'.delkey = t.delkey ∧ t'.numElements = t.numElements := by
  have hv := h.valid
  have hr := h.map
  rw [← hd, withMark_delkey] at hv hr
  obtain ⟨t', hrun, hbec, hele⟩ := @erase_spec _ _ _ _ _ _ _ key delkey hv hr
    ⟨hkey, fun hk => hne (Option.some_inj.mp (hd.symm.trans hk))⟩ hd
  have hdel := hbec.delkey.trans hd
  refine ⟨t', hrun, ⟨Or.inl hdel.symm, ?_, ?_⟩, hbec.emptyval, hbec.delkey, hele⟩
  · rw [← hdel]
    exact hbec.valid
  · rw [← hdel]
    exact hbec.map

/-- What erase finds it takes out, whatever else is there. -/
theorem erase_found (hnd : tr.ndebug = true) {delkey : K} (hd : t.delkey = some delkey)
    {p : Nat} (hp : t.find tr key = .ok (some p)) :
    ∃ t', t.erase tr key = .ok (1, t') ∧ t'.delkey = some delkey ∧
      t'.numDeleted = t.numDeleted + 1 ∧ t'.emptyval = t.emptyval ∧
      t'.table = t.table.set p (delkey, default) := by
  unfold DenseHashtable.erase
  rw [checkKey_ndebug hnd, bind_ok_eq, bind_ok hp]
  dsimp only
  unfold checkDeleted setDeleted
  rw [check_ndebug hnd, check_ndebug hnd, bind_ok_eq, bind_ok_eq, hd]
  exact ⟨_, rfl, hd, rfl, rfl, rfl⟩

omit [Inhabited V] in
/-- After that find still comes to an end, whatever else it does not find. -/
theorem Reads.find_ends (h : Reads tr t mark m) (hnd : tr.ndebug = true) (hkey : key ≠ t.emptyval.1)
    {p : Nat} (hp : t.find tr key = .ok (some p)) {v : K × V} {t' : DenseHashtable K V}
    (he : t'.emptyval = t.emptyval) (ht : t'.table = t.table.set p v) (key' : K) :
    ∃ r, t'.find tr key' = .ok r := by
  obtain ⟨k, -, -, hk⟩ := h.valid.powerOfTwo
  obtain ⟨q, hq, hfree⟩ := h.valid.exists_free
  have hmarked : ((t.withMark mark).bucket q).1 = t.emptyval.1 := cell_free_iff.mp hfree
  have hempty : (t.bucket q).1 = t.emptyval.1 := hmarked
  have hcount : t'.bucketCount = t.bucketCount := by
    unfold bucketCount
    rw [ht, List.length_set]
  have hqp : q ≠ p := by
    intro hqp
    obtain ⟨-, -, hbucket⟩ := find_found hp
    rw [hqp, ← hbucket] at hempty
    exact hkey hempty
  have hsame : t'.bucket q = t.bucket q := by
    unfold bucket
    rw [he, ht, List.getD_eq_getElem?_getD, List.getElem?_set_ne hqp.symm,
      ← List.getD_eq_getElem?_getD]
  refine DenseHashtable.find_ends hnd (hcount.trans hk) (hq.trans_eq hcount.symm) ?_ key'
  unfold testEmpty
  rw [he, hsame, hempty]
  exact decide_eq_true rfl

/-- And it is not found again, whatever else is not. -/
theorem Reads.find_erased (h : Reads tr t mark m) {delkey : K} (hne : delkey ≠ key)
    (hkey : key ≠ t.emptyval.1) (hmark : mark ≠ some key) {p : Nat}
    (hp : t.find tr key = .ok (some p)) {t' : DenseHashtable K V}
    (he : t'.emptyval = t.emptyval) (ht : t'.table = t.table.set p (delkey, default)) (q : Nat) :
    t'.find tr key ≠ .ok (some q) := by
  intro hq
  obtain ⟨-, -, hbucket⟩ := find_found hq
  have hb : t'.bucket q = (t.setBucket p (delkey, default)).bucket q := by
    unfold bucket setBucket
    rw [he, ht]
  rw [hb] at hbucket
  obtain ⟨r, hrun, -, hpos⟩ := find_spec h.valid h.map key
  rw [h.find_eq, hp] at hrun
  obtain ⟨hlt, hfull⟩ := hpos p (Except.ok.inj hrun).symm
  have hqlt : q < t.bucketCount := by
    by_contra hge
    have hlen : ¬ q < (t.setBucket p (delkey, default)).table.length := by
      have hcount : (t.setBucket p (delkey, default)).table.length = t.bucketCount :=
        bucketCount_setBucket _ _
      omega
    unfold bucket at hbucket
    rw [List.getD_eq_getElem?_getD, List.getElem?_eq_none (not_lt.mp hlen)] at hbucket
    exact hkey hbucket
  rw [bucket_set hqlt] at hbucket
  by_cases hqp : q = p
  · rw [if_pos hqp] at hbucket
    exact hne hbucket.symm
  · rw [if_neg hqp] at hbucket
    have hfull' : (t.withMark mark).cell q = .full key :=
      cell_full_iff.mpr ⟨⟨hkey, hmark⟩, hbucket.symm⟩
    exact hqp (h.valid.placed.unique q hqlt p hlt key hfull' hfull)

end Store

section Fill

/-- The key of the empty buckets in one of them: one element more is counted, and no bucket
holds it. -/
theorem Valid.emptyKey (hv : t.Valid tr) (hnone : t.delkey = none) {q : Nat}
    (hq : q < t.bucketCount) (hfree : t.cell q = .free)
    (hroom : 2 * (t.numElements + 1) ≤ t.bucketCount) (v : V) :
    (t.withValue q (t.emptyval.1, v) (t.numElements + 1) 0).Valid tr ∧
      ∀ m, t.Represents m →
        (t.withValue q (t.emptyval.1, v) (t.numElements + 1) 0).Represents m := by
  have hcell : ∀ p < t.bucketCount,
      (t.withValue q (t.emptyval.1, v) (t.numElements + 1) 0).cell p = t.cell p := by
    intro p hp
    by_cases hpq : p = q
    · rw [hpq, hfree]
      refine cell_free_iff.mpr ?_
      rw [bucket_withValue hq]
      rfl
    · exact cell_withValue hp hpq
  have hcount := countP_setBucket (t := t) (fun v => ¬ t.emptyval.1 = v.1) hq (t.emptyval.1, v)
  rw [if_neg (by simp [cell_free_iff.mp hfree]), if_neg (by simp)] at hcount
  refine ⟨⟨?_, ?_, ?_, ?_, hv.keys, ?_, ?_⟩, ?_⟩
  · rw [bucketCount_withValue]
    exact hv.powerOfTwo
  · rw [bucketCount_withValue]
    exact hv.placed.congr hv.pos hcell
  · exact hcount.trans_le (hv.elements.trans (Nat.le_succ _))
  · have hdel : ∀ l : List (K × V), (l.countP fun v => t.delkey = some v.1) = 0 := by
      intro l
      rw [hnone]
      exact List.countP_eq_zero.mpr fun v _ => by simp
    exact (hdel _).symm
  · rw [bucketCount_withValue]
    exact hroom
  · rw [bucketCount_withValue]
    exact hv.enlarge
  · intro m hr key v'
    rw [hr key v', bucketCount_withValue]
    refine exists_congr fun p => and_congr_right fun hp => ?_
    rw [hcell p hp]
    refine and_congr_right fun hfull => ?_
    have hpq : p ≠ q := by
      intro hpq
      rw [hpq, hfree] at hfull
      nomatch hfull
    rw [bucket_withValue_ne hp hpq]

theorem Valid.findPosition_emptyKey (hv : t.Valid tr) (hnone : t.delkey = none) :
    ∃ q < t.bucketCount, t.findPosition tr t.emptyval.1 = .ok (.absent q) ∧ t.cell q = .free := by
  rcases hv.findPosition_spec t.emptyval.1 with ⟨p, -, -, hfull⟩ | ⟨q, hq, hrun, hvac, -⟩
  · exact absurd rfl (cell_full_iff.mp hfull).1.1
  · refine ⟨q, hq, hrun, ?_⟩
    cases hvac.open' with
    | inl hfree => exact hfree
    | inr htomb =>
      have hdel := (cell_tomb_iff hv.keys).mp htomb
      rw [hnone] at hdel
      nomatch hdel

theorem Valid.insertAt_free (hv : t.Valid tr) (hnone : t.delkey = none)
    (hmax : t.numElements < tr.maxSize) (obj : K × V) (q : Nat) :
    t.insertAt tr obj q = .ok (t.withValue q obj (t.numElements + 1) 0) := by
  have h0 := hv.numDeleted_eq_zero hnone
  have hsize : ¬ tr.maxSize ≤ t.size := by
    unfold size
    omega
  unfold insertAt
  rw [if_neg hsize, hv.checkDeleted, bind_ok_eq, testDeleted_of_zero h0, if_neg nofun]
  unfold withValue
  rw [← h0]
  rfl

omit [DecidableEq K] in
theorem assign_withValue {q e d : Nat} {key : K} (hq : q < t.bucketCount) (v w : V) :
    (t.withValue q (key, v) e d).assign q w = t.withValue q (key, w) e d := by
  unfold assign
  rw [bucket_withValue hq]
  simp only [withValue, setBucket, List.set_set]

variable [Inhabited V]

/-- A table that is only filled also takes the key of its empty buckets. -/
theorem findOrInsert_emptyKey (hnd : tr.ndebug = true) (hv : t.Valid tr) (hr : t.Represents m)
    (hnone : t.delkey = none) (hsize : t.numElements + 1 < 2 ^ 61)
    (hmax : t.numElements < tr.maxSize) (v : V) :
    ∃ p t', t.findOrInsert tr t.emptyval.1 = .ok (p, t') ∧ (t'.assign p v).Valid tr ∧
      (t'.assign p v).Represents m ∧ (t'.assign p v).emptyval = t.emptyval ∧
      (t'.assign p v).delkey = none ∧ (t'.assign p v).numElements ≤ t.numElements + 1 ∧
      0 < (t'.assign p v).numElements := by
  obtain ⟨q, hq, hrun, hfree⟩ := hv.findPosition_emptyKey hnone
  obtain ⟨b, t₁, hres, hk, hroom, hsame⟩ := resizeDelta_spec 1 hv hr hsize
  have hnone₁ := hk.delkey.trans hnone
  have hmax₁ := Nat.lt_of_le_of_lt hk.elements hmax
  -- the bucket it goes to, after the table has grown or not
  have hput : ∀ q₁ < t₁.bucketCount, t₁.cell q₁ = .free →
      t.findOrInsert tr t.emptyval.1 =
        .ok (q₁, t₁.withValue q₁ (t.emptyval.1, default) (t₁.numElements + 1) 0) →
      ∃ p t', t.findOrInsert tr t.emptyval.1 = .ok (p, t') ∧ (t'.assign p v).Valid tr ∧
        (t'.assign p v).Represents m ∧ (t'.assign p v).emptyval = t.emptyval ∧
        (t'.assign p v).delkey = none ∧ (t'.assign p v).numElements ≤ t.numElements + 1 ∧
        0 < (t'.assign p v).numElements := by
    intro q₁ hq₁ hfree₁ heq
    obtain ⟨hval, hrep⟩ := hk.valid.emptyKey hnone₁ hq₁ hfree₁ hroom v
    rw [hk.emptyval] at hval hrep
    refine ⟨q₁, _, heq, ?_⟩
    rw [assign_withValue hq₁]
    exact ⟨hval, hrep m (hk.map m hr), hk.emptyval, hnone₁, Nat.succ_le_succ hk.elements,
      Nat.succ_pos _⟩
  cases b with
  | true =>
    obtain ⟨q₁, hq₁, hrun₁, hfree₁⟩ := hk.valid.findPosition_emptyKey hnone₁
    rw [hk.emptyval] at hrun₁
    refine hput q₁ hq₁ hfree₁ ?_
    unfold findOrInsert insertNoresize
    rw [checkKey_ndebug hnd, bind_ok_eq, bind_ok hrun]
    dsimp only
    rw [bind_ok hres]
    dsimp only
    rw [if_pos rfl, checkKey_ndebug hnd, bind_ok_eq, bind_ok hrun₁]
    dsimp only
    rw [hk.valid.insertAt_free hnone₁ hmax₁]
    rfl
  | false =>
    obtain ⟨c, rfl⟩ := hsame rfl
    refine hput q hq hfree ?_
    unfold findOrInsert
    rw [checkKey_ndebug hnd, bind_ok_eq, bind_ok hrun]
    dsimp only
    rw [bind_ok hres]
    dsimp only
    rw [if_neg nofun, hk.valid.insertAt_free hnone₁ hmax₁]
    rfl

/-- In the same way one that nothing was erased from, and nothing that is found changes. -/
theorem Reads.store_emptyKey (h : Reads tr t none m) (hnd : tr.ndebug = true)
    (hsize : t.numElements + 1 < 2 ^ 61) (hmax : t.numElements < tr.maxSize) (v : V) :
    ∃ p t', t.findOrInsert tr t.emptyval.1 = .ok (p, t') ∧ Reads tr (t'.assign p v) none m ∧
      (t'.assign p v).emptyval = t.emptyval ∧ (t'.assign p v).delkey = t.delkey ∧
      (t'.assign p v).numElements ≤ t.numElements + 1 := by
  obtain ⟨p, t₁, hrun, hval, hrep, hemp, hdel, hele, -⟩ :=
    findOrInsert_emptyKey hnd h.valid h.map rfl hsize hmax v
  have hmarked := findOrInsert_withMark hnd h.valid h.map rfl hsize t.delkey t.emptyval.1
  have hrun' : (t.withMark none).findOrInsert tr t.emptyval.1 = .ok (p, t₁) := hrun
  rw [hrun'] at hmarked
  have heq : ((t₁.withMark t.delkey).assign p v).withMark none = t₁.assign p v := by
    rw [← withMark_delkey (t := t₁.assign p v), hdel]
    rfl
  refine ⟨p, t₁.withMark t.delkey, hmarked, ⟨Or.inr ⟨rfl, hnd⟩, ?_, ?_⟩, hemp, rfl, hele⟩
  · rw [heq]
    exact hval
  · rw [heq]
    exact hrep

/-- One value for all the keys of a list. -/
def fill (tr : Traits K) (v : V) (t : DenseHashtable K V) (keys : List K) :
    Except Fault (DenseHashtable K V) :=
  keys.foldlM (fun t key => do
    let r ← t.findOrInsert tr key
    return r.2.assign r.1 v) t

omit [Inhabited V] in
theorem Valid.pos_of_mem (hv : t.Valid tr) (hr : t.Represents m) {key : K} {v : V}
    (hm : m key = some v) : 0 < t.numElements := by
  have hmem := (hv.entries_iff hr key v).mpr hm
  have hlen := List.length_pos_of_mem hmem
  have hle := hv.entries_le
  omega

/-- A table that was filled has the keys of the list, but for that of its empty buckets. -/
theorem fill_spec (hnd : tr.ndebug = true) (v : V) (keys : List K) (hv : t.Valid tr)
    (hr : t.Represents m) (hnone : t.delkey = none)
    (hsize : t.numElements + keys.length < 2 ^ 60)
    (hmax : t.numElements + keys.length ≤ tr.maxSize) :
    ∃ t', fill tr v t keys = .ok t' ∧ t'.Valid tr ∧
      t'.Represents (fun key => if key ∈ keys ∧ key ≠ t.emptyval.1 then some v else m key) ∧
      t'.emptyval = t.emptyval ∧ (keys ≠ [] → t'.size ≠ 0) := by
  induction keys generalizing t m with
  | nil => exact ⟨t, rfl, hv, by simpa using hr, rfl, fun h => absurd rfl h⟩
  | cons key keys ih =>
    rw [List.length_cons] at hsize hmax
    have hone : ∃ p t', t.findOrInsert tr key = .ok (p, t') ∧ (t'.assign p v).Valid tr ∧
        (t'.assign p v).Represents
          (if key = t.emptyval.1 then m else Function.update m key (some v)) ∧
        (t'.assign p v).emptyval = t.emptyval ∧ (t'.assign p v).delkey = none ∧
        (t'.assign p v).numElements ≤ t.numElements + 1 ∧
        0 < (t'.assign p v).numElements := by
      by_cases hkey : key = t.emptyval.1
      · rw [hkey, if_pos rfl]
        exact findOrInsert_emptyKey hnd hv hr hnone (by omega) (by omega) v
      · obtain ⟨p, t', hrun, hbec, hp, hfull, -⟩ := findOrInsert_spec hv hr
          ⟨hkey, by rw [hnone]; nofun⟩ (by omega) (by omega)
        have hass := assign_spec (v := v) hbec.valid hbec.map hp hfull
        rw [Function.update_idem] at hass
        rw [if_neg hkey]
        exact ⟨p, t', hrun, hass.valid, hass.map, hbec.emptyval, hbec.delkey.trans hnone,
          hbec.elements, hass.valid.pos_of_mem hass.map (Function.update_self ..)⟩
    obtain ⟨p, t₁, hrun, hv₁, hr₁, hemp, hdel, hele, hpos⟩ := hone
    obtain ⟨t', hrun', hv', hr', hemp', hsz⟩ := ih hv₁ hr₁ hdel (by omega) (by omega)
    refine ⟨t', ?_, hv', ?_, hemp'.trans hemp, ?_⟩
    · unfold fill at hrun' ⊢
      rw [List.foldlM_cons, hrun]
      exact hrun'
    · have hmap : (fun k => if k ∈ key :: keys ∧ k ≠ t.emptyval.1 then some v else m k) =
          fun k => if k ∈ keys ∧ k ≠ (t₁.assign p v).emptyval.1 then some v
            else (if key = t.emptyval.1 then m else Function.update m key (some v)) k := by
        funext k
        rw [hemp]
        by_cases hk : k = key
        · subst hk
          by_cases he : k = t.emptyval.1 <;> simp [he]
        · simp only [List.mem_cons, hk, false_or]
          by_cases he : key = t.emptyval.1
          · rw [if_pos he]
          · rw [if_neg he, Function.update_of_ne hk]
      rw [hmap]
      exact hr'
    · intro _
      cases keys with
      | nil =>
        cases hrun'
        have h0 := hv₁.numDeleted_eq_zero hdel
        unfold size
        omega
      | cons key' keys => exact hsz (List.cons_ne_nil _ _)

end Fill

end Blockparser.DenseHashtable
