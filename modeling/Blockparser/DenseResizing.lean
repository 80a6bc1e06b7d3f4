import Blockparser.DenseCells

/-! A dense_hash_map that grows or shrinks is copied value by value. The map stays, the marks
of deleted keys go. -/
namespace Blockparser.DenseHashtable
open Probing

variable {K V : Type} {t : DenseHashtable K V} [DecidableEq K] {tr : Traits K} {m : K → Option V}

/-- A value copied to a table without tombs. -/
theorem copyValue_spec {v : K × V} (hv : t.Valid tr) (hr : t.Represents m)
    (hu : t.Usable v.1) (hnew : ∀ p < t.bucketCount, t.cell p ≠ .full v.1)
    (hload : 2 * (t.numElements + 1) ≤ t.bucketCount) :
    ∃ q < t.bucketCount,
      t.copyValue tr v = .ok (t.withValue q v (t.numElements + 1) t.numDeleted) ∧
      (t.withValue q v (t.numElements + 1) t.numDeleted).Valid tr ∧
      (t.withValue q v (t.numElements + 1) t.numDeleted).Represents
        (Function.update m v.1 (some v.2)) ∧
      (t.Exact → (t.withValue q v (t.numElements + 1) t.numDeleted).Exact) := by
  obtain ⟨q, hq⟩ : ∃ q,
      firstFree t.bucketCount (tr.hash v.1) t.cell t.bucketCount 0 = some q := by
    obtain ⟨p, hp, hfree⟩ := hv.exists_free
    obtain ⟨k, -, -, hk⟩ := hv.powerOfTwo
    rw [hk] at hp ⊢
    exact firstFree_total hp hfree
  obtain ⟨hfree, hvac⟩ := firstFree_vacant (fun i hi => absurd hi (Nat.not_lt_zero i)) hq
  have hqlt : q < t.bucketCount := by
    obtain ⟨j, hj, -⟩ := hvac.reach
    exact hj ▸ probe_lt hv.pos _ _
  have hrun : t.emptyBucketFrom t.bucketCount 0 (tr.hash v.1 &&& (t.bucketCount - 1)) = .ok q := by
    rw [hv.and_mask]
    refine (hv.emptyBucketFrom_eq v.1 t.bucketCount 0).trans ?_
    rw [hq]
    rfl
  refine ⟨q, hqlt, ?_, ?_, ?_, fun hx => hx.put hqlt hu (.inl ⟨hfree, rfl, rfl, hload⟩)⟩
  · unfold copyValue
    rw [bind_ok hrun]
    rfl
  · exact hv.put hqlt hvac hnew hu (.inl ⟨hfree, rfl, rfl, hload⟩)
  · refine hr.put hqlt (fun p hp _ => hnew p hp) ?_ hu
    intro key' hfull
    rw [hfree] at hfull
    nomatch hfull

/-- What is in a table while values are copied to it: those that were there and the copied
ones. -/
theorem copyValues_spec (vs : List (K × V)) (hnodup : (vs.map Prod.fst).Nodup)
    (hv : t.Valid tr) (hr : t.Represents m) (hu : ∀ v ∈ vs, t.Usable v.1)
    (hnew : ∀ v ∈ vs, m v.1 = none)
    (hload : 2 * (t.numElements + vs.length) ≤ t.bucketCount) :
    ∃ t' m', vs.foldlM (copyValue tr) t = .ok t' ∧ t'.Valid tr ∧ t'.Represents m' ∧
      (∀ key v, m' key = some v ↔ m key = some v ∨ (key, v) ∈ vs) ∧
      t'.numElements = t.numElements + vs.length ∧ t'.numDeleted = t.numDeleted ∧
      t'.bucketCount = t.bucketCount ∧ t'.emptyval = t.emptyval ∧ t'.delkey = t.delkey ∧
      (t.Exact → t'.Exact) := by
  induction vs generalizing t m with
  | nil =>
    exact ⟨t, m, rfl, hv, hr, fun key v => by simp, rfl, rfl, rfl, rfl, rfl, id⟩
  | cons w vs ih =>
    rw [List.map_cons, List.nodup_cons] at hnodup
    have hw := hnew w List.mem_cons_self
    have hcells : ∀ p < t.bucketCount, t.cell p ≠ .full w.1 := by
      intro p hp hfull
      have := (hr w.1 (t.bucket p).2).mpr ⟨p, hp, hfull, rfl⟩
      rw [hw] at this
      nomatch this
    have hlen : (w :: vs).length = vs.length + 1 := rfl
    obtain ⟨q, hq, hrun, hv', hr', hx'⟩ :=
      copyValue_spec hv hr (hu w List.mem_cons_self) hcells (by omega)
    have hne : ∀ v ∈ vs, v.1 ≠ w.1 :=
      fun v hmem h => hnodup.1 (h ▸ List.mem_map_of_mem hmem)
    obtain ⟨t', m', hrun', hv'', hr'', hm', he, hd, hb, hemp, hdel, hx''⟩ :=
      ih hnodup.2 hv' hr' (fun v hmem => hu v (List.mem_cons_of_mem w hmem))
        (fun v hmem => by
          rw [Function.update_of_ne (hne v hmem)]
          exact hnew v (List.mem_cons_of_mem w hmem))
        (by
          rw [bucketCount_withValue]
          show 2 * (t.numElements + 1 + vs.length) ≤ _
          omega)
    refine ⟨t', m', ?_, hv'', hr'', ?_, ?_, hd, hb.trans bucketCount_withValue, hemp, hdel,
      fun hx => hx'' (hx' hx)⟩
    · rw [List.foldlM_cons, bind_ok hrun]
      exact hrun'
    · intro key v
      rw [hm' key v, List.mem_cons]
      by_cases hk : key = w.1
      · rw [hk, Function.update_self, hw]
        constructor
        · rintro (h | h)
          · cases h
            exact .inr (.inl rfl)
          · exact .inr (.inr h)
        · rintro (h | h | h)
          · nomatch h
          · exact .inl (congrArg (fun e => some e.2) h).symm
          · exact .inr h
      · rw [Function.update_of_ne hk]
        constructor
        · rintro (h | h)
          · exact .inl h
          · exact .inr (.inr h)
        · rintro (h | h | h)
          · exact .inl h
          · exact absurd (congrArg Prod.fst h) hk
          · exact .inr h
    · rw [he]
      show t.numElements + 1 + vs.length = _
      omega

/-- The same map in another table, with as many elements at most. -/
structure Kept (tr : Traits K) (t t' : DenseHashtable K V) : Prop where
  valid : t'.Valid tr
  map : ∀ m, t.Represents m → t'.Represents m
  emptyval : t'.emptyval = t.emptyval
  delkey : t'.delkey = t.delkey
  elements : t'.numElements ≤ t.numElements
  exact : t.Exact → t'.Exact

theorem Kept.trans {t t' t'' : DenseHashtable K V} (h : Kept tr t t') (h' : Kept tr t' t'') :
    Kept tr t t'' :=
  ⟨h'.valid, fun m hm => h'.map m (h.map m hm), h'.emptyval.trans h.emptyval,
    h'.delkey.trans h.delkey, h'.elements.trans h.elements,
    fun hx => h'.exact (h.exact hx)⟩

theorem Valid.kept (hv : t.Valid tr) (b : Bool) : Kept tr t { t with considerShrink := b } :=
  ⟨⟨hv.powerOfTwo, hv.placed, hv.elements, hv.deleted, hv.keys, hv.load, hv.enlarge⟩,
    fun _ hm => hm, rfl, rfl, Nat.le_refl _, id⟩

theorem isPowerOfTwo_two_pow (k : Nat) : isPowerOfTwo (2 ^ k) = true := by
  unfold isPowerOfTwo
  rw [Nat.and_two_pow_sub_one_eq_mod, Nat.mod_self]
  rfl

/-- A copy leaves the tombs behind. -/
theorem swapCopy_spec {w : Nat} (hv : t.Valid tr) (hr : t.Represents m)
    (hsize : t.size < 2 ^ 62) (hw : w ≤ 2 ^ 63) :
    ∃ t', t.swapCopy tr w = .ok t' ∧ Kept tr t t' ∧ t'.numElements ≤ t.size ∧
      w ≤ t'.bucketCount := by
  obtain ⟨sz, hsz⟩ := minBuckets_total hsize hw
  obtain ⟨⟨k, hk2, hk63, rfl⟩, hwsz, hroom⟩ := minBuckets_spec hsz
  have hlen : t.entries.length ≤ t.size := Nat.le_sub_of_add_le hv.entries_le
  obtain ⟨t', m', hrun, hv', hr', hm', he, -, hb, hemp, hdel, hx⟩ :=
    @copyValues_spec K V (t.clearToSize (2 ^ k)) _ tr (fun _ => none) t.entries hv.entries_nodup
      (clearToSize_valid hk2 hk63 hv.keys) (clearToSize_represents _)
      (fun v hmem => (hv.mem_entries.mp hmem).2) (fun _ _ => rfl)
      (by
        rw [bucketCount_clearToSize]
        show 2 * (0 + t.entries.length) ≤ 2 ^ k
        omega)
  have hmap : m' = m := by
    funext key
    apply Option.ext
    intro v
    rw [hm' key v, ← hv.entries_iff hr key v]
    simp
  have hele : t'.numElements ≤ t.size := by
    refine he.le.trans ?_
    show 0 + t.entries.length ≤ _
    omega
  refine ⟨t'.resetThresholds, ?_, ⟨hv'.resetThresholds, ?_, hemp, hdel, ?_, ?_⟩, hele, ?_⟩
  · unfold swapCopy copyFrom
    rw [bind_ok hsz]
    dsimp only
    rw [bucketCount_clearToSize, isPowerOfTwo_two_pow, check_true, bind_ok_eq, hv.checkDeleted,
      bind_ok_eq, bind_ok hrun]
    rfl
  · intro m₂ hm₂
    have : m₂ = m := by
      funext key
      apply Option.ext
      intro v
      rw [← hv.entries_iff hr key v, ← hv.entries_iff hm₂ key v]
    rw [this, ← hmap]
    exact hr'
  · exact hele.trans (Nat.sub_le _ _)
  · exact fun _ => hx (clearToSize_exact _)
  · show w ≤ t'.bucketCount
    rw [hb, bucketCount_clearToSize]
    exact hwsz

theorem shrinkTo_le (numRemain sz : Nat) : shrinkTo numRemain sz ≤ sz := by
  fun_induction shrinkTo numRemain sz with
  | case1 sz h ih => omega
  | case2 sz h => exact Nat.le_refl sz

theorem Valid.deleted_le (hv : t.Valid tr) : t.numDeleted ≤ t.numElements :=
  (Nat.le_add_left _ _).trans hv.entries_le

theorem Valid.bucketCount_le (hv : t.Valid tr) : t.bucketCount ≤ 2 ^ 63 := by
  obtain ⟨k, -, hk63, hk⟩ := hv.powerOfTwo
  rw [hk]
  exact Nat.pow_le_pow_right (by decide) hk63

theorem Valid.allowed_le (hv : t.Valid tr) : minBucketsAllowed ≤ t.bucketCount := by
  obtain ⟨k, hk2, -, hk⟩ := hv.powerOfTwo
  rw [hk]
  exact Nat.pow_le_pow_right (by decide : 0 < 2) hk2

theorem Valid.isPowerOfTwo (hv : t.Valid tr) :
    DenseHashtable.isPowerOfTwo t.bucketCount = true := by
  obtain ⟨k, -, -, hk⟩ := hv.powerOfTwo
  rw [hk]
  exact isPowerOfTwo_two_pow k

/-- maybe_shrink answers whether it made another table. -/
theorem maybeShrink_spec (hv : t.Valid tr) (hr : t.Represents m)
    (hsize : t.numElements < 2 ^ 61) :
    ∃ b t', t.maybeShrink tr = .ok (b, t') ∧ Kept tr t t' ∧
      (b = false → t' = { t with considerShrink := false }) := by
  unfold maybeShrink
  rw [decide_eq_true hv.deleted_le, hv.isPowerOfTwo, decide_eq_true hv.allowed_le]
  simp only [check_true, bind_ok_eq]
  split
  · have hsz : t.size < 2 ^ 62 := by
      unfold size
      omega
    have hcount := hv.bucketCount_le
    have hle := shrinkTo_le (t.numElements - t.numDeleted) (t.bucketCount / 2)
    obtain ⟨t', hrun, hkept, -⟩ := swapCopy_spec hv hr hsz
      (show shrinkTo (t.numElements - t.numDeleted) (t.bucketCount / 2) ≤ 2 ^ 63 by omega)
    rw [bind_ok hrun]
    exact ⟨true, _, rfl, hkept.trans (hkept.valid.kept false), nofun⟩
  · exact ⟨false, _, rfl, hv.kept false, fun _ => rfl⟩

theorem shrinkIf_spec (b : Bool) (hv : t.Valid tr) (hr : t.Represents m)
    (hsize : t.numElements < 2 ^ 61) :
    ∃ b' t', t.shrinkIf tr b = .ok (b', t') ∧ Kept tr t t' ∧
      (b' = false → ∃ c, t' = { t with considerShrink := c }) := by
  unfold shrinkIf
  split
  · obtain ⟨b', t', hrun, hk, hb⟩ := maybeShrink_spec hv hr hsize
    exact ⟨b', t', hrun, hk, fun h => ⟨false, hb h⟩⟩
  · exact ⟨false, t, rfl, hv.kept t.considerShrink, fun _ => ⟨t.considerShrink, rfl⟩⟩

omit [DecidableEq K] in
/-- The size resize_delta asks for is one min_buckets could have given. -/
theorem resizeTarget_le {delta needed j : Nat} (hj : j ≤ 63) :
    2 ^ j ≤ t.resizeTarget delta needed (2 ^ j) ∧
      t.resizeTarget delta needed (2 ^ j) ≤ 2 ^ 63 := by
  have hpow : 2 ^ j ≤ 2 ^ 63 := Nat.pow_le_pow_right (by decide) hj
  unfold resizeTarget
  split
  · next hd =>
    have hlt := hd.2.1
    unfold sizeTypeMax at hlt
    -- a power of two below 2^63 is at most 2^62
    have hj62 : j ≤ 62 := by
      by_contra hgt
      have : 2 ^ 63 ≤ 2 ^ j := Nat.pow_le_pow_right (by decide) (by omega)
      omega
    have : 2 ^ j ≤ 2 ^ 62 := Nat.pow_le_pow_right (by decide) hj62
    omega
  · exact ⟨Nat.le_refl _, hpow⟩

theorem growBy_spec (delta : Nat) (b : Bool) (hv : t.Valid tr) (hr : t.Represents m)
    (hsize : t.numElements + delta < 2 ^ 61) :
    ∃ b' t', t.growBy tr delta b = .ok (b', t') ∧ Kept tr t t' ∧
      2 * (t'.numElements + delta) ≤ t'.bucketCount ∧ (b' = false → b = false ∧ t' = t) := by
  have hdel := hv.deleted_le
  have hsame := hv.kept t.considerShrink
  unfold growBy
  rw [if_neg (by
    unfold sizeTypeMax
    omega)]
  split
  · next hok =>
    refine ⟨b, t, rfl, hsame, ?_, fun h => ⟨h, rfl⟩⟩
    have := hok.2
    rw [hv.enlarge] at this
    omega
  · obtain ⟨needed, hneeded⟩ := @minBuckets_total (t.numElements + delta) 0 (by omega) (by omega)
    obtain ⟨-, -, hroom⟩ := minBuckets_spec hneeded
    rw [bind_ok hneeded]
    split
    · exact ⟨b, t, rfl, hsame, by omega, fun h => ⟨h, rfl⟩⟩
    · obtain ⟨resizeTo, hto⟩ := @minBuckets_total (t.numElements - t.numDeleted + delta)
        t.bucketCount (by omega) hv.bucketCount_le
      obtain ⟨⟨j, -, hj63, rfl⟩, -, hroom'⟩ := minBuckets_spec hto
      rw [bind_ok hto]
      obtain ⟨hle, hle63⟩ := @resizeTarget_le K V t delta needed j hj63
      have hsz : t.size = t.numElements - t.numDeleted := rfl
      obtain ⟨t', hrun', hk', he, hw⟩ := swapCopy_spec hv hr (by omega) hle63
      rw [bind_ok hrun']
      exact ⟨true, t', rfl, hk', by omega, nofun⟩

/-- After resize_delta there is room for the new elements. When it did not resize, every
bucket is as it was. -/
theorem resizeDelta_spec (delta : Nat) (hv : t.Valid tr) (hr : t.Represents m)
    (hsize : t.numElements + delta < 2 ^ 61) :
    ∃ b t', t.resizeDelta tr delta = .ok (b, t') ∧ Kept tr t t' ∧
      2 * (t'.numElements + delta) ≤ t'.bucketCount ∧
      (b = false → ∃ c, t' = { t with considerShrink := c }) := by
  obtain ⟨b, t₁, hrun, hk, hb⟩ := shrinkIf_spec t.considerShrink hv hr (by omega)
  have hele := hk.elements
  obtain ⟨b', t', hrun', hk', hroom, hb'⟩ :=
    growBy_spec delta b hk.valid (hk.map m hr) (by omega)
  unfold resizeDelta
  rw [bind_ok hrun]
  refine ⟨b', t', hrun', hk.trans hk', hroom, ?_⟩
  intro h
  obtain ⟨hbf, rfl⟩ := hb' h
  exact hb hbf

/-- resize, for any hint, leaves the map as it is. -/
theorem resize_spec {req : Nat} (hv : t.Valid tr) (hr : t.Represents m)
    (hsize : t.numElements < 2 ^ 60) (hreq : req < 2 ^ 60) :
    ∃ t', t.resize tr req = .ok t' ∧ Kept tr t t' := by
  obtain ⟨b, t₁, hrun, hk, -⟩ := shrinkIf_spec (t.considerShrink ∨ req = 0) hv hr (by omega)
  have hele := hk.elements
  unfold resize
  rw [bind_ok hrun]
  dsimp only
  split
  · obtain ⟨b', t', hrun', hk', -⟩ :=
      resizeDelta_spec (req - t₁.numElements) hk.valid (hk.map m hr) (by omega)
    rw [bind_ok hrun']
    exact ⟨t', rfl, hk.trans hk'⟩
  · exact ⟨t₁, rfl, hk⟩

end Blockparser.DenseHashtable
