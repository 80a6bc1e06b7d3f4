import Blockparser.Lib.Utxo
import Blockparser.Format

/-! What the blocks of the heap stand for: the ledger of unspent outputs. `loc`
places the blocks an entry needs, no two of them at one address. -/
namespace Blockparser.Store
open Bytes Trace FreeList MemoryManager Blockparser.Parser Cursor Format Utxo

abbrev TXOs := Ledger Hash256 TxOutput

/-- The blocks kept for a transaction: its hash, its chunk, its pointer array and the
raw bytes of each unspent output. -/
inductive Role
  | key (t : Hash256)
  | txo (t : Hash256)
  | ptrs (t : Hash256)
  | raw (t : Hash256) (i : Nat)
deriving DecidableEq

def Role.tx : Role → Hash256
  | .key t | .txo t | .ptrs t | .raw t _ => t

def Role.Filled (L : TXOs) : Role → Prop
  | .key t | .txo t | .ptrs t => L t ≠ none
  | .raw t i => ∃ o, L.unspent t i = some o

def roles (L : TXOs) : Set Role := {r | r.Filled L}

/-- What stands in the block of a role. -/
def Role.Shows (loc : Role → Addr) (L : TXOs) : Role → Cell → Prop
  | .key t, c => c = .hash256 t
  | .txo t, c => c = .txChunk ((loc (.ptrs t)).add 8)
  | .ptrs t, c => ∀ e, L t = some e → c.length = e.size ∧ ∀ i, i < e.slots.length →
      c.slots i = if (L.unspent t i).isSome then some ((loc (.raw t i)).add 1) else none
  | .raw t i, c => ∀ o, L.unspent t i = some o → c.data = o.encode

/-- The heap holds the ledger, and the blocks of `X` besides. -/
structure Holding (loc : Role → Addr) (X : Set Addr) (L : TXOs) (h : Heap) : Prop where
  inj : Set.InjOn loc (roles L)
  apart : ∀ r ∈ roles L, loc r ∉ X
  valid : h.Valid (loc '' roles L ∪ X)
  shows : ∀ r ∈ roles L, r.Shows loc L (h.cells (loc r))

variable {loc loc' : Role → Addr} {X : Set Addr} {L L' : TXOs} {h h' : Heap} {t : Hash256}
  {i : Nat} {e : Entry TxOutput} {o : TxOutput}

theorem filled_of_tx (hL : ∀ u, u ≠ t → L' u = L u) {r : Role} (hr : r.tx ≠ t) :
    r ∈ roles L' ↔ r ∈ roles L := by
  cases r with
  | key u | txo u | ptrs u | raw u j =>
    have hu := hL u hr
    simp [roles, Role.Filled, Ledger.unspent, hu]

theorem notMem_roles (hn : L t = none) {r : Role} (hr : r.tx = t) : r ∉ roles L := by
  cases r with
  | key u | txo u | ptrs u =>
    have hu : u = t := hr
    simp [roles, Role.Filled, hu, hn]
  | raw u j =>
    have hu : u = t := hr
    simp [roles, Role.Filled, Ledger.unspent, hu, hn]

/-- What the block of another transaction shows does not change. -/
theorem shows_of_tx (hL : ∀ u, u ≠ t → L' u = L u) (hloc : ∀ r, r.tx ≠ t → loc' r = loc r)
    {r : Role} (hr : r.tx ≠ t) {c : Cell} (hs : r.Shows loc L c) : r.Shows loc' L' c := by
  cases r with
  | key u => exact hs
  | txo u =>
    rw [Role.Shows, hloc _ (show (Role.ptrs u).tx ≠ t from hr)]
    exact hs
  | ptrs u =>
    intro e he
    have hraw : ∀ j, loc' (.raw u j) = loc (.raw u j) := fun j => hloc _ hr
    have hun : ∀ j, L'.unspent u j = L.unspent u j := fun j => by
      rw [Ledger.unspent, Ledger.unspent, hL u hr]
    simp only [hraw, hun]
    exact hs e (by rwa [hL u hr] at he)
  | raw u j =>
    intro o ho
    exact hs o (by rwa [Ledger.unspent, hL u hr] at ho)

theorem Holding.ne_loc (hh : Holding loc X L h) {r q : Role} (hr : r ∈ roles L) (hq : q ∈ roles L)
    (hne : r ≠ q) : loc r ≠ loc q := fun he => hne (hh.inj hr hq he)

theorem Holding.mem_live (_ : Holding loc X L h) {r : Role} (hr : r ∈ roles L) :
    loc r ∈ loc '' roles L ∪ X := Or.inl ⟨r, hr, rfl⟩

theorem Holding.shrink (hh : Holding loc X L h) {X' : Set Addr} (hX : X' ⊆ X) :
    Holding loc X' L h :=
  ⟨hh.inj, fun r hr hm => hh.apart r hr (hX hm),
    hh.valid.shrink (Set.union_subset_union_right _ hX), hh.shows⟩

/-- Giving up the roles outside `S` leaves the blocks of `S` and of `X`. -/
theorem Holding.survivors (hh : Holding loc X L h) {S : Set Role} (hS : S ⊆ roles L) {D : Set Role}
    (hD : D ⊆ roles L) (hSD : Disjoint S D) :
    loc '' S ∪ X ⊆ (loc '' roles L ∪ X) \ loc '' D := by
  rintro a (⟨r, hr, rfl⟩ | ha)
  · refine ⟨Or.inl ⟨r, hS hr, rfl⟩, ?_⟩
    rintro ⟨q, hq, hqr⟩
    have : q = r := hh.inj (hD hq) (hS hr) hqr
    subst this
    exact Set.disjoint_left.mp hSD hr hq
  · refine ⟨Or.inr ha, ?_⟩
    rintro ⟨q, hq, rfl⟩
    exact hh.apart q (hD hq) ha

/-- The store changes in the entry of one transaction only. -/
theorem Holding.change (hh : Holding loc X L h) {X' : Set Addr} (hL : ∀ u, u ≠ t → L' u = L u)
    (hloc : ∀ r, r.tx ≠ t → loc' r = loc r)
    (hcells : ∀ r ∈ roles L, r.tx ≠ t → h'.cells (loc r) = h.cells (loc r))
    (inj : Set.InjOn loc' (roles L')) (apart : ∀ r ∈ roles L', loc' r ∉ X')
    (valid : h'.Valid (Set.image loc' (roles L') ∪ X'))
    (shows : ∀ r ∈ roles L', r.tx = t → r.Shows loc' L' (h'.cells (loc' r))) :
    Holding loc' X' L' h' := by
  refine ⟨inj, apart, valid, ?_⟩
  intro r hr
  by_cases hrt : r.tx = t
  · exact shows r hr hrt
  · have hr' := (filled_of_tx hL hrt).mp hr
    rw [hloc r hrt, hcells r hr' hrt]
    exact shows_of_tx hL hloc hrt (hh.shows r hr')

theorem spend_same (u : Hash256) (hu : u ≠ t) : L.spend t i u = L u := Ledger.spend_of_ne hu

theorem roles_spend (he : L t = some e) (hlive : (e.spend i).live = true) :
    roles (L.spend t i) = roles L \ {.raw t i} := by
  have hsome : ∀ u, L.spend t i u ≠ none ↔ L u ≠ none := by
    intro u
    by_cases hu : u = t
    · subst hu
      simp [Ledger.spend_self, he, hlive]
    · rw [Ledger.spend_of_ne hu]
  ext r
  cases r with
  | key u | txo u | ptrs u => simpa [roles, Role.Filled] using hsome u
  | raw u j =>
    simp only [roles, Role.Filled, Ledger.unspent_spend, Set.mem_ofPred_eq, Set.mem_sdiff,
      Set.mem_singleton_iff, Role.raw.injEq, Prod.mk.injEq]
    by_cases hu : u = t ∧ j = i <;> simp [hu]

/-- The last unspent output of `t` takes all its roles with it. -/
theorem roles_spend_last (he : L t = some e) (hlive : (e.spend i).live = false) :
    roles (L.spend t i) = {r ∈ roles L | r.tx ≠ t} := by
  have hnone : L.spend t i t = none := by simp [Ledger.spend_self, he, hlive]
  ext r
  by_cases hr : r.tx = t
  · simp [notMem_roles hnone hr, hr]
  · rw [filled_of_tx spend_same hr]
    simp [hr]

/-- Spending an output of an entry that lives on: its bytes go back to the pool and
its slot is nulled. -/
theorem Holding.spend (hh : Holding loc X L h) (he : L t = some e)
    (ho : L.unspent t i = some o) (hlive : (e.spend i).live = true)
    (hc : h'.cells = Function.update h.cells (loc (.ptrs t))
      (.ptrs (h.cells (loc (.ptrs t))).length
        (Function.update (h.cells (loc (.ptrs t))).slots i none)))
    (hv : h'.Valid ((loc '' roles L ∪ X) \ {loc (.raw t i)})) :
    Holding loc X (L.spend t i) h' := by
  have hptrs : Role.ptrs t ∈ roles L := by simp [roles, Role.Filled, he]
  have hraw : Role.raw t i ∈ roles L := ⟨o, ho⟩
  have hroles := roles_spend (i := i) he hlive
  have hsub : roles (L.spend t i) ⊆ roles L := by
    rw [hroles]
    exact Set.sdiff_subset
  have hne : ∀ r ∈ roles L, r ≠ .ptrs t → h'.cells (loc r) = h.cells (loc r) := by
    intro r hr hrp
    rw [hc, Function.update_of_ne (hh.ne_loc hr hptrs hrp)]
  refine hh.change spend_same (fun _ _ => rfl) ?_ (hh.inj.mono hsub)
    (fun r hr => hh.apart r (hsub hr)) ?_ ?_
  · intro r hr hrt
    exact hne r hr (fun hp => hrt (by rw [hp]; rfl))
  · refine hv.shrink ?_
    have := hh.survivors hsub (D := {.raw t i}) (by simpa using hraw)
      (by rw [hroles]; exact Set.disjoint_sdiff_left)
    simpa using this
  · intro r hr hrt
    have hr' := hsub hr
    cases r with
    | key u =>
      rw [hne _ hr' (by simp)]
      exact hh.shows _ hr'
    | txo u =>
      rw [hne _ hr' (by simp)]
      exact hh.shows _ hr'
    | raw u j =>
      rw [hne _ hr' (by simp)]
      intro o' ho'
      rw [Ledger.unspent_spend] at ho'
      split at ho'
      · cases ho'
      · exact hh.shows _ hr' o' ho'
    | ptrs u =>
      have hu : u = t := hrt
      subst hu
      obtain ⟨hlen, hslots⟩ := hh.shows _ hr' e he
      rw [hc, Function.update_self]
      intro e' he'
      have hspend : e' = e.spend i := by
        have : some (e.spend i) = some e' := by
          simpa [Ledger.spend_self, he, Option.filter, hlive] using he'
        exact (Option.some_inj.mp this).symm
      subst hspend
      refine ⟨hlen, ?_⟩
      intro j hj
      rw [Ledger.unspent_spend]
      by_cases hji : j = i
      · simp [hji]
      · have hjl : j < e.slots.length := by simpa [Entry.spend] using hj
        simp [hji, hslots j hjl]

/-- Spending the last unspent output of an entry gives back all its blocks. -/
theorem Holding.drop (hh : Holding loc X L h) (he : L t = some e)
    (hlive : (e.spend i).live = false)
    (hc : ∀ r ∈ roles L, r.tx ≠ t → h'.cells (loc r) = h.cells (loc r))
    (hv : h'.Valid ((loc '' roles L ∪ X) \ loc '' {r ∈ roles L | r.tx = t})) :
    Holding loc X (L.spend t i) h' := by
  have hroles := roles_spend_last (i := i) he hlive
  have hsub : roles (L.spend t i) ⊆ roles L := by
    rw [hroles]
    exact Set.sep_subset _ _
  refine hh.change spend_same (fun _ _ => rfl) hc (hh.inj.mono hsub)
    (fun r hr => hh.apart r (hsub hr)) ?_ ?_
  · refine hv.shrink (hh.survivors hsub (Set.sep_subset _ _) ?_)
    rw [hroles, Set.disjoint_left]
    rintro r ⟨-, hr⟩ ⟨-, hr'⟩
    exact hr hr'
  · intro r hr hrt
    rw [hroles] at hr
    exact absurd hrt hr.2

/-- The entry of `t` with room for `N` outputs and the first ones filled in. -/
def TXOs.begin (L : TXOs) (t : Hash256) (N : Nat) (os : List TxOutput) : TXOs :=
  Function.update L t (some ⟨N, os.map some⟩)

theorem begin_same {N : Nat} {os : List TxOutput} (u : Hash256) (hu : u ≠ t) :
    TXOs.begin L t N os u = L u := Function.update_of_ne hu _ _

theorem unspent_begin (N : Nat) (os : List TxOutput) (u : Hash256) (j : Nat) :
    (TXOs.begin L t N os).unspent u j = if u = t then os[j]? else L.unspent u j := by
  by_cases hu : u = t
  · subst hu
    cases hj : os[j]? <;> simp [Ledger.unspent, TXOs.begin, hj]
  · simp [Ledger.unspent, TXOs.begin, hu]

/-- Where the blocks of a new entry go. -/
def place (loc : Role → Addr) (t : Hash256) (k a b : Addr) : Role → Addr :=
  Function.update (Function.update (Function.update loc (.key t) k) (.txo t) a) (.ptrs t) b

theorem roles_begin (hn : L t = none) (N : Nat) :
    roles (TXOs.begin L t N []) =
      insert (.ptrs t) (insert (.txo t) (insert (.key t) (roles L))) := by
  ext r
  by_cases hr : r.tx = t
  · have hout : r ∉ roles L := notMem_roles hn hr
    cases r with
    | key u | txo u | ptrs u =>
      have hu : u = t := hr
      simp [roles, Role.Filled, TXOs.begin, hu]
    | raw u j =>
      have hu : u = t := hr
      simp only [Set.mem_insert_iff, hout, or_false, reduceCtorEq, iff_false]
      simp [roles, Role.Filled, unspent_begin, hu]
  · rw [filled_of_tx begin_same hr]
    cases r with
    | key u | txo u | ptrs u =>
      have hu : ¬u = t := hr
      simp [hu]
    | raw u j => simp

/-- A new entry, with its key among the blocks held besides, its chunk at `a` and its
pointer array at `b`. -/
theorem Holding.begin (hh : Holding loc X L h) (hn : L t = none) {k a b : Addr} (hk : k ∈ X)
    (hkc : h.cells k = .hash256 t) (ha : a ∉ loc '' roles L ∪ X)
    (hb : b ∉ insert a (loc '' roles L ∪ X)) (hv : h'.Valid (insert b (insert a (loc '' roles L ∪ X))))
    (hc : ∀ c ∈ loc '' roles L ∪ X, h'.cells c = h.cells c) (hca : h'.cells a = .txChunk (b.add 8))
    {N : Nat} (hcb : (h'.cells b).length = N) :
    Holding (place loc t k a b) (X \ {k}) (TXOs.begin L t N []) h' := by
  have hout : ∀ r : Role, r.tx = t → r ∉ roles L := fun r => notMem_roles hn
  have h1 : Role.key t ∉ roles L := hout _ rfl
  have h2 : Role.txo t ∉ insert (.key t) (roles L) := by simpa using hout (.txo t) rfl
  have h3 : Role.ptrs t ∉ insert (.txo t) (insert (.key t) (roles L)) := by
    simpa using hout (.ptrs t) rfl
  have hk1 : k ∉ loc '' roles L := by
    rintro ⟨r, hr, rfl⟩
    exact hh.apart r hr hk
  have ha2 : a ∉ insert k (loc '' roles L) := by
    intro h
    cases h with
    | inl he =>
      subst he
      exact ha (Or.inr hk)
    | inr ha' =>
      exact ha (Or.inl ha')
  have hb3 : b ∉ insert a (insert k (loc '' roles L)) := by
    rintro (rfl | rfl | hb')
    · exact hb (Or.inl rfl)
    · exact hb (Or.inr (Or.inr hk))
    · exact hb (Or.inr (Or.inl hb'))
  have himage : place loc t k a b '' roles (TXOs.begin L t N []) =
      insert b (insert a (insert k (loc '' roles L))) := by
    rw [roles_begin hn, place, image_update h3, image_update h2, image_update h1]
  have hloc : ∀ r : Role, r.tx ≠ t → place loc t k a b r = loc r := by
    intro r hr
    have hne : ∀ q : Role, q.tx = t → r ≠ q := fun q hq he => hr (he ▸ hq)
    rw [place, Function.update_of_ne (hne _ rfl), Function.update_of_ne (hne _ rfl),
      Function.update_of_ne (hne _ rfl)]
  refine hh.change begin_same hloc ?_ ?_ ?_ ?_ ?_
  · intro r hr _
    exact hc _ (hh.mem_live hr)
  · rw [roles_begin hn]
    refine injOn_update (injOn_update (injOn_update hh.inj h1 hk1) h2 ?_) h3 ?_
    · rwa [image_update h1]
    · rwa [image_update h2, image_update h1]
  · intro r hr
    have hmem : place loc t k a b r ∈ insert b (insert a (insert k (loc '' roles L))) := by
      rw [← himage]
      exact ⟨r, hr, rfl⟩
    rintro ⟨hX, hnk⟩
    rcases hmem with he | he | he | ⟨q, hq, he⟩
    · exact hb (Or.inr (Or.inr (he ▸ hX)))
    · exact ha (Or.inr (he ▸ hX))
    · exact hnk he
    · exact hh.apart q hq (he ▸ hX)
  · refine hv.shrink ?_
    rw [himage]
    rintro c ((rfl | rfl | rfl | hc') | ⟨hX, -⟩)
    · exact Or.inl rfl
    · exact Or.inr (Or.inl rfl)
    · exact Or.inr (Or.inr (Or.inr hk))
    · exact Or.inr (Or.inr (Or.inl hc'))
    · exact Or.inr (Or.inr (Or.inr hX))
  · intro r hr hrt
    cases r with
    | key u =>
      have hu : u = t := hrt
      subst hu
      have : place loc u k a b (.key u) = k := by simp [place]
      rw [this, hc k (Or.inr hk)]
      exact hkc
    | txo u =>
      have hu : u = t := hrt
      subst hu
      have h1 : place loc u k a b (.txo u) = a := by simp [place]
      have h2 : place loc u k a b (.ptrs u) = b := by simp [place]
      rw [Role.Shows, h1, h2]
      exact hca
    | ptrs u =>
      have hu : u = t := hrt
      subst hu
      have h2 : place loc u k a b (.ptrs u) = b := by simp [place]
      rw [h2]
      intro e he
      have : e = ⟨N, []⟩ := by simpa [TXOs.begin] using he.symm
      subst this
      exact ⟨hcb, fun j hj => absurd hj (Nat.not_lt_zero j)⟩
    | raw u j =>
      have hu : u = t := hrt
      subst hu
      obtain ⟨o, ho⟩ := hr
      simp [unspent_begin] at ho

theorem roles_fill {N : Nat} (os : List TxOutput) (o : TxOutput) :
    roles (TXOs.begin L t N (os ++ [o])) =
      insert (.raw t os.length) (roles (TXOs.begin L t N os)) := by
  ext r
  cases r with
  | key u | txo u | ptrs u =>
    by_cases hu : u = t <;> simp [roles, Role.Filled, TXOs.begin, hu]
  | raw u j =>
    by_cases hu : u = t
    · subst hu
      simp only [roles, Role.Filled, unspent_begin, if_true, Set.mem_ofPred_eq, Set.mem_insert_iff,
        Role.raw.injEq, true_and]
      rcases Nat.lt_trichotomy j os.length with hj | hj | hj
      · simp [List.getElem?_append_left hj, hj, Nat.ne_of_lt hj]
      · simp [hj]
      · simp [Nat.ne_of_gt hj, Nat.le_of_lt hj, Nat.not_lt.mpr hj]
    · simp [roles, Role.Filled, unspent_begin, hu]

/-- The next output of an entry that is being filled: its bytes at `a`, its slot set. -/
theorem Holding.fill {N : Nat} {os : List TxOutput} (hh : Holding loc X (TXOs.begin L t N os) h)
    {a : Addr} (ha : a ∉ loc '' roles (TXOs.begin L t N os) ∪ X)
    (hv : h'.Valid (insert a (loc '' roles (TXOs.begin L t N os) ∪ X)))
    (hc : ∀ r ∈ roles (TXOs.begin L t N os), r ≠ .ptrs t → h'.cells (loc r) = h.cells (loc r))
    (hp : h'.cells (loc (.ptrs t)) = .ptrs (h.cells (loc (.ptrs t))).length
      (Function.update (h.cells (loc (.ptrs t))).slots os.length (some (a.add 1))))
    (hd : (h'.cells a).data = o.encode) :
    Holding (Function.update loc (.raw t os.length) a) X (TXOs.begin L t N (os ++ [o])) h' := by
  have hnew : Role.raw t os.length ∉ roles (TXOs.begin L t N os) := by
    rintro ⟨o', ho'⟩
    simp [unspent_begin] at ho'
  have hnimg : a ∉ loc '' roles (TXOs.begin L t N os) := fun hm => ha (Or.inl hm)
  have hself : TXOs.begin L t N os t = some ⟨N, os.map some⟩ := by simp [TXOs.begin]
  have hself' : TXOs.begin L t N (os ++ [o]) t = some ⟨N, (os ++ [o]).map some⟩ := by
    simp [TXOs.begin]
  have hloc : ∀ r, r ≠ .raw t os.length → Function.update loc (.raw t os.length) a r = loc r :=
    fun r hr => Function.update_of_ne hr a loc
  have hptrs : Role.ptrs t ∈ roles (TXOs.begin L t N os) := by simp [roles, Role.Filled, hself]
  refine hh.change (t := t) ?_ ?_ ?_ ?_ ?_ ?_ ?_
  · intro u hu
    rw [begin_same u hu, begin_same u hu]
  · intro r hr
    exact hloc r (fun he => hr (by rw [he]; rfl))
  · intro r hr hrt
    exact hc r hr (fun he => hrt (by rw [he]; rfl))
  · rw [roles_fill]
    exact injOn_update hh.inj hnew hnimg
  · rw [roles_fill]
    rintro r (rfl | hr)
    · rw [Function.update_self]
      exact fun hX => ha (Or.inr hX)
    · rw [eqOn_update hnew a hr]
      exact hh.apart r hr
  · rw [roles_fill, image_update hnew, Set.insert_union]
    exact hv
  · intro r hr hrt
    rw [roles_fill] at hr
    cases hr with
    | inl he =>
      subst he
      rw [Function.update_self]
      intro o' ho'
      have : o' = o := by simpa [unspent_begin] using ho'.symm
      rw [this]
      exact hd
    | inr hr =>
      rw [eqOn_update hnew a hr]
      cases r with
      | key u =>
        rw [hc _ hr (by simp)]
        exact hh.shows _ hr
      | txo u =>
        rw [Role.Shows, hloc _ (by simp), hc _ hr (by simp)]
        exact hh.shows _ hr
      | raw u j =>
        have hu : u = t := hrt
        subst hu
        rw [hc _ hr (by simp)]
        intro o' ho'
        obtain ⟨o₁, ho₁⟩ := hr
        have hj : j < os.length := by
          rw [unspent_begin, if_pos rfl] at ho₁
          exact (List.getElem?_eq_some_iff.mp ho₁).1
        refine hh.shows (.raw u j) ⟨o₁, ho₁⟩ o' ?_
        simpa [unspent_begin, List.getElem?_append_left hj] using ho'
      | ptrs u =>
        have hu : u = t := hrt
        subst hu
        obtain ⟨hlen, hslots⟩ := hh.shows _ hptrs _ hself
        rw [hp]
        intro e he
        have hee : e = ⟨N, (os ++ [o]).map some⟩ := by
          rw [hself'] at he
          exact (Option.some_inj.mp he).symm
        subst hee
        refine ⟨hlen, ?_⟩
        intro j hj
        rw [unspent_begin, if_pos rfl]
        by_cases hjn : j = os.length
        · subst hjn
          simp
        · have hjl : j < os.length := by
            simp at hj
            omega
          have hold := hslots j (by simpa using hjl)
          rw [unspent_begin, if_pos rfl] at hold
          simp only [Cell.slots_ptrs, Function.update_of_ne hjn, hold,
            List.getElem?_append_left hjl]
          rw [Function.update_of_ne (by simpa using hjn)]

end Blockparser.Store
