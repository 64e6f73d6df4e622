import LightChain.DiffTree.Reading

/-!
# Saving every slot of the tree

A run saves the state of every slot of the tree in increasing order, with restarts anywhere.
The anchor in the cache for a level is then the last state saved on that level, and that is
the anchor the next diff needs.
-/
namespace LightChain.DiffTree
open Library Library.Strides List

section Inv

variable {σ β δ : Type} (sch : Scheme σ β δ) (E : Exponents)

/-- The store holds the states `done`, and its cache the last one of some of the levels. -/
structure Inv (s : Store σ β δ) (done : List σ) : Prop where
  holds : Holds sch E s done
  length_anchors : s.anchors.length = E.values.length - 1
  anchors : ∀ k a, s.anchors[k]? = some (some a) → a ∈ done ∧
    computeLevel E s.offset (sch.slot a) = some k ∧
    ∀ st ∈ done, computeLevel E s.offset (sch.slot st) = some k → sch.slot st ≤ sch.slot a

structure Next (offset : Nat) (done : List σ) (st : σ) : Prop where
  inTree : InTree E offset (sch.slot st)
  above : ∀ a ∈ done, sch.slot a < sch.slot st
  below : ∀ t < sch.slot st, InTree E offset t → ∃ a ∈ done, sch.slot a = t

variable {sch E} {s : Store σ β δ} {done : List σ} {st : σ}

theorem getElem?_emptyAnchors (k : Nat) (a : σ) : (emptyAnchors E)[k]? ≠ some (some a) := by
  intro h
  rw [emptyAnchors, getElem?_replicate] at h
  split_ifs at h
  cases h

theorem inv_new (offset : Nat) : Inv sch E (Store.new E offset) [] where
  holds := ⟨forall_mem_nil _, forall_mem_nil _, forall_mem_nil _⟩
  length_anchors := length_replicate
  anchors k a h := absurd h (getElem?_emptyAnchors k a)

theorem Inv.restart (h : Inv sch E s done) : Inv sch E (s.clearAnchors E) done where
  holds := ⟨h.holds.inj, h.holds.snapshots, h.holds.diffs⟩
  length_anchors := length_replicate
  anchors k a ha := absurd ha (getElem?_emptyAnchors k a)

theorem Inv.setAnchor (h : Inv sch E s done) {k : Nat} {a : σ} (ha : a ∈ done)
    (hk : computeLevel E s.offset (sch.slot a) = some k)
    (hlast : ∀ st ∈ done, computeLevel E s.offset (sch.slot st) = some k →
      sch.slot st ≤ sch.slot a) (hlt : k < E.values.length - 1) :
    ∃ s', s.setAnchor k a = .ok s' ∧ s'.offset = s.offset ∧ Inv sch E s' done := by
  refine ⟨{ s with anchors := s.anchors.set k (some a) }, ?_, rfl,
    ⟨h.holds.inj, h.holds.snapshots, h.holds.diffs⟩, ?_, ?_⟩
  · rw [Store.setAnchor, if_neg (by rw [h.length_anchors]; omega)]
  · rw [length_set, h.length_anchors]
  · intro j b hj
    rw [getElem?_set] at hj
    split_ifs at hj with hkj hin
    · subst hkj
      cases hj
      exact ⟨ha, hk, hlast⟩
    · exact h.anchors j b hj

section Anchor

variable {i rel : Nat}

theorem anchor_lt (h : OnLevel E (i + 1) rel) : floorTo (E.span i) rel < rel := by
  apply lt_of_le_of_ne floorTo_le
  intro heq
  exact h.first i (Nat.lt_succ_self i) (floorTo_eq_self.mp heq)

end Anchor

theorem getAnchorState_add {i k rel : Nat} (hlevel : OnLevel E (i + 1) rel)
    (hk : OnLevel E k (floorTo (E.span i) rel)) :
    getAnchorState sch E s (i + 1) (s.offset + rel) =
      loadAnchor sch E s k (s.offset + floorTo (E.span i) rel) := by
  have hlt := hlevel.lt
  have hi : i < E.values.length := by omega
  have hprev : E.values.getD i 0 = E.values[i] := getD_eq_getElem _ _ hi
  have hrange := E.range _ (getElem_mem hi)
  have hanchor : s.offset + rel - rel % 2 ^ E.values[i] = s.offset + floorTo (E.span i) rel := by
    rw [← hprev, Nat.add_sub_assoc (Nat.mod_le _ _), sub_mod_eq_floorTo]
    rfl
  unfold getAnchorState
  rw [if_neg (by omega), if_neg (by omega)]
  dsimp only
  rw [Nat.add_sub_cancel, hprev, if_neg (by omega), Nat.add_sub_cancel_left, hanchor,
    computeLevel_add_eq_some.mpr hk]

section

variable (habove : ∀ a ∈ done, sch.slot a < sch.slot st)

include habove

/-- The anchor found in the cache or read from the bucket is the state of the anchor slot. -/
theorem getAnchorState_eq_ok (h : Inv sch E s done)
    (hr : ∀ a ∈ done, Readable E s.offset (sch.slot a)) {i : Nat}
    (hlvl : computeLevel E s.offset (sch.slot st) = some (i + 1))
    (hsaved : ∃ a ∈ done, sch.slot a = s.offset + floorTo (E.span i) (sch.slot st - s.offset)) :
    ∃ a s', getAnchorState sch E s (i + 1) (sch.slot st) = .ok (a, s') ∧ a ∈ done ∧
      sch.slot a = s.offset + floorTo (E.span i) (sch.slot st - s.offset) ∧
      s'.offset = s.offset ∧ Inv sch E s' done := by
  obtain ⟨hle, hlevel⟩ := computeLevel_eq_some.mp hlvl
  obtain ⟨rel, hrel⟩ := Nat.exists_eq_add_of_le hle
  rw [hrel, Nat.add_sub_cancel_left] at hlevel hsaved ⊢
  have hlt := hlevel.lt
  obtain ⟨k, hki, hk⟩ : ∃ k ≤ i, OnLevel E k (floorTo (E.span i) rel) :=
    exists_onLevel (by omega) dvd_floorTo
  obtain ⟨a, ha, haslot⟩ := hsaved
  have hak : computeLevel E s.offset (sch.slot a) = some k := by
    rw [haslot]
    exact computeLevel_add_eq_some.mpr hk
  -- no state of the anchor's level has been saved after the anchor
  have hlast : ∀ b ∈ done, computeLevel E s.offset (sch.slot b) = some k →
      sch.slot b ≤ sch.slot a := by
    intro b hb hbk
    obtain ⟨hble, hblevel⟩ := computeLevel_eq_some.mp hbk
    have hbt := habove b hb
    have := le_floorTo ((E.span_dvd hki).trans hblevel.dvd) (by omega : sch.slot b - s.offset ≤ rel)
    omega
  have hcache : k < E.values.length - 1 := by omega
  have hlen : k < s.anchors.length := by rwa [h.length_anchors]
  rw [getAnchorState_add hlevel hk, ← haslot, loadAnchor, Store.getAnchor,
    getElem?_eq_getElem hlen]
  cases hc : s.anchors[k] with
  | some b =>
    obtain ⟨hb, hbk, hbmax⟩ := h.anchors k b (by rw [getElem?_eq_getElem hlen, hc])
    have hba : b = a := h.holds.inj b hb a ha (le_antisymm (hlast b hb hbk) (hbmax a ha hak))
    subst hba
    exact ⟨b, s, rfl, ha, rfl, rfl, h⟩
  | none =>
    have hread : stateByDiff sch E s (sch.slot a) = .ok a :=
      stateByDiff_of_readable h.holds ha (Option.isSome_iff_exists.mpr ⟨k, hak⟩) (hr a ha)
    obtain ⟨s', hs', hoff, hinv⟩ := h.setAnchor ha hak hlast hcache
    refine ⟨a, s', ?_, ha, rfl, hoff, hinv⟩
    simp only [ok_bind, hread, hs']
    rfl

theorem Holds.inj_concat (h : Holds sch E s done) :
    ∀ a ∈ done ++ [st], ∀ b ∈ done ++ [st], sch.slot a = sch.slot b → a = b := by
  intro a ha b hb hab
  rcases List.mem_append.mp ha with ha | ha <;> rcases List.mem_append.mp hb with hb | hb
  · exact h.inj a ha b hb hab
  · rw [List.mem_singleton.mp hb] at hab
    exact absurd hab (habove a ha).ne
  · rw [List.mem_singleton.mp ha] at hab
    exact absurd hab.symm (habove b hb).ne
  · rw [List.mem_singleton.mp ha, List.mem_singleton.mp hb]

theorem Holds.putSnapshot (h : Holds sch E s done)
    (hlvl : computeLevel E s.offset (sch.slot st) = some 0) :
    Holds sch E (s.putSnapshot (sch.slot st) (sch.marshal st)) (done ++ [st]) where
  inj := h.inj_concat habove
  snapshots a ha h0 := by
    rcases List.mem_append.mp ha with ha | ha
    · exact (if_neg (habove a ha).ne).trans (h.snapshots a ha h0)
    · rw [List.mem_singleton.mp ha]
      exact if_pos rfl
  diffs a ha i hi := by
    rcases List.mem_append.mp ha with ha | ha
    · obtain ⟨b, hb, hslot, hdiff⟩ := h.diffs a ha i hi
      exact ⟨b, mem_append_left _ hb, hslot, hdiff⟩
    · rw [List.mem_singleton.mp ha] at hi
      cases hlvl.symm.trans hi

theorem Holds.putDiff (h : Holds sch E s done) {i : Nat}
    (hlvl : computeLevel E s.offset (sch.slot st) = some (i + 1)) {a : σ} (ha : a ∈ done)
    (haslot : sch.slot a = s.offset + floorTo (E.span i) (sch.slot st - s.offset)) :
    Holds sch E (s.putDiff (i + 1) (sch.slot st) (sch.diff a st)) (done ++ [st]) where
  inj := h.inj_concat habove
  snapshots b hb h0 := by
    rcases List.mem_append.mp hb with hb | hb
    · exact h.snapshots b hb h0
    · rw [List.mem_singleton.mp hb] at h0
      cases hlvl.symm.trans h0
  diffs b hb j hj := by
    rcases List.mem_append.mp hb with hb | hb
    · obtain ⟨c, hc, hcslot, hdiff⟩ := h.diffs b hb j hj
      refine ⟨c, mem_append_left _ hc, hcslot, ?_⟩
      exact (if_neg fun heq => (habove b hb).ne heq.2).trans hdiff
    · rw [List.mem_singleton.mp hb] at hj ⊢
      have hij : i + 1 = j + 1 := Option.some.inj (hlvl.symm.trans hj)
      obtain rfl := Nat.succ.inj hij
      exact ⟨a, mem_append_left _ ha, haslot, if_pos ⟨rfl, rfl⟩⟩

theorem le_of_mem_concat : ∀ a ∈ done ++ [st],
    sch.slot a ≤ sch.slot st := by
  intro a ha
  rcases List.mem_append.mp ha with ha | ha
  · exact (habove a ha).le
  · rw [List.mem_singleton.mp ha]

theorem saveFullSnapshot_eq_ok (h : Inv sch E s done)
    (hlvl : computeLevel E s.offset (sch.slot st) = some 0) :
    ∃ s', saveFullSnapshot sch E s st = .ok s' ∧ s'.offset = s.offset ∧
      Inv sch E s' (done ++ [st]) := by
  have hholds := h.holds.putSnapshot habove hlvl
  have hinv : Inv sch E ((s.putSnapshot (sch.slot st) (sch.marshal st)).clearAnchors E)
      (done ++ [st]) :=
    ⟨⟨hholds.inj, hholds.snapshots, hholds.diffs⟩, length_replicate,
      fun k a ha => absurd ha (getElem?_emptyAnchors k a)⟩
  apply hinv.setAnchor (mem_append_right _ (mem_singleton_self st)) hlvl
  · exact fun a ha _ => le_of_mem_concat habove a ha
  · have := E.two_levels
    omega

theorem saveHdiff_eq_ok (h : Inv sch E s done) {i : Nat}
    (hlvl : computeLevel E s.offset (sch.slot st) = some (i + 1)) {a : σ} (ha : a ∈ done)
    (haslot : sch.slot a = s.offset + floorTo (E.span i) (sch.slot st - s.offset)) :
    ∃ s', saveHdiff sch E s (i + 1) a st = .ok s' ∧ s'.offset = s.offset ∧
      Inv sch E s' (done ++ [st]) := by
  have hholds := h.holds.putDiff habove hlvl ha haslot
  -- the cache still holds the last state of every other level
  have hother : ∀ k b, k ≠ i + 1 → s.anchors[k]? = some (some b) → b ∈ done ++ [st] ∧
      computeLevel E s.offset (sch.slot b) = some k ∧ ∀ c ∈ done ++ [st],
        computeLevel E s.offset (sch.slot c) = some k → sch.slot c ≤ sch.slot b := by
    intro k b hk hb
    obtain ⟨hmem, hbk, hmax⟩ := h.anchors k b hb
    refine ⟨mem_append_left _ hmem, hbk, fun c hc hck => ?_⟩
    rcases List.mem_append.mp hc with hc | hc
    · exact hmax c hc hck
    · rw [List.mem_singleton.mp hc, hlvl] at hck
      cases hck
      exact absurd rfl hk
  have hlt : i + 1 < E.values.length := (computeLevel_eq_some.mp hlvl).2.lt
  unfold saveHdiff
  dsimp only
  by_cases hlast : i + 1 = E.values.length - 1
  · rw [if_neg (not_not.mpr hlast)]
    refine ⟨_, rfl, rfl, hholds, h.length_anchors, fun k b hb => hother k b ?_ hb⟩
    have hk : k < s.anchors.length := (List.getElem?_eq_some_iff.mp hb).1
    rw [h.length_anchors] at hk
    omega
  · have hset : ¬ s.anchors.length ≤ i + 1 := by
      rw [h.length_anchors]
      omega
    rw [if_pos hlast, Store.setAnchor]
    refine ⟨_, if_neg hset, rfl, ⟨hholds.inj, hholds.snapshots, hholds.diffs⟩, ?_, ?_⟩
    · exact List.length_set.trans h.length_anchors
    · intro k b hb
      change (s.anchors.set (i + 1) (some st))[k]? = _ at hb
      rw [getElem?_set] at hb
      split_ifs at hb with hk hin
      · subst hk
        cases hb
        exact ⟨mem_append_right _ (mem_singleton_self st), hlvl,
          fun c hc _ => le_of_mem_concat habove c hc⟩
      · exact hother k b (Ne.symm hk) hb

end

theorem Next.saved {offset : Nat} (hn : Next sch E offset done st) (i : Nat)
    (hlvl : computeLevel E offset (sch.slot st) = some (i + 1)) :
    ∃ a ∈ done, sch.slot a = offset + floorTo (E.span i) (sch.slot st - offset) := by
  obtain ⟨hle, hlevel⟩ := computeLevel_eq_some.mp hlvl
  have hlt := anchor_lt hlevel
  exact hn.below _ (by omega) (inTree_add ((Nat.lt_add_one i).trans hlevel.lt) dvd_floorTo)

theorem saveStateByDiff_eq_ok (h : Inv sch E s done)
    (habove : ∀ a ∈ done, sch.slot a < sch.slot st)
    (hr : ∀ a ∈ done, Readable E s.offset (sch.slot a))
    (htree : InTree E s.offset (sch.slot st))
    (hsaved : ∀ i, computeLevel E s.offset (sch.slot st) = some (i + 1) → ∃ a ∈ done,
      sch.slot a = s.offset + floorTo (E.span i) (sch.slot st - s.offset)) :
    ∃ s', saveStateByDiff sch E s st = .ok s' ∧ s'.offset = s.offset ∧
      Inv sch E s' (done ++ [st]) := by
  obtain ⟨lvl, hlvl⟩ := Option.isSome_iff_exists.mp htree
  have hle := (computeLevel_eq_some.mp hlvl).1
  unfold saveStateByDiff slotInDiffTree
  rw [if_neg (not_lt.mpr hle), hlvl]
  cases lvl with
  | zero => exact saveFullSnapshot_eq_ok habove h hlvl
  | succ i =>
    obtain ⟨a, s₁, hs₁, ha, haslot, hoff, hinv⟩ := 
      getAnchorState_eq_ok habove h hr hlvl (hsaved i hlvl)
    rw [← hoff] at hlvl haslot
    obtain ⟨s₂, hs₂, hoff', hinv'⟩ := saveHdiff_eq_ok habove hinv hlvl ha haslot
    refine ⟨s₂, ?_, hoff'.trans hoff, hinv'⟩
    simp only [Except.mapError, ok_bind, hs₁]
    exact hs₂

end Inv

section Run

variable {σ β δ : Type} {sch : Scheme σ β δ} {E : Exponents} {s : Store σ β δ}

def treeSlots (E : Exponents) (offset last : Nat) : List Nat :=
  (List.range (last + 1)).filter (InTree E offset)

theorem mem_treeSlots {offset last t : Nat} :
    t ∈ treeSlots E offset last ↔ t ≤ last ∧ InTree E offset t := by
  simp [treeSlots]

theorem next_of_treeSlots {offset last : Nat} {done rest : List σ} {st : σ}
    (h : (done ++ st :: rest).map sch.slot = treeSlots E offset last) :
    Next sch E offset done st := by
  have hsorted : (treeSlots E offset last).Pairwise (· < ·) :=
    Pairwise.filter _ pairwise_lt_range
  rw [← h, map_append, map_cons] at hsorted
  have hcons := List.pairwise_append.mp hsorted
  have hst : sch.slot st ∈ treeSlots E offset last := by
    rw [← h]
    exact mem_map_of_mem (by simp)
  obtain ⟨hlast, htree⟩ := mem_treeSlots.mp hst
  refine ⟨htree, fun a ha => ?_, fun t ht hin => ?_⟩
  · exact hcons.2.2 _ (mem_map_of_mem ha) _ mem_cons_self
  · have hmem : t ∈ (done ++ st :: rest).map sch.slot := by
      rw [h]
      exact mem_treeSlots.mpr ⟨ht.le.trans hlast, hin⟩
    obtain ⟨a, ha, rfl⟩ := List.mem_map.mp hmem
    rcases List.mem_append.mp ha with ha | ha
    · exact ⟨a, ha, rfl⟩
    · rcases List.mem_cons.mp ha with rfl | ha
      · exact absurd ht (lt_irrefl _)
      · have := rel_of_pairwise_cons hcons.2.1 (mem_map_of_mem ha)
        exact absurd ht this.not_gt

theorem run_eq_ok {last : Nat} {done : List σ} {events : List (Event σ)}
    (hinv : Inv sch E s done)
    (hslots : (done ++ saves events).map sch.slot = treeSlots E s.offset last)
    (hr : ∀ t ∈ treeSlots E s.offset last, Readable E s.offset t) :
    ∃ s', run sch E s events = .ok s' ∧ s'.offset = s.offset ∧
      Inv sch E s' (done ++ saves events) := by
  induction events generalizing s done with
  | nil => exact ⟨s, rfl, rfl, by simpa [saves] using hinv⟩
  | cons e events ih =>
    cases e with
    | restart =>
      obtain ⟨s', hs', hoff, hinv'⟩ := ih hinv.restart hslots hr
      exact ⟨s', hs', hoff, hinv'⟩
    | save st =>
      change (done ++ st :: saves events).map sch.slot = _ at hslots
      have hread : ∀ a ∈ done, Readable E s.offset (sch.slot a) := by
        intro a ha
        apply hr
        rw [← hslots]
        exact mem_map_of_mem (mem_append_left _ ha)
      have hn := next_of_treeSlots hslots
      obtain ⟨s₁, hs₁, hoff₁, hinv₁⟩ :=
        saveStateByDiff_eq_ok hinv hn.above hread hn.inTree hn.saved
      rw [← hoff₁] at hr hslots
      obtain ⟨s', hs', hoff, hinv'⟩ := ih hinv₁ (by simpa using hslots) hr
      refine ⟨s', ?_, hoff.trans hoff₁, by simpa [saves] using hinv'⟩
      rw [run, foldlM_cons, step, hs₁]
      exact hs'

/-- After every run that saves all slots up to `last` each saved state is read back. -/
def ReadsBack (E : Exponents) (offset last : Nat) : Prop :=
  ∀ (σ β δ : Type) (sch : Scheme σ β δ) (events : List (Event σ)),
    (saves events).map sch.slot = treeSlots E offset last →
    ∃ s, run sch E (Store.new E offset) events = .ok s ∧
      ∀ st ∈ saves events, stateByDiff sch E s (sch.slot st) = .ok st

theorem readsBack_of_readable {offset last : Nat}
    (hr : ∀ t ∈ treeSlots E offset last, Readable E offset t) : ReadsBack E offset last := by
  intro σ β δ sch events hslots
  obtain ⟨s, hs, hoff, hinv⟩ :=
    run_eq_ok (s := Store.new E offset) (inv_new offset) hslots hr
  have hoff : s.offset = offset := hoff
  refine ⟨s, hs, fun st hst => ?_⟩
  have hmem : sch.slot st ∈ treeSlots E offset last := by
    rw [← hslots]
    exact mem_map_of_mem hst
  obtain ⟨-, htree⟩ := mem_treeSlots.mp hmem
  subst hoff
  exact stateByDiff_of_readable hinv.holds hst htree (hr _ hmem)

end Run

section Bucket

variable {σ β δ : Type} {sch : Scheme σ β δ} {E : Exponents} {s s' : Store σ β δ}

structure SameBucket (s s' : Store σ β δ) : Prop where
  offset_eq : s'.offset = s.offset
  snapshots_eq : s'.snapshots = s.snapshots
  diffs_eq : s'.diffs = s.diffs

theorem sameBucket_setAnchor {k : Nat} {a : σ} (hs : s.setAnchor k a = .ok s') :
    SameBucket s s' := by
  unfold Store.setAnchor at hs
  split_ifs at hs
  cases hs
  exact ⟨rfl, rfl, rfl⟩

theorem sameBucket_getAnchorState {lvl t : Nat} {a : σ}
    (hs : getAnchorState sch E s lvl t = .ok (a, s')) : SameBucket s s' := by
  unfold getAnchorState at hs
  dsimp only at hs
  split_ifs at hs
  split at hs
  · cases hs
  · unfold loadAnchor at hs
    obtain ⟨cached, -, hs⟩ := bind_eq_ok.mp hs
    cases cached with
    | some b =>
      cases hs
      exact ⟨rfl, rfl, rfl⟩
    | none =>
      obtain ⟨b, -, hs⟩ := bind_eq_ok.mp hs
      obtain ⟨s₁, hs₁, hs⟩ := bind_eq_ok.mp hs
      cases hs
      exact sameBucket_setAnchor hs₁

theorem bucket_saveStateByDiff {st : σ} (hs : saveStateByDiff sch E s st = .ok s') :
    (computeLevel E s.offset (sch.slot st) = none ∧ s' = s) ∨
      (computeLevel E s.offset (sch.slot st) = some 0 ∧
        SameBucket (s.putSnapshot (sch.slot st) (sch.marshal st)) s') ∨
      ∃ i a s₁, computeLevel E s.offset (sch.slot st) = some (i + 1) ∧
        getAnchorState sch E s (i + 1) (sch.slot st) = .ok (a, s₁) ∧
        SameBucket (s.putDiff (i + 1) (sch.slot st) (sch.diff a st)) s' := by
  unfold saveStateByDiff slotInDiffTree at hs
  obtain ⟨lvl, hlvl, hs⟩ := bind_eq_ok.mp hs
  have hlvl := ok_of_mapError hlvl
  split_ifs at hlvl
  cases hlvl
  cases hlevel : computeLevel E s.offset (sch.slot st) with
  | none =>
    rw [hlevel] at hs
    cases hs
    exact .inl ⟨rfl, rfl⟩
  | some lvl =>
    rw [hlevel] at hs
    cases lvl with
    | zero =>
      obtain ⟨hoffset, hsnapshots, hdiffs⟩ := sameBucket_setAnchor (k := 0) (a := st) hs
      exact .inr (.inl ⟨rfl, hoffset, hsnapshots, hdiffs⟩)
    | succ i =>
      obtain ⟨⟨a, s₁⟩, hs₁, hs⟩ := bind_eq_ok.mp hs
      obtain ⟨hoffset, hsnapshots, hdiffs⟩ := sameBucket_getAnchorState hs₁
      have hput : SameBucket (s₁.putDiff (i + 1) (sch.slot st) (sch.diff a st)) s' := by
        dsimp only [saveHdiff] at hs
        split_ifs at hs
        · exact sameBucket_setAnchor hs
        · cases hs
          exact ⟨rfl, rfl, rfl⟩
      refine .inr (.inr ⟨i, a, s₁, rfl, hs₁, hput.offset_eq.trans hoffset,
        hput.snapshots_eq.trans hsnapshots, ?_⟩)
      rw [hput.diffs_eq, Store.putDiff, Store.putDiff, hdiffs]

end Bucket

section Keys

variable {σ β δ : Type} {sch : Scheme σ β δ} {E : Exponents} {s s' : Store σ β δ}

/-- A snapshot is under the slot of its state, a diff under the level of its slot. -/
structure Keys (sch : Scheme σ β δ) (E : Exponents) (offset : Nat) (s : Store σ β δ) : Prop where
  offset_eq : s.offset = offset
  snapshots : ∀ t enc, s.snapshots t = some enc → ∃ st, sch.slot st = t ∧ enc = sch.marshal st
  diffs : ∀ i t d, s.diffs i t = some d → computeLevel E offset t = some i

variable {offset : Nat}

theorem keys_new : Keys sch E offset (Store.new E offset) where
  offset_eq := rfl
  snapshots _ _ h := by cases h
  diffs _ _ _ h := by cases h

theorem SameBucket.keys (hs : SameBucket s s') (h : Keys sch E offset s) :
    Keys sch E offset s' :=
  ⟨hs.offset_eq.trans h.offset_eq, hs.snapshots_eq ▸ h.snapshots, hs.diffs_eq ▸ h.diffs⟩

theorem keys_saveStateByDiff {st : σ} (h : Keys sch E offset s)
    (hs : saveStateByDiff sch E s st = .ok s') : Keys sch E offset s' := by
  obtain ⟨-, rfl⟩ | ⟨-, hsame⟩ | ⟨i, a, -, hlevel, -, hsame⟩ := bucket_saveStateByDiff hs
  · exact h
  · refine hsame.keys ⟨h.offset_eq, fun t enc ht => ?_, h.diffs⟩
    change (if t = sch.slot st then some (sch.marshal st) else s.snapshots t) = some enc at ht
    split_ifs at ht with heq
    · cases ht
      exact ⟨st, heq.symm, rfl⟩
    · exact h.snapshots t enc ht
  · refine hsame.keys ⟨h.offset_eq, h.snapshots, fun j t d hd => ?_⟩
    change (if j = i + 1 ∧ t = sch.slot st then some (sch.diff a st) else s.diffs j t) =
      some d at hd
    split_ifs at hd with heq
    · rw [heq.1, heq.2, ← h.offset_eq]
      exact hlevel
    · exact h.diffs j t d hd

theorem keys_run {events : List (Event σ)} (hs : run sch E (Store.new E offset) events = .ok s) :
    Keys sch E offset s := by
  refine foldlM_invariant (P := Keys sch E offset) ?_ keys_new hs
  intro s e s' _ h hstep
  cases e with
  | save st => exact keys_saveStateByDiff h hstep
  | restart =>
    cases hstep
    exact ⟨h.offset_eq, h.snapshots, h.diffs⟩

end Keys

end LightChain.DiffTree
