import LightChain.DiffTree.Store
import LightChain.Library.Fallible

/-!
# Reading a state from the tree

The reader walks the levels from the snapshot down. It compares the diff slot of a level,
which is relative to the offset, with the last anchor slot it saw, which is absolute before
the first diff. `Readable` says when the comparison is still right.
-/
namespace LightChain.DiffTree
open Library Library.Strides List

section Levels

variable (E : Exponents)

theorem Exponents.getD_anti {i j : Nat} (h : i ≤ j) : E.values.getD j 0 ≤ E.values.getD i 0 := by
  rcases h.eq_or_lt with rfl | hlt
  · exact le_rfl
  · rcases lt_or_ge j E.values.length with hj | hj
    · rw [getD_eq_getElem _ _ hj, getD_eq_getElem _ _ (hlt.trans hj)]
      exact (List.pairwise_iff_getElem.mp E.decreasing i j (hlt.trans hj) hj hlt).le
    · rw [getD_eq_default _ _ hj]
      exact Nat.zero_le _

theorem Exponents.span_dvd {i j : Nat} (h : i ≤ j) : E.span j ∣ E.span i :=
  pow_dvd_pow 2 (E.getD_anti h)

/-- The level of a slot, by its distance from the offset. -/
structure OnLevel (i rel : Nat) : Prop where
  lt : i < E.values.length
  dvd : E.span i ∣ rel
  first : ∀ j < i, ¬ E.span j ∣ rel

variable {E} {i j rel offset slot : Nat}

theorem OnLevel.unique (hi : OnLevel E i rel) (hj : OnLevel E j rel) : i = j := by
  apply le_antisymm
  · exact not_lt.mp fun h => hi.first j h hj.dvd
  · exact not_lt.mp fun h => hj.first i h hi.dvd

/-- A slot on the boundary of a level is on that level or on a higher one. -/
theorem exists_onLevel (hi : i < E.values.length) (h : E.span i ∣ rel) :
    ∃ k ≤ i, OnLevel E k rel := by
  classical
  have hex : ∃ k, E.span k ∣ rel := ⟨i, h⟩
  have hle : Nat.find hex ≤ i := Nat.find_min' hex h
  exact ⟨Nat.find hex, hle, hle.trans_lt hi, Nat.find_spec hex, fun _ hj => Nat.find_min hex hj⟩

/-- Where the rounding of two neighbouring levels differs, the finer one is on its level. -/
theorem onLevel_floorTo (hi : i + 1 < E.values.length)
    (hne : floorTo (E.span (i + 1)) rel ≠ floorTo (E.span i) rel) :
    OnLevel E (i + 1) (floorTo (E.span (i + 1)) rel) where
  lt := hi
  dvd := dvd_floorTo
  first j hj h := by
    have hdvd : E.span i ∣ floorTo (E.span (i + 1)) rel :=
      (E.span_dvd (Nat.lt_succ_iff.mp hj)).trans h
    exact hne ((dvd_floorTo_iff (E.span_dvd (Nat.le_succ i))).mp hdvd)

theorem onLevel_zero (h : E.span 0 ∣ rel) : OnLevel E 0 rel :=
  ⟨Nat.zero_lt_two.trans_le E.two_levels, h, fun _ hj => absurd hj (Nat.not_lt_zero _)⟩

theorem levelFrom_eq_some {exps : List Nat} {k : Nat} (h : E.values.drop k = exps) :
    levelFrom rel exps k = some i ↔
      k ≤ i ∧ i < E.values.length ∧ E.span i ∣ rel ∧ ∀ j, k ≤ j → j < i → ¬ E.span j ∣ rel := by
  induction exps generalizing k with
  | nil =>
    have hk : E.values.length ≤ k := List.drop_eq_nil_iff.mp h
    simp only [levelFrom, reduceCtorEq, false_iff]
    rintro ⟨hki, hi, -⟩
    omega
  | cons e es ih =>
    have hk : k < E.values.length := by
      by_contra hk
      rw [drop_eq_nil_of_le (not_lt.mp hk)] at h
      cases h
    rw [drop_eq_getElem_cons hk] at h
    injection h with he hes
    have hspan : E.span k = 2 ^ e := by rw [Exponents.span, getD_eq_getElem _ _ hk, he]
    have hrange := E.range e (he ▸ getElem_mem hk)
    rw [levelFrom, if_neg (by omega), ← hspan]
    by_cases hd : E.span k ∣ rel
    · rw [if_pos (Nat.mod_eq_zero_of_dvd hd)]
      constructor
      · rintro ⟨⟩
        exact ⟨le_rfl, hk, hd, fun j h1 h2 => by omega⟩
      · rintro ⟨hki, -, -, hfirst⟩
        rcases hki.eq_or_lt with rfl | hlt
        · rfl
        · exact absurd hd (hfirst k le_rfl hlt)
    · rw [if_neg fun h => hd (Nat.dvd_of_mod_eq_zero h), ih hes]
      constructor
      · rintro ⟨hki, hi, hdvd, hfirst⟩
        refine ⟨by omega, hi, hdvd, fun j h1 h2 => ?_⟩
        rcases h1.eq_or_lt with rfl | hlt
        · exact hd
        · exact hfirst j hlt h2
      · rintro ⟨hki, hi, hdvd, hfirst⟩
        refine ⟨?_, hi, hdvd, fun j h1 h2 => hfirst j (by omega) h2⟩
        by_contra hle
        obtain rfl : i = k := by omega
        exact hd hdvd

theorem computeLevel_eq_some :
    computeLevel E offset slot = some i ↔ offset ≤ slot ∧ OnLevel E i (slot - offset) := by
  unfold computeLevel
  split_ifs with h
  · simp only [false_iff]
    rintro ⟨hle, -⟩
    omega
  · rw [levelFrom_eq_some (k := 0) drop_zero]
    constructor
    · rintro ⟨-, hi, hd, hfirst⟩
      exact ⟨not_lt.mp h, hi, hd, fun j => hfirst j (Nat.zero_le j)⟩
    · rintro ⟨-, hi, hd, hfirst⟩
      exact ⟨Nat.zero_le i, hi, hd, fun j _ => hfirst j⟩

theorem computeLevel_add_eq_some :
    computeLevel E offset (offset + rel) = some i ↔ OnLevel E i rel := by
  rw [computeLevel_eq_some, Nat.add_sub_cancel_left]
  exact and_iff_right (Nat.le_add_right _ _)

theorem diffChainItems_level (hi : i < E.values.length) (m last : Nat) :
    diffChainItems offset rel ((E.values.drop i).take (m + 1)) i last =
      if floorTo (E.span i) rel = last then
        diffChainItems offset rel ((E.values.drop (i + 1)).take m) (i + 1) last
      else (i, floorTo (E.span i) rel + offset) ::
        diffChainItems offset rel ((E.values.drop (i + 1)).take m) (i + 1)
          (floorTo (E.span i) rel) := by
  have hspan : 2 ^ E.values[i] = E.span i := by
    rw [Exponents.span, getD_eq_getElem _ _ hi]
  rw [drop_eq_getElem_cons hi, take_succ_cons, diffChainItems, hspan]
  rfl

variable (E) in
/-- The slot is a saving point of the tree. -/
def InTree (offset slot : Nat) : Prop := (computeLevel E offset slot).isSome

instance (E : Exponents) (offset : Nat) : DecidablePred (InTree E offset) :=
  fun _ => inferInstanceAs (Decidable (_ = true))

theorem inTree_add (hi : i < E.values.length) (h : E.span i ∣ rel) :
    InTree E offset (offset + rel) := by
  obtain ⟨k, -, hk⟩ := exists_onLevel hi h
  exact Option.isSome_iff_exists.mpr ⟨k, computeLevel_add_eq_some.mpr hk⟩

end Levels

/-- The reader finds the chain of the slot: the slot holds a snapshot, or the diff of the
first level is there and the reader does not take it for the snapshot. -/
def Readable (E : Exponents) (offset slot : Nat) : Prop :=
  offset = 0 ∨ computeLevel E offset slot = some 0 ∨
    floorTo (E.span 1) (slot - offset) ≠ floorTo (E.span 0) (slot - offset) ∧
    floorTo (E.span 1) (slot - offset) ≠ offset + floorTo (E.span 0) (slot - offset)

instance (E : Exponents) (offset slot : Nat) : Decidable (Readable E offset slot) :=
  inferInstanceAs (Decidable (_ ∨ _ ∨ _ ∧ _))

section Chain

variable {σ β δ : Type} (sch : Scheme σ β δ) (E : Exponents)

/-- The bucket holds the states `done`: each as a snapshot, or as the diff from its anchor. -/
structure Holds (s : Store σ β δ) (done : List σ) : Prop where
  inj : ∀ a ∈ done, ∀ b ∈ done, sch.slot a = sch.slot b → a = b
  snapshots : ∀ st ∈ done, computeLevel E s.offset (sch.slot st) = some 0 →
    s.snapshots (sch.slot st) = some (sch.marshal st)
  diffs : ∀ st ∈ done, ∀ i, computeLevel E s.offset (sch.slot st) = some (i + 1) →
    ∃ a ∈ done, sch.slot a = s.offset + floorTo (E.span i) (sch.slot st - s.offset) ∧
      s.diffs (i + 1) (sch.slot st) = some (sch.diff a st)

variable {sch E} {s : Store σ β δ} {done : List σ} {rel : Nat} {lvl : Nat}

theorem Holds.anchors (h : Holds sch E s done) {st : σ} (hst : st ∈ done) (hlvl : OnLevel E lvl rel)
    (hslot : sch.slot st = s.offset + rel) :
    ∀ j ≤ lvl, ∃ a ∈ done, sch.slot a = s.offset + floorTo (E.span j) rel := by
  induction lvl using Nat.strong_induction_on generalizing st rel with
  | _ lvl ih =>
    intro j hj
    obtain rfl | hlt := hj.eq_or_lt
    · exact ⟨st, hst, by rw [hslot, floorTo_of_dvd hlvl.dvd]⟩
    obtain ⟨i, rfl⟩ : ∃ i, lvl = i + 1 := ⟨lvl - 1, by omega⟩
    obtain ⟨a, ha, haslot, -⟩ := h.diffs st hst i (by
      rw [hslot]
      exact computeLevel_add_eq_some.mpr hlvl)
    rw [hslot, Nat.add_sub_cancel_left] at haslot
    have hi : i < E.values.length := (Nat.lt_add_one i).trans hlvl.lt
    obtain ⟨k, hki, hk⟩ : ∃ k ≤ i, OnLevel E k (floorTo (E.span i) rel) :=
      exists_onLevel hi dvd_floorTo
    rw [← floorTo_floorTo (E.span_dvd (Nat.le_of_lt_succ hlt))]
    obtain hjk | hkj := le_total j k
    · exact ih k (by omega) ha hk haslot j hjk
    · -- the anchor lies on the levels from its own to `i`
      exact ⟨a, ha, by rw [floorTo_of_dvd ((E.span_dvd hkj).trans hk.dvd), haslot]⟩

/-- Going down `m` levels from an anchor of level `i`. The induction is on the levels that
are left; the state read so far is the one of the last anchor slot. -/
theorem readChain (h : Holds sch E s done) (hlvl : lvl < E.values.length)
    (hc : ∀ j ≤ lvl, ∃ a ∈ done, sch.slot a = s.offset + floorTo (E.span j) rel) (m : Nat) :
    ∀ i a, i + m ≤ lvl → a ∈ done →
      sch.slot a = s.offset + floorTo (E.span i) rel →
      ∃ ds b, (diffChainItems s.offset rel ((E.values.drop (i + 1)).take m) (i + 1)
          (floorTo (E.span i) rel)).mapM (getDiff s) = .ok ds ∧
        ds.foldlM sch.applyDiff a = .ok b ∧ b ∈ done ∧
        sch.slot b = s.offset + floorTo (E.span (i + m)) rel := by
  induction m with
  | zero => exact fun i a _ ha hslot => ⟨[], a, rfl, rfl, ha, hslot⟩
  | succ m ih =>
    intro i a hm ha hslot
    have hi : i + 1 < E.values.length := by omega
    rw [diffChainItems_level hi, show i + (m + 1) = i + 1 + m by omega]
    by_cases heq : floorTo (E.span (i + 1)) rel = floorTo (E.span i) rel
    · -- the anchor of the next level is the same one
      rw [if_pos heq]
      rw [← heq] at hslot ⊢
      exact ih (i + 1) a (by omega) ha hslot
    · rw [if_neg heq]
      have hlevel := onLevel_floorTo hi heq
      obtain ⟨b, hb, hbslot⟩ := hc (i + 1) (by omega)
      obtain ⟨a', ha', haslot, hdiff⟩ := h.diffs b hb i (by
        rw [hbslot]
        exact computeLevel_add_eq_some.mpr hlevel)
      have haa : a' = a := by
        apply h.inj a' ha' a ha
        rw [haslot, hslot, hbslot, Nat.add_sub_cancel_left,
          floorTo_floorTo (E.span_dvd (Nat.le_succ i))]
      subst haa
      obtain ⟨ds, c, hds, hfold, hc, hcslot⟩ := ih (i + 1) b (by omega) hb hbslot
      have hget : getDiff s (i + 1, floorTo (E.span (i + 1)) rel + s.offset) =
          .ok (sch.diff a' b) := by
        rw [getDiff, Nat.add_comm _ s.offset, ← hbslot]
        dsimp only
        rw [hdiff]
      refine ⟨sch.diff a' b :: ds, c, ?_, ?_, hc, hcslot⟩
      · rw [mapM_cons, hget, hds]
        rfl
      · rw [foldlM_cons, sch.applyDiff_diff]
        exact hfold

/-- On a readable slot the absolute anchor slot stands for the relative one. -/
theorem diffChainItems_of_readable (hlvl : OnLevel E lvl rel)
    (hr : Readable E s.offset (s.offset + rel)) :
    diffChainItems s.offset rel ((E.values.drop 1).take lvl) 1
        (s.offset + floorTo (E.span 0) rel) =
      diffChainItems s.offset rel ((E.values.drop 1).take lvl) 1 (floorTo (E.span 0) rel) := by
  have h1 : 1 < E.values.length := E.two_levels
  rcases hr with h0 | h0 | ⟨hne, hne'⟩
  · rw [h0, Nat.zero_add]
  · obtain rfl := hlvl.unique (computeLevel_add_eq_some.mp h0)
    rfl
  · rw [Nat.add_sub_cancel_left] at hne hne'
    cases lvl with
    | zero => rfl
    | succ m =>
      rw [diffChainItems_level h1, diffChainItems_level h1, if_neg hne, if_neg hne']

theorem stateByDiff_add (hlvl : OnLevel E lvl rel) :
    stateByDiff sch E s (s.offset + rel) = (do
      let snapshot ← getFullSnapshot sch s (s.offset + floorTo (E.span 0) rel)
      let diffChain ← (diffChainItems s.offset rel ((E.values.drop 1).take lvl) 1
        (s.offset + floorTo (E.span 0) rel)).mapM (getDiff s)
      diffChain.foldlM sch.applyDiff snapshot) := by
  have hanchor : s.offset + rel - rel % E.span 0 = s.offset + floorTo (E.span 0) rel := by
    rw [Nat.add_sub_assoc (Nat.mod_le _ _), sub_mod_eq_floorTo]
  unfold stateByDiff getBaseAndDiffChain
  rw [if_neg (by omega), if_neg (by omega), computeLevel_add_eq_some.mpr hlvl]
  dsimp only
  rw [Nat.add_sub_cancel_left, hanchor]
  simp only [bind_assoc, pure_bind]

theorem stateByDiff_of_readable (h : Holds sch E s done) {st : σ} (hst : st ∈ done)
    (htree : InTree E s.offset (sch.slot st))
    (hr : Readable E s.offset (sch.slot st)) : stateByDiff sch E s (sch.slot st) = .ok st := by
  obtain ⟨lvl, hlvl⟩ := Option.isSome_iff_exists.mp htree
  obtain ⟨hle, hlevel⟩ := computeLevel_eq_some.mp hlvl
  obtain ⟨rel, hrel⟩ := Nat.exists_eq_add_of_le hle
  rw [hrel, Nat.add_sub_cancel_left] at hlevel
  rw [hrel] at hr
  have hc := h.anchors hst hlevel hrel
  obtain ⟨base, hbase, hbslot⟩ := hc 0 (Nat.zero_le lvl)
  have hbase0 : computeLevel E s.offset (sch.slot base) = some 0 := by
    rw [hbslot]
    exact computeLevel_add_eq_some.mpr (onLevel_zero dvd_floorTo)
  have hsnap : getFullSnapshot sch s (s.offset + floorTo (E.span 0) rel) = .ok base := by
    rw [← hbslot, getFullSnapshot, h.snapshots base hbase hbase0]
    exact sch.unmarshal_marshal base
  obtain ⟨ds, b, hds, hfold, hb, hbs⟩ :=
    readChain h hlevel.lt hc lvl 0 base (Nat.zero_add lvl).le hbase hbslot
  have hb : b = st := by
    apply h.inj b hb st hst
    rw [hbs, Nat.zero_add, floorTo_of_dvd hlevel.dvd, hrel]
  subst hb
  rw [hrel, stateByDiff_add hlevel, hsnap, diffChainItems_of_readable hlevel hr, hds]
  exact hfold

end Chain

end LightChain.DiffTree
