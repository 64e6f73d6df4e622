import LightChain.DiffTree.Offsets
import LightChain.Library.Run

/-!
# Saving some slots of the tree

A run saves states in increasing order of their slots and may leave out slots of the tree.
The cache has one anchor for each level and does not say for which slot, so after a slot was
left out the anchor in the cache can be the one of an earlier slot. A save is right if its
anchor's place in the cache is empty or holds the state of the anchor slot.
-/
namespace LightChain.DiffTree
open Library Library.Strides

variable {σ β δ : Type} (sch : Scheme σ β δ) (E : Exponents) (s : Store σ β δ)

/-- A failed save leaves the store as it was. -/
def advance (e : Event σ) : Store σ β δ :=
  match step sch E s e with
  | .ok s' => s'
  | .error _ => s

/-- The slot whose state the reader takes as the base of the diff of a state on level `i + 1`. -/
def anchorSlot (i : Nat) (st : σ) : Nat :=
  s.offset + floorTo (E.span i) (sch.slot st - s.offset)

/-- A diff is computed from the state of the anchor slot, and what was saved is read back. -/
def RightBase : Event σ → Prop
  | .restart => True
  | .save st =>
    (∀ i a s', computeLevel E s.offset (sch.slot st) = some (i + 1) →
      getAnchorState sch E s (i + 1) (sch.slot st) = .ok (a, s') →
      sch.slot a = anchorSlot sch E s i st) ∧
    ∀ s', InTree E s.offset (sch.slot st) → saveStateByDiff sch E s st = .ok s' →
      stateByDiff sch E s' (sch.slot st) = .ok st

/-- The cache has no state of another slot in the place of the anchor. -/
def CacheFits : Event σ → Prop
  | .restart => True
  | .save st => ∀ i k a, computeLevel E s.offset (sch.slot st) = some (i + 1) →
    computeLevel E s.offset (anchorSlot sch E s i st) = some k →
    s.anchors[k]? = some (some a) → sch.slot a = anchorSlot sch E s i st

/-- The store holds the states `done` and nothing else. -/
structure Exactly (s : Store σ β δ) (done : List σ) : Prop extends Inv sch E s done where
  inTree : ∀ a ∈ done, InTree E s.offset (sch.slot a)
  snapshot_mem : ∀ t, s.snapshots t ≠ none → ∃ a ∈ done, sch.slot a = t
  diff_mem : ∀ i t, s.diffs i t ≠ none → ∃ a ∈ done, sch.slot a = t

variable {sch E} {s s' : Store σ β δ} {done : List σ} {st : σ} {rel lvl : Nat}

theorem mem_diffChainItems {m i last : Nat} (hlvl : OnLevel E (i + m) rel) (hlast : last ≠ rel)
    (offset : Nat) : (i + m, rel + offset) ∈
      diffChainItems offset rel ((E.values.drop i).take (m + 1)) i last := by
  induction m generalizing i last with
  | zero =>
    rw [Nat.add_zero] at hlvl ⊢
    rw [diffChainItems_level hlvl.lt, floorTo_of_dvd hlvl.dvd, if_neg hlast.symm]
    exact List.mem_cons_self
  | succ m ih =>
    have hlt := hlvl.lt
    rw [diffChainItems_level (by omega)]
    rw [show i + (m + 1) = i + 1 + m by omega] at hlvl ⊢
    have hbelow : floorTo (E.span i) rel ≠ rel :=
      fun h => hlvl.first i (by omega) (floorTo_eq_self.mp h)
    split_ifs
    · exact ih hlvl hlast
    · exact List.mem_cons_of_mem _ (ih hlvl hbelow)

/-- Only the slots of the states in the store can be read. -/
theorem Exactly.mem_of_stateByDiff (h : Exactly sch E s done) {a : σ} (hlvl : OnLevel E lvl rel)
    (hr : Readable E s.offset (s.offset + rel))
    (hread : stateByDiff sch E s (s.offset + rel) = .ok a) :
    ∃ b ∈ done, sch.slot b = s.offset + rel := by
  rw [stateByDiff_add hlvl, diffChainItems_of_readable hlvl hr] at hread
  obtain ⟨base, hbase, hread⟩ := bind_eq_ok.mp hread
  obtain ⟨ds, hds, -⟩ := bind_eq_ok.mp hread
  cases lvl with
  | zero =>
    rw [floorTo_of_dvd hlvl.dvd] at hbase
    refine h.snapshot_mem _ fun hnone => ?_
    rw [getFullSnapshot, hnone] at hbase
    cases hbase
  | succ i =>
    have hmem := mem_diffChainItems (i := 1) (m := i) (by rwa [Nat.add_comm])
      (fun heq => hlvl.first 0 (Nat.succ_pos i) (floorTo_eq_self.mp heq)) s.offset
    refine h.diff_mem (1 + i) _ fun hnone => ?_
    have hfail : ((diffChainItems s.offset rel ((E.values.drop 1).take (i + 1)) 1
        (floorTo (E.span 0) rel)).mapM (getDiff s)).toOption = none := by
      refine toOption_mapM_eq_none.2 ⟨_, hmem, ?_⟩
      rw [getDiff, Nat.add_comm rel, hnone]
      rfl
    rw [hds] at hfail
    cases hfail

section Step

variable (h : Exactly sch E s done) (habove : ∀ a ∈ done, sch.slot a < sch.slot st)
  (hread : ∀ t, InTree E s.offset t → Readable E s.offset t)
include h habove hread

omit habove in
/-- The anchor of a save that computes a diff has been saved. -/
theorem Exactly.anchor_mem (hfits : CacheFits sch E s (.save st)) {i : Nat} {a : σ}
    (hlvl : computeLevel E s.offset (sch.slot st) = some (i + 1))
    (hok : getAnchorState sch E s (i + 1) (sch.slot st) = .ok (a, s')) :
    ∃ b ∈ done, sch.slot b = anchorSlot sch E s i st := by
  obtain ⟨hle, hlevel⟩ := computeLevel_eq_some.mp hlvl
  have hi := hlevel.lt
  obtain ⟨k, -, hk⟩ : ∃ k ≤ i, OnLevel E k (floorTo (E.span i) (sch.slot st - s.offset)) :=
    exists_onLevel (by omega) dvd_floorTo
  have hanchor : computeLevel E s.offset (anchorSlot sch E s i st) = some k :=
    computeLevel_add_eq_some.mpr hk
  rw [← Nat.add_sub_of_le hle, getAnchorState_add hlevel hk] at hok
  obtain ⟨cached, hcached, hok⟩ := bind_eq_ok.mp hok
  cases cached with
  | some b =>
    have hb : s.anchors[k]? = some (some b) := by
      unfold Store.getAnchor at hcached
      split at hcached
      · cases hcached
      · next hsome =>
        cases hcached
        exact hsome
    exact ⟨b, (h.anchors k b hb).1, hfits i k b hlvl hanchor hb⟩
  | none =>
    obtain ⟨b, hb, -⟩ := bind_eq_ok.mp hok
    exact h.mem_of_stateByDiff hk (hread _ (Option.isSome_iff_exists.mpr ⟨k, hanchor⟩)) hb

theorem Exactly.save (hfits : CacheFits sch E s (.save st))
    (htree : InTree E s.offset (sch.slot st)) (hs : saveStateByDiff sch E s st = .ok s') :
    Exactly sch E s' (done ++ [st]) ∧ s'.offset = s.offset := by
  have hbucket := bucket_saveStateByDiff hs
  obtain ⟨s₂, hs₂, hoff, hinv⟩ := saveStateByDiff_eq_ok h.toInv habove
    (fun a ha => hread _ (h.inTree a ha)) htree fun i hlvl => by
      obtain ⟨hnone, -⟩ | ⟨hzero, -⟩ | ⟨j, a, s₁, hj, hok, -⟩ := hbucket
      · cases hlvl.symm.trans hnone
      · cases hlvl.symm.trans hzero
      · cases hlvl.symm.trans hj
        exact h.anchor_mem hread hfits hlvl hok
  cases hs.symm.trans hs₂
  have hmem : ∀ {t : Nat}, (t = sch.slot st ∨ ∃ a ∈ done, sch.slot a = t) →
      ∃ a ∈ done ++ [st], sch.slot a = t := by
    rintro t (rfl | ⟨a, ha, rfl⟩)
    · exact ⟨st, by simp, rfl⟩
    · exact ⟨a, List.mem_append_left _ ha, rfl⟩
  refine ⟨⟨hinv, fun a ha => ?_, fun t ht => hmem ?_, fun i t ht => hmem ?_⟩, hoff⟩
  · rw [hoff]
    obtain ha | ha := List.mem_append.mp ha
    · exact h.inTree a ha
    · rwa [List.mem_singleton.mp ha]
  · obtain ⟨-, rfl⟩ | ⟨-, hsame⟩ | ⟨i, a, -, -, -, hsame⟩ := hbucket
    · exact .inr (h.snapshot_mem t ht)
    · rw [hsame.snapshots_eq] at ht
      exact or_iff_not_imp_left.mpr fun hne =>
        h.snapshot_mem t fun hnone => ht ((if_neg hne).trans hnone)
    · exact .inr (h.snapshot_mem t (hsame.snapshots_eq ▸ ht))
  · obtain ⟨-, rfl⟩ | ⟨-, hsame⟩ | ⟨j, a, -, -, -, hsame⟩ := hbucket
    · exact .inr (h.diff_mem i t ht)
    · exact .inr (h.diff_mem i t (hsame.diffs_eq ▸ ht))
    · rw [hsame.diffs_eq] at ht
      exact or_iff_not_imp_left.mpr fun hne =>
        h.diff_mem i t fun hnone => ht ((if_neg fun heq => hne heq.2).trans hnone)

theorem rightBase_save_iff :
    RightBase sch E s (.save st) ↔ CacheFits sch E s (.save st) := by
  constructor
  · rintro ⟨hbase, -⟩ i k a hlvl hk ha
    obtain ⟨hle, hlevel⟩ := computeLevel_eq_some.mp hlvl
    refine hbase i a s hlvl ?_
    rw [← Nat.add_sub_of_le hle, getAnchorState_add hlevel (computeLevel_add_eq_some.mp hk),
      loadAnchor, Store.getAnchor, ha]
    rfl
  · refine fun hfits => ⟨fun i a s' hlvl hok => ?_, fun s' htree hs => ?_⟩
    · obtain ⟨b, t, hb, -, hslot, -⟩ := getAnchorState_eq_ok habove h.toInv
        (fun a ha => hread _ (h.inTree a ha)) hlvl (h.anchor_mem hread hfits hlvl hok)
      cases hok.symm.trans hb
      exact hslot
    · obtain ⟨hexact, hoff⟩ := h.save habove hread hfits htree hs
      rw [← hoff] at htree hread
      exact stateByDiff_of_readable hexact.holds (by simp) htree (hread _ htree)

theorem Exactly.advance (hfits : CacheFits sch E s (.save st)) :
    ∃ done', Exactly sch E (advance sch E s (.save st)) done' ∧
      (advance sch E s (.save st)).offset = s.offset ∧ ∀ a ∈ done', a ∈ done ∨ a = st := by
  simp only [DiffTree.advance, step]
  cases hs : saveStateByDiff sch E s st with
  | error e => exact ⟨done, h, rfl, fun a => .inl⟩
  | ok s' =>
    by_cases htree : InTree E s.offset (sch.slot st)
    · obtain ⟨hexact, hoff⟩ := h.save habove hread hfits htree hs
      exact ⟨_, hexact, hoff, fun a ha => by simpa using ha⟩
    · have hnone := Option.not_isSome_iff_eq_none.mp htree
      obtain ⟨-, rfl⟩ | ⟨hzero, -⟩ | ⟨i, a, s₁, hi, -⟩ := bucket_saveStateByDiff hs
      · exact ⟨done, h, rfl, fun a => .inl⟩
      · cases hnone.symm.trans hzero
      · cases hnone.symm.trans hi

end Step

theorem along_rightBase_iff {events : List (Event σ)} (h : Exactly sch E s done)
    (hread : ∀ t, InTree E s.offset t → Readable E s.offset t)
    (hsorted : (saves events).Pairwise fun a b => sch.slot a < sch.slot b)
    (habove : ∀ a ∈ done, ∀ st ∈ saves events, sch.slot a < sch.slot st) :
    Along (advance sch E) (RightBase sch E) s events ↔
      Along (advance sch E) (CacheFits sch E) s events := by
  induction events generalizing s done with
  | nil => exact Iff.rfl
  | cons e events ih =>
    cases e with
    | restart =>
      have hrestart : Exactly sch E (s.clearAnchors E) done :=
        ⟨h.toInv.restart, h.inTree, h.snapshot_mem, h.diff_mem⟩
      exact and_congr Iff.rfl (ih hrestart hread hsorted habove)
    | save st =>
      change (st :: saves events).Pairwise _ at hsorted
      obtain ⟨hst, hsorted⟩ := List.pairwise_cons.mp hsorted
      have hdone : ∀ a ∈ done, sch.slot a < sch.slot st :=
        fun a ha => habove a ha st List.mem_cons_self
      refine (and_congr_left' (rightBase_save_iff h hdone hread)).trans
        (and_congr_right fun hfits => ?_)
      obtain ⟨done', hexact, hoff, hsub⟩ := h.advance hdone hread hfits
      refine ih hexact (hoff ▸ hread) hsorted fun a ha b hb => ?_
      obtain ha | rfl := hsub a ha
      · exact habove a ha b (List.mem_cons_of_mem _ hb)
      · exact hst b hb

/-- In a run that may leave out slots, every diff has the right base if at each save the cache
holds nothing or the anchor of that save. -/
theorem rightBase_iff (sch : Scheme σ β δ) (E : Exponents) (offset : Nat)
    (hread : ∀ t, InTree E offset t → Readable E offset t) (events : List (Event σ))
    (hsorted : (saves events).Pairwise fun a b => sch.slot a < sch.slot b) :
    Along (advance sch E) (RightBase sch E) (Store.new E offset) events ↔
      Along (advance sch E) (CacheFits sch E) (Store.new E offset) events := by
  have hnew : Exactly sch E (Store.new E offset) [] :=
    ⟨inv_new offset, List.forall_mem_nil _, fun _ h => absurd rfl h, fun _ _ h => absurd rfl h⟩
  exact along_rightBase_iff hnew hread hsorted (List.forall_mem_nil _)

/-- A run that leaves out nothing the next save needs. -/
theorem rightBase_firstDiff :
    Along (advance slotScheme threeLevels) (RightBase slotScheme threeLevels)
      (Store.new threeLevels 0) [.save 0, .restart, .save 8] := by
  refine (rightBase_iff slotScheme threeLevels 0 (fun t _ => .inl rfl) _ (by decide)).mpr
    ⟨fun i k a _ _ ha => ?_, trivial, fun i k a _ _ ha => ?_, trivial⟩
  · exact absurd ha (getElem?_emptyAnchors k a)
  · exact absurd ha (getElem?_emptyAnchors k a)

/-- The snapshot of slot 16 is left out. The diff of slot 20 is computed from the state of
slot 0, without an error, and cannot be read. -/
theorem diff_from_older_snapshot :
    ∃ s s' s'' : Store Nat Nat Nat,
      saveStateByDiff slotScheme threeLevels (Store.new threeLevels 0) 0 = .ok s ∧
      getAnchorState slotScheme threeLevels s 2 20 = .ok (0, s') ∧
      anchorSlot slotScheme threeLevels s 1 20 = 16 ∧
      saveStateByDiff slotScheme threeLevels s 20 = .ok s'' ∧
      stateByDiff slotScheme threeLevels s'' 20 = .error .stateNotFound :=
  ⟨_, _, _, rfl, rfl, rfl, rfl, rfl⟩

end LightChain.DiffTree
