import LightChain.DiffTree.Runs

/-!
# Which offsets can be read back

With offset zero every slot is readable. With another offset the reader takes a slot for the
snapshot that is not the snapshot, or does not recognise the snapshot, and a tree with a slot
that is not readable loses states.
-/
namespace LightChain.DiffTree
open Library Library.Strides

section NotReadable

variable {σ β δ : Type} {sch : Scheme σ β δ} {E : Exponents} {s : Store σ β δ} {rel lvl : Nat}

/-- The first level has no diff of its own below the slot: the reader asks for one under the
slot of the snapshot. -/
theorem stateByDiff_ne_ok_of_eq (hk : Keys sch E s.offset s) (hoff : s.offset ≠ 0)
    (hlvl : OnLevel E (lvl + 1) rel)
    (heq : floorTo (E.span 1) rel = floorTo (E.span 0) rel) (st : σ) :
    stateByDiff sch E s (s.offset + rel) ≠ .ok st := by
  intro h
  rw [stateByDiff_add hlvl, diffChainItems_level E.two_levels, if_neg (by omega)] at h
  obtain ⟨base, -, h⟩ := bind_eq_ok.mp h
  obtain ⟨ds, hds, -⟩ := bind_eq_ok.mp h
  rw [List.mapM_cons] at hds
  obtain ⟨d, hd, -⟩ := bind_eq_ok.mp hds
  unfold getDiff at hd
  split at hd
  · cases hd
  · rename_i hget
    have hone := hk.diffs _ _ _ hget
    rw [heq, Nat.add_comm, computeLevel_add_eq_some] at hone
    exact one_ne_zero (hone.unique (onLevel_zero dvd_floorTo))

/-- The slot on the first level that lies as far above its snapshot as the snapshot's own
slot: the reader takes it for the snapshot. -/
theorem stateByDiff_ne_ok_of_shift (hk : Keys sch E s.offset s) (hoff : s.offset ≠ 0)
    (hlvl : OnLevel E 1 rel) (heq : rel = s.offset + floorTo (E.span 0) rel) {st : σ}
    (hst : sch.slot st = s.offset + rel) :
    stateByDiff sch E s (s.offset + rel) ≠ .ok st := by
  intro h
  have hitems : diffChainItems s.offset rel ((E.values.drop 1).take 1) 1
      (s.offset + floorTo (E.span 0) rel) = [] := by
    rw [diffChainItems_level E.two_levels, floorTo_of_dvd hlvl.dvd, if_pos heq]
    rfl
  rw [stateByDiff_add hlvl, hitems] at h
  obtain ⟨base, hbase, h⟩ := bind_eq_ok.mp h
  cases h
  unfold getFullSnapshot at hbase
  split at hbase
  · cases hbase
  · rename_i enc henc
    obtain ⟨b, hb, rfl⟩ := hk.snapshots _ _ henc
    rw [sch.unmarshal_marshal] at hbase
    cases hbase
    omega

end NotReadable

/-- States that are nothing but their slot. -/
def slotScheme : Scheme Nat Nat Nat where
  slot := id
  marshal := id
  unmarshal := .ok
  diff _ b := b
  applyDiff _ d := .ok d
  unmarshal_marshal _ := rfl
  applyDiff_diff _ _ := rfl

section ReadsBack

variable (E : Exponents) (offset last : Nat)

theorem saves_map_save (xs : List Nat) : saves (xs.map Event.save) = xs := by
  rw [saves, List.filterMap_map]
  exact List.filterMap_some

variable {E offset last}

theorem readable_of_readsBack (h : ReadsBack E offset last) {slot : Nat} (hlast : slot ≤ last)
    (htree : InTree E offset slot) : Readable E offset slot := by
  -- a run without restarts, over states that are their slots
  obtain ⟨s, hrun, hread⟩ := h Nat Nat Nat slotScheme ((treeSlots E offset last).map .save)
    (by rw [saves_map_save]; exact List.map_id _)
  rw [saves_map_save] at hread
  have hk := keys_run hrun
  obtain rfl := hk.offset_eq
  have hread : ∀ t ≤ last, InTree E s.offset t → stateByDiff slotScheme E s t = .ok t :=
    fun t ht hin => hread t (mem_treeSlots.mpr ⟨ht, hin⟩)
  by_contra hnot
  obtain ⟨hoff, hzero, hfloor⟩ : s.offset ≠ 0 ∧ computeLevel E s.offset slot ≠ some 0 ∧
      (floorTo (E.span 1) (slot - s.offset) ≠ floorTo (E.span 0) (slot - s.offset) →
        floorTo (E.span 1) (slot - s.offset) =
          s.offset + floorTo (E.span 0) (slot - s.offset)) := by
    simpa [Readable, not_or, not_and, not_not] using hnot
  obtain ⟨lvl, hlvl⟩ := Option.isSome_iff_exists.mp htree
  obtain ⟨hle, hlevel⟩ := computeLevel_eq_some.mp hlvl
  obtain ⟨rel, rfl⟩ := Nat.exists_eq_add_of_le hle
  rw [Nat.add_sub_cancel_left] at hlevel hfloor
  by_cases heq : floorTo (E.span 1) rel = floorTo (E.span 0) rel
  · cases lvl with
    | zero => exact hzero hlvl
    | succ lvl => exact stateByDiff_ne_ok_of_eq hk hoff hlevel heq _ (hread _ hlast htree)
  · -- the anchor of the slot on the first level is the slot that is lost
    have hone : OnLevel E 1 (floorTo (E.span 1) rel) := onLevel_floorTo E.two_levels heq
    have hshift : floorTo (E.span 1) rel =
        s.offset + floorTo (E.span 0) (floorTo (E.span 1) rel) := by
      rw [floorTo_floorTo (E.span_dvd (Nat.zero_le 1))]
      exact hfloor heq
    have hbelow : s.offset + floorTo (E.span 1) rel ≤ last :=
      (Nat.add_le_add_left floorTo_le _).trans hlast
    exact stateByDiff_ne_ok_of_shift hk hoff hone hshift rfl
      (hread _ hbelow (inTree_add E.two_levels dvd_floorTo))

variable (E offset last)

/-- The whole tree is read back exactly where each of its slots is readable. -/
theorem readsBack_iff :
    ReadsBack E offset last ↔
      ∀ slot ≤ last, InTree E offset slot → Readable E offset slot := by
  constructor
  · intro h slot hlast htree
    exact readable_of_readsBack h hlast htree
  · intro h
    exact readsBack_of_readable fun t ht =>
      h t (mem_treeSlots.mp ht).1 (mem_treeSlots.mp ht).2

end ReadsBack

/-- Three levels: a snapshot every 16 slots, diffs every 8 and every 4. -/
def threeLevels : Exponents where
  values := [4, 3, 2]
  decreasing := by decide
  range := by decide
  two_levels := by decide

/-- From offset 64 the state of slot 68 is saved as a diff from the snapshot of slot 64, and
the reader looks for a diff of the first level at slot 64. -/
theorem not_readsBack_threeLevels : ¬ ReadsBack threeLevels 64 68 := by
  intro h
  obtain ⟨s, hrun, hread⟩ := h Nat Nat Nat slotScheme [.save 64, .save 68] (by decide +kernel)
  have hlost : (run slotScheme threeLevels (Store.new threeLevels 64) [.save 64, .save 68] >>=
      fun s => stateByDiff slotScheme threeLevels s 68) = .error .stateDiffNotFound := by
    decide +kernel
  rw [hrun, ok_bind, show (68 : Nat) = slotScheme.slot 68 from rfl,
    hread 68 (by decide)] at hlost
  cases hlost

end LightChain.DiffTree
