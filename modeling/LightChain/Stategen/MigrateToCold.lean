import LightChain.Library.Run
import LightChain.Stategen.StateByRoot
import Mathlib.Data.PNat.Basic

/-!
# Migration of finalized states

`MigrateToCold` visits the archived points between two finalized slots and saves a state for each.
It takes the state that the epoch boundary cache has for the slot, or else that of the one block
at the highest slot below. Neither lookup asks whether the block is an ancestor of the finalized
one. So a point is archived right just if what is found for it is on the finalized chain, or is
stored already together with the state of the point.
-/
namespace LightChain.Stategen
open Library BlockStore List Option Function Generator

variable {ρ τ σ ε : Type} [Zero ρ] {T : Transition ρ τ σ ε} {tree : BlockTree T}

section Model

variable [DecidableEq ρ]

inductive MigrateError (ε : Type) where
  /-- The finalized block is not stored, and the program stops. -/
  | nilBlock
  | query (cause : QueryError)
  | unknownBlock
  | load (cause : LoadError ε)
deriving DecidableEq, Repr

def MigrateError.message (text : Error ε → String) : MigrateError ε → String
  | .nilBlock => "invalid memory address or nil pointer dereference"
  | .query e => e.message
  | .unknownBlock => "unknown block"
  | .load e => e.message text

/-- The state of a block is written to the state bucket. -/
def Generator.saveState (g : Generator tree) (r : ρ) (st : σ) (h : tree.PostState r st) :
    Generator tree :=
  { g with
    stateBucket := Function.update g.stateBucket r (some st)
    stateBucket_post := by
      intro r' st' h'
      by_cases hr : r' = r
      · subst hr
        rw [update_self] at h'
        exact some.inj h' ▸ h
      · rw [update_of_ne hr] at h'
        exact g.stateBucket_post h' }

/-- The state of the epoch boundary cache for a slot, with its root. -/
def Generator.getBySlot (g : Generator tree) (slot : Nat) : Option (ρ × σ) :=
  (g.slotRootCache slot).bind fun r => (g.rootStateCache r).map (r, ·)

variable {g : Generator tree}

omit [DecidableEq ρ] in
theorem Generator.getBySlot_eq_some {slot : Nat} {r : ρ} {st : σ}
    (h : g.getBySlot slot = some (r, st)) :
    g.slotRootCache slot = some r ∧ tree.PostState r st := by
  obtain ⟨r', hslot, h⟩ := bind_eq_some_iff.1 h
  obtain ⟨st', hstate, h⟩ := map_eq_some_iff.1 h
  cases h
  exact ⟨hslot, g.rootState_post hstate⟩

theorem Generator.highestRoots_ne_zero {slot fs : Nat} {r : ρ}
    (h : g.db.highestRootsBelowSlot slot = .ok (fs, [r])) : r ≠ 0 := by
  rintro rfl
  have hgenesis : g.db.genesisBlockRoot ≠ some 0 := by
    intro hroot
    obtain ⟨b, hb, -⟩ := tree.genesis
    rw [← g.genesisBlockRoot_eq hroot, tree.blocks_zero] at hb
    cases hb
  unfold Store.highestRootsBelowSlot at h
  cases hroot : g.db.genesisBlockRoot <;> grind

theorem Generator.regenerated_post {slot fs : Nat} {aRoot : ρ} {aState : σ}
    (hroots : g.db.highestRootsBelowSlot slot = .ok (fs, [aRoot]))
    (hstate : g.stateByRoot aRoot = .ok aState) : tree.PostState aRoot aState := by
  have hpost := stateByRoot_ok hstate
  rwa [blockRootOf, if_neg (highestRoots_ne_zero hroots)] at hpost

/-- The state manager, with the roots of hot states in the database. -/
structure Manager (tree : BlockTree T) where
  gen : Generator tree
  finalizedSlot : Nat
  blockRootsOfSavedStates : List ρ

namespace Manager

variable (m : Manager tree)

def migrateHotToCold (aRoot : ρ) : Manager tree :=
  { m with blockRootsOfSavedStates := m.blockRootsOfSavedStates.erase aRoot }

/-- The archived state is not in the cache. -/
def regenerate (slot : Nat) : Except (MigrateError ε) (Manager tree) :=
  match hroots : m.gen.db.highestRootsBelowSlot slot with
  | .error e => .error (.query e)
  | .ok (_, [aRoot]) =>
    match m.gen.stateBucket aRoot with
    | some _ => .ok (m.migrateHotToCold aRoot)
    | none =>
      match hstate : m.gen.stateByRoot aRoot with
      | .error e => .error (.load e)
      | .ok aState =>
        .ok { m with
          gen := m.gen.saveState aRoot aState (regenerated_post hroots hstate) }
  | .ok _ => .error .unknownBlock

def archive (slot : Nat) : Except (MigrateError ε) (Manager tree) :=
  match hcached : m.gen.getBySlot slot with
  | some (aRoot, aState) =>
    match m.gen.stateBucket aRoot with
    | some _ => .ok (m.migrateHotToCold aRoot)
    | none => .ok { m with
        gen := m.gen.saveState aRoot aState (getBySlot_eq_some hcached).2 }
  | none => m.regenerate slot

variable (slotsPerArchivedPoint : ℕ+)

def slotsFrom (slotsPerArchivedPoint : ℕ+) (slot fSlot : Nat) : List Nat :=
  if slot < fSlot then
    slot :: slotsFrom slotsPerArchivedPoint (slot + slotsPerArchivedPoint) fSlot
  else []
termination_by fSlot - slot
decreasing_by
  have := slotsPerArchivedPoint.pos
  omega

def archivedPoints (oldFSlot fSlot : Nat) : List Nat :=
  let startSlot : Nat :=
    if oldFSlot = 0 then slotsPerArchivedPoint
    else (oldFSlot + slotsPerArchivedPoint - 1) / slotsPerArchivedPoint * slotsPerArchivedPoint
  slotsFrom slotsPerArchivedPoint startSlot fSlot

/-- The loop. What was saved before an error stays. -/
def archiveAll : List Nat → Manager tree → Manager tree × Except (MigrateError ε) Unit
  | [], m => (m, .ok ())
  | slot :: slots, m =>
    match m.archive slot with
    | .error e => (m, .error e)
    | .ok m => archiveAll slots m

def saveFinalizedState (fSlot : Nat) (fRoot : ρ) (fState : σ) (h : tree.PostState fRoot fState) :
    Manager tree :=
  { m with
    finalizedSlot := fSlot
    gen := { m.gen with
      finalizedInfo := some (fRoot, fState)
      finalized_post := by
        intro r st hinfo
        cases hinfo
        exact h } }

def migrateToCold (fRoot : ρ) : Manager tree × Except (MigrateError ε) Unit :=
  match m.gen.db.getBlock fRoot with
  | none => (m, .error .nilBlock)
  | some fBlock =>
    if fBlock.slot < m.finalizedSlot then (m, .ok ())
    else
      match archiveAll (archivedPoints slotsPerArchivedPoint m.finalizedSlot fBlock.slot) m with
      | (m, .error e) => (m, .error e)
      | (m, .ok ()) =>
        match hstate : m.gen.rootStateCache fRoot with
        | none => (m, .ok ())
        | some fState =>
          (m.saveFinalizedState fBlock.slot fRoot fState (m.gen.rootState_post hstate), .ok ())

end Manager

end Model

section Points

open Manager

theorem mem_slotsFrom {n : ℕ+} {slot fSlot s : Nat} :
    s ∈ slotsFrom n slot fSlot ↔ slot ≤ s ∧ s < fSlot ∧ (n : Nat) ∣ s - slot := by
  fun_induction slotsFrom n slot fSlot with
  | case1 slot hlt ih =>
    rw [mem_cons, ih]
    constructor
    · rintro (rfl | ⟨hle, hf, hdvd⟩)
      · exact ⟨le_rfl, hlt, by simp⟩
      · refine ⟨by omega, hf, ?_⟩
        have : s - slot = s - (slot + n) + n := by omega
        exact this ▸ hdvd.add dvd_rfl
    · rintro ⟨hle, hf, hdvd⟩
      by_cases heq : s = slot
      · exact .inl heq
      · have hn : (n : Nat) ≤ s - slot := Nat.le_of_dvd (by omega) hdvd
        have : s - (slot + n) = s - slot - n := by omega
        exact .inr ⟨by omega, hf, this ▸ Nat.dvd_sub hdvd dvd_rfl⟩
  | case2 slot hge =>
    simp only [not_mem_nil, false_iff]
    omega

theorem mem_archivedPoints {n : ℕ+} {oldFSlot fSlot s : Nat} :
    s ∈ archivedPoints n oldFSlot fSlot ↔
      (n : Nat) ∣ s ∧ 0 < s ∧ oldFSlot ≤ s ∧ s < fSlot := by
  have hn := n.pos
  unfold archivedPoints
  rw [mem_slotsFrom]
  split_ifs with hzero
  · subst hzero
    constructor
    · rintro ⟨hle, hf, hdvd⟩
      have : s = s - n + n := by omega
      exact ⟨this ▸ hdvd.add dvd_rfl, by omega, by omega, hf⟩
    · rintro ⟨hdvd, hpos, -, hf⟩
      exact ⟨Nat.le_of_dvd hpos hdvd, hf, Nat.dvd_sub hdvd dvd_rfl⟩
  · set q := (oldFSlot + n - 1) / (n : Nat) with hq
    have hlow : q * n ≤ oldFSlot + n - 1 := Nat.div_mul_le_self _ _
    have hhigh : oldFSlot + n - 1 < q * n + n := by
      have := Nat.lt_div_mul_add (a := oldFSlot + n - 1) hn
      rwa [← hq] at this
    constructor
    · rintro ⟨hle, hf, hdvd⟩
      have : s = s - q * n + q * n := by omega
      exact ⟨this ▸ hdvd.add (Dvd.intro_left q rfl), by omega, by omega, hf⟩
    · rintro ⟨⟨j, rfl⟩, hpos, hold, hf⟩
      have hle : q ≤ j := by
        by_contra hlt
        have : (j + 1) * n ≤ q * n := Nat.mul_le_mul_right n (by omega)
        rw [Nat.add_mul, Nat.one_mul, Nat.mul_comm j] at this
        omega
      have hmul : q * n ≤ n * j := by
        rw [Nat.mul_comm (n : Nat) j]
        exact Nat.mul_le_mul_right n hle
      exact ⟨hmul, hf, Nat.dvd_sub (Dvd.intro j rfl) (Dvd.intro_left q rfl)⟩

end Points

section Right

variable [DecidableEq ρ] {m m' : Manager tree} {slot : Nat} {f r a : ρ}

/-- The roots that are found for an archived point. -/
def Generator.picked (g : Generator tree) (slot : Nat) : List ρ :=
  match g.getBySlot slot with
  | some (r, _) => [r]
  | none =>
    match g.db.highestRootsBelowSlot slot with
    | .ok (_, roots) => roots
    | .error _ => []

/-- The block is the one of the finalized chain for an archived point: no stored block of the
chain below the point is above it. -/
structure Generator.IsPoint (g : Generator tree) (f : ρ) (slot : Nat) (a : ρ) : Prop where
  ancestor : tree.ancestry.Ancestor a f
  slot_le : tree.ancestry.slot a ≤ slot
  last : ∀ b, tree.ancestry.Ancestor b f → (g.db.blocks b).isSome → tree.ancestry.slot b < slot →
    tree.ancestry.slot b ≤ tree.ancestry.slot a

/-- What one archived point does if it ends without an error. -/
theorem Manager.archive_ok (h : m.archive slot = .ok m') :
    ∃ r, m.gen.picked slot = [r] ∧
      ((m.gen.stateBucket r).isSome ∧ m'.gen = m.gen ∨
        m.gen.stateBucket r = none ∧ ∃ st hpost, m'.gen = m.gen.saveState r st hpost) := by
  unfold archive at h
  unfold picked
  split at h
  · next aRoot aState hcached =>
    refine ⟨aRoot, by rw [hcached], ?_⟩
    split at h
    · next st hst =>
      cases h
      exact .inl ⟨by simp [hst], rfl⟩
    · next hnone =>
      cases h
      exact .inr ⟨hnone, aState, (getBySlot_eq_some hcached).2, rfl⟩
  · next hcached =>
    unfold regenerate at h
    split at h
    · cases h
    · next fs aRoot hroots =>
      refine ⟨aRoot, by rw [hcached, hroots], ?_⟩
      split at h
      · next st hst =>
        cases h
        exact .inl ⟨by simp [hst], rfl⟩
      · next hnone =>
        split at h
        · cases h
        · next aState hstate =>
          cases h
          exact .inr ⟨hnone, aState, regenerated_post hroots hstate, rfl⟩
    · cases h

theorem Manager.archive_of_stored (hpicked : m.gen.picked slot = [r])
    (hstored : (m.gen.stateBucket r).isSome) : m.archive slot = .ok (m.migrateHotToCold r) := by
  obtain ⟨st, hst⟩ := isSome_iff_exists.1 hstored
  unfold picked at hpicked
  unfold archive
  split at hpicked
  · next aRoot aState hcached =>
    obtain rfl := singleton_inj.1 hpicked
    split
    · next r' st' hcached' =>
      cases hcached.symm.trans hcached'
      rw [hst]
    · next hnone => cases hnone.symm.trans hcached
  · next hcached =>
    split
    · next hcached' => cases hcached.symm.trans hcached'
    · unfold regenerate
      split at hpicked
      · next fs roots hroots =>
        subst hpicked
        split
        · next hroots' => cases hroots.symm.trans hroots'
        · next hroots' =>
          cases hroots.symm.trans hroots'
          rw [hst]
        · next hne hroots' =>
          cases hroots.symm.trans hroots'
          exact (hne _ _ rfl).elim
      · cases hpicked

omit [DecidableEq ρ] in
theorem Generator.listed {g : Generator tree} (hindex : KeyIndexes g.db.blockSlotIndices g.db.slotOf)
    {b : ρ} (hb : (g.db.blocks b).isSome) : b ∈ g.db.blockSlotIndices (tree.ancestry.slot b) := by
  obtain ⟨block, hblock⟩ := isSome_iff_exists.1 hb
  rw [hindex.mem_iff, Store.slotOf, hblock, BlockTree.ancestry_slot (g.blocks_tree hblock)]
  rfl

/-- A block of the finalized chain that is found for a point is the one of the point. -/
theorem Generator.isPoint_of_picked {g : Generator tree}
    (hindex : KeyIndexes g.db.blockSlotIndices g.db.slotOf) (hpicked : g.picked slot = [r])
    (hr : tree.ancestry.Ancestor r f) : g.IsPoint f slot r := by
  unfold picked at hpicked
  split at hpicked
  · next aRoot aState hcached =>
    obtain rfl := singleton_inj.1 hpicked
    obtain ⟨b, hb, hslot⟩ := g.slotRoot_slot (getBySlot_eq_some hcached).1
    have hat : tree.ancestry.slot aRoot = slot := (BlockTree.ancestry_slot hb).trans hslot
    exact ⟨hr, hat.le, fun b _ _ hlt => hat ▸ hlt.le⟩
  split at hpicked
  swap
  · cases hpicked
  next fs roots hroots =>
  subst hpicked
  have hne := highestRoots_ne_zero hroots
  unfold Store.highestRootsBelowSlot at hroots
  cases hbelow : g.db.highestBelow slot with
  | none =>
    -- Nothing is stored below the point, and the genesis block is taken.
    have hempty := highestBelow_eq_none hbelow
    obtain ⟨root, hroot, rfl⟩ : ∃ root, g.db.genesisBlockRoot = some root ∧ root = r := by
      cases hgenesis : g.db.genesisBlockRoot <;> simp_all
    obtain ⟨block, hblock, -, hzero, -⟩ := tree.genesis
    rw [← g.genesisBlockRoot_eq hroot] at hblock
    refine ⟨hr, by rw [BlockTree.ancestry_slot hblock, hzero]; exact slot.zero_le, ?_⟩
    intro b _ hb hlt
    have hmem := listed hindex hb
    rw [hempty _ hlt] at hmem
    exact absurd hmem not_mem_nil
  | some found =>
    obtain ⟨fs', roots⟩ := found
    obtain ⟨hlt, rfl, -, hgap⟩ := highestBelow_eq_some hbelow
    have hnot : g.db.blockSlotIndices fs' ≠ [0] := by
      intro hzero
      have hlisted := (hindex.mem_iff fs' 0).1 (by simp [hzero])
      obtain ⟨b, hb, -⟩ := map_eq_some_iff.1 hlisted
      have := g.blocks_tree hb
      rw [tree.blocks_zero] at this
      cases this
    simp only [hbelow, if_neg hnot, Except.ok.injEq, Prod.mk.injEq] at hroots
    obtain ⟨rfl, hroots⟩ := hroots
    obtain ⟨b, hb, hslot⟩ := map_eq_some_iff.1
      ((hindex.mem_iff fs' r).1 (by simp [hroots]))
    have hat : tree.ancestry.slot r = fs' :=
      (BlockTree.ancestry_slot (g.blocks_tree hb)).trans hslot
    refine ⟨hr, hat ▸ hlt.le, fun b _ hb hb' => ?_⟩
    by_contra hgt
    have hmem := listed hindex hb
    rw [hgap _ (by omega) hb'] at hmem
    exact absurd hmem not_mem_nil

/-- The archived point is done right: only a state of the finalized chain is saved, and the state
of the point is stored. An error is not due to a block of another branch. -/
def Manager.ArchivesRight (f : ρ) (m : Manager tree) (slot : Nat) : Prop :=
  match m.archive slot with
  | .ok m' => (∀ r, m'.gen.stateBucket r ≠ m.gen.stateBucket r → tree.ancestry.Ancestor r f) ∧
      ∃ a, m.gen.IsPoint f slot a ∧ (m'.gen.stateBucket a).isSome
  | .error _ => ∀ r ∈ m.gen.picked slot, tree.ancestry.Ancestor r f

/-- Only blocks of the finalized chain are found for the point, or one whose state is stored, as is
the state of the point. -/
def Manager.FindsChain (f : ρ) (m : Manager tree) (slot : Nat) : Prop :=
  (∀ r ∈ m.gen.picked slot, tree.ancestry.Ancestor r f) ∨
    ∃ r, m.gen.picked slot = [r] ∧ (m.gen.stateBucket r).isSome ∧
      ∃ a, m.gen.IsPoint f slot a ∧ (m.gen.stateBucket a).isSome

theorem Manager.archivesRight_iff (hindex : KeyIndexes m.gen.db.blockSlotIndices m.gen.db.slotOf) :
    m.ArchivesRight f slot ↔ m.FindsChain f slot := by
  unfold ArchivesRight FindsChain
  cases h : m.archive slot with
  | error e =>
    refine ⟨.inl, ?_⟩
    rintro (hall | ⟨r, hpicked, hstored, -⟩)
    · exact hall
    · cases (archive_of_stored hpicked hstored).symm.trans h
  | ok m' =>
    obtain ⟨r, hpicked, hcase⟩ := archive_ok h
    simp only [hpicked, mem_singleton, forall_eq, singleton_inj, exists_eq_left']
    rcases hcase with ⟨hstored, hgen⟩ | ⟨hnone, st, hpost, hgen⟩
    · -- Nothing is saved.
      rw [hgen]
      constructor
      · rintro ⟨-, hpoint⟩
        exact .inr ⟨hstored, hpoint⟩
      · rintro (hr | ⟨-, hpoint⟩)
        · exact ⟨fun _ hne => absurd rfl hne, r, isPoint_of_picked hindex hpicked hr, hstored⟩
        · exact ⟨fun _ hne => absurd rfl hne, hpoint⟩
    · rw [hgen]
      constructor
      · rintro ⟨hsaved, -⟩
        exact .inl (hsaved r (by simp [saveState, hnone]))
      · rintro (hr | ⟨hstored, -⟩)
        · refine ⟨fun r' hne => ?_, r, isPoint_of_picked hindex hpicked hr,
            by simp [saveState]⟩
          by_cases heq : r' = r
          · exact heq ▸ hr
          · simp [saveState, heq] at hne
        · simp [hnone] at hstored

end Right

section Calls

variable [DecidableEq ρ] {m m' : Manager tree} {slot : Nat} {f : ρ} {n : ℕ+}

/-- An archived point after others, unless one of them failed. -/
def archiveStep (s : Except (MigrateError ε) (Manager tree)) (slot : Nat) :
    Except (MigrateError ε) (Manager tree) :=
  s >>= fun m => m.archive slot

/-- Every archived point that the call reaches has the property. -/
def EachPoint (P : Manager tree → Nat → Prop) (m : Manager tree) (slots : List Nat) : Prop :=
  Along archiveStep (fun s slot => ∀ m', s = .ok m' → P m' slot) (.ok m) slots

/-- The call does every archived point right. -/
def Manager.MigratesRight (n : ℕ+) (m : Manager tree) (f : ρ) : Prop :=
  ∀ fBlock, m.gen.db.getBlock f = some fBlock →
    EachPoint (Manager.ArchivesRight f) m (archivedPoints n m.finalizedSlot fBlock.slot)

/-- Blocks of the finalized chain are found for every archived point. -/
def Manager.FindsChainOnly (n : ℕ+) (m : Manager tree) (f : ρ) : Prop :=
  ∀ fBlock, m.gen.db.getBlock f = some fBlock →
    EachPoint (Manager.FindsChain f) m (archivedPoints n m.finalizedSlot fBlock.slot)

theorem Manager.archive_keeps (h : m.archive slot = .ok m') : m'.gen.db = m.gen.db ∧
    ∀ r, (m.gen.stateBucket r).isSome → (m'.gen.stateBucket r).isSome := by
  obtain ⟨r, -, ⟨-, hgen⟩ | ⟨-, st, hpost, hgen⟩⟩ := archive_ok h
  · rw [hgen]
    exact ⟨rfl, fun _ h => h⟩
  · rw [hgen]
    refine ⟨rfl, fun r' hr' => ?_⟩
    by_cases heq : r' = r
    · simp [saveState, heq]
    · simpa [saveState, heq] using hr'

omit [DecidableEq ρ] in
theorem Generator.IsPoint.congr {g g' : Generator tree} {a : ρ} (h : g.IsPoint f slot a)
    (hdb : g'.db = g.db) : g'.IsPoint f slot a :=
  ⟨h.ancestor, h.slot_le, fun b hb hstored => h.last b hb (hdb ▸ hstored)⟩

theorem Manager.archiveAll_right {slots : List Nat}
    (h : EachPoint (Manager.ArchivesRight f) m slots) :
    (∀ r, (m.gen.stateBucket r).isSome → ((archiveAll slots m).1.gen.stateBucket r).isSome) ∧
      (∀ r, (archiveAll slots m).1.gen.stateBucket r ≠ m.gen.stateBucket r →
        tree.ancestry.Ancestor r f) ∧
      ((archiveAll slots m).2 = .ok () → ∀ slot ∈ slots, ∃ a, m.gen.IsPoint f slot a ∧
        ((archiveAll slots m).1.gen.stateBucket a).isSome) := by
  induction slots generalizing m with
  | nil => exact ⟨fun _ h => h, fun _ hne => absurd rfl hne, fun _ => by simp⟩
  | cons slot slots ih =>
    obtain ⟨hslot, hslots⟩ := h
    have hright := hslot m rfl
    unfold archiveAll
    cases harchive : m.archive slot with
    | error e => exact ⟨fun _ h => h, fun _ hne => absurd rfl hne, fun hok => nomatch hok⟩
    | ok m₁ =>
      simp only [ArchivesRight, harchive] at hright
      obtain ⟨hdb, hgrow⟩ := archive_keeps harchive
      have hrest : EachPoint (Manager.ArchivesRight f) m₁ slots := by
        rw [EachPoint, ← harchive]
        exact hslots
      obtain ⟨hgrow', hchain, hpoints⟩ := ih hrest
      refine ⟨fun r hr => hgrow' r (hgrow r hr), fun r hne => ?_, fun hok s hs => ?_⟩
      · by_cases hsame : m₁.gen.stateBucket r = m.gen.stateBucket r
        · exact hchain r (hsame ▸ hne)
        · exact hright.1 r hsame
      · rcases mem_cons.1 hs with rfl | hs
        · obtain ⟨a, hpoint, hstored⟩ := hright.2
          exact ⟨a, hpoint, hgrow' a hstored⟩
        · obtain ⟨a, hpoint, hstored⟩ := hpoints hok s hs
          exact ⟨a, hpoint.congr hdb.symm, hstored⟩

/-- The call saves states of the finalized chain only, and if it ends without an error, the state
of each archived point between the finalized slots is stored. -/
theorem Manager.MigratesRight.migrateToCold (h : m.MigratesRight n f) :
    (∀ r, (m.migrateToCold n f).1.gen.stateBucket r ≠ m.gen.stateBucket r →
        tree.ancestry.Ancestor r f) ∧
      ((m.migrateToCold n f).2 = .ok () → ∀ fBlock, m.gen.db.getBlock f = some fBlock →
        ∀ slot, (n : Nat) ∣ slot → 0 < slot → m.finalizedSlot ≤ slot → slot < fBlock.slot →
          ∃ a, m.gen.IsPoint f slot a ∧ ((m.migrateToCold n f).1.gen.stateBucket a).isSome) := by
  unfold Manager.migrateToCold
  cases hblock : m.gen.db.getBlock f with
  | none => exact ⟨fun _ hne => absurd rfl hne, fun hok => nomatch hok⟩
  | some fBlock =>
    obtain ⟨-, hchain, hpoints⟩ := archiveAll_right (h fBlock hblock)
    simp only
    split_ifs with hold
    · refine ⟨fun _ hne => absurd rfl hne, fun _ fBlock' hf slot _ _ hge hlt => ?_⟩
      cases hf
      omega
    · rcases hall : archiveAll (archivedPoints n m.finalizedSlot fBlock.slot) m with ⟨m₁, _ | ⟨⟨⟩⟩⟩
      · rw [hall] at hchain
        exact ⟨hchain, fun hok => nomatch hok⟩
      · rw [hall] at hchain hpoints
        have hdone : ∀ fBlock', some fBlock = some fBlock' → ∀ slot, (n : Nat) ∣ slot → 0 < slot →
            m.finalizedSlot ≤ slot → slot < fBlock'.slot →
            ∃ a, m.gen.IsPoint f slot a ∧ (m₁.gen.stateBucket a).isSome := by
          intro fBlock' hf slot hdvd hpos hge hlt
          cases hf
          exact hpoints rfl slot (mem_archivedPoints.2 ⟨hdvd, hpos, hge, hlt⟩)
        simp only
        split
        · exact ⟨hchain, fun _ => hdone⟩
        · exact ⟨hchain, fun _ => hdone⟩

/-- The call does every archived point right just if blocks of the finalized chain are found for
each. -/
theorem Manager.migrateToCold_right_iff
    (hindex : KeyIndexes m.gen.db.blockSlotIndices m.gen.db.slotOf) :
    (m.MigratesRight n f ↔ m.FindsChainOnly n f) ∧
      (m.MigratesRight n f →
        (∀ r, (m.migrateToCold n f).1.gen.stateBucket r ≠ m.gen.stateBucket r →
          tree.ancestry.Ancestor r f) ∧
        ((m.migrateToCold n f).2 = .ok () → ∀ fBlock, m.gen.db.getBlock f = some fBlock →
          ∀ slot, (n : Nat) ∣ slot → 0 < slot → m.finalizedSlot ≤ slot → slot < fBlock.slot →
            ∃ a, m.gen.IsPoint f slot a ∧
              ((m.migrateToCold n f).1.gen.stateBucket a).isSome)) := by
  refine ⟨forall₂_congr fun fBlock _ => ?_, MigratesRight.migrateToCold⟩
  -- The index does not change.
  refine along_congr (I := fun s => ∀ m', s = .ok m' →
    KeyIndexes m'.gen.db.blockSlotIndices m'.gen.db.slotOf) (by rintro m' ⟨⟩; exact hindex)
    (fun s slot hs => forall₂_congr fun m' hm' => archivesRight_iff (hs m' hm')) ?_
  rintro s slot hs - m' hstep
  obtain ⟨m₁, rfl, harchive⟩ := bind_eq_ok.1 hstep
  rw [(archive_keeps harchive).1]
  exact hs m₁ rfl

end Calls

section Fork

/-- A fork: two blocks at slot 3, one on the genesis block and one on its child at slot 1. -/
def forkStore : Store Nat Nat :=
  genesisAndChild.saveROBlocks (fun _ => false) [(3, ⟨3, 1, 3⟩), (4, ⟨3, 2, 4⟩)] false

theorem forkStore_sound : forkStore.Sound :=
  genesisAndChild_sound.saveROBlocks (fun _ => false) [(3, ⟨3, 1, 3⟩), (4, ⟨3, 2, 4⟩)] false

theorem forkStore_blocks {r : Nat} {b : Block Nat Nat} (h : forkStore.blocks r = some b) :
    (r = 1 ∧ b = ⟨0, 0, 1⟩ ∨ r = 2 ∧ b = ⟨1, 1, 2⟩) ∨
      r = 3 ∧ b = ⟨3, 1, 3⟩ ∨ r = 4 ∧ b = ⟨3, 2, 4⟩ := by
  by_cases h4 : r = 4
  · subst h4
    exact .inr (.inr ⟨rfl, (some.inj h).symm⟩)
  by_cases h3 : r = 3
  · subst h3
    exact .inr (.inl ⟨rfl, (some.inj h).symm⟩)
  have hblocks : forkStore.blocks = Function.update (Function.update genesisAndChild.blocks
      3 (some ⟨3, 1, 3⟩)) 4 (some ⟨3, 2, 4⟩) := rfl
  rw [hblocks, update_of_ne h4, update_of_ne h3] at h
  exact .inl (genesisAndChild_blocks h)

def forkTree : BlockTree headerTransition where
  blocks := forkStore.blocks
  genesisRoot := 1
  genesisState := (0, 1)
  blocks_zero := rfl
  root_eq h := by
    rcases forkStore_blocks h with (⟨rfl, rfl⟩ | ⟨rfl, rfl⟩) | ⟨rfl, rfl⟩ | ⟨rfl, rfl⟩ <;> rfl
  slot_lt h hp := by
    rcases forkStore_blocks h with (⟨rfl, rfl⟩ | ⟨rfl, rfl⟩) | ⟨rfl, rfl⟩ | ⟨rfl, rfl⟩ <;>
      cases hp <;> decide
  genesis := ⟨⟨0, 0, 1⟩, rfl, rfl, rfl, rfl⟩
  genesis_header := smallTree.genesis_header
  eq_genesis h hparent := by
    rcases forkStore_blocks h with (⟨rfl, rfl⟩ | ⟨rfl, rfl⟩) | ⟨rfl, rfl⟩ | ⟨rfl, rfl⟩ <;>
      first | rfl | cases hparent

/-- A manager that has all four blocks and the genesis state, and the post-state of the block at
slot 1 in its cache of hot states. -/
def forkManager : Manager forkTree where
  finalizedSlot := 0
  blockRootsOfSavedStates := []
  gen :=
    { db := { forkStore with genesisBlockRoot := some 1 }
      stateSummary := fun _ => none
      stateBucket := fun _ => none
      genesisState := some (0, 1)
      hotStateCache := fun r => if r = 2 then some (1, 2) else none
      finalizedInfo := none
      rootStateCache := fun _ => none
      slotRootCache := fun _ => none
      availableBlock := fun _ => true
      blocks_tree := fun h => h
      cache_sound := forkStore_sound.cache
      genesisBlockRoot_eq := fun h => (some.inj h).symm
      summary_slot := fun h => nomatch h
      stateBucket_post := fun h => nomatch h
      genesisState_eq := smallGenerator.genesisState_eq
      hotState_post := by
        intro r st h
        split_ifs at h with hr
        cases h
        subst hr
        exact .block rfl .genesis rfl
      finalized_post := fun h => nomatch h
      rootState_post := fun h => nomatch h
      slotRoot_slot := fun h => nomatch h }

theorem forkPoints : Manager.archivedPoints 2 0 3 = [2] := by
  simp [Manager.archivedPoints, Manager.slotsFrom]

theorem migrateToCold_right_iff_fork : forkManager.MigratesRight 2 4 := by
  refine (forkManager.migrateToCold_right_iff forkStore_sound.slots).1.2 fun fBlock hblock => ?_
  cases hblock
  rw [show forkManager.finalizedSlot = 0 from rfl, forkPoints]
  refine ⟨?_, trivial⟩
  rintro m' ⟨⟩
  refine .inl fun r hr => ?_
  obtain rfl : r = 2 := by simpa [show forkManager.gen.picked 2 = [2] from rfl] using hr
  exact .step rfl .refl

/-- The block at slot 3 on the genesis block is finalized. The state of the block at slot 1 is
saved for the archived point at slot 2, though the block is not on the finalized chain. -/
theorem losing_state_saved :
    (forkManager.migrateToCold 2 3).1.gen.stateBucket 2 = some (1, 2) ∧
      (forkManager.migrateToCold 2 3).2 = .ok () ∧
      ¬ forkTree.ancestry.Ancestor 2 3 ∧ ¬ forkManager.MigratesRight 2 3 := by
  obtain ⟨hsaved, hok⟩ : (forkManager.migrateToCold 2 3).1.gen.stateBucket 2 = some (1, 2) ∧
      (forkManager.migrateToCold 2 3).2 = .ok () := by
    unfold Manager.migrateToCold
    rw [show forkManager.gen.db.getBlock 3 = some ⟨3, 1, 3⟩ from rfl]
    simp only [show forkManager.finalizedSlot = 0 from rfl, forkPoints]
    exact ⟨rfl, rfl⟩
  have hother : ¬ forkTree.ancestry.Ancestor 2 3 := by
    rintro (_ | ⟨hparent, _ | ⟨hparent', -⟩⟩)
    · cases hparent
    · cases hparent
      cases hparent'
  refine ⟨hsaved, hok, hother, fun hright => hother ?_⟩
  exact hright.migrateToCold.1 2 (by rw [hsaved]; exact some_ne_none _)

end Fork

end LightChain.Stategen
