import LightChain.DiffTree.Offsets

/-!
# Migration to the tree of state diffs

`migrateToColdHdiff` walks the slots between two finalized slots and saves the state of each
slot of the tree. With state diffs enabled, `HasState` answers from the slot of the block, and
`State` reads the tree. `SaveState` writes to the state bucket in either case, and no other
function of the program calls `saveStateByDiff`: after `initializeStateDiff` the tree keeps the
snapshot at its offset and nothing else (`run_diff`). `migration_meets_iff` says for
which chains that is enough.
-/
namespace LightChain.DiffTree
open Library Library.Strides

variable {σ β δ Root : Type}

inductive MigrationError where
  | noSlot
  | unknownBlock
  | generator (text : String)
  | tree (cause : TreeError)
deriving DecidableEq, Repr

def MigrationError.message : MigrationError → String
  | .noSlot => "neither state summary nor block found"
  | .unknownBlock => "unknown block"
  | .generator text => text
  | .tree e => e.message

/-- The beacon database: the tree, the state bucket, the slots of block roots that state summaries
and blocks give, and the index of blocks by slot. -/
structure Database (σ β δ Root : Type) where
  diff : Store σ β δ
  stateBucket : Root → Option σ
  slots : Root → Option Nat
  blockSlotIndices : Nat → List Root
  genesisBlockRoot : Root

/-- The state generator. States that it finds in its caches or replays, and states advanced by
empty slots, are inputs. -/
structure Generator (σ Root : Type) where
  finalizedSlot : Nat
  finalizedRoot : Root
  finalizedState : Option σ
  blockRootsOfSavedStates : List Root
  getBySlot : Nat → Option (Root × σ)
  getByBlockRoot : Root → Option σ
  stateByRoot : Root → Except MigrationError σ
  processSlots : σ → Nat → Except MigrationError σ

section Model

variable [DecidableEq Root] (sch : Scheme σ β δ) (E : Exponents)

namespace Database

variable (db : Database σ β δ Root)

def slotByBlockRoot (root : Root) : Except MigrationError Nat :=
  match db.slots root with
  | some slot => .ok slot
  | none => .error .noSlot

/-- `State`, through `getStateUsingStateDiff`. -/
def state (root : Root) : Except MigrationError σ := do
  let slot ← db.slotByBlockRoot root
  if slot < db.diff.offset then .error (.tree .slotBeforeOffset)
  else (stateByDiff sch E db.diff slot).mapError .tree

/-- `HasState`, through `hasStateUsingStateDiff`; an error is logged. -/
def hasState (root : Root) : Bool :=
  match db.slotByBlockRoot root with
  | .error _ => false
  | .ok slot => if slot < db.diff.offset then false else (computeLevel E db.diff.offset slot).isSome

/-- `SaveState`. Either format of the state bucket is keyed by the block root. -/
def saveState (st : σ) (blockRoot : Root) : Database σ β δ Root :=
  { db with stateBucket := Function.update db.stateBucket blockRoot (some st) }

def saveBlock (slot : Nat) (root : Root) : Database σ β δ Root :=
  { db with
    slots := Function.update db.slots root (some slot)
    blockSlotIndices := Function.update db.blockSlotIndices slot
      (db.blockSlotIndices slot ++ [root]) }

/-- The roots at the highest slot below the given one. -/
def highestRoots (db : Database σ β δ Root) : Nat → List Root
  | 0 => []
  | slot + 1 =>
    if db.blockSlotIndices slot = [] then db.highestRoots slot else db.blockSlotIndices slot

def highestRootsBelowSlot (slot : Nat) : List Root :=
  if db.highestRoots slot = [] then [db.genesisBlockRoot] else db.highestRoots slot

end Database

def Generator.migrateHotToCold (g : Generator σ Root) (root : Root) : Generator σ Root :=
  { g with blockRootsOfSavedStates := g.blockRootsOfSavedStates.erase root }

def stateForSlot (db : Database σ β δ Root) (g : Generator σ Root) (slot : Nat) :
    Except MigrationError (Root × σ) :=
  match g.getBySlot slot with
  | some cached => .ok cached
  | none =>
    match db.highestRootsBelowSlot slot with
    | [aRoot] => do
      let aState ← g.stateByRoot aRoot
      return (aRoot, aState)
    | _ => .error .unknownBlock

variable (s : Database σ β δ Root × Generator σ Root)

def migrateSlot (slot : Nat) : Except MigrationError (Database σ β δ Root × Generator σ Root) :=
  match slotInDiffTree E s.1.diff slot with
  | .error _ => .ok s
  | .ok none => .ok s
  | .ok (some _) =>
    if slot = s.1.diff.offset then .ok s
    else do
      let (aRoot, aState) ← stateForSlot s.1 s.2 slot
      if s.1.hasState E aRoot then return (s.1, s.2.migrateHotToCold aRoot)
      else do
        let aState ← if sch.slot aState < slot then s.2.processSlots aState slot else pure aState
        return (s.1.saveState aState aRoot, s.2)

def migrateToColdHdiff (fRoot : Root) :
    Except MigrationError (Database σ β δ Root × Generator σ Root) := do
  let oldFSlot := s.2.finalizedSlot
  let fSlot ← s.1.slotByBlockRoot fRoot
  let (db, g) ← (List.range' oldFSlot (fSlot - oldFSlot)).foldlM (migrateSlot sch E) s
  match g.getByBlockRoot fRoot with
  | some st => return (db, { g with
      finalizedSlot := fSlot, finalizedRoot := fRoot, finalizedState := some st })
  | none => return (db, g)

/-- `initializeStateDiff`, called with the slot of the state. -/
def initializeStateDiff (initialState : σ) : Except TreeError (Store σ β δ) :=
  saveFullSnapshot sch E (Store.new E (sch.slot initialState)) initialState

/-- What happens to the database and the generator after the initialisation. The generator's
caches may change at any time. -/
inductive ChainEvent (σ Root : Type) where
  | saveBlock (slot : Nat) (root : Root)
  | saveState (st : σ) (root : Root)
  | caches (g : Generator σ Root)
  | migrate (fRoot : Root)

def chainStep :
    ChainEvent σ Root → Except MigrationError (Database σ β δ Root × Generator σ Root)
  | .saveBlock slot root => .ok (s.1.saveBlock slot root, s.2)
  | .saveState st root => .ok (s.1.saveState st root, s.2)
  | .caches g => .ok (s.1, g)
  | .migrate fRoot => migrateToColdHdiff sch E s fRoot

end Model

section Frames

variable [DecidableEq Root] {sch : Scheme σ β δ} {E : Exponents}
  {s t : Database σ β δ Root × Generator σ Root}

def Keeps (s t : Database σ β δ Root × Generator σ Root) : Prop :=
  t.1.diff = s.1.diff ∧ t.1.slots = s.1.slots

theorem migrateSlot_keeps {slot : Nat} (h : migrateSlot sch E s slot = .ok t) : Keeps s t := by
  unfold migrateSlot at h
  split at h
  · cases h
    exact ⟨rfl, rfl⟩
  · cases h
    exact ⟨rfl, rfl⟩
  · split_ifs at h
    · cases h
      exact ⟨rfl, rfl⟩
    · obtain ⟨⟨aRoot, aState⟩, -, h⟩ := bind_eq_ok.mp h
      dsimp only at h
      split_ifs at h
      · cases h
        exact ⟨rfl, rfl⟩
      · obtain ⟨advanced, -, h⟩ := bind_eq_ok.mp h
        cases h
        exact ⟨rfl, rfl⟩
      · cases h
        exact ⟨rfl, rfl⟩

theorem migrateToColdHdiff_keeps {fRoot : Root} (h : migrateToColdHdiff sch E s fRoot = .ok t) :
    Keeps s t := by
  obtain ⟨fSlot, -, h⟩ := bind_eq_ok.mp h
  obtain ⟨⟨db, g⟩, hloop, h⟩ := bind_eq_ok.mp h
  have hkeeps : Keeps s (db, g) := foldlM_invariant
    (fun a slot b _ ha hb => by
      obtain ⟨hdiff, hslots⟩ := migrateSlot_keeps hb
      exact ⟨hdiff.trans ha.1, hslots.trans ha.2⟩) ⟨rfl, rfl⟩ hloop
  dsimp only at h
  split at h <;> cases h <;> exact hkeeps

theorem chainStep_diff {event : ChainEvent σ Root} (h : chainStep sch E s event = .ok t) :
    t.1.diff = s.1.diff := by
  cases event with
  | saveBlock slot root =>
    cases h
    rfl
  | saveState st root =>
    cases h
    rfl
  | caches g =>
    cases h
    rfl
  | migrate fRoot => exact (migrateToColdHdiff_keeps h).1

theorem run_diff {events : List (ChainEvent σ Root)}
    (h : events.foldlM (chainStep sch E) s = .ok t) : t.1.diff = s.1.diff :=
  foldlM_invariant (fun _ _ _ _ ha hb => (chainStep_diff hb).trans ha) rfl h

end Frames

section Initial

variable {sch : Scheme σ β δ} {E : Exponents} {store : Store σ β δ} {initialState : σ}

theorem initializeStateDiff_eq (h : initializeStateDiff sch E initialState = .ok store) :
    store.offset = sch.slot initialState ∧
      (∀ slot, store.snapshots slot =
        if slot = sch.slot initialState then some (sch.marshal initialState) else none) ∧
      ∀ level slot, store.diffs level slot = none := by
  unfold initializeStateDiff saveFullSnapshot Store.setAnchor at h
  split_ifs at h
  cases h
  exact ⟨rfl, fun slot => rfl, fun level slot => rfl⟩

/-- The reader takes the snapshot at the offset for the state of the slot. -/
def NeedsNoDiff (E : Exponents) (offset slot : Nat) : Prop :=
  ∃ lvl, computeLevel E offset slot = some lvl ∧
    slot - (slot - offset) % E.span 0 = offset ∧
    diffChainItems offset (slot - offset) ((E.values.drop 1).take lvl) 1 offset = []

theorem stateByDiff_initial (h : initializeStateDiff sch E initialState = .ok store) {slot : Nat}
    (hslot : store.offset ≤ slot) {st : σ} :
    stateByDiff sch E store slot = .ok st ↔
      NeedsNoDiff E store.offset slot ∧ st = initialState := by
  obtain ⟨hoffset, hsnapshots, hdiffs⟩ := initializeStateDiff_eq h
  unfold stateByDiff getBaseAndDiffChain NeedsNoDiff
  rw [if_neg (by omega), if_neg (by omega)]
  cases hlvl : computeLevel E store.offset slot with
  | none =>
    constructor
    · intro hread
      cases hread
    · rintro ⟨⟨lvl, hsome, -⟩, -⟩
      cases hsome
  | some lvl =>
    constructor
    · intro hread
      obtain ⟨⟨base, chain⟩, hpair, happly⟩ := bind_eq_ok.mp hread
      obtain ⟨snapshot, hbase, hpair⟩ := bind_eq_ok.mp hpair
      obtain ⟨diffs, hchain, hpair⟩ := bind_eq_ok.mp hpair
      cases hpair
      rw [getFullSnapshot, hsnapshots] at hbase
      split_ifs at hbase with hat
      · rw [hat, ← hoffset] at hchain
        -- Any diff that the reader asks for is missing.
        cases hitems : diffChainItems store.offset (slot - store.offset)
            ((E.values.drop 1).take lvl) 1 store.offset with
        | nil =>
          rw [hitems] at hchain
          cases hchain
          cases happly
          have hstate := (sch.unmarshal_marshal initialState).symm.trans hbase
          exact ⟨⟨lvl, rfl, hat.trans hoffset.symm, hitems⟩, (Except.ok.inj hstate).symm⟩
        | cons item items =>
          rw [hitems, List.mapM_cons] at hchain
          obtain ⟨diff, hdiff, -⟩ := bind_eq_ok.mp hchain
          simp only [getDiff, hdiffs] at hdiff
          cases hdiff
    · rintro ⟨⟨lvl', hsome, hbase, hitems⟩, rfl⟩
      obtain rfl := Option.some.inj hsome
      have hsnapshot : getFullSnapshot sch store store.offset = .ok st := by
        rw [getFullSnapshot, hsnapshots, if_pos hoffset]
        exact sch.unmarshal_marshal st
      simp only [hbase, hsnapshot, hitems, ok_bind]
      rfl

end Initial

section Loss

variable [DecidableEq Root] (sch : Scheme σ β δ) (E : Exponents)

/-- What is asked of a migration up to the block `fRoot`: the states of the slots of the tree can
be read, and `HasState` promises no state that `State` does not find. -/
structure LosesNothing (canonical : Nat → σ) (oldFSlot : Nat) (fRoot : Root)
    (db : Database σ β δ Root) : Prop where
  treeSlots : ∀ fSlot, db.slots fRoot = some fSlot → ∀ slot, oldFSlot ≤ slot → slot < fSlot →
    InTree E db.diff.offset slot → slot ≠ db.diff.offset →
    stateByDiff sch E db.diff slot = .ok (canonical slot)
  hasState : ∀ root, db.hasState E root = true → ∃ st, db.state sch E root = .ok st

/-- There is nothing to migrate, and no block at a slot of the tree needs a diff. -/
structure NothingToSave (E : Exponents) (offset oldFSlot : Nat) (fRoot : Root)
    (db : Database σ β δ Root) : Prop where
  treeSlots : ∀ fSlot, db.slots fRoot = some fSlot → ∀ slot, oldFSlot ≤ slot → slot < fSlot →
    InTree E offset slot → slot = offset
  blocks : ∀ root slot, db.slots root = some slot → InTree E offset slot →
    NeedsNoDiff E offset slot

variable {sch E} {initialState : σ} {store : Store σ β δ} {db : Database σ β δ Root}
  {s t : Database σ β δ Root × Generator σ Root}

theorem offset_le_of_inTree {offset slot : Nat} (h : InTree E offset slot) : offset ≤ slot := by
  by_contra hlt
  simp [InTree, computeLevel, not_le.mp hlt] at h

omit [DecidableEq Root] in
theorem hasState_iff {root : Root} : db.hasState E root = true ↔
    ∃ slot, db.slots root = some slot ∧ InTree E db.diff.offset slot := by
  unfold Database.hasState Database.slotByBlockRoot
  cases hslot : db.slots root with
  | none => simp
  | some slot =>
    simp only [Option.some.injEq, exists_eq_left']
    split_ifs with hlt
    · exact ⟨fun h => (by cases h), fun h => absurd (offset_le_of_inTree h) (not_le.mpr hlt)⟩
    · exact Iff.rfl

omit [DecidableEq Root] in
theorem losesNothing_initial (hinit : initializeStateDiff sch E initialState = .ok store)
    (hdiff : db.diff = store) {canonical : Nat → σ}
    (hcanonical : ∀ slot, sch.slot (canonical slot) = slot) {oldFSlot : Nat} {fRoot : Root} :
    LosesNothing sch E canonical oldFSlot fRoot db ↔
      NothingToSave E store.offset oldFSlot fRoot db := by
  subst hdiff
  have hoffset := (initializeStateDiff_eq hinit).1
  constructor
  · rintro ⟨htree, hhas⟩
    refine ⟨fun fSlot hfSlot slot hold hnew hin => ?_, fun root slot hslot hin => ?_⟩
    · by_contra hne
      have hread := htree fSlot hfSlot slot hold hnew hin hne
      -- The reader only ever returns the snapshot, which is of another slot.
      have hstate := ((stateByDiff_initial hinit (offset_le_of_inTree hin)).mp hread).2
      rw [← hcanonical slot, hstate, ← hoffset] at hne
      exact hne rfl
    · obtain ⟨st, hst⟩ := hhas root (hasState_iff.mpr ⟨slot, hslot, hin⟩)
      have hle := offset_le_of_inTree hin
      simp only [Database.state, Database.slotByBlockRoot, hslot, ok_bind, if_neg hle.not_gt] at hst
      exact ((stateByDiff_initial hinit hle).mp (ok_of_mapError hst)).1
  · rintro ⟨htree, hblocks⟩
    refine ⟨fun fSlot hfSlot slot hold hnew hin hne =>
      absurd (htree fSlot hfSlot slot hold hnew hin) hne, fun root hhas => ?_⟩
    obtain ⟨slot, hslot, hin⟩ := hasState_iff.mp hhas
    have hle := offset_le_of_inTree hin
    have hread := (stateByDiff_initial hinit hle).mpr ⟨hblocks root slot hslot hin, rfl⟩
    refine ⟨initialState, ?_⟩
    simp only [Database.state, Database.slotByBlockRoot, hslot, ok_bind, if_neg hle.not_gt, hread]
    rfl

/-- Whatever happened since the initialisation, a migration loses nothing exactly when it had
nothing to save. -/
theorem migration_meets_iff (hinit : initializeStateDiff sch E initialState = .ok store)
    (hs : s.1.diff = store) {events : List (ChainEvent σ Root)}
    {now : Database σ β δ Root × Generator σ Root}
    (hrun : events.foldlM (chainStep sch E) s = .ok now) {fRoot : Root}
    (hmigrate : migrateToColdHdiff sch E now fRoot = .ok t)
    (canonical : Nat → σ) (hcanonical : ∀ slot, sch.slot (canonical slot) = slot) :
    LosesNothing sch E canonical now.2.finalizedSlot fRoot t.1 ↔
      NothingToSave E store.offset now.2.finalizedSlot fRoot now.1 := by
  obtain ⟨hdiff, hslots⟩ := migrateToColdHdiff_keeps hmigrate
  rw [losesNothing_initial hinit (hdiff.trans ((run_diff hrun).trans hs)) hcanonical]
  constructor
  · rintro ⟨htree, hblocks⟩
    exact ⟨hslots ▸ htree, hslots ▸ hblocks⟩
  · rintro ⟨htree, hblocks⟩
    exact ⟨hslots.symm ▸ htree, hslots.symm ▸ hblocks⟩

end Loss

section Example

/-- Snapshots every 8 slots, diffs every 4. -/
def twoLevels : Exponents where
  values := [3, 2]
  decreasing := by decide
  range := by decide
  two_levels := by decide

/-- A chain from genesis, whose states are their slots. Block roots are numbers, and the root of
a block is its slot. -/
def genesisChain (blocks : List Nat) : Database Nat Nat Nat Nat × Generator Nat Nat :=
  (blocks.foldl (fun db slot => db.saveBlock slot slot)
    { diff := ((initializeStateDiff slotScheme twoLevels 0).toOption).getD (Store.new twoLevels 0)
      stateBucket := fun _ => none
      slots := fun _ => none
      blockSlotIndices := fun _ => []
      genesisBlockRoot := 0 },
   { finalizedSlot := 0
     finalizedRoot := 0
     finalizedState := none
     blockRootsOfSavedStates := []
     getBySlot := fun _ => none
     getByBlockRoot := fun _ => none
     stateByRoot := .ok
     processSlots := fun _ slot => .ok slot })

/-- Blocks at slots 0, 3 and 7. The state of slot 4 is saved under the root of the block at slot 3
and cannot be read: neither by its slot, nor by that root. -/
theorem migration_loses_state :
    ∃ t, migrateToColdHdiff slotScheme twoLevels (genesisChain [0, 3, 7]) 7 = .ok t ∧
      InTree twoLevels 0 4 ∧ t.1.stateBucket 3 = some 4 ∧
      (stateByDiff slotScheme twoLevels t.1.diff 4).toOption = none ∧
      (t.1.state slotScheme twoLevels 3).toOption = none := by
  have hrun : ((migrateToColdHdiff slotScheme twoLevels (genesisChain [0, 3, 7]) 7).toOption.map
      fun t => (t.1.stateBucket 3, (stateByDiff slotScheme twoLevels t.1.diff 4).toOption,
        (t.1.state slotScheme twoLevels 3).toOption)) = some (some 4, none, none) := by
    decide +kernel
  obtain ⟨t, ht, hread⟩ := Option.map_eq_some_iff.mp hrun
  simp only [Prod.mk.injEq] at hread
  exact ⟨t, toOption_eq_some.mp ht, by decide, hread.1, hread.2.1, hread.2.2⟩

/-- Blocks at slots 0 and 3 only: there is nothing to save up to slot 3. -/
theorem migration_meets_short :
    ∃ t, migrateToColdHdiff slotScheme twoLevels (genesisChain [0, 3]) 3 = .ok t ∧
      LosesNothing slotScheme twoLevels id 0 3 t.1 := by
  have hrun : ((migrateToColdHdiff slotScheme twoLevels (genesisChain [0, 3]) 3).toOption.map
      fun t => t.1.stateBucket 3) = some none := by decide +kernel
  obtain ⟨t, ht, -⟩ := Option.map_eq_some_iff.mp hrun
  have hmigrate := toOption_eq_some.mp ht
  refine ⟨t, hmigrate, ?_⟩
  obtain ⟨store, hstore⟩ : ∃ store, initializeStateDiff slotScheme twoLevels 0 = .ok store :=
    ⟨_, rfl⟩
  have hs : (genesisChain [0, 3]).1.diff = store := by
    obtain rfl := Except.ok.inj (hstore.symm.trans rfl)
    rfl
  have hnow : ([] : List (ChainEvent Nat Nat)).foldlM (chainStep slotScheme twoLevels)
      (genesisChain [0, 3]) = .ok (genesisChain [0, 3]) := rfl
  have hoffset : store.offset = 0 := (initializeStateDiff_eq hstore).1
  refine (migration_meets_iff hstore hs hnow hmigrate id fun _ => rfl).mpr ⟨?_, ?_⟩
  · intro fSlot hfSlot slot _ hlt hin
    obtain rfl : 3 = fSlot := Option.some.inj hfSlot
    rw [hoffset] at hin ⊢
    interval_cases slot
    · rfl
    · exact absurd hin (by decide)
    · exact absurd hin (by decide)
  · intro root slot hslot hin
    rw [hoffset] at hin ⊢
    have hblocks : (root = 3 ∧ slot = 3) ∨ (root = 0 ∧ slot = 0) := by
      by_cases h3 : root = 3
      · subst h3
        exact .inl ⟨rfl, (Option.some.inj hslot).symm⟩
      · by_cases h0 : root = 0
        · subst h0
          exact .inr ⟨rfl, (Option.some.inj hslot).symm⟩
        · simp [genesisChain, Database.saveBlock, h3, h0] at hslot
    obtain ⟨rfl, rfl⟩ | ⟨rfl, rfl⟩ := hblocks
    · exact absurd hin (by decide)
    · exact ⟨0, by decide, by decide, by decide⟩

end Example

end LightChain.DiffTree
