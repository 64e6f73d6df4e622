import LightChain.DataColumns.Fetch

/-!
# What a fetch returns

How a root ends depends on the stored columns and on what was received for it in the two phases:
it is stored, assembled, rebuilt or incomplete. The result of a root and the indices that are
reported missing are computed from that, and the promise of the function holds exactly when every
root ends clean. The columns of the indirect phase are not used for an incomplete root, and what
was received is passed on as it came: with columns nobody requested, and with repetitions.
-/
namespace LightChain.DataColumns
open List FetchParams

variable {Root Data Peer : Type}

def indices (cs : List (RODataColumn Root Data)) : List Nat := cs.map RODataColumn.index

inductive Ending (Root Data : Type)
  | stored
  | assembled (received : List (RODataColumn Root Data))
  | rebuilt
  | incomplete (direct received : List (RODataColumn Root Data))

/-- Columns that can be added to the stored ones: requested, not stored and without repetition. -/
def CleanColumns (requested stored : Finset Nat) (cs : List (RODataColumn Root Data)) : Prop :=
  (indices cs).Nodup ∧ ∀ i ∈ indices cs, i ∈ requested ∧ i ∉ stored

instance (requested stored : Finset Nat) (cs : List (RODataColumn Root Data)) :
    Decidable (CleanColumns requested stored cs) := inferInstanceAs (Decidable (_ ∧ _))

def Ending.Clean (requested stored : Finset Nat) : Ending Root Data → Prop
  | .stored => True
  | .assembled received => CleanColumns requested stored received
  | .rebuilt => ∀ i ∈ requested, i < numberOfColumns
  | .incomplete direct received => CleanColumns requested stored direct ∧
      ∀ i ∈ indices received, i ∈ requested → i ∈ stored ∨ i ∈ indices direct

instance (requested stored : Finset Nat) :
    (e : Ending Root Data) → Decidable (e.Clean requested stored)
  | .stored => inferInstanceAs (Decidable True)
  | .assembled _ => inferInstanceAs (Decidable (CleanColumns _ _ _))
  | .rebuilt => inferInstanceAs (Decidable (∀ i ∈ requested, i < numberOfColumns))
  | .incomplete _ _ => inferInstanceAs (Decidable (CleanColumns _ _ _ ∧ _))

section Roots

variable [DecidableEq Root]
  {f : Root → Except (FetchError Root Peer) (Option (List (RODataColumn Root Data)))}

theorem forRoots_spec {roots : List Root} (hnodup : roots.Nodup)
    {result : Root → List (RODataColumn Root Data)} {incomplete : List Root}
    (h : forRoots f roots = .ok (result, incomplete)) (r : Root) :
    (r ∈ roots ∧ f r = .ok (some (result r)) ∧ r ∉ incomplete) ∨
      (r ∈ incomplete ∧ f r = .ok none ∧ result r = []) ∨
      (r ∉ roots ∧ r ∉ incomplete ∧ result r = []) := by
  induction roots generalizing result incomplete with
  | nil =>
    cases h
    exact .inr (.inr ⟨by simp, by simp, rfl⟩)
  | cons q rs ih =>
    obtain ⟨hq, hrs⟩ := nodup_cons.1 hnodup
    rw [forRoots] at h
    split at h
    · cases h
    next found hf =>
    split at h
    · cases h
    next result' incomplete' hrest =>
    have hsub := forRoots_sublist hrest
    have hspec := ih hrs hrest
    by_cases hr : r = q
    · subst hr
      have hout : r ∉ incomplete' := fun hmem => hq (hsub.subset hmem)
      cases found with
      | some cs =>
        cases h
        exact .inl ⟨mem_cons_self, by simpa using hf, hout⟩
      | none =>
        cases h
        refine .inr (.inl ⟨mem_cons_self, hf, ?_⟩)
        rcases hspec with ⟨hmem, -⟩ | ⟨hmem, -⟩ | ⟨-, -, hnil⟩
        · exact absurd hmem hq
        · exact absurd hmem hout
        · exact hnil
    · cases found with
      | some cs =>
        cases h
        rw [Function.update_of_ne hr]
        simpa [hr] using hspec
      | none =>
        cases h
        simpa [hr] using hspec

end Roots

section Store

variable {st : StoredColumns Root Data} {requested : Finset Nat} {root : Root}
  {cs : List (RODataColumn Root Data)}

theorem StoredColumns.mem_stored {i : Nat} :
    i ∈ st.stored root ↔ i < numberOfColumns ∧ (st.columns (root, i)).isSome = true := by
  simp [stored, Columns.hasIndex]

theorem StoredColumns.indices_get
    (h : st.get root (some (sortedSliceFromMap requested)) = (.ok cs : Except (FetchError Root Peer) _)) :
    indices cs = (sortedSliceFromMap requested).filter fun i => i ∈ st.stored root := by
  have hget : st.columns.get root (some (sortedSliceFromMap requested)) = some cs := by
    rw [get] at h
    split at h
    · cases h
    next hcols =>
    split_ifs at h
    cases h
    exact hcols
  rw [Columns.get, Option.getD_some] at hget
  split_ifs at hget with hnone hlarge
  · cases hget
    have hall : ∀ i ∈ (sortedSliceFromMap requested), ¬ st.columns.hasIndex root i = true := by
      simpa using hnone
    refine (filter_eq_nil_iff.2 fun i hi hmem => hall i hi ?_).symm
    simpa [Columns.hasIndex] using mem_stored.1 (of_decide_eq_true hmem)
  · cases hget
    have hsmall : ∀ i ∈ (sortedSliceFromMap requested), i < numberOfColumns := by
      simpa using hlarge
    rw [indices, map_filterMap, ← filterMap_eq_filter]
    refine filterMap_congr fun i hi => ?_
    cases hc : st.columns (root, i) with
    | none => simp [Option.guard, mem_stored, hc]
    | some c =>
      have hindex : c.index = i := congrArg Prod.snd (st.keyed _ c hc)
      simp [Option.guard, mem_stored, hc, hsmall i hi, hindex]

end Store

theorem Recovery.indices_reconstruct [DecidableEq Root] {rec : Recovery Root Data}
    {cs out : List (RODataColumn Root Data)}
    (h : rec.reconstructDataColumnSidecars cs = (.ok out : Except (FetchError Root Peer) _)) :
    indices out = List.range numberOfColumns := by
  rw [reconstructDataColumnSidecars.eq_def] at h
  split at h
  · cases h
  split_ifs at h
  split at h
  · cases h
  · cases h
    simp [indices, Function.comp_def]

namespace FetchParams

variable (p : FetchParams Root Data Peer) (requested : Finset Nat)

def storedIndices (root : Root) : List Nat :=
  (sortedSliceFromMap requested).filter fun i => i ∈ p.storage.stored root

/-- How a root ends that the direct phase does not complete. -/
def lastEnding (direct received : Root → List (RODataColumn Root Data)) (root : Root) :
    Ending Root Data :=
  if !p.isReconstructionNeeded requested received root then .assembled (received root)
  else if p.isReconstructionPossible received root then .rebuilt
  else .incomplete (direct root) (received root)

/-- How a root ends, from what was received for it in the direct phase and in both. -/
def ending (direct received : Root → List (RODataColumn Root Data)) (root : Root) :
    Ending Root Data :=
  if requested ⊆ p.storage.stored root then .stored
  else if !p.isReconstructionNeeded requested direct root then .assembled (direct root)
  else if p.isReconstructionPossible direct root then .rebuilt
  else p.lastEnding requested direct received root

/-- What is returned for a root that ends this way. -/
def Shows (root : Root) (result : List (RODataColumn Root Data)) (missing : Finset Nat) :
    Ending Root Data → Prop
  | .stored => indices result = p.storedIndices requested root ∧ missing = ∅
  | .assembled cs => indices result = p.storedIndices requested root ++ indices cs ∧ missing = ∅
  | .rebuilt => indices result = (List.range numberOfColumns).filter (· ∈ requested) ∧ missing = ∅
  | .incomplete direct _ =>
    indices result = p.storedIndices requested root ++ indices direct ∧
      missing = requested \ (indices result).toFinset

variable {p requested} {roots still : List Root} {root : Root}
  {available result merged : Root → List (RODataColumn Root Data)}

theorem indices_assemble {cs : List (RODataColumn Root Data)}
    (h : p.assembleAvailableSidecarsForRoot requested available root = .ok cs) :
    indices cs = p.storedIndices requested root ++ indices (available root) := by
  rw [assembleAvailableSidecarsForRoot] at h
  split at h
  · cases h
  next stored hget =>
  cases h
  rw [indices, map_append]
  exact congrArg (· ++ _) (StoredColumns.indices_get hget)

theorem lastEnding_congr {direct received received' : Root → List (RODataColumn Root Data)}
    (h : received root = received' root) :
    p.lastEnding requested direct received root = p.lastEnding requested direct received' root := by
  have hidx : availableIndices received root = availableIndices received' root := by
    rw [availableIndices, h, availableIndices]
  unfold lastEnding isReconstructionNeeded isReconstructionPossible
  rw [hidx, h]

variable [DecidableEq Root]

/-- A root is read from the store exactly when all its requested columns are there. -/
theorem fromStorage_spec (hnodup : roots.Nodup)
    (h : p.requestSidecarsFromStorage requested roots = .ok (result, still)) (root : Root) :
    (root ∈ roots ∧ root ∉ still ∧ requested ⊆ p.storage.stored root ∧
        indices (result root) = p.storedIndices requested root) ∨
      (root ∈ still ∧ ¬ requested ⊆ p.storage.stored root ∧ result root = []) ∨
      (root ∉ roots ∧ root ∉ still ∧ result root = []) := by
  rcases forRoots_spec hnodup h root with ⟨hmem, hf, hout⟩ | ⟨hmem, hf, hnil⟩ | hrest
  · split_ifs at hf with hall
    · split at hf
      · cases hf
      next cs hget =>
      have hcs : cs = result root := by simpa using hf
      exact .inl ⟨hmem, hout, hall, hcs ▸ StoredColumns.indices_get hget⟩
    · cases hf
  · split_ifs at hf with hall
    · split at hf <;> cases hf
    · exact .inr (.inl ⟨hmem, hall, hnil⟩)
  · exact .inr (.inr hrest)

/-- A merge completes a root with what is at hand, rebuilds it, or leaves it. -/
theorem merge_spec (hnodup : roots.Nodup)
    (h : p.mergeAvailableSidecars requested available roots = .ok (merged, still))
    (hroot : root ∈ roots) (last : Ending Root Data) :
    (root ∉ still ∧ p.Shows requested root (merged root) ∅
        (if !p.isReconstructionNeeded requested available root then .assembled (available root)
        else if p.isReconstructionPossible available root then .rebuilt else last)) ∨
      (p.isReconstructionNeeded requested available root = true ∧
        p.isReconstructionPossible available root = false ∧ root ∈ still) := by
  rcases forRoots_spec hnodup h root with ⟨-, hf, hout⟩ | ⟨hmem, hf, -⟩ | ⟨hno, -⟩
  · refine .inl ⟨hout, ?_⟩
    split_ifs at hf with hneed hpos
    · split at hf
      · cases hf
      split at hf
      · cases hf
      next out hrebuilt =>
      have heq : out.filter (fun c => c.index ∈ requested) = merged root := by simpa using hf
      rw [hneed, hpos, ← heq]
      refine ⟨?_, rfl⟩
      rw [← Recovery.indices_reconstruct hrebuilt]
      simp [indices, filter_map, Function.comp_def]
    · cases hf
    · split at hf
      · cases hf
      next cs hcs =>
      have heq : cs = merged root := by simpa using hf
      rw [eq_false_of_ne_true hneed, ← heq]
      exact ⟨indices_assemble hcs, rfl⟩
  · split_ifs at hf with hneed hpos
    · split at hf
      · cases hf
      split at hf <;> cases hf
    · exact .inr ⟨hneed, by simpa using hpos, hmem⟩
    · split at hf <;> cases hf
  · exact absurd hroot hno

theorem assemble_spec {direct assembled : Root → List (RODataColumn Root Data)}
    {missing : IndicesByRoot Root} (hnodup : roots.Nodup)
    (h : p.assembleAvailableSidecars requested direct roots = .ok (assembled, missing))
    (root : Root) :
    (root ∈ roots → indices (assembled root) =
        p.storedIndices requested root ++ indices (direct root) ∧
      missing root = requested \ (indices (assembled root)).toFinset) ∧
      (root ∉ roots → missing root = ∅) := by
  rw [assembleAvailableSidecars] at h
  split at h
  · cases h
  next result rest hroots =>
  cases h
  refine ⟨fun hroot => ⟨?_, if_pos hroot⟩, fun hroot => if_neg hroot⟩
  rcases forRoots_spec hnodup hroots root with ⟨-, hf, -⟩ | ⟨-, hf, -⟩ | ⟨hno, -⟩
  · split at hf
    · cases hf
    next cs hcs =>
    have heq : cs = assembled root := by simpa using hf
    exact heq ▸ indices_assemble hcs
  · split at hf <;> cases hf
  · exact absurd hroot hno

theorem finish_spec {direct : Root → List (RODataColumn Root Data)}
    {indirect : Progress Root Data Peer} {f : Fetched Root Data} (hnodup : roots.Nodup)
    (h : p.finish requested roots result direct indirect = .ok f) (root : Root) :
    (root ∈ roots → p.Shows requested root (f.result root) (f.missing root)
        (p.lastEnding requested direct indirect.collected root)) ∧
      (root ∉ roots → f.result root = result root ∧ f.missing root = ∅) := by
  rw [finish] at h
  split at h
  · cases h
  next merged still hmerge =>
  have hsub := forRoots_sublist hmerge
  have hstill := hnodup.sublist hsub
  dsimp only at h
  by_cases hnil : still = []
  · rw [if_pos hnil] at h
    cases h
    refine ⟨fun hroot => ?_, fun hroot => ⟨if_neg hroot, rfl⟩⟩
    dsimp only
    rw [copyRoots, if_pos hroot, lastEnding]
    rcases merge_spec hnodup hmerge hroot _ with ⟨-, hshows⟩ | ⟨-, -, hmem⟩
    · exact hshows
    · simp [hnil] at hmem
  · rw [if_neg hnil] at h
    split at h
    · cases h
    next assembled missing hasm =>
    cases h
    obtain ⟨hin, hout⟩ := assemble_spec hstill hasm root
    refine ⟨fun hroot => ?_, fun hroot => ?_⟩
    · dsimp only
      rw [lastEnding]
      rcases merge_spec hnodup hmerge hroot _ with ⟨hno, hshows⟩ | ⟨hneed, hpos, hmem⟩
      · rw [copyRoots, if_neg hno, copyRoots, if_pos hroot, hout hno]
        exact hshows
      · rw [copyRoots, if_pos hmem]
        simpa [hneed, hpos, Shows] using hin hmem
    · have hno : root ∉ still := fun hmem => hroot (hsub.subset hmem)
      exact ⟨by simp [copyRoots, hno, hroot], hout hno⟩

variable [DecidableEq Peer] {blocks : Blocks Root} {direct : Progress Root Data Peer}

theorem received_indirect
    (hdirect : ∀ root, direct.collected root = direct.rounds.flatMap fun round => round.added root)
    (hroot : root ∈ still) :
    (p.requestIndirectSidecarsFromPeers requested blocks still direct).2.collected root =
      (p.requestIndirectSidecarsFromPeers requested blocks still direct).2.rounds.flatMap
        fun round => round.added root := by
  obtain ⟨new, hnew⟩ := (p.startIndirect still direct).request_continues p.net blocks
    (p.settleIndirect requested)
  have hstart : (p.startIndirect still direct).collected root = direct.collected root :=
    if_pos hroot
  rw [requestIndirectSidecarsFromPeers, hnew.rounds, hnew.collected, hstart, hdirect,
    ← flatMap_append]
  rfl

theorem received_direct {incomplete : List Root} (root : Root) :
    (p.requestDirectSidecarsFromPeers requested blocks incomplete).2.collected root =
      (p.requestDirectSidecarsFromPeers requested blocks incomplete).2.rounds.flatMap
        fun round => round.added root := by
  obtain ⟨new, hnew⟩ := (p.startDirect requested incomplete).request_continues p.net blocks
    fun _ wanted => wanted
  rw [requestDirectSidecarsFromPeers, hnew.rounds, hnew.collected]
  rfl

theorem continueIndirect_spec {f : Fetched Root Data} (hnodup : roots.Nodup)
    (hdirect : ∀ root, direct.collected root = direct.rounds.flatMap fun round => round.added root)
    (h : (p.continueIndirect requested blocks roots result direct).1 = .ok f) (root : Root) :
    (root ∈ roots → ¬ requested ⊆ p.storage.stored root →
      p.Shows requested root (f.result root) (f.missing root)
        (p.ending requested (p.continueIndirect requested blocks roots result direct).2.direct
          (p.continueIndirect requested blocks roots result direct).2.received root)) ∧
      (root ∉ roots → f.result root = result root ∧ f.missing root = ∅) := by
  rw [continueIndirect] at h ⊢
  cases hmerge : p.mergeAvailableSidecars requested direct.collected roots with
  | error e =>
    rw [hmerge] at h
    cases h
  | ok res =>
    obtain ⟨merged, still⟩ := res
    rw [hmerge] at h
    have hsub := forRoots_sublist hmerge
    have hstill := hnodup.sublist hsub
    dsimp only at h ⊢
    by_cases hnil : still = []
    · rw [if_pos hnil] at h ⊢
      cases h
      refine ⟨fun hroot hall => ?_, fun hroot => ⟨if_neg hroot, rfl⟩⟩
      dsimp only
      rw [copyRoots, if_pos hroot, ending, if_neg hall]
      rcases merge_spec hnodup hmerge hroot _ with ⟨-, hshows⟩ | ⟨-, -, hmem⟩
      · exact hshows
      · simp [hnil] at hmem
    · rw [if_neg hnil] at h ⊢
      split at h
      · cases h
      next hind =>
      obtain ⟨hin, hout⟩ := finish_spec hstill h root
      refine ⟨fun hroot hall => ?_, fun hroot => ?_⟩
      · rw [ending, if_neg hall]
        dsimp only
        rcases merge_spec hnodup hmerge hroot _ with ⟨hno, hshows⟩ | ⟨hneed, hpos, hmem⟩
        · obtain ⟨hres, hmiss⟩ := hout hno
          rw [hres, hmiss, copyRoots, if_pos hroot]
          exact hshows
        · set indirect := (p.requestIndirectSidecarsFromPeers requested blocks still direct).2
          have hreceived : indirect.collected root = FetchLog.received
              ⟨direct.collected, indirect.searches, indirect.rounds⟩ root :=
            received_indirect hdirect hmem
          have hlast := hin hmem
          rw [lastEnding_congr hreceived] at hlast
          simpa [hneed, hpos] using hlast
      · have hno : root ∉ still := fun hmem => hroot (hsub.subset hmem)
        obtain ⟨hres, hmiss⟩ := hout hno
        rw [copyRoots, if_neg hroot] at hres
        exact ⟨hres, hmiss⟩

end FetchParams

def Committed (roBlocks : List (ROBlock Root)) (root : Root) : Prop :=
  ∃ b ∈ roBlocks, b.root = root ∧ ∃ n, b.commitments = some (n + 1)

variable {roBlocks bs : List (ROBlock Root)}

section

variable (h : readBlocks roBlocks = (.ok bs : Except (FetchError Root Peer) _))

include h

theorem mem_readBlocks {b : ROBlock Root} :
    b ∈ bs ↔ b ∈ roBlocks ∧ ∃ n, b.commitments = some (n + 1) := by
  induction roBlocks generalizing bs with
  | nil =>
    cases h
    simp
  | cons b' roBlocks ih =>
    rw [readBlocks] at h
    split at h
    · cases h
    next n hn =>
    split at h
    · cases h
    next rest hrest =>
    cases h
    have hb' := ih hrest
    rcases n with - | n
    · rw [if_pos rfl, hb', mem_cons]
      grind
    · rw [if_neg (by omega), mem_cons, mem_cons, hb']
      grind

theorem mem_roots [DecidableEq Root] {root : Root} :
    root ∈ (Blocks.of bs).roots ↔ Committed roBlocks root := by
  simp only [Blocks.of, mem_dedup, mem_map, Committed]
  constructor
  · rintro ⟨b, hb, rfl⟩
    obtain ⟨hmem, hn⟩ := (mem_readBlocks h).1 hb
    exact ⟨b, hmem, rfl, hn⟩
  · rintro ⟨b, hb, rfl, hn⟩
    exact ⟨b, (mem_readBlocks h).2 ⟨hb, hn⟩, rfl⟩

end

namespace FetchParams

variable [DecidableEq Root] [DecidableEq Peer] {p : FetchParams Root Data Peer}
  {requested : Finset Nat}

theorem fetch_spec {roBlocks : List (ROBlock Root)} {f : Fetched Root Data}
    (h : (p.fetchDataColumnSidecars requested roBlocks).1 = .ok f) (root : Root) :
    (Committed roBlocks root → p.Shows requested root (f.result root) (f.missing root)
        (p.ending requested (p.fetchDataColumnSidecars requested roBlocks).2.direct
          (p.fetchDataColumnSidecars requested roBlocks).2.received root)) ∧
      (¬ Committed roBlocks root → f.result root = [] ∧ f.missing root = ∅) := by
  rw [fetchDataColumnSidecars] at h ⊢
  dsimp only at h ⊢
  by_cases hempty : roBlocks = [] ∨ requested = ∅
  · rw [if_pos hempty] at h ⊢
    cases h
    refine ⟨fun ⟨b, hb, _⟩ => ?_, fun _ => ⟨rfl, rfl⟩⟩
    rcases hempty with rfl | rfl
    · cases hb
    · simp [ending, Shows, storedIndices, indices]
  rw [if_neg hempty] at h ⊢
  cases hread : (readBlocks roBlocks : Except (FetchError Root Peer) _) with
  | error e =>
    rw [hread] at h
    cases h
  | ok bs =>
    rw [hread] at h
    dsimp only at h ⊢
    have hroots : ∀ root, root ∈ (Blocks.of bs).roots ↔ Committed roBlocks root :=
      fun root => mem_roots hread
    have hnodup : (Blocks.of bs).roots.Nodup := nodup_dedup _
    cases hstore : p.requestSidecarsFromStorage requested (Blocks.of bs).roots with
    | error e =>
      rw [hstore] at h
      cases h
    | ok res =>
      obtain ⟨result, incomplete⟩ := res
      rw [hstore] at h
      dsimp only at h ⊢
      have hinc : incomplete.Nodup := hnodup.sublist (forRoots_sublist hstore)
      have hcases := fromStorage_spec hnodup hstore root
      rw [hroots] at hcases
      by_cases hnil : incomplete = []
      · rw [if_pos hnil] at h ⊢
        cases h
        rcases hcases with ⟨hc, -, hall, hidx⟩ | ⟨hmem, -⟩ | ⟨hc, -, hres⟩
        · refine ⟨fun _ => ?_, fun hno => absurd hc hno⟩
          rw [ending, if_pos hall]
          exact ⟨hidx, rfl⟩
        · simp [hnil] at hmem
        · exact ⟨fun h => absurd h hc, fun _ => ⟨hres, rfl⟩⟩
      · rw [if_neg hnil] at h ⊢
        split at h
        · cases h
        next hdirect =>
        obtain ⟨hin, hout⟩ := continueIndirect_spec hinc received_direct h root
        rcases hcases with ⟨hc, hno, hall, hidx⟩ | ⟨hmem, hall, hres⟩ | ⟨hc, hno, hres⟩
        · obtain ⟨hr, hm⟩ := hout hno
          refine ⟨fun _ => ?_, fun h => absurd hc h⟩
          rw [ending, if_pos hall]
          exact ⟨by rw [hr]; exact hidx, hm⟩
        · have hc : Committed roBlocks root :=
            (hroots root).1 ((forRoots_sublist hstore).subset hmem)
          exact ⟨fun _ => hin hmem hall, fun h => absurd hc h⟩
        · obtain ⟨hr, hm⟩ := hout hno
          exact ⟨fun h => absurd h hc, fun _ => ⟨hr.trans hres, hm⟩⟩

end FetchParams

section Right

variable {requested stored : Finset Nat} {cs : List (RODataColumn Root Data)}

/-- What is promised of one root: every requested index is returned exactly once or reported
missing, nothing else is returned, and an index is missing only when it is not at hand and the
root cannot be reconstructed. -/
structure RootRight (requested stored : Finset Nat)
    (received result : List (RODataColumn Root Data)) (missing : Finset Nat) : Prop where
  each : ∀ i ∈ requested, Xor ((indices result).count i = 1) (i ∈ missing)
  only : ∀ i ∈ indices result, i ∈ requested
  absent : ∀ i ∈ missing, i ∉ stored ∧ i ∉ indices received ∧
    (stored ∪ (indices received).toFinset).card < minimumColumnCountToReconstruct

theorem count_storedIndices (p : FetchParams Root Data Peer) (root : Root) {i : Nat}
    (hi : i ∈ requested) (ids : List Nat) :
    (p.storedIndices requested root ++ ids).count i =
      (if i ∈ p.storage.stored root then 1 else 0) + ids.count i := by
  have hsort : (sortedSliceFromMap requested).count i = 1 :=
    count_eq_one_of_mem (List.nodup_range.filter _) (mem_sortedSliceFromMap.2 hi)
  rw [count_append, storedIndices]
  congr 1
  split_ifs with hs
  · rw [count_filter (by simpa using hs), hsort]
  · exact count_eq_zero_of_not_mem fun hmem => hs (by simpa using of_mem_filter hmem)

theorem mem_storedIndices {p : FetchParams Root Data Peer} {root : Root} {i : Nat} :
    i ∈ p.storedIndices requested root ↔ i ∈ requested ∧ i ∈ p.storage.stored root := by
  simp [storedIndices]

theorem cleanColumns_iff :
    CleanColumns requested stored cs ↔
      (∀ i ∈ indices cs, i ∈ requested) ∧
        ∀ i ∈ requested, (if i ∈ stored then 1 else 0) + (indices cs).count i ≤ 1 := by
  constructor
  · rintro ⟨hnodup, hall⟩
    refine ⟨fun i hi => (hall i hi).1, fun i _ => ?_⟩
    have hle := nodup_iff_count_le_one.1 hnodup i
    split_ifs with hs
    · have hzero : (indices cs).count i = 0 :=
        count_eq_zero_of_not_mem fun hmem => (hall i hmem).2 hs
      omega
    · omega
  · rintro ⟨hreq, hcount⟩
    refine ⟨nodup_iff_count_le_one.2 fun i => ?_, fun i hi => ⟨hreq i hi, fun hs => ?_⟩⟩
    · by_cases hi : i ∈ indices cs
      · exact (Nat.le_add_left _ _).trans (hcount i (hreq i hi))
      · simp [count_eq_zero_of_not_mem hi]
    · have hpos := count_pos_iff.2 hi
      have hle := hcount i (hreq i hi)
      rw [if_pos hs] at hle
      omega

variable {p : FetchParams Root Data Peer} {root : Root}
  {result received : List (RODataColumn Root Data)} {missing : Finset Nat}

/-- A rebuilt root is right when every requested index is the index of a column. -/
theorem rebuilt_right_iff
    (hres : indices result = (List.range numberOfColumns).filter (· ∈ requested))
    (hmiss : missing = ∅) :
    RootRight requested stored received result missing ↔ ∀ i ∈ requested, i < numberOfColumns := by
  subst hmiss
  constructor
  · rintro ⟨heach, -, -⟩ i hi
    have hone : (indices result).count i = 1 := by simpa [Xor] using heach i hi
    have hmem : i ∈ indices result := count_pos_iff.1 (by omega)
    rw [hres] at hmem
    exact mem_range.1 (mem_of_mem_filter hmem)
  · intro hsmall
    refine ⟨fun i hi => ?_, fun i hi => ?_, by simp⟩
    · have hone : (indices result).count i = 1 := by
        rw [hres, count_filter (by simpa using hi)]
        exact count_eq_one_of_mem nodup_range (mem_range.2 (hsmall i hi))
      simp [Xor, hone]
    · rw [hres] at hi
      simpa using of_mem_filter hi

/-- An incomplete root is right when the columns of the direct phase are clean and the indirect
phase brought no other requested one. -/
theorem incomplete_right_iff
    (hfew : ∀ i ∈ missing, (p.storage.stored root ∪ (indices received).toFinset).card <
      minimumColumnCountToReconstruct)
    (hres : indices result = p.storedIndices requested root ++ indices cs)
    (hmiss : missing = requested \ (indices result).toFinset) :
    RootRight requested (p.storage.stored root) received result missing ↔
      CleanColumns requested (p.storage.stored root) cs ∧
        ∀ i ∈ indices received, i ∈ requested → i ∈ p.storage.stored root ∨ i ∈ indices cs := by
  have hmissing : ∀ i, i ∈ missing ↔
      i ∈ requested ∧ i ∉ p.storage.stored root ∧ i ∉ indices cs := by
    intro i
    rw [hmiss, hres]
    simp only [Finset.mem_sdiff, mem_toFinset, mem_append, mem_storedIndices]
    tauto
  have hxor : ∀ i ∈ requested, Xor ((indices result).count i = 1) (i ∈ missing) ↔
      (if i ∈ p.storage.stored root then 1 else 0) + (indices cs).count i ≤ 1 := by
    intro i hi
    have hzero : i ∈ missing ↔ (indices result).count i = 0 := by
      rw [hmiss, List.count_eq_zero]
      simp [hi]
    rw [hzero, ← count_storedIndices p root hi, ← hres]
    simp only [Xor]
    omega
  rw [cleanColumns_iff]
  constructor
  · rintro ⟨heach, honly, habsent⟩
    refine ⟨⟨fun i hi => honly i (by rw [hres]; exact mem_append_right _ hi),
      fun i hi => (hxor i hi).1 (heach i hi)⟩, fun i hi hreq => ?_⟩
    by_contra hno
    push Not at hno
    exact (habsent i ((hmissing i).2 ⟨hreq, hno⟩)).2.1 hi
  · rintro ⟨⟨hreq, hcount⟩, hused⟩
    refine ⟨fun i hi => (hxor i hi).2 (hcount i hi), fun i hi => ?_, fun i hi => ?_⟩
    · rw [hres, mem_append, mem_storedIndices] at hi
      exact hi.elim And.left (hreq i)
    · obtain ⟨hneeded, hs, hcs⟩ := (hmissing i).1 hi
      exact ⟨hs, fun hmem => (hused i hmem hneeded).elim hs hcs, hfew i hi⟩

/-- A root that was assembled is right when the received columns are clean. -/
theorem assembled_right_iff
    (hfull : ∀ i ∈ requested, i ∈ p.storage.stored root ∨ i ∈ indices cs)
    (hres : indices result = p.storedIndices requested root ++ indices cs) (hmiss : missing = ∅) :
    RootRight requested (p.storage.stored root) received result missing ↔
      CleanColumns requested (p.storage.stored root) cs := by
  have hnone : missing = requested \ (indices result).toFinset := by
    rw [hmiss, eq_comm, Finset.sdiff_eq_empty_iff_subset]
    intro i hi
    rw [hres, mem_toFinset, mem_append, mem_storedIndices]
    exact (hfull i hi).imp_left (⟨hi, ·⟩)
  rw [incomplete_right_iff (by simp [hmiss]) hres hnone, and_iff_left fun i _ hi => hfull i hi]

end Right

section Theorem

variable {p : FetchParams Root Data Peer} {requested : Finset Nat}

theorem rootRight_iff {direct received : Root → List (RODataColumn Root Data)} {root : Root}
    {result : List (RODataColumn Root Data)} {missing : Finset Nat}
    (hshows : p.Shows requested root result missing (p.ending requested direct received root)) :
    RootRight requested (p.storage.stored root) (received root) result missing ↔
      (p.ending requested direct received root).Clean requested (p.storage.stored root) := by
  have hfull : ∀ {available : Root → List (RODataColumn Root Data)},
      p.isReconstructionNeeded requested available root = false →
        ∀ i ∈ requested, i ∈ p.storage.stored root ∨ i ∈ indices (available root) := by
    intro available hneed i hi
    have hsub : requested ⊆ p.storage.stored root ∪ availableIndices available root := by
      simpa [isReconstructionNeeded] using hneed
    simpa [availableIndices, indices] using hsub hi
  rw [ending] at hshows ⊢
  split_ifs at hshows ⊢ with hstored hneed hpos
  · have hres : indices result =
        p.storedIndices requested root ++ indices ([] : List (RODataColumn Root Data)) := by
      simpa [indices] using hshows.1
    rw [assembled_right_iff (fun i hi => .inl (hstored hi)) hres hshows.2]
    simp [Ending.Clean, CleanColumns, indices]
  · exact assembled_right_iff (hfull (by simpa using hneed)) hshows.1 hshows.2
  · exact rebuilt_right_iff hshows.1 hshows.2
  · rw [lastEnding] at hshows ⊢
    split_ifs at hshows ⊢ with hneed' hpos'
    · exact assembled_right_iff (hfull (by simpa using hneed')) hshows.1 hshows.2
    · exact rebuilt_right_iff hshows.1 hshows.2
    · refine incomplete_right_iff ?_ hshows.1 hshows.2
      have hsum : (p.storage.stored root).card + (indices (received root)).toFinset.card <
          minimumColumnCountToReconstruct := by
        simpa [isReconstructionPossible, availableIndices, indices]
          using hpos'
      exact fun _ _ => (Finset.card_union_le _ _).trans_lt hsum

variable [DecidableEq Root] [DecidableEq Peer]

/-- What a fetch promises: each requested index of a block with commitments is returned exactly
once or reported missing; no other root and no other index is returned; and an index is missing
only when it was neither stored nor received and the root cannot be reconstructed. -/
structure FetchRight (p : FetchParams Root Data Peer) (requested : Finset Nat)
    (roBlocks : List (ROBlock Root)) (log : FetchLog Root Data Peer) (f : Fetched Root Data) :
    Prop where
  each : ∀ b ∈ roBlocks, (∃ n, b.commitments = some (n + 1)) → ∀ i ∈ requested,
    Xor ((indices (f.result b.root)).count i = 1) (i ∈ f.missing b.root)
  roots : ∀ root, f.result root ≠ [] → ∃ b ∈ roBlocks, b.root = root
  only : ∀ root, ∀ c ∈ f.result root, c.index ∈ requested
  absent : ∀ root, ∀ i ∈ f.missing root,
    i ∉ p.storage.stored root ∧ i ∉ indices (log.received root) ∧
      (p.storage.stored root ∪ (indices (log.received root)).toFinset).card <
        minimumColumnCountToReconstruct

/-- A fetch that succeeds keeps its promise exactly when every root with commitments ends clean. -/
theorem fetch_right_iff (p : FetchParams Root Data Peer) (requested : Finset Nat)
    (roBlocks : List (ROBlock Root)) (f : Fetched Root Data)
    (h : (p.fetchDataColumnSidecars requested roBlocks).1 = .ok f) :
    FetchRight p requested roBlocks (p.fetchDataColumnSidecars requested roBlocks).2 f ↔
      ∀ b ∈ roBlocks, (∃ n, b.commitments = some (n + 1)) →
        (p.ending requested (p.fetchDataColumnSidecars requested roBlocks).2.direct
          (p.fetchDataColumnSidecars requested roBlocks).2.received b.root).Clean requested
            (p.storage.stored b.root) := by
  have hspec := fetch_spec h
  set log := (p.fetchDataColumnSidecars requested roBlocks).2
  constructor
  · rintro ⟨heach, -, honly, habsent⟩ b hb hn
    refine (rootRight_iff ((hspec b.root).1 ⟨b, hb, rfl, hn⟩)).1
      ⟨heach b hb hn, fun i hi => ?_, habsent b.root⟩
    obtain ⟨c, hc, rfl⟩ := mem_map.1 hi
    exact honly b.root c hc
  · intro hclean
    have hright : ∀ root, Committed roBlocks root → RootRight requested (p.storage.stored root)
        (log.received root) (f.result root) (f.missing root) := by
      rintro root ⟨b, hb, rfl, hn⟩
      exact (rootRight_iff ((hspec b.root).1 ⟨b, hb, rfl, hn⟩)).2 (hclean b hb hn)
    refine ⟨fun b hb hn => (hright b.root ⟨b, hb, rfl, hn⟩).each, fun root hne => ?_,
      fun root c hc => ?_, fun root i hi => ?_⟩
    · by_contra hno
      refine hne ((hspec root).2 fun hc => hno ?_).1
      obtain ⟨b, hb, hroot, -⟩ := hc
      exact ⟨b, hb, hroot⟩
    · by_cases hcom : Committed roBlocks root
      · exact (hright root hcom).only _ (mem_map_of_mem hc)
      · rw [((hspec root).2 hcom).1] at hc
        cases hc
    · by_cases hcom : Committed roBlocks root
      · exact (hright root hcom).absent i hi
      · rw [((hspec root).2 hcom).2] at hi
        cases hi

/-- An empty store and one peer, with custody of two columns, that sends the given answers. -/
private def onePeer (answers : Nat → Option (List (Option (RODataColumn Nat Nat)))) :
    FetchParams Nat Nat Nat where
  net :=
    { slotsPerEpoch := 32
      maxRequestDataColumnSidecars := 16384
      verifier := ⟨fun _ => true, fun _ => true, fun _ => true⟩
      connected := fun _ => [9]
      info := fun _ _ => ⟨true, some {0, 1}, some 10⟩
      randomPeer := fun _ _ ps => ps.head?
      randomPeer_mem := fun _ _ _ _ h => mem_of_head? h
      answer := fun t _ _ => answers t }
  storage := .empty
  recovery := ⟨fun _ => 0, fun _ => none⟩

private def blockFive : List (ROBlock Nat) := [⟨5, 1, some 1⟩]

private theorem ok_of_check (p : FetchParams Nat Nat Nat) (requested : Finset Nat)
    (check : Fetched Nat Nat → Bool)
    (h : (match (p.fetchDataColumnSidecars requested blockFive).1 with
      | .ok f => check f
      | .error _ => false) = true) :
    ∃ f, (p.fetchDataColumnSidecars requested blockFive).1 = .ok f ∧ check f = true := by
  split at h
  next f hf => exact ⟨f, hf, h⟩
  · cases h

/-- The peer sends both columns. -/
private def prompt : FetchParams Nat Nat Nat :=
  onePeer fun _ => some [some ⟨5, 1, 0, 0⟩, some ⟨5, 1, 1, 0⟩]

theorem fetch_right_two : ∃ f, (prompt.fetchDataColumnSidecars {0, 1} blockFive).1 = .ok f ∧
    FetchRight prompt {0, 1} blockFive (prompt.fetchDataColumnSidecars {0, 1} blockFive).2 f := by
  obtain ⟨f, hf, -⟩ := ok_of_check prompt {0, 1} (fun _ => true) (by decide +kernel)
  refine ⟨f, hf, (fetch_right_iff _ _ _ f hf).2 fun b hb _ => ?_⟩
  cases mem_singleton.1 hb
  decide +kernel

/-- The peer does not answer in the direct phase, and sends one column in the indirect phase. -/
private def late : FetchParams Nat Nat Nat :=
  onePeer fun t => if t = 3 then some [some ⟨5, 1, 0, 0⟩] else none

/-- A requested column that arrives in the indirect phase is reported missing. -/
theorem indirect_column_missing : ∃ f,
    (late.fetchDataColumnSidecars {0, 1} blockFive).1 = .ok f ∧
    ¬ FetchRight late {0, 1} blockFive (late.fetchDataColumnSidecars {0, 1} blockFive).2 f := by
  obtain ⟨f, hf, hmissing⟩ := ok_of_check late {0, 1} (fun f => decide (0 ∈ f.missing 1))
    (by decide +kernel)
  refine ⟨f, hf, fun hright => (hright.absent 1 0 (of_decide_eq_true hmissing)).2.1 ?_⟩
  decide +kernel

end Theorem

end LightChain.DataColumns
