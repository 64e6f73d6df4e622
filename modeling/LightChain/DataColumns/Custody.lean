import LightChain.DataColumns.ColumnStore
import LightChain.Library.LittleEndian

/-!
# Custody groups

A node keeps the columns of some custody groups. The groups are drawn by hashing the id of the
node and its successors until there are enough of them, so that a larger count only adds groups.
The map of the groups that are drawn already has the entries of their list.
-/
namespace LightChain.DataColumns
open Library List Nat

inductive CustodyError where
  | custodyGroupTooLarge
  | custodyGroupCountTooLarge
  | wrongComputedCustodyGroupCount
  | indexTooLarge
  | wrap (message : String) (e : CustodyError)
deriving DecidableEq, Repr

def CustodyError.message : CustodyError → String
  | .custodyGroupTooLarge => "custody group too large"
  | .custodyGroupCountTooLarge => "custody group count too large"
  | .wrongComputedCustodyGroupCount =>
    "wrong computed custody group count, should never happen"
  | .indexTooLarge => "column index is larger than the specified columns count"
  | .wrap message e => message ++ ": " ++ e.message

variable (hash : List Byte → List Byte) (numberOfCustodyGroups : Nat)

def custodyGroupOf (currentId : Nat) : Nat :=
  ofLE ((hash (toLE 32 currentId)).take 8) % numberOfCustodyGroups

def incrementId (currentId : Nat) : Nat := if currentId = 2 ^ 256 - 1 then 0 else currentId + 1

def addGroup (custodyGroups : List Nat) (custodyGroup : Nat) : List Nat :=
  if custodyGroup ∈ custodyGroups then custodyGroups else custodyGroups ++ [custodyGroup]

/-- The loop of `CustodyGroups`, or `none` if it takes more rounds than `fuel`. -/
def drawGroups (custodyGroupCount : Nat) : Nat → Nat → List Nat → Option (List Nat)
  | fuel, currentId, custodyGroups =>
    if custodyGroups.length < custodyGroupCount then
      match fuel with
      | 0 => none
      | fuel + 1 =>
        drawGroups custodyGroupCount fuel (incrementId currentId)
          (addGroup custodyGroups (custodyGroupOf hash numberOfCustodyGroups currentId))
    else some custodyGroups

def custodyGroups (fuel nodeId custodyGroupCount : Nat) :
    Option (Except CustodyError (List Nat)) :=
  if custodyGroupCount > numberOfCustodyGroups then some (.error .custodyGroupCountTooLarge)
  else if custodyGroupCount = numberOfCustodyGroups then
    some (.ok (List.range numberOfCustodyGroups))
  else
    (drawGroups hash numberOfCustodyGroups custodyGroupCount fuel nodeId []).map fun groups =>
      if groups.length ≠ custodyGroupCount then .error .wrongComputedCustodyGroupCount
      else .ok (groups.insertionSort (· ≤ ·))

def computeColumnsForCustodyGroup (custodyGroup : Nat) : Except CustodyError (List Nat) :=
  if custodyGroup ≥ numberOfCustodyGroups then .error .custodyGroupTooLarge
  else
    .ok ((List.range (numberOfColumns / numberOfCustodyGroups)).map fun i =>
      numberOfCustodyGroups * i + custodyGroup)

def computeCustodyGroupForColumn (columnIndex : Nat) : Except CustodyError Nat :=
  if columnIndex ≥ numberOfColumns then .error .indexTooLarge
  else .ok (columnIndex % numberOfCustodyGroups)

def custodyColumns (custodyGroups : List Nat) : Except CustodyError (Finset Nat) :=
  custodyGroups.foldlM (fun columns group =>
    if group ≥ numberOfCustodyGroups then .error .custodyGroupTooLarge
    else
      match computeColumnsForCustodyGroup numberOfCustodyGroups group with
      | .error e => .error (.wrap "compute columns for custody group" e)
      | .ok groupColumns => .ok (columns ∪ groupColumns.toFinset)) ∅

variable {hash numberOfCustodyGroups} {n fuel id k : Nat} {groups result : List Nat}

/-- The groups drawn so far are different and in range. -/
structure Drawn (n k : Nat) (groups : List Nat) : Prop where
  nodup : groups.Nodup
  lt : ∀ g ∈ groups, g < n
  le : groups.length ≤ k

theorem Drawn.addGroup (h : Drawn n k groups) (hlt : groups.length < k) {g : Nat} (hg : g < n) :
    groups <+: addGroup groups g ∧ Drawn n k (addGroup groups g) := by
  unfold DataColumns.addGroup
  split_ifs with hmem
  · exact ⟨prefix_rfl, h⟩
  · have := h.lt
    exact ⟨prefix_append _ _, by simpa using h.nodup.concat hmem, by grind, by simpa using hlt⟩

theorem drawGroups_spec (hn : 0 < n) (h : Drawn n k groups)
    (hrun : drawGroups hash n k fuel id groups = some result) :
    groups <+: result ∧ Drawn n k result ∧ result.length = k := by
  fun_induction drawGroups hash n k fuel id groups with
  | case1 => cases hrun
  | case2 id groups hlt fuel ih =>
    obtain ⟨hadd, hdrawn⟩ := h.addGroup hlt (mod_lt _ hn)
    obtain ⟨hresult, hspec⟩ := ih hdrawn hrun
    exact ⟨hadd.trans hresult, hspec⟩
  | case3 fuel id groups hlt =>
    cases hrun
    exact ⟨prefix_rfl, h, by have := h.le; omega⟩

/-- A run for more groups first draws those of a run for fewer. -/
theorem drawGroups_initial {k' fuel' : Nat} {result' : List Nat} (hk : k ≤ k') (hn : 0 < n)
    (h : Drawn n k groups) (hrun : drawGroups hash n k fuel id groups = some result)
    (hrun' : drawGroups hash n k' fuel' id groups = some result') : result <+: result' := by
  fun_induction drawGroups hash n k fuel id groups generalizing fuel' with
  | case1 => cases hrun
  | case2 id groups hlt fuel ih =>
    unfold drawGroups at hrun'
    rw [if_pos (hlt.trans_le hk)] at hrun'
    cases fuel' with
    | zero => cases hrun'
    | succ fuel' => exact ih (h.addGroup hlt (mod_lt _ hn)).2 hrun hrun'
  | case3 fuel id groups hlt =>
    cases hrun
    exact (drawGroups_spec hn ⟨h.nodup, h.lt, h.le.trans hk⟩ hrun').1

theorem custodyGroups_spec {r : Except CustodyError (List Nat)} (hk : k ≤ n)
    (hrun : custodyGroups hash n fuel id k = some r) :
    ∃ gs, r = .ok gs ∧ gs.Pairwise (· < ·) ∧ gs.length = k ∧ (∀ g ∈ gs, g < n) ∧
      (k = n ∧ gs = List.range n ∨
        k < n ∧ ∃ drawn, drawGroups hash n k fuel id [] = some drawn ∧ gs.Perm drawn) := by
  unfold custodyGroups at hrun
  rw [if_neg (by omega)] at hrun
  split_ifs at hrun with heq
  · cases hrun
    exact ⟨_, rfl, pairwise_lt_range, by simp [heq], by simp, .inl ⟨heq, rfl⟩⟩
  · obtain ⟨drawn, hdraw, rfl⟩ := Option.map_eq_some_iff.1 hrun
    obtain ⟨-, hdrawn, hlen⟩ := drawGroups_spec (by omega) ⟨nodup_nil, by simp, by simp⟩ hdraw
    have hperm := perm_insertionSort (· ≤ ·) drawn
    rw [if_neg (by simpa using hlen)]
    refine ⟨_, rfl, ?_, by rw [hperm.length_eq, hlen], fun g hg => hdrawn.lt g (hperm.mem_iff.1 hg),
      .inr ⟨by omega, drawn, hdraw, hperm⟩⟩
    exact ((pairwise_insertionSort (· ≤ ·) drawn).and (hperm.nodup_iff.2 hdrawn.nodup)).imp
      fun h => lt_of_le_of_ne h.1 h.2

theorem computeColumnsForCustodyGroup_spec (hn : n ∣ numberOfColumns) {g : Nat} (hg : g < n) :
    ∃ cols, computeColumnsForCustodyGroup n g = .ok cols ∧
      ∀ c, c ∈ cols ↔ c < numberOfColumns ∧ c % n = g := by
  obtain ⟨m, hm⟩ := hn
  refine ⟨_, if_neg (by omega), fun c => ?_⟩
  rw [hm, Nat.mul_div_cancel_left m (by omega)]
  simp only [mem_map, mem_range]
  constructor
  · rintro ⟨i, hi, rfl⟩
    refine ⟨?_, by rw [mul_add_mod, mod_eq_of_lt hg]⟩
    calc n * i + g < n * (i + 1) := by rw [mul_succ]; omega
      _ ≤ n * m := Nat.mul_le_mul_left n hi
  · rintro ⟨hc, rfl⟩
    exact ⟨c / n, Nat.div_lt_of_lt_mul hc, div_add_mod c n⟩

theorem custodyColumns_spec (hn : n ∣ numberOfColumns) {gs : List Nat} (h : ∀ g ∈ gs, g < n) :
    ∃ cols, custodyColumns n gs = .ok cols ∧
      ∀ c, c ∈ cols ↔ c < numberOfColumns ∧ c % n ∈ gs := by
  induction gs using List.reverseRecOn with
  | nil => exact ⟨∅, rfl, by simp⟩
  | append_singleton gs g ih =>
    obtain ⟨cols, hcols, hmem⟩ := ih fun g hg => h g (by simp [hg])
    have hg := h g (by simp)
    obtain ⟨new, hnew, hmem'⟩ := computeColumnsForCustodyGroup_spec hn hg
    refine ⟨cols ∪ new.toFinset, ?_, fun c => ?_⟩
    · unfold custodyColumns at hcols ⊢
      rw [foldlM_append, hcols]
      simp only [foldlM_cons, foldlM_nil, hnew, if_neg (Nat.not_le.2 hg)]
      rfl
    · simp only [Finset.mem_union, mem_toFinset, mem_append, mem_singleton, hmem, hmem',
        and_or_left]

/-- Custody of more groups keeps the groups and columns of fewer. -/
theorem custodyGroups_nested {k' fuel' : Nat} {r r' : Except CustodyError (List Nat)}
    (hk : k ≤ k') (hk' : k' ≤ n) (hrun : custodyGroups hash n fuel id k = some r)
    (hrun' : custodyGroups hash n fuel' id k' = some r') :
    ∃ gs gs', r = .ok gs ∧ r' = .ok gs' ∧ gs.Pairwise (· < ·) ∧ gs.length = k ∧ gs ⊆ gs' ∧
      (n ∣ numberOfColumns →
        (∃ cols cols', custodyColumns n gs = .ok cols ∧ custodyColumns n gs' = .ok cols' ∧
          cols ⊆ cols') ∧
        ∀ c < numberOfColumns, ∃ g, computeCustodyGroupForColumn n c = .ok g ∧
          ∀ g', (∃ cols, computeColumnsForCustodyGroup n g' = .ok cols ∧ c ∈ cols) ↔ g' = g) := by
  obtain ⟨gs, rfl, hsorted, hlen, hlt, hdrawn⟩ := custodyGroups_spec (hk.trans hk') hrun
  obtain ⟨gs', rfl, -, hlen', hlt', hdrawn'⟩ := custodyGroups_spec hk' hrun'
  have hsub : gs ⊆ gs' := by
    rcases hdrawn' with ⟨-, rfl⟩ | ⟨hn, drawn', hdraw', hperm'⟩
    · exact fun g hg => mem_range.2 (hlt g hg)
    · obtain ⟨-, drawn, hdraw, hperm⟩ := hdrawn.resolve_left (by omega)
      have hinit := drawGroups_initial hk (by omega) ⟨nodup_nil, by simp, by simp⟩ hdraw hdraw'
      exact fun g hg => hperm'.mem_iff.2 (hinit.subset (hperm.mem_iff.1 hg))
  refine ⟨gs, gs', rfl, rfl, hsorted, hlen, hsub, fun hn => ⟨?_, fun c hc => ?_⟩⟩
  · obtain ⟨cols, hcols, hmem⟩ := custodyColumns_spec hn hlt
    obtain ⟨cols', hcols', hmem'⟩ := custodyColumns_spec hn hlt'
    exact ⟨cols, cols', hcols, hcols', by grind⟩
  · have hmod : c % n < n := mod_lt c (pos_of_dvd_of_pos hn (by decide))
    refine ⟨c % n, if_neg (by omega), fun g' => ⟨?_, ?_⟩⟩
    · rintro ⟨cols, hcols, hmem⟩
      have hg : g' < n := by
        by_contra hg
        simp [computeColumnsForCustodyGroup, not_lt.1 hg] at hcols
      obtain ⟨cols', hcols', hmem'⟩ := computeColumnsForCustodyGroup_spec hn hg
      cases hcols.symm.trans hcols'
      exact ((hmem' c).1 hmem).2.symm
    · rintro rfl
      obtain ⟨cols, hcols, hmem⟩ := computeColumnsForCustodyGroup_spec hn hmod
      exact ⟨cols, hcols, (hmem c).2 ⟨hc, rfl⟩⟩

/-- The id itself is the hash. Three of four groups are drawn after two of them. -/
theorem custodyGroups_nested_four :
    custodyGroups (fun bytes => bytes) 4 2 6 2 = some (.ok [2, 3]) ∧
      custodyGroups (fun bytes => bytes) 4 3 6 3 = some (.ok [0, 2, 3]) ∧
      [2, 3] ⊆ [0, 2, 3] := by
  have hrun : custodyGroups (fun bytes => bytes) 4 2 6 2 = some (.ok [2, 3]) := by decide
  have hrun' : custodyGroups (fun bytes => bytes) 4 3 6 3 = some (.ok [0, 2, 3]) := by decide
  obtain ⟨_, _, ⟨⟩, ⟨⟩, -, -, hsub, -⟩ :=
    custodyGroups_nested (by decide) (by decide) hrun hrun'
  exact ⟨hrun, hrun', hsub⟩

end LightChain.DataColumns
