import LightChain.Aggregation.Correct

/-!
# What aggregates inherit

An aggregate takes its data from one of the selected attestations and its committee bits from the
first entry of the array. So what depends on these two alone is true of every entry through all
rounds, also of those that an aggregation leaves in the array when it fails.
-/
namespace LightChain.Library

variable {α β : Type*}

theorem mem_of_mem_swapAt {xs : List α} {i j : Nat} {x : α} (h : x ∈ swapAt xs i j) : x ∈ xs := by
  unfold swapAt at h
  split at h
  · next a b ha hb =>
    rcases List.mem_or_eq_of_mem_set h with h | rfl
    · rcases List.mem_or_eq_of_mem_set h with h | rfl
      · exact h
      · exact List.mem_of_getElem? hb
    · exact List.mem_of_getElem? ha
  · exact h

theorem mem_of_mem_clearAt {xs : List (Option α)} {keys : List Nat} {x : α}
    (h : some x ∈ clearAt xs keys) : some x ∈ xs := by
  obtain ⟨i, hi⟩ := List.mem_iff_getElem?.1 h
  rw [getElem?_clearAt] at hi
  grind

theorem mem_of_mem_pushHoles {holes : List Nat} {last : Nat} {xs : List (Option α)} {ys : List β}
    {x : Option α} (h : x ∈ (pushHoles holes last xs ys).1) : x ∈ xs := by
  induction holes generalizing last xs ys with
  | nil => exact h
  | cons hole holes ih =>
    simp only [pushHoles] at h
    split_ifs at h
    · exact h
    · exact mem_of_mem_swapAt (ih h)

end LightChain.Library

namespace LightChain.Aggregation
open Library

variable {β σ δ : Type} [AddCommMonoid σ] {scheme : SignatureScheme β σ} {sorter : CountSort β δ}

/-- An aggregate has the property if the attestations have it that it takes its data and its
committee bits from. -/
def Inherited (P : Att β δ → Prop) : Prop :=
  ∀ target first coverage signature, P target → P first →
    P ⟨coverage, target.data, first.committeeBits, signature⟩

def Entries (P : Att β δ → Prop) (atts : List (Option (Att β δ))) : Prop :=
  ∀ att, some att ∈ atts → P att

variable {P : Att β δ → Prop} {atts : List (Att β δ)}

theorem entries_map_some : Entries P (atts.map some) ↔ ∀ a ∈ atts, P a := by
  simp [Entries]

theorem Entries.mono {atts atts' : List (Option (Att β δ))} (h : Entries P atts)
    (hsub : ∀ a, some a ∈ atts' → some a ∈ atts) : Entries P atts' :=
  fun a ha => h a (hsub a ha)

theorem Entries.aggregate (hP : Inherited P) {atts atts' : List (Option (Att β δ))}
    {keys : List Nat} {coverage : Bitlist} {idx : Nat} (h : Entries P atts)
    (hrun : aggregateAttestations scheme atts keys coverage = .ok (idx, atts')) :
    Entries P atts' := by
  obtain ⟨-, -, signs, target, first, -, -, htarget, hfirst, rfl⟩ :=
    aggregateAttestations_eq_ok hrun
  intro a ha
  rcases List.mem_or_eq_of_mem_set ha with ha | ha
  · exact h a ha
  · obtain rfl := Option.some.inj ha
    exact hP _ _ _ _ (h _ (List.mem_of_getElem? htarget)) (h _ (List.mem_of_getElem? hfirst))

theorem Entries.remove {p : Progress β δ} (h : Entries P p.atts) (keys : List Nat) :
    Entries P (p.remove keys).atts :=
  h.mono fun _ ha => mem_of_mem_clearAt (mem_of_mem_pushHoles ha)

theorem Entries.promote (p : Progress β δ) {atts : List (Option (Att β δ))} (h : Entries P atts)
    (aggIdx : Nat) (covered : Bitlist) : Entries P (p.promote aggIdx atts covered).atts := by
  refine h.mono fun a ha => ?_
  simp only [Progress.promote] at ha
  split_ifs at ha
  · exact mem_of_mem_swapAt ha
  · exact ha

variable {p p' : Progress β δ}

section

variable (hP : Inherited P) (h : Entries P p.atts)

include hP h

theorem Entries.round (hrun : p.round scheme = .ok (some p')) : Entries P p'.atts := by
  unfold Progress.round at hrun
  by_cases hlast : p.unaggregated < 2
  · rw [if_pos hlast] at hrun
    cases hrun
  rw [if_neg hlast] at hrun
  obtain ⟨candidates, -, hrun⟩ := bind_eq_ok.1 hrun
  obtain ⟨⟨selectedKeys, coverage⟩, -, hrun⟩ := bind_eq_ok.1 hrun
  by_cases hfew : selectedKeys.count < 2
  · simp only [if_pos hfew] at hrun
    cases hrun
  simp only [if_neg hfew] at hrun
  obtain ⟨p₁, hprocess, hrun⟩ := bind_eq_ok.1 hrun
  cases hrun
  unfold Progress.process at hprocess
  obtain ⟨xc, -, hprocess⟩ := bind_eq_ok.1 hprocess
  by_cases hxc : 0 < xc
  · rw [if_pos hxc] at hprocess
    obtain ⟨⟨aggIdx, atts⟩, hagg, hprocess⟩ := bind_eq_ok.1 hprocess
    obtain ⟨covered, -, hprocess⟩ := bind_eq_ok.1 hprocess
    cases hprocess
    exact ((h.aggregate hP hagg).promote p aggIdx covered).remove _
  · rw [if_neg hxc] at hprocess
    cases hprocess
    exact h.remove _

theorem Entries.rounds {n : Nat} (hrun : p.rounds scheme n = .ok p') : Entries P p'.atts := by
  induction n generalizing p with
  | zero =>
    cases hrun
    exact h
  | succ n ih =>
    obtain ⟨_ | p₁, hround, hrun⟩ := bind_eq_ok.1 hrun
    · cases hrun
      exact h
    · exact ih (h.round hP hround) hrun

theorem Entries.failed {n : Nat} (hrun : p.failed scheme n = some p') : Entries P p'.atts := by
  induction n generalizing p with
  | zero => cases hrun
  | succ n ih =>
    unfold Progress.failed at hrun
    split at hrun
    · cases hrun
      exact h
    · cases hrun
    · next p₁ hround => exact ih (h.round hP hround) hrun

end

theorem filterLoop_subset {last : Att β δ} {atts kept : List (Att β δ)}
    (hrun : filterLoop last atts = .ok kept) : kept ⊆ atts := by
  induction atts generalizing last kept with
  | nil =>
    cases hrun
    exact List.Subset.refl _
  | cons att atts ih =>
    unfold filterLoop at hrun
    obtain ⟨contained, -, hrun⟩ := bind_eq_ok.1 hrun
    cases contained with
    | true => exact List.subset_cons_of_subset att (ih hrun)
    | false =>
      obtain ⟨kept', hkept, hrun⟩ := bind_eq_ok.1 hrun
      cases hrun
      exact List.cons_subset_cons att (ih hkept)

theorem mapM_deref_eq_ok {al : List (Option (Att β δ))}
    (hrun : (al.mapM fun att => deref (some att)) = .ok atts) : al = atts.map some := by
  induction al generalizing atts with
  | nil =>
    cases hrun
    rfl
  | cons att al ih =>
    rw [List.mapM_cons] at hrun
    obtain ⟨a, ha, hrun⟩ := bind_eq_ok.1 hrun
    obtain ⟨rest, hrest, hrun⟩ := bind_eq_ok.1 hrun
    cases hrun
    rw [ih hrest, Option.some.inj (deref_eq_ok.1 ha)]
    rfl

theorem Entries.filterContained {al out : List (Option (Att β δ))} (h : Entries P al)
    (hrun : filterContained sorter al = .ok out) : Entries P out := by
  unfold Aggregation.filterContained at hrun
  by_cases hfew : al.length < 2
  · rw [if_pos hfew] at hrun
    cases hrun
    exact h
  rw [if_neg hfew] at hrun
  obtain ⟨atts, hatts, hsorted⟩ := bind_eq_ok.1 hrun
  obtain rfl := mapM_deref_eq_ok hatts
  split at hsorted
  · cases hsorted
  · next first rest hsort =>
    obtain ⟨kept, hkept, hout⟩ := bind_eq_ok.1 hsorted
    cases hout
    have hsub : first :: kept ⊆ atts := by
      intro a ha
      have hmem : a ∈ sorter.sort atts := by
        rw [hsort]
        exact List.cons_subset_cons first (filterLoop_subset hkept) ha
      exact (sorter.perm atts).mem_iff.1 hmem
    exact entries_map_some.2 fun a ha => entries_map_some.1 h a (hsub ha)

theorem entries_maxCoverAttestationAggregation (hP : Inherited P) {out : List (Option (Att β δ))}
    (h : ∀ a ∈ atts, P a) (hrun : maxCoverAttestationAggregation scheme sorter atts = .ok out) :
    Entries P out := by
  unfold maxCoverAttestationAggregation at hrun
  split at hrun
  · obtain ⟨-, -, hrun⟩ := bind_eq_ok.1 hrun
    obtain ⟨p, hp, hrun⟩ := bind_eq_ok.1 hrun
    obtain ⟨filtered, hfiltered, hrun⟩ := bind_eq_ok.1 hrun
    cases hrun
    have hentries : Entries P p.atts := (entries_map_some.2 h).rounds hP hp
    have hrest := (hentries.mono fun _ ha =>
      List.mem_of_mem_drop (List.mem_of_mem_take ha)).filterContained hfiltered
    intro a ha
    rcases List.mem_append.1 ha with ha | ha
    · exact hentries a (List.mem_of_mem_take ha)
    · exact hrest a ha
  · cases hrun
    exact entries_map_some.2 h

theorem entries_attsAfterFailure (hP : Inherited P) (h : ∀ a ∈ atts, P a) :
    Entries P (attsAfterFailure scheme atts) := by
  unfold attsAfterFailure
  split
  · split
    · next p hp => exact (entries_map_some.2 h).failed hP hp
    · exact entries_map_some.2 h
  · exact entries_map_some.2 h

end LightChain.Aggregation
