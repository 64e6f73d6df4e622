import LightChain.Aggregation.Attestations
import LightChain.Library.Picks

/-!
# What an aggregation returns

The array of the aggregation is followed as four lists: the aggregates, with the attestations
each was made from, the attestations that are left, and those that were dropped because the
aggregates cover them. Together they are always the input. So every attestation of the output
is made from inputs of its own, and no bit is lost.
-/
namespace LightChain.Aggregation
open Library List Bitlist

variable {β σ δ : Type} [AddCommMonoid σ]

def Disjoint (a b : Att β δ) : Prop :=
  ∀ i, ¬ (a.aggregationBits.has i = true ∧ b.aggregationBits.has i = true)

/-- An aggregate of at least two attestations without common bits. -/
structure IsAggregate (scheme : SignatureScheme β σ) (members : List (Att β δ)) (att : Att β δ) :
    Prop where
  two : 2 ≤ members.length
  disjoint : members.Pairwise Disjoint
  bits : ∀ i, att.aggregationBits.has i = true ↔
    ∃ m ∈ members, m.aggregationBits.has i = true
  signature : ∃ signs : List σ,
    members.map (fun m => scheme.signatureFromBytes m.signature) = signs.map some ∧
      att.signature = scheme.marshal signs.sum

/-- The attestations have one length, data and committee bits. -/
structure Uniform (w : Nat) (data : δ) (committeeBits : Option Nat) (att : Att β δ) : Prop where
  length : att.aggregationBits.length = w
  data : att.data = data
  committeeBits : att.committeeBits = committeeBits

section Reading

variable {scheme : SignatureScheme β σ}

theorem deref_eq_ok {α : Type} {o : Option (Option α)} {x : α} :
    deref o = .ok x ↔ o = some (some x) := by
  unfold deref
  split
  · simp
  · simp_all

theorem mapM_deref {α : Type} (xs : List α) :
    (xs.map some).mapM (fun x => deref (some x)) = .ok xs := by
  induction xs with
  | nil => rfl
  | cons x xs ih =>
    rw [map_cons, mapM_cons, ih]
    rfl

omit [AddCommMonoid σ] in
theorem mapM_signatureOf {atts : List (Option (Att β δ))} {keys : List Nat}
    {vals : List (Att β δ)} {signs : List σ}
    (hvals : keys.map (atts[·]?) = vals.map fun x => some (some x))
    (hrun : keys.mapM (signatureOf scheme atts) = .ok signs) :
    vals.map (fun v => scheme.signatureFromBytes v.signature) = signs.map some := by
  induction keys generalizing vals signs with
  | nil =>
    obtain rfl : vals = [] := by simpa using hvals.symm
    cases hrun
    rfl
  | cons k keys ih =>
    cases vals with
    | nil => simp at hvals
    | cons v vals =>
      simp only [map_cons, cons.injEq] at hvals
      rw [mapM_cons] at hrun
      obtain ⟨sig, hsig, hrun⟩ := bind_eq_ok.1 hrun
      obtain ⟨rest, hrest, hrun⟩ := bind_eq_ok.1 hrun
      cases hrun
      unfold signatureOf at hsig
      obtain ⟨att, hatt, hsig⟩ := bind_eq_ok.1 hsig
      obtain rfl : v = att := by
        rw [deref_eq_ok, hvals.1] at hatt
        simpa using hatt
      rw [map_cons, map_cons, ih hvals.2 hrest]
      cases hparse : scheme.signatureFromBytes v.signature with
      | none => simp [hparse] at hsig
      | some s =>
        rw [hparse] at hsig
        cases hsig
        rfl

end Reading

section Rounds

variable (scheme : SignatureScheme β σ) (w : Nat) (data : δ) (committeeBits : Option Nat)

/-- The array has the aggregates `agg`, made from `groups`, and then `un`. With the attestations
that were dropped they are the input. -/
structure Progress.Tracks (input : List (Att β δ)) (groups : List (List (Att β δ)))
    (agg un dropped : List (Att β δ)) (p : Progress β δ) : Prop where
  atts : Leads p.atts (agg ++ un)
  length : p.candidates.length = p.atts.length
  candidates : ∀ i x c, agg.length ≤ i → p.atts[i]? = some x → p.candidates[i]? = some c →
    c = x.map (·.aggregationBits)
  aggregated : p.aggregated = agg.length
  unaggregated : p.unaggregated = un.length
  perm : input.Perm (un ++ groups.flatten ++ dropped)
  made : List.Forall₂ (IsAggregate scheme) groups agg
  uniform : ∀ a ∈ agg, Uniform w data committeeBits a
  coveredLength : p.coveredBitsSoFar.length = w
  covered : ∀ i, p.coveredBitsSoFar.has i = true ↔
    ∃ a ∈ agg, a.aggregationBits.has i = true
  dropped : ∀ a ∈ dropped, ∀ i, a.aggregationBits.has i = true →
    p.coveredBitsSoFar.has i = true

def Progress.Tracked (input : List (Att β δ)) (p : Progress β δ) : Prop :=
  ∃ groups agg un dropped, p.Tracks scheme w data committeeBits input groups agg un dropped

variable {scheme w data committeeBits} {input : List (Att β δ)} {groups : List (List (Att β δ))}
  {agg un dropped : List (Att β δ)} {p : Progress β δ}

theorem Cover.Sound.members {c : Cover} (h : c.Sound (un.map (·.aggregationBits)) w) :
    ∃ vals : List (Att β δ), c.selected.bitIndices.map (un[·]?) = vals.map some ∧
      vals.Pairwise Disjoint ∧
      ∀ i, c.covered.has i = true ↔ ∃ v ∈ vals, v.aggregationBits.has i = true := by
  have hlt : ∀ j ∈ c.selected.bitIndices, j < un.length := by
    intro j hj
    have := lt_of_has (mem_bitIndices.1 hj)
    rwa [h.selected, length_map] at this
  have hget : ∀ j (hj : j < un.length),
      (un.map (·.aggregationBits))[j]? = some (un.get ⟨j, hj⟩).aggregationBits := by
    intro j hj
    simp [hj]
  refine ⟨c.selected.bitIndices.pmap (fun j hj => un.get ⟨j, hj⟩) hlt, ?_, ?_, fun i => ?_⟩
  · rw [map_pmap, ← pmap_eq_map (p := fun j => j < un.length) hlt]
    refine pmap_congr_left _ fun j hj _ _ => ?_
    simp [hlt j hj]
  · rw [pairwise_pmap]
    refine pairwise_bitIndices.imp_of_mem fun {j j'} hj hj' hne hlt hlt' i => ?_
    exact h.disjoint j j' _ _ hne.ne (mem_bitIndices.1 hj) (mem_bitIndices.1 hj')
      (hget j hlt) (hget j' hlt') i
  · rw [h.union]
    constructor
    · rintro ⟨j, bl, hj, hbl, hi⟩
      have hj' := hlt j (mem_bitIndices.2 hj)
      rw [hget j hj'] at hbl
      obtain rfl := Option.some.inj hbl
      exact ⟨_, mem_pmap.2 ⟨j, mem_bitIndices.2 hj, rfl⟩, hi⟩
    · rintro ⟨v, hv, hi⟩
      obtain ⟨j, hj, rfl⟩ := mem_pmap.1 hv
      exact ⟨j, _, mem_bitIndices.1 hj, hget j (hlt j hj), hi⟩

variable {keys : List Nat}

/-- The candidates from a position on are the bits of the attestations. -/
def Progress.Mirrors (a : Nat) (p : Progress β δ) : Prop :=
  RelatedFrom (fun x c => c = x.map (·.aggregationBits)) a p.atts p.candidates

theorem Progress.remove_spec {bs vals : List (Att β δ)} {a : Nat} (hleads : Leads p.atts bs)
    (hcand : p.Mirrors a) (hasc : keys.Pairwise (· < ·)) (hne : keys ≠ [])
    (hlow : ∀ k ∈ keys, a ≤ k) (hvals : keys.map (bs[·]?) = vals.map some) :
    ∃ bs', Leads (p.remove keys).atts bs' ∧ bs.Perm (vals ++ bs') ∧ bs'.take a = bs.take a ∧
      (p.remove keys).Mirrors a := by
  have hsorted : keys.insertionSort (· ≤ ·) = keys :=
    Pairwise.insertionSort_eq (hasc.imp fun h => h.le)
  unfold Progress.Mirrors Progress.remove rearrangeProcessedAttestations
  rw [hsorted]
  exact hleads.removeAt hcand hasc hne hlow hvals

theorem aggregateAttestations_eq_ok {atts atts' : List (Option (Att β δ))} {coverage : Bitlist}
    {idx : Nat} (hrun : aggregateAttestations scheme atts keys coverage = .ok (idx, atts')) :
    ∃ k₁ ks signs target first, keys = idx :: k₁ :: ks ∧
      keys.mapM (signatureOf scheme atts) = .ok signs ∧ atts[idx]? = some (some target) ∧
      atts[0]? = some (some first) ∧
      atts' = atts.set idx (some {
        aggregationBits := coverage
        data := target.data
        committeeBits := first.committeeBits
        signature := scheme.marshal signs.sum }) := by
  unfold aggregateAttestations at hrun
  split at hrun
  · next k₀ k₁ ks =>
    split_ifs at hrun
    obtain ⟨signs, hsigns, hrun⟩ := bind_eq_ok.1 hrun
    obtain ⟨target, htarget, hrun⟩ := bind_eq_ok.1 hrun
    obtain ⟨first, hfirst, hrun⟩ := bind_eq_ok.1 hrun
    cases hrun
    exact ⟨k₁, ks, signs, target, first, rfl, hsigns, deref_eq_ok.1 htarget,
      deref_eq_ok.1 hfirst, rfl⟩
  · cases hrun

variable (h : p.Tracks scheme w data committeeBits input groups agg un dropped)

include h

theorem Progress.Tracks.getElem? {i : Nat} {v : Att β δ} (hv : un[i]? = some v) :
    p.atts[agg.length + i]? = some (some v) := by
  obtain ⟨n, hn⟩ := h.atts
  have hlt := (List.getElem?_eq_some_iff.1 hv).1
  rw [hn, getElem?_append_left (by simp; omega), map_append,
    getElem?_append_right (by simp), length_map, Nat.add_sub_cancel_left,
    getElem?_map, hv]
  rfl

theorem Progress.Tracks.roundCandidates :
    p.roundCandidates = .ok (un.map (·.aggregationBits)) := by
  have hlist : (p.candidates.drop p.aggregated).take p.unaggregated =
      (un.map (·.aggregationBits)).map some := by
    refine ext_getElem? fun i => ?_
    rw [getElem?_take, getElem?_drop, h.aggregated, h.unaggregated, getElem?_map,
      getElem?_map]
    split_ifs with hi
    · have hatt := h.getElem? (getElem?_eq_getElem hi)
      have hlt := (List.getElem?_eq_some_iff.1 hatt).1
      have hc := getElem?_eq_getElem (h.length ▸ hlt)
      rw [hc, h.candidates _ _ _ (Nat.le_add_right _ _) hatt hc, getElem?_eq_getElem hi]
      rfl
    · rw [getElem?_eq_none (Nat.not_lt.1 hi)]
      rfl
  unfold Progress.roundCandidates
  rw [hlist, mapM_deref]

variable {vals : List (Att β δ)}

theorem Progress.Tracks.remove (hasc : keys.Pairwise (· < ·)) (hne : keys ≠ [])
    (hlow : ∀ k ∈ keys, agg.length ≤ k) (hvals : keys.map ((agg ++ un)[·]?) = vals.map some)
    (hcovered : ∀ v ∈ vals, ∀ i, v.aggregationBits.has i = true → p.coveredBitsSoFar.has i = true) :
    ∃ un', (p.remove keys).Tracks scheme w data committeeBits input groups agg un'
      (dropped ++ vals) := by
  obtain ⟨bs, hleads, hperm, htake, hcand⟩ :=
    Progress.remove_spec h.atts ⟨h.length, h.candidates⟩ hasc hne hlow hvals
  have hbs : bs = agg ++ bs.drop agg.length := by
    conv_lhs => rw [← take_append_drop agg.length bs, htake, take_left]
  have hun : un.Perm (vals ++ bs.drop agg.length) := by
    rw [hbs] at hperm
    refine perm_of_count fun x => ?_
    have := hperm.count_eq x
    simp only [count_append] at this ⊢
    omega
  have hcount := hun.length_eq
  have hkeys : keys.length = vals.length := by
    have := congrArg List.length hvals
    simpa using this
  refine ⟨bs.drop agg.length, hbs ▸ hleads, hcand.length, hcand.rel, h.aggregated, ?_, ?_, h.made,
    h.uniform, h.coveredLength, h.covered, ?_⟩
  · have hu := h.unaggregated
    simp only [Progress.remove, hu, hkeys]
    rw [length_append] at hcount
    omega
  · refine h.perm.trans (perm_of_count fun x => ?_)
    have := hun.count_eq x
    simp only [count_append] at this ⊢
    omega
  · intro v hv
    rcases mem_append.1 hv with hv | hv
    · exact h.dropped v hv
    · exact hcovered v hv

theorem Progress.Tracks.promote {k₀ : Nat} {v : Att β δ} (att : Att β δ) (covered : Bitlist)
    (hlow : agg.length ≤ k₀) (hv : (agg ++ un)[k₀]? = some v) :
    ∃ bs rest, Leads (p.promote k₀ (p.atts.set k₀ (some att)) covered).atts bs ∧
      (agg ++ un).Perm (v :: rest) ∧ bs.Perm (att :: rest) ∧
      bs.take (agg.length + 1) = agg ++ [att] ∧ (∀ k, k₀ < k → bs[k]? = (agg ++ un)[k]?) ∧
      (p.promote k₀ (p.atts.set k₀ (some att)) covered).Mirrors (agg.length + 1) := by
  have hlt : k₀ < (agg ++ un).length := (List.getElem?_eq_some_iff.1 hv).1
  have ha : agg.length < (agg ++ un).length := hlow.trans_lt hlt
  have ha' : agg.length < ((agg ++ un).set k₀ att).length := by rwa [length_set]
  have hlt' : k₀ < ((agg ++ un).set k₀ att).length := by rwa [length_set]
  have hset := h.atts.set hlt att
  have hle := h.atts.length_le
  have hrest : (agg ++ un).Perm (v :: (agg ++ un).eraseIdx k₀) := by
    have hget : (agg ++ un)[k₀] = v := (List.getElem?_eq_some_iff.1 hv).2
    exact hget ▸ (getElem_cons_eraseIdx_perm hlt).symm
  have hatt : ((agg ++ un).set k₀ att).Perm (att :: (agg ++ un).eraseIdx k₀) :=
    set_perm_cons_eraseIdx hlt att
  -- The first entries of both cases are the aggregates and the new one.
  have htake {bs : List (Att β δ)} (hbefore : ∀ i, i < agg.length → bs[i]? = (agg ++ un)[i]?)
      (hnew : bs[agg.length]? = some att) : bs.take (agg.length + 1) = agg ++ [att] := by
    refine ext_getElem? fun i => ?_
    rw [getElem?_take]
    rcases lt_trichotomy i agg.length with hi | rfl | hi
    · rw [if_pos (by omega), hbefore i hi, getElem?_append_left hi,
        getElem?_append_left hi]
    · rw [if_pos (by omega), hnew]
      simp
    · rw [if_neg (by omega), getElem?_eq_none (by simp; omega)]
  simp only [Progress.Mirrors, Progress.promote, h.aggregated]
  split_ifs with hswap
  · refine ⟨swapAt ((agg ++ un).set k₀ att) agg.length k₀, _, hset.swapAt ha' hlt',
      hrest, (swapAt_perm ha' hlt').trans hatt, htake (fun i hi => ?_) ?_, ?_, ?_, ?_⟩
    · rw [getElem?_swapAt ha' hlt', if_neg (by omega), if_neg (by omega),
        getElem?_set_ne (by omega)]
    · rw [getElem?_swapAt ha' hlt', if_neg (by omega), if_pos rfl]
      exact getElem?_set_self hlt
    · intro k hk
      rw [getElem?_swapAt ha' hlt', if_neg (by omega), if_neg (by omega),
        getElem?_set_ne (by omega)]
    · simp [h.length]
    · intro i x c hi hx hc
      rw [getElem?_swapAt (by rw [length_set]; omega) (by rw [length_set]; omega)] at hx
      rw [getElem?_swapAt (by rw [h.length]; omega) (by rw [h.length]; omega)] at hc
      split_ifs at hx hc with h₁ h₂
      · rw [getElem?_set_ne (by omega)] at hx
        exact h.candidates _ x c le_rfl hx hc
      · omega
      · rw [getElem?_set_ne (by omega)] at hx
        exact h.candidates i x c (by omega) hx hc
  · obtain rfl : k₀ = agg.length := by omega
    refine ⟨(agg ++ un).set agg.length att, _, hset, hrest, hatt, htake (fun i hi => ?_) ?_, ?_, ?_,
      ?_⟩
    · exact getElem?_set_ne (by omega)
    · exact getElem?_set_self hlt
    · intro k hk
      exact getElem?_set_ne (by omega)
    · simpa using h.length
    · intro i x c hi hx hc
      rw [getElem?_set_ne (by omega)] at hx
      exact h.candidates i x c (by omega) hx hc

theorem Progress.Tracks.aggregate {k₀ : Nat} {v att : Att β δ} {covered : Bitlist}
    (hasc : (k₀ :: keys).Pairwise (· < ·)) (hne : keys ≠ []) (hlow : agg.length ≤ k₀)
    (hvals : (k₀ :: keys).map ((agg ++ un)[·]?) = (v :: vals).map some)
    (hmade : IsAggregate scheme (v :: vals) att) (huniform : Uniform w data committeeBits att)
    (hlength : covered.length = w)
    (hcovered : ∀ i, covered.has i = (att.aggregationBits.has i || p.coveredBitsSoFar.has i)) :
    ∃ un', ((p.promote k₀ (p.atts.set k₀ (some att)) covered).remove keys).Tracks scheme w data
      committeeBits input (groups ++ [v :: vals]) (agg ++ [att]) un' dropped := by
  simp only [map_cons, cons.injEq] at hvals
  obtain ⟨hafter, hasc⟩ := pairwise_cons.1 hasc
  obtain ⟨bs, rest, hleads, hold, hnew, htake, hsame, hcand⟩ := h.promote att covered hlow hvals.1
  have hvals' : keys.map (bs[·]?) = vals.map some := by
    rw [← hvals.2]
    exact map_congr_left fun k hk => hsame k (hafter k hk)
  obtain ⟨bs', hleads', hperm, htake', hcand'⟩ := Progress.remove_spec hleads hcand hasc hne
    (fun k hk => Nat.lt_of_le_of_lt hlow (hafter k hk)) hvals'
  have hbs : bs' = agg ++ [att] ++ bs'.drop (agg.length + 1) := by
    conv_lhs => rw [← take_append_drop (agg.length + 1) bs', htake', htake]
  have hun : un.Perm (v :: vals ++ bs'.drop (agg.length + 1)) := by
    rw [hbs] at hperm
    refine perm_of_count fun x => ?_
    have h₁ := hold.count_eq x
    have h₂ := hnew.count_eq x
    have h₃ := hperm.count_eq x
    simp only [count_append, count_cons, count_nil] at h₁ h₂ h₃ ⊢
    omega
  have hcount := hun.length_eq
  have hkeys : keys.length = vals.length := by
    have := congrArg List.length hvals.2
    simpa using this
  refine ⟨bs'.drop (agg.length + 1), hbs ▸ hleads', hcand'.length, ?_, ?_, ?_, ?_, ?_, ?_, hlength,
    ?_, ?_⟩
  · simpa using hcand'.rel
  · simp [Progress.remove, Progress.promote, h.aggregated]
  · simp only [Progress.remove, Progress.promote, h.unaggregated, hkeys]
    simp only [cons_append, length_cons, length_append] at hcount
    omega
  · refine h.perm.trans (perm_of_count fun x => ?_)
    have := hun.count_eq x
    simp only [count_append, flatten_append, flatten_cons, flatten_nil,
      count_nil] at this ⊢
    omega
  · exact rel_append h.made (.cons hmade .nil)
  · intro a ha
    rcases mem_append.1 ha with ha | ha
    · exact h.uniform a ha
    · obtain rfl := mem_singleton.1 ha
      exact huniform
  · intro i
    have : (p.promote k₀ (p.atts.set k₀ (some att)) covered).coveredBitsSoFar = covered := rfl
    simp only [Progress.remove, this, hcovered, Bool.or_eq_true, h.covered, mem_append,
      mem_singleton]
    grind
  · intro a ha i hi
    have : (p.promote k₀ (p.atts.set k₀ (some att)) covered).coveredBitsSoFar = covered := rfl
    simp only [Progress.remove, this, hcovered, h.dropped a ha i hi, Bool.or_true]

variable (hinput : ∀ a ∈ input, Uniform w data committeeBits a)

include hinput

theorem Progress.Tracks.uniform_atts {i : Nat} {a : Att β δ} (ha : p.atts[i]? = some (some a)) :
    Uniform w data committeeBits a := by
  have hmem : (agg ++ un)[i]? = some a := by rw [← h.atts.getElem? i, ha, Option.join_some]
  rcases mem_append.1 (mem_of_getElem? hmem) with hagg | hun
  · exact h.uniform a hagg
  · exact hinput a (h.perm.mem_iff.2 (by simp [hun]))

variable {p' : Progress β δ}

theorem Progress.Tracks.process {coverage : Bitlist} (hasc : keys.Pairwise (· < ·))
    (hne : keys ≠ []) (hlow : ∀ k ∈ keys, agg.length ≤ k)
    (hvals : keys.map ((agg ++ un)[·]?) = vals.map some) (hdisjoint : vals.Pairwise Disjoint)
    (hlength : coverage.length = w)
    (hcoverage : ∀ i, coverage.has i = true ↔ ∃ v ∈ vals, v.aggregationBits.has i = true)
    (hrun : p.process scheme keys coverage = .ok p') :
    p'.Tracked scheme w data committeeBits input := by
  obtain ⟨xc, hxc, hzero⟩ := xorCount_eq (h.coveredLength.trans hlength.symm)
  unfold Progress.process at hrun
  rw [sameLength_eq_ok hxc, ok_bind] at hrun
  split_ifs at hrun with hnew
  · obtain ⟨⟨idx, atts⟩, hagg, hrun⟩ := bind_eq_ok.1 hrun
    obtain ⟨covered, hcovered, hhas⟩ := or_eq (hlength.trans h.coveredLength.symm)
    simp only [sameLength_eq_ok hcovered, ok_bind] at hrun
    cases hrun
    obtain ⟨k₁, ks, signs, target, first, rfl, hsigns, htarget, hfirst, rfl⟩ :=
      aggregateAttestations_eq_ok hagg
    have hatts := h.atts.map_getElem? hvals
    cases vals with
    | nil => simp at hvals
    | cons v vals =>
      have hsize := congrArg List.length hvals
      let att : Att β δ := {
        aggregationBits := coverage
        data := target.data
        committeeBits := first.committeeBits
        signature := scheme.marshal signs.sum }
      have hmade : IsAggregate scheme (v :: vals) att :=
        ⟨by simp at hsize ⊢; omega, hdisjoint, hcoverage, signs, mapM_signatureOf hatts hsigns, rfl⟩
      have huniform : Uniform w data committeeBits att :=
        ⟨hlength, (h.uniform_atts hinput htarget).data,
          (h.uniform_atts hinput hfirst).committeeBits⟩
      obtain ⟨un', htracks⟩ := h.aggregate hasc (cons_ne_nil _ _)
        (hlow idx mem_cons_self) hvals hmade huniform (hhas.1.trans h.coveredLength) hhas.2
      exact ⟨_, _, un', _, htracks⟩
  · cases hrun
    obtain rfl := hzero.1 (by omega)
    obtain ⟨un', htracks⟩ := h.remove hasc hne hlow hvals fun v hv i hi =>
      (hcoverage i).2 ⟨v, hv, hi⟩
    exact ⟨_, _, un', _, htracks⟩

theorem Progress.Tracks.round (hw : w ≠ 0) (hrun : p.round scheme = .ok (some p')) :
    p'.Tracked scheme w data committeeBits input := by
  unfold Progress.round at hrun
  by_cases htwo : p.unaggregated < 2
  · rw [if_pos htwo] at hrun
    cases hrun
  rw [if_neg htwo, h.roundCandidates, ok_bind] at hrun
  have hun : un.map (·.aggregationBits) ≠ [] := by
    rw [h.unaggregated] at htwo
    intro hnil
    rw [map_eq_nil_iff] at hnil
    simp [hnil] at htwo
  have hlen : ∀ c ∈ un.map (·.aggregationBits), c.length = w := by
    intro c hc
    obtain ⟨a, ha, rfl⟩ := mem_map.1 hc
    exact (hinput a (h.perm.mem_iff.2 (by simp [ha]))).length
  obtain ⟨c, hc, hsound⟩ := maxCover_ok hlen hun hw (un.map (·.aggregationBits)).length
  simp only [hc, ok_bind] at hrun
  split_ifs at hrun with hcount
  · cases hrun
  · obtain ⟨q, hq, hrun⟩ := bind_eq_ok.1 hrun
    cases hrun
    obtain ⟨vals, hvals, hdisjoint, hcoverage⟩ := hsound.members
    refine h.process hinput ?_ ?_ ?_ ?_ hdisjoint hsound.covered hcoverage hq
    · rw [pairwise_map]
      exact pairwise_bitIndices.imp fun hlt => Nat.add_lt_add_right hlt _
    · intro hnil
      rw [map_eq_nil_iff] at hnil
      have := length_bitIndices (b := c.selected)
      rw [hnil] at this
      simp at this
      omega
    · intro k hk
      obtain ⟨j, -, rfl⟩ := mem_map.1 hk
      rw [h.aggregated]
      exact Nat.le_add_left _ _
    · rw [map_map, ← hvals]
      refine map_congr_left fun j _ => ?_
      simp only [Function.comp_apply, h.aggregated]
      rw [getElem?_append_right (Nat.le_add_left _ _), Nat.add_sub_cancel]

theorem Progress.Tracks.rounds {n : Nat} (hw : w ≠ 0) (hrun : Progress.rounds scheme n p = .ok p') :
    p'.Tracked scheme w data committeeBits input := by
  induction n generalizing p groups agg un dropped with
  | zero =>
    cases hrun
    exact ⟨groups, agg, un, dropped, h⟩
  | succ n ih =>
    unfold Progress.rounds at hrun
    obtain ⟨o, ho, hrun⟩ := bind_eq_ok.1 hrun
    cases o with
    | none =>
      cases hrun
      exact ⟨groups, agg, un, dropped, h⟩
    | some q =>
      obtain ⟨groups', agg', un', dropped', hq⟩ := h.round hinput hw ho
      exact ih hq hrun

end Rounds

section Filter

variable {w : Nat} {sorter : CountSort β δ}

theorem filterLoop_eq_ok {last : Att β δ} {atts kept : List (Att β δ)}
    (hlast : last.aggregationBits.length = w) (hatts : ∀ a ∈ atts, a.aggregationBits.length = w)
    (hrun : filterLoop last atts = .ok kept) :
    kept.Sublist atts ∧ ∀ a ∈ atts, ∀ i, a.aggregationBits.has i = true →
      ∃ b ∈ last :: kept, b.aggregationBits.has i = true := by
  induction atts generalizing last kept with
  | nil =>
    cases hrun
    exact ⟨.slnil, fun a ha => nomatch ha⟩
  | cons att atts ih =>
    have hatt := hatts att mem_cons_self
    have hrest : ∀ a ∈ atts, a.aggregationBits.length = w :=
      fun a ha => hatts a (mem_cons_of_mem _ ha)
    obtain ⟨o, ho, hcontains⟩ := contains_eq (hlast.trans hatt.symm)
    unfold filterLoop at hrun
    rw [sameLength_eq_ok ho, ok_bind] at hrun
    cases o with
    | true =>
      simp only [if_true] at hrun
      obtain ⟨hsub, hbits⟩ := ih hlast hrest hrun
      refine ⟨hsub.cons att, fun a ha i hi => ?_⟩
      rcases mem_cons.1 ha with rfl | ha
      · exact ⟨last, mem_cons_self, hcontains.1 rfl i hi⟩
      · exact hbits a ha i hi
    | false =>
      simp only [Bool.false_eq_true, if_false] at hrun
      obtain ⟨kept', hkept', hrun⟩ := bind_eq_ok.1 hrun
      cases hrun
      obtain ⟨hsub, hbits⟩ := ih hatt hrest hkept'
      refine ⟨hsub.cons_cons att, fun a ha i hi => ?_⟩
      rcases mem_cons.1 ha with rfl | ha
      · exact ⟨a, mem_cons_of_mem _ mem_cons_self, hi⟩
      · obtain ⟨b, hb, hi⟩ := hbits a ha i hi
        exact ⟨b, mem_cons_of_mem _ hb, hi⟩

theorem filterContained_eq_ok {un : List (Att β δ)} {out : List (Option (Att β δ))}
    (hun : ∀ a ∈ un, a.aggregationBits.length = w)
    (hrun : filterContained sorter (un.map some) = .ok out) :
    ∃ kept rest, out = kept.map some ∧ un.Perm (kept ++ rest) ∧
      ∀ a ∈ un, ∀ i, a.aggregationBits.has i = true →
        ∃ b ∈ kept, b.aggregationBits.has i = true := by
  unfold filterContained at hrun
  split_ifs at hrun
  · cases hrun
    exact ⟨un, [], rfl, by simp, fun a ha i hi => ⟨a, ha, hi⟩⟩
  · rw [mapM_deref, ok_bind] at hrun
    have hperm := sorter.perm un
    split at hrun
    · cases hrun
    · next first rest hsort =>
      obtain ⟨kept, hkept, hrun⟩ := bind_eq_ok.1 hrun
      cases hrun
      rw [hsort] at hperm
      have hlength : ∀ a ∈ first :: rest, a.aggregationBits.length = w :=
        fun a ha => hun a (hperm.mem_iff.1 ha)
      obtain ⟨hsub, hbits⟩ := filterLoop_eq_ok (hlength first mem_cons_self)
        (fun a ha => hlength a (mem_cons_of_mem _ ha)) hkept
      obtain ⟨dropped, hdropped⟩ := hsub.exists_perm_append
      refine ⟨first :: kept, dropped, rfl, hperm.symm.trans (hdropped.cons first), ?_⟩
      intro a ha i hi
      rcases mem_cons.1 (hperm.mem_iff.2 ha) with rfl | ha
      · exact ⟨a, mem_cons_self, hi⟩
      · exact hbits a ha i hi

end Filter

section Result

variable {scheme : SignatureScheme β σ} {sorter : CountSort β δ} {w : Nat} {data : δ}
  {committeeBits : Option Nat} {input : List (Att β δ)}

/-- An attestation is itself, or the aggregate of several. -/
def MadeFrom (scheme : SignatureScheme β σ) (members : List (Att β δ)) (att : Att β δ) : Prop :=
  members = [att] ∨ IsAggregate scheme members att

theorem validate_eq_ok (h : validate input = .ok ()) {a : Att β δ} (ha : a ∈ input) :
    a.aggregationBits.length ≠ 0 := by
  unfold validate at h
  split_ifs at h with hany
  intro hzero
  exact hany (any_eq_true.2 ⟨a, ha, by simpa using hzero⟩)

theorem exists_parts {groups : List (List (Att β δ))} {agg kept rest : List (Att β δ)}
    (hperm : input.Perm (groups.flatten ++ kept ++ rest))
    (hmade : List.Forall₂ (IsAggregate scheme) groups agg) :
    ∃ parts : List (List Nat), parts.flatten.Nodup ∧
      List.Forall₂ (fun part o => ∃ members, Picks input part members ∧
        MadeFrom scheme members o) parts (agg ++ kept) := by
  have hflat : (groups ++ kept.map ([·])).flatten = groups.flatten ++ kept := by
    rw [flatten_append, ← flatMap_def, flatMap_singleton']
  obtain ⟨parts, hnodup, hparts⟩ := exists_parts_of_perm (hflat ▸ hperm)
  have hall : List.Forall₂ (MadeFrom scheme) (groups ++ kept.map ([·])) (agg ++ kept) := by
    refine rel_append (hmade.imp fun _ _ h => .inr h) ?_
    rw [forall₂_map_left_iff, forall₂_same]
    exact fun _ _ => .inl rfl
  exact ⟨parts, hnodup, forall₂_comp hparts hall⟩

theorem tracks_input {first : Att β δ} (hinput : ∀ a ∈ input, Uniform w data committeeBits a)
    (hfirst : first ∈ input) :
    Progress.Tracks scheme w data committeeBits input [] [] input [] {
      atts := input.map some
      candidates := input.map fun att => some att.aggregationBits
      aggregated := 0
      unaggregated := input.length
      coveredBitsSoFar := .zeros first.aggregationBits.length } where
  atts := ⟨0, by simp⟩
  length := by simp
  candidates i x c _ hx hc := by
    rw [getElem?_map] at hx hc
    cases hi : input[i]? with
    | none => simp [hi] at hx
    | some a =>
      simp only [hi, Option.map_some, Option.some.injEq] at hx hc
      rw [← hx, ← hc]
      rfl
  aggregated := rfl
  unaggregated := rfl
  perm := by simp
  made := .nil
  uniform a ha := nomatch ha
  coveredLength := by simpa using (hinput first hfirst).length
  covered i := by simp
  dropped a ha := nomatch ha

/-- The output is the aggregates of some groups of inputs and some single inputs, all different,
and it has the bits of the input. -/
theorem aggregation_spec {out : List (Option (Att β δ))}
    (hinput : ∀ a ∈ input, Uniform w data committeeBits a)
    (hrun : maxCoverAttestationAggregation scheme sorter input = .ok out) :
    ∃ groups agg kept rest, out = (agg ++ kept).map some ∧
      input.Perm (groups.flatten ++ kept ++ rest) ∧
      List.Forall₂ (IsAggregate scheme) groups agg ∧
      (∀ o ∈ agg ++ kept, Uniform w data committeeBits o) ∧
      ∀ i, (∃ o ∈ agg ++ kept, o.aggregationBits.has i = true) ↔
        ∃ a ∈ input, a.aggregationBits.has i = true := by
  unfold maxCoverAttestationAggregation at hrun
  split at hrun
  · next first second others =>
    obtain ⟨⟨⟩, hvalid, hrun⟩ := bind_eq_ok.1 hrun
    obtain ⟨p, hp, hrun⟩ := bind_eq_ok.1 hrun
    obtain ⟨filtered, hfiltered, hrun⟩ := bind_eq_ok.1 hrun
    cases hrun
    have hfirst := hinput first mem_cons_self
    have hw : w ≠ 0 := hfirst.length ▸ validate_eq_ok hvalid mem_cons_self
    obtain ⟨groups, agg, un, dropped, h⟩ :=
      (tracks_input hinput mem_cons_self).rounds hinput hw hp
    have hfront : p.atts.take p.aggregated = agg.map some := by
      obtain ⟨n, hn⟩ := h.atts
      rw [hn, h.aggregated, map_append, append_assoc]
      exact take_left' (length_map _)
    have hback : (p.atts.drop p.aggregated).take p.unaggregated = un.map some := by
      obtain ⟨n, hn⟩ := h.atts
      rw [hn, h.aggregated, h.unaggregated, map_append, append_assoc,
        drop_left' (length_map _)]
      exact take_left' (length_map _)
    have hun : ∀ a ∈ un, Uniform w data committeeBits a :=
      fun a ha => hinput a (h.perm.mem_iff.2 (by simp [ha]))
    rw [hback] at hfiltered
    obtain ⟨kept, rest, rfl, hperm, hkept⟩ :=
      filterContained_eq_ok (fun a ha => (hun a ha).length) hfiltered
    refine ⟨groups, agg, kept, rest ++ dropped, by rw [hfront, map_append], h.perm.trans ?_,
      h.made, fun o ho => ?_, fun i => ?_⟩
    · refine perm_of_count fun x => ?_
      have := hperm.count_eq x
      simp only [count_append] at this ⊢
      omega
    · rcases mem_append.1 ho with ho | ho
      · exact h.uniform o ho
      · exact hun o (hperm.mem_iff.2 (mem_append_left _ ho))
    · constructor
      · rintro ⟨o, ho, hi⟩
        rcases mem_append.1 ho with ho | ho
        · obtain ⟨g, hg, hmade⟩ := forall₂_exists_left h.made ho
          obtain ⟨m, hm, hi⟩ := (hmade.bits i).1 hi
          have hflat : m ∈ groups.flatten := mem_flatten_of_mem hg hm
          exact ⟨m, h.perm.mem_iff.2 (by simp [hflat]), hi⟩
        · have hmem : o ∈ un := hperm.mem_iff.2 (mem_append_left _ ho)
          exact ⟨o, h.perm.mem_iff.2 (by simp [hmem]), hi⟩
      · rintro ⟨a, ha, hi⟩
        have hagg {o : Att β δ} (ho : o ∈ agg) (hi : o.aggregationBits.has i = true) :
            ∃ o ∈ agg ++ kept, o.aggregationBits.has i = true :=
          ⟨o, mem_append_left _ ho, hi⟩
        rcases mem_append.1 (h.perm.mem_iff.1 ha) with hmem | hmem
        · rcases mem_append.1 hmem with hmem | hmem
          · obtain ⟨b, hb, hi⟩ := hkept a hmem i hi
            exact ⟨b, mem_append_right _ hb, hi⟩
          · obtain ⟨g, hg, hm⟩ := mem_flatten.1 hmem
            obtain ⟨o, ho, hmade⟩ := forall₂_exists_right h.made hg
            exact hagg ho ((hmade.bits i).2 ⟨a, hm, hi⟩)
        · obtain ⟨o, ho, hi⟩ := (h.covered i).1 (h.dropped a hmem i hi)
          exact hagg ho hi
  · cases hrun
    exact ⟨[], [], input, [], rfl, by simp, .nil, by simpa using hinput, fun i => by simp⟩

/-- The output has no nil entry and the bits of the input, and each attestation of it is made
from inputs of its own. -/
theorem maxCoverAttestationAggregation_correct {out : List (Option (Att β δ))}
    (hinput : ∀ a ∈ input, Uniform w data committeeBits a)
    (hrun : maxCoverAttestationAggregation scheme sorter input = .ok out) :
    ∃ atts : List (Att β δ), out = atts.map some ∧
      (∀ i, (∃ o ∈ atts, o.aggregationBits.has i = true) ↔
        ∃ a ∈ input, a.aggregationBits.has i = true) ∧
      (∀ o ∈ atts, Uniform w data committeeBits o) ∧
      ∃ parts : List (List Nat), parts.flatten.Nodup ∧
        List.Forall₂ (fun part o => ∃ members, Picks input part members ∧
          MadeFrom scheme members o) parts atts := by
  obtain ⟨groups, agg, kept, rest, hout, hperm, hmade, huniform, hbits⟩ :=
    aggregation_spec hinput hrun
  exact ⟨agg ++ kept, hout, hbits, huniform, exists_parts hperm hmade⟩

/-- A sort that keeps the order of equal counts where it can. -/
def stableSort : CountSort Nat Nat where
  sort := List.insertionSort fun a b => b.aggregationBits.count ≤ a.aggregationBits.count
  perm atts := perm_insertionSort _ atts
  descending atts := by
    have : Std.Total fun a b : Att Nat Nat =>
        b.aggregationBits.count ≤ a.aggregationBits.count := ⟨fun _ _ => Nat.le_total _ _⟩
    have : IsTrans (Att Nat Nat) fun a b =>
        b.aggregationBits.count ≤ a.aggregationBits.count :=
      ⟨fun _ _ _ hab hbc => hbc.trans hab⟩
    exact pairwise_insertionSort _ atts

/-- Of three attestations two are aggregated, and the third is kept. -/
theorem maxCoverAttestationAggregation_correct_three :
    ∃ atts : List (Att Nat Nat),
      [some ⟨[true, true, true], 7, none, 11⟩, some ⟨[false, true, true], 7, none, 100⟩] =
        atts.map some ∧
      (∀ i, (∃ o ∈ atts, o.aggregationBits.has i = true) ↔
        ∃ a ∈ [⟨[true, true, false], 7, none, 10⟩, ⟨[false, false, true], 7, none, 1⟩,
          (⟨[false, true, true], 7, none, 100⟩ : Att Nat Nat)], a.aggregationBits.has i = true) ∧
      (∀ o ∈ atts, Uniform 3 7 none o) ∧
      ∃ parts : List (List Nat), parts.flatten.Nodup ∧
        List.Forall₂ (fun part o => ∃ members,
          Picks [⟨[true, true, false], 7, none, 10⟩, ⟨[false, false, true], 7, none, 1⟩,
            ⟨[false, true, true], 7, none, 100⟩] part members ∧
          MadeFrom ⟨some, fun s : Nat => s⟩ members o) parts atts :=
  maxCoverAttestationAggregation_correct
    (by simp only [mem_cons, not_mem_nil, or_false, forall_eq_or_imp, forall_eq]
        exact ⟨⟨rfl, rfl, rfl⟩, ⟨rfl, rfl, rfl⟩, ⟨rfl, rfl, rfl⟩⟩)
    (show maxCoverAttestationAggregation ⟨some, fun s : Nat => s⟩ stableSort _ = _ from rfl)

end Result

end LightChain.Aggregation
