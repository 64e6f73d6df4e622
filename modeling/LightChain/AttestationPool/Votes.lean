import LightChain.AttestationPool.Kv

/-!
# Votes through the aggregation of the pool

A vote is a bit of an attestation with its data and committee bits. After the unaggregated
attestations are aggregated a vote of them is still in the pool if the aggregate of its group was
saved, or if the group is a single attestation, which is left over. It is lost with a group whose
aggregation fails, because nothing of it is in the left-over set, with a group that has a single
bit more than once, because the left-over set has the aggregate in place of its attestations, and
with an aggregate that could not be saved, unless another attestation has the vote, too.
-/
namespace LightChain.AttestationPool
open Library Aggregation List

section Containment

variable {bits small : Bitlist} {lists : List (Option Bitlist)}

theorem containedIn_false (h : containedIn bits lists = .ok false) :
    ∀ entry ∈ lists, ∃ list, entry = some list ∧ list.length = bits.length ∧
      ¬ ∀ i, bits.has i = true → list.has i = true := by
  induction lists with
  | nil => simp
  | cons entry lists ih =>
    unfold containedIn at h
    split at h
    · cases h
    next list hlist =>
    split at h
    · cases h
    · cases h
    next hcontains =>
    obtain ⟨hlen, hiff⟩ := Bitlist.contains_eq_some (sameLength_eq_ok_iff.1 hcontains)
    have hentry : entry = some list := Option.some.inj (deref_eq_ok.1 hlist)
    intro e he
    rcases mem_cons.1 he with rfl | he
    · exact ⟨list, hentry, hlen, fun hall => by simpa using hiff.2 hall⟩
    · exact ih h e he

theorem containedIn_true (h : containedIn bits lists = .ok true) :
    ∃ list, some list ∈ lists ∧ ∀ i, bits.has i = true → list.has i = true := by
  induction lists with
  | nil => cases h
  | cons entry lists ih =>
    unfold containedIn at h
    split at h
    · cases h
    next list hlist =>
    obtain rfl : entry = some list := Option.some.inj (deref_eq_ok.1 hlist)
    split at h
    · cases h
    · next hcontains =>
      obtain ⟨-, hiff⟩ := Bitlist.contains_eq_some (sameLength_eq_ok_iff.1 hcontains)
      exact ⟨list, mem_cons_self, hiff.1 rfl⟩
    · obtain ⟨list, hmem, hbits⟩ := ih h
      exact ⟨list, mem_cons_of_mem _ hmem, hbits⟩

/-- What contains the bits contains fewer of them, and no list in front of it fails. -/
theorem containedIn_mono (hlen : small.length = bits.length)
    (hsub : ∀ i, small.has i = true → bits.has i = true) (h : containedIn bits lists = .ok true) :
    containedIn small lists = .ok true := by
  induction lists with
  | nil => cases h
  | cons entry lists ih =>
    unfold containedIn at h
    split at h
    · cases h
    next list hlist =>
    unfold containedIn
    simp only [hlist]
    have hsmall : ∀ o, list.contains bits = some o → ∃ o', list.contains small = some o' ∧
        (o = true → o' = true) := by
      intro o ho
      obtain ⟨hlist, hiff⟩ := Bitlist.contains_eq_some ho
      obtain ⟨o', ho', hiff'⟩ := Bitlist.contains_eq (hlist.trans hlen.symm)
      exact ⟨o', ho', fun htrue => hiff'.2 fun i hi => hiff.1 htrue i (hsub i hi)⟩
    split at h
    · cases h
    · next hcontains =>
      obtain ⟨o', ho', htrue⟩ := hsmall true (sameLength_eq_ok_iff.1 hcontains)
      rw [sameLength_eq_ok ho', htrue rfl]
    · next hcontains =>
      obtain ⟨o', ho', -⟩ := hsmall false (sameLength_eq_ok_iff.1 hcontains)
      rw [sameLength_eq_ok ho']
      cases o' with
      | true => rfl
      | false => exact ih h

end Containment

section Groups

variable {β σ δ : Type} [AddCommMonoid σ] {scheme : SignatureScheme β σ}

theorem disjointCoverage_eq_ok {coverage coverage' : Bitlist} {atts : List (Att β δ)}
    (h : disjointCoverage coverage atts = .ok coverage') :
    coverage'.length = coverage.length ∧
      (∀ a ∈ atts, a.aggregationBits.length = coverage.length) ∧
      ∀ i, coverage'.has i = true ↔
        coverage.has i = true ∨ ∃ a ∈ atts, a.aggregationBits.has i = true := by
  induction atts generalizing coverage with
  | nil =>
    cases h
    simp
  | cons att atts ih =>
    unfold disjointCoverage at h
    split at h
    · cases h
    next union hunion =>
    obtain ⟨hatt, hlen, hhas⟩ := Bitlist.or_eq_some (sameLength_eq_ok_iff.1 hunion)
    obtain ⟨hlen', hatts, hhas'⟩ := ih h
    refine ⟨hlen'.trans hlen, fun a ha => ?_, fun i => ?_⟩
    · rcases mem_cons.1 ha with rfl | ha
      · exact hatt
      · exact (hatts a ha).trans hlen
    · rw [hhas', hhas, Bool.or_eq_true, exists_mem_cons_iff]
      tauto

theorem aggregateDisjointOneBitAtts_eq_some {id : DataId δ} {as : List (Att β δ)} {agg : Att β δ}
    (hkey : ∀ a ∈ as, dataId a = id) (h : aggregateDisjointOneBitAtts scheme as = .ok (some agg)) :
    dataId agg = id ∧ (∀ a ∈ as, a.aggregationBits.length = agg.aggregationBits.length) ∧
      ∀ i, agg.aggregationBits.has i = true ↔ ∃ a ∈ as, a.aggregationBits.has i = true := by
  unfold aggregateDisjointOneBitAtts at h
  split at h
  · cases h
  · cases h
    exact ⟨hkey agg (by simp), by simp, by simp⟩
  next first rest hrest =>
  split at h
  · cases h
  next coverage hcoverage =>
  obtain ⟨hlen, hatts, hhas⟩ := disjointCoverage_eq_ok hcoverage
  split at h
  · cases h
  next idx atts hagg =>
  obtain ⟨k₁, ks, signs, target, head, -, -, htarget, hhead, rfl⟩ :=
    aggregateAttestations_eq_ok hagg
  have hmem : ∀ (j : Nat) (a : Att β δ), ((first :: rest).map some)[j]? = some (some a) → dataId a = id := by
    intro j a ha
    exact hkey a (by simpa using mem_of_getElem? ha)
  by_cases hidx : idx ≠ 0
  · rw [if_pos hidx] at h
    cases h
  obtain rfl : idx = 0 := by simpa using hidx
  simp only [ne_eq, not_true_eq_false, if_false, map_cons, set_cons_zero,
    getElem?_cons_zero, deref, Except.ok.injEq, Option.some.injEq] at h
  obtain rfl := h
  refine ⟨inherited_dataId id _ _ _ _ (hmem _ _ htarget) (hmem _ _ hhead), fun a ha => ?_, ?_⟩
  · rcases mem_cons.1 ha with rfl | ha
    · exact hlen.symm
    · exact (hatts a ha).trans hlen.symm
  · intro i
    rw [hhas, exists_mem_cons_iff]

end Groups

section Saving

variable {β σ δ : Type} [AddCommMonoid σ] {scheme : SignatureScheme β σ} {sorter : CountSort β δ}
  {id : DataId δ} {k k' : KeyCaches β id} {room : Bool} {att : Att β δ} {hkey : dataId att = id}
  {i : Nat}

/-- An aggregated attestation of the key, or one of a block, has the bit. -/
def KeyCaches.Holds (k : KeyCaches β id) (i : Nat) : Prop :=
  (∃ a, some a ∈ k.aggregatedAtt ∧ a.aggregationBits.has i = true) ∨
    ∃ a ∈ k.blockAtt, a.aggregationBits.has i = true

theorem KeyCaches.holds_of_hasAggregated (h : k.hasAggregatedAttestation att = .ok true)
    (hi : att.aggregationBits.has i = true) : k.Holds i := by
  unfold hasAggregatedAttestation at h
  split at h
  · obtain ⟨list, hmem, hbits⟩ := containedIn_true h
    simp only [mem_map, Option.some.injEq] at hmem
    obtain ⟨a, ha, rfl⟩ := hmem
    exact .inr ⟨a, ha, hbits i hi⟩
  · obtain ⟨list, hmem, hbits⟩ := containedIn_true h
    simp only [mem_map, Option.map_eq_some_iff] at hmem
    obtain ⟨_, ha, a, rfl, rfl⟩ := hmem
    exact .inl ⟨a, ha, hbits i hi⟩

theorem KeyCaches.length_of_hasAggregated (h : k.hasAggregatedAttestation att = .ok false)
    {a : Att β δ} (ha : some a ∈ k.aggregatedAtt) :
    a.aggregationBits.length = att.aggregationBits.length := by
  unfold hasAggregatedAttestation at h
  split at h
  · next hfalse =>
    obtain ⟨list, hlist, hlen, -⟩ := containedIn_false hfalse (some a.aggregationBits)
      (mem_map.2 ⟨some a, ha, rfl⟩)
    obtain rfl := Option.some.inj hlist
    exact hlen
  · next hne => exact absurd h hne

theorem KeyCaches.addAggregated_ok (hhas : k.hasAggregatedAttestation att = .ok false)
    (h : k.addAggregated scheme sorter room att hkey = (k', .ok ()))
    (hi : att.aggregationBits.has i = true) : k'.Holds i := by
  unfold addAggregated at h
  split at h
  · cases h
  next atts hderef =>
  have hentries : k.aggregatedAtt = atts.map some := mapM_deref_eq_ok hderef
  simp only at h
  split at h
  · next result hrun =>
    cases h
    have huniform : ∀ a ∈ atts ++ [att],
        Uniform att.aggregationBits.length id.data id.committeeBits a := by
      intro a ha
      rcases mem_append.1 ha with ha | ha
      · have hmem : some a ∈ k.aggregatedAtt := hentries ▸ mem_map_of_mem ha
        have hid := k.aggregated_key a hmem
        exact ⟨length_of_hasAggregated hhas hmem, congrArg DataId.data hid,
          congrArg DataId.committeeBits hid⟩
      · obtain rfl := mem_singleton.1 ha
        exact ⟨rfl, congrArg DataId.data hkey, congrArg DataId.committeeBits hkey⟩
    obtain ⟨-, agg, kept, -, rfl, -, -, -, hbits⟩ := aggregation_spec huniform hrun
    obtain ⟨o, ho, hoi⟩ := (hbits i).2 ⟨att, by simp, hi⟩
    exact .inl ⟨o, mem_map_of_mem ho, hoi⟩
  · cases h

/-- A save that reports no error leaves the votes of the attestation in the pool, or they were
seen. -/
theorem KeyCaches.saveAggregatedAttestation_ok
    (h : k.saveAggregatedAttestation scheme sorter room att hkey = (k', .ok ()))
    (hseen : k.hasSeenBit att ≠ .ok true) (hi : att.aggregationBits.has i = true) :
    k'.Holds i := by
  unfold saveAggregatedAttestation at h
  split at h
  · cases h
  · next hhas =>
    cases h
    exact holds_of_hasAggregated hhas hi
  next hhas =>
  split at h
  · cases h
  · next htrue => exact absurd htrue hseen
  · exact addAggregated_ok hhas h hi

end Saving

namespace AttCaches

variable {β σ δ : Type}

section Defs

variable [DecidableEq δ] [AddCommMonoid σ] (scheme : SignatureScheme β σ) (sorter : CountSort β δ)
  (room : DataId δ → Bool) (c : AttCaches β δ) (id : DataId δ)

/-- The attestation is unaggregated, aggregated or one of a block. -/
def Contains (att : Att β δ) : Prop :=
  att ∈ c.unAggregatedAtt ∨
    ∃ id, some att ∈ (c.under id).aggregatedAtt ∨ att ∈ (c.under id).blockAtt

def Holds (i : Nat) : Prop :=
  ∃ att, c.Contains att ∧ dataId att = id ∧ att.aggregationBits.has i = true

def Seen (i : Nat) : Prop := ∃ bits ∈ (c.under id).seenAtt, bits.has i = true

/-- The votes of the unaggregated attestations that are returned from the pool are in the pool
afterwards, unless they were seen before. -/
def VotesKept (c' : AttCaches β δ) : Prop :=
  ∀ att ∈ c.unaggregatedAttestations, ∀ i, att.aggregationBits.has i = true →
    c'.Holds (dataId att) i ∨ c.Seen (dataId att) i

/-- The vote is in the caches of its key, or in an unaggregated attestation that is not returned
from the pool. -/
def HeldApart {id : DataId δ} (k : KeyCaches β id) (i : Nat) : Prop :=
  (∃ att ∈ c.unAggregatedAtt, att ∉ c.unaggregatedAttestations ∧ dataId att = id ∧
    att.aggregationBits.has i = true) ∨ k.Holds i

/-- The group of the key keeps the vote: its aggregate is saved, or it is no aggregate and is
itself in the group, or the vote is elsewhere and a failed save does not remove it from there. -/
def Keeps (i : Nat) : Prop :=
  match aggregateDisjointOneBitAtts scheme (groupOf c.unaggregatedAttestations id) with
  | .ok (some aggregated) =>
    if isAggregated aggregated then
      c.Saves scheme sorter room aggregated ∨
        ∀ c', c.saveAggregatedAttestations scheme sorter room aggregated = some c' →
          c.HeldApart (c'.under id) i
    else
      aggregated ∈ groupOf c.unaggregatedAttestations id ∨ c.HeldApart (c.under id) i
  | _ => c.HeldApart (c.under id) i

/-- What the group of a key makes of its caches and adds to the left-over set. -/
def Outcome (k : KeyCaches β id) (left : List (Att β δ)) : Prop :=
  match aggregateDisjointOneBitAtts scheme (groupOf c.unaggregatedAttestations id) with
  | .ok (some aggregated) =>
    if isAggregated aggregated then
      left = [] ∧ ∃ c', c.saveAggregatedAttestations scheme sorter room aggregated = some c' ∧
        k = c'.under id
    else left = [aggregated] ∧ k = c.under id
  | _ => left = [] ∧ k = c.under id

end Defs

section Votes

variable {c c' : AttCaches β δ} {id : DataId δ} {att : Att β δ} {i : Nat}

theorem holds_iff : c.Holds id i ↔ (∃ att ∈ c.unAggregatedAtt, dataId att = id ∧
    att.aggregationBits.has i = true) ∨ (c.under id).Holds i := by
  constructor
  · rintro ⟨att, hatt | ⟨id', hatt | hatt⟩, rfl, hi⟩
    · exact .inl ⟨att, hatt, rfl, hi⟩
    · obtain rfl := (c.under id').aggregated_key att hatt
      exact .inr (.inl ⟨att, hatt, hi⟩)
    · obtain rfl := (c.under id').block_key att hatt
      exact .inr (.inr ⟨att, hatt, hi⟩)
  · rintro (⟨att, hatt, hid, hi⟩ | ⟨att, hatt, hi⟩ | ⟨att, hatt, hi⟩)
    · exact ⟨att, .inl hatt, hid, hi⟩
    · exact ⟨att, .inr ⟨id, .inl hatt⟩, (c.under id).aggregated_key att hatt, hi⟩
    · exact ⟨att, .inr ⟨id, .inr hatt⟩, (c.under id).block_key att hatt, hi⟩

theorem mem_unaggregatedAttestations : att ∈ c.unaggregatedAttestations ↔
    att ∈ c.unAggregatedAtt ∧ att.committeeBits ≠ some 0 ∧
      (c.under (dataId att)).hasSeenBit att = .ok false := by
  unfold unaggregatedAttestations hasSeenBit newId
  rw [mem_filter, decide_eq_true_eq]
  split_ifs with hzero
  · simp [hzero, Except.mapError, bind, Except.bind]
  · simp [hzero, Except.mapError, bind, Except.bind]

theorem not_seen (hatt : att ∈ c.unaggregatedAttestations)
    (hi : att.aggregationBits.has i = true) : ¬ c.Seen (dataId att) i := by
  obtain ⟨hmem, -, hseen⟩ := mem_unaggregatedAttestations.1 hatt
  have hcount : att.aggregationBits.count ≤ 1 := by simpa [isAggregated] using c.single att hmem
  rintro ⟨bits, hbits, hbit⟩
  obtain ⟨list, hlist, -, hnot⟩ := containedIn_false hseen (some bits) (mem_map_of_mem hbits)
  obtain rfl := Option.some.inj hlist
  exact hnot fun j hj => Bitlist.has_unique hcount hi hj ▸ hbit

theorem mem_groupOf [DecidableEq δ] : att ∈ groupOf c.unaggregatedAttestations id ↔
    att ∈ c.unaggregatedAttestations ∧ dataId att = id := by
  simp [groupOf]

end Votes

section Groups

variable [DecidableEq δ] [AddCommMonoid σ] {scheme : SignatureScheme β σ} {sorter : CountSort β δ}
  {room : DataId δ → Bool} {c c₁ c' : AttCaches β δ} {id : DataId δ} {aggregated : Att β δ}
  {left left' : List (Att β δ)}

theorem saveAggregatedAttestations_local
    (hunder : c₁.under (dataId aggregated) = c.under (dataId aggregated))
    (h : c₁.saveAggregatedAttestations scheme sorter room aggregated = some c') :
    c'.unAggregatedAtt = c₁.unAggregatedAtt ∧
      (∀ id, id ≠ dataId aggregated → c'.under id = c₁.under id) ∧
      ∃ c₂, c.saveAggregatedAttestations scheme sorter room aggregated = some c₂ ∧
        c'.under (dataId aggregated) = c₂.under (dataId aggregated) := by
  unfold saveAggregatedAttestations at h ⊢
  split_ifs at h ⊢ with hkey
  · obtain rfl := Option.some.inj h
    exact ⟨rfl, fun _ _ => rfl, c, rfl, hunder⟩
  · obtain ⟨k, hk, rfl⟩ := Option.map_eq_some_iff.1 h
    rw [hunder] at hk
    refine ⟨rfl, fun id hid => ?_, c.put k, by rw [hk]; rfl, ?_⟩
    · exact Function.update_of_ne hid _ _
    · simp [put]

/-- One group works on the caches of its key and adds at most its own result to the left-over
set. -/
theorem aggregateGroup_outcome (hunder : c₁.under id = c.under id)
    (h : aggregateGroup scheme sorter room (c₁, left) (groupOf c.unaggregatedAttestations id) =
      some (c', left')) :
    c'.unAggregatedAtt = c₁.unAggregatedAtt ∧ (∀ id', id' ≠ id → c'.under id' = c₁.under id') ∧
      ∃ own, c.Outcome scheme sorter room id (c'.under id) own ∧ left' = own ++ left ∧
        ∀ a ∈ own, dataId a = id := by
  have hgroup : ∀ a ∈ groupOf c.unaggregatedAttestations id, dataId a = id :=
    fun a ha => (mem_groupOf.1 ha).2
  unfold aggregateGroup at h
  unfold Outcome
  cases hagg : aggregateDisjointOneBitAtts scheme (groupOf c.unaggregatedAttestations id) with
  | error e =>
    simp only [hagg, Option.some.injEq, Prod.mk.injEq] at h
    obtain ⟨rfl, rfl⟩ := h
    exact ⟨rfl, fun _ _ => rfl, [], ⟨rfl, hunder⟩, rfl, by simp⟩
  | ok agg =>
    cases agg with
    | none =>
      simp only [hagg, Option.some.injEq, Prod.mk.injEq] at h
      obtain ⟨rfl, rfl⟩ := h
      exact ⟨rfl, fun _ _ => rfl, [], ⟨rfl, hunder⟩, rfl, by simp⟩
    | some aggregated =>
      obtain ⟨rfl, -, -⟩ := aggregateDisjointOneBitAtts_eq_some hgroup hagg
      simp only [hagg] at h ⊢
      by_cases hmany : isAggregated aggregated = true
      · simp only [if_pos hmany] at h ⊢
        obtain ⟨c₂, hsave, hpair⟩ := Option.map_eq_some_iff.1 h
        cases hpair
        obtain ⟨hsame, hother, c₃, hc₃, hresult⟩ := saveAggregatedAttestations_local hunder hsave
        exact ⟨hsame, hother, [], ⟨rfl, c₃, hc₃, hresult⟩, rfl, by simp⟩
      · simp only [if_neg hmany, Option.some.injEq, Prod.mk.injEq] at h ⊢
        obtain ⟨rfl, rfl⟩ := h
        exact ⟨rfl, fun _ _ => rfl, [aggregated], ⟨rfl, hunder⟩, rfl, by simp⟩

/-- The loop over the groups. Each key meets its own group once. -/
theorem aggregateGroups_outcome {keys : List (DataId δ)} (hnodup : keys.Nodup)
    (hunder : ∀ id ∈ keys, c₁.under id = c.under id)
    (h : keys.foldlM (fun st id => aggregateGroup scheme sorter room st
      (groupOf c.unaggregatedAttestations id)) (c₁, left) = some (c', left')) :
    c'.unAggregatedAtt = c₁.unAggregatedAtt ∧ (∀ id, id ∉ keys → c'.under id = c₁.under id) ∧
      (∀ a, dataId a ∉ keys → (a ∈ left' ↔ a ∈ left)) ∧
      ∀ id ∈ keys, ∃ own, c.Outcome scheme sorter room id (c'.under id) own ∧
        ∀ a, dataId a = id → (a ∈ left' ↔ a ∈ own ∨ a ∈ left) := by
  induction keys generalizing c₁ left with
  | nil =>
    cases h
    exact ⟨rfl, fun _ _ => rfl, fun _ _ => Iff.rfl, by simp⟩
  | cons key keys ih =>
    rw [foldlM_cons, Option.bind_eq_bind, Option.bind_eq_some_iff] at h
    obtain ⟨⟨c₂, left₂⟩, hstep, hrest⟩ := h
    obtain ⟨hkey, hnodup⟩ := nodup_cons.1 hnodup
    obtain ⟨hsame, hother, own, houtcome, rfl, hown⟩ :=
      aggregateGroup_outcome (hunder key mem_cons_self) hstep
    have hne : ∀ id ∈ keys, id ≠ key := fun id hid heq => hkey (heq ▸ hid)
    obtain ⟨hsame', hother', hleft, houtcomes⟩ := ih hnodup (fun id hid =>
      (hother id (hne id hid)).trans (hunder id (mem_cons_of_mem _ hid))) hrest
    refine ⟨hsame'.trans hsame, fun id hid => ?_, fun a ha => ?_, fun id hid => ?_⟩
    · rw [mem_cons, not_or] at hid
      exact (hother' id hid.2).trans (hother id hid.1)
    · rw [mem_cons, not_or] at ha
      rw [hleft a ha.2, mem_append, or_iff_right fun hmem => ha.1 (hown a hmem)]
    · rcases mem_cons.1 hid with rfl | hid
      · refine ⟨own, (hother' id hkey).symm ▸ houtcome, fun a ha => ?_⟩
        rw [hleft a (ha ▸ hkey), mem_append]
      · obtain ⟨own', houtcome', hmem⟩ := houtcomes id hid
        refine ⟨own', houtcome', fun a ha => ?_⟩
        rw [hmem a ha, mem_append,
          or_iff_right fun hmem => hne id hid (ha.symm.trans (hown a hmem))]

end Groups

section Deletion

variable [DecidableEq β] [DecidableEq δ] {c : AttCaches β δ} {atts : List (Att β δ)}

/-- What a key has in its lists, apart from the bits that were seen. -/
def SameLists (c c' : AttCaches β δ) : Prop :=
  ∀ id, (c'.under id).aggregatedAtt = (c.under id).aggregatedAtt ∧
    (c'.under id).blockAtt = (c.under id).blockAtt

theorem deleteUnaggregatedAttestation_eq {att : Att β δ} (hatt : isAggregated att = false) :
    ∃ c', c.deleteUnaggregatedAttestation att = .ok c' ∧
      c'.unAggregatedAtt = c.unAggregatedAtt.erase att ∧ c.SameLists c' := by
  unfold deleteUnaggregatedAttestation
  simp only [hatt, Bool.false_eq_true, if_false]
  refine ⟨_, rfl, rfl, fun id => ?_⟩
  split_ifs
  · exact ⟨rfl, rfl⟩
  · split
    · exact ⟨rfl, rfl⟩
    · next k hk =>
      by_cases hid : id = dataId att
      · subst hid
        unfold KeyCaches.insertSeenBit at hk
        split at hk
        · cases hk
        · cases hk
          simp [put]
        · cases hk
          simp [put]
      · simp [put, Function.update_of_ne hid]

theorem deleteLoop_spec (c : AttCaches β δ) (leftOver : List (Att β δ))
    (hatts : ∀ a ∈ atts, isAggregated a = false) :
    ∃ c', deleteLoop leftOver atts c = (c', .ok ()) ∧ c.SameLists c' ∧
      ∀ a, a ∈ c'.unAggregatedAtt ↔ a ∈ c.unAggregatedAtt ∧ (a ∈ atts → a ∈ leftOver) := by
  induction atts generalizing c with
  | nil => exact ⟨c, rfl, fun _ => ⟨rfl, rfl⟩, by simp⟩
  | cons att atts ih =>
    have hrest : ∀ a ∈ atts, isAggregated a = false :=
      fun a ha => hatts a (mem_cons_of_mem _ ha)
    unfold deleteLoop
    split_ifs with hleft
    · obtain ⟨c', hc', hlists, hmem⟩ := ih c hrest
      refine ⟨c', hc', hlists, fun a => ?_⟩
      rw [hmem]
      grind
    · obtain ⟨c₁, hc₁, herase, hlists₁⟩ :=
        c.deleteUnaggregatedAttestation_eq (hatts att mem_cons_self)
      obtain ⟨c', hc', hlists, hmem⟩ := ih c₁ hrest
      simp only [hc₁]
      refine ⟨c', hc', fun id => ⟨(hlists id).1.trans (hlists₁ id).1,
        (hlists id).2.trans (hlists₁ id).2⟩, fun a => ?_⟩
      rw [hmem, herase, c.nodup.mem_erase_iff]
      grind

end Deletion

section Main

variable {c c' : AttCaches β δ} {att aggregated : Att β δ} {i : Nat}

theorem mapM_newId (atts : List (Att β δ)) (h : ∀ a ∈ atts, a.committeeBits ≠ some 0) :
    ∃ ids, atts.mapM newId = .ok ids := by
  induction atts with
  | nil => exact ⟨[], rfl⟩
  | cons att atts ih =>
    obtain ⟨ids, hids⟩ := ih fun a ha => h a (mem_cons_of_mem _ ha)
    refine ⟨dataId att :: ids, ?_⟩
    rw [mapM_cons, hids, newId, if_neg (h att mem_cons_self)]
    rfl

variable [DecidableEq δ] [AddCommMonoid σ] {scheme : SignatureScheme β σ} {sorter : CountSort β δ}
  {room : DataId δ → Bool}

theorem saveAggregatedAttestations_of_saves (hmany : isAggregated aggregated = true)
    (hkey : aggregated.committeeBits ≠ some 0) (hsaves : c.Saves scheme sorter room aggregated)
    (h : c.saveAggregatedAttestations scheme sorter room aggregated = some c')
    (hseen : (c.under (dataId aggregated)).hasSeenBit aggregated ≠ .ok true)
    (hi : aggregated.aggregationBits.has i = true) : (c'.under (dataId aggregated)).Holds i := by
  unfold saveAggregatedAttestations at h
  simp only [hmany, hkey, decide_false, Bool.not_true, Bool.or_self, Bool.false_eq_true,
    if_false] at h
  obtain ⟨k, hk, rfl⟩ := Option.map_eq_some_iff.1 h
  have hpair : (c.under (dataId aggregated)).saveAggregatedAttestation scheme sorter
      (room (dataId aggregated)) aggregated rfl = (_, .ok ()) := Prod.ext rfl hsaves
  unfold KeyCaches.saveAggregatedAttestations at hk
  rw [hpair] at hk
  obtain rfl := Option.some.inj hk
  have hholds := KeyCaches.saveAggregatedAttestation_ok hpair hseen hi
  simpa [put] using hholds

/-- After the group of a key a vote of it is elsewhere or in what is left over of the group just
if the group keeps it. -/
theorem Outcome.keeps_iff {k : KeyCaches β (dataId att)} {own : List (Att β δ)}
    (h : c.Outcome scheme sorter room (dataId att) k own)
    (hatt : att ∈ c.unaggregatedAttestations) (hi : att.aggregationBits.has i = true) :
    (c.HeldApart k i ∨ ∃ a ∈ groupOf c.unaggregatedAttestations (dataId att), a ∈ own ∧
      a.aggregationBits.has i = true) ↔ c.Keeps scheme sorter room (dataId att) i := by
  have hmem : att ∈ groupOf c.unaggregatedAttestations (dataId att) := mem_groupOf.2 ⟨hatt, rfl⟩
  unfold Outcome at h
  unfold Keeps
  split at h
  · next aggregated hagg =>
    obtain ⟨hkey, hlen, hbits⟩ :=
      aggregateDisjointOneBitAtts_eq_some (fun a ha => (mem_groupOf.1 ha).2) hagg
    have hiagg : aggregated.aggregationBits.has i = true := (hbits i).2 ⟨att, hmem, hi⟩
    by_cases hmany : isAggregated aggregated = true
    · rw [if_pos hmany] at h ⊢
      obtain ⟨rfl, c₂, hsave, rfl⟩ := h
      have hsaved : c.Saves scheme sorter room aggregated → c.HeldApart (c₂.under (dataId att)) i := by
        intro hsaves
        obtain ⟨-, hvalid, hseen⟩ := mem_unaggregatedAttestations.1 hatt
        refine .inr (hkey ▸ saveAggregatedAttestations_of_saves hmany ?_ hsaves hsave ?_ hiagg)
        · exact (congrArg DataId.committeeBits hkey).trans_ne hvalid
        · -- The aggregate was not seen because the attestation was not.
          intro htrue
          rw [hkey] at htrue
          have hatt' := containedIn_mono (hlen att hmem) (fun j hj => (hbits j).2 ⟨att, hmem, hj⟩) htrue
          rw [KeyCaches.hasSeenBit, hatt'] at hseen
          cases hseen
      constructor
      · rintro (hheld | ⟨a, -, ha, -⟩)
        · refine .inr fun c₃ hc₃ => ?_
          obtain rfl := Option.some.inj (hsave.symm.trans hc₃)
          exact hheld
        · exact absurd ha not_mem_nil
      · rintro (hsaves | hheld)
        · exact .inl (hsaved hsaves)
        · exact .inl (hheld c₂ hsave)
    · rw [if_neg hmany] at h ⊢
      obtain ⟨rfl, rfl⟩ := h
      constructor
      · rintro (hheld | ⟨a, ha, hown, -⟩)
        · exact .inr hheld
        · exact .inl (mem_singleton.1 hown ▸ ha)
      · rintro (hgroup | hheld)
        · exact .inr ⟨aggregated, hgroup, mem_singleton_self _, hiagg⟩
        · exact .inl hheld
  · obtain ⟨rfl, rfl⟩ := h
    simp

variable [DecidableEq β]

/-- The call returns no error, and keeps the votes of the unaggregated attestations just if the
group of each vote keeps it. -/
theorem aggregateUnaggregatedAttestations_keeps_iff
    (order : GroupOrder c.unaggregatedAttestations) {err : Except Error Unit}
    (hrun : c.aggregateUnaggregatedAttestations scheme sorter room order = some (c', err)) :
    err = .ok () ∧ (c.VotesKept c' ↔ ∀ att ∈ c.unaggregatedAttestations, ∀ i,
      att.aggregationBits.has i = true → c.Keeps scheme sorter room (dataId att) i) := by
  obtain ⟨ids, hids⟩ := mapM_newId c.unaggregatedAttestations
    fun a ha => (mem_unaggregatedAttestations.1 ha).2.1
  unfold aggregateUnaggregatedAttestations at hrun
  simp only [hids, Option.bind_eq_bind, Option.bind_eq_some_iff] at hrun
  obtain ⟨⟨c₁, leftOver⟩, hgroups, hdelete⟩ := hrun
  obtain ⟨hsame, -, -, houtcomes⟩ := aggregateGroups_outcome order.nodup (fun _ _ => rfl) hgroups
  obtain ⟨c₂, hc₂, hlists, hmem⟩ := deleteLoop_spec c₁ leftOver
    fun a ha => c.single a (mem_unaggregatedAttestations.1 ha).1
  cases Option.some.inj (hdelete.symm.trans (congrArg some hc₂))
  refine ⟨rfl, forall₂_congr fun att hatt => forall₂_congr fun i hi => ?_⟩
  obtain ⟨own, houtcome, hown⟩ := houtcomes (dataId att) ((order.mem_iff _).2 ⟨att, hatt, rfl⟩)
  rw [or_iff_left (not_seen hatt hi), ← houtcome.keeps_iff hatt hi, holds_iff, HeldApart]
  have hkey : (c'.under (dataId att)).Holds i ↔ (c₁.under (dataId att)).Holds i := by
    rw [KeyCaches.Holds, KeyCaches.Holds, (hlists _).1, (hlists _).2]
  -- An unaggregated attestation is still there if it was not returned or is left over.
  have hun : (∃ a ∈ c'.unAggregatedAtt, dataId a = dataId att ∧ a.aggregationBits.has i = true) ↔
      (∃ a ∈ c.unAggregatedAtt, a ∉ c.unaggregatedAttestations ∧ dataId a = dataId att ∧
        a.aggregationBits.has i = true) ∨
      ∃ a ∈ groupOf c.unaggregatedAttestations (dataId att), a ∈ own ∧
        a.aggregationBits.has i = true := by
    constructor
    · rintro ⟨a, ha, hid, hai⟩
      rw [hmem, hsame] at ha
      by_cases hreturned : a ∈ c.unaggregatedAttestations
      · refine .inr ⟨a, mem_groupOf.2 ⟨hreturned, hid⟩, ?_, hai⟩
        simpa using (hown a hid).1 (ha.2 hreturned)
      · exact .inl ⟨a, ha.1, hreturned, hid, hai⟩
    · rintro (⟨a, ha, hreturned, hid, hai⟩ | ⟨a, ha, haown, hai⟩)
      · exact ⟨a, (hmem a).2 ⟨hsame ▸ ha, fun h => absurd h hreturned⟩, hid, hai⟩
      · obtain ⟨hreturned, hid⟩ := mem_groupOf.1 ha
        refine ⟨a, (hmem a).2 ⟨hsame ▸ (mem_unaggregatedAttestations.1 hreturned).1, fun _ => ?_⟩,
          hid, hai⟩
        exact (hown a hid).2 (.inl haown)
  rw [hkey, hun, or_right_comm]

end Main

end AttCaches

section Two

open AttCaches

/-- Signatures of bytes that are not zero. -/
def nonZeroSignatures : SignatureScheme Nat Nat where
  signatureFromBytes b := if b = 0 then none else some b
  marshal := id

def voteOf (bits : Bitlist) (signature : Nat) : Att Nat Nat := ⟨bits, 7, none, signature⟩

def twoVotes (signature : Nat) : AttCaches Nat Nat where
  unAggregatedAtt := [voteOf [true, false] 1, voteOf [false, true] signature]
  under _ := ⟨[], [], [], nofun, nofun⟩
  nodup := by simp [voteOf]
  single := by simp [voteOf, isAggregated, Bitlist.count]

theorem twoVotes_unaggregatedAttestations (signature : Nat) :
    (twoVotes signature).unaggregatedAttestations = (twoVotes signature).unAggregatedAtt := rfl

def twoVotesOrder (signature : Nat) : GroupOrder (twoVotes signature).unaggregatedAttestations where
  keys := [⟨7, none⟩]
  nodup := by simp
  mem_iff id := by
    rw [twoVotes_unaggregatedAttestations]
    simp [twoVotes, voteOf, dataId, eq_comm]

theorem aggregateUnaggregatedAttestations_keeps_iff_two : ∃ c',
    (twoVotes 2).aggregateUnaggregatedAttestations nonZeroSignatures stableSort (fun _ => false)
      (twoVotesOrder 2) = some (c', .ok ()) ∧
    ((twoVotes 2).VotesKept c' ↔ ∀ att ∈ (twoVotes 2).unaggregatedAttestations, ∀ i,
      att.aggregationBits.has i = true →
        (twoVotes 2).Keeps nonZeroSignatures stableSort (fun _ => false) (dataId att) i) :=
  ⟨_, rfl, (aggregateUnaggregatedAttestations_keeps_iff (twoVotesOrder 2) rfl).2⟩

/-- The signature of the second attestation cannot be read, and both attestations are deleted. -/
theorem votes_lost_with_group : ∃ c',
    (twoVotes 0).aggregateUnaggregatedAttestations nonZeroSignatures stableSort (fun _ => false)
      (twoVotesOrder 0) = some (c', .ok ()) ∧
    c'.unAggregatedAtt = [] ∧ ¬ (twoVotes 0).VotesKept c' := by
  refine ⟨_, rfl, rfl, fun hkept => ?_⟩
  have hatt : voteOf [true, false] 1 ∈ (twoVotes 0).unaggregatedAttestations := by
    rw [twoVotes_unaggregatedAttestations]
    exact mem_cons_self
  have hheld := (hkept _ hatt 0 rfl).resolve_right (not_seen hatt rfl)
  rcases holds_iff.1 hheld with ⟨a, ha, -⟩ | ⟨a, ha, -⟩ | ⟨a, ha, -⟩ <;> exact nomatch ha

end Two

end LightChain.AttestationPool
