import LightChain.Library.Leading

/-!
# Holes in an array

An array in which some entries are cleared is made dense again by swapping each hole with the
last entry that is not one. `pushHoles` does it for the holes at ascending positions, with the
same swaps on a second array. The entries are only moved, and those before the holes stay.
-/
namespace LightChain.Library
open List

variable {α β : Type*}

def swapAt (xs : List α) (i j : Nat) : List α :=
  match xs[i]?, xs[j]? with
  | some x, some y => (xs.set i y).set j x
  | _, _ => xs

/-- Go down from an index over holes, but not below the bound. -/
def lowerLast (xs : List (Option α)) (bound : Nat) : Nat → Nat
  | 0 => 0
  | last + 1 =>
    if bound < last + 1 ∧ (xs[last + 1]?).any Option.isNone then lowerLast xs bound last
    else last + 1

def pushHoles : List Nat → Nat → List (Option α) → List β → List (Option α) × List β
  | [], _, xs, ys => (xs, ys)
  | hole :: holes, last, xs, ys =>
    let last := lowerLast xs hole last
    if hole = last then (xs, ys)
    else pushHoles holes last (swapAt xs hole last) (swapAt ys hole last)

def clearAt (xs : List (Option α)) (keys : List Nat) : List (Option α) :=
  keys.foldl (fun xs k => xs.set k none) xs

section Swap

variable {xs : List α} {i j k : Nat}

theorem swapAt_eq (hi : i < xs.length) (hj : j < xs.length) :
    swapAt xs i j = (xs.set i xs[j]).set j xs[i] := by
  unfold swapAt
  rw [getElem?_eq_getElem hi, getElem?_eq_getElem hj]

theorem swapAt_perm (hi : i < xs.length) (hj : j < xs.length) : (swapAt xs i j).Perm xs := by
  rw [swapAt_eq hi hj]
  exact set_set_perm hi hj

@[simp] theorem length_swapAt : (swapAt xs i j).length = xs.length := by
  unfold swapAt
  split <;> simp

theorem getElem?_swapAt (hi : i < xs.length) (hj : j < xs.length) :
    (swapAt xs i j)[k]? = if k = j then xs[i]? else if k = i then xs[j]? else xs[k]? := by
  rw [swapAt_eq hi hj]
  grind

theorem Leads.swapAt {os : List (Option α)} {bs : List α} (h : Leads os bs) (hi : i < bs.length)
    (hj : j < bs.length) : Leads (swapAt os i j) (swapAt bs i j) := by
  obtain ⟨n, rfl⟩ := h
  refine ⟨n, ?_⟩
  rw [swapAt_eq (by simp; omega) (by simp; omega), swapAt_eq hi hj]
  simp [hi, hj, set_append_left, map_set, getElem_append_left]

/-- The entries of the second array from a position on are related to those of the first. -/
structure RelatedFrom (R : α → β → Prop) (a : Nat) (xs : List α) (ys : List β) : Prop where
  length : ys.length = xs.length
  rel : ∀ i x y, a ≤ i → xs[i]? = some x → ys[i]? = some y → R x y

theorem RelatedFrom.swapAt {R : α → β → Prop} {a : Nat} {ys : List β} (h : RelatedFrom R a xs ys)
    (hai : a ≤ i) (haj : a ≤ j) (hi : i < xs.length) (hj : j < xs.length) :
    RelatedFrom R a (swapAt xs i j) (swapAt ys i j) where
  length := by simpa using h.length
  rel k x y hk hx hy := by
    rw [getElem?_swapAt hi hj] at hx
    rw [getElem?_swapAt (h.length ▸ hi) (h.length ▸ hj)] at hy
    split_ifs at hx hy
    · exact h.rel _ x y hai hx hy
    · exact h.rel _ x y haj hx hy
    · exact h.rel k x y hk hx hy

end Swap

section Clear

variable {xs : List (Option α)} {x : α} {k : Nat} {keys : List Nat}

@[simp] theorem length_clearAt : (clearAt xs keys).length = xs.length := by
  unfold clearAt
  induction keys generalizing xs with
  | nil => rfl
  | cons k keys ih => rw [foldl_cons, ih, length_set]

theorem getElem?_clearAt {i : Nat} : (clearAt xs keys)[i]? =
    if i ∈ keys ∧ i < xs.length then some none else xs[i]? := by
  unfold clearAt
  induction keys generalizing xs with
  | nil => simp
  | cons k keys ih =>
    rw [foldl_cons, ih, length_set, getElem?_set]
    grind

theorem filterMap_set_none (hk : xs[k]? = some (some x)) :
    (xs.filterMap id).Perm (x :: (xs.set k none).filterMap id) := by
  induction xs generalizing k with
  | nil => simp at hk
  | cons y ys ih =>
    cases k with
    | zero =>
      obtain rfl : y = some x := by simpa using hk
      simp
    | succ k =>
      have hperm := ih (k := k) (by simpa using hk)
      cases y with
      | none => simpa using hperm
      | some y =>
        simp only [filterMap_cons, id, set_cons_succ]
        exact (hperm.cons y).trans (List.Perm.swap x y _)

theorem filterMap_clearAt {vals : List α} (hnodup : keys.Nodup)
    (hvals : keys.map (xs[·]?) = vals.map fun x => some (some x)) :
    (xs.filterMap id).Perm (vals ++ (clearAt xs keys).filterMap id) := by
  induction keys generalizing xs vals with
  | nil =>
    obtain rfl : vals = [] := by simpa using hvals.symm
    exact List.Perm.refl _
  | cons k keys ih =>
    obtain ⟨hnot, hnodup⟩ := nodup_cons.1 hnodup
    cases vals with
    | nil => simp at hvals
    | cons x vals =>
      simp only [map_cons, cons.injEq] at hvals
      have hrest : keys.map ((xs.set k none)[·]?) = vals.map fun x => some (some x) := by
        rw [← hvals.2]
        refine map_congr_left fun k' hk' => getElem?_set_ne ?_
        rintro rfl
        exact hnot hk'
      exact (filterMap_set_none hvals.1).trans ((ih hnodup hrest).cons x)

end Clear

section Push

variable {xs : List (Option α)} {ys : List β} {holes : List Nat} {last a : Nat}

theorem lowerLast_spec (xs : List (Option α)) (bound last : Nat) :
    lowerLast xs bound last ≤ last ∧
      (∀ i, lowerLast xs bound last < i → i ≤ last → xs[i]? = some none) ∧
      (bound ≤ last → bound ≤ lowerLast xs bound last) ∧
      (last < bound → lowerLast xs bound last = last) ∧
      (bound < lowerLast xs bound last → xs[lowerLast xs bound last]? ≠ some none) := by
  induction last with
  | zero =>
    exact ⟨le_rfl, by omega, fun h => h, fun _ => rfl, fun h => absurd h (by simp [lowerLast])⟩
  | succ last ih =>
    unfold lowerLast
    have hhole : ((xs[last + 1]?).any Option.isNone = true) ↔ xs[last + 1]? = some none := by
      rw [Option.any_eq_true]
      simp
    split_ifs with h
    · obtain ⟨hle, hpassed, hbound, hsame, hstop⟩ := ih
      refine ⟨by omega, fun i hi hi' => ?_, fun _ => hbound (by omega), by omega, hstop⟩
      rcases Nat.eq_or_lt_of_le hi' with rfl | hlt
      · exact hhole.1 h.2
      · exact hpassed i hi (by omega)
    · refine ⟨le_rfl, by omega, fun h => h, fun _ => rfl, fun hlt heq => ?_⟩
      exact h ⟨hlt, hhole.2 heq⟩

/-- What holds between the swaps. `holes` are those still to be pushed. -/
structure Pushing (a : Nat) (holes : List Nat) (last : Nat) (xs : List (Option α)) : Prop where
  last_lt : last < xs.length
  low : a ≤ last
  ascending : holes.Pairwise (· < ·)
  hole : ∀ k ∈ holes, a ≤ k ∧ xs[k]? = some none
  known : ∀ i, xs[i]? = some none → i ∈ holes ∨ last ≤ i
  above : ∀ i, last < i → i < xs.length → xs[i]? = some none
  free : xs[last]? = some none ∨ ∀ k ∈ holes, k ≤ last

/-- After a hole there are only holes. -/
def HolesLast (xs : List (Option α)) : Prop :=
  ∀ i j, i < j → j < xs.length → xs[i]? = some none → xs[j]? = some none

theorem HolesLast.leads (h : HolesLast xs) : Leads xs (xs.filterMap id) := by
  induction xs with
  | nil => exact ⟨0, rfl⟩
  | cons x xs ih =>
    cases x with
    | some x =>
      obtain ⟨n, hn⟩ := ih fun i j hij hj hi => by
        simpa using h (i + 1) (j + 1) (by omega) (by simpa using hj) (by simpa using hi)
      refine ⟨n, ?_⟩
      rw [filterMap_cons_some (f := id) rfl, map_cons, cons_append, ← hn]
    | none =>
      have hall : xs = List.replicate xs.length none := by
        refine eq_replicate_iff.2 ⟨rfl, fun y hy => ?_⟩
        obtain ⟨j, hj, rfl⟩ := getElem_of_mem hy
        simpa [hj] using h 0 (j + 1) (by omega) (by simpa using hj) rfl
      refine ⟨xs.length + 1, ?_⟩
      rw [hall]
      simp [replicate_succ]

theorem Pushing.holesLast (h : Pushing a holes last xs) (hdone : ∀ k ∈ holes, last ≤ k) :
    HolesLast xs := by
  intro i j hij hj hi
  have hle : last ≤ i := (h.known i hi).elim (hdone i) id
  exact h.above j (hle.trans_lt hij) hj

theorem Pushing.swap {hole : Nat} (h : Pushing a (hole :: holes) last xs)
    (hne : hole ≠ lowerLast xs hole last) :
    Pushing a holes (lowerLast xs hole last) (swapAt xs hole (lowerLast xs hole last)) := by
  obtain ⟨hle, hpassed, hbound, hsame, hstop⟩ := lowerLast_spec xs hole last
  obtain ⟨hrest, hasc⟩ := pairwise_cons.1 h.ascending
  obtain ⟨hlow, hhole⟩ := h.hole hole mem_cons_self
  generalize lowerLast xs hole last = l at *
  have hlt : hole < xs.length := (List.getElem?_eq_some_iff.1 hhole).1
  have hl : l < xs.length := hle.trans_lt h.last_lt
  -- If the last entry is below the hole, it is a hole itself and the swap does nothing.
  have hbelow (hlh : l < hole) : l = last ∧ xs[l]? = some none := by
    have hlast : last < hole := by
      by_contra hge
      exact absurd (hbound (by omega)) (by omega)
    have heq := hsame hlast
    refine ⟨heq, ?_⟩
    rw [heq]
    exact h.free.resolve_right fun hall =>
      absurd (hall hole mem_cons_self) (by omega)
  refine ⟨by simpa using hl, ?_, hasc, fun k hk => ⟨(h.hole k (.tail _ hk)).1, ?_⟩,
    fun i hi => ?_, fun i hi hilen => ?_, .inl ?_⟩
  · by_cases hcase : hole ≤ last
    · exact hlow.trans (hbound hcase)
    · rw [hsame (by omega)]
      exact h.low
  · rw [getElem?_swapAt hlt hl]
    have hk' := (h.hole k (.tail _ hk)).2
    have hkne : k ≠ hole := (hrest k hk).ne'
    split_ifs
    · exact hhole
    · exact hk'
  · rw [getElem?_swapAt hlt hl] at hi
    split_ifs at hi with hil hih
    · exact .inr (le_of_eq hil.symm)
    · by_cases hlh : l < hole
      · exact .inr (by omega)
      · exact absurd hi (hstop (by omega))
    · rcases h.known i hi with hmem | hge
      · rcases mem_cons.1 hmem with rfl | hmem
        · exact absurd rfl hih
        · exact .inl hmem
      · exact .inr (hle.trans hge)
  · rw [getElem?_swapAt hlt hl, if_neg (by omega : ¬ i = l)]
    rw [length_swapAt] at hilen
    split_ifs with hih
    · exact (hbelow (by omega)).2
    · by_cases hile : i ≤ last
      · exact hpassed i hi hile
      · exact h.above i (by omega) hilen
  · rw [getElem?_swapAt hlt hl, if_pos rfl]
    exact hhole

/-- The values are moved and in front, the entries below the bound are as before, and the second
array follows the first. -/
theorem Pushing.pushHoles {R : Option α → β → Prop} (h : Pushing a holes last xs)
    (hR : RelatedFrom R a xs ys) :
    let result := pushHoles holes last xs ys
    result.1.Perm xs ∧ HolesLast result.1 ∧ (∀ i, i < a → result.1[i]? = xs[i]?) ∧
      RelatedFrom R a result.1 result.2 := by
  induction holes generalizing last xs ys with
  | nil => exact ⟨.refl _, h.holesLast (by simp), fun _ _ => rfl, hR⟩
  | cons hole holes ih =>
    obtain ⟨hle, hpassed, hbound, hsame, -⟩ := lowerLast_spec xs hole last
    obtain ⟨hrest, -⟩ := pairwise_cons.1 h.ascending
    obtain ⟨hlow, hhole⟩ := h.hole hole mem_cons_self
    have hlt : hole < xs.length := (List.getElem?_eq_some_iff.1 hhole).1
    unfold LightChain.Library.pushHoles
    simp only
    split_ifs with heq
    · refine ⟨.refl _, ?_, fun _ _ => rfl, hR⟩
      intro i j hij hj hi
      have hge : hole ≤ i := by
        rcases h.known i hi with hmem | hge
        · rcases mem_cons.1 hmem with rfl | hmem
          · exact le_rfl
          · exact (hrest i hmem).le
        · omega
      by_cases hjl : j ≤ last
      · exact hpassed j (by omega) hjl
      · exact h.above j (by omega) hj
    · have hnext := h.swap heq
      have hl : lowerLast xs hole last < xs.length := hle.trans_lt h.last_lt
      have hal := hnext.low
      obtain ⟨hperm, hholes, hinitial, hrel⟩ := ih hnext (hR.swapAt hlow hal hlt hl)
      refine ⟨hperm.trans (swapAt_perm hlt hl), hholes, fun i hi => ?_, hrel⟩
      rw [hinitial i hi, getElem?_swapAt hlt hl, if_neg (by omega), if_neg (by omega)]

theorem lowerLast_skip {bound m : Nat} (hbound : bound ≤ m) (hm : m ≤ last)
    (hholes : ∀ i, m < i → i ≤ last → xs[i]? = some none) :
    lowerLast xs bound last = lowerLast xs bound m := by
  induction last with
  | zero =>
    obtain rfl : m = 0 := by omega
    rfl
  | succ last ih =>
    rcases Nat.eq_or_lt_of_le hm with rfl | hlt
    · rfl
    · have hhole : (xs[last + 1]?).any Option.isNone = true := by
        rw [hholes (last + 1) hlt le_rfl]
        rfl
      rw [lowerLast, if_pos ⟨by omega, hhole⟩]
      exact ih (by omega) fun i hi hi' => hholes i hi (by omega)

theorem pushHoles_leads {bs : List α} (hleads : Leads xs bs) (hne : holes ≠ [])
    (hholes : ∀ k ∈ holes, k < bs.length) :
    pushHoles holes (xs.length - 1) (clearAt xs holes) ys =
      pushHoles holes (bs.length - 1) (clearAt xs holes) ys := by
  obtain ⟨hole, rest, rfl⟩ := exists_cons_of_ne_nil hne
  have hlt := hholes hole mem_cons_self
  have hskip : lowerLast (clearAt xs (hole :: rest)) hole (xs.length - 1) =
      lowerLast (clearAt xs (hole :: rest)) hole (bs.length - 1) := by
    refine lowerLast_skip (by omega) (Nat.sub_le_sub_right hleads.length_le 1) fun i hi hi' => ?_
    obtain ⟨n, rfl⟩ := hleads
    rw [getElem?_clearAt]
    grind
  unfold pushHoles
  rw [hskip]

theorem Leads.pushing {bs : List α} (hleads : Leads xs bs) (hasc : holes.Pairwise (· < ·))
    (hne : holes ≠ []) (hholes : ∀ k ∈ holes, a ≤ k ∧ k < bs.length) :
    Pushing a holes (bs.length - 1) (clearAt xs holes) := by
  obtain ⟨hole, hmem⟩ := exists_mem_of_ne_nil _ hne
  have hfirst := hholes hole hmem
  have hle := hleads.length_le
  have hvalue : ∀ i, i < bs.length → xs[i]? ≠ some none := by
    obtain ⟨n, rfl⟩ := hleads
    grind
  have htail : ∀ i, bs.length ≤ i → i < xs.length → xs[i]? = some none := by
    obtain ⟨n, rfl⟩ := hleads
    grind
  refine ⟨by rw [length_clearAt]; omega, by omega, hasc, fun k hk => ⟨(hholes k hk).1, ?_⟩,
    fun i hi => ?_, fun i hi hilen => ?_, .inr fun k hk => ?_⟩
  · rw [getElem?_clearAt, if_pos ⟨hk, (hholes k hk).2.trans_le hle⟩]
  · rw [getElem?_clearAt] at hi
    split_ifs at hi with hclear
    · exact .inl hclear.1
    · refine .inr ?_
      by_contra hlt
      exact hvalue i (by omega) hi
  · rw [length_clearAt] at hilen
    rw [getElem?_clearAt]
    split_ifs
    · rfl
    · exact htail i (by omega) hilen
  · have := (hholes k hk).2
    omega

theorem lt_of_map_getElem? {bs vals : List α} {keys : List Nat}
    (hvals : keys.map (bs[·]?) = vals.map some) {k : Nat} (hk : k ∈ keys) : k < bs.length := by
  have hmem : bs[k]? ∈ vals.map some := hvals ▸ mem_map_of_mem hk
  obtain ⟨x, -, hx⟩ := mem_map.1 hmem
  exact (List.getElem?_eq_some_iff.1 hx.symm).1

theorem Leads.map_getElem? {bs vals : List α} {keys : List Nat} (h : Leads xs bs)
    (hvals : keys.map (bs[·]?) = vals.map some) :
    keys.map (xs[·]?) = vals.map fun x => some (some x) := by
  have hmap : vals.map (fun x => some (some x)) = (vals.map some).map (Option.map some) := by
    simp
  rw [hmap, ← hvals, map_map]
  refine map_congr_left fun k hk => ?_
  obtain ⟨n, rfl⟩ := h
  simp [getElem?_append_left, lt_of_map_getElem? hvals hk]

/-- Entries of a dense array are cleared and the array is made dense again: the values that are
left are the others, and a second array still has their images. -/
theorem Leads.removeAt {bs vals : List α} {keys : List Nat} {f : α → β} {ys : List (Option β)}
    (hleads : Leads xs bs) (hf : RelatedFrom (fun x y => y = x.map f) a xs ys)
    (hasc : keys.Pairwise (· < ·)) (hne : keys ≠ []) (hlow : ∀ k ∈ keys, a ≤ k)
    (hvals : keys.map (bs[·]?) = vals.map some) :
    let result := pushHoles keys (xs.length - 1) (clearAt xs keys) (clearAt ys keys)
    ∃ bs', Leads result.1 bs' ∧ bs.Perm (vals ++ bs') ∧ bs'.take a = bs.take a ∧
      RelatedFrom (fun x y => y = x.map f) a result.1 result.2 := by
  have hkeys : ∀ k ∈ keys, a ≤ k ∧ k < bs.length :=
    fun k hk => ⟨hlow k hk, lt_of_map_getElem? hvals hk⟩
  have hcleared : RelatedFrom (fun x y => y = x.map f) a (clearAt xs keys) (clearAt ys keys) := by
    refine ⟨by simpa using hf.length, fun i x y hi hx hy => ?_⟩
    rw [getElem?_clearAt] at hx hy
    rw [hf.length] at hy
    split_ifs at hx hy with hclear
    · cases hx
      cases hy
      rfl
    · exact hf.rel i x y hi hx hy
  obtain ⟨hperm, hholes, hinitial, hrel⟩ :=
    (hleads.pushing hasc hne hkeys).pushHoles hcleared
  rw [← pushHoles_leads hleads hne fun k hk => (hkeys k hk).2] at hperm hholes hinitial hrel
  have hvalues : xs.filterMap id = bs := by
    obtain ⟨n, rfl⟩ := hleads
    simp [filterMap_append, filterMap_map]
  refine ⟨_, hholes.leads, ?_, ?_, hrel⟩
  · have hclear := filterMap_clearAt (hasc.imp fun h => h.ne) (hleads.map_getElem? hvals)
    rw [hvalues] at hclear
    exact hclear.trans ((hperm.symm.filterMap id).append_left vals)
  · refine ext_getElem? fun i => ?_
    rw [getElem?_take, getElem?_take]
    split_ifs with hi
    · rw [← hholes.leads.getElem?, ← hleads.getElem?, hinitial i hi, getElem?_clearAt, if_neg]
      exact fun hmem => absurd (hlow i hmem.1) (Nat.not_le.2 hi)
    · rfl

end Push

end LightChain.Library
