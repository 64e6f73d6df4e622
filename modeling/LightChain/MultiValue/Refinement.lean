import LightChain.Library.Run
import LightChain.MultiValue.Slice

/-!
# Objects of a multi-value slice own their lists

`Owned` is what a slice is for: a list for every object. `Represents` connects it with the
slice. An object has its appended values in the first items of `appendedItems`, one after the
other, which is what the loops that stop early rely on, and its cached length counts them. An
individual value always differs from the shared one, so an object that reads the shared items
has left no trace.

`slices_refine` is the result for whole runs.
-/
namespace LightChain.MultiValue
open Library List Function Fibres Slice

variable {V : Type}

/-- The shared items, and the list of each object. -/
structure Owned (V : Type) where
  shared : List V
  lists : Id → List V

namespace Owned

def init (items : List V) : Owned V := ⟨items, fun _ => items⟩

variable (m : Owned V)

def copy (src dst : Id) : Owned V :=
  { m with lists := Function.update m.lists dst (m.lists src) }

def updateAt (obj : Id) (index : Nat) (val : V) : Owned V :=
  { m with lists := Function.update m.lists obj ((m.lists obj).set index val) }

def append (obj : Id) (val : V) : Owned V :=
  { m with lists := Function.update m.lists obj (m.lists obj ++ [val]) }

def detach (obj : Id) : Owned V :=
  { m with lists := Function.update m.lists obj m.shared }

def reset (obj : Id) : Owned V := init (m.lists obj)

/-- The object reads the shared items, as one that was never used or that was detached. -/
def Fresh (obj : Id) : Prop := m.lists obj = m.shared

end Owned

section Representation

/-- The list of an object: its original items and the values that it appended. -/
def Holds (s : Slice V) (obj : Id) (list : List V) : Prop :=
  ∃ added, list = s.originalItems obj ++ added ∧
    Leads (s.appendedItems.map (Fibres.get obj)) added ∧
    s.cachedLengths obj = if added = [] then none else some (s.sharedItems.length + added.length)

structure Represents (s : Slice V) (m : Owned V) : Prop where
  shared : s.sharedItems = m.shared
  individual_wf : ∀ i item, s.individualItems i = some item → item.Wf
  individual_ne : ∀ obj i v, s.individual obj i = some v → s.sharedItems[i]? ≠ some v
  appended_wf : ∀ item ∈ s.appendedItems, item.Wf
  holds : ∀ obj, Holds s obj (m.lists obj)

variable {s : Slice V} {m : Owned V} {obj src dst : Id}

@[simp] theorem length_originalItems (s : Slice V) (obj : Id) :
    (s.originalItems obj).length = s.sharedItems.length := by
  simp [originalItems]

theorem getElem?_originalItems (s : Slice V) (obj : Id) (i : Nat) :
    (s.originalItems obj)[i]? = (s.sharedItems[i]?).map fun item =>
      (s.individual obj i).getD item := by
  simp [originalItems]

theorem originalItems_congr {t : Slice V} {obj' : Id} (hshared : t.sharedItems = s.sharedItems)
    (h : ∀ i, t.individual obj i = s.individual obj' i) :
    t.originalItems obj = s.originalItems obj' := by
  simp only [originalItems, hshared, h]

theorem originalItems_of_none (h : ∀ i, s.individual obj i = none) :
    s.originalItems obj = s.sharedItems := by
  apply ext_getElem?
  intro i
  simp [getElem?_originalItems, h]

theorem individual_lt {i : Nat} {v : V} (h : s.individual obj i = some v) :
    i < s.sharedItems.length := by
  obtain ⟨item, hitem, -⟩ := Option.bind_eq_some_iff.1 h
  exact s.individualItems_lt i item hitem

theorem Represents.of_fresh (h : Represents s m) (hfresh : m.Fresh obj) :
    (∀ i, s.individual obj i = none) ∧ (∀ item ∈ s.appendedItems, item.get obj = none) ∧
      s.cachedLengths obj = none := by
  obtain ⟨added, hlist, hleads, hcached⟩ := h.holds obj
  rw [hfresh, ← h.shared] at hlist
  have hlength := congrArg List.length hlist
  rw [length_append, length_originalItems] at hlength
  obtain rfl : added = [] := length_eq_zero_iff.1 (by omega)
  rw [append_nil] at hlist
  refine ⟨fun i => ?_, ?_, by simpa using hcached⟩
  · cases hv : s.individual obj i with
    | none => rfl
    | some v =>
      -- The individual value would be the shared one.
      have hi := individual_lt hv
      have hread := getElem?_originalItems s obj i
      rw [← hlist, hv, getElem?_eq_getElem hi] at hread
      exact absurd ((getElem?_eq_getElem hi).trans hread) (h.individual_ne obj i v hv)
  · intro item hitem
    obtain ⟨n, hmap⟩ := hleads
    have hmem := mem_map_of_mem (f := Fibres.get obj) hitem
    rw [hmap] at hmem
    exact eq_of_mem_replicate hmem

theorem represents_init (items : List V) : Represents (init items) (Owned.init items) where
  shared := rfl
  individual_wf _ _ h := nomatch h
  individual_ne _ _ _ h := nomatch h
  appended_wf _ h := nomatch h
  holds obj := ⟨[], by
    rw [originalItems_of_none fun _ => rfl, append_nil]
    rfl, leads_nil (by simp [init]), rfl⟩

end Representation

section Steps

variable {s : Slice V} {m : Owned V} {obj src dst : Id} {t : Slice V}

theorem holds_update {list : List V} (hobj : Holds t obj list)
    (hother : ∀ o ≠ obj, Holds t o (m.lists o)) (o : Id) :
    Holds t o (Function.update m.lists obj list o) := by
  by_cases ho : o = obj
  · subst ho
    rwa [update_self]
  · rw [update_of_ne ho]
    exact hother o ho

/-- An object holds what another one held if it now has that one's values. -/
theorem Holds.transfer {obj' : Id} {list : List V} (h : Holds s obj' list)
    (hshared : t.sharedItems = s.sharedItems)
    (hindividual : ∀ i, t.individual obj i = s.individual obj' i)
    (happended : ∀ added, Leads (s.appendedItems.map (Fibres.get obj')) added →
      Leads (t.appendedItems.map (Fibres.get obj)) added)
    (hcached : t.cachedLengths obj = s.cachedLengths obj') : Holds t obj list := by
  obtain ⟨added, hlist, hleads, hlength⟩ := h
  exact ⟨added, by rw [hlist, originalItems_congr hshared hindividual], happended added hleads,
    by rw [hcached, hlength, hshared]⟩

variable (src) in
theorem individual_copy (h : Represents s m) (hfresh : m.Fresh dst) (o : Id) (i : Nat) :
    (s.copy src dst).individual o i = if o = dst then s.individual src i else s.individual o i := by
  have hdst := (h.of_fresh hfresh).1 i
  unfold individual at hdst ⊢
  simp only [copy]
  cases hitem : s.individualItems i with
  | none => simp
  | some item =>
    rw [hitem] at hdst
    simpa using (get_join_getD (h.individual_wf i item hitem) hdst).2 o

theorem appendedItems_copy (h : Represents s m) : (s.copy src dst).appendedItems =
    s.appendedItems.map fun item => (item.join src dst).getD item := by
  obtain ⟨added, -, hleads, -⟩ := h.holds src
  exact hleads.updateWhile_eq fun item _ => join_eq_none

theorem Represents.copy (h : Represents s m) (hfresh : m.Fresh dst) :
    Represents (s.copy src dst) (m.copy src dst) := by
  have hindividual := individual_copy src h hfresh
  obtain ⟨-, happended, hnone⟩ := h.of_fresh hfresh
  have hget (o : Id) : (s.copy src dst).appendedItems.map (Fibres.get o) =
      if o = dst then s.appendedItems.map (Fibres.get src)
      else s.appendedItems.map (Fibres.get o) := by
    rw [appendedItems_copy h, map_map]
    split_ifs with ho <;> refine map_congr_left fun item hitem => ?_
    all_goals
      have hjoin := (@get_join_getD _ _ _ _ src dst (h.appended_wf item hitem)
        (happended item hitem)).2 o
      simpa [ho] using hjoin
  refine ⟨h.shared, fun i item hitem => ?_, fun o i v hv => ?_, fun item hitem => ?_,
    holds_update ((h.holds src).transfer rfl (fun i => ?_) (fun added hadded => ?_) ?_)
      fun o ho => (h.holds o).transfer rfl (fun i => ?_) (fun added hadded => ?_) ?_⟩
  · obtain ⟨old, hold, rfl⟩ := Option.map_eq_some_iff.1 hitem
    have hdst : old.get dst = none := by
      simpa [individual, hold] using (h.of_fresh hfresh).1 i
    exact (get_join_getD (h.individual_wf i old hold) hdst).1
  · rw [hindividual] at hv
    split_ifs at hv
    · exact h.individual_ne src i v hv
    · exact h.individual_ne o i v hv
  · rw [appendedItems_copy h] at hitem
    obtain ⟨old, hold, rfl⟩ := mem_map.1 hitem
    exact (get_join_getD (h.appended_wf old hold) (happended old hold)).1
  · rw [hindividual, if_pos rfl]
  · rwa [hget, if_pos rfl]
  · simp only [Slice.copy]
    cases hsrc : s.cachedLengths src with
    | none => exact hnone
    | some srcLen => exact update_self ..
  · rw [hindividual, if_neg ho]
  · rwa [hget, if_neg ho]
  · simp only [Slice.copy]
    cases s.cachedLengths src with
    | none => rfl
    | some srcLen => exact update_of_ne ho ..

theorem detachItem_get (obj o : Id) (item : MultiValueItem V) :
    (detachItem obj item).bind (Fibres.get o) = ((item.leave obj).getD item).get o := by
  unfold detachItem
  cases item.leave obj with
  | none => rfl
  | some rest => cases rest <;> rfl

variable (obj) in
theorem individual_detach (h : Represents s m) (o : Id) (i : Nat) :
    (s.detach obj).individual o i = if o = obj then none else s.individual o i := by
  unfold individual
  simp only [detach]
  cases hitem : s.individualItems i with
  | none => simp
  | some item =>
    rw [Option.bind_some, detachItem_get]
    exact (get_leave_getD (h.individual_wf i item hitem)).2 o

theorem appendedItems_detach (h : Represents s m) : (s.detach obj).appendedItems =
    s.appendedItems.map fun item => (item.leave obj).getD item := by
  obtain ⟨added, -, hleads, -⟩ := h.holds obj
  exact hleads.updateWhile_eq fun item _ => leave_eq_none

theorem Represents.detach (h : Represents s m) : Represents (s.detach obj) (m.detach obj) := by
  have hindividual := individual_detach obj h
  have hget (o : Id) : (s.detach obj).appendedItems.map (Fibres.get o) =
      s.appendedItems.map fun item => if o = obj then none else item.get o := by
    rw [appendedItems_detach h, map_map]
    exact map_congr_left fun item hitem =>
      (get_leave_getD (h.appended_wf item hitem)).2 o
  refine ⟨h.shared, fun i item hitem => ?_, fun o i v hv => ?_, fun item hitem => ?_,
    holds_update ⟨[], ?_, ?_, ?_⟩
      fun o ho => (h.holds o).transfer rfl (fun i => ?_) (fun added hadded => ?_) ?_⟩
  · obtain ⟨old, hold, hdetach⟩ := Option.bind_eq_some_iff.1 hitem
    have hwf := (get_leave_getD (i := obj) (h.individual_wf i old hold)).1
    unfold detachItem at hdetach
    split at hdetach <;> simp_all
  · rw [hindividual] at hv
    split_ifs at hv
    exact h.individual_ne o i v hv
  · rw [appendedItems_detach h] at hitem
    obtain ⟨old, hold, rfl⟩ := mem_map.1 hitem
    exact (get_leave_getD (h.appended_wf old hold)).1
  · rw [originalItems_of_none fun i => (hindividual obj i).trans (if_pos rfl), append_nil]
    exact h.shared.symm
  · rw [hget]
    exact leads_nil (by simp)
  · exact update_self ..
  · rw [hindividual, if_neg ho]
  · simpa [hget, ho] using hadded
  · exact update_of_ne ho ..

variable [DecidableEq V] {index : Nat}

variable (obj) in
theorem individual_updateOriginalItem (h : Represents s m) (hindex : index < s.sharedItems.length)
    (val : V) (o : Id) (i : Nat) :
    (s.updateOriginalItem obj index hindex val).individual o i =
      if i = index ∧ o = obj then if val = s.sharedItems[index] then none else some val
      else s.individual o i := by
  by_cases hi : i = index
  · subst hi
    unfold individual
    simp only [updateOriginalItem, update_self, true_and]
    cases hitem : s.individualItems i with
    | none =>
      split_ifs <;> simp_all [Fibres.get]
    | some item =>
      obtain ⟨hwf, hleave⟩ := get_leave_getD (i := obj) (h.individual_wf i item hitem)
      have hassign := (get_assign hwf ((hleave obj).trans (if_pos rfl)) val).2 o
      rw [hleave] at hassign
      by_cases hval : val = s.sharedItems[i]
      · simp only [hval, if_true, Option.map_some, Option.bind_some, hleave]
      · simp only [hval, if_false, Option.map_some, Option.bind_some, hassign]
        split_ifs <;> rfl
  · unfold individual
    simp only [updateOriginalItem, update_of_ne hi, hi, false_and, if_false]

theorem Represents.updateOriginalItem (h : Represents s m) (hindex : index < s.sharedItems.length)
    (val : V) :
    Represents (s.updateOriginalItem obj index hindex val) (m.updateAt obj index val) := by
  have hindividual := individual_updateOriginalItem obj h hindex val
  refine ⟨h.shared, fun i item hitem => ?_, fun o i v hv => ?_, h.appended_wf,
    holds_update ?_ fun o ho => (h.holds o).transfer rfl (fun i => ?_) (fun _ hadded => hadded) rfl⟩
  · by_cases hi : i = index
    · subst hi
      simp only [Slice.updateOriginalItem, update_self] at hitem
      cases hold : s.individualItems i with
      | none =>
        split_ifs at hitem <;> simp only [hold, Option.map_none, reduceCtorEq] at hitem
        obtain rfl := Option.some.inj hitem
        exact wf_singleton val obj
      | some old =>
        obtain ⟨hwf, hleave⟩ := get_leave_getD (i := obj) (h.individual_wf i old hold)
        split_ifs at hitem <;> simp only [hold, Option.map_some] at hitem <;>
          obtain rfl := Option.some.inj hitem
        · exact hwf
        · exact (get_assign hwf ((hleave obj).trans (if_pos rfl)) val).1
    · exact h.individual_wf i item (by
        simpa [Slice.updateOriginalItem, update_of_ne hi] using hitem)
  · change s.sharedItems[i]? ≠ some v
    rw [hindividual] at hv
    split_ifs at hv with hat hval
    · obtain rfl := Option.some.inj hv
      rw [hat.1, getElem?_eq_getElem hindex]
      exact fun heq => hval (Option.some.inj heq).symm
    · exact h.individual_ne o i v hv
  · obtain ⟨added, hlist, hleads, hcached⟩ := h.holds obj
    refine ⟨added, ?_, hleads, hcached⟩
    rw [hlist, set_append_left _ _ (by simpa using hindex)]
    congr 1
    apply ext_getElem?
    intro i
    rw [getElem?_originalItems, getElem?_set, getElem?_originalItems, hindividual]
    simp only [and_true, length_originalItems]
    change _ = Option.map _ s.sharedItems[i]?
    by_cases hi : index = i
    · subst hi
      by_cases hval : val = s.sharedItems[index] <;> simp [hindex, hval]
    · simp [hi, Ne.symm hi]
  · rw [hindividual, if_neg (fun hat => ho hat.2)]

theorem Represents.updateAppendedItem (h : Represents s m) (hindex : s.sharedItems.length ≤ index)
    (val : V) :
    if index < (m.lists obj).length then
      ∃ t, s.updateAppendedItem obj index val = .ok t ∧ Represents t (m.updateAt obj index val)
    else s.updateAppendedItem obj index val = .error (.outOfBounds index) := by
  obtain ⟨added, hlist, hleads, hcached⟩ := h.holds obj
  have hlength : (m.lists obj).length = s.sharedItems.length + added.length := by
    rw [hlist, length_append, length_originalItems]
  have hread := hleads.getElem? (index - s.sharedItems.length)
  simp only [Slice.updateAppendedItem]
  split_ifs with hlt
  · -- The object has a value there: it leaves it for the new one.
    have hposition : index - s.sharedItems.length < s.appendedItems.length := by
      have := hleads.length_le
      rw [length_map] at this
      omega
    obtain ⟨item, hitem⟩ : ∃ item, s.appendedItems[index - s.sharedItems.length]? = some item :=
      ⟨_, getElem?_eq_getElem hposition⟩
    have hmem := mem_of_getElem? hitem
    have hget : item.get obj ≠ none := by
      rw [getElem?_map, hitem, getElem?_eq_getElem (by omega)] at hread
      simp_all
    obtain ⟨rest, hrest⟩ := Option.ne_none_iff_exists'.1 (mt leave_eq_none.1 hget)
    obtain ⟨hwf, hleave⟩ := get_leave (h.appended_wf item hmem) hrest
    have hassign := get_assign hwf ((hleave obj).trans (if_pos rfl)) val
    simp only [hitem, Option.bind_some, hrest]
    refine ⟨_, rfl, h.shared, h.individual_wf, h.individual_ne,
      fun item' hitem' => ?_, holds_update ⟨added.set (index - s.sharedItems.length) val, ?_, ?_, ?_⟩
        fun o ho => (h.holds o).transfer rfl (fun _ => rfl) (fun added hadded => ?_) rfl⟩
    · rcases mem_or_eq_of_mem_set hitem' with hold | rfl
      · exact h.appended_wf item' hold
      · exact hassign.1
    · rw [hlist, set_append_right _ _ (by simpa using hindex), length_originalItems]
      rfl
    · rw [map_set, hassign.2, if_pos rfl]
      exact hleads.set (by omega) val
    · simpa using hcached
    · have hsame : Fibres.get o (rest.assign obj val) = item.get o := by
        rw [hassign.2, if_neg ho, hleave, if_neg ho]
      rwa [map_set_of_eq hitem hsame]
  · rw [getElem?_eq_none (l := added) (by omega), getElem?_map] at hread
    cases hitem : s.appendedItems[index - s.sharedItems.length]? with
    | none => rfl
    | some item =>
      rw [hitem] at hread
      rw [Option.bind_some, leave_eq_none.2 (by simpa using hread)]

/-- The first item without the object comes right after the values it appended. -/
theorem appendFirst_eq {items : List (MultiValueItem V)} {added : List V}
    (h : Leads (items.map (Fibres.get obj)) added) (val : V) :
    (∃ item, items[added.length]? = some item ∧ item.get obj = none ∧
      appendFirst obj val items = some (items.set added.length (item.assign obj val))) ∨
    (added.length = items.length ∧ appendFirst obj val items = none) := by
  induction items generalizing added with
  | nil =>
    have hlength := h.length_le
    exact .inr ⟨by simpa using hlength, rfl⟩
  | cons item items ih =>
    obtain ⟨n, h⟩ := h
    cases added with
    | nil =>
      have hnone : item.get obj = none := eq_of_mem_replicate (n := n) (by
        rw [← nil_append (List.replicate n none)]
        exact h ▸ mem_cons_self)
      refine .inl ⟨item, rfl, hnone, ?_⟩
      simp [appendFirst, hnone]
    | cons v added =>
      obtain ⟨hv, hrest⟩ := cons.inj h
      simp only [appendFirst, hv]
      rcases ih ⟨n, hrest⟩ with ⟨item', hitem', hnone, happend⟩ | ⟨hlength, happend⟩
      · exact .inl ⟨item', hitem', hnone, by rw [happend]; rfl⟩
      · exact .inr ⟨by simpa using hlength, by rw [happend]; rfl⟩

omit [DecidableEq V] in
theorem Represents.append_of {added : List V} {val : V} (h : Represents s m)
    (hlist : m.lists obj = s.originalItems obj ++ added) (hshared : t.sharedItems = s.sharedItems)
    (hindividual : t.individualItems = s.individualItems) (hwf : ∀ item ∈ t.appendedItems, item.Wf)
    (happended : Leads (t.appendedItems.map (Fibres.get obj)) (added ++ [val]))
    (hother : ∀ o ≠ obj, ∀ added, Leads (s.appendedItems.map (Fibres.get o)) added →
      Leads (t.appendedItems.map (Fibres.get o)) added)
    (hcached : t.cachedLengths = Function.update s.cachedLengths obj
      (some (s.sharedItems.length + added.length + 1))) : Represents t (m.append obj val) := by
  have hsame (o : Id) (i : Nat) : t.individual o i = s.individual o i := by
    rw [individual, hindividual, individual]
  refine ⟨hshared.trans h.shared, hindividual ▸ h.individual_wf, fun o i v hv => ?_, hwf,
    holds_update ⟨added ++ [val], ?_, happended, ?_⟩ fun o ho =>
      (h.holds o).transfer hshared (hsame o) (hother o ho) ?_⟩
  · rw [hshared]
    exact h.individual_ne o i v (hsame o i ▸ hv)
  · rw [hlist, append_assoc, originalItems_congr hshared (hsame obj)]
  · rw [hcached, update_self, if_neg (by simp), hshared, length_append,
      length_singleton, Nat.add_assoc]
  · rw [hcached, update_of_ne ho]

omit [DecidableEq V] in
theorem get_singleton (val : V) (o : Id) :
    Fibres.get o [⟨val, [obj]⟩] = if o = obj then some val else none := by
  by_cases ho : o = obj <;> simp [Fibres.get, ho]

theorem Represents.append (h : Represents s m) (val : V) :
    Represents (s.append obj val) (m.append obj val) := by
  obtain ⟨added, hlist, hleads, hcached⟩ := h.holds obj
  unfold Slice.append
  split_ifs with hempty
  · obtain rfl : added = [] := by
      have hlength := hleads.length_le
      simpa [hempty] using hlength
    refine h.append_of hlist rfl rfl ?_ ?_ (fun o ho added hadded => ?_) rfl
    · simpa using wf_singleton val obj
    · exact ⟨0, by simp [get_singleton]⟩
    · rw [hempty] at hadded
      simpa [get_singleton, ho] using hadded.concat_none
  · rcases appendFirst_eq hleads val with ⟨item, hitem, hnone, hfirst⟩ | ⟨hlength, hfirst⟩
    · have hmem := mem_of_getElem? hitem
      have hassign := get_assign (h.appended_wf item hmem) hnone val
      rw [hfirst]
      refine h.append_of hlist rfl rfl (fun item' hitem' => ?_) ?_ (fun o ho added' hadded => ?_) ?_
      · rcases mem_or_eq_of_mem_set hitem' with hold | rfl
        · exact h.appended_wf item' hold
        · exact hassign.1
      · rw [map_set, hassign.2, if_pos rfl]
        exact hleads.push (by simpa using (List.getElem?_eq_some_iff.1 hitem).1) val
      · rwa [map_set_of_eq hitem (by rw [hassign.2, if_neg ho])]
      · rw [hcached]
        split_ifs with hadded
        · simp [hadded]
        · rfl
    · -- Every item has a value of the object, so it appended some before.
      have hne : added ≠ [] := by
        rintro rfl
        exact hempty (length_eq_zero_iff.1 hlength.symm)
      rw [hfirst]
      refine h.append_of hlist rfl rfl (fun item' hitem' => ?_) ?_ (fun o ho added' hadded => ?_) ?_
      · rcases mem_append.1 hitem' with hold | hnew
        · exact h.appended_wf item' hold
        · rw [mem_singleton.1 hnew]
          exact wf_singleton val obj
      · rw [map_append, map_singleton, get_singleton, if_pos rfl]
        exact hleads.concat (by simpa using hlength) val
      · rw [map_append, map_singleton, get_singleton, if_neg ho]
        exact hadded.concat_none
      · rw [hcached, if_neg hne]
        rfl

variable (obj) in
theorem Represents.updateAt (h : Represents s m) (index : Nat) (val : V) :
    if index < (m.lists obj).length then
      ∃ t, s.updateAt obj index val = .ok t ∧ Represents t (m.updateAt obj index val)
    else s.updateAt obj index val = .error (.outOfBounds index) := by
  obtain ⟨added, hlist, hleads, -⟩ := h.holds obj
  have hlength : (m.lists obj).length = s.sharedItems.length + added.length := by
    rw [hlist, length_append, length_originalItems]
  have hle := hleads.length_le
  rw [length_map] at hle
  unfold Slice.updateAt
  by_cases hbound : s.sharedItems.length + s.appendedItems.length ≤ index
  · rw [if_neg (by omega), if_pos hbound]
  · rw [if_neg hbound]
    by_cases horiginal : index < s.sharedItems.length
    · rw [if_pos (by omega), dif_pos horiginal]
      exact ⟨_, rfl, h.updateOriginalItem horiginal val⟩
    · rw [dif_neg horiginal]
      exact h.updateAppendedItem (by omega) val

end Steps

section Reads

variable {s : Slice V} {m : Owned V} {obj : Id}

theorem writeFrom_eq {xs vs : List V} {start : Nat} (h : start + vs.length ≤ xs.length) :
    writeFrom xs start vs = some (xs.take start ++ vs ++ xs.drop (start + vs.length)) := by
  induction vs generalizing xs start with
  | nil => simp [writeFrom]
  | cons v vs ih =>
    rw [length_cons] at h
    have htake : (xs.set start v).take (start + 1) = xs.take start ++ [v] := by
      apply ext_getElem?
      grind
    rw [writeFrom, write, if_pos (by omega), Option.bind_some, ih (by rw [length_set]; omega),
      htake, drop_set_of_lt (by omega), length_cons, Nat.add_assoc, Nat.add_comm 1]
    simp

theorem Represents.len (h : Represents s m) (obj : Id) : s.len obj = (m.lists obj).length := by
  obtain ⟨added, hlist, -, hcached⟩ := h.holds obj
  rw [hlist, length_append, length_originalItems, Slice.len, hcached]
  split_ifs with hadded
  · simp [hadded]
  · rfl

theorem Represents.value [Inhabited V] (h : Represents s m) (obj : Id) :
    s.value obj = some (m.lists obj) := by
  obtain ⟨added, hlist, hleads, hcached⟩ := h.holds obj
  unfold Slice.value
  rw [hcached, hlist]
  split_ifs with hadded
  · simp only [fillOriginalItems]
    rw [writeFrom_eq (by simp), hadded]
    simp
  · simp only [fillOriginalItems, hleads.leading_eq]
    rw [writeFrom_eq (by simp)]
    simp only [Option.bind_eq_bind, Option.bind_some]
    rw [writeFrom_eq (by simp)]
    simp

def readAt (list : List V) (index : Nat) : Except Error V :=
  match list[index]? with
  | some v => .ok v
  | none => .error (.outOfBounds index)

theorem Represents.atIndex (h : Represents s m) (obj : Id) (index : Nat) :
    s.atIndex obj index = readAt (m.lists obj) index := by
  obtain ⟨added, hlist, hleads, -⟩ := h.holds obj
  have hread := hleads.getElem? (index - s.sharedItems.length)
  have hle := hleads.length_le
  rw [length_map] at hle
  unfold Slice.atIndex readAt
  rw [hlist]
  by_cases hbound : s.sharedItems.length + s.appendedItems.length ≤ index
  · rw [if_pos hbound, getElem?_eq_none (by simp; omega)]
  · rw [if_neg hbound]
    by_cases horiginal : index < s.sharedItems.length
    · rw [getElem?_append_left (by simpa using horiginal), getElem?_originalItems,
        getElem?_eq_getElem horiginal]
      rfl
    · rw [getElem?_append_right (by simp; omega), length_originalItems, ← hread,
        getElem?_eq_none (by omega), getElem?_map]
      cases s.appendedItems[index - s.sharedItems.length]? <;> rfl

theorem resetAppended_eq {items : List (MultiValueItem V)} {added : List V}
    (h : Leads (items.map (Fibres.get obj)) added) : resetAppended obj items = added := by
  induction items generalizing added with
  | nil =>
    have hlength := h.length_le
    exact (length_eq_zero_iff.1 (by simpa using hlength)).symm
  | cons item items ih =>
    obtain ⟨n, h⟩ := h
    cases added with
    | nil =>
      obtain ⟨n, rfl⟩ : ∃ k, n = k + 1 := by
        cases n with
        | zero => cases h
        | succ n => exact ⟨n, rfl⟩
      obtain ⟨hnone, hrest⟩ := cons.inj h
      simp only [resetAppended, hnone]
      have hempty : Leads (items.map (Fibres.get obj)) ([] : List V) := ⟨n, hrest⟩
      rw [ih hempty, ite_self]
    | cons v added =>
      obtain ⟨hv, hrest⟩ := cons.inj h
      simp only [resetAppended, hv]
      rw [ih ⟨n, hrest⟩]

theorem reset_loop (s : Slice V) (obj : Id) {items : List V} {n : Nat} (h : n ≤ items.length) :
    (List.range n).foldlM (fun items i => match s.individual obj i with
      | some v => write items i v
      | none => some items) items =
    some (items.mapIdx fun i item => if i < n then (s.individual obj i).getD item else item) := by
  induction n with
  | zero =>
    refine congrArg some (ext_getElem? fun i => ?_)
    simp
  | succ n ih =>
    rw [range_succ, foldlM_append, ih (by omega)]
    simp only [Option.bind_eq_bind, Option.bind_some, foldlM_cons, foldlM_nil]
    cases hv : s.individual obj n with
    | none =>
      refine congrArg some (ext_getElem? fun i => ?_)
      rw [getElem?_mapIdx, getElem?_mapIdx]
      refine congrArg (Option.map · _) (funext fun item => ?_)
      rcases Nat.lt_trichotomy i n with hi | rfl | hi
      · rw [if_pos hi, if_pos (by omega)]
      · rw [if_neg (by omega), if_pos (by omega), hv, Option.getD_none]
      · rw [if_neg (by omega), if_neg (by omega)]
    | some v =>
      have hlt : n < items.length := h
      simp only [write, length_mapIdx, if_pos hlt]
      refine congrArg some (ext_getElem? fun i => ?_)
      rw [getElem?_set, getElem?_mapIdx, getElem?_mapIdx, length_mapIdx]
      rcases Nat.lt_trichotomy i n with hi | rfl | hi
      · simp [hi, hi.ne', Nat.lt_succ_of_lt hi]
      · simp [hlt, hv]
      · simp [hi.ne, Nat.not_lt.2 hi.le, Nat.not_lt.2 (Nat.succ_le_of_lt hi)]

theorem Represents.reset [Inhabited V] (h : Represents s m) (obj : Id) :
    s.reset obj = some (init (m.lists obj)) := by
  obtain ⟨added, hlist, hleads, hcached⟩ := h.holds obj
  have hlen := h.len obj
  rw [hlist, length_append, length_originalItems] at hlen
  have hitems : s.sharedItems.take (s.len obj) ++
      (List.replicate (s.len obj) default).drop s.sharedItems.length =
        s.sharedItems ++ List.replicate added.length default := by
    simp [hlen]
  have hloop : ((s.sharedItems ++ List.replicate added.length default).mapIdx fun i item =>
      if i < s.sharedItems.length then (s.individual obj i).getD item else item) =
        s.originalItems obj ++ List.replicate added.length default := by
    rw [mapIdx_append]
    congr 1
    · refine ext_getElem? fun i => ?_
      rw [getElem?_mapIdx, getElem?_originalItems]
      by_cases hi : i < s.sharedItems.length
      · simp [hi]
      · simp [hi]
    · refine ext_getElem? fun i => ?_
      simp
  unfold Slice.reset
  simp only [hitems, resetAppended_eq hleads]
  refine (congrArg (Option.bind · _) (reset_loop s obj (by simp))).trans ?_
  have hall : (s.originalItems obj ++ List.replicate added.length (default : V)).drop
      (s.sharedItems.length + added.length) = [] :=
    drop_eq_nil_of_le (by simp)
  rw [hloop, Option.bind_some, writeFrom_eq (by simp), hlist]
  simp [hall]

end Reads

section Runs

/-- Operations on any number of slices, named by their place in the order of creation. -/
inductive Op (V : Type) where
  | init (items : List V)
  | copy (slice : Nat) (src dst : Id)
  | updateAt (slice : Nat) (obj : Id) (index : Nat) (val : V)
  | append (slice : Nat) (obj : Id) (val : V)
  | detach (slice : Nat) (obj : Id)
  | reset (slice : Nat) (obj : Id)

variable [DecidableEq V] [Inhabited V]

/-- A failed update leaves the slice as it is. -/
def step (slices : List (Slice V)) : Op V → Option (List (Slice V))
  | .init items => some (slices ++ [init items])
  | .copy k src dst => some (slices.modify k (·.copy src dst))
  | .updateAt k obj index val =>
    some (slices.modify k fun s => ((s.updateAt obj index val).toOption).getD s)
  | .append k obj val => some (slices.modify k (·.append obj val))
  | .detach k obj => some (slices.modify k (·.detach obj))
  | .reset k obj =>
    match slices[k]? with
    | some s => (s.reset obj).map fun t => slices ++ [t]
    | none => some slices

omit [DecidableEq V] [Inhabited V] in
/-- The same operations where every object owns its list. -/
def ownedStep (slices : List (Owned V)) : Op V → List (Owned V)
  | .init items => slices ++ [Owned.init items]
  | .copy k src dst => slices.modify k (·.copy src dst)
  | .updateAt k obj index val => slices.modify k (·.updateAt obj index val)
  | .append k obj val => slices.modify k (·.append obj val)
  | .detach k obj => slices.modify k (·.detach obj)
  | .reset k obj =>
    match slices[k]? with
    | some m => slices ++ [m.reset obj]
    | none => slices

/-- Copies go to fresh objects. -/
def CopiesToFresh (slices : List (Owned V)) : Op V → Prop
  | .copy k _ dst => ∀ m, slices[k]? = some m → m.Fresh dst
  | _ => True

/-- Everything that can be read from a slice, and which updates it refuses. -/
structure Agrees (s : Slice V) (m : Owned V) : Prop where
  shared : s.sharedItems = m.shared
  value : ∀ obj, s.value obj = some (m.lists obj)
  len : ∀ obj, s.len obj = (m.lists obj).length
  atIndex : ∀ obj index, s.atIndex obj index = readAt (m.lists obj) index
  updateAt : ∀ obj index val,
    (s.updateAt obj index val).toOption.isSome ↔ index < (m.lists obj).length

theorem Represents.agrees {s : Slice V} {m : Owned V} (h : Represents s m) : Agrees s m := by
  refine ⟨h.shared, h.value, h.len, h.atIndex, fun obj index val => ?_⟩
  have hupdate := h.updateAt obj index val
  split_ifs at hupdate with hlt
  · obtain ⟨t, ht, -⟩ := hupdate
    simp [ht, hlt, Except.toOption]
  · simp [hupdate, hlt, Except.toOption]

variable {slices : List (Slice V)} {owned : List (Owned V)}

section

variable (h : List.Forall₂ Represents slices owned)

include h

omit [DecidableEq V] [Inhabited V] in
theorem forall₂_modify {f : Slice V → Slice V} {g : Owned V → Owned V} (k : Nat)
    (hfg : ∀ s m, owned[k]? = some m → Represents s m → Represents (f s) (g m)) :
    List.Forall₂ Represents (slices.modify k f) (owned.modify k g) := by
  induction h generalizing k with
  | nil => cases k <;> exact .nil
  | cons hs hrest ih =>
    cases k with
    | zero => exact .cons (hfg _ _ rfl hs) hrest
    | succ k => exact .cons hs (ih k hfg)

theorem step_represents {op : Op V} (hop : CopiesToFresh owned op) :
    ∃ slices', step slices op = some slices' ∧
      List.Forall₂ Represents slices' (ownedStep owned op) := by
  cases op with
  | init items => exact ⟨_, rfl, rel_append h (.cons (represents_init items) .nil)⟩
  | copy k src dst => exact ⟨_, rfl, forall₂_modify h k fun s m hm hs => hs.copy (hop m hm)⟩
  | updateAt k obj index val =>
    refine ⟨_, rfl, forall₂_modify h k fun s m _ hs => ?_⟩
    have hupdate := hs.updateAt obj index val
    split_ifs at hupdate with hlt
    · obtain ⟨t, ht, hrep⟩ := hupdate
      simpa [ht, Except.toOption] using hrep
    · -- Both sides refuse.
      have hsame : m.updateAt obj index val = m := by
        rw [Owned.updateAt, set_eq_of_length_le (by omega), update_eq_self]
      simpa [hupdate, hsame, Except.toOption] using hs
  | append k obj val => exact ⟨_, rfl, forall₂_modify h k fun s m _ hs => hs.append val⟩
  | detach k obj => exact ⟨_, rfl, forall₂_modify h k fun s m _ hs => hs.detach⟩
  | reset k obj =>
    rcases Nat.lt_or_ge k slices.length with hk | hk
    · have hk' : k < owned.length := h.length_eq ▸ hk
      have hs : Represents slices[k] owned[k] := h.get hk hk'
      simp only [step, ownedStep, getElem?_eq_getElem hk, getElem?_eq_getElem hk',
        hs.reset obj]
      exact ⟨_, rfl, rel_append h (.cons (represents_init _) .nil)⟩
    · simp only [step, ownedStep, getElem?_eq_none hk,
        getElem?_eq_none (h.length_eq ▸ hk : owned.length ≤ k)]
      exact ⟨slices, rfl, h⟩

theorem run_represents {ops : List (Op V)} (hops : Along ownedStep CopiesToFresh owned ops) :
    ∃ slices', ops.foldlM step slices = some slices' ∧
      List.Forall₂ Represents slices' (ops.foldl ownedStep owned) := by
  induction ops generalizing slices owned with
  | nil => exact ⟨slices, rfl, h⟩
  | cons op ops ih =>
    obtain ⟨next, hstep, hnext⟩ := step_represents h hops.1
    obtain ⟨slices', hrun, hslices⟩ := ih hnext hops.2
    exact ⟨slices', by simpa [hstep] using hrun, hslices⟩

end

/-- For every run in which copies go to fresh objects, no operation stops, and every object reads
the list that it owns. -/
theorem slices_refine (ops : List (Op V)) (hops : Along ownedStep CopiesToFresh [] ops) :
    ∃ slices, ops.foldlM step [] = some slices ∧
      List.Forall₂ Agrees slices (ops.foldl ownedStep []) := by
  obtain ⟨slices, hrun, hslices⟩ := run_represents .nil hops
  exact ⟨slices, hrun, hslices.imp fun _ _ h => h.agrees⟩

/-- Two objects of a slice, an update and an append for the second one, and a reset. -/
def twoObjects : List (Op Nat) :=
  [.init [10, 20], .append 0 1 30, .copy 0 1 2, .updateAt 0 2 0 11, .append 0 2 31, .reset 0 2,
    .detach 0 1]

theorem slices_refine_twoObjects :
    ∃ slices, twoObjects.foldlM step [] = some slices ∧
      List.Forall₂ Agrees slices (twoObjects.foldl ownedStep []) ∧
      (twoObjects.foldl ownedStep []).map (fun m => (m.lists 1, m.lists 2)) =
        [([10, 20], [11, 20, 30, 31]), ([11, 20, 30, 31], [11, 20, 30, 31])] := by
  have hfresh : Along ownedStep CopiesToFresh [] twoObjects := by
    refine ⟨trivial, trivial, fun m hm => ?_, trivial, trivial, trivial, trivial, trivial⟩
    obtain rfl := Option.some.inj hm
    rfl
  obtain ⟨slices, hrun, hslices⟩ := slices_refine twoObjects hfresh
  exact ⟨slices, hrun, hslices, by decide⟩

/-- Objects that read the shared items have no value and no length in the slice. -/
def NoTrace (s : Slice V) (m : Owned V) : Prop := ∀ obj, m.Fresh obj →
  (∀ i, s.individual obj i = none) ∧ (∀ item ∈ s.appendedItems, item.get obj = none) ∧
    s.cachedLengths obj = none

/-- In every such run nothing is left behind, in particular not of a detached object. -/
theorem slices_leave_no_trace (ops : List (Op V)) (hops : Along ownedStep CopiesToFresh [] ops) :
    ∃ slices, ops.foldlM step [] = some slices ∧
      List.Forall₂ NoTrace slices (ops.foldl ownedStep []) := by
  obtain ⟨slices, hrun, h⟩ := run_represents .nil hops
  exact ⟨slices, hrun, h.imp fun s m hr obj => hr.of_fresh⟩

theorem detach_leaves_no_trace :
    ∃ slices, [Op.init [10], .append 0 1 30, .detach 0 1].foldlM step [] = some slices ∧
      List.Forall₂ NoTrace slices
        ([Op.init [10], .append 0 1 30, .detach 0 1].foldl ownedStep []) :=
  slices_leave_no_trace _ ⟨trivial, trivial, trivial, trivial⟩

end Runs

end LightChain.MultiValue
