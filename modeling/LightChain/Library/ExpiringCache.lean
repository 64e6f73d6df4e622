import Mathlib

/-!
# Caches with expiration times

An item that is expired is not found any more, but it stays in the cache until it is written
over, deleted or swept. `delete` and `deleteExpired` return the objects they remove, so that an
eviction callback can be run on them. Writing over an item evicts nothing.
-/
namespace LightChain.Library

structure CacheItem (ν : Type*) where
  object : ν
  expiration : Nat
deriving DecidableEq, Repr

def CacheItem.expired {ν : Type*} (item : CacheItem ν) (now : Nat) : Bool :=
  item.expiration < now

structure ExpiringCache (κ ν : Type*) where
  items : AList fun _ : κ => CacheItem ν
  defaultExpiration : Nat

namespace ExpiringCache

variable {κ ν : Type*} [DecidableEq κ] (c : ExpiringCache κ ν) (now : Nat)

def lookup (k : κ) : Option (CacheItem ν) := c.items.lookup k

/-- The object of an item that is not expired. -/
def get (k : κ) : Option ν :=
  match c.lookup k with
  | none => none
  | some item => if item.expired now then none else some item.object

/-- A duration of zero stands for the default. -/
def set (k : κ) (x : ν) (d : Nat) : ExpiringCache κ ν :=
  { c with
    items := c.items.insert k ⟨x, now + if d = 0 then c.defaultExpiration else d⟩ }

/-- Write over an item that can be found. -/
def replace (k : κ) (x : ν) (d : Nat) : Option (ExpiringCache κ ν) :=
  match c.get now k with
  | none => none
  | some _ => some (c.set now k x d)

def delete (k : κ) : ExpiringCache κ ν × Option ν :=
  ({ c with items := c.items.erase k }, (c.lookup k).map (·.object))

def filterItems (keep : CacheItem ν → Bool) : AList fun _ : κ => CacheItem ν where
  entries := c.items.entries.filter fun entry => keep entry.2
  nodupKeys := c.items.nodupKeys.sublist List.filter_sublist

def deleteExpired : ExpiringCache κ ν × List ν :=
  ({ c with items := c.filterItems fun item => !item.expired now },
    (c.items.entries.filter fun entry => entry.2.expired now).map (·.2.object))

def flush : ExpiringCache κ ν := { c with items := ∅ }

variable {c now} {k k' : κ} {x y : ν} {d : Nat} {item : CacheItem ν}

theorem get_eq_some : c.get now k = some x ↔
    ∃ item, c.lookup k = some item ∧ item.expired now = false ∧ item.object = x := by
  unfold get
  cases c.lookup k with
  | none => simp
  | some item => cases item.expired now <;> simp

theorem lookup_set : (c.set now k x d).lookup k' =
    if k' = k then some ⟨x, now + if d = 0 then c.defaultExpiration else d⟩ else c.lookup k' := by
  unfold lookup set
  by_cases h : k' = k
  · rw [if_pos h, h, AList.lookup_insert]
  · rw [if_neg h, AList.lookup_insert_ne h]

theorem lookup_delete : (c.delete k).1.lookup k' = if k' = k then none else c.lookup k' := by
  unfold lookup delete
  by_cases h : k' = k
  · rw [if_pos h, h, AList.lookup_erase]
  · rw [if_neg h, AList.lookup_erase_ne h]

theorem lookup_eq_some_iff_mem : c.lookup k = some item ↔ ⟨k, item⟩ ∈ c.items.entries :=
  List.mem_dlookup_iff c.items.nodupKeys

theorem lookup_deleteExpired : (c.deleteExpired now).1.lookup k = some item ↔
    c.lookup k = some item ∧ item.expired now = false := by
  rw [lookup_eq_some_iff_mem, lookup_eq_some_iff_mem]
  simp [deleteExpired, filterItems]

theorem mem_deleteExpired : x ∈ (c.deleteExpired now).2 ↔
    ∃ k item, c.lookup k = some item ∧ item.expired now = true ∧ item.object = x := by
  simp only [deleteExpired, List.mem_map, List.mem_filter, lookup_eq_some_iff_mem]
  constructor
  · rintro ⟨⟨k, item⟩, ⟨hmem, hexp⟩, rfl⟩
    exact ⟨k, item, hmem, hexp, rfl⟩
  · rintro ⟨k, item, hmem, hexp, rfl⟩
    exact ⟨⟨k, item⟩, ⟨hmem, hexp⟩, rfl⟩

@[simp] theorem lookup_flush : c.flush.lookup k = none := by
  simp [lookup, flush]

end ExpiringCache

end LightChain.Library
