import LightChain.Library.Fibres
import LightChain.Library.Leading

/-!
# The multi-value slice

A `Slice` is shared by many objects. Each object reads the shared items, overridden by the
individual items that carry its identifier, followed by the appended items that carry it.
Items are partial maps from identifiers to values, stored by value.

A map of the source is a function here. The loops over `individualItems` touch the entry in
hand only, so the order in which a map is enumerated does not matter. A write outside a slice
stops the program, which is `none`.
-/
namespace LightChain.MultiValue
open Library

abbrev Id := Nat

/-- A value with the identifiers of the objects that share it. -/
abbrev Value (V : Type) := Fibre V Id

abbrev MultiValueItem (V : Type) := Fibres V Id

structure Slice (V : Type) where
  sharedItems : List V
  individualItems : Nat → Option (MultiValueItem V)
  appendedItems : List (MultiValueItem V)
  cachedLengths : Id → Option Nat
  individualItems_lt : ∀ i item, individualItems i = some item → i < sharedItems.length

inductive Error where
  | outOfBounds (index : Nat)
deriving DecidableEq, Repr

def Error.message : Error → String
  | .outOfBounds index => "index " ++ toString index ++ " out of bounds"

section Model

variable {V : Type}

/-- The assignment `xs[i] = v`. -/
def write (xs : List V) (i : Nat) (v : V) : Option (List V) :=
  if i < xs.length then some (xs.set i v) else none

/-- Assignments to the places from `start` on. -/
def writeFrom (xs : List V) : Nat → List V → Option (List V)
  | _, [] => some xs
  | start, v :: vs => (write xs start v).bind fun xs => writeFrom xs (start + 1) vs

namespace Slice

def init (items : List V) : Slice V where
  sharedItems := items
  individualItems _ := none
  appendedItems := []
  cachedLengths _ := none
  individualItems_lt _ _ h := nomatch h

variable (s : Slice V) (obj : Id)

def len : Nat := (s.cachedLengths obj).getD s.sharedItems.length

def individual (i : Nat) : Option V :=
  (s.individualItems i).bind (·.get obj)

def copy (src dst : Id) : Slice V where
  sharedItems := s.sharedItems
  individualItems i := (s.individualItems i).map fun item => (item.join src dst).getD item
  appendedItems := updateWhile (Fibres.join src dst) s.appendedItems
  cachedLengths :=
    match s.cachedLengths src with
    | some srcLen => Function.update s.cachedLengths dst (some srcLen)
    | none => s.cachedLengths
  individualItems_lt i item h := by
    obtain ⟨old, hold, -⟩ := Option.map_eq_some_iff.1 h
    exact s.individualItems_lt i old hold

/-- The items that `fillOriginalItems` writes. -/
def originalItems : List V :=
  s.sharedItems.mapIdx fun i item => (s.individual obj i).getD item

def fillOriginalItems (items : List V) : Option (List V) :=
  writeFrom items 0 (s.originalItems obj)

def value [Inhabited V] : Option (List V) :=
  match s.cachedLengths obj with
  | some l => do
    let result ← s.fillOriginalItems obj (List.replicate l default)
    writeFrom result s.sharedItems.length (leading (s.appendedItems.map (Fibres.get obj)))
  | none => s.fillOriginalItems obj (List.replicate s.sharedItems.length default)

/-- `At`. -/
def atIndex (index : Nat) : Except Error V :=
  if s.sharedItems.length + s.appendedItems.length ≤ index then .error (.outOfBounds index)
  else match s.sharedItems[index]? with
    | some item => .ok ((s.individual obj index).getD item)
    | none =>
      match (s.appendedItems[index - s.sharedItems.length]?).bind (Fibres.get obj) with
      | some v => .ok v
      | none => .error (.outOfBounds index)

variable [DecidableEq V]

def updateOriginalItem (index : Nat) (hindex : index < s.sharedItems.length) (val : V) : Slice V :=
  let removed := (s.individualItems index).map fun ind => (ind.leave obj).getD ind
  let added :=
    if val = s.sharedItems[index] then removed
    else some (match removed with
      | none => [⟨val, [obj]⟩]
      | some ind => ind.assign obj val)
  { s with
    individualItems := Function.update s.individualItems index added
    individualItems_lt := fun i item h => by
      by_cases hi : i = index
      · rw [hi]
        exact hindex
      · rw [Function.update_of_ne hi] at h
        exact s.individualItems_lt i item h }

def updateAppendedItem (index : Nat) (val : V) : Except Error (Slice V) :=
  let position := index - s.sharedItems.length
  match (s.appendedItems[position]?).bind (Fibres.leave obj) with
  | none => .error (.outOfBounds index)
  | some item => .ok { s with appendedItems := s.appendedItems.set position (item.assign obj val) }

def updateAt (index : Nat) (val : V) : Except Error (Slice V) :=
  if s.sharedItems.length + s.appendedItems.length ≤ index then .error (.outOfBounds index)
  else if h : index < s.sharedItems.length then .ok (s.updateOriginalItem obj index h val)
  else s.updateAppendedItem obj index val

/-- The loop of `Append`: the first item without the object gets the value. -/
def appendFirst (obj : Id) (val : V) : List (MultiValueItem V) → Option (List (MultiValueItem V))
  | [] => none
  | item :: rest =>
    match item.get obj with
    | some _ => (appendFirst obj val rest).map (item :: ·)
    | none => some (item.assign obj val :: rest)

def append (val : V) : Slice V :=
  if s.appendedItems = [] then
    { s with
      appendedItems := [[⟨val, [obj]⟩]]
      cachedLengths := Function.update s.cachedLengths obj (some (s.sharedItems.length + 1)) }
  else match appendFirst obj val s.appendedItems with
    | some items =>
      { s with
        appendedItems := items
        cachedLengths := Function.update s.cachedLengths obj
          (some ((s.cachedLengths obj).getD s.sharedItems.length + 1)) }
    | none =>
      { s with
        appendedItems := s.appendedItems ++ [[⟨val, [obj]⟩]]
        cachedLengths := Function.update s.cachedLengths obj
          (some ((s.cachedLengths obj).getD 0 + 1)) }

/-- The entry of the map after `Detach`: an item without values is deleted. -/
def detachItem (ind : MultiValueItem V) : Option (MultiValueItem V) :=
  match ind.leave obj with
  | none => some ind
  | some [] => none
  | some rest => some rest

def detach : Slice V where
  sharedItems := s.sharedItems
  individualItems i := (s.individualItems i).bind (detachItem obj)
  appendedItems := updateWhile (Fibres.leave obj) s.appendedItems
  cachedLengths := Function.update s.cachedLengths obj none
  individualItems_lt i item h := by
    obtain ⟨old, hold, -⟩ := Option.bind_eq_some_iff.1 h
    exact s.individualItems_lt i old hold

/-- The appended values that `Reset` collects. An item without any value does not stop it. -/
def resetAppended (obj : Id) : List (MultiValueItem V) → List V
  | [] => []
  | item :: rest =>
    match item.get obj with
    | some v => v :: resetAppended obj rest
    | none => if item = [] then resetAppended obj rest else []

def reset [Inhabited V] : Option (Slice V) := do
  let l := s.len obj
  let items := s.sharedItems.take l ++ (List.replicate l default).drop s.sharedItems.length
  let items ← (List.range s.sharedItems.length).foldlM
    (fun items i => match s.individual obj i with
      | some v => write items i v
      | none => some items) items
  let items ← writeFrom items s.sharedItems.length (resetAppended obj s.appendedItems)
  return init items

end Slice

end Model

end LightChain.MultiValue
