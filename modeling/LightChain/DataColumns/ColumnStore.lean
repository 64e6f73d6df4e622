import LightChain.Library.WriteOnce

/-!
# Data column sidecars and the set of stored ones

A sidecar is named by its block root and its column index. A column store keeps the first sidecar
that is saved under a name.
-/
namespace LightChain.DataColumns

open LightChain.Library

def numberOfColumns : Nat := 128

structure RODataColumn (Root Data : Type) where
  slot : Nat
  root : Root
  index : Nat
  data : Data
  deriving DecidableEq

/-- What a block has to have columns for: `commitments` is the number of its commitments, `none` for
a body that has none to read. -/
structure ROBlock (Root : Type) where
  slot : Nat
  root : Root
  commitments : Option Nat

variable {Root Data : Type} [DecidableEq Root]

def RODataColumn.key (c : RODataColumn Root Data) : Root × Nat := (c.root, c.index)

abbrev Columns (Root Data : Type) := Root × Nat → Option (RODataColumn Root Data)

variable (m : Columns Root Data)

def Columns.save (cs : List (RODataColumn Root Data)) : Columns Root Data :=
  putAll RODataColumn.key m cs

/-- What the storage summary of a root says about an index. -/
def Columns.hasIndex (root : Root) (i : Nat) : Bool :=
  decide (i < numberOfColumns) && (m (root, i)).isSome

variable {m m' : Columns Root Data} {cs : List (RODataColumn Root Data)}
  {c : RODataColumn Root Data}

omit [DecidableEq Root] in
theorem Columns.isSome_of_hasIndex {root : Root} {i : Nat} (h : m.hasIndex root i = true) :
    (m (root, i)).isSome = true := (Bool.and_eq_true_iff.1 h).2

/-- `Get`: the stored columns among the given indices, in their order; all columns when no indices
are given. With a stored column among them, an index that is too large is an error. -/
def Columns.get (root : Root) (indices : Option (List Nat)) :
    Option (List (RODataColumn Root Data)) :=
  let indices := indices.getD (List.range numberOfColumns)
  if !indices.any (m.hasIndex root) then some []
  else if indices.any (decide <| · ≥ numberOfColumns) then none
  else some (indices.filterMap fun i => m (root, i))

section Verifier

inductive VerifyError
  | validFields
  | inclusionProof
  | kzgProof
  deriving DecidableEq

/-- The verdicts on single columns. -/
structure Verifier (Root Data : Type) where
  validFields : RODataColumn Root Data → Bool
  inclusionProven : RODataColumn Root Data → Bool
  kzgProofVerified : RODataColumn Root Data → Bool

namespace Verifier

def accepts (v : Verifier Root Data) (c : RODataColumn Root Data) : Bool :=
  v.validFields c && v.inclusionProven c && v.kzgProofVerified c

def verify (v : Verifier Root Data) (cs : List (RODataColumn Root Data)) :
    Except VerifyError Unit :=
  if !cs.all v.validFields then .error .validFields
  else if !cs.all v.inclusionProven then .error .inclusionProof
  else if !cs.all v.kzgProofVerified then .error .kzgProof
  else .ok ()

omit [DecidableEq Root] in
theorem verify_eq_ok {v : Verifier Root Data} :
    v.verify cs = .ok () ↔ ∀ c ∈ cs, v.accepts c = true := by
  simp only [verify, accepts, Bool.and_eq_true]
  split_ifs with hv hi hk <;> simp at hv <;> grind

end Verifier

end Verifier

end LightChain.DataColumns
