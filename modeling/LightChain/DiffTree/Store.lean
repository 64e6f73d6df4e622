import LightChain.Library.Strides

/-!
# The tree of state diffs

The state of a slot is stored in full every `2 ^ exponents[0]` slots from the offset on, and
as a diff on the levels below: at level `i` every `2 ^ exponents[i]` slots, against the state
of the last slot on a boundary of level `i - 1`. Slots are `uint64`; none of the sums below
leaves that range, as each is at most the slot it belongs to.
-/
namespace LightChain.DiffTree
open Library.Strides

/-- `StateDiffExponents`: strictly decreasing, each between 2 and 63, at least two levels. -/
structure Exponents where
  values : List Nat
  decreasing : values.Pairwise (· > ·)
  range : ∀ e ∈ values, 2 ≤ e ∧ e < 64
  two_levels : 2 ≤ values.length

def Exponents.span (E : Exponents) (level : Nat) : Nat := 2 ^ E.values.getD level 0

inductive TreeError where
  | slotBeforeOffset
  | invalidLevel
  | exponentOutOfRange (exponent : Nat)
  | noAnchorLevel
  | slotNotInTree
  | stateNotFound
  | stateDiffNotFound
  | anchorLevelOutOfRange
  | indexOutOfRange (index : Nat)
  | inDiffTree (cause : TreeError)
  | codec (text : String)
deriving DecidableEq, Repr

def TreeError.message : TreeError → String
  | .slotBeforeOffset => "slot is before state-diff root offset"
  | .invalidLevel => "invalid value for level"
  | .exponentOutOfRange e => "state diff exponent " ++ toString e ++ " out of range for uint64"
  | .noAnchorLevel => "could not compute anchor level"
  | .slotNotInTree => "slot not in tree"
  | .stateNotFound => "state not found"
  | .stateDiffNotFound => "state diff not found"
  | .anchorLevelOutOfRange => "state diff cache: anchor level out of range"
  | .indexOutOfRange i => "index out of range " ++ toString i
  | .inDiffTree e => "could not determine if slot is in diff tree: " ++ e.message
  | .codec s => s

/-- States `σ`, their serialised form `β` and diffs `δ`. A serialised state is read back, and
a diff between two states leads from the one to the other. -/
structure Scheme (σ β δ : Type) where
  slot : σ → Nat
  marshal : σ → β
  unmarshal : β → Except TreeError σ
  diff : σ → σ → δ
  applyDiff : σ → δ → Except TreeError σ
  unmarshal_marshal (st : σ) : unmarshal (marshal st) = .ok st
  applyDiff_diff (a b : σ) : applyDiff a (diff a b) = .ok b

/-- The bucket, with the keys of level 0 and of the other levels apart, and the cache of
anchors in memory, with one place for each level but the last. -/
structure Store (σ β δ : Type) where
  offset : Nat
  snapshots : Nat → Option β := fun _ => none
  diffs : Nat → Nat → Option δ := fun _ _ => none
  anchors : List (Option σ)

variable {σ β δ : Type}

def emptyAnchors (E : Exponents) : List (Option σ) := List.replicate (E.values.length - 1) none

/-- The store after `setOffset`. -/
def Store.new (E : Exponents) (offset : Nat) : Store σ β δ := { offset, anchors := emptyAnchors E }

section Levels

def levelFrom (rel : Nat) : List Nat → Nat → Option Nat
  | [], _ => none
  | exp :: exps, i =>
    if exp < 2 ∨ 64 ≤ exp then none
    else if rel % 2 ^ exp = 0 then some i
    else levelFrom rel exps (i + 1)

/-- `none` is the level `-1` of a slot that is not in the tree. -/
def computeLevel (E : Exponents) (offset slot : Nat) : Option Nat :=
  if slot < offset then none else levelFrom (slot - offset) E.values 0

def diffChainItems (offset rel : Nat) : List Nat → Nat → Nat → List (Nat × Nat)
  | [], _, _ => []
  | exp :: exps, level, lastSeenAnchorSlot =>
    let span := 2 ^ exp
    let diffSlot := rel / span * span
    if diffSlot = lastSeenAnchorSlot then
      diffChainItems offset rel exps (level + 1) lastSeenAnchorSlot
    else (level, diffSlot + offset) :: diffChainItems offset rel exps (level + 1) diffSlot

end Levels

section Cache

def Store.getAnchor (s : Store σ β δ) (level : Nat) : Except TreeError (Option σ) :=
  match s.anchors[level]? with
  | none => .error (.indexOutOfRange level)
  | some anchor => .ok anchor

def Store.setAnchor (s : Store σ β δ) (level : Nat) (anchor : σ) :
    Except TreeError (Store σ β δ) :=
  if s.anchors.length ≤ level then .error .anchorLevelOutOfRange
  else .ok { s with anchors := s.anchors.set level (some anchor) }

def Store.clearAnchors (E : Exponents) (s : Store σ β δ) : Store σ β δ :=
  { s with anchors := emptyAnchors E }

end Cache

section Bucket

def Store.putSnapshot (s : Store σ β δ) (slot : Nat) (enc : β) : Store σ β δ :=
  { s with snapshots := fun t => if t = slot then some enc else s.snapshots t }

def Store.putDiff (s : Store σ β δ) (lvl slot : Nat) (diff : δ) : Store σ β δ :=
  { s with diffs := fun i t => if i = lvl ∧ t = slot then some diff else s.diffs i t }

end Bucket

section Reading

variable (sch : Scheme σ β δ) (E : Exponents) (s : Store σ β δ)

def getFullSnapshot (slot : Nat) : Except TreeError σ :=
  match s.snapshots slot with
  | none => .error .stateNotFound
  | some enc => sch.unmarshal enc

def getDiff (item : Nat × Nat) : Except TreeError δ :=
  match s.diffs item.1 item.2 with
  | none => .error .stateDiffNotFound
  | some diff => .ok diff

def getBaseAndDiffChain (slot : Nat) : Except TreeError (σ × List δ) :=
  if slot < s.offset then .error .slotBeforeOffset
  else
    let rel := slot - s.offset
    match computeLevel E s.offset slot with
    | none => .error .slotNotInTree
    | some lvl => do
      let baseAnchorSlot := slot - rel % E.span 0
      let items := diffChainItems s.offset rel ((E.values.drop 1).take lvl) 1 baseAnchorSlot
      let baseSnapshot ← getFullSnapshot sch s baseAnchorSlot
      let diffChain ← items.mapM (getDiff s)
      return (baseSnapshot, diffChain)

def stateByDiff (slot : Nat) : Except TreeError σ :=
  if slot < s.offset then .error .slotBeforeOffset
  else do
    let (snapshot, diffChain) ← getBaseAndDiffChain sch E s slot
    diffChain.foldlM sch.applyDiff snapshot

end Reading

section Writing

variable (sch : Scheme σ β δ) (E : Exponents) (s : Store σ β δ)

/-- The anchor from the cache, or from the bucket and then put into the cache. -/
def loadAnchor (anchorLvl anchorSlot : Nat) : Except TreeError (σ × Store σ β δ) := do
  match ← s.getAnchor anchorLvl with
  | some anchor => return (anchor, s)
  | none =>
    let anchor ← stateByDiff sch E s anchorSlot
    return (anchor, ← s.setAnchor anchorLvl anchor)

def getAnchorState (lvl slot : Nat) : Except TreeError (σ × Store σ β δ) :=
  if lvl = 0 ∨ E.values.length < lvl then .error .invalidLevel
  else if slot < s.offset then .error .slotBeforeOffset
  else
    let relSlot := slot - s.offset
    let prevExp := E.values.getD (lvl - 1) 0
    if prevExp < 2 ∨ 64 ≤ prevExp then .error (.exponentOutOfRange prevExp)
    else
      let anchorSlot := slot - relSlot % 2 ^ prevExp
      match computeLevel E s.offset anchorSlot with
      | none => .error .noAnchorLevel
      | some anchorLvl => loadAnchor sch E s anchorLvl anchorSlot

def saveFullSnapshot (st : σ) : Except TreeError (Store σ β δ) :=
  ((s.putSnapshot (sch.slot st) (sch.marshal st)).clearAnchors E).setAnchor 0 st

/-- The state goes into the cache except at the last level. -/
def saveHdiff (lvl : Nat) (anchor st : σ) : Except TreeError (Store σ β δ) :=
  let s := s.putDiff lvl (sch.slot st) (sch.diff anchor st)
  if lvl ≠ E.values.length - 1 then s.setAnchor lvl st else .ok s

def slotInDiffTree (slot : Nat) : Except TreeError (Option Nat) :=
  if slot < s.offset then .error .slotBeforeOffset else .ok (computeLevel E s.offset slot)

def saveStateByDiff (st : σ) : Except TreeError (Store σ β δ) := do
  match ← (slotInDiffTree E s (sch.slot st)).mapError .inDiffTree with
  | none => return s
  | some 0 => saveFullSnapshot sch E s st
  | some lvl =>
    let (anchor, s) ← getAnchorState sch E s lvl (sch.slot st)
    saveHdiff sch E s lvl anchor st

end Writing

/-- What happens to a store: a state is saved, or the node restarts and loses its cache. -/
inductive Event (σ : Type) where
  | save (st : σ)
  | restart

section Run

variable (sch : Scheme σ β δ) (E : Exponents)

def step (s : Store σ β δ) : Event σ → Except TreeError (Store σ β δ)
  | .save st => saveStateByDiff sch E s st
  | .restart => .ok (s.clearAnchors E)

def run (s : Store σ β δ) (events : List (Event σ)) : Except TreeError (Store σ β δ) :=
  events.foldlM (step sch E) s

def saves (events : List (Event σ)) : List σ :=
  events.filterMap fun
    | .save st => some st
    | .restart => none

end Run

end LightChain.DiffTree
