import LightChain.DataColumns.ColumnStore
import LightChain.Library.ShiftDown

/-!
# The lazily persistent column store

Columns that peers sent wait in a cache until their blocks are checked. The check takes those that
are not stored from the cache, verifies them together and saves them. When the batch fails, the
bisector of backfill splits it by the peer each column came from; each peer's group is verified and
saved on its own, and the columns of a failing group are noted for a retry.

Other routines may save verified columns at the same time: what they save appears whenever the
store is read or written.
-/
namespace LightChain.DataColumns

open LightChain.Library

inductive DataError (Root : Type)
  | columnIndexTooHigh (index : Nat)
  | missingSidecar (root : Root) (index : Nat)
  | commitments (root : Root)
  | custody (root : Root)
  | verification (e : VerifyError)
  | save
  | rootNotTracked
  | indexNotTracked
  | columnVerification
  deriving DecidableEq

structure CacheKey (Root : Type) where
  slot : Nat
  root : Root
  deriving DecidableEq

/-- The waiting columns, each under its own slot, root and index. -/
structure DataColumnCache (Root Data : Type) where
  entries : CacheKey Root → Nat → Option (RODataColumn Root Data)
  keyed : ∀ k i c, entries k i = some c → c.slot = k.slot ∧ c.root = k.root ∧ c.index = i

structure ColumnBisector (Root Data Peer : Type) where
  columnSource : Root → List (Nat × Peer)
  bisected : Peer → List (RODataColumn Root Data)
  /-- The peers that have a group. -/
  pids : List Peer
  errs : List (DataError Root)
  failures : Root → Finset Nat
  grouped : ∀ p, bisected p ≠ [] → p ∈ pids

/-- How a call of `Save` ends: a failing one may leave a part of its columns stored. -/
inductive SaveOutcome (Root Data : Type)
  | saved
  | failed (stored : RODataColumn Root Data → Bool)

/-- What a call meets: the retention window, the custody columns, the verdicts on columns, the
outcomes of saves, what others save meanwhile, and the orders in which maps are walked. -/
structure Surroundings (Root Data Peer : Type) where
  shouldRetain : Nat → Bool
  /-- The custody columns of the node; `none` when they cannot be computed. -/
  custody : Option (Finset Nat)
  verifier : Verifier Root Data
  saves : Nat → SaveOutcome Root Data
  others : Nat → List (RODataColumn Root Data)
  others_verified : ∀ t, ∀ c ∈ others t, verifier.accepts c = true
  indexOrder : Nat → Finset Nat → List Nat
  mem_indexOrder : ∀ t s i, i ∈ indexOrder t s ↔ i ∈ s
  peerOrder : List Peer → List Peer
  mem_peerOrder : ∀ ps p, p ∈ peerOrder ps ↔ p ∈ ps

/-- The column store, with the number of times it was read or written. -/
structure Disk (Root Data : Type) where
  columns : Columns Root Data
  clock : Nat

structure LazyStore (Root Data Peer : Type) where
  disk : Disk Root Data
  cache : DataColumnCache Root Data
  bisector : ColumnBisector Root Data Peer

variable {Root Data Peer : Type} [DecidableEq Root]

namespace DataColumnCache

def new : DataColumnCache Root Data := ⟨fun _ _ => none, fun _ _ _ h => by cases h⟩

variable (cache : DataColumnCache Root Data)

def insert (c : RODataColumn Root Data) :
    DataColumnCache Root Data where
  entries k i := if k = ⟨c.slot, c.root⟩ ∧ i = c.index then some c else cache.entries k i
  keyed k i d h := by
    split_ifs at h with hk
    · cases h
      simp [hk]
    · exact cache.keyed k i d h

def stash (c : RODataColumn Root Data) : Except (DataError Root) (DataColumnCache Root Data) :=
  if c.index ≥ numberOfColumns then .error (.columnIndexTooHigh c.index)
  else .ok (cache.insert c)

def cleanup (blks : List (ROBlock Root)) :
    DataColumnCache Root Data where
  entries k i := if blks.any (fun b => k = ⟨b.slot, b.root⟩) then none else cache.entries k i
  keyed k i d h := by
    split_ifs at h with hk
    exact cache.keyed k i d h

/-- The columns of a block are appended, unless one is missing. -/
def append (key : CacheKey Root) (sidecars : List (RODataColumn Root Data)) (check take : List Nat) :
    Except (DataError Root) (List (RODataColumn Root Data)) :=
  match check.find? fun i => (cache.entries key i).isNone with
  | some i => .error (.missingSidecar key.root i)
  | none => .ok (sidecars ++ take.filterMap (cache.entries key))

end DataColumnCache

/-- A failing column stops the call; those before it stay. -/
def persist (cache : DataColumnCache Root Data) :
    List (RODataColumn Root Data) → Except (DataError Root) Unit × DataColumnCache Root Data
  | [] => (.ok (), cache)
  | c :: cs =>
    match cache.stash c with
    | .error e => (.error e, cache)
    | .ok cache => persist cache cs

namespace Surroundings

def required (w : Surroundings Root Data Peer) (b : ROBlock Root) :
    Except (DataError Root) (Finset Nat) :=
  if !w.shouldRetain b.slot then .ok ∅
  else match b.commitments with
    | none => .error (.commitments b.root)
    | some 0 => .ok ∅
    | some _ =>
      match w.custody with
      | none => .error (.custody b.root)
      | some indices => .ok indices

end Surroundings

namespace Disk

variable (w : Surroundings Root Data Peer) (d : Disk Root Data) (cs : List (RODataColumn Root Data))

/-- The store when it is next used: others may have saved columns. -/
def access : Disk Root Data :=
  ⟨d.columns.save (w.others d.clock), d.clock + 1⟩

def save : Except (DataError Root) Unit × Disk Root Data :=
  let d := d.access w
  match w.saves d.clock with
  | .saved => (.ok (), { d with columns := d.columns.save cs })
  | .failed stored => (.error .save, { d with columns := d.columns.save (cs.filter stored) })

def verifyAndSave : Except (DataError Root) Unit × Disk Root Data :=
  if cs = [] then (.ok (), d)
  else match w.verifier.verify cs with
    | .error e => (.error (.verification e), d)
    | .ok () => d.save w cs

/-- Which of the sidecars are stored. The summary is read again when the root changes; before the
first reading there is an empty one, which stands for the zero root. -/
def storedFlags [Zero Root] (w : Surroundings Root Data Peer) :
    List (RODataColumn Root Data) → Root → (Nat → Bool) → Disk Root Data →
      List Bool × Disk Root Data
  | [], _, _, d => ([], d)
  | c :: cs, lastRoot, sum, d =>
    let d' := if c.root ≠ lastRoot then d.access w else d
    let sum' := if c.root ≠ lastRoot then d'.columns.hasIndex c.root else sum
    let rest := storedFlags w cs c.root sum' d'
    (sum' c.index :: rest.1, rest.2)

/-- The sidecars that are not stored, with what is left in the array they came in. -/
def columnsNotStored [Zero Root] :
    (List (RODataColumn Root Data) × List (RODataColumn Root Data)) × Disk Root Data :=
  let flags := storedFlags w cs 0 (fun _ => false) d
  if flags.1.all (! ·) then ((cs, cs), flags.2)
  else
    let shifted := shiftDown Prod.snd (cs.zip flags.1)
    let array := shifted.1.map Prod.fst
    ((array.take (cs.length - shifted.2), array), flags.2)

theorem length_storedFlags [Zero Root] (lastRoot : Root) (sum : Nat → Bool) (d : Disk Root Data) :
    (storedFlags w cs lastRoot sum d).1.length = cs.length := by
  induction cs generalizing lastRoot sum d with
  | nil => rfl
  | cons c cs ih => simp [storedFlags, ih]

theorem length_columnsNotStored [Zero Root] : (columnsNotStored w d cs).1.2.length = cs.length := by
  rw [columnsNotStored]
  dsimp only
  split_ifs
  · rfl
  · have hlen := (shiftDown_shifted Prod.snd (cs.zip (storedFlags w cs 0 (fun _ => false) d).1)).length_eq
    rw [List.length_map, hlen, List.length_zip, length_storedFlags, Nat.min_self]

end Disk

variable [DecidableEq Peer]

namespace ColumnBisector

def new : ColumnBisector Root Data Peer where
  columnSource _ := []
  bisected _ := []
  pids := []
  errs := []
  failures _ := ∅
  grouped _ h := absurd rfl h

variable (b : ColumnBisector Root Data Peer)

def setColumnSource (root : Root) (index : Nat) (pid : Peer) : ColumnBisector Root Data Peer :=
  { b with
    columnSource := Function.update b.columnSource root
      ((index, pid) :: (b.columnSource root).filter fun p => p.1 ≠ index) }

def addPeerColumns (pid : Peer) (cs : List (RODataColumn Root Data)) :
    ColumnBisector Root Data Peer :=
  cs.foldl (fun b c => b.setColumnSource c.root c.index pid) b

def failuresFor (root : Root) : Finset Nat := b.failures root

/-- The sources of failed columns are forgotten, and the failures. The groups stay. -/
def reset : ColumnBisector Root Data Peer :=
  { b with
    columnSource := fun r => (b.columnSource r).filter fun p => p.1 ∉ b.failures r
    failures := fun _ => ∅
    errs := [] }

def peerFor (c : RODataColumn Root Data) : Except (DataError Root) Peer :=
  let sources := b.columnSource c.root
  if sources = [] then .error .rootNotTracked
  else match sources.lookup c.index with
    | some pid => .ok pid
    | none => .error .indexNotTracked

def assign (pid : Peer) (c : RODataColumn Root Data) : ColumnBisector Root Data Peer :=
  { b with
    bisected := Function.update b.bisected pid (b.bisected pid ++ [c])
    pids := if pid ∈ b.pids then b.pids else b.pids ++ [pid]
    grouped := fun p hp => by
      by_cases hpid : p = pid
      · subst hpid
        split_ifs with h
        · exact h
        · simp
      · rw [Function.update_of_ne hpid] at hp
        have hmem := b.grouped p hp
        split_ifs
        · exact hmem
        · exact List.mem_append_left _ hmem }

/-- Columns are grouped by their peers. A column without one stops it; the groups made so far
stay. -/
def bisect (b : ColumnBisector Root Data Peer) :
    List (RODataColumn Root Data) →
      Except (DataError Root) Unit × ColumnBisector Root Data Peer
  | [] => (.ok (), b)
  | c :: cs =>
    match b.peerFor c with
    | .error e => (.error e, b)
    | .ok pid => (b.assign pid c).bisect cs

/-- The group of a peer after it was filtered in place. -/
def regroup (pid : Peer) (array : List (RODataColumn Root Data))
    (same : array.length = (b.bisected pid).length) : ColumnBisector Root Data Peer :=
  { b with
    bisected := Function.update b.bisected pid array
    grouped := fun p hp => by
      refine b.grouped p fun hnil => hp ?_
      by_cases hpid : p = pid
      · subst hpid
        rw [Function.update_self]
        exact List.eq_nil_of_length_eq_zero (by rw [same, hnil]; rfl)
      · rwa [Function.update_of_ne hpid] }

def onError (pid : Peer) (e : DataError Root) : ColumnBisector Root Data Peer :=
  { b with
    errs := b.errs ++ [e]
    failures := (b.bisected pid).foldl
      (fun failures c => Function.update failures c.root (insert c.index (failures c.root)))
      b.failures }

def error : Except (DataError Root) Unit :=
  if b.errs = [] then .ok () else .error .columnVerification

end ColumnBisector

/-- Each peer's group is verified and saved on its own. -/
def bisectLoop [Zero Root] (w : Surroundings Root Data Peer) :
    List Peer → ColumnBisector Root Data Peer → Disk Root Data →
      ColumnBisector Root Data Peer × Disk Root Data
  | [], b, d => (b, d)
  | pid :: pids, b, d =>
    let filtered := d.columnsNotStored w (b.bisected pid)
    let b := b.regroup pid filtered.1.2 (Disk.length_columnsNotStored w d (b.bisected pid))
    match filtered.2.verifyAndSave w filtered.1.1 with
    | (.ok (), d) => bisectLoop w pids b d
    | (.error e, d) => bisectLoop w pids (b.onError pid e) d

def bisectVerification [Zero Root] (w : Surroundings Root Data Peer)
    (b : ColumnBisector Root Data Peer) (d : Disk Root Data)
    (cs : List (RODataColumn Root Data)) :
    Except (DataError Root) Unit × ColumnBisector Root Data Peer × Disk Root Data :=
  if cs = [] then (.ok (), b, d)
  else match b.bisect cs with
    | (.error e, b) => (.error e, b, d)
    | (.ok (), b) =>
      let done := bisectLoop w (w.peerOrder b.pids) b d
      (done.1.error, done)

/-- The columns of the blocks that have to be verified. -/
def toVerify (w : Surroundings Root Data Peer) (cache : DataColumnCache Root Data) :
    List (ROBlock Root) → List (RODataColumn Root Data) → Disk Root Data →
      Except (DataError Root) (List (RODataColumn Root Data)) × Disk Root Data
  | [], cs, d => (.ok cs, d)
  | b :: blks, cs, d =>
    match w.required b with
    | .error e => (.error e, d)
    | .ok indices =>
      if indices = ∅ then toVerify w cache blks cs d
      else
        let d := d.access w
        let needed := indices.filter fun i => !d.columns.hasIndex b.root i
        match cache.append ⟨b.slot, b.root⟩ cs (w.indexOrder (2 * d.clock) needed)
            (w.indexOrder (2 * d.clock + 1) needed) with
        | .error e => (.error e, d)
        | .ok cs => toVerify w cache blks cs d

namespace LazyStore

def isDataAvailable [Zero Root] (w : Surroundings Root Data Peer) (s : LazyStore Root Data Peer)
    (blks : List (ROBlock Root)) : Except (DataError Root) Unit × LazyStore Root Data Peer :=
  match toVerify w s.cache blks [] s.disk with
  | (.error e, d) => (.error e, { s with disk := d })
  | (.ok cs, d) =>
    match d.verifyAndSave w cs with
    | (.ok (), d) => (.ok (), { s with disk := d, cache := s.cache.cleanup blks })
    | (.error _, d) =>
      match bisectVerification w s.bisector d cs with
      | (.error e, b, d) => (.error e, { s with disk := d, bisector := b })
      | (.ok (), b, d) => (.ok (), ⟨d, s.cache.cleanup blks, b⟩)

/-- What happens to the store between two checks of blocks, and the checks themselves. -/
inductive Call (Root Data Peer : Type)
  | persist (sidecars : List (RODataColumn Root Data))
  | addPeerColumns (pid : Peer) (columns : List (RODataColumn Root Data))
  | reset
  | isDataAvailable (w : Surroundings Root Data Peer) (blks : List (ROBlock Root))
  /-- Other routines save and prune columns. -/
  | disk (columns : Columns Root Data)

def perform [Zero Root] (s : LazyStore Root Data Peer) :
    Call Root Data Peer → LazyStore Root Data Peer
  | .persist sidecars => { s with cache := (DataColumns.persist s.cache sidecars).2 }
  | .addPeerColumns pid cs => { s with bisector := s.bisector.addPeerColumns pid cs }
  | .reset => { s with bisector := s.bisector.reset }
  | .isDataAvailable w blks => (s.isDataAvailable w blks).2
  | .disk columns => { s with disk := { s.disk with columns := columns } }

def new (columns : Columns Root Data) : LazyStore Root Data Peer :=
  ⟨⟨columns, 0⟩, .new, .new⟩

end LazyStore

end LightChain.DataColumns
