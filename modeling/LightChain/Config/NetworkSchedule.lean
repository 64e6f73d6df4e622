import LightChain.Epoch.State

/-!
# The network schedule

The forks of the configuration and the entries of its blob schedule are merged into one schedule. A
pass over it gives every entry the fork version and the blob limit that are in force from its epoch
on, and the digest of these values. An epoch is looked up by the last entry at or before it, a
digest by the first entry that has it.
-/
namespace LightChain.Config
open Epoch Library

/-- The fork digest of a version, and what the blob parameters add to it. The zero values are those
of entries that are not filled in. -/
structure DigestScheme (V D : Type) where
  forkDigest : V → D
  mix : D → Nat → Nat → D
  zeroVersion : V
  zeroDigest : D

structure NetworkScheduleEntry (V D : Type) where
  epoch : Nat
  isFork : Bool
  forkVersion : V
  versionEnum : Version
  maxBlobsPerBlock : Nat
  bpoEpoch : Nat
  forkDigest : D
deriving DecidableEq, Repr

structure BlobScheduleEntry where
  epoch : Nat
  maxBlobsPerBlock : Nat
deriving DecidableEq, Repr

/-- The fields of the configuration that the schedule is made of. -/
structure ForkConfig (V : Type) where
  genesisForkVersion : V
  altairForkEpoch : Nat
  altairForkVersion : V
  bellatrixForkEpoch : Nat
  bellatrixForkVersion : V
  capellaForkEpoch : Nat
  capellaForkVersion : V
  denebForkEpoch : Nat
  denebForkVersion : V
  electraForkEpoch : Nat
  electraForkVersion : V
  fuluForkEpoch : Nat
  fuluForkVersion : V
  deprecatedMaxBlobsPerBlock : Int
  deprecatedMaxBlobsPerBlockElectra : Int
  blobSchedule : List BlobScheduleEntry

inductive PrepareError where
  | emptySchedule
  | noForkEntry
  | maxBlobsTooLarge
deriving DecidableEq, Repr

def PrepareError.message : PrepareError → String
  | .emptySchedule => "cannot compute digests for an empty network schedule"
  | .noForkEntry => "cannot compute digests for a network schedule without a fork entry"
  | .maxBlobsTooLarge => "max blobs per block exceeds maximum uint32 value"

section Model

variable {V D : Type} (dg : DigestScheme V D)

structure NetworkSchedule (V D : Type) where
  entries : List (NetworkScheduleEntry V D)
  byEpoch : Nat → Option (NetworkScheduleEntry V D) := fun _ => none
  byVersion : V → Option (NetworkScheduleEntry V D) := fun _ => none
  byDigest : D → Option (NetworkScheduleEntry V D) := fun _ => none

/-- A fork entry as the configuration gives it. -/
def forkEntry (epoch : Nat) (v : V) (enum : Version) (limit : Int := 0) :
    NetworkScheduleEntry V D where
  epoch := epoch
  isFork := true
  forkVersion := v
  versionEnum := enum
  maxBlobsPerBlock := (limit % 2 ^ 64).toNat
  bpoEpoch := 0
  forkDigest := dg.zeroDigest

variable (b : ForkConfig V)

def initForkSchedule : List (NetworkScheduleEntry V D) :=
  [forkEntry dg genesisEpoch b.genesisForkVersion .phase0,
    forkEntry dg b.altairForkEpoch b.altairForkVersion .altair,
    forkEntry dg b.bellatrixForkEpoch b.bellatrixForkVersion .bellatrix,
    forkEntry dg b.capellaForkEpoch b.capellaForkVersion .capella,
    forkEntry dg b.denebForkEpoch b.denebForkVersion .deneb b.deprecatedMaxBlobsPerBlock,
    forkEntry dg b.electraForkEpoch b.electraForkVersion .electra
      b.deprecatedMaxBlobsPerBlockElectra,
    forkEntry dg b.fuluForkEpoch b.fuluForkVersion .fulu]

def blobEntry (x : BlobScheduleEntry) : NetworkScheduleEntry V D where
  epoch := x.epoch
  isFork := false
  forkVersion := dg.zeroVersion
  versionEnum := .phase0
  maxBlobsPerBlock := x.maxBlobsPerBlock
  bpoEpoch := x.epoch
  forkDigest := dg.zeroDigest

def initBPOSchedule : List (NetworkScheduleEntry V D) :=
  (b.blobSchedule.insertionSort fun x y => x.epoch ≤ y.epoch).map (blobEntry dg)

/-- The order of the merged schedule: at one epoch forks come before other entries. -/
def less (x y : NetworkScheduleEntry V D) : Bool :=
  if x.epoch = y.epoch then
    if x.isFork && y.isFork then decide (x.versionEnum < y.versionEnum) else x.isFork
  else decide (x.epoch < y.epoch)

/-- The entry does not come after the other one. -/
def NotAfter (x y : NetworkScheduleEntry V D) : Prop := less y x = false

instance : DecidableRel (NotAfter (V := V) (D := D)) := fun x y =>
  inferInstanceAs (Decidable (less y x = false))

def merge (xs ys : List (NetworkScheduleEntry V D)) : List (NetworkScheduleEntry V D) :=
  (xs ++ ys).insertionSort NotAfter

variable [DecidableEq V] [DecidableEq D] (ns : NetworkSchedule V D)

def NetworkSchedule.index (e : NetworkScheduleEntry V D) : NetworkSchedule V D :=
  { ns with
    byDigest := if (ns.byDigest e.forkDigest).isSome then ns.byDigest
      else Function.update ns.byDigest e.forkDigest (some e)
    byVersion := if (ns.byVersion e.forkVersion).isSome then ns.byVersion
      else Function.update ns.byVersion e.forkVersion (some e)
    byEpoch := if (ns.byEpoch e.epoch).isSome then ns.byEpoch
      else Function.update ns.byEpoch e.epoch (some e) }

def entryWithForkDigest (e : NetworkScheduleEntry V D) :
    Except PrepareError (NetworkScheduleEntry V D) :=
  let digest := dg.forkDigest e.forkVersion
  if e.epoch < b.fuluForkEpoch then .ok { e with forkDigest := digest }
  else if 2 ^ 32 - 1 < e.maxBlobsPerBlock then .error .maxBlobsTooLarge
  else .ok { e with forkDigest := dg.mix digest e.bpoEpoch e.maxBlobsPerBlock }

/-- The last fork and the last entry that sets a blob limit. -/
structure Carried (V D : Type) where
  lastFork : NetworkScheduleEntry V D
  lastBlobs : Option (NetworkScheduleEntry V D)

/-- An entry takes the fork version of the last fork if it is no fork, and the blob limit of the
last entry that sets one if it sets none. -/
def Carried.carry (s : Carried V D) (e : NetworkScheduleEntry V D) :
    NetworkScheduleEntry V D × Carried V D :=
  let lastFork := if e.isFork then e else s.lastFork
  let e := if e.isFork then e else
    { e with forkVersion := lastFork.forkVersion, versionEnum := lastFork.versionEnum }
  if 0 < e.maxBlobsPerBlock ∨ e.isFork = false then
    let e := { e with bpoEpoch := e.epoch }
    (e, { lastFork := lastFork, lastBlobs := some e })
  else
    match s.lastBlobs with
    | some blobs =>
      ({ e with maxBlobsPerBlock := blobs.maxBlobsPerBlock, bpoEpoch := blobs.bpoEpoch },
        { lastFork := lastFork, lastBlobs := s.lastBlobs })
    | none => (e, { lastFork := lastFork, lastBlobs := none })

/-- The pass over the rest of the entries. An error leaves the rest as it is. -/
def prepareLoop (b : ForkConfig V) (s : Carried V D) (ns : NetworkSchedule V D) :
    List (NetworkScheduleEntry V D) → NetworkSchedule V D × Option PrepareError
  | [] => (ns, none)
  | e :: rest =>
    match entryWithForkDigest dg b (s.carry e).1 with
    | .error err => ({ ns with entries := ns.entries ++ e :: rest }, some err)
    | .ok e' =>
      prepareLoop b (s.carry e).2 ({ ns with entries := ns.entries ++ [e'] }.index e') rest

/-- Entries at the far future epoch are dropped. -/
def prepare (entries : List (NetworkScheduleEntry V D)) :
    NetworkSchedule V D × Option PrepareError :=
  match entries.takeWhile fun e => decide (e.epoch ≠ farFutureEpoch) with
  | [] => ({ entries := [] }, some .emptySchedule)
  | e :: rest =>
    if e.isFork then
      match entryWithForkDigest dg b e with
      | .error err => ({ entries := e :: rest }, some err)
      | .ok e' =>
        prepareLoop dg b { lastFork := e', lastBlobs := none }
          ((⟨[e'], fun _ => none, fun _ => none, fun _ => none⟩ : NetworkSchedule V D).index e') rest
    else ({ entries := e :: rest }, some .noForkEntry)

/-- An error is logged only. -/
def initializeForkSchedule : NetworkSchedule V D :=
  (prepare dg b (merge (initForkSchedule dg b) (initBPOSchedule dg b))).1

def genesisNetworkScheduleEntry : NetworkScheduleEntry V D :=
  forkEntry dg genesisEpoch b.genesisForkVersion .phase0

/-- The entry at the last index whose epoch is reached. -/
def getNetworkScheduleEntry (epoch : Nat) : NetworkScheduleEntry V D :=
  (ns.entries.reverse.find? fun e => decide (e.epoch ≤ epoch)).getD (genesisNetworkScheduleEntry dg b)

def forkDigest (epoch : Nat) : D :=
  (getNetworkScheduleEntry dg b ns epoch).forkDigest

def forkDataFromDigest (digest : D) : Option (V × Nat) :=
  (ns.byDigest digest).map fun e => (e.forkVersion, e.epoch)

end Model

end LightChain.Config
