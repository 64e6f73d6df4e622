import LightChain.DataColumns.ColumnStore
import LightChain.Library.MachineInt

/-!
# Asking peers for data column sidecars

Wanted columns are asked for in rounds. A search says which connected peer can be asked for which
wanted columns; peers are chosen at random until everything on offer is covered; each chosen peer
is asked by slot range or by block root, and its answer is checked against the request; the answers
are verified in one batch or, when that fails, peer by peer. Chosen peers are not asked again.

What peers and the random source do is input: `time` counts the searches of a call.
-/
namespace LightChain.DataColumns

open LightChain.Library

inductive FetchError (Root Peer : Type)
  | commitments (root : Root)
  | storage (root : Root)
  | slotNotFound (root : Root)
  | headSlotNotFound (peer : Peer)
  | selectPeers
  | notEnoughColumns
  | columnLengthsDiffer
  | blockRootMismatch
  | recover
  | outOfRounds
  deriving DecidableEq

structure PeerInfo where
  /-- Whether its id can be mapped to a node id. -/
  nodeID : Bool
  custodyColumns : Option (Finset Nat)
  headSlot : Option Nat

inductive Request (Root : Type)
  | byRange (startSlot count : Nat) (columns : List Nat)
  | byRoot (identifiers : List (Root × List Nat))

structure Network (Root Data Peer : Type) where
  slotsPerEpoch : Nat
  maxRequestDataColumnSidecars : Nat
  verifier : Verifier Root Data
  connected : Nat → List Peer
  info : Nat → Peer → PeerInfo
  /-- A peer with enough bandwidth, drawn from the candidates; `none` when the waiting ends. -/
  randomPeer : Nat → Nat → List Peer → Option Peer
  randomPeer_mem : ∀ t k ps p, randomPeer t k ps = some p → p ∈ ps
  /-- The chunks of an answer, `none` for one that cannot be read; `none` when nothing is sent. -/
  answer : Nat → Peer → Request Root → Option (List (Option (RODataColumn Root Data)))

variable {Root Data Peer : Type} [DecidableEq Root] [DecidableEq Peer]

/-- `SortedSliceFromMap`: the indices in ascending order. -/
def sortedSliceFromMap (s : Finset Nat) : List Nat := (List.range (s.sup id + 1)).filter (· ∈ s)

@[simp] theorem mem_sortedSliceFromMap {s : Finset Nat} {i : Nat} :
    i ∈ sortedSliceFromMap s ↔ i ∈ s := by
  have hle : i ∈ s → i ≤ s.sup id := fun hi => Finset.le_sup (f := id) hi
  simp only [sortedSliceFromMap, List.mem_filter, List.mem_range, decide_eq_true_eq]
  exact ⟨And.right, fun hi => ⟨Nat.lt_succ_of_le (hle hi), hi⟩⟩

abbrev IndicesByRoot (Root : Type) := Root → Finset Nat

def IndicesByRoot.isEmpty (m : IndicesByRoot Root) (roots : List Root) : Bool :=
  roots.all fun r => m r = ∅

/-- The blocks a call is about: the slot of each root, the roots and slots with commitments. -/
structure Blocks (Root : Type) where
  slotByRoot : Root → Option Nat
  roots : List Root
  slotsWithCommitments : List Nat

namespace Network

variable (net : Network Root Data Peer)

def custodies (t : Nat) (p : Peer) : Finset Nat :=
  if (net.info t p).nodeID then (net.info t p).custodyColumns.getD ∅ else ∅

def headSlotByPeer (t : Nat) (p : Peer) : Option Nat :=
  if (net.info t p).nodeID && (net.info t p).custodyColumns.isSome then
    (net.info t p).headSlot.map (add64 · net.slotsPerEpoch)
  else none

/-- Whether a peer has a wanted column and no head slot. -/
def unplaced (t : Nat) (roots : List Root) (wanted : IndicesByRoot Root) (p : Peer) : Bool :=
  (net.headSlotByPeer t p).isNone && roots.any fun r => wanted r ∩ net.custodies t p ≠ ∅

def computeIndicesByRootByPeer (blocks : Blocks Root) (t : Nat) (wanted : IndicesByRoot Root)
    (peers : List Peer) : Except (FetchError Root Peer) (Peer → IndicesByRoot Root) :=
  match blocks.roots.find? fun r => decide (wanted r ≠ ∅) && (blocks.slotByRoot r).isNone with
  | some r => .error (.slotNotFound r)
  | none =>
    match peers.find? (net.unplaced t blocks.roots wanted) with
    | some p => .error (.headSlotNotFound p)
    | none => .ok fun p r =>
        match blocks.slotByRoot r, net.headSlotByPeer t p with
        | some slot, some head =>
          if p ∈ peers ∧ slot ≤ head then wanted r ∩ net.custodies t p else ∅
        | _, _ => ∅

def candidates (blocks : Blocks Root) (peers : List Peer) (internal : Peer → IndicesByRoot Root) :
    List Peer := peers.filter fun p => !(internal p).isEmpty blocks.roots

/-- Peers are chosen until nothing that is on offer is left; `fuel` bounds the number of them. -/
def selectLoop (net : Network Root Data Peer) (blocks : Blocks Root) (t : Nat) (peers : List Peer) :
    Nat → Nat → (Peer → IndicesByRoot Root) → List (Peer × IndicesByRoot Root) →
      Except (FetchError Root Peer) (List (Peer × IndicesByRoot Root))
  | 0, _, internal, toQuery =>
    if candidates blocks peers internal = [] then .ok toQuery else .error .outOfRounds
  | fuel + 1, k, internal, toQuery =>
    if candidates blocks peers internal = [] then .ok toQuery
    else match net.randomPeer t k (candidates blocks peers internal) with
      | none => .error .selectPeers
      | some p =>
        selectLoop net blocks t peers fuel (k + 1) (fun q r => internal q r \ internal p r)
          (toQuery ++ [(p, internal p)])

def selectPeers (blocks : Blocks Root) (t : Nat) (peers : List Peer)
    (offers : Peer → IndicesByRoot Root) :
    Except (FetchError Root Peer) (List (Peer × IndicesByRoot Root)) :=
  net.selectLoop blocks t peers peers.length 0 offers []

end Network

section Requests

/-- Whether no block with commitments lies strictly between two slots. -/
def noneBetween (slotsWithCommitments : List Nat) (previous current : Nat) : Bool :=
  !slotsWithCommitments.any fun j => decide (previous < j ∧ j < current)

/-- Whether the sorted slots have no block with commitments between them. -/
def contiguous (slotsWithCommitments : List Nat) : List Nat → Bool
  | previous :: current :: slots =>
    noneBetween slotsWithCommitments previous current &&
      contiguous slotsWithCommitments (current :: slots)
  | _ => true

def batchSize : Nat := 32

def rangeRequests (startSlot endSlot : Nat) (columns : List Nat) : List (Request Root) :=
  (List.range ((endSlot - startSlot) / batchSize + 1)).map fun k =>
    let start := startSlot + batchSize * k
    let stop := min (start + batchSize - 1) endSlot
    .byRange start (stop - start + 1) columns

/-- Requests by range, when all roots want the same columns and the slots are contiguous; `none`
when a slot is not known. -/
def buildByRangeRequests (blocks : Blocks Root) (indicesByRoot : IndicesByRoot Root) :
    Option (List (Request Root)) :=
  match blocks.roots.filter fun r => indicesByRoot r ≠ ∅ with
  | [] => some []
  | root :: rest =>
    let reference := indicesByRoot root
    if rest.any fun r => indicesByRoot r ≠ reference then some []
    else match (root :: rest).mapM blocks.slotByRoot with
      | none => none
      | some slots =>
        let slots := slots.insertionSort (· ≤ ·)
        if !contiguous blocks.slotsWithCommitments slots then some []
        else some (rangeRequests (slots.headD 0) (slots.getLastD 0)
          (sortedSliceFromMap reference))

def buildByRootRequest (blocks : Blocks Root) (indicesByRoot : IndicesByRoot Root) :
    List (Root × List Nat) :=
  (blocks.roots.filter fun r => indicesByRoot r ≠ ∅).map fun r => (r, sortedSliceFromMap (indicesByRoot r))

/-- An answer is read chunk by chunk, each checked with what was read before it; a chunk too many
is an error. -/
def readAnswer {σ : Type} (validate : σ → RODataColumn Root Data → Option σ) :
    Nat → σ → List (Option (RODataColumn Root Data)) → Option (List (RODataColumn Root Data))
  | _, _, [] => some []
  | 0, _, _ :: _ => none
  | _ + 1, _, none :: _ => none
  | n + 1, s, some c :: chunks =>
    match validate s c with
    | none => none
    | some s => (readAnswer validate n s chunks).map (c :: ·)

/-- `areSidecarsOrdered`: the slot and the index of the last sidecar are kept. -/
def areSidecarsOrdered (last : Nat × Nat) (c : RODataColumn Root Data) : Option (Nat × Nat) :=
  if c.slot < last.1 then none
  else
    let index := if c.slot > last.1 then 0 else last.2
    if c.index < index then none else some (c.slot, c.index)

def validateByRange (startSlot endSlot : Nat) (columns : List Nat) (last : Nat × Nat)
    (c : RODataColumn Root Data) : Option (Nat × Nat) :=
  match areSidecarsOrdered last c with
  | none => none
  | some last =>
    if c.index ∉ columns then none
    else if ¬ (startSlot ≤ c.slot ∧ c.slot < endSlot) then none
    else some last

def isSidecarIndexRootRequested (identifiers : List (Root × List Nat)) (_ : Unit)
    (c : RODataColumn Root Data) : Option Unit :=
  if identifiers.any fun id => id.1 = c.root ∧ c.index ∈ id.2 then some () else none

def Request.size : Request Root → Nat
  | .byRange _ count columns => count * columns.length
  | .byRoot identifiers => (identifiers.map fun id => id.2.length).sum

def Network.send (net : Network Root Data Peer) (t : Nat) (p : Peer) (request : Request Root) :
    Option (List (RODataColumn Root Data)) :=
  if request.size = 0 then some []
  else if request.size > net.maxRequestDataColumnSidecars then none
  else match net.answer t p request with
    | none => none
    | some chunks =>
      match request with
      | .byRange startSlot count columns =>
        match safeAdd64 startSlot count with
        | none => none
        | some endSlot =>
          readAnswer (validateByRange startSlot endSlot columns) request.size (0, 0) chunks
      | .byRoot identifiers =>
        readAnswer (isSidecarIndexRootRequested identifiers) request.size () chunks

def Network.sendDataColumnSidecarsRequest (net : Network Root Data Peer) (blocks : Blocks Root)
    (t : Nat) (p : Peer) (indicesByRoot : IndicesByRoot Root) :
    Option (List (RODataColumn Root Data)) :=
  match buildByRangeRequests blocks indicesByRoot with
  | none => none
  | some [] => net.send t p (.byRoot (buildByRootRequest blocks indicesByRoot))
  | some requests => (requests.mapM (net.send t p)).map List.flatten

end Requests

def Network.fetchDataColumnSidecarsFromPeers (net : Network Root Data Peer) (blocks : Blocks Root)
    (t : Nat) (toQuery : List (Peer × IndicesByRoot Root)) :
    List (Peer × List (RODataColumn Root Data)) :=
  toQuery.filterMap fun q =>
    (net.sendDataColumnSidecarsRequest blocks t q.1 q.2).map fun cs => (q.1, cs)

/-- All answers are verified at once; when that fails, those of each peer, and a peer with an
invalid sidecar has all its sidecars rejected. -/
def verifyDataColumnSidecarsByPeer (v : Verifier Root Data)
    (answers : List (Peer × List (RODataColumn Root Data))) : List (RODataColumn Root Data) :=
  let all := answers.flatMap Prod.snd
  match v.verify all with
  | .ok () => all
  | .error _ => answers.flatMap fun a =>
      match v.verify a.2 with
      | .ok () => a.2
      | .error _ => []

/-- The verified sidecars by root, and the indices that are still wanted. -/
def updateResults (verified : List (RODataColumn Root Data)) (wanted : IndicesByRoot Root) :
    (Root → List (RODataColumn Root Data)) × IndicesByRoot Root :=
  (fun r => verified.filter fun c => c.root = r,
    fun r => wanted r \ ((verified.filter fun c => c.root = r).map RODataColumn.index).toFinset)

structure Search (Root Peer : Type) where
  time : Nat
  wanted : IndicesByRoot Root
  peers : List Peer

structure Round (Root Data Peer : Type) where
  queried : List Peer
  answers : List (Peer × List (RODataColumn Root Data))
  added : Root → List (RODataColumn Root Data)

/-- The state of a phase: what is wanted, the peers not asked yet, what was collected, and the
record of searches and rounds. -/
structure Progress (Root Data Peer : Type) where
  wanted : IndicesByRoot Root
  peers : List Peer
  collected : Root → List (RODataColumn Root Data)
  time : Nat
  searches : List (Search Root Peer)
  rounds : List (Round Root Data Peer)

namespace Progress

variable (net : Network Root Data Peer) (blocks : Blocks Root)

def search (st : Progress Root Data Peer) :
    Except (FetchError Root Peer) (Peer → IndicesByRoot Root) × Progress Root Data Peer :=
  (net.computeIndicesByRootByPeer blocks st.time st.wanted st.peers,
    { st with time := st.time + 1, searches := st.searches ++ [⟨st.time, st.wanted, st.peers⟩] })

variable
  (settle : (Root → List (RODataColumn Root Data)) → IndicesByRoot Root → IndicesByRoot Root)

/-- The queried peers answer, and what is verified is collected. `settle` says which of the
indices that are still wanted have to be asked for again. -/
def advance (toQuery : List (Peer × IndicesByRoot Root)) (st : Progress Root Data Peer) :
    Progress Root Data Peer :=
  let queried := toQuery.map Prod.fst
  let answers := net.fetchDataColumnSidecarsFromPeers blocks st.time toQuery
  let updated := updateResults (verifyDataColumnSidecarsByPeer net.verifier answers) st.wanted
  let collected r := st.collected r ++ updated.1 r
  { st with
    wanted := settle collected updated.2
    peers := st.peers.filter (· ∉ queried)
    collected := collected
    rounds := st.rounds ++ [⟨queried, answers, updated.1⟩] }

/-- Rounds go on while something is wanted and on offer; `fuel` bounds their number. -/
def requestLoop :
    Nat → (Peer → IndicesByRoot Root) → Progress Root Data Peer →
      Except (FetchError Root Peer) Unit × Progress Root Data Peer
  | fuel, offers, st =>
    if st.wanted.isEmpty blocks.roots ∨ ∀ p ∈ st.peers, (offers p).isEmpty blocks.roots then
      (.ok (), st)
    else match fuel with
      | 0 => (.error .outOfRounds, st)
      | fuel + 1 =>
        match net.selectPeers blocks st.time st.peers offers with
        | .error e => (.error e, st)
        | .ok toQuery =>
          match (st.advance net blocks settle toQuery).search net blocks with
          | (.error e, st) => (.error e, st)
          | (.ok offers, st) => requestLoop fuel offers st

def request (st : Progress Root Data Peer) :
    Except (FetchError Root Peer) Unit × Progress Root Data Peer :=
  match st.search net blocks with
  | (.error e, st) => (.error e, st)
  | (.ok offers, st) => requestLoop net blocks settle st.peers.length offers st

/-- A state goes on from another: more rounds, and what they added is collected. -/
structure Continues (st st' : Progress Root Data Peer) (new : List (Round Root Data Peer)) :
    Prop where
  rounds : st'.rounds = st.rounds ++ new
  collected : ∀ root, st'.collected root = st.collected root ++ new.flatMap fun round =>
    round.added root

theorem requestLoop_continues (fuel : Nat) (offers : Peer → IndicesByRoot Root)
    (st : Progress Root Data Peer) :
    ∃ new, st.Continues (requestLoop net blocks settle fuel offers st).2 new := by
  have hsame : ∃ new, st.Continues st new := ⟨[], by simp, by simp⟩
  induction fuel generalizing offers st with
  | zero =>
    rw [requestLoop]
    split_ifs <;> exact hsame
  | succ fuel ih =>
    rw [requestLoop]
    split_ifs
    · exact hsame
    split
    · exact hsame
    next toQuery hselect =>
    have hstep : ∃ round, st.Continues
        ((st.advance net blocks settle toQuery).search net blocks).2 [round] :=
      ⟨_, rfl, fun root => by simp [search, advance]⟩
    obtain ⟨round, hround⟩ := hstep
    split
    next e st' hsearch =>
      rw [hsearch] at hround
      exact ⟨_, hround⟩
    next offers' st' hsearch =>
    rw [hsearch] at hround
    obtain ⟨new, hnew⟩ := ih offers' st' ⟨[], by simp, by simp⟩
    refine ⟨round :: new, ?_, fun root => ?_⟩
    · rw [hnew.rounds, hround.rounds]
      simp
    · rw [hnew.collected, hround.collected]
      simp

theorem request_continues (st : Progress Root Data Peer) :
    ∃ new, st.Continues (request net blocks settle st).2 new := by
  rw [request]
  split
  next e st' hsearch =>
    obtain rfl : (st.search net blocks).2 = st' := congrArg Prod.snd hsearch
    exact ⟨[], by simp [search], by simp [search]⟩
  next offers st' hsearch =>
  obtain rfl : (st.search net blocks).2 = st' := congrArg Prod.snd hsearch
  obtain ⟨new, hnew⟩ := requestLoop_continues net blocks settle
    (st.search net blocks).2.peers.length offers (st.search net blocks).2
  exact ⟨new, hnew.rounds, hnew.collected⟩

end Progress

end LightChain.DataColumns
