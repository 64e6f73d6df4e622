import LightChain.DataColumns.Fetch

/-!
# Faulty peers in a fetch

With enough bandwidth every selection of peers succeeds, and a round takes at least one peer away,
so that the rounds of a phase end. Only a search can then fail because of a peer: it fails exactly
when a connected peer that has custody of a wanted column has no known chain state. In a round the
sidecars of a peer are added exactly when the verifier accepts all of them.
-/
namespace LightChain.DataColumns

open LightChain.Library List

variable {Root Data Peer : Type}

/-- Errors that searching, selecting and asking peers can end with. -/
def FetchError.byPeers : FetchError Root Peer → Bool
  | .slotNotFound _ | .headSlotNotFound _ | .selectPeers | .outOfRounds => true
  | _ => false

/-- Every peer with custody of a wanted column has a known chain state. -/
def Search.Known (net : Network Root Data Peer) (s : Search Root Peer) : Prop :=
  ∀ p ∈ s.peers, (net.info s.time p).nodeID = true → ∀ columns,
    (net.info s.time p).custodyColumns = some columns →
      (∃ root, ∃ i ∈ s.wanted root, i ∈ columns) → (net.info s.time p).headSlot ≠ none

namespace Network

variable {net : Network Root Data Peer} {blocks : Blocks Root} {wanted : IndicesByRoot Root}
  {peers : List Peer} {t : Nat}

/-- Indices are wanted for known roots only. -/
def Within (blocks : Blocks Root) (wanted : IndicesByRoot Root) : Prop :=
  ∀ root, wanted root ≠ ∅ → root ∈ blocks.roots

theorem Within.mono {wanted' : IndicesByRoot Root} (h : Within blocks wanted)
    (hsub : ∀ root, wanted' root ⊆ wanted root) : Within blocks wanted' := fun root hne =>
  h root fun hempty => hne (Finset.subset_empty.1 (hempty ▸ hsub root))

theorem unplaced_iff (hwithin : Within blocks wanted) {p : Peer} :
    net.unplaced t blocks.roots wanted p = true ↔ (net.info t p).nodeID = true ∧
      ∃ columns, (net.info t p).custodyColumns = some columns ∧
        (∃ root, ∃ i ∈ wanted root, i ∈ columns) ∧ (net.info t p).headSlot = none := by
  have hmeets : ∀ columns : Finset Nat,
      (∃ root ∈ blocks.roots, wanted root ∩ columns ≠ ∅) ↔
        ∃ root, ∃ i ∈ wanted root, i ∈ columns := by
    intro columns
    constructor
    · rintro ⟨root, -, hne⟩
      obtain ⟨i, hi⟩ := Finset.nonempty_iff_ne_empty.2 hne
      exact ⟨root, i, Finset.mem_of_mem_inter_left hi, Finset.mem_of_mem_inter_right hi⟩
    · rintro ⟨root, i, hi, hc⟩
      exact ⟨root, hwithin root (Finset.ne_empty_of_mem hi),
        Finset.ne_empty_of_mem (Finset.mem_inter.2 ⟨hi, hc⟩)⟩
  rcases hinfo : net.info t p with ⟨id, _ | columns, head⟩
  · simp [unplaced, headSlotByPeer, custodies, hinfo]
  · cases id with
    | false => simp [unplaced, headSlotByPeer, custodies, hinfo]
    | true =>
      have hmeets := hmeets columns
      simp only [unplaced, headSlotByPeer, custodies, hinfo]
      simpa [and_comm] using fun _ => hmeets

theorem search_iff (net : Network Root Data Peer) (t : Nat) (peers : List Peer)
    (hslots : ∀ root ∈ blocks.roots, (blocks.slotByRoot root).isSome = true)
    (hwithin : Within blocks wanted) [DecidableEq Peer] :
    ((∃ offers, net.computeIndicesByRootByPeer blocks t wanted peers = .ok offers) ↔
        Search.Known net ⟨t, wanted, peers⟩) ∧
      ∀ e, net.computeIndicesByRootByPeer blocks t wanted peers = .error e →
        e.byPeers = true := by
  have hfound : blocks.roots.find? (fun r => decide (wanted r ≠ ∅) &&
      (blocks.slotByRoot r).isNone) = none := by
    rw [find?_eq_none]
    intro r hr
    have := hslots r hr
    simp [Option.isSome_iff_ne_none.1 this]
  rw [computeIndicesByRootByPeer, hfound]
  dsimp only
  cases hfind : peers.find? (net.unplaced t blocks.roots wanted) with
  | some p =>
    refine ⟨⟨fun ⟨_, h⟩ => (by cases h), fun hknown => ?_⟩, fun e h => by cases h; rfl⟩
    obtain ⟨hid, columns, hcols, hmeets, hnone⟩ := (unplaced_iff hwithin).1 (find?_some hfind)
    exact absurd hnone (hknown p (mem_of_find?_eq_some hfind) hid columns hcols hmeets)
  | none =>
    refine ⟨⟨fun _ p hp hid columns hcols hmeets hnone => ?_, fun _ => ⟨_, rfl⟩⟩, nofun⟩
    exact find?_eq_none.1 hfind p hp
      ((unplaced_iff hwithin).2 ⟨hid, columns, hcols, hmeets, hnone⟩)

/-- The waiting for bandwidth never ends without a peer. -/
def Bandwidth (net : Network Root Data Peer) : Prop :=
  ∀ t k ps, ps ≠ [] → net.randomPeer t k ps ≠ none

variable {offers : Peer → IndicesByRoot Root} {internal : Peer → IndicesByRoot Root}

theorem candidates_sdiff (p : Peer) : candidates blocks peers (fun q r => internal q r \ internal p r) =
    (candidates blocks peers internal).filter fun q =>
      !IndicesByRoot.isEmpty (fun r => internal q r \ internal p r) blocks.roots := by
  rw [candidates, candidates, filter_filter]
  refine filter_congr fun q _ => ?_
  cases hempty : (internal q).isEmpty blocks.roots with
  | false => simp
  | true =>
    simp only [IndicesByRoot.isEmpty, all_eq_true, decide_eq_true_eq] at hempty ⊢
    simp +contextual [hempty]

theorem length_candidates_lt {p : Peer} (hp : p ∈ candidates blocks peers internal) :
    (candidates blocks peers fun q r => internal q r \ internal p r).length <
      (candidates blocks peers internal).length := by
  rw [candidates_sdiff, length_filter_lt_length_iff_exists]
  exact ⟨p, hp, by simp [IndicesByRoot.isEmpty]⟩

/-- With bandwidth the selection succeeds, and it goes on from what was selected before. -/
theorem selectLoop_ok (hband : net.Bandwidth) {fuel : Nat}
    (hfuel : (candidates blocks peers internal).length ≤ fuel) (k : Nat)
    (toQuery : List (Peer × IndicesByRoot Root)) :
    ∃ more, net.selectLoop blocks t peers fuel k internal toQuery = .ok (toQuery ++ more) ∧
      (candidates blocks peers internal ≠ [] → ∃ q ∈ more, q.1 ∈ peers) := by
  induction fuel generalizing k internal toQuery with
  | zero =>
    have hnil : candidates blocks peers internal = [] :=
      eq_nil_of_length_eq_zero (Nat.le_zero.1 hfuel)
    exact ⟨[], by rw [selectLoop, if_pos hnil, append_nil], fun h => absurd hnil h⟩
  | succ fuel ih =>
    by_cases hnil : candidates blocks peers internal = []
    · exact ⟨[], by rw [selectLoop, if_pos hnil, append_nil], fun h => absurd hnil h⟩
    cases hpick : net.randomPeer t k (candidates blocks peers internal) with
    | none => exact absurd hpick (hband t k _ hnil)
    | some p =>
      have hmem := net.randomPeer_mem _ _ _ _ hpick
      have hlt := length_candidates_lt hmem
      have hrest : (candidates blocks peers fun q r => internal q r \ internal p r).length ≤ fuel :=
        by omega
      obtain ⟨more, hmore, -⟩ := ih hrest (k + 1) (toQuery ++ [(p, internal p)])
      refine ⟨(p, internal p) :: more, ?_,
        fun _ => ⟨(p, internal p), mem_cons_self, mem_of_mem_filter hmem⟩⟩
      rw [selectLoop, if_neg hnil, hpick]
      dsimp only
      rw [hmore, append_assoc, singleton_append]

end Network

section Phases

variable {net : Network Root Data Peer} {blocks : Blocks Root}
  {settle : (Root → List (RODataColumn Root Data)) → IndicesByRoot Root → IndicesByRoot Root}
  {st : Progress Root Data Peer}

/-- A round adds the sidecars of the peers whose sidecars are all accepted. -/
def Round.Made (v : Verifier Root Data) (round : Round Root Data Peer) : Prop :=
  ∀ c, c ∈ round.added c.root ↔ ∃ a ∈ round.answers, c ∈ a.2 ∧ ∀ c' ∈ a.2, v.accepts c' = true

theorem mem_verified {v : Verifier Root Data} {answers : List (Peer × List (RODataColumn Root Data))}
    {c : RODataColumn Root Data} :
    c ∈ verifyDataColumnSidecarsByPeer v answers ↔
      ∃ a ∈ answers, c ∈ a.2 ∧ ∀ c' ∈ a.2, v.accepts c' = true := by
  rw [verifyDataColumnSidecarsByPeer]
  cases hall : v.verify (answers.flatMap Prod.snd) with
  | ok u =>
    have hacc := Verifier.verify_eq_ok.1 hall
    simp only [mem_flatMap] at hacc ⊢
    constructor
    · rintro ⟨a, ha, hc⟩
      exact ⟨a, ha, hc, fun c' hc' => hacc c' ⟨a, ha, hc'⟩⟩
    · rintro ⟨a, ha, hc, -⟩
      exact ⟨a, ha, hc⟩
  | error e =>
    simp only [mem_flatMap]
    refine exists_congr fun a => and_congr_right fun _ => ?_
    cases hone : v.verify a.2 with
    | ok u => exact ⟨fun hc => ⟨hc, Verifier.verify_eq_ok.1 hone⟩, And.left⟩
    | error e =>
      refine ⟨nofun, fun ⟨_, hacc⟩ => ?_⟩
      rw [Verifier.verify_eq_ok.2 hacc] at hone
      cases hone

/-- What a phase does: it makes searches and rounds, and it succeeds exactly when every search
knows the chain states it needs. -/
structure Progress.Phase (net : Network Root Data Peer) (st st' : Progress Root Data Peer)
    (outcome : Except (FetchError Root Peer) Unit) : Prop where
  searches : ∃ new, st'.searches = st.searches ++ new ∧
    (outcome = .ok () ↔ ∀ s ∈ new, s.Known net)
  rounds : ∃ new, st'.rounds = st.rounds ++ new ∧ ∀ round ∈ new, round.Made net.verifier
  error : ∀ e, outcome = .error e → e.byPeers = true

theorem Progress.selectPeers_ok (hband : net.Bandwidth) {offers : Peer → IndicesByRoot Root}
    (hoffer : ¬ ∀ p ∈ st.peers, (offers p).isEmpty blocks.roots = true) :
    ∃ toQuery, net.selectPeers blocks st.time st.peers offers = .ok toQuery ∧
      ∃ q ∈ toQuery, q.1 ∈ st.peers := by
  have hne : Network.candidates blocks st.peers offers ≠ [] := by
    intro hnil
    refine hoffer fun p hp => ?_
    simpa using filter_eq_nil_iff.1 hnil p hp
  obtain ⟨toQuery, hselect, hmem⟩ := Network.selectLoop_ok (t := st.time) hband
    (length_filter_le _ st.peers : (Network.candidates blocks st.peers offers).length ≤ _) 0 []
  exact ⟨toQuery, by simpa [Network.selectPeers] using hselect, hmem hne⟩

variable [DecidableEq Peer]

/-- A search that knows the chain states succeeds; otherwise the phase ends with its error. -/
theorem Progress.search_cases (net : Network Root Data Peer)
    (hslots : ∀ root ∈ blocks.roots, (blocks.slotByRoot root).isSome = true)
    (hwithin : Network.Within blocks st.wanted) :
    (∃ offers, (st.search net blocks).1 = .ok offers ∧
        Search.Known net ⟨st.time, st.wanted, st.peers⟩) ∨
      ∃ e, (st.search net blocks).1 = .error e ∧ e.byPeers = true ∧
        ¬ Search.Known net ⟨st.time, st.wanted, st.peers⟩ := by
  obtain ⟨hiff, herror⟩ := Network.search_iff net st.time st.peers hslots hwithin
  cases hsearch : net.computeIndicesByRootByPeer blocks st.time st.wanted st.peers with
  | ok offers => exact .inl ⟨offers, hsearch, hiff.1 ⟨offers, hsearch⟩⟩
  | error e =>
    refine .inr ⟨e, hsearch, herror e hsearch, fun hknown => ?_⟩
    obtain ⟨offers, hok⟩ := hiff.2 hknown
    rw [hok] at hsearch
    cases hsearch

variable [DecidableEq Root]

theorem Progress.requestLoop_phase (hband : net.Bandwidth)
    (hslots : ∀ root ∈ blocks.roots, (blocks.slotByRoot root).isSome = true)
    (hsettle : ∀ collected wanted root, settle collected wanted root ⊆ wanted root) (fuel : Nat)
    (offers : Peer → IndicesByRoot Root) (st : Progress Root Data Peer)
    (hfuel : st.peers.length ≤ fuel) (hwithin : Network.Within blocks st.wanted) :
    st.Phase net (requestLoop net blocks settle fuel offers st).2
      (requestLoop net blocks settle fuel offers st).1 := by
  have hdone : ∀ st : Progress Root Data Peer, st.Phase net st (.ok ()) :=
    fun st => ⟨⟨[], by simp, by simp⟩, ⟨[], by simp, by simp⟩, nofun⟩
  induction fuel generalizing offers st with
  | zero =>
    have hnil : st.peers = [] := eq_nil_of_length_eq_zero (Nat.le_zero.1 hfuel)
    rw [requestLoop, if_pos (.inr (by simp [hnil]))]
    exact hdone st
  | succ fuel ih =>
    rw [requestLoop]
    split_ifs with hstop
    · exact hdone st
    obtain ⟨toQuery, hselect, q, hq, hpeer⟩ :=
      selectPeers_ok hband fun hall => hstop (.inr hall)
    rw [hselect]
    dsimp only
    -- the round takes the selected peers away and leaves no new index wanted
    set st₁ := st.advance net blocks settle toQuery with hst₁
    obtain ⟨round, hround, hmade⟩ : ∃ round, st₁.rounds = st.rounds ++ [round] ∧
        round.Made net.verifier := ⟨_, rfl, fun c => by simp [updateResults, mem_verified]⟩
    have hwithin₁ : Network.Within blocks st₁.wanted :=
      hwithin.mono fun root => (hsettle _ _ root).trans Finset.sdiff_subset
    have hpeers : st₁.peers.length < st.peers.length := by
      refine length_filter_lt_length_iff_exists.2 ⟨q.1, hpeer, ?_⟩
      simpa using ⟨q.2, hq⟩
    rcases search_cases net hslots hwithin₁ with
      ⟨offers', hsearch, hknown⟩ | ⟨e, hsearch, hby, hunknown⟩
    · have hpair : st₁.search net blocks = (.ok offers', (st₁.search net blocks).2) :=
        Prod.ext hsearch rfl
      rw [hpair]
      dsimp only
      obtain ⟨⟨searches, hsearches, hiff⟩, ⟨rounds, hrounds, hmadeAll⟩, herror⟩ :=
        ih offers' (st₁.search net blocks).2 (by change st₁.peers.length ≤ fuel; omega) hwithin₁
      refine ⟨⟨⟨st₁.time, st₁.wanted, st₁.peers⟩ :: searches, ?_, ?_⟩,
        ⟨round :: rounds, ?_, ?_⟩, herror⟩
      · rw [hsearches]
        simp [search, hst₁, advance]
      · rw [hiff]
        simp [hknown]
      · rw [hrounds]
        change st₁.rounds ++ rounds = _
        rw [hround, append_assoc, singleton_append]
      · simpa using ⟨hmade, hmadeAll⟩
    · have hpair : st₁.search net blocks = (.error e, (st₁.search net blocks).2) :=
        Prod.ext hsearch rfl
      rw [hpair]
      refine ⟨⟨[⟨st₁.time, st₁.wanted, st₁.peers⟩], rfl, ?_⟩, ⟨[round], hround, by simpa using hmade⟩,
        fun e' he' => ?_⟩
      · simpa using hunknown
      · cases he'
        exact hby

theorem Progress.request_phase (hband : net.Bandwidth)
    (hslots : ∀ root ∈ blocks.roots, (blocks.slotByRoot root).isSome = true)
    (hsettle : ∀ collected wanted root, settle collected wanted root ⊆ wanted root)
    (st : Progress Root Data Peer) (hwithin : Network.Within blocks st.wanted) :
    st.Phase net (st.request net blocks settle).2 (st.request net blocks settle).1 := by
  rw [request]
  rcases search_cases net hslots hwithin with
    ⟨offers, hsearch, hknown⟩ | ⟨e, hsearch, hby, hunknown⟩
  · have hpair : st.search net blocks = (.ok offers, (st.search net blocks).2) :=
      Prod.ext hsearch rfl
    rw [hpair]
    dsimp only
    obtain ⟨⟨searches, hsearches, hiff⟩, hrounds, herror⟩ := requestLoop_phase hband hslots hsettle
      (st.search net blocks).2.peers.length offers (st.search net blocks).2 le_rfl hwithin
    refine ⟨⟨⟨st.time, st.wanted, st.peers⟩ :: searches, ?_, ?_⟩, hrounds, herror⟩
    · rw [hsearches]
      simp [search]
    · rw [hiff]
      simp [hknown]
  · have hpair : st.search net blocks = (.error e, (st.search net blocks).2) :=
      Prod.ext hsearch rfl
    rw [hpair]
    refine ⟨⟨[⟨st.time, st.wanted, st.peers⟩], rfl, by simpa using hunknown⟩,
      ⟨[], by simp [search], by simp⟩, fun e' he' => ?_⟩
    cases he'
    exact hby

end Phases

section Errors

/-- The program ends with an error that peers cause. -/
def PeerError {α : Type} (r : Except (FetchError Root Peer) α) : Prop :=
  ∃ e, r = .error e ∧ e.byPeers = true

variable {p : FetchParams Root Data Peer} {requested : Finset Nat} {root : Root}
  {available : Root → List (RODataColumn Root Data)} {roots : List Root}

theorem PeerError.forRoots [DecidableEq Root]
    {f : Root → Except (FetchError Root Peer) (Option (List (RODataColumn Root Data)))}
    (h : PeerError (forRoots f roots)) : ∃ r, PeerError (f r) := by
  induction roots with
  | nil =>
    obtain ⟨e, he, -⟩ := h
    cases he
  | cons r rs ih =>
    obtain ⟨e, he, hby⟩ := h
    rw [DataColumns.forRoots] at he
    cases hf : f r with
    | error e' =>
      rw [hf] at he
      cases he
      exact ⟨r, e, hf, hby⟩
    | ok found =>
      rw [hf] at he
      dsimp only at he
      cases hrest : DataColumns.forRoots f rs with
      | error e' =>
        rw [hrest] at he
        cases he
        exact ih ⟨e, hrest, hby⟩
      | ok rest =>
        rw [hrest] at he
        dsimp only at he
        split at he <;> cases he

theorem StoredColumns.get_not_peerError (st : StoredColumns Root Data) (root : Root)
    (indices : Option (List Nat)) :
    ¬ PeerError (st.get root indices : Except (FetchError Root Peer) _) := by
  rintro ⟨e, he, hby⟩
  rw [get] at he
  split at he
  · cases he
    cases hby
  · split_ifs at he
    cases he
    cases hby

theorem Recovery.reconstruct_not_peerError [DecidableEq Root] (rec : Recovery Root Data)
    (cs : List (RODataColumn Root Data)) :
    ¬ PeerError (rec.reconstructDataColumnSidecars cs : Except (FetchError Root Peer) _) := by
  rintro ⟨e, he, hby⟩
  rw [reconstructDataColumnSidecars.eq_def] at he
  split at he
  · cases he
    cases hby
  · split_ifs at he
    · cases he
      cases hby
    · cases he
      cases hby
    · cases he
      cases hby
    · split at he <;> cases he
      cases hby

theorem readBlocks_not_peerError {bs : List (ROBlock Root)} :
    ¬ PeerError (readBlocks bs : Except (FetchError Root Peer) _) := by
  rintro ⟨e, he, hby⟩
  induction bs with
  | nil => cases he
  | cons b bs ih =>
    rw [readBlocks] at he
    split at he
    · cases he
      cases hby
    split at he
    next e' hrest =>
      cases he
      exact ih hrest
    · cases he

namespace FetchParams

theorem assembleForRoot_not_peerError :
    ¬ PeerError (p.assembleAvailableSidecarsForRoot requested available root) := by
  rintro ⟨e, he, hby⟩
  rw [assembleAvailableSidecarsForRoot] at he
  split at he
  next e' hget =>
    cases he
    exact p.storage.get_not_peerError root _ ⟨e, hget, hby⟩
  · cases he

variable [DecidableEq Root]

theorem fromStorage_not_peerError :
    ¬ PeerError (p.requestSidecarsFromStorage requested roots) := by
  intro h
  obtain ⟨r, e, he, hby⟩ := h.forRoots
  split_ifs at he
  split at he
  next e' hget =>
    cases he
    exact p.storage.get_not_peerError r _ ⟨e, hget, hby⟩
  · cases he

theorem merge_not_peerError :
    ¬ PeerError (p.mergeAvailableSidecars requested available roots) := by
  intro h
  obtain ⟨r, e, he, hby⟩ := h.forRoots
  split_ifs at he
  · split at he
    next e' hget =>
      cases he
      exact p.storage.get_not_peerError r _ ⟨e, hget, hby⟩
    next stored hget =>
    split at he
    next e' hrec =>
      cases he
      exact p.recovery.reconstruct_not_peerError _ ⟨e, hrec, hby⟩
    · cases he
  · split at he
    next e' hasm =>
      cases he
      exact assembleForRoot_not_peerError ⟨e, hasm, hby⟩
    · cases he

theorem assemble_not_peerError :
    ¬ PeerError (p.assembleAvailableSidecars requested available roots) := by
  rintro ⟨e, he, hby⟩
  rw [assembleAvailableSidecars] at he
  split at he
  next e' hroots =>
    cases he
    obtain ⟨r, e', he', hby'⟩ := PeerError.forRoots ⟨e, hroots, hby⟩
    split at he'
    next e'' hasm =>
      cases he'
      exact assembleForRoot_not_peerError ⟨e', hasm, hby'⟩
    · cases he'
  · cases he

theorem finish_not_peerError {result direct : Root → List (RODataColumn Root Data)}
    {indirect : Progress Root Data Peer} :
    ¬ PeerError (p.finish requested roots result direct indirect) := by
  rintro ⟨e, he, hby⟩
  rw [finish] at he
  split at he
  next e' hmerge =>
    cases he
    exact merge_not_peerError ⟨e, hmerge, hby⟩
  · dsimp only at he
    split_ifs at he
    split at he
    next e' hasm =>
      cases he
      exact assemble_not_peerError ⟨e, hasm, hby⟩
    · cases he

end FetchParams

end Errors

section Fetch

variable {p : FetchParams Root Data Peer} {requested : Finset Nat}

/-- What is recorded of a program: an error of peers is a search that did not know a chain state,
and the rounds were made. -/
structure Recorded {α : Type} (net : Network Root Data Peer)
    (r : Except (FetchError Root Peer) α) (searches : List (Search Root Peer))
    (rounds : List (Round Root Data Peer)) : Prop where
  error_iff : PeerError r ↔ ¬ ∀ s ∈ searches, s.Known net
  made : ∀ round ∈ rounds, round.Made net.verifier

variable {net : Network Root Data Peer}

theorem Recorded.phase {st st' : Progress Root Data Peer}
    {outcome : Except (FetchError Root Peer) Unit} (h : st.Phase net st' outcome)
    (hknown : ∀ s ∈ st.searches, s.Known net) (hmade : ∀ round ∈ st.rounds, round.Made net.verifier) :
    Recorded net outcome st'.searches st'.rounds := by
  obtain ⟨⟨searches, hsearches, hiff⟩, ⟨rounds, hrounds, hmade'⟩, herror⟩ := h
  have hall : (∀ s ∈ st'.searches, s.Known net) ↔ ∀ s ∈ searches, s.Known net := by
    rw [hsearches]
    simp only [mem_append, or_imp, forall_and]
    exact and_iff_right hknown
  refine ⟨?_, fun round hround => ?_⟩
  · rw [hall, ← hiff]
    cases outcome with
    | ok u => exact ⟨fun ⟨_, h, _⟩ => (by cases h), fun h => absurd rfl h⟩
    | error e => exact ⟨fun _ h => (by cases h), fun _ => ⟨e, rfl, herror e rfl⟩⟩
  · rw [hrounds, mem_append] at hround
    exact hround.elim (hmade round) (hmade' round)

variable {rounds : List (Round Root Data Peer)} {searches : List (Search Root Peer)}

theorem Recorded.andThen {α : Type} {u : Unit} (h : Recorded net (.ok u) searches rounds)
    {r : Except (FetchError Root Peer) α} (hr : ¬ PeerError r) :
    Recorded net r searches rounds := by
  have hno : ¬ PeerError (.ok u : Except (FetchError Root Peer) Unit) := fun ⟨_, h, _⟩ => by cases h
  exact ⟨⟨fun h => absurd h hr, fun hs => absurd (h.error_iff.2 hs) hno⟩, h.made⟩

theorem Recorded.error {α : Type} {e : FetchError Root Peer}
    (h : Recorded net (.error e : Except _ Unit) searches rounds) :
    Recorded net (.error e : Except _ α) searches rounds := by
  have hiff : PeerError (.error e : Except (FetchError Root Peer) α) ↔
      PeerError (.error e : Except (FetchError Root Peer) Unit) := by
    simp [PeerError]
  exact ⟨hiff.trans h.error_iff, h.made⟩

variable [DecidableEq Root]

theorem slotByRoot_isSome {bs : List (ROBlock Root)} {root : Root}
    (h : root ∈ (Blocks.of bs).roots) : ((Blocks.of bs).slotByRoot root).isSome = true := by
  obtain ⟨b, hb, rfl⟩ := mem_map.1 (mem_dedup.1 h)
  simpa [Blocks.of] using ⟨b, hb, rfl⟩

variable [DecidableEq Peer]

namespace FetchParams

theorem continueIndirect_recorded (hband : p.net.Bandwidth) {blocks : Blocks Root}
    (hslots : ∀ root ∈ blocks.roots, (blocks.slotByRoot root).isSome = true)
    {incomplete : List Root} (hsub : incomplete ⊆ blocks.roots)
    {result : Root → List (RODataColumn Root Data)} {direct : Progress Root Data Peer} {u : Unit}
    (h : Recorded p.net (.ok u) direct.searches direct.rounds) :
    Recorded p.net (p.continueIndirect requested blocks incomplete result direct).1
      (p.continueIndirect requested blocks incomplete result direct).2.searches
      (p.continueIndirect requested blocks incomplete result direct).2.rounds := by
  have hknown : ∀ s ∈ direct.searches, s.Known p.net := by
    by_contra hno
    obtain ⟨e, he, -⟩ := h.error_iff.2 hno
    cases he
  rw [continueIndirect]
  cases hmerge : p.mergeAvailableSidecars requested direct.collected incomplete with
  | error e =>
    exact h.andThen fun ⟨e', he', hby⟩ => by
      cases he'
      exact merge_not_peerError ⟨e, hmerge, hby⟩
  | ok res =>
    obtain ⟨merged, still⟩ := res
    dsimp only
    split_ifs with hnil
    · exact h.andThen fun ⟨_, he, _⟩ => by cases he
    have hwithin : Network.Within blocks (p.startIndirect still direct).wanted := by
      intro root hne
      by_cases hroot : root ∈ still
      · exact hsub ((forRoots_sublist hmerge).subset hroot)
      · exact absurd (if_neg hroot) hne
    have hsettle collected wanted root :
        p.settleIndirect requested collected wanted root ⊆ wanted root := by
      rw [settleIndirect]
      split_ifs <;> simp
    have hphase := Recorded.phase ((p.startIndirect still direct).request_phase hband hslots
      hsettle hwithin) hknown h.made
    rw [← requestIndirectSidecarsFromPeers] at hphase
    generalize p.requestIndirectSidecarsFromPeers requested blocks still direct = indirect at hphase ⊢
    obtain ⟨outcome, indirect⟩ := indirect
    cases outcome with
    | error e => exact hphase.error
    | ok u => exact hphase.andThen finish_not_peerError

theorem fetch_recorded (p : FetchParams Root Data Peer) (requested : Finset Nat)
    (roBlocks : List (ROBlock Root)) (hband : p.net.Bandwidth) :
    Recorded p.net (p.fetchDataColumnSidecars requested roBlocks).1
      (p.fetchDataColumnSidecars requested roBlocks).2.searches
      (p.fetchDataColumnSidecars requested roBlocks).2.rounds := by
  have hstart : Recorded p.net (.ok () : Except (FetchError Root Peer) Unit) [] [] :=
    ⟨⟨fun ⟨_, h, _⟩ => (by cases h), fun h => absurd (by simp) h⟩, by simp⟩
  rw [fetchDataColumnSidecars]
  dsimp only
  split_ifs
  · exact hstart.andThen fun ⟨_, he, _⟩ => by cases he
  cases hread : (readBlocks roBlocks : Except (FetchError Root Peer) _) with
  | error e =>
    exact hstart.andThen fun ⟨e', he', hby⟩ => by
      cases he'
      exact readBlocks_not_peerError ⟨e, hread, hby⟩
  | ok bs =>
    dsimp only
    cases hstore : p.requestSidecarsFromStorage requested (Blocks.of bs).roots with
    | error e =>
      exact hstart.andThen fun ⟨e', he', hby⟩ => by
        cases he'
        exact fromStorage_not_peerError ⟨e, hstore, hby⟩
    | ok res =>
      obtain ⟨result, incomplete⟩ := res
      dsimp only
      have hsub := (forRoots_sublist hstore).subset
      split_ifs
      · exact hstart.andThen fun ⟨_, he, _⟩ => by cases he
      have hwithin : Network.Within (Blocks.of bs) (p.startDirect requested incomplete).wanted := by
        intro root hne
        by_cases hroot : root ∈ incomplete
        · exact hsub hroot
        · exact absurd (if_neg hroot) hne
      have hphase := Recorded.phase ((p.startDirect requested incomplete).request_phase hband
        (fun _ => slotByRoot_isSome) (fun _ _ _ => Finset.Subset.refl _) hwithin)
        (fun s hs => by cases hs) (fun round hround => by cases hround)
      rw [← requestDirectSidecarsFromPeers] at hphase
      generalize p.requestDirectSidecarsFromPeers requested (Blocks.of bs) incomplete = direct
        at hphase ⊢
      obtain ⟨outcome, direct⟩ := direct
      cases outcome with
      | error e => exact hphase.error
      | ok u =>
        exact continueIndirect_recorded hband (fun _ => slotByRoot_isSome) hsub hphase

end FetchParams

/-- A queried peer that does not answer or sends a sidecar that is not accepted. -/
def Round.Faulty (v : Verifier Root Data) (round : Round Root Data Peer) (q : Peer) : Prop :=
  q ∈ round.queried ∧ ((∀ a ∈ round.answers, a.1 ≠ q) ∨
    ∃ a ∈ round.answers, a.1 = q ∧ ∃ c ∈ a.2, v.accepts c = false)

/-- Next to a faulty peer, every sidecar of another peer that is accepted on its own is added. -/
def Round.Keeps (v : Verifier Root Data) (round : Round Root Data Peer) : Prop :=
  ∀ q, round.Faulty v q → ∀ a ∈ round.answers, a.1 ≠ q → ∀ c ∈ a.2, v.accepts c = true →
    c ∈ round.added c.root

/-- Next to a faulty peer, every sidecar of another peer that is accepted on its own comes in an
answer without a sidecar that is not accepted. -/
def Round.Unmixed (v : Verifier Root Data) (round : Round Root Data Peer) : Prop :=
  ∀ q, round.Faulty v q → ∀ a ∈ round.answers, a.1 ≠ q → ∀ c ∈ a.2, v.accepts c = true →
    ∃ a' ∈ round.answers, c ∈ a'.2 ∧ ∀ c' ∈ a'.2, v.accepts c' = true

/-- With enough bandwidth: no error comes from peers and no round loses an accepted sidecar next to
a faulty peer, exactly when every search knows the chain state of each peer with custody of a
wanted column and no peer mixes accepted sidecars with others next to a faulty peer. -/
theorem fetch_tolerates_iff (p : FetchParams Root Data Peer) (requested : Finset Nat)
    (roBlocks : List (ROBlock Root)) (hband : p.net.Bandwidth) :
    (¬ PeerError (p.fetchDataColumnSidecars requested roBlocks).1 ∧
        ∀ round ∈ (p.fetchDataColumnSidecars requested roBlocks).2.rounds,
          round.Keeps p.net.verifier) ↔
      (∀ s ∈ (p.fetchDataColumnSidecars requested roBlocks).2.searches, s.Known p.net) ∧
        ∀ round ∈ (p.fetchDataColumnSidecars requested roBlocks).2.rounds,
          round.Unmixed p.net.verifier := by
  have hrec := p.fetch_recorded requested roBlocks hband
  refine and_congr (by rw [hrec.error_iff, not_not]) (forall₂_congr fun round hround => ?_)
  simp only [Round.Keeps, Round.Unmixed, hrec.made round hround _]

/-- An empty store and peers `8` and `9` with custody of two columns: `9` never answers, and its
head slot is given. -/
private def twoPeers (head : Option Nat)
    (answers : Option (List (Option (RODataColumn Nat Nat)))) : FetchParams Nat Nat Nat where
  net :=
    { slotsPerEpoch := 32
      maxRequestDataColumnSidecars := 16384
      verifier := ⟨fun _ => true, fun _ => true, fun _ => true⟩
      connected := fun _ => [8, 9]
      info := fun _ q => ⟨true, some {0, 1}, if q = 9 then head else some 10⟩
      randomPeer := fun _ _ ps => ps.head?
      randomPeer_mem := fun _ _ _ _ h => mem_of_head? h
      answer := fun _ q _ => if q = 9 then none else answers }
  storage := .empty
  recovery := ⟨fun _ => 0, fun _ => none⟩

private theorem twoPeers_bandwidth (head : Option Nat)
    (answers : Option (List (Option (RODataColumn Nat Nat)))) :
    (twoPeers head answers).net.Bandwidth := by
  rintro t k (_ | ⟨q, ps⟩) hne
  · exact absurd rfl hne
  · exact nofun

/-- Neither peer answers: there is no error, and the searches knew the chain states. -/
theorem fetch_tolerates_silence : (twoPeers (some 10) none).net.Bandwidth ∧
    (∀ s ∈ ((twoPeers (some 10) none).fetchDataColumnSidecars {0, 1} [⟨5, 1, some 1⟩]).2.searches,
      s.Known (twoPeers (some 10) none).net) := by
  refine ⟨twoPeers_bandwidth _ _, ((fetch_tolerates_iff (twoPeers (some 10) none) {0, 1}
    [⟨5, 1, some 1⟩] (twoPeers_bandwidth _ _)).1 ⟨?_, ?_⟩).1⟩
  · rintro ⟨e, he, -⟩
    have hok : ((twoPeers (some 10) none).fetchDataColumnSidecars {0, 1}
        [⟨5, 1, some 1⟩]).1.isOk = true := by decide +kernel
    rw [he] at hok
    cases hok
  · have hnone : (((twoPeers (some 10) none).fetchDataColumnSidecars {0, 1}
        [⟨5, 1, some 1⟩]).2.rounds.all fun round => round.answers.isEmpty) = true := by
      decide +kernel
    intro round hround q _ a ha
    rw [List.isEmpty_iff.1 (all_eq_true.1 hnone round hround)] at ha
    cases ha

/-- The chain state of peer `9` is not known: the call fails, although peer `8` would send both
columns. -/
theorem unknown_chain_state_fails :
    (twoPeers none (some [some ⟨5, 1, 0, 0⟩, some ⟨5, 1, 1, 0⟩])).net.Bandwidth ∧
    PeerError ((twoPeers none (some [some ⟨5, 1, 0, 0⟩, some ⟨5, 1, 1, 0⟩])).fetchDataColumnSidecars
      {0, 1} [⟨5, 1, some 1⟩]).1 := by
  refine ⟨twoPeers_bandwidth _ _, ?_⟩
  have herr : (match ((twoPeers none (some [some ⟨5, 1, 0, 0⟩,
      some ⟨5, 1, 1, 0⟩])).fetchDataColumnSidecars {0, 1} [⟨5, 1, some 1⟩]).1 with
    | .error e => e.byPeers
    | .ok _ => false) = true := by decide +kernel
  split at herr
  next e he => exact ⟨e, he, herr⟩
  · cases herr

end Fetch

end LightChain.DataColumns
