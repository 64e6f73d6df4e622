import LightChain.DataColumns.FetchPeers

/-!
# The columns that selected peers are asked for

`selectPeers` works on a copy of its input, deletes from the nested maps of that copy, and returns
references into it. Here the maps are kept by copy, and the result is read when the loop has ended.
-/
namespace LightChain.DataColumns

variable {Root Data Peer : Type} [DecidableEq Peer]

inductive Copy where
  | original
  | listed
  | internal
deriving DecidableEq

abbrev Maps (Root Peer : Type) := Copy → Peer → IndicesByRoot Root

def copyIndicesByRootByPeer (source target : Copy) (maps : Maps Root Peer) : Maps Root Peer :=
  Function.update maps target (maps source)

/-- `present` are the keys of the internal copy and `selected` those of the result, whose values are
the maps that the internal copy had under these keys. -/
structure Selection (Root Peer : Type) where
  maps : Maps Root Peer
  present : List Peer
  selected : List Peer := []

namespace Selection

def start (peers : List Peer) (offers : Peer → IndicesByRoot Root) : Selection Root Peer where
  maps := copyIndicesByRootByPeer .listed .internal
    (copyIndicesByRootByPeer .original .listed fun _ => offers)
  present := peers

variable (w : Selection Root Peer) (blocks : Blocks Root)

def toQuery : Peer → IndicesByRoot Root := w.maps .internal

def assigned : List (Peer × IndicesByRoot Root) := w.selected.map fun p => (p, w.toQuery p)

/-- What the peer is asked for is deleted from the other peers, and so are those that have nothing
left. The listed copy loses the peer. -/
def take (p : Peer) : Selection Root Peer :=
  let present := w.present.filter (· ≠ p)
  let internal (q : Peer) : IndicesByRoot Root := fun r =>
    if q ∈ present then w.maps .internal q r \ w.maps .internal p r else w.maps .internal q r
  let listed := Function.update (w.maps .listed) p fun _ => ∅
  { maps := Function.update (Function.update w.maps .listed listed) .internal internal
    present := present.filter fun q => !(internal q).isEmpty blocks.roots
    selected := w.selected ++ [p] }

/-- The loop for a sequence of random choices. Without a choice it ends with an error. -/
def select : List Peer → Selection Root Peer → Option (Selection Root Peer)
  | [], w => if w.present = [] then some w else none
  | p :: choices, w => if p ∈ w.present then select choices (w.take blocks p) else none

def Covers (r : Root) (i : Nat) : Prop := ∃ q ∈ w.selected, i ∈ w.toQuery q r

variable {w blocks} {peers : List Peer} {offers : Peer → IndicesByRoot Root}

/-- The assigned, the remaining and the original pairs. -/
structure Parts (blocks : Blocks Root) (peers : List Peer) (offers : Peer → IndicesByRoot Root)
    (w : Selection Root Peer) : Prop where
  original : w.maps .original = offers
  serves : ∀ q ∈ w.selected ++ w.present, q ∈ peers ∧
    (∃ r ∈ blocks.roots, ∃ i, i ∈ w.toQuery q r) ∧ ∀ r, ∀ i ∈ w.toQuery q r, i ∈ offers q r
  apart : ∀ q ∈ w.selected, ∀ q' ∈ w.selected, ∀ r, ∀ i ∈ w.toQuery q r, i ∈ w.toQuery q' r → q = q'
  remaining : ∀ p ∈ w.present, p ∉ w.selected ∧
    ∀ r i, i ∈ w.toQuery p r ↔ i ∈ offers p r ∧ ¬ w.Covers r i
  left : ∀ p ∈ peers, ∀ r ∈ blocks.roots, ∀ i ∈ offers p r, p ∈ w.present ∨ w.Covers r i

section Take

variable {p q : Peer}

theorem mem_toQuery_take {r : Root} {i : Nat} : i ∈ (w.take blocks p).toQuery q r ↔
    i ∈ w.toQuery q r ∧ (q ∈ w.present → q ≠ p → i ∉ w.toQuery p r) := by
  by_cases hq : q ∈ w.present ∧ q ≠ p
  · simp [take, toQuery, hq]
  · simp only [take, toQuery, Function.update_self, List.mem_filter, decide_eq_true_eq, if_neg hq]
    tauto

theorem mem_present_take : q ∈ (w.take blocks p).present ↔
    (q ∈ w.present ∧ q ≠ p) ∧ ∃ r ∈ blocks.roots, ∃ i, i ∈ (w.take blocks p).toQuery q r := by
  simp only [take, toQuery, IndicesByRoot.isEmpty, List.mem_filter, Function.update_self]
  simp [Finset.eq_empty_iff_forall_notMem]

theorem mem_selected_take : q ∈ (w.take blocks p).selected ↔ q ∈ w.selected ∨ q = p := by
  simp [take]

theorem Parts.take (h : Parts blocks peers offers w) (hp : p ∈ w.present) :
    Parts blocks peers offers (w.take blocks p) := by
  have hcovers : ∀ r i, (w.take blocks p).Covers r i ↔ w.Covers r i ∨ i ∈ w.toQuery p r := by
    intro r i
    simp only [Covers, mem_selected_take, mem_toQuery_take]
    grind [h.remaining]
  obtain ⟨horiginal, hserves, hapart, hremaining, hleft⟩ := h
  refine ⟨?_, ?_, ?_, ?_, ?_⟩
  · simp [Selection.take, horiginal]
  · intro q hq
    simp only [List.mem_append, mem_selected_take, mem_present_take, mem_toQuery_take] at hq ⊢
    grind
  · simp only [mem_selected_take, mem_toQuery_take]
    grind [Covers]
  · simp only [mem_present_take, hcovers, mem_selected_take, mem_toQuery_take]
    grind
  · simp only [mem_present_take, hcovers, mem_toQuery_take]
    grind

end Take

theorem Parts.select (h : Parts blocks peers offers w) {choices : List Peer}
    {w' : Selection Root Peer} (hrun : select blocks choices w = some w') :
    Parts blocks peers offers w' ∧ w'.present = [] := by
  induction choices generalizing w with
  | nil =>
    rw [Selection.select, Option.ite_none_right_eq_some, Option.some_inj] at hrun
    obtain ⟨hnil, rfl⟩ := hrun
    exact ⟨h, hnil⟩
  | cons p choices ih =>
    rw [Selection.select, Option.ite_none_right_eq_some] at hrun
    exact ih (h.take hrun.1) hrun.2

omit [DecidableEq Peer] in
theorem parts_start (hoffers : ∀ p ∈ peers, ∃ r ∈ blocks.roots, ∃ i, i ∈ offers p r) :
    Parts blocks peers offers (.start peers offers) :=
  ⟨rfl, fun q hq => ⟨hq, hoffers q hq, fun _ _ hi => hi⟩, nofun,
    fun _ _ => ⟨nofun, fun _ _ => (and_iff_left nofun).symm⟩, fun _ hp _ _ _ _ => .inl hp⟩

/-- Every pair on offer is assigned to one peer, which offers it, and the input is not changed. -/
theorem select_partition (hoffers : ∀ p ∈ peers, ∃ r ∈ blocks.roots, ∃ i, i ∈ offers p r)
    {choices : List Peer} (hrun : select blocks choices (.start peers offers) = some w) :
    (∀ p ∈ peers, ∀ r ∈ blocks.roots, ∀ i ∈ offers p r,
        ∃! q, q ∈ w.selected ∧ i ∈ w.toQuery q r) ∧
      (∀ q ∈ w.selected, q ∈ peers ∧ (∃ r ∈ blocks.roots, ∃ i, i ∈ w.toQuery q r) ∧
        ∀ r, ∀ i ∈ w.toQuery q r, i ∈ offers q r) ∧
      w.maps .original = offers := by
  obtain ⟨h, hnil⟩ := (parts_start hoffers).select hrun
  refine ⟨fun p hp r hr i hi => ?_, fun q hq => h.serves q (by simp [hq]), h.original⟩
  obtain ⟨q, hq, hi⟩ : w.Covers r i := (h.left p hp r hr i hi).resolve_left (by simp [hnil])
  exact ⟨q, ⟨hq, hi⟩, fun q' hq' => h.apart q' hq'.1 q hq r i hq'.2 hi⟩

theorem select_partition_two : ∃ w : Selection Unit Nat,
    select ⟨fun _ => none, [()], []⟩ [1, 0] (.start [0, 1] fun p _ => {p, 2}) = some w ∧
      ∃! q, q ∈ w.selected ∧ 2 ∈ w.toQuery q () := by
  obtain ⟨w, hrun⟩ : ∃ w, select ⟨fun _ => none, [()], []⟩ [1, 0]
    (.start [0, 1] fun p _ => {p, 2}) = some w := ⟨_, rfl⟩
  have hoffers : ∀ p ∈ [0, 1], ∃ r ∈ [()], ∃ i, i ∈ ({p, 2} : Finset Nat) := by simp
  exact ⟨w, hrun, (select_partition hoffers hrun).1 0 (by decide) () (by decide) 2 (by decide)⟩

theorem exists_select {net : Network Root Data Peer} {t fuel k : Nat}
    {internal : Peer → IndicesByRoot Root} {result : List (Peer × IndicesByRoot Root)}
    (hpresent : w.present = Network.candidates blocks peers internal)
    (hsame : ∀ q ∈ w.present, w.toQuery q = internal q) (hout : ∀ q ∈ w.selected, q ∉ w.present)
    (hrun : net.selectLoop blocks t peers fuel k internal w.assigned = .ok result) :
    ∃ choices w', select blocks choices w = some w' ∧ result = w'.assigned := by
  induction fuel generalizing k w internal with
  | zero =>
    rw [Network.selectLoop, ← hpresent] at hrun
    split_ifs at hrun with hnil
    exact ⟨[], w, if_pos hnil, by cases hrun; rfl⟩
  | succ fuel ih =>
    rw [Network.selectLoop, ← hpresent] at hrun
    split_ifs at hrun with hnil
    · exact ⟨[], w, if_pos hnil, by cases hrun; rfl⟩
    split at hrun
    · cases hrun
    next p hp =>
    replace hp := net.randomPeer_mem _ _ _ _ hp
    have hquery : ∀ q, q ∉ w.present ∨ q = p → (w.take blocks p).toQuery q = w.toQuery q := by
      intro q hq
      ext r i
      rw [mem_toQuery_take]
      tauto
    have hrest : ∀ q ∈ w.present, q ≠ p →
        (w.take blocks p).toQuery q = fun r => internal q r \ internal p r := by
      intro q hq hne
      ext r i
      simp [mem_toQuery_take, hq, hne, hsame q hq, hsame p hp]
    have hassigned : (w.take blocks p).assigned = w.assigned ++ [(p, internal p)] := by
      change (w.selected ++ [p]).map (fun q => (q, (w.take blocks p).toQuery q)) = _
      rw [List.map_congr_left fun q hq => by rw [hquery q (by grind)]]
      simp [assigned, hsame p hp]
    rw [← hassigned] at hrun
    have hnext : ∃ choices w', select blocks choices (w.take blocks p) = some w' ∧
        result = w'.assigned := by
      refine ih ?_ (fun q hq => ?_) (fun q hq => ?_) hrun
      · change (w.present.filter (· ≠ p)).filter
          (fun q => !((w.take blocks p).toQuery q).isEmpty blocks.roots) = _
        rw [Network.candidates_sdiff, ← hpresent, List.filter_filter]
        refine List.filter_congr fun q hq => ?_
        by_cases hne : q = p
        · simp [hne, IndicesByRoot.isEmpty]
        · simp [hne, hrest q hq hne]
      · obtain ⟨⟨hq, hne⟩, -⟩ := mem_present_take.1 hq
        exact hrest q hq hne
      · rw [mem_selected_take] at hq
        rw [mem_present_take]
        grind
    obtain ⟨choices, w', hselect, hresult⟩ := hnext
    exact ⟨p :: choices, w', (if_pos hp).trans hselect, hresult⟩

/-- If every listed peer offers something, what `selectPeers` returns for the fetch is a result of
the loop that deletes from maps. -/
theorem selectPeers_select (net : Network Root Data Peer) {t : Nat}
    {result : List (Peer × IndicesByRoot Root)}
    (hoffers : peers = Network.candidates blocks peers offers)
    (hrun : net.selectPeers blocks t peers offers = .ok result) :
    ∃ choices w, select blocks choices (start peers offers) = some w ∧ result = w.assigned :=
  exists_select hoffers (fun _ _ => rfl) nofun hrun

theorem selectPeers_select_one : ∃ choices w, select ⟨fun _ => none, [()], []⟩ choices
    (start [0] fun _ _ => {7}) = some w ∧ [(0, fun _ => {7})] = w.assigned := by
  let net : Network Unit Unit Nat := ⟨32, 1, ⟨fun _ => true, fun _ => true, fun _ => true⟩,
    fun _ => [0], fun _ _ => ⟨true, none, none⟩, fun _ _ ps => ps.head?,
    fun _ _ _ _ => List.mem_of_head?, fun _ _ _ => none⟩
  exact selectPeers_select net (t := 0) rfl rfl

end Selection

end LightChain.DataColumns
