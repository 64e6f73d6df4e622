import LightChain.Library.Bitlist
import LightChain.Library.Fallible

/-!
# Greedy coverage

`MaxCover` selects candidates one after the other, each time one that covers the most of the bits
that are not covered yet, and, if overlaps are not allowed, only among those that are disjoint
from what is covered. So the selected candidates are disjoint, and the coverage is their union.
-/
namespace LightChain.Aggregation
open Library List Bitlist

inductive Error where
  | invalidMaxCoverProblem (detail : String)
  | bitlistLength
  | invalidAttestationCount
  | emptyCoverage
  | signature
  | bits (cause : Error)
  | aggregate (cause : Error)
  | nonZeroIndex
  /-- A nil entry is read, or one outside an array. -/
  | nilDereference
deriving DecidableEq, Repr

def Error.message : Error → String
  | .invalidMaxCoverProblem detail => detail ++ ": invalid max_cover problem"
  | .bitlistLength => "bitlists are different lengths"
  | .invalidAttestationCount => "cannot aggregate: invalid number of attestations"
  | .emptyCoverage => "invalid or empty coverage"
  | .signature => "could not unmarshal bytes into signature"
  | .bits e => "could not get aggregation bits: " ++ e.message
  | .aggregate e => "could not aggregate attestations: " ++ e.message
  | .nonZeroIndex => "could not aggregate attestations, obtained non zero index"
  | .nilDereference => "invalid memory address or nil pointer dereference"

/-- The outcome of an operation on two bit lists. -/
def sameLength {α : Type} : Option α → Except Error α
  | some x => .ok x
  | none => .error .bitlistLength

theorem sameLength_eq_ok {α : Type} {o : Option α} {x : α} (h : o = some x) :
    sameLength o = .ok x := by
  rw [h]
  rfl

theorem sameLength_eq_ok_iff {α : Type} {o : Option α} {x : α} :
    sameLength o = .ok x ↔ o = some x := by
  cases o <;> simp [sameLength]

section Model

/-- The union of the candidates that have the length of the first one. -/
def unionLoop (ret : Bitlist) : List Bitlist → Except Error Bitlist
  | [] => .ok ret
  | bl :: candidates =>
    if ret.length = bl.length then do unionLoop (← sameLength (or bl ret)) candidates
    else unionLoop ret candidates

def union (candidates : List Bitlist) : Except Error (Option Bitlist) :=
  match candidates with
  | [] => .ok none
  | first :: _ =>
    if first.length = 0 then .ok none
    else do return some (← unionLoop (.zeros first.length) candidates)

variable (candidates : List Bitlist) (allowOverlaps : Bool)

/-- What the search for the next best candidate carries. -/
structure Scan where
  usable : Bitlist
  maxScore : Nat := 0
  bestIdx : Nat := 0

/-- The number of uncovered bits that a candidate covers. -/
def score (candidate remaining : Bitlist) : Except Error Nat :=
  if candidate.length = remaining.length then sameLength (candidate.andCount remaining) else .ok 0

def Scan.discard (s : Scan) (idx : Nat) : Scan := { s with usable := s.usable.setBitAt idx false }

def scanCandidate (covered remaining : Bitlist) (s : Scan) (idx : Nat) : Except Error Scan :=
  match candidates[idx]? with
  | none => .error .nilDereference
  | some candidate =>
    match score candidate remaining with
    | .error e => .error e
    | .ok score =>
      if score = 0 then .ok (s.discard idx)
      else if covered.length ≠ candidate.length then .ok (s.discard idx)
      else
        match sameLength (covered.overlaps candidate) with
        | .error e => .error e
        | .ok o =>
          if !allowOverlaps && o then .ok (s.discard idx)
          else if s.maxScore < score then .ok { s with maxScore := score, bestIdx := idx }
          else .ok s

structure Cover where
  selected : Bitlist
  usable : Bitlist
  covered : Bitlist
  remaining : Bitlist

def Cover.select (c : Cover) (s : Scan) : Except Error Cover :=
  match candidates[s.bestIdx]? with
  | none => .error .nilDereference
  | some best => do
    let covered ← sameLength (or best c.covered)
    let remaining ← sameLength (and best.not c.remaining)
    return {
      selected := c.selected.setBitAt s.bestIdx true
      usable := s.usable.setBitAt s.bestIdx false
      covered, remaining }

/-- The rounds of the selection. `attempts` is the number of rounds before the safeguard. -/
def coverLoop (k : Nat) : Nat → Cover → Except Error Cover
  | 0, c => .ok c
  | attempts + 1, c =>
    if c.selected.count < k ∧ 0 < c.usable.count then do
      let s ← c.usable.bitIndices.foldlM
        (scanCandidate candidates allowOverlaps c.covered c.remaining) { usable := c.usable }
      if 0 < s.maxScore then coverLoop k attempts (← c.select candidates s)
      else coverLoop k attempts { c with usable := s.usable }
    else .ok c

def maxCover (k : Nat) : Except Error (Bitlist × Bitlist) :=
  match candidates with
  | [] => .error (.invalidMaxCoverProblem "cannot calculate set coverage")
  | first :: _ => do
    let k := min candidates.length k
    match ← union candidates with
    | none => .error (.invalidMaxCoverProblem "empty bitlists")
    | some remaining =>
      let c ← coverLoop candidates allowOverlaps k (k + 1) {
        selected := .zeros candidates.length
        usable := (zeros candidates.length).not
        covered := .zeros first.length
        remaining }
      return (c.selected, c.covered)

end Model

section Spec

variable {candidates : List Bitlist} {w : Nat}

theorem unionLoop_ok (h : ∀ c ∈ candidates, c.length = w) {ret : Bitlist} (hret : ret.length = w) :
    ∃ u, unionLoop ret candidates = .ok u ∧ u.length = w := by
  induction candidates generalizing ret with
  | nil => exact ⟨ret, rfl, hret⟩
  | cons bl candidates ih =>
    have hbl := h bl mem_cons_self
    obtain ⟨u, hu, hlen, -⟩ := or_eq (hbl.trans hret.symm)
    unfold unionLoop
    rw [if_pos (hret.trans hbl.symm), sameLength_eq_ok hu, ok_bind]
    exact ih (fun c hc => h c (mem_cons_of_mem _ hc)) (hlen.trans hret)

/-- The selected candidates are disjoint, and what is covered is their union. -/
structure Cover.Sound (candidates : List Bitlist) (w : Nat) (c : Cover) : Prop where
  selected : c.selected.length = candidates.length
  usable : c.usable.length = candidates.length
  covered : c.covered.length = w
  remaining : c.remaining.length = w
  union : ∀ i, c.covered.has i = true ↔
    ∃ j bl, c.selected.has j = true ∧ candidates[j]? = some bl ∧ bl.has i = true
  disjoint : ∀ j j' bl bl', j ≠ j' → c.selected.has j = true → c.selected.has j' = true →
    candidates[j]? = some bl → candidates[j']? = some bl' →
    ∀ i, ¬ (bl.has i = true ∧ bl'.has i = true)

/-- The best candidate so far is disjoint from what is covered. -/
structure Scan.Sound (candidates : List Bitlist) (covered : Bitlist) (s : Scan) : Prop where
  usable : s.usable.length = candidates.length
  best : 0 < s.maxScore → ∃ bl, candidates[s.bestIdx]? = some bl ∧
    ∀ i, ¬ (covered.has i = true ∧ bl.has i = true)

theorem Scan.Sound.discard {covered : Bitlist} {s : Scan} (h : s.Sound candidates covered)
    (idx : Nat) : (s.discard idx).Sound candidates covered :=
  ⟨by simpa [Scan.discard] using h.usable, h.best⟩

section

variable (hlen : ∀ c ∈ candidates, c.length = w)

include hlen

theorem Scan.Sound.scanCandidate {c : Cover} (hc : c.Sound candidates w) {s : Scan}
    (h : s.Sound candidates c.covered) {idx : Nat} (hidx : idx < candidates.length) :
    ∃ s', scanCandidate candidates false c.covered c.remaining s idx = .ok s' ∧
      s'.Sound candidates c.covered := by
  have hbl : candidates[idx].length = w := hlen _ (getElem_mem hidx)
  obtain ⟨n, hn, -⟩ := andCount_eq (hbl.trans hc.remaining.symm)
  obtain ⟨o, ho, hdisjoint⟩ := overlaps_eq (hc.covered.trans hbl.symm)
  unfold Aggregation.scanCandidate
  rw [getElem?_eq_getElem hidx]
  simp only [score, if_pos (hbl.trans hc.remaining.symm), sameLength_eq_ok hn, sameLength_eq_ok ho]
  split_ifs with hzero hwrong hover hbest
  · exact ⟨_, rfl, h.discard idx⟩
  · exact ⟨_, rfl, h.discard idx⟩
  · exact ⟨_, rfl, h.discard idx⟩
  · refine ⟨_, rfl, h.usable, fun _ => ⟨_, getElem?_eq_getElem hidx, ?_⟩⟩
    exact hdisjoint.1 (by simpa using hover)
  · exact ⟨_, rfl, h⟩

theorem Cover.Sound.select {c : Cover} (hc : c.Sound candidates w) {s : Scan}
    (h : s.Sound candidates c.covered) (hbest : 0 < s.maxScore) :
    ∃ c', c.select candidates s = .ok c' ∧ c'.Sound candidates w := by
  obtain ⟨bl, hbl, hdisjoint⟩ := h.best hbest
  have hidx : s.bestIdx < candidates.length := (List.getElem?_eq_some_iff.1 hbl).1
  have hw : bl.length = w := hlen bl (mem_of_getElem? hbl)
  obtain ⟨covered, hor, hcovered, hhas⟩ := or_eq (hw.trans hc.covered.symm)
  obtain ⟨remaining, hand, hremaining, -⟩ :=
    and_eq (length_not.trans (hw.trans hc.remaining.symm))
  have hselected : ∀ j, (c.selected.setBitAt s.bestIdx true).has j = true ↔
      j = s.bestIdx ∨ c.selected.has j = true := by
    intro j
    rw [has_setBitAt, hc.selected]
    grind
  unfold Cover.select
  rw [hbl]
  simp only [sameLength_eq_ok hor, sameLength_eq_ok hand, ok_bind]
  refine ⟨_, rfl, by simpa using hc.selected, by simpa using h.usable, hcovered.trans hc.covered,
    hremaining.trans hc.remaining, fun i => ?_, ?_⟩
  · simp only [hhas, Bool.or_eq_true, hselected, hc.union]
    constructor
    · rintro (hi | ⟨j, bl', hj, hbl', hi⟩)
      · exact ⟨_, bl, .inl rfl, hbl, hi⟩
      · exact ⟨j, bl', .inr hj, hbl', hi⟩
    · rintro ⟨j, bl', rfl | hj, hbl', hi⟩
      · obtain rfl := Option.some.inj (hbl.symm.trans hbl')
        exact .inl hi
      · exact .inr ⟨j, bl', hj, hbl', hi⟩
  · -- A new pair has the best candidate and one that was covered before.
    have hnew : ∀ j bl', c.selected.has j = true → candidates[j]? = some bl' →
        ∀ i, ¬ (bl.has i = true ∧ bl'.has i = true) := by
      intro j bl' hj hbl' i hi
      exact hdisjoint i ⟨(hc.union i).2 ⟨j, bl', hj, hbl', hi.2⟩, hi.1⟩
    intro j j' b b' hne hj hj' hb hb' i hi
    rcases (hselected j).1 hj with rfl | hj
    · obtain rfl := Option.some.inj (hbl.symm.trans hb)
      rcases (hselected j').1 hj' with rfl | hj'
      · exact hne rfl
      · exact hnew j' b' hj' hb' i hi
    · rcases (hselected j').1 hj' with rfl | hj'
      · obtain rfl := Option.some.inj (hbl.symm.trans hb')
        exact hnew j b hj hb i hi.symm
      · exact hc.disjoint j j' b b' hne hj hj' hb hb' i hi

theorem Cover.Sound.coverLoop (k attempts : Nat) {c : Cover} (hc : c.Sound candidates w) :
    ∃ c', coverLoop candidates false k attempts c = .ok c' ∧ c'.Sound candidates w := by
  induction attempts generalizing c with
  | zero => exact ⟨c, rfl, hc⟩
  | succ attempts ih =>
    unfold Aggregation.coverLoop
    split_ifs with hcond
    · obtain ⟨s, hs, hsound⟩ : ∃ s, c.usable.bitIndices.foldlM
          (scanCandidate candidates false c.covered c.remaining) { usable := c.usable } = .ok s ∧
          s.Sound candidates c.covered := by
        refine foldlM_total (fun s idx hidx h => ?_) ⟨hc.usable, fun h => absurd h (lt_irrefl 0)⟩
        refine h.scanCandidate hlen hc ?_
        rw [← hc.usable]
        exact lt_of_has (mem_bitIndices.1 hidx)
      rw [hs, ok_bind]
      split_ifs with hbest
      · obtain ⟨c', hc', hsound'⟩ := hc.select hlen hsound hbest
        rw [hc', ok_bind]
        exact ih hsound'
      · exact ih ⟨hc.selected, hsound.usable, hc.covered, hc.remaining, hc.union, hc.disjoint⟩
    · exact ⟨c, rfl, hc⟩

theorem maxCover_ok (hne : candidates ≠ []) (hw : w ≠ 0) (k : Nat) :
    ∃ c : Cover, maxCover candidates false k = .ok (c.selected, c.covered) ∧
      c.Sound candidates w := by
  obtain ⟨first, rest, rfl⟩ := exists_cons_of_ne_nil hne
  have hfirst := hlen first mem_cons_self
  obtain ⟨u, hu, hulen⟩ := unionLoop_ok hlen (length_zeros (w := w))
  have hunion : union (first :: rest) = .ok (some u) := by
    unfold union
    simp only [hfirst, if_neg hw, hu, ok_bind]
    rfl
  have hinit : Cover.Sound (first :: rest) w {
      selected := .zeros (first :: rest).length
      usable := (zeros (first :: rest).length).not
      covered := .zeros first.length
      remaining := u } :=
    ⟨by simp, by simp, by simpa using hfirst, hulen, by simp, by simp⟩
  obtain ⟨c, hc, hsound⟩ := hinit.coverLoop hlen (min (first :: rest).length k)
    (min (first :: rest).length k + 1)
  refine ⟨c, ?_, hsound⟩
  unfold maxCover
  simp only [hunion, ok_bind, hc]
  rfl

end

end Spec

end LightChain.Aggregation
