import Mathlib

/-!
# Clocks with scheduled slot lengths

A schedule is a first segment and the later ones in order. Every slot from a
segment's first slot up to the next segment lasts that segment's length. `startOf`
adds up the lengths; `slotAt` is its upper adjoint. The remaining lemmas compute
both from the list of segments and their offsets in one pass, as programs do.
-/
namespace LightChain.Library
open List Nat

/-- The last entry satisfying `p`, or `first` when no later entry does. -/
def lastWhere {α : Type*} (p : α → Prop) [DecidablePred p] (first : α) (rest : List α) : α :=
  rest.foldl (fun acc a => if p a then a else acc) first

section LastWhere

variable {α : Type*} {p : α → Prop} [DecidablePred p]

@[simp] theorem lastWhere_nil (x : α) : lastWhere p x [] = x := rfl

variable {rest : List α}

theorem lastWhere_cons_pos {x y : α} (h : p y) :
    lastWhere p x (y :: rest) = lastWhere p y rest := by simp [lastWhere, h]

theorem lastWhere_eq_first {x : α} (h : ∀ y ∈ rest, ¬p y) : lastWhere p x rest = x := by
  induction rest with
  | nil => rfl
  | cons y rest ih =>
    simp only [lastWhere, foldl_cons, if_neg (h y (by simp))]
    exact ih fun z hz => h z (by simp [hz])

theorem lastWhere_mem (x : α) (rest : List α) : lastWhere p x rest ∈ x :: rest := by
  induction rest generalizing x with
  | nil => simp
  | cons y rest ih =>
    by_cases h : p y
    · rw [lastWhere_cons_pos h]
      exact mem_cons_of_mem _ (ih y)
    · simp only [lastWhere, foldl_cons, if_neg h]
      have := ih x
      simp only [mem_cons] at this ⊢
      exact this.imp_right .inr

theorem lastWhere_spec {x : α} (h : p x) : p (lastWhere p x rest) := by
  induction rest generalizing x with
  | nil => exact h
  | cons y rest ih =>
    by_cases hy : p y
    · rw [lastWhere_cons_pos hy]
      exact ih hy
    · simpa [lastWhere, hy] using ih h

theorem lastWhere_last {R : α → α → Prop} {x : α} (order : (x :: rest).Pairwise R) (h : p x) {y : α}
    (hy : y ∈ x :: rest) (hp : p y) : y = lastWhere p x rest ∨ R y (lastWhere p x rest) := by
  induction rest generalizing x with
  | nil => exact .inl (List.mem_singleton.mp hy)
  | cons z rest ih =>
    by_cases hz : p z
    · rw [lastWhere_cons_pos hz]
      rcases List.mem_cons.mp hy with rfl | hy
      · exact .inr (rel_of_pairwise_cons order (lastWhere_mem z rest))
      · exact ih order.of_cons hz hy
    · have hskip : lastWhere p x (z :: rest) = lastWhere p x rest := by simp [lastWhere, hz]
      rw [hskip]
      refine ih (order.sublist ?_) h ?_
      · exact (sublist_cons_self z rest).cons_cons x
      · simp only [mem_cons] at hy ⊢
        grind

theorem lastWhere_map {β : Type*} {q : β → Prop} [DecidablePred q] (f : α → β) (x : α)
    (rest : List α) (h : ∀ a ∈ rest, q (f a) ↔ p a) :
    lastWhere q (f x) (rest.map f) = f (lastWhere p x rest) := by
  induction rest generalizing x with
  | nil => rfl
  | cons y rest ih =>
    have hq := h y (by simp)
    have tail : ∀ a ∈ rest, q (f a) ↔ p a := fun a ha => h a (by simp [ha])
    by_cases hy : p y
    · simpa [lastWhere, hy, hq] using ih y tail
    · simpa [lastWhere, hy, hq] using ih x tail

end LastWhere

structure Segment where
  first : Nat
  length : Nat

namespace Segment

variable (x : Segment)

/-- Later segments start later, and every slot takes time. -/
def Ascending (rest : List Segment) : Prop :=
  (x :: rest).Pairwise (fun a b => a.first < b.first) ∧ ∀ a ∈ x :: rest, 0 < a.length

variable {rest : List Segment}

theorem Ascending.tail {x y : Segment} (h : Ascending x (y :: rest)) : Ascending y rest :=
  ⟨h.1.of_cons, fun a ha => h.2 a (mem_cons_of_mem _ ha)⟩

theorem Ascending.lt_of_mem {x a : Segment} (h : Ascending x rest) (ha : a ∈ rest) :
    x.first < a.first := rel_of_pairwise_cons h.1 ha

theorem Ascending.pos {x : Segment} (h : Ascending x rest) :
    0 < x.length := h.2 x (by simp)

def lengthAt (rest : List Segment) (slot : Nat) : Nat :=
  (lastWhere (fun a : Segment => a.first ≤ slot) x rest).length

/-- The time from the start of slot zero to the start of `slot`. -/
def startOf (rest : List Segment) (slot : Nat) : Nat :=
  ∑ k ∈ Finset.range slot, lengthAt x rest k

/-- The slot in progress once `elapsed` has passed. -/
def slotAt (rest : List Segment) (elapsed : Nat) : Nat :=
  Nat.findGreatest (fun s => startOf x rest s ≤ elapsed) elapsed

variable {x y : Segment} {rest : List Segment}

@[simp] theorem startOf_zero : startOf x rest 0 = 0 := rfl

theorem startOf_succ (slot : Nat) :
    startOf x rest (slot + 1) = startOf x rest slot + lengthAt x rest slot :=
  Finset.sum_range_succ _ _

theorem startOf_strictMono (h : Ascending x rest) : StrictMono (startOf x rest) :=
  strictMono_nat_of_lt_succ fun s => by
    rw [startOf_succ]
    exact Nat.lt_add_of_pos_right (h.2 _ (lastWhere_mem x rest))

theorem galoisConnection (h : Ascending x rest) :
    GaloisConnection (startOf x rest) (slotAt x rest) := by
  intro s e
  constructor
  · intro hs
    exact le_findGreatest (((startOf_strictMono h).le_apply).trans hs) hs
  · intro hs
    have hle : startOf x rest (slotAt x rest e) ≤ e :=
      findGreatest_spec (P := fun s => startOf x rest s ≤ e) (Nat.zero_le e) (by simp)
    exact ((startOf_strictMono h).monotone hs).trans hle

theorem slotAt_eq_iff (h : Ascending x rest) {s e : Nat} :
    slotAt x rest e = s ↔ startOf x rest s ≤ e ∧ e < startOf x rest (s + 1) := by
  have gc := galoisConnection h
  rw [gc s e, ← not_le, gc (s + 1) e]
  omega

/-- The time from the start of `x` to `slot`, computed segment by segment. -/
def walk (x : Segment) : List Segment → Nat → Nat
  | [], slot => (slot - x.first) * x.length
  | y :: rest, slot =>
    if y.first ≤ slot then (y.first - x.first) * x.length + walk y rest slot
    else (slot - x.first) * x.length

theorem lengthAt_cons (h : Ascending x (y :: rest)) (slot : Nat) :
    lengthAt x (y :: rest) slot = if y.first ≤ slot then lengthAt y rest slot else x.length := by
  unfold lengthAt
  split_ifs with hy
  · rw [lastWhere_cons_pos (p := fun a : Segment => a.first ≤ slot) hy]
  · rw [lastWhere_eq_first]
    intro a ha hle
    rcases List.mem_cons.mp ha with rfl | ha
    · exact hy hle
    · exact hy ((h.tail.lt_of_mem ha).le.trans hle)

section

variable (h : Ascending x rest)

include h

theorem walk_first : walk x rest x.first = 0 := by
  cases rest with
  | nil => simp [walk]
  | cons y rest =>
    have : ¬y.first ≤ x.first := not_le.mpr (h.lt_of_mem (by simp))
    simp [walk, this]

theorem walk_succ {slot : Nat} (hs : x.first ≤ slot) :
    walk x rest (slot + 1) = walk x rest slot + lengthAt x rest slot := by
  induction rest generalizing x with
  | nil =>
    simp only [walk, lengthAt, lastWhere_nil]
    rw [succ_sub hs, succ_mul]
  | cons y rest ih =>
    have step : (slot + 1 - x.first) * x.length = (slot - x.first) * x.length + x.length := by
      rw [succ_sub hs, succ_mul]
    rw [lengthAt_cons h]
    simp only [walk]
    rcases lt_trichotomy y.first (slot + 1) with hlt | heq | hgt
    · have hy : y.first ≤ slot := by omega
      rw [if_pos (by omega), if_pos hy, if_pos hy, ih h.tail hy, Nat.add_assoc]
    · rw [if_pos (by omega), if_neg (by omega), if_neg (by omega), ← heq, walk_first h.tail, heq]
      simpa using step
    · rw [if_neg (by omega), if_neg (by omega), if_neg (by omega)]
      exact step

theorem startOf_eq_walk (h0 : x.first = 0) (slot : Nat) :
    startOf x rest slot = walk x rest slot := by
  induction slot with
  | zero => simpa [h0] using (walk_first h).symm
  | succ slot ih => rw [startOf_succ, walk_succ h (by omega), ih]

/-- Each later segment with the time at which it begins, the first beginning at `o`. -/
def offsets (x : Segment) (o : Nat) : List Segment → List (Segment × Nat)
  | [] => []
  | y :: rest =>
    let o' := o + (y.first - x.first) * x.length
    (y, o') :: offsets y o' rest

theorem offsets_bounds (o : Nat) : ∀ a ∈ offsets x o rest, x.first < a.1.first ∧ o < a.2 := by
  induction rest generalizing x o with
  | nil => simp [offsets]
  | cons y rest ih =>
    have hxy : x.first < y.first := h.lt_of_mem (by simp)
    have hpos : 0 < (y.first - x.first) * x.length := Nat.mul_pos (by omega) h.pos
    intro a ha
    simp only [offsets, mem_cons] at ha
    rcases ha with rfl | ha
    · exact ⟨hxy, by simpa using hpos⟩
    · have := ih h.tail _ a ha
      omega

theorem offsets_eq_walk (o : Nat) : ∀ a ∈ offsets x o rest, a.2 = o + walk x rest a.1.first := by
  induction rest generalizing x o with
  | nil => simp [offsets]
  | cons y rest ih =>
    intro a ha
    simp only [offsets, mem_cons] at ha
    rcases ha with rfl | ha
    · simp [walk, walk_first h.tail]
    · rw [walk, if_pos (offsets_bounds h.tail _ a ha).1.le, ih h.tail _ a ha, Nat.add_assoc]

/-- Picking by slot among the offsets computes the start of the slot. -/
theorem walk_eq_of_offsets (o : Nat) {slot : Nat} (hs : x.first ≤ slot) :
    let a := lastWhere (fun a : Segment × Nat => a.1.first ≤ slot) (x, o) (offsets x o rest)
    a.1.first ≤ slot ∧ a.2 + (slot - a.1.first) * a.1.length = o + walk x rest slot := by
  induction rest generalizing x o with
  | nil => simpa [offsets, walk] using hs
  | cons y rest ih =>
    by_cases hy : y.first ≤ slot
    · have := ih h.tail (o + (y.first - x.first) * x.length) hy
      simp only [offsets, walk, lastWhere_cons_pos (p := fun a : Segment × Nat => a.1.first ≤ slot)
        (y := (y, o + (y.first - x.first) * x.length)) hy, if_pos hy]
      exact ⟨this.1, by rw [this.2, Nat.add_assoc]⟩
    · rw [lastWhere_eq_first]
      · simpa [walk, hy] using hs
      · intro a ha hle
        have hxy : y.first ≤ a.1.first := by
          simp only [offsets, mem_cons] at ha
          rcases ha with rfl | ha
          · exact le_rfl
          · exact (offsets_bounds h.tail _ a ha).1.le
        exact hy (hxy.trans hle)

/-- Picking by elapsed time among the offsets computes the slot in progress. -/
theorem walk_floor_of_offsets (o : Nat) {e : Nat} (he : o ≤ e) :
    let a := lastWhere (fun a : Segment × Nat => a.2 ≤ e) (x, o) (offsets x o rest)
    let s := a.1.first + (e - a.2) / a.1.length
    x.first ≤ s ∧ o + walk x rest s ≤ e ∧ e < o + walk x rest (s + 1) := by
  induction rest generalizing x o with
  | nil =>
    have hq := div_mul_le_self (e - o) x.length
    have hr := lt_div_mul_add (a := e - o) h.pos
    simp only [offsets, lastWhere_nil, walk]
    rw [Nat.add_assoc, Nat.add_sub_cancel_left, Nat.add_sub_cancel_left, succ_mul]
    generalize (e - o) / x.length = q at *
    omega
  | cons y rest ih =>
    have hxy : x.first < y.first := h.lt_of_mem (by simp)
    by_cases hy : o + (y.first - x.first) * x.length ≤ e
    · obtain ⟨lo, floor, ceil⟩ := ih h.tail _ hy
      simp only [offsets, lastWhere_cons_pos (p := fun a : Segment × Nat => a.2 ≤ e)
        (y := (y, o + (y.first - x.first) * x.length)) hy]
      refine ⟨by omega, ?_, ?_⟩
      · rw [walk, if_pos lo, ← Nat.add_assoc]
        exact floor
      · rw [walk, if_pos (by omega), ← Nat.add_assoc]
        exact ceil
    · rw [lastWhere_eq_first]
      · have hq := div_mul_le_self (e - o) x.length
        have hr := lt_div_mul_add (a := e - o) h.pos
        have hlt : (e - o) / x.length < y.first - x.first := by
          rw [Nat.div_lt_iff_lt_mul h.pos]
          omega
        dsimp only
        generalize (e - o) / x.length = q at *
        have hw : walk x (y :: rest) (x.first + q) = q * x.length := by
          rw [walk, if_neg (by omega), Nat.add_sub_cancel_left]
        have hlen : lengthAt x (y :: rest) (x.first + q) = x.length := by
          rw [lengthAt_cons h, if_neg (by omega)]
        rw [walk_succ h (by omega), hw, hlen]
        omega
      · intro a ha hle
        simp only [offsets, mem_cons] at ha
        rcases ha with rfl | ha
        · exact hy hle
        · exact hy ((offsets_bounds h.tail _ a ha).2.le.trans hle)

end

end Segment

end LightChain.Library
