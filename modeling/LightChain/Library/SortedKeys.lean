import Mathlib

/-!
# Lists sorted by a key

`search` is the binary search for the first index at which a predicate holds. A list whose
keys increase strictly is searched, extended and reduced by key: `hasKey` finds an entry,
`insertKey` appends one and sorts again, and `eraseKey` cuts one out.
-/
namespace LightChain.Library
open List

section Search

/-- The rounds of a binary search for the first index in `[i, j)` with `f`, or `j`. -/
def searchLoop (f : Nat → Bool) : Nat → Nat → Nat → Nat
  | 0, i, _ => i
  | fuel + 1, i, j =>
    if i < j then
      let h := (i + j) / 2
      if f h then searchLoop f fuel i h else searchLoop f fuel (h + 1) j
    else i

def search (n : Nat) (f : Nat → Bool) : Nat := searchLoop f n 0 n

variable {f : Nat → Bool} {n : Nat}

/-- `f` fails up to the bound on the left and holds from the bound on the right. -/
theorem searchLoop_spec (hmono : ∀ a b, a ≤ b → b < n → f a = true → f b = true)
    {fuel i j : Nat} (hij : i ≤ j) (hj : j ≤ n) (hfuel : j - i ≤ fuel)
    (hleft : ∀ k < i, f k = false) (hright : ∀ k, j ≤ k → k < n → f k = true) :
    searchLoop f fuel i j ≤ n ∧ (∀ k < searchLoop f fuel i j, f k = false) ∧
      ∀ k, searchLoop f fuel i j ≤ k → k < n → f k = true := by
  induction fuel generalizing i j with
  | zero =>
    obtain rfl : i = j := by omega
    exact ⟨hj, hleft, hright⟩
  | succ fuel ih =>
    simp only [searchLoop]
    split_ifs with hlt hmid
    · refine ih (by omega) (by omega) (by omega) hleft fun k hk hkn => ?_
      exact hmono _ k hk hkn hmid
    · refine ih (by omega) hj (by omega) (fun k hk => ?_) hright
      -- A smaller index where `f` holds would make it hold in the middle.
      by_contra hfk
      exact hmid (hmono k _ (by omega) (by omega) (by simpa using hfk))
    · obtain rfl : i = j := by omega
      exact ⟨hj, hleft, hright⟩

theorem search_spec (hmono : ∀ a b, a ≤ b → b < n → f a = true → f b = true) :
    search n f ≤ n ∧ (∀ k < search n f, f k = false) ∧
      ∀ k, search n f ≤ k → k < n → f k = true :=
  searchLoop_spec hmono (Nat.zero_le n) le_rfl le_rfl (fun _ hk => absurd hk (Nat.not_lt_zero _))
    fun _ hk hkn => absurd hk (Nat.not_le.2 hkn)

end Search

section Keys

variable {α : Type*} (key : α → Nat)

/-- The first index with a key that is not smaller. -/
def lowerBound (xs : List α) (k : Nat) : Nat :=
  search xs.length fun i => (xs[i]?).all fun x => k ≤ key x

def hasKey (xs : List α) (k : Nat) : Bool :=
  (xs[lowerBound key xs k]?).any fun x => key x = k

def eraseKey (xs : List α) (k : Nat) : List α :=
  if hasKey key xs k then xs.eraseIdx (lowerBound key xs k) else xs

def insertKey (xs : List α) (x : α) : List α :=
  (xs ++ [x]).insertionSort fun a b => key a ≤ key b

variable {key} {xs : List α} {k : Nat} {x : α}

section

variable (h : xs.Pairwise fun a b => key a < key b)

include h

theorem lowerBound_spec :
    lowerBound key xs k ≤ xs.length ∧
      (∀ i x, xs[i]? = some x → i < lowerBound key xs k → key x < k) ∧
      ∀ i x, xs[i]? = some x → lowerBound key xs k ≤ i → k ≤ key x := by
  have hspec := search_spec (n := xs.length)
    (f := fun i => (xs[i]?).all fun x => decide (k ≤ key x)) <| by
      intro a b hab hb ha
      rw [getElem?_eq_getElem (hab.trans_lt hb)] at ha
      rw [getElem?_eq_getElem hb]
      simp only [Option.all_some, decide_eq_true_eq] at ha ⊢
      rcases hab.eq_or_lt with rfl | hlt
      · exact ha
      · exact ha.trans (pairwise_iff_getElem.1 h a b _ hb hlt).le
  obtain ⟨hle, hbefore, hafter⟩ := hspec
  refine ⟨hle, fun i x hx hi => ?_, fun i x hx hi => ?_⟩
  · have := hbefore i hi
    rw [hx] at this
    simpa using this
  · have := hafter i hi (List.getElem?_eq_some_iff.1 hx).1
    rw [hx] at this
    simpa using this

theorem hasKey_iff : hasKey key xs k = true ↔ ∃ x ∈ xs, key x = k := by
  obtain ⟨-, hbefore, hafter⟩ := lowerBound_spec (k := k) h
  unfold hasKey
  rw [Option.any_eq_true]
  constructor
  · rintro ⟨x, hx, hkey⟩
    exact ⟨x, mem_of_getElem? hx, by simpa using hkey⟩
  · rintro ⟨x, hmem, rfl⟩
    obtain ⟨i, hi, rfl⟩ := getElem_of_mem hmem
    have hxi : xs[i]? = some xs[i] := getElem?_eq_getElem hi
    have hle : lowerBound key xs (key xs[i]) ≤ i := by
      by_contra hlt
      exact lt_irrefl _ (hbefore i _ hxi (Nat.not_le.1 hlt))
    -- An entry between the bound and `i` would have a key between the two.
    rcases hle.eq_or_lt with heq | hlt
    · exact ⟨xs[i], by rw [heq]; exact hxi, by simp⟩
    · have hbound := hlt.trans hi
      have hge := hafter _ _ (getElem?_eq_getElem hbound) le_rfl
      have hkeys := pairwise_iff_getElem.1 h _ i hbound hi hlt
      exact absurd hge (Nat.not_le.2 hkeys)

theorem eraseIdx_eq_filter {i : Nat} (hx : xs[i]? = some x) :
    xs.eraseIdx i = xs.filter fun y => key y ≠ key x := by
  induction xs generalizing i with
  | nil => simp at hx
  | cons y ys ih =>
    obtain ⟨hy, hys⟩ := pairwise_cons.1 h
    cases i with
    | zero =>
      obtain rfl : y = x := by simpa using hx
      have hall : ∀ z ∈ ys, decide (key z ≠ key y) = true := by
        intro z hz
        simpa using (hy z hz).ne'
      simp only [eraseIdx_cons_zero]
      rw [filter_cons_of_neg (by simp), filter_eq_self.2 hall]
    | succ i =>
      have hx : ys[i]? = some x := by simpa using hx
      have hne : key y ≠ key x := (hy x (mem_of_getElem? hx)).ne
      rw [eraseIdx_cons_succ, filter_cons_of_pos (by simpa using hne), ih hys hx]

theorem eraseKey_eq : eraseKey key xs k = xs.filter fun x => key x ≠ k := by
  unfold eraseKey
  split_ifs with hkey
  · unfold hasKey at hkey
    rw [Option.any_eq_true] at hkey
    obtain ⟨x, hx, hkey⟩ := hkey
    obtain rfl : key x = k := by simpa using hkey
    exact eraseIdx_eq_filter h hx
  · rw [hasKey_iff h] at hkey
    refine (filter_eq_self.2 fun x hx => ?_).symm
    simpa using fun hk => hkey ⟨x, hx, hk⟩

end

theorem mem_insertKey {y : α} : y ∈ insertKey key xs x ↔ y ∈ xs ∨ y = x := by
  unfold insertKey
  rw [mem_insertionSort, mem_append, mem_singleton]

theorem pairwise_insertKey (h : xs.Pairwise fun a b => key a < key b)
    (hnew : ∀ y ∈ xs, key y ≠ key x) :
    (insertKey key xs x).Pairwise fun a b => key a < key b := by
  have hle : (insertKey key xs x).Pairwise fun a b => key a ≤ key b := by
    unfold insertKey
    have : Std.Total fun a b : α => key a ≤ key b := ⟨fun a b => Nat.le_total _ _⟩
    have : IsTrans α fun a b => key a ≤ key b := ⟨fun _ _ _ => Nat.le_trans⟩
    exact pairwise_insertionSort _ _
  have hne : (insertKey key xs x).Pairwise fun a b => key a ≠ key b := by
    have hperm : (insertKey key xs x).Perm (xs ++ [x]) := perm_insertionSort _ _
    refine hperm.symm.pairwise ?_ fun hab => hab.symm
    rw [pairwise_append]
    refine ⟨h.imp fun hlt => hlt.ne, pairwise_singleton _ _, fun a ha b hb => ?_⟩
    obtain rfl := mem_singleton.1 hb
    exact hnew a ha
  exact (hle.and hne).imp fun hab => lt_of_le_of_ne hab.1 hab.2

end Keys

end LightChain.Library
