import Mathlib

/-!
# Ordered byte buckets

A bucket of an embedded key-value store keeps its entries in the byte order of the keys.
Numbers are written to it big-endian, so that the byte order of fixed-width words is the
order of the numbers, and lists of numbers are written as consecutive words. A cursor can
then walk the entries from the last one and stop at the first key that is too small.
-/
namespace LightChain.Library
open List Nat

abbrev Bytes := List (Fin 256)

instance neZero_byte : NeZero 256 := ⟨by decide⟩

/-- The low `width` bytes of a number, most significant first. -/
def toBigEndian : Nat → Nat → Bytes
  | 0, _ => []
  | width + 1, n => Fin.ofNat 256 (n / 256 ^ width) :: toBigEndian width n

/-- The number a byte string spells, most significant byte first. -/
def ofBigEndian (b : Bytes) : Nat := b.foldl (fun n d => n * 256 + d.val) 0

@[simp] theorem length_toBigEndian (width n : Nat) : (toBigEndian width n).length = width := by
  induction width with
  | zero => rfl
  | succ width ih => simp [toBigEndian, ih]

theorem toBigEndian_mod (width n : Nat) :
    toBigEndian width (n % 256 ^ width) = toBigEndian width n := by
  -- A wider modulus leaves the low digits alone, so the induction is over every wider one.
  suffices h : ∀ e, width ≤ e → toBigEndian width (n % 256 ^ e) = toBigEndian width n from
    h width le_rfl
  induction width with
  | zero => simp [toBigEndian]
  | succ width ih =>
    intro e he
    obtain ⟨k, rfl⟩ : ∃ k, e = width + 1 + k := ⟨e - (width + 1), by omega⟩
    have hdigit : n % 256 ^ (width + 1 + k) / 256 ^ width % 256 = n / 256 ^ width % 256 := by
      rw [show width + 1 + k = width + (1 + k) by omega, pow_add, mod_mul_right_div_self,
        pow_add, pow_one, mod_mul_right_mod]
    simp only [toBigEndian, cons.injEq]
    exact ⟨Fin.ext (by simpa [Fin.ofNat] using hdigit), ih _ (by omega)⟩

theorem compare_div_mod (p m n : Nat) :
    compare m n = (compare (m / p) (n / p)).then (compare (m % p) (n % p)) := by
  have hm := div_add_mod m p
  have hn := div_add_mod n p
  rcases lt_trichotomy (m / p) (n / p) with h | h | h
  · have : m < n := by
      by_contra hle
      exact absurd (Nat.div_le_div_right (c := p) (not_lt.1 hle)) (not_le.2 h)
    rw [compare_lt_iff_lt.2 h, compare_lt_iff_lt.2 this]
    rfl
  · have hr : compare m n = compare (m % p) (n % p) := by
      rw [← hm, ← hn, h]
      simp [compare, compareOfLessAndEq]
    rw [hr, compare_eq_iff_eq.2 h]
    rfl
  · have : n < m := by
      by_contra hle
      exact absurd (Nat.div_le_div_right (c := p) (not_lt.1 hle)) (not_le.2 h)
    rw [compare_gt_iff_gt.2 h, compare_gt_iff_gt.2 this]
    rfl

theorem compare_toBigEndian {width m n : Nat} (hm : m < 256 ^ width) (hn : n < 256 ^ width) :
    compare (toBigEndian width m) (toBigEndian width n) = compare m n := by
  induction width generalizing m n with
  | zero =>
    obtain ⟨rfl, rfl⟩ : m = 0 ∧ n = 0 := by simpa using And.intro hm hn
    rfl
  | succ width ih =>
    have hpos : 0 < 256 ^ width := by positivity
    have hdm := Nat.div_lt_of_lt_mul (show m < 256 ^ width * 256 by simpa [pow_succ] using hm)
    have hdn := Nat.div_lt_of_lt_mul (show n < 256 ^ width * 256 by simpa [pow_succ] using hn)
    have hhead : compare (Fin.ofNat 256 (m / 256 ^ width)) (Fin.ofNat 256 (n / 256 ^ width)) =
        compare (m / 256 ^ width) (n / 256 ^ width) := by
      simp [compare, compareOfLessAndEq, Fin.ofNat, mod_eq_of_lt hdm, mod_eq_of_lt hdn]
    have htail : compare (toBigEndian width m) (toBigEndian width n) =
        compare (m % 256 ^ width) (n % 256 ^ width) := by
      rw [← toBigEndian_mod width m, ← toBigEndian_mod width n]
      exact ih (mod_lt _ hpos) (mod_lt _ hpos)
    calc compare (toBigEndian (width + 1) m) (toBigEndian (width + 1) n)
        = (compare (Fin.ofNat 256 (m / 256 ^ width)) (Fin.ofNat 256 (n / 256 ^ width))).then
            (compare (toBigEndian width m) (toBigEndian width n)) := List.compareLex_cons_cons
      _ = (compare (m / 256 ^ width) (n / 256 ^ width)).then
            (compare (m % 256 ^ width) (n % 256 ^ width)) := by rw [hhead, htail]
      _ = compare m n := (compare_div_mod _ m n).symm

theorem toBigEndian_inj {width m n : Nat} (hm : m < 256 ^ width) (hn : n < 256 ^ width) :
    toBigEndian width m = toBigEndian width n ↔ m = n := by
  have hwords : compare (toBigEndian width m) (toBigEndian width n) = .eq ↔
      toBigEndian width m = toBigEndian width n := Std.LawfulEqCmp.compare_eq_iff_eq
  rw [← hwords, compare_toBigEndian hm hn, compare_eq_iff_eq]

theorem ofBigEndian_toBigEndian {width n : Nat} (hn : n < 256 ^ width) :
    ofBigEndian (toBigEndian width n) = n := by
  -- With an accumulator `acc` in front, the word spells `acc` shifted by its width plus `n`.
  suffices h : ∀ acc : Nat, (toBigEndian width n).foldl (fun n d => n * 256 + d.val) acc =
      acc * 256 ^ width + n % 256 ^ width by
    simpa [ofBigEndian, mod_eq_of_lt hn] using h 0
  clear hn
  induction width with
  | zero => simp [toBigEndian, mod_one]
  | succ width ih =>
    intro acc
    have hsplit := mod_mul (a := 256 ^ width) (b := 256) (x := n)
    simp only [toBigEndian, foldl_cons, ih, pow_succ, Fin.ofNat, hsplit]
    ring

/-- The consecutive `width`-byte pieces of a value, as a loop in steps of `width` cuts them. -/
def chunks (width : Nat) (b : Bytes) : List Bytes :=
  (List.range ((b.length + width - 1) / width)).map fun i => (b.drop (width * i)).take width

theorem chunks_append {width : Nat} {b c : Bytes} (hpos : 0 < width) (hb : width ∣ b.length)
    (hc : c.length = width) : chunks width (b ++ c) = chunks width b ++ [c] := by
  obtain ⟨k, hk⟩ := hb
  have hlen : (b.length + width - 1) / width = k := by
    rw [hk, Nat.add_sub_assoc hpos, mul_add_div hpos, div_eq_of_lt (by omega), add_zero]
  have hlen' : ((b ++ c).length + width - 1) / width = k + 1 := by
    rw [length_append, hk, hc, ← mul_succ, Nat.add_sub_assoc hpos,
      mul_add_div hpos, div_eq_of_lt (by omega), add_zero]
  rw [chunks, chunks, hlen, hlen', range_succ, map_append]
  congr 1
  · refine map_congr_left fun i hi => ?_
    have : width * i + width ≤ b.length := by
      rw [hk, ← mul_succ]
      exact Nat.mul_le_mul_left _ (mem_range.1 hi)
    rw [drop_append_of_le_length (by omega),
      take_append_of_le_length (by simp; omega)]
  · simp [← hk, take_of_length_le hc.le]

variable {β ε : Type*}

/-- A cursor that starts at the last entry and moves back. It ends at the first key that
`stop` accepts, or with the first entry in which `find` finds something. -/
def scanBack (stop : β → Bool) (find : β → Bytes → Option ε) :
    List (β × Bytes) → Option ε
  | [] => none
  | (k, v) :: rest =>
    if stop k then none
    else match find k v with
      | some e => some e
      | none => scanBack stop find rest

variable {entries : List (β × Bytes)}

theorem scanBack_eq_some {stop : β → Bool} {find : β → Bytes → Option ε} {x : ε}
    (h : scanBack stop find entries = some x) : ∃ e ∈ entries, find e.1 e.2 = some x := by
  induction entries with
  | nil => cases h
  | cons e rest ih => grind [scanBack]

/-- On descending keys the early end loses nothing, when `stop` holds below every key for
which it holds. -/
theorem scanBack_eq_none {r : β → β → Prop} {stop : β → Bool} {find : β → Bytes → Option ε}
    (hstop : ∀ k k', r k' k → stop k → stop k') (hsorted : entries.Pairwise fun a b => r b.1 a.1) :
    scanBack stop find entries = none ↔
      ∀ e ∈ entries, stop e.1 = false → find e.1 e.2 = none := by
  induction entries with
  | nil => simp [scanBack]
  | cons e rest ih =>
    obtain ⟨hlast, hrest⟩ := pairwise_cons.1 hsorted
    rw [scanBack, forall_mem_cons]
    split_ifs with hs
    · have : ∀ e' ∈ rest, stop e'.1 = true := fun e' he' => hstop _ _ (hlast e' he') hs
      grind
    · cases hf : find e.1 e.2 with
      | some x => simp_all
      | none => simp_all

end LightChain.Library
