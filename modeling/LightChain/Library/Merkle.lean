import Mathlib

/-!
# Merkle trees over a list of leaves

The tree of a given depth has the leaves from the left and zero leaves after them. The rule
for combining two nodes is arbitrary. `climb_siblings` is what a proof of membership relies
on, and `rootFrom_eq` computes the root of the tree from the roots of the full subtrees that
the binary digits of the number of leaves name.
-/
namespace LightChain.Library
open List Nat

universe u

variable {D : Type u} (combine : D → D → D) (zero : D)

/-- The root of a tree without leaves. -/
def zeroRoot : Nat → D
  | 0 => zero
  | depth + 1 => combine (zeroRoot depth) (zeroRoot depth)

def merkleRoot : Nat → List D → D
  | 0, leaves => leaves.headD zero
  | depth + 1, leaves =>
    combine (merkleRoot depth (leaves.take (2 ^ depth))) (merkleRoot depth (leaves.drop (2 ^ depth)))

@[simp] theorem merkleRoot_nil (depth : Nat) :
    merkleRoot combine zero depth [] = zeroRoot combine zero depth := by
  induction depth with
  | zero => rfl
  | succ depth ih => simp [merkleRoot, zeroRoot, ih]

theorem merkleRoot_left {depth : Nat} {leaves : List D} (h : leaves.length ≤ 2 ^ depth) :
    merkleRoot combine zero (depth + 1) leaves =
      combine (merkleRoot combine zero depth leaves) (zeroRoot combine zero depth) := by
  rw [merkleRoot, take_of_length_le h, drop_eq_nil_of_le h, merkleRoot_nil]

theorem merkleRoot_append {depth : Nat} {left : List D} (h : left.length = 2 ^ depth)
    (right : List D) :
    merkleRoot combine zero (depth + 1) (left ++ right) =
      combine (merkleRoot combine zero depth left) (merkleRoot combine zero depth right) := by
  rw [merkleRoot, take_left' h, drop_left' h]

theorem merkleRoot_take (depth : Nat) (leaves : List D) :
    merkleRoot combine zero depth (leaves.take (2 ^ depth)) =
      merkleRoot combine zero depth leaves := by
  induction depth generalizing leaves with
  | zero => cases leaves <;> rfl
  | succ depth ih =>
    have hpow := pow_succ 2 depth
    rw [merkleRoot, merkleRoot, take_take, min_eq_left (by omega), drop_take,
      show 2 ^ (depth + 1) - 2 ^ depth = 2 ^ depth by omega, ih (leaves.drop _)]

section Proofs

/-- The siblings of the path to a leaf, from the leaf upwards. -/
def siblings : Nat → List D → Nat → List D
  | 0, _, _ => []
  | depth + 1, leaves, index =>
    if index < 2 ^ depth then
      siblings depth (leaves.take (2 ^ depth)) index ++
        [merkleRoot combine zero depth (leaves.drop (2 ^ depth))]
    else
      siblings depth (leaves.drop (2 ^ depth)) (index - 2 ^ depth) ++
        [merkleRoot combine zero depth (leaves.take (2 ^ depth))]

/-- From a node upwards. -/
def climb (node : D) : Nat → List D → D
  | _, [] => node
  | index, sibling :: rest =>
    climb (if index % 2 = 1 then combine sibling node else combine node sibling) (index / 2) rest

@[simp] theorem length_siblings (depth : Nat) (leaves : List D) (index : Nat) :
    (siblings combine zero depth leaves index).length = depth := by
  induction depth generalizing leaves index with
  | zero => rfl
  | succ depth ih => simp only [siblings]; split_ifs <;> simp [ih]

theorem climb_append (node : D) (index : Nat) (xs ys : List D) :
    climb combine node index (xs ++ ys) =
      climb combine (climb combine node index xs) (index / 2 ^ xs.length) ys := by
  induction xs generalizing node index with
  | nil => simp [climb]
  | cons x xs ih =>
    simp only [cons_append, climb, ih, length_cons]
    rw [Nat.div_div_eq_div_mul, pow_succ']

theorem climb_mod (node : D) (index : Nat) (xs : List D) :
    climb combine node (index % 2 ^ xs.length) xs = climb combine node index xs := by
  induction xs generalizing node index with
  | nil => rfl
  | cons x xs ih =>
    have hlow : index % 2 ^ (xs.length + 1) % 2 = index % 2 :=
      mod_mod_of_dvd index (dvd_pow_self 2 (succ_ne_zero _))
    have hhigh : index % 2 ^ (xs.length + 1) / 2 = index / 2 % 2 ^ xs.length := by
      rw [pow_succ', mod_mul_right_div_self]
    rw [length_cons, climb, climb, hlow, hhigh, ih]

theorem climb_siblings {depth : Nat} {leaves : List D} {index : Nat} {leaf : D}
    (hindex : index < 2 ^ depth) (hleaf : leaves[index]? = some leaf) :
    climb combine leaf index (siblings combine zero depth leaves index) =
      merkleRoot combine zero depth leaves := by
  induction depth generalizing leaves index with
  | zero =>
    obtain rfl : index = 0 := by simpa using hindex
    simp [siblings, climb, merkleRoot, headD_eq_head?_getD, head?_eq_getElem?, hleaf]
  | succ depth ih =>
    rw [pow_succ] at hindex
    simp only [siblings, merkleRoot]
    split_ifs with hleft
    · rw [climb_append, length_siblings, div_eq_of_lt hleft,
        ih hleft (by rw [getElem?_take_of_lt hleft, hleaf])]
      simp [climb]
    · have hmod : index % 2 ^ depth = index - 2 ^ depth := by
        rw [mod_eq_sub_mod (by omega), mod_eq_of_lt (by omega)]
      have hdiv : index / 2 ^ depth = 1 := by
        rw [div_eq_sub_div (by positivity) (by omega), div_eq_of_lt (by omega)]
      have hlow := climb_mod combine leaf index
        (siblings combine zero depth (leaves.drop (2 ^ depth)) (index - 2 ^ depth))
      rw [length_siblings, hmod,
        ih (by omega) (by rw [getElem?_drop, Nat.add_sub_cancel' (by omega), hleaf])] at hlow
      rw [climb_append, length_siblings, hdiv, ← hlow]
      simp [climb]

end Proofs

section Peaks

/-- The root from the full subtrees named by the digits of `count`, after some levels. -/
def rootFrom (count : Nat) (peak : Nat → D) : Nat → D
  | 0 => zero
  | height + 1 =>
    if count / 2 ^ height % 2 = 1 then combine (peak height) (rootFrom count peak height)
    else combine (rootFrom count peak height) (zeroRoot combine zero height)

def block (leaves : List D) (height : Nat) : List D :=
  (leaves.drop (leaves.length / 2 ^ (height + 1) * 2 ^ (height + 1))).take (2 ^ height)

/-- The roots of the full subtrees. -/
def Peaks (leaves : List D) (peak : Nat → D) (depth : Nat) : Prop :=
  ∀ height < depth, leaves.length / 2 ^ height % 2 = 1 →
    peak height = merkleRoot combine zero height (block leaves height)

variable {leaves : List D} {peak : Nat → D} {depth : Nat}

theorem rootFrom_eq (h : Peaks combine zero leaves peak depth) :
    rootFrom combine zero leaves.length peak depth =
      merkleRoot combine zero depth (leaves.drop (leaves.length / 2 ^ depth * 2 ^ depth)) := by
  induction depth with
  | zero => simp [rootFrom, zeroRoot]
  | succ height ih =>
    have ih := ih fun k hk => h k (by omega)
    have hdigit := div_add_mod (leaves.length / 2 ^ height) 2
    rw [Nat.div_div_eq_div_mul, ← pow_succ] at hdigit
    have hstart : leaves.length / 2 ^ height * 2 ^ height =
        leaves.length / 2 ^ (height + 1) * 2 ^ (height + 1) +
          leaves.length / 2 ^ height % 2 * 2 ^ height := by
      conv_lhs => rw [← hdigit]
      ring
    have hlt := lt_div_mul_add (a := leaves.length) (show 0 < 2 ^ height by positivity)
    rw [rootFrom, ih]
    split_ifs with hodd
    · rw [hodd, Nat.one_mul] at hstart
      have hle := div_mul_le_self leaves.length (2 ^ height)
      have hblock : (block leaves height).length = 2 ^ height := by
        rw [block, length_take, length_drop]
        omega
      have happend := merkleRoot_append combine zero hblock
        (leaves.drop (leaves.length / 2 ^ height * 2 ^ height))
      rw [h height (by omega) hodd, ← happend, hstart, ← drop_drop, block,
        take_append_drop]
    · have hzero : leaves.length / 2 ^ height % 2 = 0 := by omega
      rw [hzero, Nat.zero_mul, Nat.add_zero] at hstart
      rw [← hstart]
      refine (merkleRoot_left combine zero ?_).symm
      rw [length_drop]
      exact Nat.sub_le_iff_le_add'.2 hlt.le

/-- Entering a leaf: full subtrees of the same height are combined until a height is free. The
size is the new number of leaves, without its digits below the height. -/
def insertPeak (peak : Nat → D) : Nat → Nat → Nat → D → Nat → D
  | 0, _, _, _ => peak
  | remaining + 1, height, size, node =>
    if size % 2 = 1 then Function.update peak height node
    else insertPeak peak remaining (height + 1) (size / 2) (combine (peak height) node)

theorem take_drop_concat {start count : Nat} (h : start + count ≤ leaves.length) (leaf : D) :
    ((leaves ++ [leaf]).drop start).take count = (leaves.drop start).take count := by
  rw [drop_append_of_le_length (by omega),
    take_append_of_le_length (by rw [length_drop]; omega)]

theorem block_concat {height : Nat} (leaf : D) (hodd : leaves.length / 2 ^ height % 2 = 1)
    (hsame : (leaves ++ [leaf]).length / 2 ^ (height + 1) = leaves.length / 2 ^ (height + 1)) :
    block (leaves ++ [leaf]) height = block leaves height := by
  have hle := div_mul_le_self leaves.length (2 ^ height)
  have hdigit := div_add_mod (leaves.length / 2 ^ height) 2
  rw [Nat.div_div_eq_div_mul, ← pow_succ, hodd] at hdigit
  have hstart : leaves.length / 2 ^ (height + 1) * 2 ^ (height + 1) + 2 ^ height ≤
      leaves.length := by
    rw [← hdigit] at hle
    rw [pow_succ] at *
    linarith
  rw [block, block, hsame, take_drop_concat hstart]

theorem block_last {height k : Nat} (h : leaves.length = (2 * k + 1) * 2 ^ height) :
    leaves.length / 2 ^ (height + 1) = k ∧ leaves.length - 2 ^ height = k * 2 ^ (height + 1) := by
  have hpos := Nat.two_pow_pos height
  have hpow : k * 2 ^ (height + 1) = 2 * k * 2 ^ height := by ring
  have hsplit : (2 * k + 1) * 2 ^ height = 2 * k * 2 ^ height + 2 ^ height := by ring
  refine ⟨Nat.div_eq_of_lt_le (by omega) ?_, by omega⟩
  rw [Nat.add_mul, hpow, pow_succ]
  omega

theorem digits_above {n k height j : Nat} (h : n + 1 = (2 * k + 1) * 2 ^ height)
    (hj : height < j) : n / 2 ^ j = (n + 1) / 2 ^ j := by
  obtain ⟨i, rfl⟩ : ∃ i, j = height + 1 + i := ⟨j - (height + 1), by omega⟩
  have hpos := Nat.two_pow_pos height
  have hpow : k * 2 ^ (height + 1) = 2 * k * 2 ^ height := by ring
  have hnext : (k + 1) * 2 ^ (height + 1) = 2 * k * 2 ^ height + 2 * 2 ^ height := by ring
  have hsplit : (2 * k + 1) * 2 ^ height = 2 * k * 2 ^ height + 2 ^ height := by ring
  have hn : n / 2 ^ (height + 1) = k := Nat.div_eq_of_lt_le (by omega) (by omega)
  have hn' : (n + 1) / 2 ^ (height + 1) = k := Nat.div_eq_of_lt_le (by omega) (by omega)
  rw [pow_add, ← Nat.div_div_eq_div_mul, ← Nat.div_div_eq_div_mul, hn, hn']

theorem Peaks.insertLoop {leaf : D} (hpeaks : Peaks combine zero leaves peak depth)
    (hlt : (leaves ++ [leaf]).length < 2 ^ depth) {remaining height size : Nat} {node : D}
    (hdepth : height + remaining = depth) (hsize : (leaves ++ [leaf]).length = size * 2 ^ height)
    (hnode : node = merkleRoot combine zero height
      ((leaves ++ [leaf]).drop ((leaves ++ [leaf]).length - 2 ^ height))) :
    Peaks combine zero (leaves ++ [leaf]) (insertPeak combine peak remaining height size node)
      depth := by
  have hlength : (leaves ++ [leaf]).length = leaves.length + 1 := by simp
  induction remaining generalizing height size node with
  | zero =>
    -- Some digit of the number of leaves is odd.
    obtain rfl : height = depth := by omega
    have hzero : size = 0 := by
      by_contra hne
      have := Nat.le_mul_of_pos_left (2 ^ height) (Nat.pos_of_ne_zero hne)
      omega
    rw [hzero, Nat.zero_mul] at hsize
    omega
  | succ remaining ih =>
    rw [insertPeak]
    split_ifs with hodd
    · obtain ⟨k, rfl⟩ : ∃ k, size = 2 * k + 1 := ⟨size / 2, by omega⟩
      intro j hj hdigit
      rcases Nat.lt_trichotomy j height with hbelow | rfl | habove
      · -- The digits below the height are zero.
        obtain ⟨i, rfl⟩ : ∃ i, height = j + (i + 1) := ⟨height - j - 1, by omega⟩
        rw [hsize, pow_add, Nat.mul_left_comm, Nat.mul_div_cancel_left _ (Nat.two_pow_pos j),
          pow_succ', Nat.mul_left_comm, mul_mod_right] at hdigit
        omega
      · obtain ⟨hdiv, hstart⟩ := block_last hsize
        rw [Function.update_self, hnode, block, merkleRoot_take, hdiv, hstart]
      · have hsame := digits_above (hlength ▸ hsize) habove
        have hsame' := digits_above (j := j + 1) (hlength ▸ hsize) (by omega)
        rw [hlength, ← hsame] at hdigit
        rw [Function.update_of_ne (by omega), hpeaks j hj hdigit,
          block_concat leaf hdigit (by rw [hlength, hsame'])]
    · obtain ⟨k, rfl⟩ : ∃ k, size = 2 * (k + 1) := ⟨size / 2 - 1, by
        have : size ≠ 0 := by
          rintro rfl
          omega
        omega⟩
      have hpos := Nat.two_pow_pos height
      have hdouble : 2 * (k + 1) * 2 ^ height = (2 * k + 1) * 2 ^ height + 2 ^ height := by ring
      have hstart : (2 * k + 1) * 2 ^ height = k * 2 ^ (height + 1) + 2 ^ height := by ring
      have hdigit : leaves.length / 2 ^ height = 2 * k + 1 :=
        Nat.div_eq_of_lt_le (by omega) (by rw [Nat.add_mul, Nat.one_mul]; omega)
      have hhigh : leaves.length / 2 ^ (height + 1) = k := by
        rw [pow_succ, ← Nat.div_div_eq_div_mul, hdigit]
        omega
      have hpeak := hpeaks height (by omega) (by omega)
      rw [block, hhigh, ← take_drop_concat (by omega) leaf] at hpeak
      refine ih (by omega) ?_ ?_
      · rw [hsize, Nat.mul_div_cancel_left _ two_pos]
        ring
      · have hfirst : (leaves ++ [leaf]).length - 2 ^ (height + 1) = k * 2 ^ (height + 1) := by
          rw [pow_succ] at *
          omega
        have hsecond : (leaves ++ [leaf]).length - 2 ^ height =
            k * 2 ^ (height + 1) + 2 ^ height := by omega
        rw [hpeak, hnode, hfirst, hsecond, merkleRoot, drop_drop]

theorem Peaks.insert (h : Peaks combine zero leaves peak depth)
    (hlt : leaves.length + 1 < 2 ^ depth) (leaf : D) :
    Peaks combine zero (leaves ++ [leaf])
      (insertPeak combine peak depth 0 (leaves.length + 1) leaf) depth :=
  h.insertLoop combine zero (by simpa using hlt) (Nat.zero_add depth) (by simp)
    (by simp [merkleRoot])

end Peaks

end LightChain.Library
