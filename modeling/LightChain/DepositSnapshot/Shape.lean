import LightChain.DepositSnapshot.Tree

/-!
# The shape of a deposit tree

Whatever the order of pushes and finalizations, the tree only depends on its leaves and on how
many of them are finalized: it is `shape depth leaves finalized`. Each operation takes shapes
to shapes.
-/
namespace LightChain.DepositSnapshot
open Library Committees List Nat

variable (hash : Hash)

def rootOf (depth : Nat) (leaves : List Bytes32) : Bytes32 :=
  merkleRoot (combine hash) zeroBytes depth leaves

/-- The tree of some leaves of which the first `finalized` are finalized. -/
def shape : Nat → List Bytes32 → Nat → Node
  | 0, [], _ => .zero 0
  | 0, leaf :: _, finalized => if 1 ≤ finalized then .finalized 1 leaf else .leaf leaf
  | depth + 1, leaves, finalized =>
    if leaves = [] then .zero (depth + 1)
    else if 2 ^ (depth + 1) ≤ finalized then
      .finalized (2 ^ (depth + 1)) (rootOf hash (depth + 1) leaves)
    else .inner (shape depth (leaves.take (2 ^ depth)) finalized)
      (shape depth (leaves.drop (2 ^ depth)) (finalized - 2 ^ depth))

/-- The finalized leaves are there: as many as are finalized, or all that the tree can have. -/
def Fits (depth : Nat) (leaves : List Bytes32) (finalized : Nat) : Prop :=
  finalized ≤ leaves.length ∨ 2 ^ depth ≤ leaves.length

variable {hash} {depth finalized k : Nat} {leaves : List Bytes32}

theorem Fits.left (h : Fits (depth + 1) leaves finalized) :
    Fits depth (leaves.take (2 ^ depth)) finalized := by
  unfold Fits at *
  rw [length_take]
  have := pow_succ 2 depth
  omega

theorem Fits.right (h : Fits (depth + 1) leaves finalized) :
    Fits depth (leaves.drop (2 ^ depth)) (finalized - 2 ^ depth) := by
  unfold Fits at *
  rw [length_drop]
  have := pow_succ 2 depth
  omega

theorem getRoot_zero (depth : Nat) : (Node.zero depth).getRoot hash = zeroHashes hash depth := by
  unfold Node.getRoot
  split_ifs with h
  · subst h
    rfl
  · rfl

theorem getRoot_shape (depth : Nat) (leaves : List Bytes32) (finalized : Nat) :
    (shape hash depth leaves finalized).getRoot hash = rootOf hash depth leaves := by
  fun_induction shape hash depth leaves finalized with
  | case1 => exact getRoot_zero 0
  | case2 => rfl
  | case3 => rfl
  | case4 depth =>
    rw [getRoot_zero, rootOf, merkleRoot_nil]
    rfl
  | case5 => rfl
  | case6 depth leaves finalized _ _ hleft hright =>
    rw [Node.getRoot, hleft, hright]
    rfl

variable (hash) in
theorem isFull_shape (h : Fits depth leaves finalized) (hle : leaves.length ≤ 2 ^ depth) :
    (shape hash depth leaves finalized).isFull = decide (leaves.length = 2 ^ depth) := by
  fun_induction shape hash depth leaves finalized with
  | case1 => rfl
  | case2 leaf rest => simpa [Node.isFull] using hle
  | case3 leaf rest => simpa [Node.isFull] using hle
  | case4 depth => simpa [Node.isFull] using (Nat.two_pow_pos (depth + 1)).ne
  | case5 depth leaves finalized hne hfull =>
    have hlength : leaves.length = 2 ^ (depth + 1) := by
      unfold Fits at h
      omega
    simp [Node.isFull, hlength]
  | case6 depth leaves finalized _ _ hleft hright =>
    have hpow := pow_succ 2 depth
    have hpos : 0 < 2 ^ depth := by positivity
    rw [Node.isFull, hright h.right (by rw [length_drop]; omega), length_drop]
    exact decide_eq_decide.2 (by omega)

variable (hash) in
theorem create_eq (leaves : List Bytes32) (depth : Nat) :
    create leaves depth = shape hash depth leaves 0 := by
  induction depth generalizing leaves with
  | zero => cases leaves <;> rfl
  | succ depth ih =>
    have hpos : ¬ 2 ^ (depth + 1) ≤ 0 := by
      have : 0 < 2 ^ (depth + 1) := by positivity
      omega
    have htake : leaves.take (min (2 ^ depth) leaves.length) = leaves.take (2 ^ depth) :=
      List.take_eq_take_min.symm
    have hdrop : leaves.drop (min (2 ^ depth) leaves.length) = leaves.drop (2 ^ depth) :=
      List.drop_eq_drop_min.symm
    simp only [create, shape, length_eq_zero_iff, hpos, if_false, ih, Nat.zero_sub, htake,
      hdrop]

theorem pushLeaf_shape (leaf : Bytes32) (h : finalized ≤ leaves.length)
    (hlt : leaves.length < 2 ^ depth) :
    (shape hash depth leaves finalized).pushLeaf leaf depth =
      .ok (shape hash depth (leaves ++ [leaf]) finalized) := by
  fun_induction shape hash depth leaves finalized with
  | case1 finalized =>
    obtain rfl : finalized = 0 := by simpa using h
    rfl
  | case2 leaf rest => simp at hlt
  | case3 leaf rest => simp at hlt
  | case4 depth finalized =>
    obtain rfl : finalized = 0 := by simpa using h
    rw [Node.pushLeaf, create_eq hash, nil_append]
  | case5 depth leaves finalized hne hfull => omega
  | case6 depth leaves finalized hne hnot hleft hright =>
    have hpow := pow_succ 2 depth
    have hfits : Fits (depth + 1) leaves finalized := .inl h
    have hfull := isFull_shape hash hfits.left (by rw [length_take]; omega)
    have hshape : shape hash (depth + 1) (leaves ++ [leaf]) finalized =
        .inner (shape hash depth ((leaves ++ [leaf]).take (2 ^ depth)) finalized)
          (shape hash depth ((leaves ++ [leaf]).drop (2 ^ depth)) (finalized - 2 ^ depth)) := by
      rw [shape, if_neg (by simp), if_neg hnot]
    rw [Node.pushLeaf, hfull, hshape, succ_sub_one]
    by_cases hroom : leaves.length < 2 ^ depth
    · -- There is room on the left, and nothing on the right.
      rw [take_of_length_le hroom.le] at hleft ⊢
      rw [drop_eq_nil_of_le hroom.le, take_of_length_le (by simp; omega),
        drop_eq_nil_of_le (by simp; omega)]
      simp [hroom.ne, hleft h hroom]
    · rw [take_append_of_le_length (by omega), drop_append_of_le_length (by omega)]
      have hlength : (leaves.take (2 ^ depth)).length = 2 ^ depth := by
        rw [length_take]
        omega
      have hright := hright (by rw [length_drop]; omega) (by rw [length_drop]; omega)
      simp [hlength, hright]

variable (hash finalized) in
theorem finalize_shape (hk : 0 < k) (hne : leaves ≠ []) (h : Fits depth leaves k) :
    (shape hash depth leaves finalized).finalize hash k depth =
      .ok (shape hash depth leaves (max finalized k)) := by
  fun_induction shape hash depth leaves finalized generalizing k with
  | case1 => exact absurd rfl hne
  | case2 leaf rest finalized hfinal =>
    rw [shape, if_pos (by omega)]
    rfl
  | case3 leaf rest finalized hfinal =>
    rw [shape, if_pos (by omega)]
    rfl
  | case4 => exact absurd rfl hne
  | case5 depth leaves finalized _ hfinal =>
    rw [shape, if_neg hne, if_pos (by omega)]
    rfl
  | case6 depth leaves finalized _ hfinal hleft hright =>
    have hpow := pow_succ 2 depth
    have hpos := Nat.two_pow_pos depth
    have hhalf : 2 ^ (depth + 1) / 2 = 2 ^ depth := by omega
    rw [Node.finalize, shape, if_neg hne]
    by_cases hall : 2 ^ (depth + 1) ≤ k
    · rw [if_pos hall, if_pos (by omega), Node.getRoot, getRoot_shape, getRoot_shape]
      rfl
    · have hlength := length_pos_iff.2 hne
      have hleftNe : leaves.take (2 ^ depth) ≠ [] :=
        length_pos_iff.1 (by rw [length_take]; omega)
      rw [if_neg hall, if_neg (by omega)]
      simp only [hleft hk hleftNe h.left, ok_bind, hhalf]
      split_ifs with hmore
      · have hrightNe : leaves.drop (2 ^ depth) ≠ [] := by
          unfold Fits at h
          exact length_pos_iff.1 (by rw [length_drop]; omega)
        rw [hright (by omega) hrightNe h.right, ok_bind, Nat.sub_max_sub_right]
        rfl
      · have hsame : max finalized k - 2 ^ depth = finalized - 2 ^ depth := by omega
        rw [hsame]
        rfl

def finalizedHashes (hash : Hash) : Nat → List Bytes32 → Nat → List Bytes32
  | 0, leaves, finalized => if finalized = 0 then [] else [rootOf hash 0 leaves]
  | depth + 1, leaves, finalized =>
    if 2 ^ (depth + 1) ≤ finalized then [rootOf hash (depth + 1) leaves]
    else finalizedHashes hash depth (leaves.take (2 ^ depth)) finalized ++
      finalizedHashes hash depth (leaves.drop (2 ^ depth)) (finalized - 2 ^ depth)

theorem finalizedHashes_zero (depth : Nat) (leaves : List Bytes32) :
    finalizedHashes hash depth leaves 0 = [] := by
  induction depth generalizing leaves with
  | zero => rfl
  | succ depth ih =>
    have hpos := Nat.two_pow_pos (depth + 1)
    rw [finalizedHashes, if_neg (by omega), Nat.zero_sub, ih, ih, append_nil]

theorem getFinalized_shape (h : Fits depth leaves finalized) (result : List Bytes32) :
    (shape hash depth leaves finalized).getFinalized result =
      (min finalized (2 ^ depth), result ++ finalizedHashes hash depth leaves finalized) := by
  fun_induction shape hash depth leaves finalized generalizing result with
  | case1 finalized =>
    obtain rfl : finalized = 0 := by simpa [Fits] using h
    simp [Node.getFinalized, finalizedHashes]
  | case2 leaf rest finalized hfinal =>
    have hmin : min finalized 1 = 1 := by omega
    have hne : finalized ≠ 0 := by omega
    simp [Node.getFinalized, finalizedHashes, hmin, hne, rootOf, merkleRoot]
  | case3 leaf rest finalized hfinal =>
    obtain rfl : finalized = 0 := by omega
    simp [Node.getFinalized, finalizedHashes]
  | case4 depth finalized =>
    obtain rfl : finalized = 0 := by
      have hpos := Nat.two_pow_pos (depth + 1)
      simpa [Fits, hpos.ne'] using h
    simp [Node.getFinalized, finalizedHashes_zero]
  | case5 depth leaves finalized hne hfinal =>
    rw [Node.getFinalized, finalizedHashes, if_pos hfinal, min_eq_right hfinal]
  | case6 depth leaves finalized hne hfinal hleft hright =>
    have hpow := pow_succ 2 depth
    simp only [Node.getFinalized, hleft h.left, hright h.right]
    rw [finalizedHashes, if_neg hfinal, append_assoc, Prod.mk.injEq]
    exact ⟨by omega, rfl⟩

theorem shape_full (hne : leaves ≠ []) (h : 2 ^ depth ≤ finalized) :
    shape hash depth leaves finalized = .finalized (2 ^ depth) (rootOf hash depth leaves) := by
  cases depth with
  | zero =>
    obtain ⟨leaf, rest, rfl⟩ := exists_cons_of_ne_nil hne
    exact if_pos h
  | succ depth => rw [shape, if_neg hne, if_pos h]

theorem shape_nil (depth finalized : Nat) : shape hash depth [] finalized = .zero depth := by
  cases depth <;> rfl

theorem finalizedHashes_full (h : 2 ^ depth ≤ finalized) :
    finalizedHashes hash depth leaves finalized = [rootOf hash depth leaves] := by
  cases depth with
  | zero => exact if_neg (by rw [pow_zero] at h; omega)
  | succ depth => exact if_pos h

variable (hash depth leaves) in
theorem finalizedHashes_ne_nil (h : 0 < finalized) :
    finalizedHashes hash depth leaves finalized ≠ [] := by
  induction depth generalizing leaves with
  | zero => simp [finalizedHashes, h.ne']
  | succ depth ih =>
    rw [finalizedHashes]
    split_ifs
    · simp
    · simp [ih]

variable (hash) in
theorem fromSnapshotParts_eq (h : finalized ≤ leaves.length) (hle : finalized ≤ 2 ^ depth) :
    fromSnapshotParts (finalizedHashes hash depth leaves finalized) finalized depth =
      .ok (shape hash depth (leaves.take finalized) finalized) := by
  induction depth generalizing leaves finalized with
  | zero =>
    rcases Nat.eq_zero_or_pos finalized with rfl | hpos
    · simp [finalizedHashes, fromSnapshotParts, shape]
    · obtain rfl : finalized = 1 := by omega
      obtain ⟨leaf, rest, rfl⟩ := exists_cons_of_length_pos h
      simp [finalizedHashes, fromSnapshotParts, shape, rootOf, merkleRoot]
  | succ depth ih =>
    have hpow := pow_succ 2 depth
    have hpos := Nat.two_pow_pos depth
    rcases Nat.eq_zero_or_pos finalized with rfl | hfinal
    · rw [finalizedHashes_zero]
      simp [fromSnapshotParts, shape]
    have hne : leaves.take finalized ≠ [] :=
      length_pos_iff.1 (by rw [length_take]; omega)
    by_cases hall : 2 ^ (depth + 1) ≤ finalized
    · obtain rfl : finalized = 2 ^ (depth + 1) := by omega
      rw [finalizedHashes_full le_rfl, shape_full hne le_rfl, rootOf, rootOf, merkleRoot_take]
      simp [fromSnapshotParts]
    · rw [finalizedHashes, if_neg hall, shape, if_neg hne, if_neg hall]
      by_cases hleft : finalized ≤ 2 ^ depth
      · -- All finalized leaves are on the left.
        obtain ⟨first, rest, hhashes⟩ := exists_cons_of_ne_nil
          (finalizedHashes_ne_nil hash depth (leaves.take (2 ^ depth)) hfinal)
        have hparts := ih (show finalized ≤ (leaves.take (2 ^ depth)).length by
          rw [length_take]; omega) hleft
        rw [hhashes, take_take, min_eq_left hleft] at hparts
        rw [Nat.sub_eq_zero_of_le hleft, finalizedHashes_zero, append_nil, hhashes,
          take_take, min_eq_right hleft, drop_eq_nil_of_le (by rw [length_take]; omega),
          shape_nil]
        simp only [fromSnapshotParts, if_neg hfinal.ne', if_neg (Nat.ne_of_lt (not_le.1 hall)),
          if_pos hleft, hparts, ok_bind]
        rfl
      · rw [finalizedHashes_full (by omega), shape_full (by
          rw [take_take, min_eq_left (by omega)]
          exact length_pos_iff.1 (by rw [length_take]; omega)) (by omega)]
        have hparts := ih (show finalized - 2 ^ depth ≤ (leaves.drop (2 ^ depth)).length by
          rw [length_drop]; omega) (by omega)
        rw [take_take, min_eq_left (by omega), drop_take]
        simp only [singleton_append, fromSnapshotParts, if_neg hfinal.ne',
          if_neg (Nat.ne_of_lt (not_le.1 hall)), if_neg hleft, hparts, ok_bind]
        rfl

theorem mod_two_pow_succ (n depth : Nat) :
    n / 2 ^ depth % 2 = 0 ∧ n % 2 ^ (depth + 1) = n % 2 ^ depth ∨
      n / 2 ^ depth % 2 = 1 ∧ n % 2 ^ (depth + 1) = n % 2 ^ depth + 2 ^ depth := by
  rw [pow_succ, mod_mul]
  rcases mod_two_eq_zero_or_one (n / 2 ^ depth) with h | h <;> simp [h]

variable (hash depth leaves) in
/-- The loop of `CalculateRoot` takes the hashes from the end, one for each digit of the size. -/
theorem rootLoop_eq (before : List Bytes32) (size : Nat) (h : size % 2 ^ depth ≤ leaves.length) :
    (List.range depth).foldl
      (rootStep hash (before ++ finalizedHashes hash depth leaves (size % 2 ^ depth)))
      ⟨size, (before ++ finalizedHashes hash depth leaves (size % 2 ^ depth)).length,
        zeroHashes hash 0, false⟩ =
    ⟨size / 2 ^ depth, before.length, rootOf hash depth (leaves.take (size % 2 ^ depth)), false⟩ := by
  induction depth generalizing leaves before with
  | zero => simp [mod_one, finalizedHashes, rootOf, merkleRoot, zeroHashes, zeroRoot]
  | succ depth ih =>
    have hpow := pow_succ 2 depth
    have hlow := mod_lt size (Nat.two_pow_pos depth)
    have hnext : size / 2 ^ depth / 2 = size / 2 ^ (depth + 1) := by
      rw [Nat.div_div_eq_div_mul, pow_succ]
    rw [range_succ, foldl_append]
    rcases mod_two_pow_succ size depth with ⟨heven, hsize⟩ | ⟨hodd, hsize⟩
    · rw [hsize] at h ⊢
      rw [finalizedHashes, if_neg (by omega), Nat.sub_eq_zero_of_le hlow.le, finalizedHashes_zero,
        append_nil, ih _ _ (by rw [length_take]; omega), take_take,
        min_eq_left hlow.le]
      have hroot : rootOf hash (depth + 1) (leaves.take (size % 2 ^ depth)) =
          combine hash (rootOf hash depth (leaves.take (size % 2 ^ depth)))
            (zeroHashes hash depth) :=
        merkleRoot_left _ _ (by rw [length_take]; omega)
      simp [rootStep, heven, hroot, hnext]
    · rw [hsize] at h ⊢
      rw [finalizedHashes, if_neg (by omega), Nat.add_sub_cancel, finalizedHashes_full (by omega),
        ← append_assoc, ih _ _ (by rw [length_drop]; omega)]
      have hroot : rootOf hash (depth + 1) (leaves.take (size % 2 ^ depth + 2 ^ depth)) =
          combine hash (rootOf hash depth (leaves.take (2 ^ depth)))
            (rootOf hash depth ((leaves.drop (2 ^ depth)).take (size % 2 ^ depth))) := by
        rw [rootOf, merkleRoot, take_take, min_eq_left (by omega), drop_take,
          Nat.add_sub_cancel]
        rfl
      simp [rootStep, hodd, hroot, hnext]

variable (hash) in
/-- The path to a leaf that is not finalized leads through inner nodes. -/
theorem descend_shape {index : Nat} {leaf : Bytes32} (hfinal : finalized ≤ index % 2 ^ depth)
    (hleaf : leaves[index % 2 ^ depth]? = some leaf) (proof : List Bytes32) :
    Node.descend hash index (shape hash depth leaves finalized) depth proof =
      .ok (.leaf leaf, proof ++ (siblings (combine hash) zeroBytes depth leaves
        (index % 2 ^ depth)).reverse) := by
  induction depth generalizing leaves finalized proof with
  | zero =>
    rw [pow_zero, mod_one] at hfinal hleaf
    obtain rfl : finalized = 0 := by omega
    obtain ⟨rest, rfl⟩ : ∃ rest, leaves = leaf :: rest := by
      cases leaves with
      | nil => cases hleaf
      | cons x rest => exact ⟨rest, by rw [Option.some.inj hleaf]⟩
    simp [Node.descend, shape, siblings]
  | succ depth ih =>
    have hpow := pow_succ 2 depth
    have hlow := mod_lt index (Nat.two_pow_pos depth)
    have hindex := mod_lt index (Nat.two_pow_pos (depth + 1))
    have hne : leaves ≠ [] := by
      rintro rfl
      simp at hleaf
    rw [shape, if_neg hne, if_neg (by omega), Node.descend, getRoot_shape, getRoot_shape, siblings]
    rcases mod_two_pow_succ index depth with ⟨heven, hdigits⟩ | ⟨hodd, hdigits⟩
    · rw [hdigits] at hfinal hleaf ⊢
      rw [if_neg (by omega), if_pos hlow,
        ih hfinal (by rw [getElem?_take_of_lt hlow, hleaf]), reverse_append]
      simp [rootOf]
    · rw [hdigits] at hfinal hleaf ⊢
      rw [if_pos hodd, if_neg (by omega), Nat.add_sub_cancel, ih (by omega)
        (by rw [getElem?_drop, Nat.add_comm, hleaf]), reverse_append]
      simp [rootOf]

end LightChain.DepositSnapshot
