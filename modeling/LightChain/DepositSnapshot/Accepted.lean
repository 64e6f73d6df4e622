import LightChain.DepositSnapshot.Shape

/-!
# Accepted snapshots

`CalculateRoot` takes the finalized hashes from the end, one for each digit of the count,
and `fromSnapshotParts` takes them from the front. Both compute `peakRoot` where the list has
one hash for each digit. Nothing checks that it does: a longer list is accepted although the
two read different hashes, and for a shorter one the loop stops early.
-/
namespace LightChain.DepositSnapshot
open Library Committees List

structure SnapshotProto where
  finalized : List (List Byte)
  depositRoot : List Byte
  depositCount : Nat
  executionHash : List Byte
  executionDepth : Nat

/-- `bytesutil.ToBytes32`, which pads and truncates. -/
def toBytes32 (bytes : List Byte) : Bytes32 := Vector.ofFn fun i => bytes.getD i 0

section Model

variable (hash : Hash)

def SnapshotProto.snapshot (msg : SnapshotProto) : DepositTreeSnapshot where
  finalized := msg.finalized.map toBytes32
  depositRoot := toBytes32 msg.depositRoot
  depositCount := msg.depositCount
  executionBlock := ⟨toBytes32 msg.executionHash, msg.executionDepth⟩

def depositTreeFromSnapshotProto (msg : SnapshotProto) : Except MerkleError DepositTree :=
  fromSnapshot hash msg.snapshot

/-- A root of zero bytes is the error "could not retrieve hash tree root". -/
def DepositTree.hashTreeRoot (d : DepositTree) : Option Bytes32 :=
  if d.getRoot hash = zeroBytes then none else some (d.getRoot hash)

def DepositTree.numOfItems (d : DepositTree) : Nat := d.depositCount

def requiredHashes (depth count : Nat) : Nat := (List.range depth).countP count.testBit

/-- The root over one hash for each digit of the count, the highest digit first. -/
def peakRoot : Nat → List Bytes32 → Nat → Bytes32
  | 0, _, _ => zeroHashes hash 0
  | depth + 1, finalized, count =>
    if count.testBit depth then
      combine hash (finalized.headD zeroBytes) (peakRoot depth finalized.tail count)
    else combine hash (peakRoot depth finalized count) (zeroHashes hash depth)

variable {hash} {depth count a b : Nat} {finalized : List Bytes32}

theorem requiredHashes_succ : requiredHashes (depth + 1) count =
    requiredHashes depth count + if count.testBit depth then 1 else 0 := by
  simp [requiredHashes, range_succ, countP_append, countP_cons]

theorem peakRoot_of_requiredHashes (h : requiredHashes depth count = 0) :
    peakRoot hash depth finalized count = zeroHashes hash depth := by
  induction depth with
  | zero => rfl
  | succ depth ih =>
    rw [requiredHashes_succ] at h
    rw [peakRoot, if_neg (by grind), ih (by omega)]
    rfl

theorem requiredHashes_congr (h : ∀ i < depth, a.testBit i = b.testBit i) :
    requiredHashes depth a = requiredHashes depth b :=
  countP_congr fun i hi => by rw [h i (mem_range.1 hi)]

theorem peakRoot_congr (h : ∀ i < depth, a.testBit i = b.testBit i) :
    peakRoot hash depth finalized a = peakRoot hash depth finalized b := by
  induction depth generalizing finalized with
  | zero => rfl
  | succ depth ih =>
    have hlow : ∀ i < depth, a.testBit i = b.testBit i := fun i hi => h i (by omega)
    rw [peakRoot, peakRoot, h depth (by omega), ih hlow, ih hlow]

/-- The loop of `CalculateRoot` ends with as many hashes left as there were before `finalized`. -/
theorem rootLoop_peakRoot (before : List Bytes32)
    (h : finalized.length = requiredHashes depth count) :
    (List.range depth).foldl (rootStep hash (before ++ finalized))
      ⟨count, (before ++ finalized).length, zeroHashes hash 0, false⟩ =
    ⟨count / 2 ^ depth, before.length, peakRoot hash depth finalized count, false⟩ := by
  induction depth generalizing finalized before with
  | zero =>
    obtain rfl : finalized = [] := length_eq_zero_iff.1 h
    simp [peakRoot]
  | succ depth ih =>
    have hnext : count / 2 ^ depth / 2 = count / 2 ^ (depth + 1) := by
      rw [Nat.div_div_eq_div_mul, pow_succ]
    rw [requiredHashes_succ] at h
    rw [range_succ, foldl_append]
    by_cases hbit : count.testBit depth
    · rw [if_pos hbit] at h
      obtain ⟨first, rest, rfl⟩ := exists_cons_of_length_eq_add_one h
      rw [append_cons, ih _ (Nat.succ.inj h)]
      rw [Nat.testBit_eq_decide_div_mod_eq, decide_eq_true_eq] at hbit
      simp [rootStep, peakRoot, Nat.testBit_eq_decide_div_mod_eq, hbit, hnext]
    · rw [if_neg hbit] at h
      rw [ih _ h]
      rw [Nat.testBit_eq_decide_div_mod_eq, decide_eq_true_eq] at hbit
      simp [rootStep, peakRoot, Nat.testBit_eq_decide_div_mod_eq, hbit, hnext]

theorem fromSnapshotParts_pow {first : Bytes32} {rest : List Bytes32} :
    fromSnapshotParts (first :: rest) (2 ^ depth) depth = .ok (.finalized (2 ^ depth) first) := by
  cases depth <;> simp [fromSnapshotParts]

variable (hash) in
/-- Every count that fits is accepted, with the root over the digits if the list has one hash
for each. -/
theorem fromSnapshotParts_peakRoot (finalized : List Bytes32) (count : Nat)
    (hcount : count < 2 ^ depth) :
    ∃ t, fromSnapshotParts finalized count depth = .ok t ∧
      (finalized.length = requiredHashes depth count →
        t.getRoot hash = peakRoot hash depth finalized count) := by
  induction depth generalizing finalized count with
  | zero =>
    obtain rfl : count = 0 := by simpa using hcount
    refine ⟨.zero 0, ?_, fun _ => getRoot_zero 0⟩
    cases finalized <;> simp [fromSnapshotParts]
  | succ depth ih =>
    have hzero : requiredHashes (depth + 1) count = 0 →
        (Node.zero (depth + 1)).getRoot hash = peakRoot hash (depth + 1) finalized count := by
      intro hrequired
      rw [getRoot_zero, peakRoot_of_requiredHashes hrequired]
    cases finalized with
    | nil => exact ⟨_, rfl, fun hlen => hzero hlen.symm⟩
    | cons first rest =>
      rw [fromSnapshotParts]
      by_cases hnone : count = 0
      · refine ⟨_, if_pos hnone, fun _ => hzero ?_⟩
        simp [hnone, requiredHashes]
      rw [if_neg hnone, if_neg hcount.ne]
      dsimp only
      have hpow := pow_succ 2 depth
      obtain hlt | rfl | hgt := Nat.lt_trichotomy count (2 ^ depth)
      · -- the highest digit is not set
        have hbit : count.testBit depth = false := Nat.testBit_lt_two_pow hlt
        obtain ⟨left, hleft, hroot⟩ := ih (first :: rest) count hlt
        rw [if_pos hlt.le, hleft]
        refine ⟨_, rfl, fun hlen => ?_⟩
        rw [requiredHashes_succ, hbit] at hlen
        rw [peakRoot, hbit, Node.getRoot, hroot hlen, getRoot_zero]
        rfl
      · have hbit : (2 ^ depth).testBit depth = true := Nat.testBit_two_pow_self
        rw [if_pos le_rfl, fromSnapshotParts_pow]
        refine ⟨_, rfl, fun _ => ?_⟩
        have hlow : requiredHashes depth (2 ^ depth) = 0 := by
          rw [requiredHashes, countP_eq_zero]
          intro i hi
          simp [(mem_range.1 hi).ne']
        rw [peakRoot, hbit, peakRoot_of_requiredHashes hlow, Node.getRoot, getRoot_zero]
        rfl
      · have hbit : count.testBit depth = true := by
          rw [Nat.testBit_eq_decide_div_mod_eq, decide_eq_true_eq,
            Nat.div_eq_of_lt_le (by omega : 1 * 2 ^ depth ≤ count) (by omega)]
        have hmod : count - 2 ^ depth = count % 2 ^ depth := by
          rw [Nat.mod_eq_sub_mod hgt.le, Nat.mod_eq_of_lt (by omega)]
        have hlow : ∀ i < depth, (count - 2 ^ depth).testBit i = count.testBit i := by
          intro i hi
          rw [hmod, Nat.testBit_mod_two_pow]
          simp [hi]
        obtain ⟨right, hright, hroot⟩ := ih rest (count - 2 ^ depth) (by omega)
        rw [if_neg (by omega), hright]
        refine ⟨_, rfl, fun hlen => ?_⟩
        rw [requiredHashes_succ, hbit] at hlen
        rw [requiredHashes_congr hlow, peakRoot_congr hlow] at hroot
        rw [peakRoot, hbit, Node.getRoot, hroot (by simpa using hlen)]
        rfl

/-- What acceptance should mean. -/
structure SoundFor (hash : Hash) (msg : SnapshotProto) (t : DepositTree) : Prop where
  root : t.hashTreeRoot hash = some (toBytes32 msg.depositRoot)
  items : t.numOfItems = msg.depositCount
  length_finalized :
    msg.finalized.length = requiredHashes depositContractDepth msg.depositCount

theorem fromSnapshot_eq_ok {s : DepositTreeSnapshot} {t : DepositTree} :
    fromSnapshot hash s = .ok t ↔
      (s.depositRoot = s.calculateRoot hash ∧ s.depositCount < 2 ^ depositContractDepth) ∧
        ∃ tree, fromSnapshotParts s.finalized s.depositCount depositContractDepth = .ok tree ∧
          t = ⟨tree, s.depositCount, s.executionBlock⟩ := by
  unfold fromSnapshot
  split_ifs with hroot hcount
  · simp [hroot]
  · simp [hcount]
  · rw [bind_eq_ok]
    simp [not_ne_iff.1 hroot, not_le.1 hcount, @eq_comm _ t]

theorem depositTreeFromSnapshotProto_isOk {msg : SnapshotProto} :
    (∃ t, depositTreeFromSnapshotProto hash msg = .ok t) ↔
      toBytes32 msg.depositRoot = msg.snapshot.calculateRoot hash ∧
        msg.depositCount < 2 ^ depositContractDepth := by
  constructor
  · rintro ⟨t, ht⟩
    exact (fromSnapshot_eq_ok.1 ht).1
  · intro h
    obtain ⟨tree, htree, -⟩ :=
      fromSnapshotParts_peakRoot hash msg.snapshot.finalized msg.depositCount h.2
    exact ⟨_, fromSnapshot_eq_ok.2 ⟨h, tree, htree, rfl⟩⟩

theorem getRoot_of_accepted {msg : SnapshotProto} {t : DepositTree}
    (h : depositTreeFromSnapshotProto hash msg = .ok t) :
    t.depositCount = msg.depositCount ∧
      (msg.finalized.length = requiredHashes depositContractDepth msg.depositCount →
        t.getRoot hash = toBytes32 msg.depositRoot) := by
  obtain ⟨⟨hroot, hcount⟩, tree, htree, rfl⟩ := fromSnapshot_eq_ok.1 h
  refine ⟨rfl, fun hlen => ?_⟩
  have hlen : msg.snapshot.finalized.length =
      requiredHashes depositContractDepth msg.snapshot.depositCount :=
    (length_map _).trans hlen
  obtain ⟨tree', htree', hpeak⟩ := fromSnapshotParts_peakRoot hash msg.snapshot.finalized
    msg.snapshot.depositCount hcount
  cases htree.symm.trans htree'
  have hloop : (List.range depositContractDepth).foldl (rootStep hash _) _ = _ :=
    rootLoop_peakRoot [] hlen
  rw [nil_append] at hloop
  change _ = msg.snapshot.depositRoot
  rw [hroot, DepositTree.getRoot, hpeak hlen, DepositTreeSnapshot.calculateRoot, hloop]

/-- Acceptance is sound for the messages with one hash for each digit of the count. -/
theorem accepted_sound_iff (hash : Hash) (msg : SnapshotProto) :
    (∀ t, depositTreeFromSnapshotProto hash msg = .ok t → SoundFor hash msg t) ↔
      (msg.finalized.length = requiredHashes depositContractDepth msg.depositCount ∧
        toBytes32 msg.depositRoot ≠ zeroBytes) ∨
      toBytes32 msg.depositRoot ≠ msg.snapshot.calculateRoot hash ∨
      2 ^ depositContractDepth ≤ msg.depositCount := by
  constructor
  · intro h
    by_cases haccepted : ∃ t, depositTreeFromSnapshotProto hash msg = .ok t
    · obtain ⟨t, ht⟩ := haccepted
      obtain ⟨hroot, -, hlen⟩ := h t ht
      refine .inl ⟨hlen, fun hzero => ?_⟩
      unfold DepositTree.hashTreeRoot at hroot
      rw [(getRoot_of_accepted ht).2 hlen, if_pos hzero] at hroot
      cases hroot
    · rw [depositTreeFromSnapshotProto_isOk, not_and_or, not_lt] at haccepted
      exact .inr haccepted
  · intro h t ht
    obtain ⟨hroot, hcount⟩ := depositTreeFromSnapshotProto_isOk.1 ⟨t, ht⟩
    obtain ⟨hlen, hne⟩ | hrejected | hrejected := h
    · obtain ⟨hitems, hsame⟩ := getRoot_of_accepted ht
      refine ⟨?_, hitems, hlen⟩
      unfold DepositTree.hashTreeRoot
      rw [hsame hlen, if_neg hne]
    · exact absurd hroot hrejected
    · exact absurd hcount hrejected.not_gt

/-- A hash that keeps the first 32 bytes. -/
def firstBytes : Hash := toBytes32

/-- One deposit and two hashes. The check reads the second hash and the tree the first. -/
def longSnapshot : SnapshotProto := ⟨[[1], [2]], [2], 1, [], 0⟩

theorem accepted_with_other_root :
    ∃ t, depositTreeFromSnapshotProto firstBytes longSnapshot = .ok t ∧
      t.hashTreeRoot firstBytes = some (toBytes32 [1]) ∧
      toBytes32 longSnapshot.depositRoot = toBytes32 [2] ∧ toBytes32 [1] ≠ toBytes32 [2] := by
  refine ⟨_, fromSnapshot_eq_ok.2 ⟨⟨?_, by decide⟩, _, by rfl, rfl⟩, ?_, rfl, by decide⟩
  · decide +kernel
  · decide +kernel

end Model

end LightChain.DepositSnapshot
