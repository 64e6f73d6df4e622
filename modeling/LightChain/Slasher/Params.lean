import LightChain.Library.LittleEndian
import LightChain.Library.MachineInt

/-!
# Where the slasher keeps a span

Spans are stored in flat slices, one for a group of validators and a chunk of epochs. The key of
a slice and the cell in it are mixed-radix numbers. A division by zero or a checked operation
that overflows ends the program, which is `none`.
-/
namespace LightChain.Slasher

open Library

structure Parameters where
  chunkSize : Nat
  validatorChunkSize : Nat
  historyLength : Nat

def newParams (chunkSize validatorChunkSize historyLength : Nat) : Parameters :=
  ⟨chunkSize, validatorChunkSize, historyLength⟩

def div64 (a b : Nat) : Option Nat := if b = 0 then none else some (a / b)

def mod64 (a b : Nat) : Option Nat := if b = 0 then none else some (a % b)

namespace Parameters

variable (p : Parameters)

def chunkIndex (epoch : Nat) : Option Nat := do
  div64 (← mod64 epoch p.historyLength) p.chunkSize

def validatorChunkIndex (validatorIndex : Nat) : Option Nat :=
  div64 validatorIndex p.validatorChunkSize

def firstEpoch (chunkIndex : Nat) : Nat := mul64 chunkIndex p.chunkSize

def lastEpoch (chunkIndex : Nat) : Option Nat :=
  safeAdd64 (p.firstEpoch chunkIndex) (sub64 p.chunkSize 1)

def cellIndex (validatorIndex epoch : Nat) : Option Nat := do
  let validatorChunkOffset ← mod64 validatorIndex p.validatorChunkSize
  let chunkOffset ← mod64 epoch p.chunkSize
  return add64 (mul64 validatorChunkOffset p.chunkSize) chunkOffset

def flatSliceID (validatorChunkIndex chunkIndex : Nat) : Option (List Byte) := do
  let width ← div64 p.historyLength p.chunkSize
  return toLE 8 (← safeAdd64 (← safeMul64 width validatorChunkIndex) chunkIndex)

def validatorIndexesInChunk (validatorChunkIndex : Nat) : List Nat :=
  let low := mul64 validatorChunkIndex p.validatorChunkSize
  let high := mul64 (add64 validatorChunkIndex 1) p.validatorChunkSize
  List.range' low (high - low)

/-- The slice of a span, and its cell there. -/
def address (validatorIndex epoch : Nat) : Option (List Byte × Nat) := do
  let key ← p.flatSliceID (← p.validatorChunkIndex validatorIndex) (← p.chunkIndex epoch)
  return (key, ← p.cellIndex validatorIndex epoch)

end Parameters

variable {C K N v v' e e' a b a' b' : Nat}

theorem radix_inj (hb : b < C) (hb' : b' < C) (h : C * a + b = C * a' + b') :
    a = a' ∧ b = b' := by
  have hdiv := congrArg (· / C) h
  have hmod := congrArg (· % C) h
  simp only [Nat.mul_add_div (Nat.zero_lt_of_lt hb), Nat.div_eq_of_lt hb, Nat.div_eq_of_lt hb',
    Nat.mul_add_mod, Nat.mod_eq_of_lt hb, Nat.mod_eq_of_lt hb'] at hdiv hmod
  exact ⟨hdiv, hmod⟩

theorem radix_lt (ha : a < K) (hb : b < C) : C * a + b < K * C := by
  calc C * a + b < C * (a + 1) := Nat.add_lt_add_left hb _
    _ ≤ C * K := Nat.mul_le_mul_left C ha
    _ = K * C := Nat.mul_comm C K

theorem toLE_inj {k m n : Nat} (hm : m < 2 ^ (8 * k)) (hn : n < 2 ^ (8 * k))
    (h : toLE k m = toLE k n) : m = n := by
  refine Nat.eq_of_testBit_eq fun i => ?_
  rcases Nat.lt_or_ge i (8 * k) with hi | hi
  · have hbyte := congrArg (fun bytes => (bytes[i / 8]?).map (·.getLsbD (i % 8))) h
    have hlt : i / 8 < k := by omega
    simpa [toLE, hlt, Nat.mod_lt, Nat.div_add_mod, ← BitVec.getLsbD_eq_getElem,
      BitVec.getLsbD_ofNat] using hbyte
  · have hpow := Nat.pow_le_pow_right two_pos hi
    rw [Nat.testBit_lt_two_pow (hm.trans_le hpow), Nat.testBit_lt_two_pow (hn.trans_le hpow)]

theorem eq_of_mod_eq (h : e % N = e' % N) (hwindow : e < e' + N ∧ e' < e + N) : e = e' := by
  wlog hle : e ≤ e' generalizing e e'
  · exact (this h.symm hwindow.symm (by omega)).symm
  have hzero := Nat.eq_zero_of_dvd_of_lt ((Nat.modEq_iff_dvd' hle).1 h) (by omega)
  omega

theorem address_eq_some {x : List Byte × Nat} (h : (newParams C K N).address v e = some x) :
    0 < N ∧ ∃ id < 2 ^ 64, id = N / C * (v / K) + e % N / C ∧ x.1 = toLE 8 id ∧
      (newParams C K N).cellIndex v e = some x.2 := by
  simp only [Parameters.address, Parameters.validatorChunkIndex, Parameters.chunkIndex,
    Parameters.flatSliceID, div64, mod64, Option.bind_eq_bind, Option.bind_eq_some_iff,
    Option.ite_none_left_eq_some, Option.some.injEq, safeMul64_eq_some, safeAdd64_eq_some] at h
  obtain ⟨_, ⟨-, rfl⟩, _, ⟨_, ⟨hN, rfl⟩, -, rfl⟩, _, ⟨_, ⟨-, rfl⟩, _, ⟨-, rfl⟩, _, ⟨hlt, rfl⟩, ⟨⟩⟩,
    _, hcell, ⟨⟩⟩ := h
  exact ⟨Nat.pos_of_ne_zero hN, _, hlt, rfl, rfl, hcell⟩

theorem cellIndex_eq_some (hfit : K * C ≤ 2 ^ 64) {c : Nat} :
    (newParams C K N).cellIndex v e = some c ↔ (0 < K ∧ 0 < C) ∧ c = C * (v % K) + e % C := by
  simp only [Parameters.cellIndex, mod64, newParams]
  rcases K.eq_zero_or_pos with rfl | hK
  · simp
  rcases C.eq_zero_or_pos with rfl | hC
  · simp
  have hlt := radix_lt (Nat.mod_lt v hK) (Nat.mod_lt e hC)
  have hmul : mul64 (v % K) C = C * (v % K) := by
    rw [mul64, Nat.mul_comm, uint64_of_lt (by omega)]
  simp [hK, hC, hK.ne', hC.ne', hmul, add64_of_lt (hlt.trans_le hfit), eq_comm]

theorem mem_validatorIndexesInChunk {group : Nat} (hK : 0 < K)
    (hgroup : (group + 1) * K < 2 ^ 64) :
    v ∈ (newParams C K N).validatorIndexesInChunk group ↔ v / K = group := by
  have hlow : group * K < 2 ^ 64 := hgroup.trans_le' (Nat.mul_le_mul_right K group.le_succ)
  have hsucc : add64 group 1 = group + 1 := add64_of_lt (by nlinarith)
  simp only [Parameters.validatorIndexesInChunk, newParams, hsucc, mul64_of_lt hlow,
    mul64_of_lt hgroup, List.mem_range'_1, Nat.div_eq_iff hK]
  grind

theorem epoch_in_chunk_iff {chunk last : Nat} (hC : 0 < C ∧ C ≤ 2 ^ 64) (hchunk : chunk * C < 2 ^ 64)
    (hlast : (newParams C K N).lastEpoch chunk = some last) :
    (newParams C K N).firstEpoch chunk ≤ e ∧ e ≤ last ↔ e / C = chunk := by
  have hpred : sub64 C 1 = C - 1 := by
    unfold sub64 uint64
    omega
  simp only [Parameters.lastEpoch, Parameters.firstEpoch, newParams, mul64_of_lt hchunk, hpred,
    safeAdd64_eq_some] at hlast ⊢
  rw [Nat.div_eq_iff hC.1]
  grind

/-- Different spans of one window have different addresses, and the cells of a group of
validators and a chunk of epochs are those of the flat slice. -/
theorem spans_apart (hdvd : C ∣ N) (hfit : K * C ≤ 2 ^ 64) :
    (∀ v e v' e' address, e < e' + N → e' < e + N →
      (newParams C K N).address v e = some address →
      (newParams C K N).address v' e' = some address → v = v' ∧ e = e') ∧
    (∀ v e cell, (newParams C K N).cellIndex v e = some cell → cell < K * C) ∧
    ∀ group chunk last, (group + 1) * K < 2 ^ 64 → chunk * C < 2 ^ 64 →
      (newParams C K N).lastEpoch chunk = some last → ∀ cell < K * C,
        ∃! x : Nat × Nat, x.1 ∈ (newParams C K N).validatorIndexesInChunk group ∧
          ((newParams C K N).firstEpoch chunk ≤ x.2 ∧ x.2 ≤ last) ∧
          (newParams C K N).cellIndex x.1 x.2 = some cell := by
  refine ⟨fun v e v' e' address hlow hhigh h h' => ?_, fun v e cell h => ?_,
    fun group chunk last hgroup hchunk hlast cell hcell => ?_⟩
  · obtain ⟨hN, id, hid, hid_eq, hkey, hcell⟩ := address_eq_some h
    obtain ⟨-, id', hid', hid'_eq, hkey', hcell'⟩ := address_eq_some h'
    obtain rfl := toLE_inj (by simpa using hid) (by simpa using hid') (hkey.symm.trans hkey')
    obtain ⟨⟨-, hC⟩, hcell⟩ := (cellIndex_eq_some hfit).1 hcell
    obtain ⟨-, hcell'⟩ := (cellIndex_eq_some hfit).1 hcell'
    have hchunk (e : Nat) : e % N / C < N / C :=
      Nat.div_lt_div_of_lt_of_dvd hdvd (Nat.mod_lt e hN)
    obtain ⟨hgroup, hchunks⟩ := radix_inj (hchunk e) (hchunk e') (hid_eq.symm.trans hid'_eq)
    obtain ⟨hoffset, hepoch⟩ :=
      radix_inj (Nat.mod_lt e hC) (Nat.mod_lt e' hC) (hcell.symm.trans hcell')
    constructor
    · rw [← Nat.div_add_mod v K, hgroup, hoffset, Nat.div_add_mod]
    · refine eq_of_mod_eq ?_ ⟨hlow, hhigh⟩
      rw [← Nat.div_add_mod (e % N) C, hchunks, Nat.mod_mod_of_dvd _ hdvd, hepoch,
        ← Nat.mod_mod_of_dvd e' hdvd, Nat.div_add_mod]
  · obtain ⟨⟨hK, hC⟩, rfl⟩ := (cellIndex_eq_some hfit).1 h
    exact radix_lt (Nat.mod_lt v hK) (Nat.mod_lt e hC)
  · have hC : 0 < C := Nat.pos_of_mul_pos_left (Nat.zero_lt_of_lt hcell)
    have hK : 0 < K := Nat.pos_of_mul_pos_right (Nat.zero_lt_of_lt hcell)
    have hdiv : cell / C < K := Nat.div_lt_of_lt_mul (by rwa [Nat.mul_comm])
    simp only [mem_validatorIndexesInChunk hK hgroup, cellIndex_eq_some hfit,
      epoch_in_chunk_iff ⟨hC, by nlinarith⟩ hchunk hlast]
    refine ⟨(K * group + cell / C, C * chunk + cell % C), ?_, ?_⟩
    · simp [Nat.mul_add_div, hK, hC, Nat.div_eq_of_lt hdiv, Nat.mod_eq_of_lt hdiv, Nat.div_add_mod]
    · rintro ⟨v, e⟩ ⟨rfl, rfl, -, rfl⟩
      simp [Nat.mul_add_div hC, Nat.div_add_mod]

theorem spans_apart_default :
    (newParams 16 256 4096).address 300 5000 = some ([56, 1, 0, 0, 0, 0, 0, 0], 712) ∧
      ∀ v e, 904 < e → e < 9096 → (newParams 16 256 4096).address v e =
        (newParams 16 256 4096).address 300 5000 → v = 300 ∧ e = 5000 := by
  have h : (newParams 16 256 4096).address 300 5000 = some ([56, 1, 0, 0, 0, 0, 0, 0], 712) := by
    decide
  refine ⟨h, fun v e hlow hhigh heq => ?_⟩
  exact (spans_apart (by decide) (by decide)).1 v e 300 5000 _ (by omega) (by omega) (heq.trans h) h

end LightChain.Slasher
