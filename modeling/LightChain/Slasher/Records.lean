import LightChain.Library.LittleEndian

/-!
# Attestation records of the slasher

A record is the data root of an attestation and its compressed encoding. The record of an
Electra attestation has the key of that version in front, which is how it is recognised. A slice
that is indexed out of its range ends the program, which is an error here.
-/
namespace LightChain.Slasher

open Library

inductive Version where
  | phase0
  | electra
deriving DecidableEq

def rootSize : Nat := 32

structure IndexedAttestationWrapper (Att : Version → Type) where
  version : Version
  indexedAttestation : Att version
  dataRoot : List Byte
  length_dataRoot : dataRoot.length = rootSize

/-- The SSZ encodings of the two types of attestations, and the compression. -/
structure Codec (Att : Version → Type) where
  marshal : ∀ {v}, Att v → Option (List Byte)
  unmarshal : ∀ v, List Byte → Option (Att v)
  encode : List Byte → List Byte
  decode : List Byte → Option (List Byte)
  unmarshal_marshal : ∀ {v bytes} {att : Att v}, marshal att = some bytes →
    unmarshal v bytes = some att
  decode_encode : ∀ bytes, decode (encode bytes) = some bytes

inductive RecordError where
  | nilRecord
  | marshal
  | wrongLength (length : Nat)
  | decode
  | unmarshal
  | outOfRange
deriving DecidableEq

/-- The errors of the functions themselves have a text. -/
def RecordError.message : RecordError → Option String
  | .nilRecord => some "nil proposal record"
  | .wrongLength length => some ("wrong length for encoded attestation record, want minimum " ++
      toString rootSize ++ ", got " ++ toString length)
  | _ => none

def electraKey : List Byte := [0x65, 0x6c, 0x65, 0x63, 0x74, 0x72, 0x61]

def hasElectraKey (enc : List Byte) : Bool :=
  decide (electraKey.length < enc.length) && enc.take electraKey.length == electraKey

def versionKey : Version → List Byte
  | .phase0 => []
  | .electra => electraKey

variable {Att : Version → Type} (c : Codec Att)

def encodeAttestationRecord :
    Option (IndexedAttestationWrapper Att) → Except RecordError (List Byte)
  | none => .error .nilRecord
  | some w =>
    match c.marshal w.indexedAttestation with
    | none => .error .marshal
    | some encodedAtt => .ok (versionKey w.version ++ w.dataRoot ++ c.encode encodedAtt)

/-- The part after the key. -/
def decodeVersion (version : Version) (encoded : List Byte) :
    Except RecordError (IndexedAttestationWrapper Att) :=
  if h : encoded.length < rootSize then .error .outOfRange
  else match c.decode (encoded.drop rootSize) with
    | none => .error .decode
    | some decodedAttBytes =>
      match c.unmarshal version decodedAttBytes with
      | none => .error .unmarshal
      | some att => .ok ⟨version, att, encoded.take rootSize, List.length_take_of_le (not_lt.1 h)⟩

def decodeAttestationRecord (encoded : List Byte) :
    Except RecordError (IndexedAttestationWrapper Att) :=
  if encoded.length < rootSize then .error (.wrongLength encoded.length)
  else if hasElectraKey encoded then decodeVersion c .electra (encoded.drop electraKey.length)
  else decodeVersion c .phase0 encoded

variable {c} {w : IndexedAttestationWrapper Att} {encoded : List Byte} {v : Version}

theorem decodeVersion_ok (h : decodeVersion c v encoded = .ok w) : w.version = v := by
  unfold decodeVersion at h
  split_ifs at h
  split at h
  · cases h
  split at h <;> cases h
  rfl

theorem decodeVersion_outOfRange :
    decodeVersion c v encoded = .error .outOfRange ↔ encoded.length < rootSize := by
  unfold decodeVersion
  split_ifs with h
  · simp [h]
  · split
    · simp [h]
    split <;> simp [h]

theorem decodeVersion_encode {bytes : List Byte} (h : c.marshal w.indexedAttestation = some bytes) :
    decodeVersion c w.version (w.dataRoot ++ c.encode bytes) = .ok w := by
  have hroot := w.length_dataRoot
  unfold decodeVersion
  rw [dif_neg (by simp [hroot])]
  simp [List.drop_left' hroot, List.take_left' hroot, c.decode_encode, c.unmarshal_marshal h]

theorem hasElectraKey_iff (h : rootSize ≤ encoded.length) :
    hasElectraKey encoded = true ↔ electraKey <+: encoded := by
  rw [hasElectraKey, List.prefix_iff_eq_take, Bool.and_eq_true, decide_eq_true_eq, beq_iff_eq,
    eq_comm (a := electraKey)]
  exact and_iff_right (h.trans_lt' (by decide))

/-- A record is read back unless it is one of a Phase0 attestation whose data root starts with the
key, and reading goes out of range for the short records that start with the key. -/
theorem records_iff (c : Codec Att) :
    (∀ w encoded, encodeAttestationRecord c (some w) = .ok encoded →
      (decodeAttestationRecord c encoded = .ok w ↔
        (w.version = .phase0 → ¬ electraKey <+: w.dataRoot))) ∧
    ∀ encoded, decodeAttestationRecord c encoded = .error .outOfRange ↔
      electraKey <+: encoded ∧ rootSize ≤ encoded.length ∧
        encoded.length < electraKey.length + rootSize := by
  refine ⟨fun w encoded h => ?_, fun encoded => ?_⟩
  · rw [encodeAttestationRecord] at h
    split at h <;> cases h
    next bytes hmarshal =>
    have hroot := w.length_dataRoot
    have hlen : rootSize ≤ (versionKey w.version ++ w.dataRoot ++ c.encode bytes).length := by
      simp only [List.length_append, hroot]
      omega
    have hdecode := decodeVersion_encode hmarshal
    rw [decodeAttestationRecord, if_neg hlen.not_gt]
    simp only [hasElectraKey_iff hlen]
    cases hv : w.version with
    | phase0 =>
      rw [hv] at hdecode
      simp only [versionKey, List.nil_append, forall_const,
        List.isPrefix_append_of_length (hroot ▸ by decide : electraKey.length ≤ w.dataRoot.length)]
      split_ifs with hkey
      · exact iff_of_false (fun h => nomatch hv.symm.trans (decodeVersion_ok h)) (not_not.2 hkey)
      · exact iff_of_true hdecode hkey
    | electra =>
      rw [hv] at hdecode
      simp [versionKey, List.append_assoc, hdecode]
  · unfold decodeAttestationRecord
    split_ifs with hlen hkey
    · simp [hlen]
    · rw [decodeVersion_outOfRange, List.length_drop]
      rw [hasElectraKey_iff (by omega)] at hkey
      have hpos : 0 < rootSize := by decide
      exact ⟨fun h => ⟨hkey, by omega⟩, fun h => by omega⟩
    · rw [decodeVersion_outOfRange]
      rw [hasElectraKey_iff (by omega)] at hkey
      exact iff_of_false hlen fun h => hkey h.1

/-- Attestations that are their own encoding. -/
def rawCodec : Codec fun _ => List Byte where
  marshal := some
  unmarshal _ := some
  encode bytes := bytes
  decode := some
  unmarshal_marshal := Eq.symm
  decode_encode _ := rfl

/-- A Phase0 record that is read as one of Electra, and a record too short for its key. -/
theorem record_with_key :
    ((encodeAttestationRecord rawCodec
        (some ⟨.phase0, List.replicate 9 0, electraKey ++ List.replicate 25 0, by decide⟩)).bind
      (decodeAttestationRecord rawCodec)).map (·.version) = .ok .electra ∧
    (decodeAttestationRecord rawCodec (electraKey ++ List.replicate 25 0)).map (·.version) =
      .error .outOfRange := by
  decide

end LightChain.Slasher
