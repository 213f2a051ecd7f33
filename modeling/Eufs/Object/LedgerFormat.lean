import Eufs.Format.Ondisk

/-!
# Eufs.Object.LedgerFormat — records of the request ledger

The ledger is a file of 128-byte slots.  A slot is all zero or holds the outcome of one request: the request's
identity, what became of it and the versions involved, its own number and a checksum.  Only decided outcomes are
recorded.
-/

namespace Eufs

variable {v : RequestLedgerRecord} {b : RequestLedgerBytes} {n : UInt64}

abbrev kRequestLedgerRecordSize : ℕ := 128
abbrev kRequestLedgerFormatVersion : UInt16 := 1
abbrev kRequestLedgerInodeNumber : ℕ := 2
abbrev kLedgerEntriesPerBlock : ℕ := kBlockSize / kRequestLedgerRecordSize
abbrev kRequestIdSize : ℕ := 16
abbrev kSha256Size : ℕ := 32

/-- The ledger's name in the root directory, `.eufs.request-ledger`. -/
def kRequestLedgerName : List UInt8 :=
  [46, 101, 117, 102, 115, 46, 114, 101, 113, 117, 101, 115, 116, 45, 108, 101, 100, 103, 101, 114]

abbrev RequestId := Bytes kRequestIdSize
abbrev RequestFingerprint := Bytes kSha256Size
abbrev RequestLedgerBytes := Bytes kRequestLedgerRecordSize

inductive MutationOperation where
  | kCreateIfAbsent | kReplaceIfVersion
  deriving DecidableEq

inductive LedgerResultKind where
  | kCommitted | kNotApplied
  deriving DecidableEq

inductive LedgerResultCode where
  | kOk | kAlreadyExists | kVersionMismatch | kNotFound
  deriving DecidableEq

def MutationOperation.toByte : MutationOperation → UInt8
  | .kCreateIfAbsent => 1
  | .kReplaceIfVersion => 2

def MutationOperation.ofByte (x : UInt8) : Option MutationOperation :=
  if x = 1 then some .kCreateIfAbsent else if x = 2 then some .kReplaceIfVersion else none

def LedgerResultKind.toByte : LedgerResultKind → UInt8
  | .kCommitted => 1
  | .kNotApplied => 2

def LedgerResultKind.ofByte (x : UInt8) : Option LedgerResultKind :=
  if x = 1 then some .kCommitted else if x = 2 then some .kNotApplied else none

def LedgerResultCode.toUInt32 : LedgerResultCode → UInt32
  | .kOk => 1
  | .kAlreadyExists => 2
  | .kVersionMismatch => 3
  | .kNotFound => 4

def LedgerResultCode.ofUInt32 (x : UInt32) : Option LedgerResultCode :=
  if x = 1 then some .kOk else if x = 2 then some .kAlreadyExists else if x = 3 then some .kVersionMismatch
  else if x = 4 then some .kNotFound else none

theorem MutationOperation.ofByte_toByte (x : MutationOperation) : ofByte x.toByte = some x := by cases x <;> rfl

theorem LedgerResultKind.ofByte_toByte (x : LedgerResultKind) : ofByte x.toByte = some x := by cases x <;> rfl

theorem LedgerResultCode.ofUInt32_toUInt32 (x : LedgerResultCode) : ofUInt32 x.toUInt32 = some x := by
  cases x <;> rfl

structure RequestLedgerRecord where
  operation : MutationOperation
  resultKind : LedgerResultKind
  requestId : RequestId
  fingerprint : RequestFingerprint
  resultCode : LedgerResultCode
  committedInode : UInt32
  committedGeneration : UInt64
  currentInode : UInt32
  currentGeneration : UInt64
  sequence : UInt64
  deriving DecidableEq

namespace RequestLedgerRecord

variable (v : RequestLedgerRecord)

def hasCommittedVersion : Prop := v.committedInode ≠ 0 ∧ v.committedGeneration ≠ 0
def hasCurrentVersion : Prop := v.currentInode ≠ 0 ∧ v.currentGeneration ≠ 0
def committedVersionEmpty : Prop := v.committedInode = 0 ∧ v.committedGeneration = 0
def currentVersionEmpty : Prop := v.currentInode = 0 ∧ v.currentGeneration = 0

/-- The rejections an operation can end with. -/
def expectedRejection : Prop :=
  (v.operation = .kCreateIfAbsent ∧ v.resultCode = .kAlreadyExists) ∨
  (v.operation = .kReplaceIfVersion ∧ (v.resultCode = .kVersionMismatch ∨ v.resultCode = .kNotFound))

instance : Decidable v.hasCommittedVersion := by unfold hasCommittedVersion; infer_instance
instance : Decidable v.hasCurrentVersion := by unfold hasCurrentVersion; infer_instance
instance : Decidable v.committedVersionEmpty := by unfold committedVersionEmpty; infer_instance
instance : Decidable v.currentVersionEmpty := by unfold currentVersionEmpty; infer_instance
instance : Decidable v.expectedRejection := by unfold expectedRejection; infer_instance

end RequestLedgerRecord

def ledgerIdentityInvalid : String := "ledger operation, request id, or sequence is invalid"
def committedInconsistent : String := "committed ledger result has inconsistent versions"
def notAppliedInconsistent : String := "not-applied ledger result is inconsistent"

/-- The versions a result comes with. -/
def validateRecord (v : RequestLedgerRecord) : Except String Unit := do
  reject (v.requestId = Bytes.zero _ ∨ v.sequence = 0) ledgerIdentityInvalid
  match v.resultKind with
  | .kCommitted =>
    reject (v.resultCode ≠ .kOk ∨ ¬ v.hasCommittedVersion ∨ ¬ v.currentVersionEmpty) committedInconsistent
  | .kNotApplied => do
    reject (¬ v.expectedRejection ∨ ¬ v.committedVersionEmpty) notAppliedInconsistent
    if v.resultCode = .kNotFound then
      reject (¬ v.currentVersionEmpty) "not-found ledger result must not contain a version"
    else
      reject (¬ v.hasCurrentVersion) "rejected ledger result is missing the current version"

/-! ## The record's bytes -/

/-- The ledger's magic number, `EULG`. -/
def kLedgerMagic : List UInt8 := [69, 85, 76, 71]

def kLedgerChecksumOffset : ℕ := 92
def kLedgerReservedOffset : ℕ := 96

/-- The encoded fields, without the checksum. -/
def ledgerFields (v : RequestLedgerRecord) : List Bytes.Field :=
  [ .raw 0 kLedgerMagic, .le16 4 kRequestLedgerFormatVersion, .raw 6 [v.operation.toByte],
    .raw 7 [v.resultKind.toByte], .raw 8 v.requestId.toList, .raw 24 v.fingerprint.toList,
    .le32 56 v.resultCode.toUInt32, .le32 60 v.committedInode, .le64 64 v.committedGeneration,
    .le32 72 v.currentInode, .le64 76 v.currentGeneration, .le64 84 v.sequence ]

/-- The checksum of a record, taken with the checksum field zero. -/
def ledgerChecksum (b : RequestLedgerBytes) : UInt32 := crc32c (b.putLe32 kLedgerChecksumOffset 0).toList

/-- The encoded record. -/
def ledgerBytes (v : RequestLedgerRecord) : RequestLedgerBytes :=
  let b := (Bytes.zero kRequestLedgerRecordSize).fill (ledgerFields v)
  b.putLe32 kLedgerChecksumOffset (ledgerChecksum b)

def encodeRequestLedgerRecord (v : RequestLedgerRecord) : Except String RequestLedgerBytes := do
  validateRecord v
  return ledgerBytes v

/-- A slot: `none` when it is empty, an error when it is corrupt. -/
def decodeRequestLedgerRecord (b : RequestLedgerBytes) (expectedSequence : UInt64) :
    Except String (Option RequestLedgerRecord) := do
  reject (expectedSequence = 0) "ledger decode arguments are invalid"
  if b = Bytes.zero _ then
    return none
  else
    reject (b.read 0 4 ≠ kLedgerMagic ∨ b.getLe16 4 ≠ kRequestLedgerFormatVersion)
      "ledger header does not match the v1 format"
    reject (b.getLe32 kLedgerChecksumOffset ≠ ledgerChecksum b) "ledger checksum mismatch"
    reject (¬ b.zeroRange kLedgerReservedOffset (kRequestLedgerRecordSize - kLedgerReservedOffset))
      "ledger reserved bytes are not zero"
    reject (b.getLe64 84 ≠ expectedSequence) "ledger sequence does not match its slot"
    -- values outside the enumerations fail the record check that looks at them
    match MutationOperation.ofByte (b.byte 6) with
    | none => throw ledgerIdentityInvalid
    | some operation => do
      reject (b.getBytes 8 kRequestIdSize = Bytes.zero _) ledgerIdentityInvalid
      match LedgerResultKind.ofByte (b.byte 7) with
      | none => throw "ledger result kind is invalid"
      | some resultKind =>
        match LedgerResultCode.ofUInt32 (b.getLe32 56) with
        | none => throw (if resultKind = .kCommitted then committedInconsistent else notAppliedInconsistent)
        | some resultCode => do
          let decoded : RequestLedgerRecord :=
            { operation, resultKind, requestId := b.getBytes 8 kRequestIdSize
              fingerprint := b.getBytes 24 kSha256Size, resultCode
              committedInode := b.getLe32 60, committedGeneration := b.getLe64 64
              currentInode := b.getLe32 72, currentGeneration := b.getLe64 76, sequence := b.getLe64 84 }
          validateRecord decoded
          return some decoded

theorem encodeRequestLedgerRecord_eq_ok :
    encodeRequestLedgerRecord v = .ok b ↔ validateRecord v = .ok () ∧ b = ledgerBytes v := by
  simp only [encodeRequestLedgerRecord, bind_eq_ok]
  constructor
  · rintro ⟨u, h1, h2⟩
    exact ⟨h1, (Except.ok.inj h2).symm⟩
  · rintro ⟨h, rfl⟩
    exact ⟨(), h, rfl⟩

theorem ledgerBytes_sealed (v : RequestLedgerRecord) :
    (ledgerBytes v).Sealed (ledgerFields v) kLedgerChecksumOffset (ledgerChecksum (ledgerBytes v)) := by
  have hfit : ∀ c, Bytes.Fits kRequestLedgerRecordSize
      ((ledgerFields v ++ [Bytes.Field.le32 kLedgerChecksumOffset c]).map Bytes.Field.shape) := fun c => by
    simp only [ledgerFields, List.map_cons, List.map_append, List.map_nil, Bytes.shape_le32, Bytes.shape_le16,
      Bytes.shape_le64, Bytes.shape_raw, Vector.length_toList, List.length_singleton]
    decide
  have hs : (ledgerBytes v).Sealed (ledgerFields v) kLedgerChecksumOffset
      (ledgerChecksum ((Bytes.zero kRequestLedgerRecordSize).fill (ledgerFields v))) := ⟨rfl, hfit _⟩
  have hsum : ledgerChecksum (ledgerBytes v) =
      ledgerChecksum ((Bytes.zero kRequestLedgerRecordSize).fill (ledgerFields v)) := by
    rw [ledgerChecksum, hs.cleared]
    rfl
  rw [hsum]
  exact hs

theorem ledgerBytes_ne_zero (v : RequestLedgerRecord) : ledgerBytes v ≠ Bytes.zero _ := by
  intro h
  have hm : (ledgerBytes v).read 0 4 = kLedgerMagic :=
    (ledgerBytes_sealed v).read (by simp [ledgerFields]) rfl
  rw [h] at hm
  exact absurd hm (by decide)

theorem decodeRequestLedgerRecord_ledgerBytes (hv : validateRecord v = .ok ()) :
    decodeRequestLedgerRecord (ledgerBytes v) v.sequence = .ok (some v) := by
  have hs := ledgerBytes_sealed v
  have hne := ledgerBytes_ne_zero v
  generalize ledgerBytes v = b at hs hne
  have hv' := hv
  simp only [validateRecord, reject_bind_eq_ok, not_or] at hv'
  obtain ⟨⟨hid, hseq⟩, -⟩ := hv'
  have h32 : ∀ o x, .le32 o x ∈ ledgerFields v → b.getLe32 o = x := fun _ _ => hs.getLe32
  have h64 : ∀ o x, .le64 o x ∈ ledgerFields v → b.getLe64 o = x := fun _ _ => hs.getLe64
  have hmagic : b.read 0 4 = kLedgerMagic := hs.read (by simp [ledgerFields]) rfl
  have hver : b.getLe16 4 = kRequestLedgerFormatVersion := hs.getLe16 (by simp [ledgerFields])
  have h6 : b.byte 6 = v.operation.toByte := by
    have h : b.read 6 1 = [v.operation.toByte] := hs.read (by simp [ledgerFields]) rfl
    simpa [Bytes.read] using h
  have h7 : b.byte 7 = v.resultKind.toByte := by
    have h : b.read 7 1 = [v.resultKind.toByte] := hs.read (by simp [ledgerFields]) rfl
    simpa [Bytes.read] using h
  have hrid : b.getBytes 8 kRequestIdSize = v.requestId := hs.getBytes (by simp [ledgerFields])
  have hfp : b.getBytes 24 kSha256Size = v.fingerprint := hs.getBytes (by simp [ledgerFields])
  have hzero : b.zeroRange kLedgerReservedOffset (kRequestLedgerRecordSize - kLedgerReservedOffset) := by
    refine hs.zeroRange ?_
    simp only [ledgerFields, List.map_cons, List.map_append, List.map_nil, Bytes.shape_le32, Bytes.shape_le16,
      Bytes.shape_le64, Bytes.shape_raw, Vector.length_toList, List.length_singleton]
    decide
  simp only [ledgerFields, List.mem_cons] at h32 h64
  simp only [decodeRequestLedgerRecord, hseq, reject_false, ok_bind, if_neg hne, hmagic, hver, ne_eq,
    not_true_eq_false, or_false, hs.stored, hzero, h64 84 v.sequence (by simp), h6, h7, hrid, hfp, hid,
    MutationOperation.ofByte_toByte, LedgerResultKind.ofByte_toByte, h32 56 v.resultCode.toUInt32 (by simp),
    LedgerResultCode.ofUInt32_toUInt32, h32 60 v.committedInode (by simp), h64 64 v.committedGeneration (by simp),
    h32 72 v.currentInode (by simp), h64 76 v.currentGeneration (by simp), hv]
  rfl

theorem decodeRequestLedgerRecord_zero (hn : n ≠ 0) : decodeRequestLedgerRecord (Bytes.zero _) n = .ok none := by
  simp only [decodeRequestLedgerRecord, hn, reject_false, ok_bind, if_pos]
  rfl

theorem decodeRequestLedgerRecord_some (h : decodeRequestLedgerRecord b n = .ok (some v)) :
    validateRecord v = .ok () ∧ v.sequence = n := by
  simp only [decodeRequestLedgerRecord, reject_bind_eq_ok] at h
  obtain ⟨-, h⟩ := h
  split_ifs at h
  · cases h
  simp only [reject_bind_eq_ok, ne_eq, not_not] at h
  obtain ⟨-, -, -, hseq, h⟩ := h
  split at h
  · cases h
  simp only [reject_bind_eq_ok] at h
  obtain ⟨-, h⟩ := h
  split at h
  · cases h
  split at h
  · cases h
  obtain ⟨u, hv, h⟩ := bind_eq_ok.mp h
  cases h
  exact ⟨hv, hseq⟩

theorem decodeRequestLedgerRecord_none (h : decodeRequestLedgerRecord b n = .ok none) : b = Bytes.zero _ := by
  simp only [decodeRequestLedgerRecord, reject_bind_eq_ok] at h
  obtain ⟨-, h⟩ := h
  split_ifs at h with hz
  · exact hz
  simp only [reject_bind_eq_ok] at h
  obtain ⟨-, -, -, -, h⟩ := h
  split at h
  · cases h
  simp only [reject_bind_eq_ok] at h
  obtain ⟨-, h⟩ := h
  split at h
  · cases h
  split at h
  · cases h
  obtain ⟨u, hv, h⟩ := bind_eq_ok.mp h
  cases h

end Eufs
