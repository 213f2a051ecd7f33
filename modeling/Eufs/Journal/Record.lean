import Eufs.Journal.Control

/-!
# Eufs.Journal.Record — descriptor and COMMIT records

A transaction in the ring is a descriptor, one block for each metadata after-image, and a COMMIT record.  The
descriptor lists the home block, ring position and CRC of every after-image; the COMMIT repeats the transaction id
and binds position and CRC of the descriptor.  Both codecs round trip.
-/

namespace Eufs

variable {v : DescriptorRecord}

structure DescriptorEntry where
  homeBlock : UInt32
  payloadRingIndex : UInt32
  payloadCrc32c : UInt32
  flags : UInt32
  deriving DecidableEq

structure DescriptorRecord where
  transactionId : UInt64
  filesystemUuid : Uuid
  transactionBlockCount : UInt32
  flags : UInt32
  checksum : UInt32
  entries : List DescriptorEntry
  deriving DecidableEq

structure CommitRecord where
  transactionId : UInt64
  filesystemUuid : Uuid
  entryCount : UInt32
  transactionBlockCount : UInt32
  descriptorRingIndex : UInt32
  descriptorCrc32c : UInt32
  deriving DecidableEq

def kRecordChecksumOffset : ℕ := 60

/-! ## Descriptors -/

/-- The loop of the entry check, with the home blocks and ring positions seen so far. -/
def validateEntriesFrom (homeBlocks payloadPositions : List UInt32) : List DescriptorEntry → Except String Unit
  | [] => .ok ()
  | entry :: rest => do
    reject (entry.homeBlock = 0 ∨ entry.flags ≠ 0) "descriptor entry has an invalid home block or flags"
    reject (entry.homeBlock ∈ homeBlocks) "descriptor contains a duplicate home block"
    reject (entry.payloadRingIndex ∈ payloadPositions) "descriptor contains a duplicate payload position"
    validateEntriesFrom (entry.homeBlock :: homeBlocks) (entry.payloadRingIndex :: payloadPositions) rest

def validateDescriptorEntries (entries : List DescriptorEntry) : Except String Unit := do
  reject (entries = [] ∨ entries.length > kMaxDescriptorEntries) "descriptor entry count is outside the v1 range"
  validateEntriesFrom [] [] entries

/-- What valid entries say. -/
structure EntriesValid (entries : List DescriptorEntry) : Prop where
  nonempty : entries ≠ []
  length_le : entries.length ≤ 252
  each : ∀ e ∈ entries, e.homeBlock ≠ 0 ∧ e.flags = 0
  homes : (entries.map DescriptorEntry.homeBlock).Nodup
  payloads : (entries.map DescriptorEntry.payloadRingIndex).Nodup

theorem validateEntriesFrom_eq_ok : ∀ {es : List DescriptorEntry} {hs ps : List UInt32},
    validateEntriesFrom hs ps es = .ok () ↔ (∀ e ∈ es, e.homeBlock ≠ 0 ∧ e.flags = 0) ∧
      (∀ e ∈ es, e.homeBlock ∉ hs ∧ e.payloadRingIndex ∉ ps) ∧
      (es.map DescriptorEntry.homeBlock).Nodup ∧ (es.map DescriptorEntry.payloadRingIndex).Nodup
  | [], hs, ps => by simp [validateEntriesFrom]
  | e :: es, hs, ps => by
    have ih := @validateEntriesFrom_eq_ok es (e.homeBlock :: hs) (e.payloadRingIndex :: ps)
    simp only [validateEntriesFrom, reject_bind_eq_ok, ih, List.mem_cons, List.map_cons, List.nodup_cons,
      List.mem_map, not_or, forall_eq_or_imp, not_exists, not_and, ne_eq, not_not]
    constructor
    · rintro ⟨h1, h2, h3, h4, h5, h6, h7⟩
      exact ⟨⟨h1, h4⟩, ⟨⟨h2, h3⟩, fun x hx => ⟨(h5 x hx).1.2, (h5 x hx).2.2⟩⟩,
        ⟨fun x hx => (h5 x hx).1.1, h6⟩, ⟨fun x hx => (h5 x hx).2.1, h7⟩⟩
    · rintro ⟨⟨h1, h4⟩, ⟨⟨h2, h3⟩, h5⟩, ⟨h6, h7⟩, ⟨h8, h9⟩⟩
      exact ⟨h1, h2, h3, h4, fun x hx => ⟨⟨h6 x hx, (h5 x hx).1⟩, ⟨h8 x hx, (h5 x hx).2⟩⟩, h7, h9⟩

theorem validateDescriptorEntries_eq_ok {es : List DescriptorEntry} :
    validateDescriptorEntries es = .ok () ↔ EntriesValid es := by
  simp only [validateDescriptorEntries, reject_bind_eq_ok, validateEntriesFrom_eq_ok, not_or, not_lt]
  constructor
  · rintro ⟨⟨h1, h2⟩, h3, -, h4, h5⟩
    exact ⟨h1, h2, h3, h4, h5⟩
  · rintro ⟨h1, h2, h3, h4, h5⟩
    exact ⟨⟨h1, h2⟩, h3, by simp, h4, h5⟩

/-- `EUFSJDS1`. -/
def kDescriptorMagic : List UInt8 := [69, 85, 70, 83, 74, 68, 83, 49]

/-- The encoded entries from offset `off` on. -/
def entryFields (off : ℕ) : List DescriptorEntry → List Bytes.Field
  | [] => []
  | e :: es => .le32 off e.homeBlock :: .le32 (off + 4) e.payloadRingIndex :: .le32 (off + 8) e.payloadCrc32c ::
      .le32 (off + 12) e.flags :: entryFields (off + kDescriptorEntrySize) es

/-- The encoded header; the record type of a descriptor is 1. -/
def descriptorHeaderFields (v : DescriptorRecord) : List Bytes.Field :=
  [ .raw 0 kDescriptorMagic, .le32 8 kJournalFormatVersion, .le32 12 (UInt32.ofNat kJournalRecordHeaderSize),
    .le32 16 1, .le32 20 (UInt32.ofNat v.entries.length), .le64 24 v.transactionId,
    .raw 32 v.filesystemUuid.toList, .le32 48 v.transactionBlockCount,
    .le32 52 (UInt32.ofNat kJournalRecordHeaderSize), .le32 56 v.flags ]

def descriptorFields (v : DescriptorRecord) : List Bytes.Field :=
  descriptorHeaderFields v ++ entryFields kJournalRecordHeaderSize v.entries

/-- The checksum of the encoded block. -/
def descriptorChecksum (v : DescriptorRecord) : UInt32 :=
  computeBlockChecksum ((Bytes.zero kBlockSize).fill (descriptorFields v)) kRecordChecksumOffset

/-- The encoded block. -/
def descriptorBytes (v : DescriptorRecord) : Block :=
  ((Bytes.zero kBlockSize).fill (descriptorFields v)).putLe32 kRecordChecksumOffset (descriptorChecksum v)

/-- The block and its checksum.  A zero id and nonzero flags are refused without a text of their own. -/
def encodeDescriptor (v : DescriptorRecord) : Except String (Block × UInt32) := do
  reject (v.transactionId = 0 ∨ v.flags ≠ 0) ""
  validateDescriptorEntries v.entries
  reject (v.transactionBlockCount ≠ UInt32.ofNat (v.entries.length + 2))
    "descriptor transaction block count is inconsistent"
  return (descriptorBytes v, descriptorChecksum v)

/-- The entry at offset `off`. -/
def readEntry (b : Block) (off : ℕ) : DescriptorEntry :=
  ⟨b.getLe32 off, b.getLe32 (off + 4), b.getLe32 (off + 8), b.getLe32 (off + 12)⟩

/-- The first `n` entries. -/
def readEntries (b : Block) (n : ℕ) : List DescriptorEntry :=
  (List.range n).map fun i => readEntry b (kJournalRecordHeaderSize + kDescriptorEntrySize * i)

def decodeDescriptor (b : Block) : Except String DescriptorRecord := do
  reject (b.read 0 8 ≠ kDescriptorMagic ∨ b.getLe32 8 ≠ kJournalFormatVersion ∨
      b.getLe32 12 ≠ UInt32.ofNat kJournalRecordHeaderSize ∨ b.getLe32 16 ≠ 1 ∨
      b.getLe32 52 ≠ UInt32.ofNat kJournalRecordHeaderSize)
    "descriptor header does not match the v1 format"
  reject (b.getLe32 kRecordChecksumOffset ≠ computeBlockChecksum b kRecordChecksumOffset)
    "descriptor checksum mismatch"
  let entryCount := (b.getLe32 20).toNat
  reject (entryCount = 0 ∨ entryCount > kMaxDescriptorEntries) "descriptor entry count is outside the v1 range"
  reject (b.getLe64 24 = 0) "descriptor transaction id is invalid"
  reject (b.getLe32 56 ≠ 0 ∨ b.getLe32 48 ≠ b.getLe32 20 + 2) "descriptor flags or block count are invalid"
  let used := kJournalRecordHeaderSize + entryCount * kDescriptorEntrySize
  reject (¬ b.zeroRange used (kBlockSize - used)) "descriptor reserved bytes are not zero"
  let entries := readEntries b entryCount
  validateDescriptorEntries entries
  return { transactionId := b.getLe64 24
           filesystemUuid := b.getBytes 32 16
           transactionBlockCount := b.getLe32 48
           flags := b.getLe32 56
           checksum := b.getLe32 kRecordChecksumOffset
           entries }

theorem shapes_entryFields {s : ℕ × ℕ} : ∀ {es : List DescriptorEntry} {off : ℕ},
    s ∈ (entryFields off es).map Bytes.Field.shape →
      off ≤ s.1 ∧ s.1 + s.2 ≤ off + kDescriptorEntrySize * es.length
  | [], _, h => by simp [entryFields] at h
  | e :: es, off, h => by
    simp only [entryFields, List.map_cons, List.mem_cons, Bytes.shape_le32, List.length_cons] at h ⊢
    rcases h with rfl | rfl | rfl | rfl | h
    all_goals first | (simp only [kDescriptorEntrySize]; omega) | skip
    have := shapes_entryFields h
    simp only [kDescriptorEntrySize] at this ⊢
    omega

theorem pairwise_entryFields : ∀ (es : List DescriptorEntry) (off : ℕ),
    ((entryFields off es).map Bytes.Field.shape).Pairwise fun s s' => s.1 + s.2 ≤ s'.1 ∨ s'.1 + s'.2 ≤ s.1
  | [], _ => by simp [entryFields]
  | e :: es, off => by
    have hrest : ∀ s ∈ (entryFields (off + kDescriptorEntrySize) es).map Bytes.Field.shape, off + 16 ≤ s.1 :=
      fun s hs => (shapes_entryFields hs).1
    simp only [entryFields, List.map_cons, List.pairwise_cons, List.mem_cons, Bytes.shape_le32,
      forall_eq_or_imp]
    refine ⟨⟨?_, ?_, ?_, fun s hs => ?_⟩, ⟨?_, ?_, fun s hs => ?_⟩, ⟨?_, fun s hs => ?_⟩, fun s hs => ?_,
      pairwise_entryFields es _⟩
    all_goals first | omega | (replace hrest := hrest s hs; omega)

/-- The four fields of every entry are among the encoded ones. -/
theorem mem_entryFields : ∀ {es : List DescriptorEntry} {off i : ℕ} {e : DescriptorEntry}, es[i]? = some e →
    .le32 (off + kDescriptorEntrySize * i) e.homeBlock ∈ entryFields off es ∧
    .le32 (off + kDescriptorEntrySize * i + 4) e.payloadRingIndex ∈ entryFields off es ∧
    .le32 (off + kDescriptorEntrySize * i + 8) e.payloadCrc32c ∈ entryFields off es ∧
    .le32 (off + kDescriptorEntrySize * i + 12) e.flags ∈ entryFields off es
  | [], _, _, _, h => by simp at h
  | e' :: es, off, 0, e, h => by
    simp only [List.getElem?_cons_zero, Option.some.injEq] at h
    subst h
    simp [entryFields]
  | e' :: es, off, i + 1, e, h => by
    have ih := @mem_entryFields es (off + kDescriptorEntrySize) i e (by simpa using h)
    rw [show off + kDescriptorEntrySize * (i + 1) = off + kDescriptorEntrySize + kDescriptorEntrySize * i by ring]
    simp only [entryFields, List.mem_cons]
    exact ⟨by simp [ih.1], by simp [ih.2.1], by simp [ih.2.2.1], by simp [ih.2.2.2]⟩

/-- A descriptor that its encoder accepts. -/
structure DescriptorRecord.Encodable (v : DescriptorRecord) : Prop where
  id : v.transactionId ≠ 0
  flags : v.flags = 0
  entries : EntriesValid v.entries
  count : v.transactionBlockCount = UInt32.ofNat (v.entries.length + 2)

theorem encodeDescriptor_eq_ok {r : Block × UInt32} :
    encodeDescriptor v = .ok r ↔ v.Encodable ∧ r = (descriptorBytes v, descriptorChecksum v) := by
  unfold encodeDescriptor
  rw [reject_bind_eq_ok, bind_eq_ok]
  simp only [reject_bind_eq_ok]
  push Not
  constructor
  · rintro ⟨h1, u, h2, h3, h⟩
    exact ⟨⟨h1.1, h1.2, validateDescriptorEntries_eq_ok.mp h2, h3⟩, (Except.ok.inj h).symm⟩
  · rintro ⟨⟨h1, h2, h3, h4⟩, rfl⟩
    exact ⟨⟨h1, h2⟩, (), validateDescriptorEntries_eq_ok.mpr h3, h4, rfl⟩

theorem shapes_descriptorHeaderFields (v : DescriptorRecord) :
    ∀ s ∈ (descriptorHeaderFields v).map Bytes.Field.shape, s.1 + s.2 ≤ 60 := by
  simp only [descriptorHeaderFields, List.map_cons, List.map_nil, Bytes.shape_le32, Bytes.shape_le64,
    Bytes.shape_raw, Vector.length_toList]
  decide

theorem descriptorBytes_sealed (h : v.entries.length ≤ 252) :
    (descriptorBytes v).Sealed (descriptorFields v) kRecordChecksumOffset
      (computeBlockChecksum (descriptorBytes v) kRecordChecksumOffset) := by
  have hhead := shapes_descriptorHeaderFields v
  have hblock : kBlockSize = 4096 := rfl
  refine sealed_of_checksum rfl fun c => ⟨fun s hs => ?_, ?_⟩
  · simp only [descriptorFields, List.map_append, List.mem_append] at hs
    rcases hs with (hs | hs) | hs
    · have := hhead s hs; omega
    · have := (shapes_entryFields hs).2
      simp only [kJournalRecordHeaderSize, kDescriptorEntrySize] at this
      omega
    · simp [kRecordChecksumOffset] at hs
      subst hs
      decide
  · simp only [descriptorFields, List.map_append, List.pairwise_append, List.mem_append]
    refine ⟨⟨?_, pairwise_entryFields _ _, fun s hs s' hs' => Or.inl ?_⟩, by simp, ?_⟩
    · simp only [descriptorHeaderFields, List.map_cons, List.map_nil, Bytes.shape_le32, Bytes.shape_le64,
        Bytes.shape_raw, Vector.length_toList]
      decide
    · have h1 := hhead s hs
      have h2 := (shapes_entryFields hs').1
      simp only [kJournalRecordHeaderSize] at h2
      omega
    · rintro s hs s' hs'
      simp [kRecordChecksumOffset] at hs'
      subst hs'
      rcases hs with hs | hs
      · exact Or.inl (hhead s hs)
      · exact Or.inr (shapes_entryFields hs).1

theorem descriptorChecksum_eq (h : v.entries.length ≤ 252) :
    computeBlockChecksum (descriptorBytes v) kRecordChecksumOffset = descriptorChecksum v := by
  rw [← (descriptorBytes_sealed h).stored]
  exact Bytes.getLe32_putLe32 (by decide)

/-- The descriptor comes back with the checksum of its block. -/
theorem decodeDescriptor_descriptorBytes (h : v.Encodable) :
    decodeDescriptor (descriptorBytes v) = .ok { v with checksum := descriptorChecksum v } := by
  obtain ⟨hid, hflags, hv, hcount⟩ := h
  have hlen := hv.length_le
  have hs := descriptorBytes_sealed hlen
  have hsum := descriptorChecksum_eq hlen
  generalize descriptorBytes v = b at hs hsum
  have hpos := List.length_pos_of_ne_nil hv.nonempty
  have hhead : ∀ {f}, f ∈ descriptorHeaderFields v → f ∈ descriptorFields v := fun hf =>
    List.mem_append_left _ hf
  have h32 : ∀ o x, .le32 o x ∈ descriptorHeaderFields v → b.getLe32 o = x := fun _ _ hf => hs.getLe32 (hhead hf)
  have h64 : ∀ o x, .le64 o x ∈ descriptorHeaderFields v → b.getLe64 o = x := fun _ _ hf => hs.getLe64 (hhead hf)
  have hmagic : b.read 0 8 = kDescriptorMagic := hs.read (hhead (by simp [descriptorHeaderFields])) rfl
  have huuid : b.getBytes 32 16 = v.filesystemUuid := hs.getBytes (hhead (by simp [descriptorHeaderFields]))
  simp only [descriptorHeaderFields, List.mem_cons] at h32 h64
  have hn : (UInt32.ofNat v.entries.length).toNat = v.entries.length := by
    rw [UInt32.toNat_ofNat']; omega
  have hcount' : v.transactionBlockCount = UInt32.ofNat v.entries.length + 2 := by
    rw [hcount, UInt32.ofNat_add]; rfl
  have hentries : readEntries b v.entries.length = v.entries := by
    refine List.ext_getElem? fun i => ?_
    by_cases hi : i < v.entries.length
    · have hm := @mem_entryFields _ kJournalRecordHeaderSize _ _ (List.getElem?_eq_getElem hi)
      have hmem : ∀ {f}, f ∈ entryFields kJournalRecordHeaderSize v.entries →
        f ∈ descriptorFields v := fun hf => List.mem_append_right _ hf
      rw [List.getElem?_eq_getElem hi, readEntries, List.getElem?_map, List.getElem?_range hi]
      simp only [Option.map_some, readEntry, hs.getLe32 (hmem hm.1), hs.getLe32 (hmem hm.2.1),
        hs.getLe32 (hmem hm.2.2.1), hs.getLe32 (hmem hm.2.2.2)]
    · rw [List.getElem?_eq_none (by simp [readEntries]; omega), List.getElem?_eq_none (by omega)]
  have hzero : b.zeroRange (kJournalRecordHeaderSize + v.entries.length * kDescriptorEntrySize)
      (kBlockSize - (kJournalRecordHeaderSize + v.entries.length * kDescriptorEntrySize)) = true := by
    refine hs.zeroRange fun s hs => Or.inl ?_
    simp only [descriptorFields, List.map_append, List.mem_append] at hs
    rcases hs with (hs | hs) | hs
    · have := shapes_descriptorHeaderFields v s hs
      simp only [kJournalRecordHeaderSize]
      omega
    · have := (shapes_entryFields hs).2
      rwa [Nat.mul_comm] at this
    · simp [kRecordChecksumOffset] at hs
      subst hs
      exact Nat.le_add_right 64 _
  have hrange : ¬ (v.entries.length = 0 ∨ v.entries.length > kMaxDescriptorEntries) := by
    have hmax : kMaxDescriptorEntries = 252 := rfl
    omega
  unfold decodeDescriptor
  simp only [hmagic, huuid, hs.stored, hsum, h32 8 kJournalFormatVersion (by simp),
    h32 12 (UInt32.ofNat kJournalRecordHeaderSize) (by simp), h32 16 1 (by simp),
    h32 20 (UInt32.ofNat v.entries.length) (by simp), h64 24 v.transactionId (by simp),
    h32 48 v.transactionBlockCount (by simp), h32 52 (UInt32.ofNat kJournalRecordHeaderSize) (by simp),
    h32 56 v.flags (by simp), hn, hentries, hzero, hid, hflags, hcount', ne_eq, not_true_eq_false, or_false,
    reject_false, ok_bind, validateDescriptorEntries_eq_ok.mpr hv, hrange]
  rfl

theorem decodeDescriptor_valid {b : Block} {d : DescriptorRecord} (h : decodeDescriptor b = .ok d) :
    d.transactionId ≠ 0 ∧ EntriesValid d.entries ∧
      d.transactionBlockCount.toNat = d.entries.length + 2 := by
  simp only [decodeDescriptor, reject_bind_eq_ok] at h
  obtain ⟨-, -, h3, h4, h5, -, h⟩ := h
  obtain ⟨u, hv, h⟩ := bind_eq_ok.mp h
  have hd := Except.ok.inj h
  have hlen : (readEntries b (b.getLe32 20).toNat).length = (b.getLe32 20).toNat := by simp [readEntries]
  have hcount : (b.getLe32 48).toNat = (b.getLe32 20).toNat + 2 := by
    push Not at h3 h5
    have hmax : kMaxDescriptorEntries = 252 := rfl
    have htwo : (2 : UInt32).toNat = 2 := rfl
    rw [h5.2, UInt32.toNat_add]
    omega
  rw [← hd]
  exact ⟨h4, validateDescriptorEntries_eq_ok.mp hv, hcount.trans (congrArg (· + 2) hlen.symm)⟩

/-! ## COMMIT records -/

/-- `EUFSJCM1`. -/
def kCommitMagic : List UInt8 := [69, 85, 70, 83, 74, 67, 77, 49]

/-- The record describes a transaction that the format allows. -/
def CommitRecord.fieldsInvalid (v : CommitRecord) : Prop :=
  v.transactionId = 0 ∨ v.entryCount = 0 ∨ v.entryCount.toNat > kMaxDescriptorEntries ∨
    v.transactionBlockCount ≠ v.entryCount + 2

instance (v : CommitRecord) : Decidable v.fieldsInvalid := by
  unfold CommitRecord.fieldsInvalid; infer_instance

/-- The encoded fields; the record type of a COMMIT is 2. -/
def commitFields (v : CommitRecord) : List Bytes.Field :=
  [ .raw 0 kCommitMagic, .le32 8 kJournalFormatVersion, .le32 12 (UInt32.ofNat kJournalRecordHeaderSize),
    .le32 16 2, .le32 20 v.entryCount, .le64 24 v.transactionId, .raw 32 v.filesystemUuid.toList,
    .le32 48 v.transactionBlockCount, .le32 52 v.descriptorRingIndex, .le32 56 v.descriptorCrc32c ]

/-- The encoded block. -/
def commitBytes (v : CommitRecord) : Block :=
  let b := (Bytes.zero kBlockSize).fill (commitFields v)
  b.putLe32 kRecordChecksumOffset (computeBlockChecksum b kRecordChecksumOffset)

def encodeCommit (v : CommitRecord) : Except String Block := do
  reject v.fieldsInvalid "commit fields do not describe a valid v1 transaction"
  return commitBytes v

/-- The fields as they stand in the block. -/
def readCommit (b : Block) : CommitRecord where
  transactionId := b.getLe64 24
  filesystemUuid := b.getBytes 32 16
  entryCount := b.getLe32 20
  transactionBlockCount := b.getLe32 48
  descriptorRingIndex := b.getLe32 52
  descriptorCrc32c := b.getLe32 56

def decodeCommit (b : Block) : Except String CommitRecord := do
  reject (b.read 0 8 ≠ kCommitMagic ∨ b.getLe32 8 ≠ kJournalFormatVersion ∨
      b.getLe32 12 ≠ UInt32.ofNat kJournalRecordHeaderSize ∨ b.getLe32 16 ≠ 2)
    "commit header does not match the v1 format"
  reject (b.getLe32 kRecordChecksumOffset ≠ computeBlockChecksum b kRecordChecksumOffset)
    "commit checksum mismatch"
  reject (¬ b.zeroRange kJournalRecordHeaderSize (kBlockSize - kJournalRecordHeaderSize))
    "commit reserved bytes are not zero"
  let decoded := readCommit b
  reject decoded.fieldsInvalid "commit fields do not describe a valid v1 transaction"
  return decoded

theorem encodeCommit_eq_ok {v : CommitRecord} {b : Block} :
    encodeCommit v = .ok b ↔ ¬ v.fieldsInvalid ∧ b = commitBytes v := by
  unfold encodeCommit
  rw [reject_bind_eq_ok]
  exact and_congr_right fun _ => ⟨fun h => (Except.ok.inj h).symm, fun h => h ▸ rfl⟩

theorem commitBytes_sealed (v : CommitRecord) : (commitBytes v).Sealed (commitFields v) kRecordChecksumOffset
    (computeBlockChecksum (commitBytes v) kRecordChecksumOffset) := by
  refine sealed_of_checksum rfl fun c => ?_
  simp only [commitFields, List.map_cons, List.map_append, List.map_nil, Bytes.shape_le32,
    Bytes.shape_le64, Bytes.shape_raw, Vector.length_toList]
  decide

theorem decodeCommit_commitBytes {v : CommitRecord} (hv : ¬ v.fieldsInvalid) :
    decodeCommit (commitBytes v) = .ok v := by
  have hs := commitBytes_sealed v
  generalize commitBytes v = b at hs
  have hmagic : b.read 0 8 = kCommitMagic := hs.read (by simp [commitFields]) rfl
  have hzero : b.zeroRange kJournalRecordHeaderSize (kBlockSize - kJournalRecordHeaderSize) = true := by
    refine hs.zeroRange ?_
    simp only [commitFields, List.map_cons, List.map_append, List.map_nil, Bytes.shape_le32,
      Bytes.shape_le64, Bytes.shape_raw, Vector.length_toList]
    decide
  have h32 : ∀ o x, .le32 o x ∈ commitFields v → b.getLe32 o = x := fun _ _ => hs.getLe32
  have h64 : b.getLe64 24 = v.transactionId := hs.getLe64 (by simp [commitFields])
  have huuid : b.getBytes 32 16 = v.filesystemUuid := hs.getBytes (by simp [commitFields])
  simp only [commitFields, List.mem_cons] at h32
  have hvalue : readCommit b = v := by
    simp only [readCommit, huuid, h64, h32 20 v.entryCount (by simp), h32 48 v.transactionBlockCount (by simp),
      h32 52 v.descriptorRingIndex (by simp), h32 56 v.descriptorCrc32c (by simp)]
  unfold decodeCommit
  simp only [hmagic, hzero, hs.stored, hvalue, h32 8 kJournalFormatVersion (by simp),
    h32 12 (UInt32.ofNat kJournalRecordHeaderSize) (by simp), h32 16 2 (by simp), ne_eq, not_true_eq_false,
    or_false, reject_false, ok_bind, hv]
  rfl

/-- The COMMIT binds this descriptor, not only its transaction id. -/
def commitMatchesDescriptor (descriptor : DescriptorRecord) (descriptorRingIndex : UInt32)
    (commit : CommitRecord) : Prop :=
  descriptor.transactionId = commit.transactionId ∧ descriptor.filesystemUuid = commit.filesystemUuid ∧
  descriptor.entries.length = commit.entryCount.toNat ∧
  descriptor.transactionBlockCount = commit.transactionBlockCount ∧
  descriptorRingIndex = commit.descriptorRingIndex ∧ descriptor.checksum = commit.descriptorCrc32c

instance (d : DescriptorRecord) (i : UInt32) (c : CommitRecord) : Decidable (commitMatchesDescriptor d i c) := by
  unfold commitMatchesDescriptor; infer_instance

end Eufs
