import Eufs.Base.Codec
import Eufs.Journal.Record

/-!
# Eufs.Journal.Codec — control, descriptor and COMMIT blocks are canonical

The encoders of the journal are undone by its decoders (`decodeControl_controlBytes` and its companions).  Here the
other direction: every byte of an accepted block is either a field or checked to be zero, so an accepted block is the
encoding of what it decodes to, and no block is accepted by two decoders.
-/

namespace Eufs

variable {b : Block}

/-- A value with the checksum field of its struct. -/
structure Checked (α : Type) where
  value : α
  checksum : UInt32
  deriving DecidableEq

/-- Set the checksum field. -/
def Checked.stamp {α : Type} (v : Checked α) (c : UInt32) : Checked α := { v with checksum := c }

/-- `EncodeControl` reads every field of its argument but the checksum. -/
def encodeControlRecord (v : Checked JournalControl) : Except String Block := encodeControl v.value

def decodeControlRecord (b : Block) : Except String (Checked JournalControl) := do
  let decoded ← decodeControl b
  return ⟨decoded, b.getLe32 kControlChecksumOffset⟩

def encodeDescriptorRecord (v : DescriptorRecord) : Except String Block := do
  let encoded ← encodeDescriptor v
  return encoded.1

def encodeCommitRecord (v : Checked CommitRecord) : Except String Block := encodeCommit v.value

def decodeCommitRecord (b : Block) : Except String (Checked CommitRecord) := do
  let decoded ← decodeCommit b
  return ⟨decoded, b.getLe32 kRecordChecksumOffset⟩

/-- A block of fields that is closed by its own checksum is what the encoder writes. -/
theorem eq_putLe32_of_sealed {fs : List Bytes.Field} {off : ℕ} (h : b.Sealed fs off (computeBlockChecksum b off)) :
    b = ((Bytes.zero kBlockSize).fill fs).putLe32 off (computeBlockChecksum ((Bytes.zero kBlockSize).fill fs) off) := by
  have hsum : computeBlockChecksum b off = computeBlockChecksum ((Bytes.zero kBlockSize).fill fs) off := by
    unfold computeBlockChecksum
    rw [h.cleared]
  rw [← hsum]
  exact h.eq

/-! ## Controls -/

theorem controlBytes_of_decodeControl {v : JournalControl} (h : decodeControl b = .ok v) :
    b = controlBytes v ∧ b.getLe32 kControlChecksumOffset = computeBlockChecksum b kControlChecksumOffset := by
  simp only [decodeControl, reject_bind_eq_ok, not_or, not_not] at h
  obtain ⟨⟨hmagic, h8, h12, h16⟩, hsum, ⟨hz1, hz2⟩, h⟩ := h
  obtain ⟨-, -, h⟩ := bind_eq_ok.mp h
  have hv : readControl b = v := Except.ok.inj h
  have hholds : b.Holds (controlFields v) := by
    rw [← hv]
    simp [controlFields, readControl, hmagic, h8, h12, h16, kControlMagic, Bytes.toList_getBytes]
  have hs := controlBytes_sealed v
  refine ⟨?_, hsum⟩
  have hfit : Bytes.Fits kBlockSize
      ((controlFields v ++
        [Bytes.Field.le32 kControlChecksumOffset (computeBlockChecksum b kControlChecksumOffset)]).map
        Bytes.Field.shape) := by
    simpa [controlFields] using hs.fits
  refine eq_putLe32_of_sealed (hholds.sealed hsum hfit fun i hi hout => ?_)
  -- only the reserved ranges are left
  simp only [controlFields, List.map_cons, List.map_nil, Bytes.shape_le32, Bytes.shape_le64,
    Bytes.shape_raw, Vector.length_toList, List.cons_append, List.nil_append, List.forall_mem_cons, kControlMagic,
    List.length_cons, List.length_nil, kControlChecksumOffset] at hout
  by_cases hlow : i < 124
  · exact Bytes.byte_of_zeroRange hz1 (by omega) (by omega)
  · exact Bytes.byte_of_zeroRange hz2 (by simp only [kJournalControlHeaderSize]; omega)
      (by simp only [kJournalControlHeaderSize]; omega)

theorem control_canonical : Canonical encodeControlRecord decodeControlRecord
    (computeBlockChecksum · kControlChecksumOffset) Checked.stamp where
  encode_stamp _ _ := rfl
  decode_encode v b h := by
    obtain ⟨hv, rfl⟩ := encodeControl_eq_ok.mp h
    rw [decodeControlRecord, decodeControl_controlBytes hv, ok_bind, (controlBytes_sealed v.value).stored]
    rfl
  encode_decode b v h := by
    obtain ⟨decoded, hd, h⟩ := bind_eq_ok.mp h
    cases h
    obtain ⟨hb, hsum⟩ := controlBytes_of_decodeControl hd
    exact ⟨encodeControl_eq_ok.mpr ⟨decodeControl_valid hd, hb⟩, by rw [hsum]; rfl⟩

/-! ## Descriptors -/

theorem exists_of_mem_entryFields {f : Bytes.Field} :
    ∀ {es : List DescriptorEntry} {off : ℕ}, f ∈ entryFields off es →
    ∃ i e, es[i]? = some e ∧ (f = .le32 (off + kDescriptorEntrySize * i) e.homeBlock ∨
      f = .le32 (off + kDescriptorEntrySize * i + 4) e.payloadRingIndex ∨
      f = .le32 (off + kDescriptorEntrySize * i + 8) e.payloadCrc32c ∨
      f = .le32 (off + kDescriptorEntrySize * i + 12) e.flags)
  | [], _, h => absurd h List.not_mem_nil
  | e :: es, off, h => by
    simp only [entryFields, List.mem_cons] at h
    rcases h with h | h | h | h | h
    · exact ⟨0, e, rfl, .inl h⟩
    · exact ⟨0, e, rfl, .inr (.inl h)⟩
    · exact ⟨0, e, rfl, .inr (.inr (.inl h))⟩
    · exact ⟨0, e, rfl, .inr (.inr (.inr h))⟩
    · obtain ⟨i, x, hx, hf⟩ := exists_of_mem_entryFields h
      refine ⟨i + 1, x, hx, ?_⟩
      rwa [show off + kDescriptorEntrySize * (i + 1) = off + kDescriptorEntrySize + kDescriptorEntrySize * i by ring]

theorem holds_entryFields (b : Block) (n : ℕ) : b.Holds (entryFields kJournalRecordHeaderSize (readEntries b n)) := by
  intro f hf
  obtain ⟨i, e, he, hcase⟩ := exists_of_mem_entryFields hf
  obtain ⟨hi, rfl⟩ : i < n ∧ readEntry b (kJournalRecordHeaderSize + kDescriptorEntrySize * i) = e := by
    rw [readEntries, List.getElem?_map, Option.map_eq_some_iff] at he
    obtain ⟨j, hj, rfl⟩ := he
    obtain ⟨hi, rfl⟩ := List.getElem?_eq_some_iff.mp hj
    rw [List.length_range] at hi
    exact ⟨hi, by rw [List.getElem_range]⟩
  rcases hcase with rfl | rfl | rfl | rfl <;>
    simp only [Bytes.Field.le32, readEntry, Bytes.le_getLe32, Bytes.length_read]

theorem entryFields_cover {es : List DescriptorEntry} {i : ℕ} (h1 : kJournalRecordHeaderSize ≤ i)
    (h2 : i < kJournalRecordHeaderSize + es.length * kDescriptorEntrySize)
    (hout : ∀ s ∈ (entryFields kJournalRecordHeaderSize es).map Bytes.Field.shape,
      i < s.1 ∨ s.1 + s.2 ≤ i) : False := by
  simp only [kJournalRecordHeaderSize, kDescriptorEntrySize] at h1 h2
  have hk : (i - 64) / 16 < es.length := by omega
  obtain ⟨m1, m2, m3, m4⟩ := @mem_entryFields es kJournalRecordHeaderSize _ _ (List.getElem?_eq_getElem hk)
  have o1 := hout _ (List.mem_map_of_mem m1)
  have o2 := hout _ (List.mem_map_of_mem m2)
  have o3 := hout _ (List.mem_map_of_mem m3)
  have o4 := hout _ (List.mem_map_of_mem m4)
  simp only [Bytes.shape_le32, kJournalRecordHeaderSize, kDescriptorEntrySize] at o1 o2 o3 o4
  omega

theorem decodeDescriptor_inv {v : DescriptorRecord} (h : decodeDescriptor b = .ok v) :
    v.Encodable ∧ b.Holds (descriptorFields v) ∧ b.getLe32 kRecordChecksumOffset = v.checksum ∧
      v.checksum = computeBlockChecksum b kRecordChecksumOffset ∧
      b.zeroRange (kJournalRecordHeaderSize + v.entries.length * kDescriptorEntrySize)
        (kBlockSize - (kJournalRecordHeaderSize + v.entries.length * kDescriptorEntrySize)) = true := by
  obtain ⟨hid, hentries, -⟩ := decodeDescriptor_valid h
  simp only [decodeDescriptor, reject_bind_eq_ok, not_or, not_not] at h
  obtain ⟨⟨hmagic, h8, h12, h16, h52⟩, hsum, -, -, ⟨h56, h48⟩, hz, h⟩ := h
  obtain ⟨-, -, h⟩ := bind_eq_ok.mp h
  have hv := Except.ok.inj h
  have e1 : v.transactionId = b.getLe64 24 := by rw [← hv]
  have e2 : v.filesystemUuid = b.getBytes 32 16 := by rw [← hv]
  have e3 : v.transactionBlockCount = b.getLe32 48 := by rw [← hv]
  have e4 : v.flags = b.getLe32 56 := by rw [← hv]
  have e5 : v.checksum = b.getLe32 kRecordChecksumOffset := by rw [← hv]
  have e6 : v.entries = readEntries b (b.getLe32 20).toNat := by rw [← hv]
  have hlen : v.entries.length = (b.getLe32 20).toNat := by simp [e6, readEntries]
  have hcount : UInt32.ofNat v.entries.length = b.getLe32 20 := by rw [hlen, UInt32.ofNat_toNat]
  have hblocks : v.transactionBlockCount = UInt32.ofNat (v.entries.length + 2) := by
    rw [UInt32.ofNat_add, hcount, e3, h48]
    rfl
  refine ⟨⟨hid, e4.trans h56, hentries, hblocks⟩,
    Bytes.holds_append.mpr ⟨?_, e6 ▸ holds_entryFields b _⟩, e5.symm,
    e5.trans hsum, hlen ▸ hz⟩
  simp [descriptorHeaderFields, hmagic, h8, h12, h16, h52, kDescriptorMagic, hcount, e1, e2, e3, e4,
    Bytes.toList_getBytes]

theorem descriptorBytes_of_decodeDescriptor {v : DescriptorRecord} (h : decodeDescriptor b = .ok v) :
    b = descriptorBytes v := by
  obtain ⟨hv, hholds, hstored, hsum, hz⟩ := decodeDescriptor_inv h
  have hmax := hv.entries.length_le
  have hfit : Bytes.Fits kBlockSize
      ((descriptorFields v ++
        [Bytes.Field.le32 kRecordChecksumOffset (computeBlockChecksum b kRecordChecksumOffset)]).map
        Bytes.Field.shape) := by
    simpa only [List.map_append, List.map_cons, List.map_nil, Bytes.shape_le32] using (descriptorBytes_sealed hmax).fits
  refine eq_putLe32_of_sealed (hholds.sealed (hstored.trans hsum) hfit fun i hi hout => ?_)
  simp only [descriptorFields, List.map_append, List.forall_mem_append] at hout
  obtain ⟨⟨hhead, hentries⟩, htail⟩ := hout
  -- the header and the checksum cover the first 64 bytes, the entries what follows, and the rest is zero
  by_cases hlow : i < 64
  · exfalso
    simp only [descriptorHeaderFields, List.map_cons, List.map_nil, Bytes.shape_le32, Bytes.shape_le64,
      Bytes.shape_raw, Vector.length_toList, List.forall_mem_cons, kDescriptorMagic, List.length_cons,
      List.length_nil, kRecordChecksumOffset] at hhead htail
    omega
  · by_cases hin : i < kJournalRecordHeaderSize + v.entries.length * kDescriptorEntrySize
    · exact (entryFields_cover (not_lt.mp hlow) hin hentries).elim
    · exact Bytes.byte_of_zeroRange hz (not_lt.mp hin) (by omega)

theorem descriptor_canonical : Canonical encodeDescriptorRecord decodeDescriptor
    (computeBlockChecksum · kRecordChecksumOffset) (fun v c => { v with checksum := c }) where
  encode_stamp _ _ := rfl
  decode_encode v b h := by
    obtain ⟨x, hx, h⟩ := bind_eq_ok.mp h
    obtain ⟨hv, hx⟩ := encodeDescriptor_eq_ok.mp hx
    have hb : x.1 = b := Except.ok.inj h
    rw [← hb, hx]
    exact (decodeDescriptor_descriptorBytes hv).trans (by rw [descriptorChecksum_eq hv.entries.length_le])
  encode_decode b v h := by
    obtain ⟨hv, -, -, hsum, -⟩ := decodeDescriptor_inv h
    refine ⟨?_, by rw [← hsum]⟩
    rw [encodeDescriptorRecord, encodeDescriptor_eq_ok.mpr ⟨hv, rfl⟩, ok_bind]
    exact congrArg Except.ok (descriptorBytes_of_decodeDescriptor h).symm

/-! ## COMMIT records -/

theorem commitBytes_of_decodeCommit {v : CommitRecord} (h : decodeCommit b = .ok v) :
    ¬ v.fieldsInvalid ∧ b = commitBytes v ∧
      b.getLe32 kRecordChecksumOffset = computeBlockChecksum b kRecordChecksumOffset := by
  simp only [decodeCommit, reject_bind_eq_ok, not_or, not_not] at h
  obtain ⟨⟨hmagic, h8, h12, h16⟩, hsum, hz, hvalid, h⟩ := h
  have hv : readCommit b = v := Except.ok.inj h
  have hholds : b.Holds (commitFields v) := by
    rw [← hv]
    simp [commitFields, readCommit, hmagic, h8, h12, h16, kCommitMagic, Bytes.toList_getBytes]
  refine ⟨hv ▸ hvalid, ?_, hsum⟩
  have hfit : Bytes.Fits kBlockSize
      ((commitFields v ++ [Bytes.Field.le32 kRecordChecksumOffset (computeBlockChecksum b kRecordChecksumOffset)]).map
        Bytes.Field.shape) := by
    simpa [commitFields] using (commitBytes_sealed v).fits
  refine eq_putLe32_of_sealed (hholds.sealed hsum hfit fun i hi hout => ?_)
  simp only [commitFields, List.map_cons, List.map_nil, Bytes.shape_le32, Bytes.shape_le64,
    Bytes.shape_raw, Vector.length_toList, List.cons_append, List.nil_append, List.forall_mem_cons, kCommitMagic,
    List.length_cons, List.length_nil, kRecordChecksumOffset] at hout
  exact Bytes.byte_of_zeroRange hz (by simp only [kJournalRecordHeaderSize]; omega)
    (by simp only [kJournalRecordHeaderSize]; omega)

theorem commit_canonical : Canonical encodeCommitRecord decodeCommitRecord
    (computeBlockChecksum · kRecordChecksumOffset) Checked.stamp where
  encode_stamp _ _ := rfl
  decode_encode v b h := by
    obtain ⟨hv, rfl⟩ := encodeCommit_eq_ok.mp h
    rw [decodeCommitRecord, decodeCommit_commitBytes hv, ok_bind, (commitBytes_sealed v.value).stored]
    rfl
  encode_decode b v h := by
    obtain ⟨decoded, hd, h⟩ := bind_eq_ok.mp h
    cases h
    obtain ⟨hv, hb, hsum⟩ := commitBytes_of_decodeCommit hd
    exact ⟨encodeCommit_eq_ok.mpr ⟨hv, hb⟩, by rw [hsum]; rfl⟩

/-! ## All three -/

/-- A decoder accepts only blocks that start with its magic number. -/
theorem magic_of_decode {b : Block} :
    (∀ v, decodeControl b = .ok v → b.read 0 8 = kControlMagic) ∧
    (∀ v, decodeDescriptor b = .ok v → b.read 0 8 = kDescriptorMagic) ∧
    ∀ v, decodeCommit b = .ok v → b.read 0 8 = kCommitMagic := by
  refine ⟨fun v h => ?_, fun v h => ?_, fun v h => ?_⟩
  · simp only [decodeControl, reject_bind_eq_ok, not_or, not_not] at h
    exact h.1.1
  · simp only [decodeDescriptor, reject_bind_eq_ok, not_or, not_not] at h
    exact h.1.1
  · simp only [decodeCommit, reject_bind_eq_ok, not_or, not_not] at h
    exact h.1.1

/-- The journal's codecs are exact inverses, accept the same values as their decoders and are unambiguous. -/
theorem journal_codecs_exact :
    (Canonical encodeControlRecord decodeControlRecord
      (computeBlockChecksum · kControlChecksumOffset) Checked.stamp ∧
      Canonical encodeDescriptorRecord decodeDescriptor (computeBlockChecksum · kRecordChecksumOffset)
        (fun v c => { v with checksum := c }) ∧
      Canonical encodeCommitRecord decodeCommitRecord (computeBlockChecksum · kRecordChecksumOffset) Checked.stamp ∧
      ∀ v b c, encodeDescriptor v = .ok (b, c) → c = computeBlockChecksum b kRecordChecksumOffset) ∧
    ((∀ v : Checked JournalControl, (∃ b, encodeControlRecord v = .ok b) ↔
        ∃ b c, decodeControlRecord b = .ok (v.stamp c)) ∧
      (∀ v : DescriptorRecord, (∃ b, encodeDescriptorRecord v = .ok b) ↔
        ∃ b c, decodeDescriptor b = .ok { v with checksum := c }) ∧
      ∀ v : Checked CommitRecord, (∃ b, encodeCommitRecord v = .ok b) ↔
        ∃ b c, decodeCommitRecord b = .ok (v.stamp c)) ∧
    ∀ b : Block, ¬ ((∃ v, decodeControlRecord b = .ok v) ∧ ∃ v, decodeDescriptor b = .ok v) ∧
      ¬ ((∃ v, decodeControlRecord b = .ok v) ∧ ∃ v, decodeCommitRecord b = .ok v) ∧
      ¬ ((∃ v, decodeDescriptor b = .ok v) ∧ ∃ v, decodeCommitRecord b = .ok v) := by
  refine ⟨⟨control_canonical, descriptor_canonical, commit_canonical, fun v b c h => ?_⟩,
    ⟨control_canonical.accepted_iff, descriptor_canonical.accepted_iff, commit_canonical.accepted_iff⟩,
    fun b => ?_⟩
  · obtain ⟨hv, hbc⟩ := encodeDescriptor_eq_ok.mp h
    obtain ⟨rfl, rfl⟩ := Prod.mk.inj hbc
    exact (descriptorChecksum_eq hv.entries.length_le).symm
  obtain ⟨hcontrol, hdescriptor, hcommit⟩ := @magic_of_decode b
  have c1 : (∃ v, decodeControlRecord b = .ok v) → b.read 0 8 = kControlMagic := by
    rintro ⟨v, h⟩
    obtain ⟨x, hx, -⟩ := bind_eq_ok.mp h
    exact hcontrol x hx
  have c2 : (∃ v, decodeDescriptor b = .ok v) → b.read 0 8 = kDescriptorMagic := by
    rintro ⟨v, h⟩
    exact hdescriptor v h
  have c3 : (∃ v, decodeCommitRecord b = .ok v) → b.read 0 8 = kCommitMagic := by
    rintro ⟨v, h⟩
    obtain ⟨x, hx, -⟩ := bind_eq_ok.mp h
    exact hcommit x hx
  refine ⟨?_, ?_, ?_⟩
  · rintro ⟨h1, h2⟩
    exact absurd ((c1 h1).symm.trans (c2 h2)) (by decide)
  · rintro ⟨h1, h2⟩
    exact absurd ((c1 h1).symm.trans (c3 h2)) (by decide)
  · rintro ⟨h1, h2⟩
    exact absurd ((c2 h1).symm.trans (c3 h2)) (by decide)

/-- The control of an empty ring of three blocks. -/
def emptyRingControl : JournalControl :=
  ⟨3, Bytes.zero 16, 1, 0, 0, 0, 0, 1, 0, 0, 0⟩

theorem emptyRingControl_valid : emptyRingControl.Valid := by
  refine ⟨?_, ?_, ?_, ?_, ?_, ?_, ?_, ?_⟩ <;> decide

theorem journal_codecs_exact_empty_ring : ∃ b, encodeControlRecord ⟨emptyRingControl, 7⟩ = .ok b ∧
    decodeControlRecord b = .ok ⟨emptyRingControl, computeBlockChecksum b kControlChecksumOffset⟩ := by
  have hb := encodeControl_eq_ok.mpr ⟨emptyRingControl_valid, rfl⟩
  exact ⟨_, hb, journal_codecs_exact.1.1.decode_encode ⟨emptyRingControl, 7⟩ _ hb⟩

end Eufs
