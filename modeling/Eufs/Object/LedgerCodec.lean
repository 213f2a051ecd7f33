import Eufs.Base.Codec
import Eufs.Object.LedgerFormat

/-!
# Eufs.Object.LedgerCodec — slots of the ledger are canonical

A slot is empty, holds a record, or is corrupt.  A record is accepted by both directions when its outcome is one of four
kinds (`RequestLedgerRecord.Legal`); its encoding is bound to its own number, and a slot that holds a record holds
nothing else.
-/

namespace Eufs

open RequestLedgerRecord

variable {v : RequestLedgerRecord} {s : UInt64}

namespace RequestLedgerRecord

variable (v : RequestLedgerRecord)

/-- The four kinds of outcome: committed, rejected as existing, rejected as stale, rejected as not found. -/
def LegalOutcome : Prop :=
  (v.resultKind = .kCommitted ∧ v.resultCode = .kOk ∧ v.hasCommittedVersion ∧ v.currentVersionEmpty) ∨
  (v.resultKind = .kNotApplied ∧ v.operation = .kCreateIfAbsent ∧ v.resultCode = .kAlreadyExists ∧
    v.committedVersionEmpty ∧ v.hasCurrentVersion) ∨
  (v.resultKind = .kNotApplied ∧ v.operation = .kReplaceIfVersion ∧ v.resultCode = .kVersionMismatch ∧
    v.committedVersionEmpty ∧ v.hasCurrentVersion) ∨
  (v.resultKind = .kNotApplied ∧ v.operation = .kReplaceIfVersion ∧ v.resultCode = .kNotFound ∧
    v.committedVersionEmpty ∧ v.currentVersionEmpty)

/-- A record that may stand in the ledger. -/
def Legal : Prop := v.requestId ≠ Bytes.zero _ ∧ v.sequence ≠ 0 ∧ v.LegalOutcome

end RequestLedgerRecord

theorem validateRecord_eq_ok : validateRecord v = .ok () ↔ v.Legal := by
  rw [validateRecord, reject_bind_eq_ok, not_or, and_assoc]
  refine and_congr_right fun _ => and_congr_right fun _ => ?_
  unfold RequestLedgerRecord.LegalOutcome expectedRejection
  cases hk : v.resultKind with
  | kCommitted => simp
  | kNotApplied =>
    simp only [reject_bind_eq_ok, not_or, not_not]
    cases v.operation <;> cases v.resultCode <;> simp

theorem encodeRequestLedgerRecord_iff : (∃ b, encodeRequestLedgerRecord v = .ok b) ↔ v.Legal := by
  constructor
  · rintro ⟨b, h⟩
    exact validateRecord_eq_ok.mp (encodeRequestLedgerRecord_eq_ok.mp h).1
  · exact fun h => ⟨_, encodeRequestLedgerRecord_eq_ok.mpr ⟨validateRecord_eq_ok.mpr h, rfl⟩⟩

/-! ## Slots -/

theorem MutationOperation.toByte_of_ofByte {x : UInt8} {t : MutationOperation} (h : ofByte x = some t) :
    t.toByte = x := by
  unfold ofByte at h
  split_ifs at h <;> cases h <;> simp [toByte, *]

theorem LedgerResultKind.toByte_of_ofByte {x : UInt8} {t : LedgerResultKind} (h : ofByte x = some t) :
    t.toByte = x := by
  unfold ofByte at h
  split_ifs at h <;> cases h <;> simp [toByte, *]

theorem LedgerResultCode.toUInt32_of_ofUInt32 {x : UInt32} {t : LedgerResultCode} (h : ofUInt32 x = some t) :
    t.toUInt32 = x := by
  unfold ofUInt32 at h
  split_ifs at h <;> cases h <;> simp [toUInt32, *]

theorem decodeRequestLedgerRecord_inv {b : RequestLedgerBytes} (h : decodeRequestLedgerRecord b s = .ok (some v)) :
    b.Holds (ledgerFields v) ∧ b.getLe32 kLedgerChecksumOffset = ledgerChecksum b ∧ b.zeroRange 96 32 = true := by
  simp only [decodeRequestLedgerRecord, reject_bind_eq_ok] at h
  obtain ⟨-, h⟩ := h
  split_ifs at h
  · cases h
  simp only [reject_bind_eq_ok, not_or, ne_eq, not_not] at h
  obtain ⟨⟨hmagic, hversion⟩, hsum, hzero, -, h⟩ := h
  split at h
  · cases h
  rename_i operation hop
  simp only [reject_bind_eq_ok] at h
  obtain ⟨-, h⟩ := h
  split at h
  · cases h
  rename_i resultKind hkind
  split at h
  · cases h
  rename_i resultCode hcode
  obtain ⟨-, -, h⟩ := bind_eq_ok.mp h
  cases h
  refine ⟨?_, hsum, hzero⟩
  have h6 : b.read 6 1 = [operation.toByte] := by
    rw [MutationOperation.toByte_of_ofByte hop]
    rfl
  have h7 : b.read 7 1 = [resultKind.toByte] := by
    rw [LedgerResultKind.toByte_of_ofByte hkind]
    rfl
  simp [ledgerFields, hmagic, hversion, h6, h7, kLedgerMagic, Bytes.toList_getBytes,
    LedgerResultCode.toUInt32_of_ofUInt32 hcode]

theorem ledgerBytes_of_decode {b : RequestLedgerBytes} (h : decodeRequestLedgerRecord b s = .ok (some v)) :
    b = ledgerBytes v := by
  obtain ⟨hholds, hsum, hzero⟩ := decodeRequestLedgerRecord_inv h
  have hfit : Bytes.Fits kRequestLedgerRecordSize
      ((ledgerFields v ++ [Bytes.Field.le32 kLedgerChecksumOffset (ledgerChecksum b)]).map Bytes.Field.shape) := by
    simpa [ledgerFields] using (ledgerBytes_sealed v).fits
  have hs : b.Sealed (ledgerFields v) kLedgerChecksumOffset (ledgerChecksum b) := by
    refine hholds.sealed hsum hfit fun i hi hout => ?_
    simp only [ledgerFields, List.map_cons, List.map_nil, Bytes.shape_le16, Bytes.shape_le32, Bytes.shape_le64,
      Bytes.shape_raw, Vector.length_toList, List.cons_append, List.nil_append, List.forall_mem_cons, kLedgerMagic,
      List.length_cons, List.length_nil, kLedgerChecksumOffset, kRequestIdSize, kSha256Size] at hout
    have hi : i < 128 := hi
    exact Bytes.byte_of_zeroRange hzero (by omega) (by omega)
  have hfill : ledgerChecksum b = ledgerChecksum ((Bytes.zero kRequestLedgerRecordSize).fill (ledgerFields v)) := by
    rw [ledgerChecksum, hs.cleared]
    rfl
  have hb := hs.eq
  rw [hfill] at hb
  exact hb

theorem decodeRequestLedgerRecord_iff (hv : v.Legal) :
    decodeRequestLedgerRecord (ledgerBytes v) s = .ok (some v) ↔ s = v.sequence := by
  constructor
  · exact fun h => (decodeRequestLedgerRecord_some h).2.symm
  · rintro rfl
    exact decodeRequestLedgerRecord_ledgerBytes (validateRecord_eq_ok.mpr hv)

theorem sequence_ledgerBytes (v : RequestLedgerRecord) : (ledgerBytes v).getLe64 84 = v.sequence :=
  (ledgerBytes_sealed v).getLe64 (by simp [ledgerFields])

theorem decodeRequestLedgerRecord_corrupt (hs : s ≠ v.sequence) :
    ∃ detail, decodeRequestLedgerRecord (ledgerBytes v) s = .error detail := by
  cases h : decodeRequestLedgerRecord (ledgerBytes v) s with
  | error detail => exact ⟨detail, rfl⟩
  | ok slot =>
    cases slot with
    | none => exact absurd (decodeRequestLedgerRecord_none h) (ledgerBytes_ne_zero v)
    | some w =>
      -- the slot is the encoding of both records, and the number stands in it
      have hw : v.sequence = w.sequence := by
        rw [← sequence_ledgerBytes, ledgerBytes_of_decode h, sequence_ledgerBytes]
      exact absurd ((decodeRequestLedgerRecord_some h).2.symm.trans hw.symm) hs

/-- The codec of the ledger is canonical and bound to the slot. -/
theorem ledger_codec_exact (v : RequestLedgerRecord) :
    ((∃ b, encodeRequestLedgerRecord v = .ok b) ↔ v.Legal) ∧
    (∀ b, encodeRequestLedgerRecord v = .ok b → b ≠ Bytes.zero _ ∧
      (∀ s, decodeRequestLedgerRecord b s = .ok (some v) ↔ s = v.sequence) ∧
      ∀ s, s ≠ v.sequence → ∃ detail, decodeRequestLedgerRecord b s = .error detail) ∧
    (∀ b s, decodeRequestLedgerRecord b s = .ok (some v) → encodeRequestLedgerRecord v = .ok b) ∧
    ∀ b s, decodeRequestLedgerRecord b s = .ok none ↔ s ≠ 0 ∧ b = Bytes.zero _ := by
  refine ⟨encodeRequestLedgerRecord_iff, fun b h => ?_, fun b s h => ?_, fun b s => ⟨fun h => ?_, ?_⟩⟩
  · obtain ⟨hv, rfl⟩ := encodeRequestLedgerRecord_eq_ok.mp h
    have hv := validateRecord_eq_ok.mp hv
    exact ⟨ledgerBytes_ne_zero v, fun s => decodeRequestLedgerRecord_iff hv,
      fun s hs => decodeRequestLedgerRecord_corrupt hs⟩
  · exact encodeRequestLedgerRecord_eq_ok.mpr ⟨(decodeRequestLedgerRecord_some h).1, ledgerBytes_of_decode h⟩
  · refine ⟨?_, decodeRequestLedgerRecord_none h⟩
    simp only [decodeRequestLedgerRecord, reject_bind_eq_ok] at h
    exact h.1
  · rintro ⟨hs, rfl⟩
    exact decodeRequestLedgerRecord_zero hs

/-- The record of a first request that created inode 3. -/
def createdRecord : RequestLedgerRecord where
  operation := .kCreateIfAbsent
  resultKind := .kCommitted
  requestId := (Bytes.zero _).set 0 1
  fingerprint := Bytes.zero _
  resultCode := .kOk
  committedInode := 3
  committedGeneration := 1
  currentInode := 0
  currentGeneration := 0
  sequence := 1

theorem createdRecord_legal : createdRecord.Legal := by
  refine ⟨by decide, by decide, Or.inl ?_⟩
  simp [createdRecord, hasCommittedVersion, currentVersionEmpty]

/-- The record of the first request stands in the first slot and in no other. -/
theorem ledger_codec_exact_created : ∃ b, encodeRequestLedgerRecord createdRecord = .ok b ∧
    decodeRequestLedgerRecord b 1 = .ok (some createdRecord) ∧
    (∃ detail, decodeRequestLedgerRecord b 2 = .error detail) ∧
    decodeRequestLedgerRecord (Bytes.zero _) 1 = .ok none := by
  obtain ⟨haccept, hslot, -, hempty⟩ := ledger_codec_exact createdRecord
  obtain ⟨b, hb⟩ := haccept.mpr createdRecord_legal
  obtain ⟨-, hread, hother⟩ := hslot b hb
  exact ⟨b, hb, (hread 1).mpr rfl, hother 2 (by decide), (hempty _ 1).mpr ⟨by decide, rfl⟩⟩

end Eufs
