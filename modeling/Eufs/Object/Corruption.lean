import Eufs.Format.Checksum
import Eufs.Format.Exact
import Eufs.Journal.Codec
import Eufs.Object.LedgerCodec

/-!
# Eufs.Object.Corruption — sealed records do not survive a short burst

Every decoder but the directory's compares a stored CRC32C with the sum of the rest of the record.  What it accepts
therefore stores its checksum, and what is left of it after a burst of 32 bits outside the field, or after any change of
the field, does not.
-/

namespace Eufs

/-! ## What the decoders accept -/

theorem decodeControl_stores {b : Block} {v : JournalControl} (h : decodeControl b = .ok v) :
    StoresChecksum b kControlChecksumOffset := by
  simp only [decodeControl, reject_bind_eq_ok, not_not] at h
  exact h.2.1

theorem decodeDescriptor_stores {b : Block} {v : DescriptorRecord} (h : decodeDescriptor b = .ok v) :
    StoresChecksum b kRecordChecksumOffset := by
  simp only [decodeDescriptor, reject_bind_eq_ok, not_not] at h
  exact h.2.1

theorem decodeCommit_stores {b : Block} {v : CommitRecord} (h : decodeCommit b = .ok v) :
    StoresChecksum b kRecordChecksumOffset := by
  simp only [decodeCommit, reject_bind_eq_ok, not_not] at h
  exact h.2.1

theorem decodeInode_stores {b : InodeBytes} {n : ℕ} {v : InodeRecord} (h : decodeInode b n = .ok v) :
    StoresChecksum b kInodeChecksumOffset := by
  simp only [decodeInode, reject_bind_eq_ok, not_not] at h
  exact h.1.symm

theorem decodeRequestLedgerRecord_stores {b : RequestLedgerBytes} {s : UInt64} {v : RequestLedgerRecord}
    (h : decodeRequestLedgerRecord b s = .ok (some v)) : StoresChecksum b kLedgerChecksumOffset :=
  (decodeRequestLedgerRecord_inv h).2.1

/-! ## What is left after the corruption -/

theorem error_of_not_ok {α : Type} {r : Except String α} (h : ∀ v, r ≠ .ok v) :
    ∃ detail, r = .error detail := by
  cases r with
  | error detail => exact ⟨detail, rfl⟩
  | ok v => exact absurd rfl (h v)

/-- A short burst cannot clear a slot: the magic number and the version stand too far apart. -/
theorem Corrupted.ne_zero {b b' : RequestLedgerBytes} {s : UInt64} {v : RequestLedgerRecord}
    (h : decodeRequestLedgerRecord b s = .ok (some v)) (hc : Corrupted b b' kLedgerChecksumOffset) :
    b' ≠ Bytes.zero _ := by
  have hholds := (decodeRequestLedgerRecord_inv h).1
  simp only [ledgerFields, Bytes.holds_cons_le64, Bytes.holds_cons_le32, Bytes.holds_cons_raw,
    Bytes.holds_cons_le16] at hholds
  obtain ⟨hmagic, hversion, -⟩ := hholds
  have h0 : b.byte 0 = 69 := by
    rw [← Bytes.getD_read b 0 (show 0 < 4 by decide)]
    exact congrArg (List.getD · 0 0) hmagic
  have h4 : b.byte 4 = 1 := by
    rw [← Bytes.getD_read b 4 (show 0 < 2 by decide), ← Bytes.le_getLe16, hversion]
    rfl
  rintro rfl
  rcases hc with hburst | hfield
  · obtain ⟨k, hk⟩ := hburst.burst
    simp only [Crc.bitAt, getD_toList, Bytes.byte_zero] at hk
    rcases Nat.lt_or_ge 0 k with hk0 | hk0
    · have hbit := hk 0 (Or.inl hk0)
      rw [h0] at hbit
      exact absurd hbit (by decide)
    · have hbit := hk 32 (Or.inr (by omega))
      rw [h4] at hbit
      exact absurd hbit (by decide)
  · have hbyte := hfield.rest 0 (by decide)
    rw [h0, Bytes.byte_zero] at hbyte
    exact absurd hbyte (by decide)

/-- CRC32C detects every burst of at most 32 bits, and so do the decoders that rely on it. -/
theorem checksums_detect_bursts :
    (∀ l l' : List UInt8, l.length = l'.length → l ≠ l' → Crc.DifferWithin 32 l l' →
      crc32c l ≠ crc32c l') ∧
    (∀ b b' v, decodeControl b = .ok v → Corrupted b b' kControlChecksumOffset →
      ∃ detail, decodeControl b' = .error detail) ∧
    (∀ b b' v, decodeDescriptor b = .ok v → Corrupted b b' kRecordChecksumOffset →
      ∃ detail, decodeDescriptor b' = .error detail) ∧
    (∀ b b' v, decodeCommit b = .ok v → Corrupted b b' kRecordChecksumOffset →
      ∃ detail, decodeCommit b' = .error detail) ∧
    (∀ b b' n v, decodeInode b n = .ok v → Corrupted b b' kInodeChecksumOffset →
      ∀ n', ∃ detail, decodeInode b' n' = .error detail) ∧
    ∀ b b' s v, decodeRequestLedgerRecord b s = .ok (some v) → Corrupted b b' kLedgerChecksumOffset →
      ∀ s', ∃ detail, decodeRequestLedgerRecord b' s' = .error detail := by
  refine ⟨fun l l' => crc32c_ne_of_burst, fun b b' v h hc => ?_, fun b b' v h hc => ?_, fun b b' v h hc => ?_,
    fun b b' n v h hc n' => ?_, fun b b' s v h hc s' => ?_⟩
  · exact error_of_not_ok fun w hw => hc.not_stores (decodeControl_stores h) (decodeControl_stores hw)
  · exact error_of_not_ok fun w hw => hc.not_stores (decodeDescriptor_stores h) (decodeDescriptor_stores hw)
  · exact error_of_not_ok fun w hw => hc.not_stores (decodeCommit_stores h) (decodeCommit_stores hw)
  · exact error_of_not_ok fun w hw => hc.not_stores (decodeInode_stores h) (decodeInode_stores hw)
  · refine error_of_not_ok fun slot hslot => ?_
    cases slot with
    | none => exact hc.ne_zero h (decodeRequestLedgerRecord_none hslot)
    | some w =>
      exact hc.not_stores (decodeRequestLedgerRecord_stores h) (decodeRequestLedgerRecord_stores hslot)

/-- One changed byte in a control block, an inode and a ledger slot. -/
theorem checksums_detect_bursts_one_byte :
    crc32c [0] ≠ crc32c [1] ∧
    (∃ b, decodeControl b = .ok emptyRingControl ∧
      ∃ detail, decodeControl (b.write 200 [b.byte 200 + 1]) = .error detail) ∧
    (∃ b, decodeInode b 7 = .ok smallInode ∧
      ∃ detail, decodeInode (b.write 9 [b.byte 9 + 1]) 7 = .error detail) ∧
    ∃ b, decodeRequestLedgerRecord b 1 = .ok (some createdRecord) ∧
      ∃ detail, decodeRequestLedgerRecord (b.write 24 [b.byte 24 + 1]) 1 = .error detail := by
  obtain ⟨hcrc, hcontrol, -, -, hinode, hledger⟩ := checksums_detect_bursts
  have hother : ∀ x : UInt8, x ≠ x + 1 := fun x => by simp
  refine ⟨hcrc [0] [1] rfl (by decide) ⟨0, fun i hi => ?_⟩, ?_, ?_, ?_⟩
  · rw [Crc.bitAt, Crc.bitAt, List.getD_eq_default _ _ (by simp; omega), List.getD_eq_default _ _ (by simp; omega)]
  · obtain ⟨b, hb⟩ : ∃ b, decodeControl b = .ok emptyRingControl :=
      ⟨_, decodeControl_controlBytes emptyRingControl_valid⟩
    exact ⟨b, hb, hcontrol b _ _ hb (Or.inl (burstOutside_write (by decide) (hother _) (by decide)))⟩
  · obtain ⟨b, hb⟩ : ∃ b, decodeInode b 7 = .ok smallInode := smallInode_decodes
    exact ⟨b, hb, hinode b _ _ _ hb (Or.inl (burstOutside_write (by decide) (hother _) (by decide))) 7⟩
  · obtain ⟨b, hb⟩ : ∃ b, decodeRequestLedgerRecord b 1 = .ok (some createdRecord) :=
      ⟨_, decodeRequestLedgerRecord_ledgerBytes (validateRecord_eq_ok.mpr createdRecord_legal)⟩
    exact ⟨b, hb, hledger b _ _ _ hb (Or.inl (burstOutside_write (by decide) (hother _) (by decide))) 1⟩

end Eufs
