import Eufs.Checker.Readback
import Eufs.Metadata.Content
import Eufs.Metadata.Fresh
import Eufs.Object.LedgerIndex

/-!
# Eufs.Object.LedgerAppend — one more record

A commit writes its record into the first empty slot of the ledger.  The slot is a part of a block, and the journal
replays whole blocks, so the plan of an append holds the block before and after.
-/

namespace Eufs

open ImageReader Function InodeRecord RequestLedgerRecord

variable {r : ImageReader} {record : RequestLedgerRecord} {v : InodeRecord} {records : List RequestLedgerRecord}

structure RequestLedgerAppendPlan where
  sequence : UInt64
  logicalBlock : ℕ
  physicalBlock : ℕ
  totalBlocks : UInt32
  filesystemUuid : Bytes 16
  record : RequestLedgerRecord
  beforeImage : Block
  afterImage : Block

def isZeroSlot (b : Block) (offset : ℕ) : Prop := b.getBytes offset kRequestLedgerRecordSize = Bytes.zero _

instance (b : Block) (offset : ℕ) : Decidable (isZeroSlot b offset) := by unfold isZeroSlot; infer_instance

/-- The offset of slot `k`, counted from 0, within its block. -/
def slotOffset (k : ℕ) : ℕ := k % kLedgerEntriesPerBlock * kRequestLedgerRecordSize

/-- The plan for the next record, whose sequence the index chooses. -/
def prepareRequestLedgerAppend (r : ImageReader) (index : RequestLedgerIndex)
    (recordWithoutSequence : RequestLedgerRecord) :
    Except Failure RequestLedgerAppendPlan := do
  reject index.full ⟨.ENOSPC, "request ledger has no empty slots"⟩
  reject (r.superblock.featureIncompat &&& kFeatureIncompatRequestLedger = 0)
    ⟨.EOPNOTSUPP, "image does not declare the request ledger feature"⟩
  let (n, v) ← resolveLedger r
  reject (n ≠ kRequestLedgerInodeNumber ∨ ¬ S_ISREG v.mode ∨ v.linkCount ≠ 1 ∨ v.size.toNat = 0 ∨
      v.size.toNat % kBlockSize ≠ 0 ∨ v.size.toNat % kRequestLedgerRecordSize ≠ 0 ∨
      v.size.toNat / kRequestLedgerRecordSize ≠ index.capacity)
    ⟨.EUCLEAN, "request ledger inode geometry disagrees with its startup index"⟩
  let sequence := index.nextSequence
  reject (sequence = 0 ∨ index.capacity < sequence.toNat)
    ⟨.EUCLEAN, "request ledger next sequence is outside its capacity"⟩
  let slotIndex := sequence.toNat - 1
  let logical := slotIndex / kLedgerEntriesPerBlock
  reject (2 ^ 32 - 1 < logical) ⟨.EOVERFLOW, "request ledger logical block cannot be represented"⟩
  let physical ← r.mapLogicalBlock v logical
  let before ← r.readBlock physical
  reject (¬ isZeroSlot before (slotOffset slotIndex))
    ⟨.EUCLEAN, "request ledger next slot is occupied despite the startup index"⟩
  let record := { recordWithoutSequence with sequence }
  let encoded ← orFail .EINVAL (encodeRequestLedgerRecord record)
  return ⟨sequence, logical, physical, r.superblock.totalBlocks, r.superblock.filesystemUuid, record, before,
    before.putBytes (slotOffset slotIndex) encoded⟩

namespace RequestLedgerAppendPlan

/-- A plan is checked again before it joins a transaction. -/
def validateAppendPlan (plan : RequestLedgerAppendPlan) : Except Failure Unit := do
  reject (plan.sequence = 0 ∨ plan.record.sequence ≠ plan.sequence ∨ plan.totalBlocks = 0 ∨
      plan.totalBlocks.toNat ≤ plan.physicalBlock) ⟨.EINVAL, "request ledger append plan identity is invalid"⟩
  let slotIndex := plan.sequence.toNat - 1
  reject (2 ^ 32 - 1 < slotIndex / kLedgerEntriesPerBlock ∨ plan.logicalBlock ≠ slotIndex / kLedgerEntriesPerBlock)
    ⟨.EINVAL, "request ledger append plan targets the wrong block"⟩
  reject (¬ isZeroSlot plan.beforeImage (slotOffset slotIndex))
    ⟨.EINVAL, "request ledger append before-image slot is not empty"⟩
  let encoded ← orFail .EINVAL (encodeRequestLedgerRecord plan.record)
  reject (plan.beforeImage.putBytes (slotOffset slotIndex) encoded ≠ plan.afterImage)
    ⟨.EINVAL, "request ledger append after-image changes bytes outside its slot"⟩

/-- The ledger's block joins a transaction as metadata. -/
def mergeRequestLedgerAppend (ledger : RequestLedgerAppendPlan) (totalBlocks : UInt32) (filesystemUuid : Bytes 16)
    (before ordered metadata : BlockMap) : Except Failure (BlockMap × BlockMap × BlockMap) := do
  ledger.validateAppendPlan
  reject (ledger.totalBlocks ≠ totalBlocks ∨ ledger.filesystemUuid ≠ filesystemUuid)
    ⟨.EINVAL, "object and request ledger plans come from different images"⟩
  reject (ledger.physicalBlock ∈ before ∨ ledger.physicalBlock ∈ ordered ∨ ledger.physicalBlock ∈ metadata)
    ⟨.EINVAL, "request ledger block conflicts with an existing object plan"⟩
  return (before.insert ledger.physicalBlock ledger.beforeImage, ordered,
    metadata.insert ledger.physicalBlock ledger.afterImage)

/-- The image once the transaction is durable. -/
def applied (plan : RequestLedgerAppendPlan) (d : Image) : Image := update d plan.physicalBlock plan.afterImage

end RequestLedgerAppendPlan

/-! ## The plan on a ledger with a free slot -/

section Append

variable {r : ImageReader} {v : InodeRecord} {records : List RequestLedgerRecord} {record : RequestLedgerRecord}

theorem slotOffset_le (k : ℕ) : slotOffset k + kRequestLedgerRecordSize ≤ kBlockSize := by
  show k % 32 * 128 + 128 ≤ 4096
  omega

theorem ledgerSlot_eq_slotOffset (v : InodeRecord) (d : Image) (k : ℕ) : v.ledgerSlot d k =
    (d (v.pointer d (k / kLedgerEntriesPerBlock))).getBytes (slotOffset k) kRequestLedgerRecordSize := by
  have h := ledgerSlot_eq v d (k / kLedgerEntriesPerBlock) (Nat.mod_lt k (by decide))
  rwa [Nat.div_add_mod' k kLedgerEntriesPerBlock] at h

theorem slot_block_lt {k : ℕ} (hk : k < v.size.toNat / kRequestLedgerRecordSize) :
    k / kLedgerEntriesPerBlock < v.requiredBlocks := by
  have hk : k < v.size.toNat / 128 := hk
  show k / 32 < (v.size.toNat + 4096 - 1) / 4096
  omega

theorem LedgerInode.capacity_lt (h : LedgerInode r v) : v.size.toNat / kRequestLedgerRecordSize < 2 ^ 20 := by
  have hr := readable_of_resolvePath h.resolves
  have hv := (decodeInode_valid (Superblock.inodeAt_eq_some.mp hr.record)).1.requiredBlocks_le
  have hv : (v.size.toNat + 4096 - 1) / 4096 ≤ 12 + 1024 := hv
  show v.size.toNat / 128 < 2 ^ 20
  omega

/-- The index of a ledger that holds `records`. -/
def ledgerIndex (v : InodeRecord) (records : List RequestLedgerRecord) : RequestLedgerIndex :=
  ⟨v.size.toNat / kRequestLedgerRecordSize, UInt64.ofNat (records.length + 1), records⟩

/-- The plan for the record after `records`. -/
def appendPlan (r : ImageReader) (v : InodeRecord) (records : List RequestLedgerRecord) (record : RequestLedgerRecord) :
    RequestLedgerAppendPlan :=
  let k := records.length
  let b := v.pointer r.image (k / kLedgerEntriesPerBlock)
  let record := { record with sequence := UInt64.ofNat (k + 1) }
  ⟨UInt64.ofNat (k + 1), k / kLedgerEntriesPerBlock, b, r.superblock.totalBlocks, r.superblock.filesystemUuid, record,
    r.image b, (r.image b).putBytes (slotOffset k) (ledgerBytes record)⟩

variable (h : LedgerInode r v) (hh : v.LedgerHolds r.image records)
  (hroom : records.length < v.size.toNat / kRequestLedgerRecordSize)
  (hvalid : validateRecord { record with sequence := UInt64.ofNat (records.length + 1) } = .ok ())

include h hroom

theorem sequence_toNat : (UInt64.ofNat (records.length + 1)).toNat = records.length + 1 := by
  have := h.capacity_lt
  exact UInt64.toNat_ofNat_of_lt' (by simp only [UInt64.size]; omega)

theorem sequence_ne_zero : UInt64.ofNat (records.length + 1) ≠ 0 := by
  intro hc
  have hseq := sequence_toNat h hroom
  rw [hc] at hseq
  exact absurd hseq (by simp)

omit h

include hh

theorem emptySlot : isZeroSlot (r.image (v.pointer r.image (records.length / kLedgerEntriesPerBlock)))
    (slotOffset records.length) := by
  have hzero : v.ledgerSlot r.image records.length = Bytes.zero _ := by
    refine decodeRequestLedgerRecord_none ((hh.slots _ hroom).trans ?_)
    rw [List.getElem?_eq_none le_rfl]
  rwa [ledgerSlot_eq_slotOffset] at hzero

include h hvalid

/-- Where there is room for a valid record, the append is planned. -/
theorem prepareRequestLedgerAppend_eq (hf : r.superblock.HasLedger) :
    prepareRequestLedgerAppend r (ledgerIndex v records) record = .ok (appendPlan r v records record) := by
  have hr := readable_of_resolvePath h.resolves
  have hseq := sequence_toNat h hroom
  have hcap := h.capacity_lt
  have hblock := slot_block_lt hroom
  have hin := hr.mapped.inData _ (pointer_mem_owned hblock)
  have hslot : (UInt64.ofNat (records.length + 1)).toNat - 1 = records.length := by omega
  unfold prepareRequestLedgerAppend
  refine reject_bind_eq_ok.mpr
    ⟨hroom.ne, reject_bind_eq_ok.mpr ⟨hf, bind_eq_ok.mpr ⟨_, h.resolveLedger_eq, ?_⟩⟩⟩
  refine reject_bind_eq_ok.mpr ⟨?_, ?_⟩
  · simp [h.regular, h.links, h.nonempty, h.whole, h.wholeRecords, ledgerIndex]
  dsimp only [ledgerIndex]
  rw [hslot]
  refine reject_bind_eq_ok.mpr ⟨fun hc => ?_, reject_bind_eq_ok.mpr ⟨?_, ?_⟩⟩
  · rw [hseq] at hc
    exact hc.elim (sequence_ne_zero h hroom) (by omega)
  · have : records.length / kLedgerEntriesPerBlock ≤ records.length := Nat.div_le_self _ _
    omega
  refine bind_eq_ok.mpr ⟨_, mapLogicalBlock_of_readable hr hblock, bind_eq_ok.mpr
    ⟨r.image (v.pointer r.image (records.length / kLedgerEntriesPerBlock)), ?_, ?_⟩⟩
  · exact reject_bind_eq_ok.mpr ⟨not_le.mpr hin.2, rfl⟩
  · refine reject_bind_eq_ok.mpr ⟨not_not.mpr (emptySlot hh hroom), bind_eq_ok.mpr ⟨_, orFail_eq_ok.mpr
      (encodeRequestLedgerRecord_eq_ok.mpr ⟨hvalid, rfl⟩), rfl⟩⟩

theorem mergeRequestLedgerAppend_eq {before ordered metadata : BlockMap}
    (hfree : ∀ m ∈ [before, ordered, metadata], (appendPlan r v records record).physicalBlock ∉ m) :
    (appendPlan r v records record).mergeRequestLedgerAppend r.superblock.totalBlocks r.superblock.filesystemUuid
        before ordered metadata =
      .ok (before.insert (appendPlan r v records record).physicalBlock
      (appendPlan r v records record).beforeImage, ordered,
        metadata.insert (appendPlan r v records record).physicalBlock (appendPlan r v records record).afterImage) := by
  have hseq := sequence_toNat h hroom
  have hcap := h.capacity_lt
  have hr := readable_of_resolvePath h.resolves
  have hin := hr.mapped.inData _ (pointer_mem_owned (slot_block_lt hroom))
  have hslot : (UInt64.ofNat (records.length + 1)).toNat - 1 = records.length := by omega
  have hcheck : (appendPlan r v records record).validateAppendPlan = .ok () := by
    unfold RequestLedgerAppendPlan.validateAppendPlan
    dsimp only [appendPlan]
    rw [hslot]
    refine reject_bind_eq_ok.mpr ⟨?_, reject_bind_eq_ok.mpr ⟨?_, reject_bind_eq_ok.mpr
      ⟨not_not.mpr (emptySlot hh hroom), bind_eq_ok.mpr ⟨_, orFail_eq_ok.mpr
        (encodeRequestLedgerRecord_eq_ok.mpr ⟨hvalid, rfl⟩), reject_eq_ok.mpr (not_not.mpr rfl)⟩⟩⟩⟩
    · rintro (hc | hc | hc | hc)
      · exact sequence_ne_zero h hroom hc
      · exact hc rfl
      · rw [hc] at hin
        exact absurd hin.2 (Nat.not_lt_zero _)
      · omega
    · have : records.length / kLedgerEntriesPerBlock ≤ records.length := Nat.div_le_self _ _
      rintro (hc | hc)
      · omega
      · exact hc rfl
  unfold RequestLedgerAppendPlan.mergeRequestLedgerAppend
  refine bind_eq_ok.mpr ⟨(), hcheck, reject_bind_eq_ok.mpr ⟨?_, reject_bind_eq_ok.mpr ⟨?_, rfl⟩⟩⟩
  · exact not_or.mpr ⟨not_not.mpr rfl, not_not.mpr rfl⟩
  · rintro (hc | hc | hc)
    · exact hfree before (by simp) hc
    · exact hfree ordered (by simp) hc
    · exact hfree metadata (by simp) hc

end Append

/-- What a prepared append found: a ledger with a free slot, and a valid record. -/
structure Appends (r : ImageReader) (v : InodeRecord) (records : List RequestLedgerRecord)
  (record : RequestLedgerRecord) :
    Prop where
  inode : LedgerInode r v
  allocated : kRequestLedgerInodeNumber ∈ r.superblock.inodes r.image
  current : r.superblock.inodeAt r.image kRequestLedgerInodeNumber = some v
  holds : v.LedgerHolds r.image records
  room : records.length < v.size.toNat / kRequestLedgerRecordSize
  valid : validateRecord { record with sequence := UInt64.ofNat (records.length + 1) } = .ok ()

theorem appends_of_consistent {r : ImageReader} {v : InodeRecord} {records : List RequestLedgerRecord}
    {record : RequestLedgerRecord} (hc : r.superblock.Consistent r.image)
    (hf : r.superblock.HasLedger)
    (hv : r.superblock.inodeAt r.image kRequestLedgerInodeNumber = some v) (hh : v.LedgerHolds r.image records)
    (hroom : records.length < v.size.toNat / kRequestLedgerRecordSize)
    (hvalid : validateRecord { record with sequence := UInt64.ofNat (records.length + 1) } = .ok ()) :
    Appends r v records record := by
  obtain ⟨w, hinode, hn, hw⟩ := exists_ledgerInode hc.toSound (hc.ledger hf)
  obtain rfl := Option.some.inj (hw.symm.trans hv)
  exact ⟨hinode, hn, hv, hh, hroom, hvalid⟩

/-- A plan prepared with the scanned index is the one for the record after those of the ledger. -/
theorem appends_of_prepare {index : RequestLedgerIndex} {plan : RequestLedgerAppendPlan}
    (hc : r.superblock.Consistent r.image) (hscan : scanRequestLedger r = .ok index)
    (hplan : prepareRequestLedgerAppend r index record = .ok plan) :
    ∃ v, Appends r v index.records record ∧ index = ledgerIndex v index.records ∧
      plan = appendPlan r v index.records record := by
  obtain ⟨hf, hscan'⟩ := reject_bind_eq_ok.mp hscan
  have hs := not_not.mp (reject_bind_eq_ok.mp hscan').1
  obtain ⟨v, hinode, hn, hv⟩ := exists_ledgerInode hc.toSound (hc.ledger hf)
  obtain ⟨hh, hindex⟩ := (scanRequestLedger_eq_ok hinode hf hs).mp hscan
  obtain ⟨records, rfl⟩ : ∃ records, index = ledgerIndex v records := ⟨_, hindex⟩
  obtain ⟨hfull, h⟩ := reject_bind_eq_ok.mp hplan
  have hroom : records.length < v.size.toNat / kRequestLedgerRecordSize := lt_of_le_of_ne hh.fits hfull
  obtain ⟨-, h⟩ := reject_bind_eq_ok.mp h
  obtain ⟨⟨n, w⟩, -, h⟩ := bind_eq_ok.mp h
  obtain ⟨-, h⟩ := reject_bind_eq_ok.mp h
  obtain ⟨-, h⟩ := reject_bind_eq_ok.mp h
  obtain ⟨-, h⟩ := reject_bind_eq_ok.mp h
  obtain ⟨physical, -, h⟩ := bind_eq_ok.mp h
  obtain ⟨before, -, h⟩ := bind_eq_ok.mp h
  obtain ⟨-, h⟩ := reject_bind_eq_ok.mp h
  obtain ⟨encoded, hencoded, -⟩ := bind_eq_ok.mp h
  have hvalid := (encodeRequestLedgerRecord_eq_ok.mp (orFail_eq_ok.mp hencoded)).1
  refine ⟨v, ⟨hinode, hn, hv, hh, hroom, hvalid⟩, rfl, Except.ok.inj (hplan.symm.trans ?_)⟩
  exact prepareRequestLedgerAppend_eq hinode hh hroom hvalid hf

/-! ## The image with the record -/

section Applied

variable {r : ImageReader} {v : InodeRecord} {records : List RequestLedgerRecord} {record : RequestLedgerRecord}

theorem appendPlan_within (r : ImageReader) (v : InodeRecord) (records : List RequestLedgerRecord)
    (record : RequestLedgerRecord) {i : ℕ}
    (h : (appendPlan r v records record).afterImage.byte i ≠ (appendPlan r v records record).beforeImage.byte i) :
    records.length * kRequestLedgerRecordSize ≤ (appendPlan r v records record).logicalBlock * kBlockSize + i ∧
      (appendPlan r v records record).logicalBlock * kBlockSize + i <
        (records.length + 1) * kRequestLedgerRecordSize := by
  have hlen : ∀ x : RequestLedgerBytes, x.toList.length = 128 := fun x => Vector.length_toList
  have hlow : slotOffset records.length ≤ i := by
    by_contra hc
    exact h (Bytes.byte_write_of_lt (not_le.mp hc))
  have hhigh : i < slotOffset records.length + 128 := by
    by_contra hc
    refine h (Bytes.byte_write_of_ge ?_)
    rw [hlen]
    exact not_lt.mp hc
  have hlow : records.length % 32 * 128 ≤ i := hlow
  have hhigh : i < records.length % 32 * 128 + 128 := hhigh
  show records.length * 128 ≤ records.length / 32 * 4096 + i ∧
    records.length / 32 * 4096 + i < (records.length + 1) * 128
  omega

/-- The slot holds the record, the other slots what they held. -/
theorem ledgerSlot_applied (hs : r.superblock.Sound r.image)
    (hn : kRequestLedgerInodeNumber ∈ r.superblock.inodes r.image)
    (h : LedgerInode r v) (hroom : records.length < v.size.toNat / kRequestLedgerRecordSize)
    (htree : r.superblock.KeepsTree r.image ((appendPlan r v records record).applied r.image)) {j : ℕ}
    (hj : j < v.size.toNat / kRequestLedgerRecordSize) :
    v.ledgerSlot ((appendPlan r v records record).applied r.image) j =
      if j = records.length then ledgerBytes { record with sequence := UInt64.ofNat (records.length + 1) }
      else v.ledgerSlot r.image j := by
  have hr := readable_of_resolvePath h.resolves
  have hpointer := htree.pointer_eq hn hr.record hr.mapped (slot_block_lt hj)
  rw [ledgerSlot_eq_slotOffset, hpointer, RequestLedgerAppendPlan.applied]
  by_cases hblock : j / kLedgerEntriesPerBlock = records.length / kLedgerEntriesPerBlock
  · have hb : v.pointer r.image (j / kLedgerEntriesPerBlock) = (appendPlan r v records record).physicalBlock :=
      congrArg (v.pointer r.image) hblock
    rw [hb, update_self]
    split_ifs with hjk
    · rw [hjk]
      exact Bytes.getBytes_putBytes (slotOffset_le _)
    · rw [ledgerSlot_eq_slotOffset, hb]
      refine Bytes.getBytes_congr (Bytes.read_write_of_disjoint ?_)
      have hblock : j / 32 = records.length / 32 := hblock
      rw [Vector.length_toList]
      show j % 32 * 128 + 128 ≤ records.length % 32 * 128 ∨ records.length % 32 * 128 + 128 ≤ j % 32 * 128
      omega
  · -- another block of the file
    have hnodup : (v.blocks r.image).Nodup := (List.nodup_append.mp (hs.owned_nodup hn hr.record)).1
    have hne : v.pointer r.image (j / kLedgerEntriesPerBlock) ≠ (appendPlan r v records record).physicalBlock := by
      intro hc
      refine hblock (List.inj_on_of_nodup_map hnodup ?_ ?_ hc)
      · exact List.mem_range.mpr (slot_block_lt hj)
      · exact List.mem_range.mpr (slot_block_lt hroom)
    rw [update_of_ne hne, if_neg fun hc => hblock (by rw [hc]), ledgerSlot_eq_slotOffset]

variable (hc : r.superblock.Consistent r.image)
  (hn : kRequestLedgerInodeNumber ∈ r.superblock.inodes r.image) (h : LedgerInode r v)
  (hh : v.LedgerHolds r.image records) (hroom : records.length < v.size.toNat / kRequestLedgerRecordSize)
  (hvalid : validateRecord { record with sequence := UInt64.ofNat (records.length + 1) } = .ok ())
  (hfresh : record.requestId ∉ records.map requestId)

include h hroom

theorem opens_applied {n : ℕ} {c : JournalControl} {copy : ControlCopy} (ho : Opens n r.image r.superblock c copy) :
    Opens n ((appendPlan r v records record).applied r.image) r.superblock c copy := by
  have hmapped := (readable_of_resolvePath h.resolves).mapped
  have hdata : r.superblock.data.start ≤ (appendPlan r v records record).physicalBlock :=
    (hmapped.inData _ (pointer_mem_owned (slot_block_lt hroom))).1
  refine ho.keep ((Superblock.KeepsMetadata.of_eq ho.regions fun b hb => ?_).keepsControls ho.regions)
  exact update_of_ne (hb.trans_le hdata).ne _ _

include hc hn

theorem keepsTree_applied : r.superblock.KeepsTree r.image ((appendPlan r v records record).applied r.image) := by
  have hr := readable_of_resolvePath h.resolves
  exact hc.toSound.keepsTree_update hn hr.record (not_isDir_of_isReg h.regular)
    (List.mem_map_of_mem (List.mem_range.mpr (slot_block_lt hroom))) _

include hh hvalid hfresh

theorem ledgerHolds_applied : v.LedgerHolds ((appendPlan r v records record).applied r.image)
    (records ++ [{ record with sequence := UInt64.ofNat (records.length + 1) }]) := by
  refine ⟨?_, ?_, fun j hj => ?_⟩
  · rw [List.length_append, List.length_singleton]
    exact hroom
  · rw [List.map_append, List.map_singleton]
    exact hh.ids.append (List.nodup_singleton _) fun x hx hx' => hfresh (List.mem_singleton.mp hx' ▸ hx)
  · rw [ledgerSlot_applied hc.toSound hn h hroom (keepsTree_applied hc hn h hroom) hj]
    split_ifs with hjk
    · rw [hjk, List.getElem?_concat_length]
      exact decodeRequestLedgerRecord_ledgerBytes hvalid
    · rw [hh.slots j hj]
      obtain hlt | hgt := Nat.lt_or_gt_of_ne hjk
      · rw [List.getElem?_append_left hlt]
      · rw [List.getElem?_eq_none hgt.le, List.getElem?_eq_none
          (by rw [List.length_append, List.length_singleton]; omega)]

theorem consistent_applied (hr : r.superblock.Regions) :
    r.superblock.Consistent ((appendPlan r v records record).applied r.image) := by
  have htree : r.superblock.KeepsTree r.image ((appendPlan r v records record).applied r.image) :=
    keepsTree_applied hc hn h hroom
  have hat := htree.inodeAt_eq hr hn
  have hrecord := (readable_of_resolvePath h.resolves).record
  refine ⟨htree.sound hr hc.toSound, fun hf => ⟨?_, fun w hw => ?_, fun w hw => ?_⟩⟩
  · rw [htree.entriesOf_eq hr hc.toSound hc.root.1]
    exact (hc.ledger hf).entry
  · exact (hc.ledger hf).size w (hat.symm.trans hw)
  · obtain rfl := Option.some.inj ((hat.trans hrecord).symm.trans hw)
    exact ⟨_, ledgerHolds_applied hc hn h hh hroom hvalid hfresh⟩

end Applied

/-- A record with the id of an earlier one spoils the ledger. -/
theorem not_consistent_applied (hc : r.superblock.Consistent r.image) (ha : Appends r v records record)
    (hr : r.superblock.Regions) (hf : r.superblock.HasLedger)
    (hmem : record.requestId ∈ records.map requestId) :
    ¬ r.superblock.Consistent ((appendPlan r v records record).applied r.image) := by
  intro hc'
  have htree : r.superblock.KeepsTree r.image ((appendPlan r v records record).applied r.image) :=
    keepsTree_applied hc ha.allocated ha.inode ha.room
  obtain ⟨records', hh⟩ := (hc'.ledger hf).slots v ((htree.inodeAt_eq hr ha.allocated).trans ha.current)
  obtain ⟨k, hk, hid⟩ := List.mem_iff_getElem.mp hmem
  rw [List.length_map] at hk
  rw [List.getElem_map] at hid
  -- both slots decode, with the same id
  have hold := hh.slots k (hk.trans ha.room)
  rw [ledgerSlot_applied hc.toSound ha.allocated ha.inode ha.room htree (hk.trans ha.room), if_neg hk.ne,
    ha.holds.slots k (hk.trans ha.room), List.getElem?_eq_getElem hk] at hold
  have hnew := hh.slots records.length ha.room
  rw [ledgerSlot_applied hc.toSound ha.allocated ha.inode ha.room htree ha.room, if_pos rfl,
    decodeRequestLedgerRecord_ledgerBytes ha.valid] at hnew
  obtain ⟨h1, e1⟩ := List.getElem?_eq_some_iff.mp (Except.ok.inj hold).symm
  obtain ⟨h2, e2⟩ := List.getElem?_eq_some_iff.mp (Except.ok.inj hnew).symm
  have hk1 : k < (records'.map requestId).length := by simpa using h1
  have hk2 : records.length < (records'.map requestId).length := by simpa using h2
  have hsame : (records'.map requestId)[k] =
      (records'.map requestId)[records.length] := by
    rw [List.getElem_map, List.getElem_map, e1, e2, hid]
  exact hk.ne (hh.ids.getElem_inj_iff.mp hsame)

/-! ## On disk and in memory -/

/-- The slots hold `records`, each decoded for its own slot number, and then zeros. -/
structure InodeRecord.FilledSlots (v : InodeRecord) (d : Image) (records : List RequestLedgerRecord) : Prop where
  fits : records.length ≤ v.size.toNat / kRequestLedgerRecordSize
  ids : (records.map requestId).Nodup
  filled : ∀ (k : ℕ) (hk : k < records.length),
    decodeRequestLedgerRecord (v.ledgerSlot d k) (UInt64.ofNat (k + 1)) = .ok (some records[k])
  empty : ∀ k, records.length ≤ k → k < v.size.toNat / kRequestLedgerRecordSize →
    v.ledgerSlot d k = Bytes.zero _

theorem LedgerInode.holds_iff_filledSlots {d : Image} (h : LedgerInode r v) :
    v.LedgerHolds d records ↔ v.FilledSlots d records := by
  constructor
  · intro hh
    refine ⟨hh.fits, hh.ids, fun k hk => ?_,
      fun k hk hlt => decodeRequestLedgerRecord_none ((hh.slots k hlt).trans ?_)⟩
    · rw [hh.slots k (hk.trans_le hh.fits), List.getElem?_eq_getElem hk]
    · rw [List.getElem?_eq_none hk]
  · intro hh
    refine ⟨hh.fits, hh.ids, fun k hk => ?_⟩
    by_cases hlt : k < records.length
    · rw [hh.filled k hlt, List.getElem?_eq_getElem hlt]
    · have hcap := h.capacity_lt
      rw [hh.empty k (not_lt.mp hlt) hk, List.getElem?_eq_none (not_lt.mp hlt)]
      refine decodeRequestLedgerRecord_zero fun hc => ?_
      have := congrArg UInt64.toNat hc
      rw [UInt64.toNat_ofNat_of_lt' (by simp only [UInt64.size]; omega)] at this
      simp at this

/-- The index of a ledger with a free slot grows by a valid record with a new request id. -/
theorem appendCommitted_ledgerIndex (hroom : records.length < v.size.toNat / kRequestLedgerRecordSize)
    (hvalid : validateRecord { record with sequence := UInt64.ofNat (records.length + 1) } = .ok ())
    (hfresh : (ledgerIndex v records).find record.requestId = none) :
    (ledgerIndex v records).appendCommitted (appendPlan r v records record).record =
      .ok (ledgerIndex v (records ++ [(appendPlan r v records record).record])) := by
  unfold RequestLedgerIndex.appendCommitted
  refine reject_bind_eq_ok.mpr ⟨hroom.ne, reject_bind_eq_ok.mpr ⟨not_not.mpr rfl, bind_eq_ok.mpr
    ⟨_, orFail_eq_ok.mpr (encodeRequestLedgerRecord_eq_ok.mpr ⟨hvalid, rfl⟩), reject_bind_eq_ok.mpr
      ⟨not_not.mpr hfresh, ?_⟩⟩⟩⟩
  have hnext : UInt64.ofNat (records.length + 1) + 1 =
      UInt64.ofNat ((records ++ [(appendPlan r v records record).record]).length + 1) := by
    rw [List.length_append, List.length_singleton, UInt64.ofNat_add (records.length + 1) 1]
    rfl
  show Except.ok (RequestLedgerIndex.mk _ (UInt64.ofNat (records.length + 1) + 1) _) = _
  rw [hnext]
  rfl

theorem requestLedgerAppend_refines :
    (∀ (n : ℕ) (d : Image) (report : ConsistencyReport) (r : ImageReader) (index : RequestLedgerIndex)
      (record : RequestLedgerRecord), checkImage n d = .ok report → classifyReport report = .kHealthy →
      ImageReader.adoptLockedFd n d = .ok r → scanRequestLedger r = .ok index → ¬ index.full →
      validateRecord { record with sequence := index.nextSequence } = .ok () → index.find record.requestId = none →
      ∃ plan, prepareRequestLedgerAppend r index record = .ok plan ∧
        (∃ v, r.readInode kRequestLedgerInodeNumber = .ok v ∧
          r.mapLogicalBlock v plan.logicalBlock = .ok plan.physicalBlock) ∧
        plan.beforeImage = d plan.physicalBlock ∧
        (∀ i, plan.afterImage.byte i ≠ plan.beforeImage.byte i →
          (index.nextSequence.toNat - 1) * kRequestLedgerRecordSize ≤ plan.logicalBlock * kBlockSize + i ∧
          plan.logicalBlock * kBlockSize + i < index.nextSequence.toNat * kRequestLedgerRecordSize) ∧
        ∃ r' index', ImageReader.adoptLockedFd n (plan.applied d) = .ok r' ∧ scanRequestLedger r' = .ok index' ∧
          index.appendCommitted plan.record = .ok index') ∧
    ∀ (n : ℕ) (d : Image) (r : ImageReader) (v : InodeRecord), ImageReader.adoptLockedFd n d = .ok r →
      r.superblock.HasLedger → LedgerInode r v →
      ((∃ index, scanRequestLedger r = .ok index) ↔ ∃ records, v.FilledSlots d records) := by
  constructor
  · intro n d report r index record hcheck hhealthy hopen hscan hroom hvalid hfresh
    obtain ⟨sb, c, copy, ho, hc, rfl⟩ := opened_of_healthy hcheck hhealthy hopen
    have hf := (reject_bind_eq_ok.mp hscan).1
    obtain ⟨v, h, hn, hv⟩ := exists_ledgerInode (r := ⟨d, sb, c, copy⟩) hc.toSound (hc.ledger hf)
    obtain ⟨hh, hindex⟩ := (scanRequestLedger_eq_ok h hf ho.features).mp hscan
    obtain ⟨records, rfl⟩ : ∃ records, index = ledgerIndex v records := ⟨_, hindex⟩
    have hroom : records.length < v.size.toNat / kRequestLedgerRecordSize := lt_of_le_of_ne hh.fits hroom
    have hnew : record.requestId ∉ records.map requestId := RequestLedgerIndex.not_mem_of_find hfresh
    have hseq : (ledgerIndex v records).nextSequence.toNat = records.length + 1 := sequence_toNat h hroom
    have hr := readable_of_resolvePath h.resolves
    have hc' := consistent_applied hc hn h hh hroom hvalid hnew ho.regions
    have hh' := ledgerHolds_applied hc hn h hh hroom hvalid hnew
    have htree : sb.KeepsTree d ((appendPlan ⟨d, sb, c, copy⟩ v records record).applied d) :=
      keepsTree_applied hc hn h hroom
    have hopen' := hc'.toSound.adoptLockedFd (opens_applied h hroom ho)
    refine ⟨appendPlan ⟨d, sb, c, copy⟩ v records record, prepareRequestLedgerAppend_eq h hh hroom hvalid hf,
      ⟨v, readInode_eq_ok.mpr hr, mapLogicalBlock_of_readable hr (slot_block_lt hroom)⟩, rfl,
      fun i hi => ?_, _, _, hopen', ?_, appendCommitted_ledgerIndex hroom hvalid hfresh⟩
    · rw [hseq, Nat.add_sub_cancel]
      exact appendPlan_within _ v records record hi
    · exact scanRequestLedger_of_consistent (r := ⟨_, sb, c, copy⟩) hc' hf ho.features
        ((htree.inodeAt_eq ho.regions hn).trans hv) hh'
  · intro n d r v hopen hf h
    obtain ⟨rfl, ho, -⟩ := adoptLockedFd_eq_ok.mp hopen
    constructor
    · rintro ⟨index, hscan⟩
      exact ⟨index.records, h.holds_iff_filledSlots.mp ((scanRequestLedger_eq_ok h hf ho.features).mp hscan).1⟩
    · rintro ⟨records, hfilled⟩
      exact ⟨ledgerIndex v records,
        (scanRequestLedger_eq_ok h hf ho.features).mpr ⟨h.holds_iff_filledSlots.mpr hfilled, rfl⟩⟩

/-- The first record of the small image. -/
def firstRecord : RequestLedgerRecord :=
  { operation := .kCreateIfAbsent, resultKind := .kCommitted, requestId := Vector.replicate 16 1
    fingerprint := Bytes.zero _, resultCode := .kOk, committedInode := 3, committedGeneration := 1, currentInode := 0
    currentGeneration := 0, sequence := 0 }

theorem Formatted.appends {base d : Image} (h : Formatted ledgerSuperblock ledgerGeometry sampleHost base d) :
    Appends (ledgerReaderOf d) (formattedLedger ledgerSuperblock ledgerGeometry sampleHost) [] firstRecord :=
  appends_of_consistent (h.consistent ledgerLayout) (by decide : ledgerSuperblock.HasLedger) (h.ledgerAt (by decide))
    (h.ledger_holds ledgerLayout (by decide)) (by decide) (by decide)

/-- The small image takes its first record, and its ledger is a ledger of zeros. -/
theorem requestLedgerAppend_refines_sample :
    (∃ plan r' index', prepareRequestLedgerAppend ledgerReader ⟨32, 1, []⟩ firstRecord = .ok plan ∧
      ImageReader.adoptLockedFd 32 (plan.applied ledgerImage) = .ok r' ∧ scanRequestLedger r' = .ok index' ∧
      RequestLedgerIndex.appendCommitted ⟨32, 1, []⟩ plan.record = .ok index') ∧
    ∃ v records, LedgerInode ledgerReader v ∧ v.FilledSlots ledgerImage records := by
  obtain ⟨_, hcheck, hhealthy⟩ := ledgerImage_healthy
  have hc := ledgerImage_formatted.consistent ledgerLayout
  have hadopt := adoptLockedFd_ledgerImage
  have hf : ledgerReader.superblock.HasLedger := by decide
  have hat := ledgerImage_formatted.ledgerAt (by decide)
  have hscan : scanRequestLedger ledgerReader = .ok ⟨32, 1, []⟩ :=
    scanRequestLedger_of_consistent hc hf (by decide) hat (ledgerImage_formatted.ledger_holds ledgerLayout (by decide))
  obtain ⟨happend, haccept⟩ := requestLedgerAppend_refines
  obtain ⟨plan, hplan, -, -, -, r', index', hr', hscan', hindex⟩ :=
    happend 32 ledgerImage _ ledgerReader ⟨32, 1, []⟩
    firstRecord hcheck hhealthy hadopt hscan (by decide) (by decide) rfl
  obtain ⟨v, h, -, -⟩ := exists_ledgerInode (r := ledgerReader) hc.toSound (hc.ledger hf)
  obtain ⟨records, hfilled⟩ := (haccept 32 ledgerImage ledgerReader v hadopt hf h).mp ⟨_, hscan⟩
  exact ⟨⟨plan, r', index', hplan, hr', hscan', hindex⟩, v, records, h, hfilled⟩

/-- The small image with a superblock that does not declare the ledger. -/
def undeclaredSuperblock : Superblock := { ledgerSuperblock with featureIncompat := 0 }

def undeclaredImage : Image :=
  update ledgerImage 0 ((encodeSuperblock undeclaredSuperblock).toOption.getD (Bytes.zero _))

def undeclaredReader : ImageReader :=
  ⟨undeclaredImage, undeclaredSuperblock, formattedControl ledgerSuperblock, .kA⟩

theorem undeclaredImage_of_ne {b : ℕ} (hb : b ≠ 0) : undeclaredImage b = ledgerImage b := update_of_ne hb _ _

theorem keepsTree_undeclaredImage : ledgerSuperblock.KeepsTree ledgerImage undeclaredImage := by
  refine ⟨fun b hb _ _ => undeclaredImage_of_ne hb.ne', fun n _ v _ h0 => undeclaredImage_of_ne h0,
    fun n hn v hv _ b hb => ?_⟩
  obtain ⟨w, hw, hm⟩ := (ledgerImage_formatted.sound ledgerLayout).inode n hn
  obtain rfl := Option.some.inj (hw.symm.trans hv)
  have hge : 16 ≤ b := (hm.inData b (List.mem_append_left _ hb)).1
  exact undeclaredImage_of_ne (by omega)

theorem undeclaredImage_sound : undeclaredSuperblock.Sound undeclaredImage := by
  have h := keepsTree_undeclaredImage.sound ledgerLayout.regions (ledgerImage_formatted.sound ledgerLayout)
  refine ⟨⟨h.metadata, h.inodeTail, h.blockTail⟩, fun n hn => ?_, h.referenced, h.once,
    fun n hn v hv hdir => ?_, h.root, h.rootTop, h.named, h.links⟩
  · obtain ⟨v, hv, hm⟩ := h.inode n hn
    exact ⟨v, hv, hm.direct, hm.indirect, hm.indirectEntries, hm.inData⟩
  · have hok := h.directory n hn v hv hdir
    exact ⟨hok.size, hok.decodes, hok.names, hok.targets⟩

theorem undeclaredImage_ledgerOk : undeclaredSuperblock.LedgerOk undeclaredImage := by
  have hs := ledgerImage_formatted.sound ledgerLayout
  have hl := (ledgerImage_formatted.consistent ledgerLayout).ledger (by decide)
  have hn : kRequestLedgerInodeNumber ∈ ledgerSuperblock.inodes ledgerImage :=
    (ledgerImage_formatted.mem_inodes_iff ledgerLayout).mpr (Or.inr ⟨by decide, rfl⟩)
  have hat : undeclaredSuperblock.inodeAt undeclaredImage kRequestLedgerInodeNumber =
      ledgerSuperblock.inodeAt ledgerImage kRequestLedgerInodeNumber :=
    keepsTree_undeclaredImage.inodeAt_eq ledgerLayout.regions hn
  have hentries : undeclaredSuperblock.entriesOf undeclaredImage undeclaredSuperblock.rootInode.toNat =
      ledgerSuperblock.entriesOf ledgerImage ledgerSuperblock.rootInode.toNat :=
    keepsTree_undeclaredImage.entriesOf_eq ledgerLayout.regions hs hs.root.1
  refine ⟨by rw [hentries]; exact hl.entry, fun v hv => hl.size v (hat.symm.trans hv), fun v hv => ?_⟩
  have hv := hat.symm.trans hv
  obtain ⟨w, hw, hm⟩ := hs.inode _ hn
  obtain rfl := Option.some.inj (hw.symm.trans hv)
  obtain ⟨records, hh⟩ := hl.slots w hv
  refine ⟨records, ledgerHolds_frame hm (fun b hb => ?_) hh⟩
  have hge : 16 ≤ b := (hm.inData b hb).1
  exact undeclaredImage_of_ne (by omega)

theorem undeclaredImage_opens :
    Opens 32 undeclaredImage undeclaredSuperblock (formattedControl ledgerSuperblock) .kA := by
  have h := ledgerImage_formatted.opens ledgerLayout
  have hvalid : validateSuperblock undeclaredSuperblock = .ok () := by
    have hvalid := validateSuperblock_eq_ok.mpr ledgerLayout.regions
    exact hvalid
  obtain ⟨x, hx⟩ : ∃ x, encodeSuperblock undeclaredSuperblock = .ok x := by
    simp only [encodeSuperblock, hvalid]
    exact ⟨_, rfl⟩
  refine ⟨?_, by decide, rfl, ?_⟩
  · rw [undeclaredImage, update_self, hx]
    exact decodeSuperblock_encodeSuperblock hx
  · rw [undeclaredImage_of_ne (by decide), undeclaredImage_of_ne (by decide)]
    exact h.selected

/-- The feature bit is asked for before the slots are read: well-formed slots of an image that does not declare the
ledger are not scanned. -/
theorem scanRequestLedger_undeclared : ∃ v records,
    ImageReader.adoptLockedFd 32 undeclaredImage = .ok undeclaredReader ∧
    LedgerInode undeclaredReader v ∧ v.FilledSlots undeclaredImage records ∧
    scanRequestLedger undeclaredReader = .error
      ⟨.EOPNOTSUPP, "image does not declare the request ledger feature"⟩ := by
  have hl := undeclaredImage_ledgerOk
  obtain ⟨v, h, -, hv⟩ := exists_ledgerInode (r := undeclaredReader) undeclaredImage_sound hl
  obtain ⟨records, hh⟩ := hl.slots v hv
  exact ⟨v, records, undeclaredImage_sound.adoptLockedFd undeclaredImage_opens, h,
    h.holds_iff_filledSlots.mp hh, rfl⟩

end Eufs
