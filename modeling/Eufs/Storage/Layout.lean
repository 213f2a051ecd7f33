import Mathlib.Algebra.Order.Floor.Div
import Eufs.Storage.Reader

/-!
# Eufs.Storage.Layout — the layout of an image, over all 32-bit geometries

`buildSuperblockLayout` computes the regions with 32- and 64-bit sums and casts, `validateSuperblock` checks them with
other ones.  Over the integers both say the same: the regions follow each other without gaps from block 1 to the end
of the image, with sizes that are the least possible, and there is a layout exactly when the metadata leaves a block
for data.  What is computed from an accepted superblock (inode slots, bitmap bytes, control and ring blocks) lies in
its own region.
-/

namespace Eufs

open Region

/-! ## The regions as a partition -/

namespace Superblock

/-- Block 0 and the five regions, in order. -/
def parts (sb : Superblock) : List Region :=
  [⟨0, 1⟩, sb.inodeBitmap, sb.blockBitmap, sb.inodeTable, sb.journal, sb.data]

/-- Block 0 and the regions are consecutive, and every block of the image lies in exactly one of them. -/
structure Partitioned (sb : Superblock) : Prop where
  consecutive : sb.parts.IsChain fun r s => r.stop = s.start
  disjoint : sb.parts.Pairwise fun r s => ∀ b, blockIsInRegion b r → ¬ blockIsInRegion b s
  covers : ∀ b, b < sb.totalBlocks.toNat ↔ ∃ r ∈ sb.parts, blockIsInRegion b r

/-- The metadata regions hold what they are for, and one block less would not. -/
structure Tight (sb : Superblock) : Prop where
  inodeBitmap : ∀ n, sb.totalInodes.toNat ≤ n * (kBlockSize * 8) ↔ sb.inodeBitmap.count ≤ n
  blockBitmap : ∀ n, sb.totalBlocks.toNat ≤ n * (kBlockSize * 8) ↔ sb.blockBitmap.count ≤ n
  inodeTable : ∀ n, sb.totalInodes.toNat * kInodeRecordSize ≤ n * kBlockSize ↔ sb.inodeTable.count ≤ n

/-- Every place computed from the superblock lies in its own region. -/
structure OffsetsInside (sb : Superblock) : Prop where
  inode : ∀ n, 1 ≤ n → n ≤ sb.totalInodes.toNat →
    blockIsInRegion (inodeTableBlock sb n) sb.inodeTable ∧ inodeOffsetInBlock n + kInodeRecordSize ≤ kBlockSize
  inodeBit : ∀ n, 1 ≤ n → n ≤ sb.totalInodes.toNat →
    blockIsInRegion (sb.inodeBitmap.start + (n - 1) / 8 / kBlockSize) sb.inodeBitmap
  blockBit : ∀ b, b < sb.totalBlocks.toNat →
    blockIsInRegion (sb.blockBitmap.start + b / 8 / kBlockSize) sb.blockBitmap
  control : ∀ copy, blockIsInRegion (sb.controlBlock copy) sb.journal
  ring : ∀ i, i < sb.ringBlocks → blockIsInRegion (sb.ringBlock i) sb.journal ∧
    ∀ copy, sb.ringBlock i ≠ sb.controlBlock copy

/-- Two superblocks place the regions alike. -/
structure SameRegions (sb sb' : Superblock) : Prop where
  inodeBitmap : sb.inodeBitmap = sb'.inodeBitmap
  blockBitmap : sb.blockBitmap = sb'.blockBitmap
  inodeTable : sb.inodeTable = sb'.inodeTable
  journal : sb.journal = sb'.journal
  data : sb.data = sb'.data

end Superblock

theorem ceilDivide_le_iff {n d k : ℕ} (hd : 0 < d) : ceilDivide n d ≤ k ↔ n ≤ k * d := by
  rw [Nat.mul_comm]
  exact ceilDiv_le_iff_le_mul hd

namespace Superblock.Regions

variable {sb sb' : Superblock} (h : sb.Regions)

include h

theorem tight : sb.Tight where
  inodeBitmap n := by rw [h.inodeBitmap_count, ceilDivide_le_iff (by decide)]
  blockBitmap n := by rw [h.blockBitmap_count, ceilDivide_le_iff (by decide)]
  inodeTable n := by rw [h.inodeTable_count, ceilDivide_le_iff (by decide)]

theorem partitioned : sb.Partitioned := by
  obtain ⟨-, -, h1, -, h2, -, h3, -, h4, -, h5, -, h6, -⟩ := h
  have h0 : stop ⟨0, 1⟩ = 1 := rfl
  have h00 : start ⟨0, 1⟩ = 0 := rfl
  have h01 : count ⟨0, 1⟩ = 1 := rfl
  refine ⟨?_, ?_, fun b => ?_⟩
  · simp only [parts, List.isChain_cons_cons, List.isChain_singleton, and_true]
    exact ⟨h0.trans h1.symm, h2.symm, h3.symm, h4.symm, h5.symm⟩
  · simp only [parts, List.pairwise_cons, List.mem_cons, List.not_mem_nil, or_false, forall_eq_or_imp, forall_eq,
      blockIsInRegion, List.Pairwise.nil, and_true, stop] at *
    refine ⟨⟨?_, ?_, ?_, ?_, ?_⟩, ⟨?_, ?_, ?_, ?_⟩, ⟨?_, ?_, ?_⟩, ⟨?_, ?_⟩, ?_, ?_⟩ <;>
      first | (intro b; omega) | simp
  · simp only [parts, List.mem_cons, List.not_mem_nil, or_false, exists_eq_or_imp, exists_eq_left, blockIsInRegion,
      stop] at *
    omega

theorem offsetsInside : sb.OffsetsInside := by
  have ht := h.tight
  have hi := (ht.inodeBitmap _).mpr le_rfl
  have hb := (ht.blockBitmap _).mpr le_rfl
  have htab := (ht.inodeTable _).mpr le_rfl
  have hj := h.journal_count
  simp only [kBlockSize, kInodeRecordSize] at hi hb htab
  refine ⟨fun n h1 h2 => ?_, fun n h1 h2 => ?_, fun b h1 => ?_, fun copy => ?_, fun i h1 => ?_⟩
  · simp only [blockIsInRegion, inodeTableBlock, inodeOffsetInBlock, kInodeRecordSize, kBlockSize]
    omega
  · simp only [blockIsInRegion, kBlockSize]
    omega
  · simp only [blockIsInRegion, kBlockSize]
    omega
  · cases copy <;> simp only [blockIsInRegion, controlBlock] <;> omega
  · simp only [ringBlocks, kJournalControlBlockCount] at h1
    refine ⟨by simp only [blockIsInRegion, ringBlock, kJournalControlBlockCount]; omega, fun copy => ?_⟩
    cases copy <;> simp only [ringBlock, controlBlock, kJournalControlBlockCount] <;> omega

theorem sameRegions (h' : sb'.Regions) (hb : sb.totalBlocks = sb'.totalBlocks) (hi : sb.totalInodes = sb'.totalInodes)
    (hj : sb.journal.blockCount = sb'.journal.blockCount) : sb.SameRegions sb' := by
  have region : ∀ {r s : Region}, r.start = s.start → r.count = s.count → r = s := by
    rintro ⟨a, b⟩ ⟨c, e⟩ h1 h2
    obtain rfl : a = c := UInt32.toNat_inj.mp h1
    obtain rfl : b = e := UInt32.toNat_inj.mp h2
    rfl
  have h1 : sb.inodeBitmap = sb'.inodeBitmap := region (by rw [h.inodeBitmap, h'.inodeBitmap])
    (by rw [h.inodeBitmap_count, h'.inodeBitmap_count, hi])
  have h2 : sb.blockBitmap = sb'.blockBitmap := region (by rw [h.blockBitmap, h'.blockBitmap, h1])
    (by rw [h.blockBitmap_count, h'.blockBitmap_count, hb])
  have h3 : sb.inodeTable = sb'.inodeTable := region (by rw [h.inodeTable, h'.inodeTable, h2])
    (by rw [h.inodeTable_count, h'.inodeTable_count, hi])
  have h4 : sb.journal = sb'.journal := region (by rw [h.journal, h'.journal, h3]) (congrArg UInt32.toNat hj)
  have h5 : sb.data.start = sb'.data.start := by rw [h.data, h'.data, h4]
  refine ⟨h1, h2, h3, h4, region h5 ?_⟩
  have e := h.data_stop
  have e' := h'.data_stop
  rw [← hb] at e'
  simp only [stop] at e e'
  omega

end Superblock.Regions

/-! ## When there is a layout -/

/-- The blocks that the metadata of an image takes, over the integers. -/
def metadataBlocks (totalBlocks totalInodes journalBlocks : ℕ) : ℕ :=
  1 + totalInodes ⌈/⌉ 32768 + totalBlocks ⌈/⌉ 32768 + totalInodes ⌈/⌉ 32 + journalBlocks

/-- The end of the inode table, and with it the start of the data, over the integers. -/
theorem metadataBlocks_eq {totalBlocks totalInodes : ℕ} {inodeBitmap blockBitmap inodeTable : Region}
    (hi : inodeBitmap.start = 1 ∧ inodeBitmap.count = ceilDivide totalInodes (kBlockSize * 8))
    (hb : blockBitmap.start = inodeBitmap.stop ∧ blockBitmap.count = ceilDivide totalBlocks (kBlockSize * 8))
    (ht : inodeTable.start = blockBitmap.stop ∧
      inodeTable.count = ceilDivide (totalInodes * kInodeRecordSize) kBlockSize) (journalBlocks : ℕ) :
    inodeTable.stop + journalBlocks = metadataBlocks totalBlocks totalInodes journalBlocks := by
  have htab : ceilDivide (totalInodes * kInodeRecordSize) kBlockSize = totalInodes ⌈/⌉ 32 := by
    show (totalInodes * 128 + 4096 - 1) / 4096 = (totalInodes + 32 - 1) / 32
    omega
  rw [stop, ht.1, ht.2, stop, hb.1, hb.2, stop, hi.1, hi.2, htab]
  rfl

theorem Superblock.Regions.metadata_lt {sb : Superblock} (h : sb.Regions) :
    metadataBlocks sb.totalBlocks.toNat sb.totalInodes.toNat sb.journal.count < sb.totalBlocks.toNat := by
  have hs := metadataBlocks_eq ⟨h.inodeBitmap, h.inodeBitmap_count⟩ ⟨h.blockBitmap, h.blockBitmap_count⟩
    ⟨h.inodeTable, h.inodeTable_count⟩ sb.journal.count
  have h1 := h.journal
  have h2 := h.data
  have h3 := h.data_count
  have h4 := h.data_stop
  simp only [stop] at *
  omega

/-- The three regions before the journal: none of the 32-bit sums wraps. -/
theorem layout_regions {totalBlocks totalInodes : UInt32} {inodeBitmap blockBitmap inodeTable : Region}
    (hi : inodeBitmap = ⟨1, UInt32.ofNat (ceilDivide totalInodes.toNat (kBlockSize * 8))⟩)
    (hb : blockBitmap = ⟨inodeBitmap.startBlock + inodeBitmap.blockCount,
      UInt32.ofNat (ceilDivide totalBlocks.toNat (kBlockSize * 8))⟩)
    (ht : inodeTable = ⟨blockBitmap.startBlock + blockBitmap.blockCount,
      UInt32.ofNat (ceilDivide (totalInodes.toNat * kInodeRecordSize) kBlockSize)⟩) :
    (inodeBitmap.start = 1 ∧ inodeBitmap.count = ceilDivide totalInodes.toNat (kBlockSize * 8)) ∧
    (blockBitmap.start = inodeBitmap.stop ∧ blockBitmap.count = ceilDivide totalBlocks.toNat (kBlockSize * 8)) ∧
    (inodeTable.start = blockBitmap.stop ∧
      inodeTable.count = ceilDivide (totalInodes.toNat * kInodeRecordSize) kBlockSize) := by
  have li := ceilDivide_bitmap_lt totalInodes
  have lb := ceilDivide_bitmap_lt totalBlocks
  have lt := ceilDivide_table_lt totalInodes
  have hi1 : inodeBitmap.start = 1 := by rw [hi]; rfl
  have hi2 : inodeBitmap.count = ceilDivide totalInodes.toNat (kBlockSize * 8) :=
    (blockCount_eq_ofNat_iff (by omega)).mp (by rw [hi])
  have hb1 : blockBitmap.start = inodeBitmap.stop := (startBlock_eq_add_iff (by omega)).mp (by rw [hb])
  have hb2 : blockBitmap.count = ceilDivide totalBlocks.toNat (kBlockSize * 8) :=
    (blockCount_eq_ofNat_iff (by omega)).mp (by rw [hb])
  have ht1 : inodeTable.start = blockBitmap.stop :=
    (startBlock_eq_add_iff (by rw [hb1, stop]; omega)).mp (by rw [ht])
  have ht2 : inodeTable.count = ceilDivide (totalInodes.toNat * kInodeRecordSize) kBlockSize :=
    (blockCount_eq_ofNat_iff (by omega)).mp (by rw [ht])
  exact ⟨⟨hi1, hi2⟩, ⟨hb1, hb2⟩, ht1, ht2⟩

theorem validateSuperblock_of_room {totalBlocks totalInodes journalBlocks : UInt32}
    {inodeBitmap blockBitmap inodeTable : Region} {sb : Superblock}
    (hi : inodeBitmap.start = 1 ∧ inodeBitmap.count = ceilDivide totalInodes.toNat (kBlockSize * 8))
    (hb : blockBitmap.start = inodeBitmap.stop ∧ blockBitmap.count = ceilDivide totalBlocks.toNat (kBlockSize * 8))
    (ht : inodeTable.start = blockBitmap.stop ∧
      inodeTable.count = ceilDivide (totalInodes.toNat * kInodeRecordSize) kBlockSize)
    (hsb : sb = { sb with
      totalBlocks := totalBlocks, totalInodes := totalInodes, rootInode := 1
      inodeBitmap := inodeBitmap, blockBitmap := blockBitmap, inodeTable := inodeTable
      journal := ⟨UInt32.ofNat inodeTable.stop, journalBlocks⟩
      data := ⟨UInt32.ofNat (inodeTable.stop + journalBlocks.toNat),
        totalBlocks - UInt32.ofNat (inodeTable.stop + journalBlocks.toNat)⟩ })
    (h0 : 0 < totalInodes.toNat) (h5 : 5 ≤ journalBlocks.toNat)
    (hroom : inodeTable.stop + journalBlocks.toNat < totalBlocks.toNat) : validateSuperblock sb = .ok () := by
  have htotal := totalBlocks.toNat_lt
  have hjournal : (UInt32.ofNat inodeTable.stop).toNat = inodeTable.stop := by
    rw [UInt32.toNat_ofNat', Nat.mod_eq_of_lt (by omega)]
  have hdata : (UInt32.ofNat (inodeTable.stop + journalBlocks.toNat)).toNat =
      inodeTable.stop + journalBlocks.toNat := by
    rw [UInt32.toNat_ofNat', Nat.mod_eq_of_lt (by omega)]
  have hrest : (totalBlocks - UInt32.ofNat (inodeTable.stop + journalBlocks.toNat)).toNat =
      totalBlocks.toNat - (inodeTable.stop + journalBlocks.toNat) := by
    rw [UInt32.toNat_sub_of_le _ _ (by rw [UInt32.le_iff_toNat_le, hdata]; omega), hdata]
  have hcounts : 0 < inodeBitmap.count ∧ 0 < inodeTable.count := by
    rw [hi.2, ht.2]
    constructor
    · show 0 < (totalInodes.toNat + 32768 - 1) / 32768
      omega
    · show 0 < (totalInodes.toNat * 128 + 4096 - 1) / 4096
      omega
  rw [hsb]
  refine validateSuperblock_eq_ok.mpr
    { inodes := h0, root := ⟨Nat.one_pos, h0⟩, inodeBitmap := hi.1, inodeBitmap_count := hi.2, blockBitmap := hb.1
      blockBitmap_count := hb.2, inodeTable := ht.1, inodeTable_count := ht.2, journal := hjournal
      journal_count := h5, data := hdata.trans (congrArg (· + _) hjournal.symm), data_count := ?_, data_stop := ?_
      total := ?_ }
  · show 0 < (totalBlocks - _).toNat
    omega
  · show (UInt32.ofNat (inodeTable.stop + journalBlocks.toNat)).toNat +
      (totalBlocks - UInt32.ofNat (inodeTable.stop + journalBlocks.toNat)).toNat = totalBlocks.toNat
    omega
  · show 8 ≤ totalBlocks.toNat
    have h1 := hi.1
    have h2 := hb.1
    have h3 := ht.1
    simp only [stop] at *
    omega

theorem buildSuperblockLayout_isOk_iff (totalBlocks totalInodes journalBlocks : UInt32) :
    (∃ sb, buildSuperblockLayout totalBlocks totalInodes journalBlocks = .ok sb) ↔
      0 < totalInodes.toNat ∧ 5 ≤ journalBlocks.toNat ∧
        metadataBlocks totalBlocks.toNat totalInodes.toNat journalBlocks.toNat < totalBlocks.toNat := by
  constructor
  · rintro ⟨sb, h⟩
    obtain ⟨hr, rfl, rfl, rfl, -⟩ := buildSuperblockLayout_ok h
    exact ⟨hr.inodes, hr.journal_count, hr.metadata_lt⟩
  · rintro ⟨h0, h5, hroom⟩
    obtain ⟨hi, hb, ht⟩ := @layout_regions totalBlocks totalInodes _ _ _ rfl rfl rfl
    have hstop := metadataBlocks_eq hi hb ht journalBlocks.toNat
    have htotal := totalBlocks.toNat_lt
    have hmin : kMinimumJournalBlocks = 5 := rfl
    rw [← hstop, stop] at hroom
    refine ⟨_, reject_bind_eq_ok.mpr
      ⟨by omega, reject_bind_eq_ok.mpr ⟨by omega, bind_eq_ok.mpr ⟨(), ?_, rfl⟩⟩⟩⟩
    exact validateSuperblock_of_room hi hb ht rfl h0 h5 hroom

/-- Layouts are exact for all 32-bit geometries: there is one exactly when the metadata leaves room for data, its
regions partition the image and are as small as they can be, and an accepted superblock has exactly these regions. -/
theorem superblock_layout_exact :
    (∀ totalBlocks totalInodes journalBlocks : UInt32,
      ((∃ sb, buildSuperblockLayout totalBlocks totalInodes journalBlocks = .ok sb) ↔
        0 < totalInodes.toNat ∧ 5 ≤ journalBlocks.toNat ∧
          1 + totalInodes.toNat ⌈/⌉ 32768 + totalBlocks.toNat ⌈/⌉ 32768 + totalInodes.toNat ⌈/⌉ 32 +
            journalBlocks.toNat < totalBlocks.toNat) ∧
      ∀ sb, buildSuperblockLayout totalBlocks totalInodes journalBlocks = .ok sb →
        (sb.totalBlocks = totalBlocks ∧ sb.totalInodes = totalInodes ∧ sb.journal.blockCount = journalBlocks) ∧
          sb.Partitioned ∧ sb.Tight) ∧
    ∀ (b : Block) (sb : Superblock), decodeSuperblock b = .ok sb →
      (∃ built, buildSuperblockLayout sb.totalBlocks sb.totalInodes sb.journal.blockCount = .ok built ∧
        sb.SameRegions built) ∧ sb.Partitioned ∧ sb.OffsetsInside := by
  refine ⟨fun totalBlocks totalInodes journalBlocks => ⟨buildSuperblockLayout_isOk_iff _ _ _, fun sb h => ?_⟩,
    fun b sb h => ?_⟩
  · obtain ⟨hr, h1, h2, h3, -⟩ := buildSuperblockLayout_ok h
    exact ⟨⟨h1, h2, h3⟩, hr.partitioned, hr.tight⟩
  · have hr := decodeSuperblock_valid h
    obtain ⟨built, hb⟩ :=
      (buildSuperblockLayout_isOk_iff _ _ _).mpr ⟨hr.inodes, hr.journal_count, hr.metadata_lt⟩
    obtain ⟨hbr, e1, e2, e3, -⟩ := buildSuperblockLayout_ok hb
    exact ⟨⟨built, hb, hr.sameRegions hbr e1.symm e2.symm e3.symm⟩, hr.partitioned, hr.offsetsInside⟩

/-- The smallest journal in an image of 16 blocks and 32 inodes. -/
theorem superblock_layout_exact_sixteen :
    ∃ sb b, buildSuperblockLayout 16 32 5 = .ok sb ∧ sb.Partitioned ∧ sb.Tight ∧
    decodeSuperblock b = .ok sb ∧ sb.OffsetsInside := by
  obtain ⟨hlayout, hdecode⟩ := superblock_layout_exact
  obtain ⟨sb, h⟩ := (hlayout 16 32 5).1.mpr (by decide)
  obtain ⟨-, hp, ht⟩ := (hlayout 16 32 5).2 sb h
  obtain ⟨b, hb⟩ : ∃ b, encodeSuperblock sb = .ok b := by
    simp only [encodeSuperblock, validateSuperblock_eq_ok.mpr (buildSuperblockLayout_ok h).1]
    exact ⟨_, rfl⟩
  have hd := decodeSuperblock_encodeSuperblock hb
  exact ⟨sb, b, h, hp, ht, hd, (hdecode b sb hd).2.2⟩

end Eufs
