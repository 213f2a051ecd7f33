import Eufs.Base.Bytes

/-!
# Eufs.Format.Ondisk — blocks, checksums and the superblock

The persistent layout of an image: superblock, inode bitmap, block bitmap, inode table, journal and data, in this
order and without gaps.  `buildSuperblockLayout` computes it, `validateSuperblock` is the check both codecs make,
and `Superblock.Regions` says in natural numbers what a superblock that passed it looks like.
-/

namespace Eufs

variable {b : Block} {c : Prop} {v : Superblock}

/-! ## Checks -/

/-- Stop with `m` when `c` holds. -/
def reject {ε : Type} (c : Prop) [Decidable c] (m : ε) : Except ε Unit := if c then .error m else .ok ()

section Checks

variable {ε α β : Type}

theorem bind_eq_ok {x : Except ε α} {f : α → Except ε β} {b : β} :
    (x >>= f) = .ok b ↔ ∃ a, x = .ok a ∧ f a = .ok b := by
  cases x with
  | ok a => exact ⟨fun h => ⟨a, rfl, h⟩, fun ⟨_, h1, h2⟩ => by cases h1; exact h2⟩
  | error e => exact ⟨fun h => by simp [bind, Except.bind] at h, fun ⟨_, h1, _⟩ => by cases h1⟩

@[simp] theorem reject_eq_ok [Decidable c] {m : ε} {u : Unit} : reject c m = .ok u ↔ ¬ c := by
  unfold reject
  split_ifs with h <;> simp [h]

@[simp] theorem reject_false {m : ε} : reject False m = .ok () := rfl

@[simp] theorem ok_bind {a : α} {f : α → Except ε β} : (Except.ok a >>= f) = f a := rfl

theorem reject_bind_eq_ok [Decidable c] {m : ε} {f : Unit → Except ε β} {b : β} :
    (reject c m >>= f) = .ok b ↔ ¬ c ∧ f () = .ok b := by
  unfold reject
  split_ifs with h <;> simp [bind, Except.bind, h]

theorem reject_bind_of_not [Decidable c] {m : ε} {f : Unit → Except ε β} (h : ¬ c) :
    (reject c m >>= f) = f () := by
  rw [reject, if_neg h]
  rfl

end Checks

/-! ## Constants and checksums -/

abbrev kFormatVersion : UInt32 := 1
abbrev kFeatureIncompatRequestLedger : UInt64 := 1
abbrev kSupportedFeatureIncompat : UInt64 := kFeatureIncompatRequestLedger
abbrev kBlockSize : ℕ := 4096
abbrev kJournalControlBlockCount : ℕ := 2
abbrev kMinimumJournalRingBlocks : ℕ := 3
abbrev kMinimumJournalBlocks : ℕ := kJournalControlBlockCount + kMinimumJournalRingBlocks
abbrev kSuperblockHeaderSize : ℕ := 256
abbrev kInodeRecordSize : ℕ := 128
abbrev kDirectBlockCount : ℕ := 12
abbrev kDirectoryEntryHeaderSize : ℕ := 8
abbrev kMaxNameLength : ℕ := 255
abbrev kMaxFileSize : ℕ := (kDirectBlockCount + kBlockSize / 4) * kBlockSize

/-- One block of the image. -/
abbrev Block := Bytes kBlockSize

/-- The identity of a file system. -/
abbrev Uuid := Bytes 16

/-- One byte of the Castagnoli CRC, eight shifts. -/
def crc32cStep (crc : UInt32) (x : UInt8) : UInt32 :=
  Nat.iterate (fun c => (c >>> 1) ^^^ (0x82F63B78 &&& (0 - (c &&& 1)))) 8 (crc ^^^ x.toUInt32)

/-- CRC32C of a byte string. -/
def crc32c (l : List UInt8) : UInt32 := ~~~ (l.foldl crc32cStep 0xFFFFFFFF)

/-! ## Regions and the superblock -/

/-- A contiguous run of blocks. -/
structure Region where
  startBlock : UInt32
  blockCount : UInt32
  deriving DecidableEq

namespace Region

/-- First block. -/
def start (r : Region) : ℕ := r.startBlock.toNat

/-- Number of blocks. -/
def count (r : Region) : ℕ := r.blockCount.toNat

/-- One past the last block. -/
def stop (r : Region) : ℕ := r.start + r.count

/-- The source's `BlockIsInRegion`. -/
def blockIsInRegion (block : ℕ) (r : Region) : Prop := r.start ≤ block ∧ block < r.start + r.count

instance (block : ℕ) (r : Region) : Decidable (blockIsInRegion block r) := by
  unfold blockIsInRegion; infer_instance

end Region

export Region (blockIsInRegion)

structure Superblock where
  totalBlocks : UInt32
  totalInodes : UInt32
  rootInode : UInt32
  inodeBitmap : Region
  blockBitmap : Region
  inodeTable : Region
  journal : Region
  data : Region
  featureCompat : UInt64
  featureRoCompat : UInt64
  featureIncompat : UInt64
  filesystemUuid : Uuid
  createdTimeNs : UInt64
  deriving DecidableEq

/-- Division rounding up. -/
def ceilDivide (numerator denominator : ℕ) : ℕ := (numerator + denominator - 1) / denominator

/-- Totals, contiguity of the regions, the smallest journal and the end of the data region. -/
def validateSuperblock (v : Superblock) : Except String Unit := do
  reject (v.totalBlocks.toNat < 8) "total_blocks is too small"
  reject (v.totalInodes.toNat = 0 ∨ v.rootInode.toNat = 0 ∨ v.rootInode.toNat > v.totalInodes.toNat)
    "root inode is outside the inode range"
  reject (v.inodeBitmap.startBlock ≠ 1 ∨
      v.inodeBitmap.blockCount ≠ UInt32.ofNat (ceilDivide v.totalInodes.toNat (kBlockSize * 8)))
    "inode bitmap does not match the v1 layout formula"
  reject (v.blockBitmap.startBlock ≠ v.inodeBitmap.startBlock + v.inodeBitmap.blockCount ∨
      v.blockBitmap.blockCount ≠ UInt32.ofNat (ceilDivide v.totalBlocks.toNat (kBlockSize * 8)))
    "block bitmap does not match the v1 layout formula"
  reject (v.inodeTable.startBlock ≠ v.blockBitmap.startBlock + v.blockBitmap.blockCount ∨
      v.inodeTable.blockCount ≠ UInt32.ofNat (ceilDivide (v.totalInodes.toNat * kInodeRecordSize) kBlockSize))
    "inode table does not match the v1 layout formula"
  reject (v.inodeTable.stop > 2 ^ 32 - 1 ∨ v.journal.start ≠ v.inodeTable.stop ∨
      v.journal.count < kMinimumJournalBlocks)
    "journal must follow the inode table and reserve two controls plus at least three ring blocks"
  reject (v.journal.stop > 2 ^ 32 - 1 ∨ v.data.start ≠ v.journal.stop ∨ v.data.count = 0 ∨
      v.data.start ≥ v.totalBlocks.toNat ∨ v.data.stop ≠ v.totalBlocks.toNat)
    "data region does not consume the remaining image blocks"

/-- What a valid superblock says: the regions follow each other from block 1 to the end of the image. -/
structure Superblock.Regions (sb : Superblock) : Prop where
  inodes : 0 < sb.totalInodes.toNat
  root : 0 < sb.rootInode.toNat ∧ sb.rootInode.toNat ≤ sb.totalInodes.toNat
  inodeBitmap : sb.inodeBitmap.start = 1
  inodeBitmap_count : sb.inodeBitmap.count = ceilDivide sb.totalInodes.toNat (kBlockSize * 8)
  blockBitmap : sb.blockBitmap.start = sb.inodeBitmap.stop
  blockBitmap_count : sb.blockBitmap.count = ceilDivide sb.totalBlocks.toNat (kBlockSize * 8)
  inodeTable : sb.inodeTable.start = sb.blockBitmap.stop
  inodeTable_count : sb.inodeTable.count = ceilDivide (sb.totalInodes.toNat * kInodeRecordSize) kBlockSize
  journal : sb.journal.start = sb.inodeTable.stop
  journal_count : 5 ≤ sb.journal.count
  data : sb.data.start = sb.journal.stop
  data_count : 0 < sb.data.count
  data_stop : sb.data.stop = sb.totalBlocks.toNat
  total : 8 ≤ sb.totalBlocks.toNat

/-- Counts of bitmap and table blocks are far below the range of 32 bits. -/
theorem ceilDivide_bitmap_lt (x : UInt32) : ceilDivide x.toNat (kBlockSize * 8) < 2 ^ 18 := by
  have hx := x.toNat_lt
  show (x.toNat + 32768 - 1) / 32768 < 2 ^ 18
  omega

theorem ceilDivide_table_lt (x : UInt32) : ceilDivide (x.toNat * kInodeRecordSize) kBlockSize < 2 ^ 28 := by
  have hx := x.toNat_lt
  show (x.toNat * 128 + 4096 - 1) / 4096 < 2 ^ 28
  omega

theorem blockCount_eq_ofNat_iff {r : Region} {n : ℕ} (h : n < 2 ^ 32) :
    r.blockCount = UInt32.ofNat n ↔ r.count = n := by
  rw [← UInt32.toNat_inj, UInt32.toNat_ofNat', Nat.mod_eq_of_lt h]
  rfl

/-- The 32-bit sum of a start and a count, where it does not wrap. -/
theorem startBlock_eq_add_iff {r r' : Region} (h : r.start + r.count < 2 ^ 32) :
    r'.startBlock = r.startBlock + r.blockCount ↔ r'.start = r.stop := by
  rw [← UInt32.toNat_inj, UInt32.toNat_add]
  show r'.start = (r.start + r.count) % 2 ^ 32 ↔ _
  rw [Nat.mod_eq_of_lt h]
  rfl

/-- The checks say what `Regions` says: none of the sums in them wraps. -/
theorem validateSuperblock_eq_ok : validateSuperblock v = .ok () ↔ v.Regions := by
  simp only [validateSuperblock, reject_bind_eq_ok, reject_eq_ok]
  have hj := v.journal.startBlock.toNat_lt
  have hd := v.data.startBlock.toNat_lt
  have hi := ceilDivide_bitmap_lt v.totalInodes
  have hb := ceilDivide_bitmap_lt v.totalBlocks
  have ht := ceilDivide_table_lt v.totalInodes
  have hmin : kMinimumJournalBlocks = 5 := rfl
  have hone : v.inodeBitmap.startBlock = 1 ↔ v.inodeBitmap.start = 1 := UInt32.toNat_inj.symm
  constructor
  · rintro ⟨h1, h2, h3, h4, h5, h6, h7⟩
    push Not at *
    have hs3 := hone.mp h3.1
    have hc3 := (blockCount_eq_ofNat_iff (by omega)).mp h3.2
    have hs4 := (startBlock_eq_add_iff (by omega)).mp h4.1
    have hc4 := (blockCount_eq_ofNat_iff (by omega)).mp h4.2
    have hs5 := (startBlock_eq_add_iff (by simp only [hs4, Region.stop]; omega)).mp h5.1
    have hc5 := (blockCount_eq_ofNat_iff (by omega)).mp h5.2
    exact ⟨by omega, by omega, hs3, hc3, hs4, hc4, hs5, hc5, h6.2.1, h6.2.2, h7.2.1, by omega, h7.2.2.2.2, h1⟩
  · intro h
    obtain ⟨h1, h2, h3, h4, h5, h6, h7, h8, h9, h10, h11, h12, h13, h14⟩ := h
    have hs4 : v.blockBitmap.startBlock = v.inodeBitmap.startBlock + v.inodeBitmap.blockCount :=
      (startBlock_eq_add_iff (by omega)).mpr h5
    have hs5 : v.inodeTable.startBlock = v.blockBitmap.startBlock + v.blockBitmap.blockCount :=
      (startBlock_eq_add_iff (by simp only [h5, Region.stop]; omega)).mpr h7
    have hc3 := (blockCount_eq_ofNat_iff (by omega)).mpr h4
    have hc4 := (blockCount_eq_ofNat_iff (by omega)).mpr h6
    have hc5 := (blockCount_eq_ofNat_iff (by omega)).mpr h8
    refine ⟨by omega, by omega, by simp [hone.mpr h3, hc3], by simp [hs4, hc4], by simp [hs5, hc5], ?_, ?_⟩
    all_goals
      simp only [Region.start, Region.stop, Region.count] at *
      omega

theorem Superblock.Regions.chain {sb : Superblock} (h : sb.Regions) :
    sb.inodeBitmap.start = 1 ∧ sb.blockBitmap.start = 1 + sb.inodeBitmap.count ∧
    sb.inodeTable.start = sb.blockBitmap.start + sb.blockBitmap.count ∧ 0 < sb.inodeTable.count ∧
    sb.journal.start = sb.inodeTable.start + sb.inodeTable.count ∧
    sb.data.start = sb.journal.start + sb.journal.count ∧ 5 ≤ sb.journal.count ∧
    sb.data.start + sb.data.count = sb.totalBlocks.toNat := by
  have hi := h.inodes
  have hc := h.inodeTable_count
  simp only [ceilDivide, kInodeRecordSize, kBlockSize] at hc
  have h1 := h.inodeBitmap
  have h2 := h.blockBitmap
  have h3 := h.inodeTable
  have h4 := h.journal
  have h5 := h.data
  have h6 := h.data_stop
  have h7 := h.journal_count
  simp only [Region.stop] at *
  omega

theorem Superblock.Regions.data_pos {sb : Superblock} (h : sb.Regions) : 0 < sb.data.start := by
  obtain ⟨-, -, -, -, -, h6, h7, -⟩ := h.chain
  omega

/-- The five regions for the given totals, in order. -/
def buildSuperblockLayout (totalBlocks totalInodes journalBlocks : UInt32) : Except String Superblock := do
  reject (totalInodes.toNat = 0 ∨ journalBlocks.toNat < kMinimumJournalBlocks)
    "inode count or journal size is invalid"
  let inodeBitmap : Region := ⟨1, UInt32.ofNat (ceilDivide totalInodes.toNat (kBlockSize * 8))⟩
  let blockBitmap : Region := ⟨inodeBitmap.startBlock + inodeBitmap.blockCount,
    UInt32.ofNat (ceilDivide totalBlocks.toNat (kBlockSize * 8))⟩
  let inodeTable : Region := ⟨blockBitmap.startBlock + blockBitmap.blockCount,
    UInt32.ofNat (ceilDivide (totalInodes.toNat * kInodeRecordSize) kBlockSize)⟩
  let journalStart := inodeTable.start + inodeTable.count
  let dataStart := journalStart + journalBlocks.toNat
  reject (journalStart > 2 ^ 32 - 1 ∨ dataStart ≥ totalBlocks.toNat)
    "image is too small for the requested metadata layout"
  let value : Superblock :=
    { totalBlocks, totalInodes, rootInode := 1, inodeBitmap, blockBitmap, inodeTable
      journal := ⟨UInt32.ofNat journalStart, journalBlocks⟩
      data := ⟨UInt32.ofNat dataStart, totalBlocks - UInt32.ofNat dataStart⟩
      featureCompat := 0, featureRoCompat := 0, featureIncompat := 0
      filesystemUuid := Bytes.zero 16, createdTimeNs := 0 }
  validateSuperblock value
  return value

theorem buildSuperblockLayout_ok {n i j : UInt32} {sb : Superblock} (h : buildSuperblockLayout n i j = .ok sb) :
    sb.Regions ∧ sb.totalBlocks = n ∧ sb.totalInodes = i ∧ sb.journal.blockCount = j ∧ sb.rootInode = 1 ∧
      sb.featureIncompat = 0 := by
  simp only [buildSuperblockLayout, reject_bind_eq_ok] at h
  obtain ⟨-, -, h⟩ := h
  obtain ⟨u, hv, h⟩ := bind_eq_ok.mp h
  cases h
  exact ⟨validateSuperblock_eq_ok.mp hv, rfl, rfl, rfl, rfl, rfl⟩

/-! ### The superblock's bytes -/

/-- The superblock's magic number, `EUFSIMG1`. -/
def kMagic : List UInt8 := [69, 85, 70, 83, 73, 77, 71, 49]

def kSuperblockChecksumOffset : ℕ := 128

/-- The encoded fields, without the checksum. -/
def superblockFields (v : Superblock) : List Bytes.Field :=
  [ .raw 0 kMagic, .le32 8 kFormatVersion, .le32 12 (UInt32.ofNat kSuperblockHeaderSize),
    .le32 16 (UInt32.ofNat kBlockSize), .le32 20 (UInt32.ofNat kInodeRecordSize),
    .le32 24 v.totalBlocks, .le32 28 v.totalInodes, .le32 32 v.rootInode,
    .le32 40 v.inodeBitmap.startBlock, .le32 44 v.inodeBitmap.blockCount,
    .le32 48 v.blockBitmap.startBlock, .le32 52 v.blockBitmap.blockCount,
    .le32 56 v.inodeTable.startBlock, .le32 60 v.inodeTable.blockCount,
    .le32 64 v.journal.startBlock, .le32 68 v.journal.blockCount,
    .le32 72 v.data.startBlock, .le32 76 v.data.blockCount,
    .le64 80 v.featureCompat, .le64 88 v.featureRoCompat, .le64 96 v.featureIncompat,
    .raw 104 v.filesystemUuid.toList, .le64 120 v.createdTimeNs,
    .le32 132 (UInt32.ofNat kDirectBlockCount), .le32 136 1, .le32 140 (UInt32.ofNat kMaxNameLength) ]

/-- The checksum over the header, taken with the checksum field zero. -/
def superblockChecksum (b : Block) : UInt32 :=
  crc32c ((b.putLe32 kSuperblockChecksumOffset 0).read 0 kSuperblockHeaderSize)

def encodeSuperblock (v : Superblock) : Except String Block := do
  validateSuperblock v
  let b := (Bytes.zero kBlockSize).fill (superblockFields v)
  return b.putLe32 kSuperblockChecksumOffset (crc32c (b.read 0 kSuperblockHeaderSize))

/-- The fields as they stand in the block. -/
def readSuperblock (b : Block) : Superblock where
  totalBlocks := b.getLe32 24
  totalInodes := b.getLe32 28
  rootInode := b.getLe32 32
  inodeBitmap := ⟨b.getLe32 40, b.getLe32 44⟩
  blockBitmap := ⟨b.getLe32 48, b.getLe32 52⟩
  inodeTable := ⟨b.getLe32 56, b.getLe32 60⟩
  journal := ⟨b.getLe32 64, b.getLe32 68⟩
  data := ⟨b.getLe32 72, b.getLe32 76⟩
  featureCompat := b.getLe64 80
  featureRoCompat := b.getLe64 88
  featureIncompat := b.getLe64 96
  filesystemUuid := b.getBytes 104 16
  createdTimeNs := b.getLe64 120

def decodeSuperblock (b : Block) : Except String Superblock := do
  reject (b.read 0 8 ≠ kMagic) "superblock magic mismatch"
  reject (b.getLe32 8 ≠ kFormatVersion ∨ b.getLe32 12 ≠ UInt32.ofNat kSuperblockHeaderSize ∨
      b.getLe32 16 ≠ UInt32.ofNat kBlockSize ∨ b.getLe32 20 ≠ UInt32.ofNat kInodeRecordSize ∨
      b.getLe32 132 ≠ UInt32.ofNat kDirectBlockCount ∨ b.getLe32 136 ≠ 1 ∨
      b.getLe32 140 ≠ UInt32.ofNat kMaxNameLength)
    "unsupported superblock format parameters"
  reject (¬ b.zeroRange 36 4 ∨ ¬ b.zeroRange 144 (kSuperblockHeaderSize - 144) ∨
      ¬ b.zeroRange kSuperblockHeaderSize (kBlockSize - kSuperblockHeaderSize))
    "superblock reserved bytes are not zero"
  reject (superblockChecksum b ≠ b.getLe32 kSuperblockChecksumOffset) "superblock checksum mismatch"
  let value := readSuperblock b
  validateSuperblock value
  return value

theorem encodeSuperblock_sealed (h : encodeSuperblock v = .ok b) :
    v.Regions ∧ b.Sealed (superblockFields v) kSuperblockChecksumOffset (superblockChecksum b) := by
  obtain ⟨u, hv, h⟩ := bind_eq_ok.mp h
  have hb := (Except.ok.inj h).symm
  have hfit : ∀ c, Bytes.Fits kBlockSize
      ((superblockFields v ++ [Bytes.Field.le32 kSuperblockChecksumOffset c]).map Bytes.Field.shape) := fun c => by
    simp only [superblockFields, List.map_cons, List.map_append, List.map_nil, Bytes.shape_le32,
      Bytes.shape_le64, Bytes.shape_raw, Vector.length_toList]
    decide
  have hs : b.Sealed (superblockFields v) kSuperblockChecksumOffset
      (crc32c (((Bytes.zero kBlockSize).fill (superblockFields v)).read 0 kSuperblockHeaderSize)) := ⟨hb, hfit _⟩
  have hsum : superblockChecksum b =
      crc32c (((Bytes.zero kBlockSize).fill (superblockFields v)).read 0 kSuperblockHeaderSize) := by
    rw [superblockChecksum, hs.cleared, hs.cleared_fields]
  exact ⟨validateSuperblock_eq_ok.mp hv, hsum ▸ hs⟩

theorem decodeSuperblock_encodeSuperblock (h : encodeSuperblock v = .ok b) : decodeSuperblock b = .ok v := by
  obtain ⟨hv, hs⟩ := encodeSuperblock_sealed h
  have hmagic : b.read 0 8 = kMagic := hs.read (by simp [superblockFields]) rfl
  have hzero : b.zeroRange 36 4 ∧ b.zeroRange 144 (kSuperblockHeaderSize - 144) ∧
      b.zeroRange kSuperblockHeaderSize (kBlockSize - kSuperblockHeaderSize) := by
    refine ⟨hs.zeroRange ?_, hs.zeroRange ?_, hs.zeroRange ?_⟩ <;>
      simp only [superblockFields, List.map_cons, List.map_append, List.map_nil, Bytes.shape_le32,
        Bytes.shape_le64, Bytes.shape_raw, Vector.length_toList] <;> decide
  have h32 : ∀ o x, .le32 o x ∈ superblockFields v → b.getLe32 o = x := fun _ _ => hs.getLe32
  have h64 : ∀ o x, .le64 o x ∈ superblockFields v → b.getLe64 o = x := fun _ _ => hs.getLe64
  have huuid : b.getBytes 104 16 = v.filesystemUuid := hs.getBytes (by simp [superblockFields])
  simp only [superblockFields, List.mem_cons] at h32 h64
  have hvalue : readSuperblock b = v := by
    simp only [readSuperblock, huuid, h32 24 v.totalBlocks (by simp), h32 28 v.totalInodes (by simp),
      h32 32 v.rootInode (by simp), h32 40 v.inodeBitmap.startBlock (by simp),
      h32 44 v.inodeBitmap.blockCount (by simp), h32 48 v.blockBitmap.startBlock (by simp),
      h32 52 v.blockBitmap.blockCount (by simp), h32 56 v.inodeTable.startBlock (by simp),
      h32 60 v.inodeTable.blockCount (by simp), h32 64 v.journal.startBlock (by simp),
      h32 68 v.journal.blockCount (by simp), h32 72 v.data.startBlock (by simp),
      h32 76 v.data.blockCount (by simp), h64 80 v.featureCompat (by simp), h64 88 v.featureRoCompat (by simp),
      h64 96 v.featureIncompat (by simp), h64 120 v.createdTimeNs (by simp)]
  unfold decodeSuperblock
  simp only [hmagic, hzero, hs.stored, hvalue, h32 8 kFormatVersion (by simp),
    h32 12 (UInt32.ofNat kSuperblockHeaderSize) (by simp), h32 16 (UInt32.ofNat kBlockSize) (by simp),
    h32 20 (UInt32.ofNat kInodeRecordSize) (by simp), h32 132 (UInt32.ofNat kDirectBlockCount) (by simp),
    h32 136 1 (by simp), h32 140 (UInt32.ofNat kMaxNameLength) (by simp), ne_eq, not_true_eq_false, or_false,
    reject_false, ok_bind, validateSuperblock_eq_ok.mpr hv]
  rfl

theorem decodeSuperblock_valid (h : decodeSuperblock b = .ok v) : v.Regions := by
  simp only [decodeSuperblock, reject_bind_eq_ok] at h
  obtain ⟨-, -, -, -, h⟩ := h
  obtain ⟨u, hv, h⟩ := bind_eq_ok.mp h
  cases h
  exact validateSuperblock_eq_ok.mp hv

end Eufs
