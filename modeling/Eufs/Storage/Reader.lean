import Eufs.Journal.Store
import Eufs.Format.Directory
import Eufs.Storage.Bitmap

/-!
# Eufs.Storage.Reader — the image reader

`ImageReader` is the high-level entry for reading: it checks the geometry of an image once (`adoptLockedFd`) and then
decodes inodes, directories and files on demand.  Each method is the source's method over the blocks of the image; a
read that the host refuses is not part of this model.  The first thing that is wrong ends a method, with the error
and the text the source gives.
-/

namespace Eufs

open Function

/-! ## Inode slots -/

/-- The block of the inode table that holds inode `n`. -/
def inodeTableBlock (sb : Superblock) (n : ℕ) : ℕ := sb.inodeTable.start + (n - 1) * kInodeRecordSize / kBlockSize

def inodeOffsetInBlock (n : ℕ) : ℕ := (n - 1) * kInodeRecordSize % kBlockSize

/-- The bytes of the slot of inode `n`. -/
def inodeSlot (sb : Superblock) (d : Image) (n : ℕ) : InodeBytes :=
  (d (inodeTableBlock sb n)).getBytes (inodeOffsetInBlock n) kInodeRecordSize

/-- The bit of inode `n` in the stored inode bitmap. -/
def Superblock.inodeBit (sb : Superblock) (d : Image) (n : ℕ) : Bool :=
  (loadBitmap d sb.inodeBitmap.start).testBit (n - 1)

/-- The bit of block `b` in the stored block bitmap. -/
def Superblock.blockBit (sb : Superblock) (d : Image) (b : ℕ) : Bool :=
  (loadBitmap d sb.blockBitmap.start).testBit b

/-! ## Block pointers -/

/-- The number of pointers in an indirect block. -/
abbrev kIndirectEntries : ℕ := kBlockSize / 4

namespace InodeRecord

/-- The number of blocks the size requires. -/
def requiredBlocks (v : InodeRecord) : ℕ := (v.size.toNat + kBlockSize - 1) / kBlockSize

def directBlock (v : InodeRecord) (k : ℕ) : ℕ := (v.directBlocks[k]?.getD 0).toNat

def indirect (v : InodeRecord) : ℕ := v.indirectBlock.toNat

end InodeRecord

/-- Pointer `k` of an indirect block. -/
def indirectPointer (b : Block) (k : ℕ) : ℕ := (b.getLe32 (k * 4)).toNat

theorem indirectPointer_fill {f : ℕ → UInt32} {count k : ℕ} (hc : count ≤ kIndirectEntries) :
    indirectPointer ((Bytes.zero kBlockSize).fill ((List.range count).map fun i => .le32 (i * 4) (f i))) k =
      if k < count then (f k).toNat else 0 := by
  have hb : kBlockSize = 4096 := rfl
  have he : kIndirectEntries = 1024 := rfl
  unfold indirectPointer
  by_cases h : k < count
  · rw [if_pos h, Bytes.getLe32_fill (v := f k) ?_ (List.mem_map.mpr ⟨k, List.mem_range.mpr h, rfl⟩)]
    rw [List.map_map]
    refine ⟨fun s hs => ?_, List.pairwise_map.mpr (List.nodup_range.pairwise_of_forall_ne fun i _ j _ hij => ?_)⟩
    · obtain ⟨i, hi, rfl⟩ := List.mem_map.mp hs
      have := List.mem_range.mp hi
      simp only [comp_apply, Bytes.shape_le32]
      omega
    · simp only [comp_apply, Bytes.shape_le32]
      omega
  · rw [if_neg h, Bytes.getLe32, Bytes.read_fill_of_disjoint]
    · have hz : ((Bytes.zero kBlockSize).read (k * 4) 4) = [0, 0, 0, 0] := by
        simp [Bytes.read, List.range_succ]
      rw [hz]
      rfl
    · intro x hx
      obtain ⟨i, hi, rfl⟩ := List.mem_map.mp hx
      have := List.mem_range.mp hi
      simp only [Bytes.Field.le32, length_le]
      omega

/-- The redundant type of an entry must agree with the mode of its target. -/
def isDirectoryType (type : DirectoryFileType) (mode : UInt32) : Prop :=
  match type with
  | .kRegular => S_ISREG mode
  | .kDirectory => S_ISDIR mode
  | .kUnknown => False

instance (type : DirectoryFileType) (mode : UInt32) : Decidable (isDirectoryType type mode) := by
  unfold isDirectoryType; split <;> infer_instance

/-! ## The reader -/

/-- An image whose geometry was checked. -/
structure ImageReader where
  image : Image
  superblock : Superblock
  journalControl : JournalControl
  journalControlCopy : ControlCopy

namespace ImageReader

def unclean (detail : String) : Failure := ⟨.EUCLEAN, detail⟩

section

variable (r : ImageReader)

def inodeBitmap : Bitmap := loadBitmap r.image r.superblock.inodeBitmap.start

def blockBitmap : Bitmap := loadBitmap r.image r.superblock.blockBitmap.start

def isInodeAllocated (n : ℕ) : Bool :=
  decide (1 ≤ n ∧ n ≤ r.superblock.totalInodes.toNat) && r.inodeBitmap.testBit (n - 1)

def isBlockAllocated (b : ℕ) : Bool :=
  decide (b < r.superblock.totalBlocks.toNat) && r.blockBitmap.testBit b

def readBlock (b : ℕ) : Except Failure Block := do
  reject (b ≥ r.superblock.totalBlocks.toNat) ⟨.EINVAL, ""⟩
  return r.image b

def validateAllocatedDataBlock (b : ℕ) : Except Failure Unit :=
  reject (b < r.superblock.data.start ∨ b ≥ r.superblock.totalBlocks.toNat ∨ ¬ r.isBlockAllocated b)
    (unclean "inode references an invalid or unallocated data block")

/-- The pointer of a logical block: in the inode, or in the indirect block. -/
def logicalPointer (v : InodeRecord) (logical : ℕ) : Except Failure ℕ :=
  if logical < kDirectBlockCount then .ok (v.directBlock logical)
  else do
    reject (logical - kDirectBlockCount ≥ kIndirectEntries ∨ v.indirect = 0)
      (unclean "logical block exceeds the v1 inode mapping")
    r.validateAllocatedDataBlock v.indirect
    return indirectPointer (r.image v.indirect) (logical - kDirectBlockCount)

def mapLogicalBlock (v : InodeRecord) (logical : ℕ) : Except Failure ℕ := do
  let physical ← r.logicalPointer v logical
  reject (physical = 0) (unclean "allocated file range contains a sparse block")
  r.validateAllocatedDataBlock physical
  return physical

/-- One pointer of an inode: needed and allocated, or not needed and zero. -/
def checkPointer (sparse beyond : String) (required : Prop) [Decidable required] (b : ℕ) : Except Failure Unit :=
  if required then do
    reject (b = 0) (unclean sparse)
    r.validateAllocatedDataBlock b
  else reject (b ≠ 0) (unclean beyond)

def checkDirect (v : InodeRecord) (k : ℕ) : Except Failure Unit :=
  r.checkPointer "allocated file range contains a sparse direct block"
    "inode contains a direct block beyond end of file" (k < v.requiredBlocks) (v.directBlock k)

def checkIndirect (v : InodeRecord) (k : ℕ) : Except Failure Unit :=
  r.checkPointer "allocated file range contains a sparse indirect block"
    "indirect block contains a pointer beyond end of file" (k < v.requiredBlocks - kDirectBlockCount)
    (indirectPointer (r.image v.indirect) k)

/-- The indirect block and the pointers in it. -/
def checkIndirectBlock (v : InodeRecord) : Except Failure Unit :=
  if v.requiredBlocks ≤ kDirectBlockCount then
    reject (v.indirect ≠ 0) (unclean "inode contains an unnecessary indirect block")
  else do
    reject (v.indirect = 0) (unclean "inode is missing its required indirect block")
    r.validateAllocatedDataBlock v.indirect
    (List.range kIndirectEntries).forM (r.checkIndirect v)

def readInode (n : ℕ) : Except Failure InodeRecord := do
  reject (n = 0 ∨ n > r.superblock.totalInodes.toNat) ⟨.EINVAL, ""⟩
  reject (¬ r.isInodeAllocated n) ⟨.ENOENT, ""⟩
  let v ← orFail .EUCLEAN (decodeInode (inodeSlot r.superblock r.image n) n)
  reject (S_ISDIR v.mode ∧ v.size.toNat % kBlockSize ≠ 0) (unclean "directory size is not a whole number of blocks")
  (List.range kDirectBlockCount).forM (r.checkDirect v)
  r.checkIndirectBlock v
  return v

/-! ## Directories -/

/-- The inode an entry points to. -/
def readChild (n : ℕ) : Except Failure InodeRecord :=
  match r.readInode n with
  | .error ⟨.ENOENT, _⟩ => .error (unclean "directory entry points to an unallocated inode")
  | x => x

/-- One record of a directory; `entries` are the active ones before it. -/
def visitEntry (entries : List DirectoryEntry) (e : DirectoryEntry) : Except Failure (List DirectoryEntry) :=
  if e.inode = 0 then .ok entries
  else do
    reject (e.name ∈ entries.map DirectoryEntry.name) (unclean "directory contains a duplicate active name")
    let child ← r.readChild e.inode.toNat
    reject (¬ isDirectoryType e.fileType child.mode) (unclean "directory entry type disagrees with the inode mode")
    return entries ++ [e]

/-- The records of one block, up to the one that does not decode. -/
def visitRecords (entries : List DirectoryEntry) (records : List (ℕ × DirectoryEntry) × Option String) :
    Except Failure (List DirectoryEntry) := do
  let entries ← records.1.foldlM (fun entries x => r.visitEntry entries x.2) entries
  match records.2 with
  | some detail => throw (unclean detail)
  | none => return entries

def visitBlock (directory : InodeRecord) (entries : List DirectoryEntry) (logical : ℕ) :
    Except Failure (List DirectoryEntry) := do
  let physical ← r.mapLogicalBlock directory logical
  r.visitRecords entries (blockRecords "directory record made no progress" (r.image physical) 0)

def listDirectory (n : ℕ) : Except Failure (List DirectoryEntry) := do
  let directory ← r.readInode n
  reject (¬ S_ISDIR directory.mode) ⟨.ENOTDIR, ""⟩
  (List.range (directory.size.toNat / kBlockSize)).foldlM (r.visitBlock directory) []

/-- One component of a path. -/
def resolveComponent (current : ℕ) (component : Name) : Except Failure ℕ := do
  reject (component = [] ∨ component = [46] ∨ component = [46, 46]) ⟨.EINVAL, ""⟩
  let entries ← r.listDirectory current
  match entries.find? (fun e => e.name = component) with
  | none => throw ⟨.ENOENT, ""⟩
  | some e => return e.inode.toNat

/-- The inode of an absolute path and its record. -/
def resolvePath (path : List UInt8) : Except Failure (ℕ × InodeRecord) := do
  reject (path.head? ≠ some 47) ⟨.EINVAL, ""⟩
  let root := r.superblock.rootInode.toNat
  if path = [47] then
    let v ← r.readInode root
    return (root, v)
  else
    reject (path.getLast? = some 47) ⟨.EINVAL, ""⟩
    let n ← (path.tail.splitOn 47).foldlM r.resolveComponent root
    let v ← r.readInode n
    return (n, v)

/-! ## Files -/

/-- `total` bytes from `offset` on, block by block. -/
def readBytes (v : InodeRecord) (offset total : ℕ) : Except Failure (List UInt8) :=
  if _h : total = 0 then .ok []
  else do
    let inside := offset % kBlockSize
    let physical ← r.mapLogicalBlock v (offset / kBlockSize)
    let chunk := min total (kBlockSize - inside)
    let rest ← readBytes v (offset + chunk) (total - chunk)
    return (r.image physical).read inside chunk ++ rest
termination_by total
decreasing_by
  have : offset % kBlockSize < kBlockSize := Nat.mod_lt _ (by decide)
  omega

def readFile (n offset requested : ℕ) : Except Failure (List UInt8) := do
  let v ← r.readInode n
  reject (¬ S_ISREG v.mode) ⟨.EISDIR, ""⟩
  if offset ≥ v.size.toNat ∨ requested = 0 then return []
  else r.readBytes v offset (min requested (v.size.toNat - offset))

/-! ## Opening -/

/-- The root inode of a reader that is about to be published. -/
def checkRoot : Except Failure Unit := do
  let root ← match r.readInode r.superblock.rootInode.toNat with
    | .error ⟨.ENOENT, detail⟩ => .error (unclean detail)
    | x => x
  reject (¬ S_ISDIR root.mode) (unclean "root inode is not a directory")

/-- What the cached bitmaps must have set. -/
def checkBitmaps : Except Failure Unit := do
  let sb := r.superblock
  reject (¬ r.inodeBitmap.testBit (sb.rootInode.toNat - 1))
    (unclean "root inode is not allocated in the inode bitmap")
  reject (¬ ∀ b < sb.data.start, r.blockBitmap.testBit b) (unclean "metadata block is free in the block bitmap")
  reject (¬ ∀ k < sb.inodeBitmap.count * kBlockSize * 8, sb.totalInodes.toNat ≤ k → r.inodeBitmap.testBit k)
    (unclean "inode bitmap tail contains allocatable bits")
  reject (¬ ∀ k < sb.blockBitmap.count * kBlockSize * 8, sb.totalBlocks.toNat ≤ k → r.blockBitmap.testBit k)
    (unclean "block bitmap tail contains allocatable bits")

end

/-- A reader for a file of `n` blocks that holds `d`. -/
def adoptLockedFd (n : ℕ) (d : Image) : Except Failure ImageReader := do
  reject (n = 0) (unclean "image size is not a positive 4 KiB multiple")
  let sb ← orFail .EUCLEAN (decodeSuperblock (d 0))
  reject (sb.featureIncompat &&& ~~~ kSupportedFeatureIncompat ≠ 0)
    ⟨.EOPNOTSUPP, "image requires unsupported incompatible features"⟩
  reject (sb.totalBlocks.toNat ≠ n) (unclean "image size does not match the superblock")
  let selected ← orFail .EUCLEAN
    (selectControl (d (sb.controlBlock .kA)) (d (sb.controlBlock .kB)) sb.filesystemUuid sb.ringBlocks)
  let r : ImageReader := ⟨d, sb, selected.1, selected.2⟩
  r.checkBitmaps
  r.checkRoot
  return r

end ImageReader

end Eufs
