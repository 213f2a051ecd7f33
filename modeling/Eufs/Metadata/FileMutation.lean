import Eufs.Metadata.Allocation
import Eufs.Metadata.Plan

/-!
# Eufs.Metadata.FileMutation — planning a change of a file

`prepareFileMutation` plans the two ways to change a regular file: writing a range of bytes, and replacing the whole
content.  Every logical block that changes goes to a newly reserved block (copy on write); the old blocks, and the old
indirect block when its pointers change, are released.  Nothing is written here: the plan is a set of block images for
one transaction.
-/

namespace Eufs

open Function

inductive FileMutationMode where
  | kWriteRange | kReplaceAll
  deriving DecidableEq

structure FileMutationRequest where
  mode : FileMutationMode
  offset : UInt64
  data : List UInt8
  timestampNs : UInt64
  expectedGeneration : UInt64

structure FileMutationPlan where
  inodeNumber : ℕ
  oldGeneration : UInt64
  newGeneration : UInt64
  oldSize : UInt64
  newSize : UInt64
  oldDataBlocks : List ℕ
  newDataBlocks : List ℕ
  oldIndirectBlock : ℕ
  newIndirectBlock : ℕ
  totalBlocks : UInt32
  filesystemUuid : Uuid
  images : PlanImages

/-! ## Blocks -/

def requiredBlocks (size : ℕ) : ℕ := if size = 0 then 0 else (size - 1) / kBlockSize + 1

/-- The physical blocks of a file, in logical order. -/
def loadMapping (r : ImageReader) (inode : InodeRecord) : Except Failure (List ℕ) :=
  (List.range (requiredBlocks inode.size.toNat)).mapM (r.mapLogicalBlock inode)

/-- Clear the bytes of a block that lie in a range of the file. -/
def zeroRange (first stop blockBegin : ℕ) (block : Block) : Block :=
  let overlapBegin := max first blockBegin
  let overlapEnd := min stop (blockBegin + kBlockSize)
  if overlapBegin < overlapEnd then
    block.write (overlapBegin - blockBegin) (List.replicate (overlapEnd - overlapBegin) 0)
  else block

/-- Put the written bytes that lie in a block into it. -/
def overlayData (writeBegin writeEnd blockBegin : ℕ) (data : List UInt8) (block : Block) : Block :=
  let overlapBegin := max writeBegin blockBegin
  let overlapEnd := min writeEnd (blockBegin + kBlockSize)
  if overlapBegin ≥ overlapEnd then block
  else
    block.write (overlapBegin - blockBegin)
      ((data.drop (overlapBegin - writeBegin)).take (overlapEnd - overlapBegin))

/-- Block `logical` of the bytes `data`, zeros behind them. -/
def dataBlock (data : List UInt8) (logical : ℕ) : Block :=
  (Bytes.zero kBlockSize).write 0 ((data.drop (logical * kBlockSize)).take kBlockSize)

/-- The pointers of an indirect block for the mapping `mapping`. -/
def indirectBlockOf (mapping : List ℕ) : Block :=
  (Bytes.zero kBlockSize).fill
    ((List.range (mapping.length - kDirectBlockCount)).map fun i =>
      .le32 (i * 4) (UInt32.ofNat (mapping.getD (kDirectBlockCount + i) 0)))

/-- The direct pointers for the mapping `mapping`. -/
def directBlocksOf (mapping : List ℕ) : Vector UInt32 12 := Vector.ofFn fun i => UInt32.ofNat (mapping.getD i.val 0)

/-! ## The loop over the blocks -/

/-- The state of the loop: the bitmap in memory, the images so far, the new mapping and the blocks to release. -/
structure Rewriting where
  allocator : BitmapAllocator
  images : PlanImages
  mapping : List ℕ
  released : Finset ℕ

/-- Give the content `after` of a logical block a new place. -/
def addOrderedBlock (r : ImageReader) (after : Block) (logical : ℕ) (s : Rewriting) : Except Failure Rewriting := do
  let (physical, allocator) ← s.allocator.reserve
  let before ← r.readBlock physical
  return { s with allocator, images := s.images.addOrdered physical before after
                  mapping := s.mapping.set logical physical }

namespace FileMutationRequest

variable (request : FileMutationRequest)

def writeEnd : ℕ := request.offset.toNat + request.data.length

/-- A block that is written as a whole is not read. -/
def coversWhole (logical : ℕ) : Prop :=
  request.offset.toNat ≤ logical * kBlockSize ∧ request.writeEnd ≥ logical * kBlockSize + kBlockSize

instance (logical : ℕ) : Decidable (request.coversWhole logical) := by unfold coversWhole; infer_instance

/-- What a written block starts from. -/
def oldBlock (r : ImageReader) (oldMapping : List ℕ) (logical : ℕ) : Except Failure Block :=
  match oldMapping[logical]? with
  | none => .ok (Bytes.zero kBlockSize)
  | some oldPhysical => if request.coversWhole logical then .ok (Bytes.zero kBlockSize) else r.readBlock oldPhysical

/-- The new content of a written block: the gap behind the old end of the file is cleared first. -/
def writtenBlock (size logical : ℕ) (old : Block) : Block :=
  let blockBegin := logical * kBlockSize
  let after := if request.offset.toNat > size then zeroRange size request.offset.toNat blockBegin old else old
  overlayData request.offset.toNat request.writeEnd blockBegin request.data after

/-- The old place of a written block is released. -/
def releaseOld (oldMapping : List ℕ) (released : Finset ℕ) (logical : ℕ) : Finset ℕ :=
  match oldMapping[logical]? with
  | none => released
  | some oldPhysical => insert oldPhysical released

/-- One block of a range write. -/
def writeBlock (r : ImageReader) (size : ℕ) (oldMapping : List ℕ) (s : Rewriting) (logical : ℕ) :
    Except Failure Rewriting := do
  let old ← request.oldBlock r oldMapping logical
  addOrderedBlock r (request.writtenBlock size logical old) logical
    { s with released := releaseOld oldMapping s.released logical }

/-- One block of a replacement. -/
def replaceBlock (r : ImageReader) (s : Rewriting) (logical : ℕ) : Except Failure Rewriting :=
  addOrderedBlock r (dataBlock request.data logical) logical s

/-- The size of the file after the change. -/
def newSize (size : ℕ) : ℕ :=
  match request.mode with
  | .kReplaceAll => request.data.length
  | .kWriteRange => max size request.writeEnd

def firstChanged (size : ℕ) : ℕ := min size request.offset.toNat / kBlockSize

/-- The last logical block that changes. -/
def lastChanged (newCount : ℕ) : ℕ :=
  match request.mode with
  | .kReplaceAll => if newCount = 0 then 0 else newCount - 1
  | .kWriteRange => (request.writeEnd - 1) / kBlockSize

/-- The loop over the blocks that change. -/
def rewriteBlocks (r : ImageReader) (size newCount : ℕ) (oldMapping : List ℕ) (s : Rewriting) :
    Except Failure Rewriting :=
  match request.mode with
  | .kReplaceAll => do
    let s ← (List.range newCount).foldlM (request.replaceBlock r) s
    return { s with released := s.released ∪ oldMapping.toFinset }
  | .kWriteRange =>
    (List.range' (request.firstChanged size) (request.lastChanged newCount + 1 - request.firstChanged size)).foldlM
      (request.writeBlock r size oldMapping) s

/-- The indirect block is rewritten when one of its pointers changes. -/
def changesIndirect (indirect newCount : ℕ) : Prop :=
  newCount > kDirectBlockCount ∧
    (request.mode = .kReplaceAll ∨ indirect = 0 ∨ request.lastChanged newCount ≥ kDirectBlockCount)

instance (indirect newCount : ℕ) : Decidable (request.changesIndirect indirect newCount) := by
  unfold changesIndirect; infer_instance

/-- A new indirect block, if one is needed. -/
def reserveIndirect (indirect newCount : ℕ) (a : BitmapAllocator) : Except Failure (ℕ × BitmapAllocator) :=
  if request.changesIndirect indirect newCount then a.reserve
  else .ok (if request.mode = .kReplaceAll then 0 else indirect, a)

/-- The old indirect block goes with its pointers. -/
def releaseIndirect (indirect newCount : ℕ) (released : Finset ℕ) : Finset ℕ :=
  if indirect ≠ 0 ∧ (request.mode = .kReplaceAll ∨ request.changesIndirect indirect newCount) then
    insert indirect released
  else released

/-- The record after the change. -/
def newInode (inode : InodeRecord) (mapping : List ℕ) (newIndirect : ℕ) : InodeRecord :=
  { inode with
    size := UInt64.ofNat (request.newSize inode.size.toNat)
    mtimeNs := request.timestampNs
    ctimeNs := request.timestampNs
    generation := inode.generation + 1
    directBlocks := directBlocksOf mapping
    indirectBlock := if mapping.length > kDirectBlockCount then UInt32.ofNat newIndirect else 0 }

/-- The indirect block of the plan. -/
def addIndirect (r : ImageReader) (indirect newIndirect : ℕ) (mapping : List ℕ) (p : PlanImages) :
    Except Failure PlanImages :=
  if request.changesIndirect indirect mapping.length then do
    let before ← r.readBlock newIndirect
    return p.setMetadata newIndirect before (indirectBlockOf mapping)
  else .ok p

end FileMutationRequest

/-- Overwrite the slot of an inode in its block. -/
def putInode (n : ℕ) (bytes : InodeBytes) (block : Block) : Block := block.putBytes (inodeOffsetInBlock n) bytes

/-- A slot of the inode table is replaced, the others stay. -/
theorem inodeSlot_putInode {sb : Superblock} {d : Image} {n m : ℕ} {bytes : InodeBytes} (hn : 1 ≤ n)
    (hm : 1 ≤ m) :
    inodeSlot sb (update d (inodeTableBlock sb n) (putInode n bytes (d (inodeTableBlock sb n)))) m =
      if m = n then bytes else inodeSlot sb d m := by
  unfold inodeSlot
  have hfit : inodeOffsetInBlock n + kInodeRecordSize ≤ kBlockSize := by
    show (n - 1) * 128 % 4096 + 128 ≤ 4096
    omega
  by_cases hmn : m = n
  · subst hmn
    rw [if_pos rfl, update_self]
    exact Bytes.getBytes_putBytes hfit
  · rw [if_neg hmn]
    by_cases ht : inodeTableBlock sb m = inodeTableBlock sb n
    · rw [ht, update_self]
      refine Bytes.getBytes_congr (Bytes.read_write_of_disjoint ?_)
      have ht : sb.inodeTable.start + (m - 1) * 128 / 4096 = sb.inodeTable.start + (n - 1) * 128 / 4096 := ht
      rw [Vector.length_toList]
      show (m - 1) * 128 % 4096 + 128 ≤ (n - 1) * 128 % 4096 ∨ (n - 1) * 128 % 4096 + 128 ≤ (m - 1) * 128 % 4096
      omega
    · rw [update_of_ne ht]

/-- Bitmap, indirect block and record of the rewritten file. -/
def publishMutation (r : ImageReader) (n : ℕ) (request : FileMutationRequest) (inode : InodeRecord) (s : Rewriting) :
    Except Failure (InodeRecord × PlanImages) := do
  let (newIndirect, allocator) ← request.reserveIndirect inode.indirect s.mapping.length s.allocator
  let released := request.releaseIndirect inode.indirect s.mapping.length s.released
  let allocator ← (released.sort (· ≤ ·)).foldlM BitmapAllocator.releaseAllocated allocator
  let images := s.images.addBitmap r.superblock.blockBitmap r.blockBitmap allocator.bitmap
  let images ← request.addIndirect r inode.indirect newIndirect s.mapping images
  let table := inodeTableBlock r.superblock n
  let before ← r.readBlock table
  let record := request.newInode inode s.mapping newIndirect
  let bytes ← orFail .EUCLEAN (encodeInode record)
  return (record, images.setMetadata table before (putInode n bytes before))

def prepareFileMutation (r : ImageReader) (n : ℕ) (request : FileMutationRequest) :
    Except Failure FileMutationPlan := do
  reject (n = 0) ⟨.EINVAL, "file mutation requires inode and output"⟩
  reject (request.mode = .kWriteRange ∧ request.data = []) ⟨.EINVAL, "range write requires non-empty data"⟩
  reject (request.offset.toNat > kMaxFileSize ∨ request.data.length > kMaxFileSize - request.offset.toNat)
    ⟨.EFBIG, "file mutation exceeds the v1 maximum file size"⟩
  let inode ← r.readInode n
  reject (¬ S_ISREG inode.mode)
    ⟨if S_ISDIR inode.mode then .EISDIR else .EINVAL, "file mutation requires a regular file"⟩
  reject (request.mode = .kReplaceAll ∧ inode.generation ≠ request.expectedGeneration)
    ⟨.ESTALE, "object version no longer matches expected generation"⟩
  -- the generation is the version of the content and must not wrap
  reject (inode.generation.toNat = 2 ^ 64 - 1) ⟨.EOVERFLOW, "file generation cannot wrap"⟩
  let oldMapping ← loadMapping r inode
  reject (¬ oldMapping.Nodup ∨ inode.indirect ≠ 0 ∧ inode.indirect ∈ oldMapping)
    ⟨.EUCLEAN, "file mapping contains duplicate owned blocks"⟩
  orFail .EUCLEAN r.blockAllocator.validate
  let newCount := requiredBlocks (request.newSize inode.size.toNat)
  let start : Rewriting :=
    { allocator := r.blockAllocator, images := {}, released := ∅
      mapping := match request.mode with
        | .kReplaceAll => List.replicate newCount 0
        | .kWriteRange => oldMapping ++ List.replicate (newCount - oldMapping.length) 0 }
  let s ← request.rewriteBlocks r inode.size.toNat newCount oldMapping start
  let (record, images) ← publishMutation r n request inode s
  return { inodeNumber := n, oldGeneration := inode.generation, newGeneration := inode.generation + 1
           oldSize := inode.size, newSize := record.size, oldDataBlocks := oldMapping, newDataBlocks := s.mapping
           oldIndirectBlock := inode.indirect, newIndirectBlock := record.indirect
           totalBlocks := r.superblock.totalBlocks, filesystemUuid := r.superblock.filesystemUuid, images := images }

/-- The plan for a write of the file system: it does not truncate. -/
def prepareFileWrite (r : ImageReader) (n : ℕ) (offset : UInt64) (data : List UInt8) (timestampNs : UInt64) :
    Except Failure FileMutationPlan := do
  reject (data = []) ⟨.EINVAL, "file write requires non-empty data"⟩
  prepareFileMutation r n ⟨.kWriteRange, offset, data, timestampNs, 0⟩

/-- The plan for a new version of an object. -/
def prepareObjectReplace (r : ImageReader) (n : ℕ) (expectedGeneration : UInt64) (data : List UInt8)
    (timestampNs : UInt64) : Except Failure FileMutationPlan :=
  prepareFileMutation r n ⟨.kReplaceAll, 0, data, timestampNs, expectedGeneration⟩

end Eufs
