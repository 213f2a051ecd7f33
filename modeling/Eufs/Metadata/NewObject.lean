import Eufs.Format.Insert
import Eufs.Metadata.FileMutation

/-!
# Eufs.Metadata.NewObject — planning a new object

`prepareNewRootObject` plans a new file in the root directory together with its whole content.  The entry goes into the
first block of the root that has room; when none has, the root gets one more block, and with it perhaps a new indirect
block.  The data blocks follow, then the indirect block of the file, the two records and the two bitmaps.
-/

namespace Eufs

structure NewObjectPlan where
  inodeNumber : ℕ
  objectSize : UInt64
  directoryBlock : ℕ
  directoryGrew : Bool
  dataBlocks : List ℕ
  fileIndirectBlock : ℕ
  rootIndirectBlock : ℕ
  totalBlocks : UInt32
  filesystemUuid : Uuid
  images : PlanImages

def isValidRootObjectName (name : Name) : Prop :=
  name ≠ [] ∧ name ≠ [46] ∧ name ≠ [46, 46] ∧ name.length ≤ kMaxNameLength ∧ (47 : UInt8) ∉ name ∧
    (0 : UInt8) ∉ name

instance (name : Name) : Decidable (isValidRootObjectName name) := by unfold isValidRootObjectName; infer_instance

/-- What is asked for. -/
structure NewObjectRequest where
  name : Name
  data : List UInt8
  permissions : UInt32
  uid : UInt32
  gid : UInt32
  timestampNs : UInt64

/-! ## Blocks of metadata -/

/-- The content a block has in the plan so far. -/
def mutableMetadataBlock (r : ImageReader) (b : ℕ) (p : PlanImages) : Except Failure Block :=
  match p.metadataAfterImages[b]? with
  | some x => .ok x
  | none => r.readBlock b

/-- Edit a block of metadata; the first edit keeps what the image holds. -/
def editMetadataBlock (r : ImageReader) (b : ℕ) (f : Block → Except Failure Block) (p : PlanImages) :
    Except Failure PlanImages := do
  let current ← mutableMetadataBlock r b p
  let after ← f current
  return p.editMetadata r.image b fun _ => after

/-- Store a record in its block of the inode table. -/
def storeInode (r : ImageReader) (n : ℕ) (record : InodeRecord) (p : PlanImages) : Except Failure PlanImages :=
  editMetadataBlock r (inodeTableBlock r.superblock n) (fun block => do
    let bytes ← orFail .EUCLEAN (encodeInode record)
    return putInode n bytes block) p

/-! ## The entry in the root -/

/-- The first of the logical blocks that takes the entry, with its new content. -/
def insertIntoRoot (r : ImageReader) (root : InodeRecord) (entry : DirectoryEntry) :
    List ℕ → Except Failure (Option (ℕ × Block))
  | [] => .ok none
  | logical :: rest => do
    let physical ← r.mapLogicalBlock root logical
    let before ← r.readBlock physical
    match tryInsertDirectoryEntry entry before with
    | .ok (some after) => return some (physical, after)
    | .ok none => insertIntoRoot r root entry rest
    | .error detail => throw ⟨.EUCLEAN, detail⟩

/-- The plan after the entry has its place. -/
structure RootUpdate where
  allocator : BitmapAllocator
  images : PlanImages
  root : InodeRecord
  directoryBlock : ℕ
  directoryGrew : Bool
  rootIndirectBlock : ℕ

/-- The new indirect block of the root: a copy of the old one, if there is one, with one more pointer. -/
def rootIndirectAfter (r : ImageReader) (root : InodeRecord) (rootBlockCount directoryBlock : ℕ) :
    Except Failure Block := do
  let old ← if root.indirect ≠ 0 then r.readBlock root.indirect else .ok (Bytes.zero kBlockSize)
  return old.putLe32 ((rootBlockCount - kDirectBlockCount) * 4) (UInt32.ofNat directoryBlock)

/-- One more block for the root, with the entry in it. -/
def growRoot (r : ImageReader) (root : InodeRecord) (rootBlockCount : ℕ) (entry : DirectoryEntry) :
    Except Failure RootUpdate := do
  reject (rootBlockCount ≥ kMaxFileSize / kBlockSize) ⟨.ENOSPC, "root directory reached the v1 mapping limit"⟩
  let (directoryBlock, allocator) ← r.blockAllocator.reserve
  let images ← editMetadataBlock r directoryBlock (fun _ =>
    orFail .EINVAL (encodeDirectoryEntry entry (UInt16.ofNat kBlockSize) (Bytes.zero kBlockSize) 0)) {}
  let size := root.size + UInt64.ofNat kBlockSize
  if rootBlockCount < kDirectBlockCount then
    return { allocator, images, directoryBlock, directoryGrew := true, rootIndirectBlock := 0
             root := { root with
               size
               directBlocks := root.directBlocks.setIfInBounds rootBlockCount (UInt32.ofNat directoryBlock) } }
  else
    let (rootIndirectBlock, allocator) ← allocator.reserve
    let images ← editMetadataBlock r rootIndirectBlock
      (fun _ => rootIndirectAfter r root rootBlockCount directoryBlock) images
    return { allocator, images, directoryBlock, directoryGrew := true, rootIndirectBlock
             root := { root with size, indirectBlock := UInt32.ofNat rootIndirectBlock } }

/-- The entry in a block of the root, or in a new one. -/
def placeEntry (r : ImageReader) (root : InodeRecord) (entry : DirectoryEntry) : Except Failure RootUpdate := do
  let rootBlockCount := root.size.toNat / kBlockSize
  match ← insertIntoRoot r root entry (List.range rootBlockCount) with
  | some (physical, after) =>
    return { allocator := r.blockAllocator, root, directoryBlock := physical, directoryGrew := false
             rootIndirectBlock := 0, images := PlanImages.setMetadata {} physical (r.image physical) after }
  | none => growRoot r root rootBlockCount entry

/-! ## The file -/

/-- The allocator, the images and the data blocks of the file so far. -/
structure FileUpdate where
  allocator : BitmapAllocator
  images : PlanImages
  dataBlocks : List ℕ

/-- One block of data. -/
def addDataBlock (r : ImageReader) (data : List UInt8) (s : FileUpdate) (logical : ℕ) :
    Except Failure FileUpdate := do
  let (physical, allocator) ← s.allocator.reserve
  let before ← r.readBlock physical
  return { allocator, images := s.images.addOrdered physical before (dataBlock data logical)
           dataBlocks := s.dataBlocks ++ [physical] }

/-- The indirect block of the file, if it needs one. -/
def addFileIndirect (r : ImageReader) (s : FileUpdate) : Except Failure (ℕ × FileUpdate) :=
  if s.dataBlocks.length > kDirectBlockCount then do
    let (fileIndirectBlock, allocator) ← s.allocator.reserve
    let images ← editMetadataBlock r fileIndirectBlock (fun _ => .ok (indirectBlockOf s.dataBlocks)) s.images
    return (fileIndirectBlock, { s with allocator, images })
  else .ok (0, s)

/-- The record of the new file. -/
def newFile (request : NewObjectRequest) (inodeNumber : ℕ) (dataBlocks : List ℕ) (fileIndirectBlock : ℕ) :
    InodeRecord where
  inodeNumber := UInt32.ofNat inodeNumber
  mode := S_IFREG ||| (request.permissions &&& 0o777)
  uid := request.uid
  gid := request.gid
  linkCount := 1
  size := UInt64.ofNat request.data.length
  atimeNs := request.timestampNs
  mtimeNs := request.timestampNs
  ctimeNs := request.timestampNs
  flags := 0
  generation := 1
  directBlocks := directBlocksOf dataBlocks
  indirectBlock := UInt32.ofNat fileIndirectBlock

/-- The old indirect block of the root is released when a new one takes its place. -/
def releaseRootIndirect (oldRootIndirect rootIndirectBlock : ℕ) (a : BitmapAllocator) :
    Except Failure BitmapAllocator :=
  if rootIndirectBlock ≠ 0 ∧ oldRootIndirect ≠ 0 then a.releaseAllocated oldRootIndirect else .ok a

/-- The root after the insertion. -/
def touchedRoot (root : InodeRecord) (timestampNs : UInt64) : InodeRecord :=
  { root with mtimeNs := timestampNs, ctimeNs := timestampNs }

/-! ## The planner -/

/-- The file with its data, the two records and the bitmaps. -/
def publishObject (r : ImageReader) (request : NewObjectRequest) (inodeBit : ℕ) (inodes : BitmapAllocator)
    (oldRootIndirect : ℕ) (u : RootUpdate) : Except Failure NewObjectPlan := do
  let inodeNumber := inodeBit + 1
  let s ← (List.range (requiredBlocks request.data.length)).foldlM (addDataBlock r request.data)
    ⟨u.allocator, u.images, []⟩
  let (fileIndirectBlock, s) ← addFileIndirect r s
  let allocator ← releaseRootIndirect oldRootIndirect u.rootIndirectBlock s.allocator
  let images ← storeInode r r.superblock.rootInode.toNat (touchedRoot u.root request.timestampNs) s.images
  let images ← storeInode r inodeNumber (newFile request inodeNumber s.dataBlocks fileIndirectBlock) images
  let images := images.addBitmap r.superblock.inodeBitmap r.inodeBitmap inodes.bitmap
  let images := images.addBitmap r.superblock.blockBitmap r.blockBitmap allocator.bitmap
  return { inodeNumber, objectSize := UInt64.ofNat request.data.length, directoryBlock := u.directoryBlock
           directoryGrew := u.directoryGrew, dataBlocks := s.dataBlocks, fileIndirectBlock
           rootIndirectBlock := u.rootIndirectBlock, totalBlocks := r.superblock.totalBlocks
           filesystemUuid := r.superblock.filesystemUuid, images }

def prepareNewRootObject (r : ImageReader) (request : NewObjectRequest) : Except Failure NewObjectPlan := do
  reject (¬ isValidRootObjectName request.name) ⟨.EINVAL, "new object requires an output and valid root name"⟩
  reject (request.data.length > kMaxFileSize) ⟨.EFBIG, "new object exceeds the v1 maximum file size"⟩
  let rootInode := r.superblock.rootInode.toNat
  let root ← r.readInode rootInode
  reject (¬ S_ISDIR root.mode) ⟨.EUCLEAN, "root inode is not a directory"⟩
  let existing ← r.listDirectory rootInode
  reject (∃ e ∈ existing, e.name = request.name) ⟨.EEXIST, "root object name already exists"⟩
  orFail .EUCLEAN r.inodeAllocator.validate
  orFail .EUCLEAN r.blockAllocator.validate
  let (inodeBit, inodes) ← r.inodeAllocator.reserve
  let u ← placeEntry r root ⟨UInt32.ofNat (inodeBit + 1), .kRegular, request.name, 0⟩
  publishObject r request inodeBit inodes root.indirect u

end Eufs
