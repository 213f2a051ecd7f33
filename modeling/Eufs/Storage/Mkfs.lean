import Eufs.Format.Directory
import Eufs.Storage.Bitmap
import Eufs.Object.LedgerFormat
import Eufs.Journal.Resolve

/-!
# Eufs.Storage.Mkfs — formatting an image

`formatImage` computes the layout, invalidates the old superblock when it overwrites a file, sets the length of the
file, writes the whole body (bitmaps, root inode, both control copies and, when asked for, an empty request ledger),
and publishes the superblock last.  The ring and the free inode records and data blocks are not written: they keep
what the file held before.
-/

namespace Eufs

open Prog

structure MkfsOptions where
  imagePath : String
  imageSizeBytes : UInt64
  totalInodes : UInt32
  journalBlocks : UInt32
  requestLedgerEntries : UInt32
  force : Bool
  deriving DecidableEq

/-- What the formatter takes from the host: random bytes, the clock, the user. -/
structure MkfsHost where
  random : Uuid
  tvSec : ℤ
  tvNsec : ℕ
  uid : UInt32
  gid : UInt32

/-! ## Layout -/

/-- Where the ledger lies; `entryCount = 0` when there is none. -/
structure RequestLedgerGeometry where
  entryCount : ℕ
  dataBlockCount : ℕ
  rootDirectoryBlock : ℕ
  firstDataBlock : ℕ
  indirectBlock : ℕ
  fileSize : ℕ
  deriving DecidableEq

def RequestLedgerGeometry.enabled (g : RequestLedgerGeometry) : Prop := g.entryCount ≠ 0

instance (g : RequestLedgerGeometry) : Decidable g.enabled := by
  unfold RequestLedgerGeometry.enabled; infer_instance

abbrev kEntriesPerBlock : ℕ := kBlockSize / kRequestLedgerRecordSize
abbrev kMaximumFileBlocks : ℕ := kDirectBlockCount + kBlockSize / 4

def buildRequestLedgerGeometry (sb : Superblock) (entryCount : ℕ) : Except String RequestLedgerGeometry :=
  if entryCount = 0 then return ⟨0, 0, 0, 0, 0, 0⟩
  else do
    reject (entryCount % kEntriesPerBlock ≠ 0) "request ledger entry count must fill complete blocks"
    let dataBlocks := entryCount / kEntriesPerBlock
    reject (dataBlocks = 0 ∨ dataBlocks > kMaximumFileBlocks) "request ledger exceeds the v1 inode mapping limit"
    reject (sb.totalInodes.toNat ≤ kRequestLedgerInodeNumber) "request ledger requires at least three inodes"
    let needsIndirect := dataBlocks > kDirectBlockCount
    let occupiedDataBlocks := 1 + dataBlocks + if needsIndirect then 1 else 0
    reject (occupiedDataBlocks ≥ sb.data.count) "image data region is too small for request ledger"
    return { entryCount, dataBlockCount := dataBlocks, rootDirectoryBlock := sb.data.start
             firstDataBlock := sb.data.start + 1
             indirectBlock := if needsIndirect then sb.data.start + 1 + dataBlocks else 0
             fileSize := entryCount * kRequestLedgerRecordSize }

/-- The version and variant bits of a random UUID. -/
def randomUuid (random : Uuid) : Uuid :=
  (random.put8 6 ((random.byte 6 &&& 0x0F) ||| 0x40)).put8 8 ((random.byte 8 &&& 0x3F) ||| 0x80)

def currentTimeNs (host : MkfsHost) : Except String UInt64 := do
  reject (host.tvSec < 0 ∨ host.tvSec.toNat > (2 ^ 64 - 1 - host.tvNsec) / 1000000000)
    "current time does not fit the on-disk timestamp"
  return UInt64.ofNat (host.tvSec.toNat * 1000000000 + host.tvNsec)

/-- Totals, regions and ledger of the new image. -/
def formatLayout (options : MkfsOptions) : Except String (Superblock × RequestLedgerGeometry) := do
  reject (options.imagePath = "" ∨ options.imageSizeBytes = 0 ∨ options.imageSizeBytes.toNat % kBlockSize ≠ 0)
    "image path and block-aligned image size are required"
  let totalBlocks := options.imageSizeBytes.toNat / kBlockSize
  reject (totalBlocks > 2 ^ 32 - 1 ∨ options.imageSizeBytes.toNat > 2 ^ 63 - 1)
    "image exceeds the v1 block-number or host offset limit"
  let sb ← buildSuperblockLayout (UInt32.ofNat totalBlocks) options.totalInodes options.journalBlocks
  let g ← buildRequestLedgerGeometry sb options.requestLedgerEntries.toNat
  return (if g.enabled then { sb with featureIncompat := sb.featureIncompat ||| kFeatureIncompatRequestLedger } else sb,
    g)

/-- The layout with its identity. -/
def formattedSuperblock (sb : Superblock) (host : MkfsHost) (created : UInt64) : Superblock :=
  { sb with filesystemUuid := randomUuid host.random, createdTimeNs := created }

/-! ## The body -/

section

variable (sb : Superblock) (g : RequestLedgerGeometry)

/-- Root, and the ledger's inode. -/
def formattedInodeBitmap : Bitmap :=
  let bm := Bitmap.setBit (fun _ => 0) (sb.rootInode.toNat - 1)
  let bm := if g.enabled then bm.setBit (kRequestLedgerInodeNumber - 1) else bm
  bm.reserveBitmapTail sb.totalInodes.toNat

/-- Everything before the data region, and the ledger's blocks. -/
def formattedBlockBitmap : Bitmap :=
  let bm := Bitmap.setBitmapPrefix (fun _ => 0) sb.data.start
  let bm :=
    if g.enabled then
      let bm := bm.setBit g.rootDirectoryBlock
      let bm := (List.range g.dataBlockCount).foldl (fun bm logical => bm.setBit (g.firstDataBlock + logical)) bm
      if g.indirectBlock ≠ 0 then bm.setBit g.indirectBlock else bm
    else bm
  bm.reserveBitmapTail sb.totalBlocks.toNat

/-- The root directory; with a ledger it has one block. -/
def formattedRoot (host : MkfsHost) : InodeRecord where
  inodeNumber := sb.rootInode
  mode := S_IFDIR ||| 0o755
  uid := host.uid
  gid := host.gid
  linkCount := 2
  size := if g.enabled then UInt64.ofNat kBlockSize else 0
  atimeNs := sb.createdTimeNs
  mtimeNs := sb.createdTimeNs
  ctimeNs := sb.createdTimeNs
  flags := 0
  generation := 1
  directBlocks := Vector.ofFn fun i => if g.enabled ∧ i.val = 0 then UInt32.ofNat g.rootDirectoryBlock else 0
  indirectBlock := 0

def formattedLedger (host : MkfsHost) : InodeRecord where
  inodeNumber := UInt32.ofNat kRequestLedgerInodeNumber
  mode := S_IFREG ||| 0o600
  uid := host.uid
  gid := host.gid
  linkCount := 1
  size := UInt64.ofNat g.fileSize
  atimeNs := sb.createdTimeNs
  mtimeNs := sb.createdTimeNs
  ctimeNs := sb.createdTimeNs
  flags := 0
  generation := 1
  directBlocks := Vector.ofFn fun i =>
    if i.val < g.dataBlockCount then UInt32.ofNat (g.firstDataBlock + i.val) else 0
  indirectBlock := UInt32.ofNat g.indirectBlock

end

/-- The pointers of the ledger's indirect block. -/
def formattedIndirect (g : RequestLedgerGeometry) : Block :=
  (Bytes.zero kBlockSize).fill
    ((List.range (g.dataBlockCount - kDirectBlockCount)).map fun i =>
      .le32 (i * 4) (UInt32.ofNat (g.firstDataBlock + kDirectBlockCount + i)))

def ledgerEntry : DirectoryEntry :=
  ⟨UInt32.ofNat kRequestLedgerInodeNumber, .kRegular, kRequestLedgerName, 0⟩

/-- The control of an empty journal. -/
def formattedControl (sb : Superblock) : JournalControl where
  ringBlocks := sb.journal.blockCount - UInt32.ofNat kJournalControlBlockCount
  filesystemUuid := sb.filesystemUuid
  generation := 0
  head := 0
  tail := 0
  usedBlocks := 0
  stateFlags := 0
  nextTransactionId := 1
  featureCompat := 0
  featureRoCompat := 0
  featureIncompat := 0

/-- Overwrite a whole block. -/
def whole (a : ℕ) (x : Block) : ℕ × (Block → Block) := (a, fun _ => x)

/-- Overwrite the record of inode `n` in the first block of the inode table. -/
def record (sb : Superblock) (n : ℕ) (x : InodeBytes) : ℕ × (Block → Block) :=
  (sb.inodeTable.start, fun b => b.putBytes ((n - 1) * kInodeRecordSize) x)

/-- The blocks of a bitmap. -/
def bitmapPatches (r : Region) (bm : Bitmap) : List (ℕ × (Block → Block)) :=
  (List.range r.count).map fun k => whole (r.start + k) (bitmapBlock bm k)

/-- The encoded parts of the body. -/
structure FormatBytes where
  root : InodeBytes
  ledger : InodeBytes
  rootDirectory : Block
  control : Block

/-- What the body writes, in the order of the writes. -/
def bodyPatches (sb : Superblock) (g : RequestLedgerGeometry) (b : FormatBytes) : List (ℕ × (Block → Block)) :=
  bitmapPatches sb.inodeBitmap (formattedInodeBitmap sb g) ++
  bitmapPatches sb.blockBitmap (formattedBlockBitmap sb g) ++
  [record sb sb.rootInode.toNat b.root, whole (sb.controlBlock .kA) b.control,
    whole (sb.controlBlock .kB) b.control] ++
  if g.enabled then
    [record sb kRequestLedgerInodeNumber b.ledger, whole g.rootDirectoryBlock b.rootDirectory] ++
    (List.range g.dataBlockCount).map (fun logical => whole (g.firstDataBlock + logical) (Bytes.zero _)) ++
    if g.indirectBlock ≠ 0 then [whole g.indirectBlock (formattedIndirect g)] else []
  else []

/-- The root directory block and the ledger's inode. -/
def ledgerBytesOf (sb : Superblock) (g : RequestLedgerGeometry) (host : MkfsHost) :
    Except String (Block × InodeBytes) :=
  if g.enabled then do
    let rootDirectory ← encodeDirectoryEntry ledgerEntry (UInt16.ofNat kBlockSize) (Bytes.zero _) 0
    let ledger ← encodeInode (formattedLedger sb g host)
    return (rootDirectory, ledger)
  else return (Bytes.zero _, Bytes.zero _)

/-- The encoded parts. -/
def formatBytes (sb : Superblock) (g : RequestLedgerGeometry) (host : MkfsHost) : Except String FormatBytes := do
  let parts ← ledgerBytesOf sb g host
  let root ← encodeInode (formattedRoot sb g host)
  let control ← encodeControl (formattedControl sb)
  return ⟨root, parts.2, parts.1, control⟩

/-! ## The program -/

/-- The formatter reports a text only. -/
def mkfsFailure (text : String) : Failure := ⟨.other 0, text⟩

def orText {α : Type} : Except String α → Except Failure α
  | .ok a => .ok a
  | .error text => .error (mkfsFailure text)

theorem orText_eq_ok {α : Type} {x : Except String α} {a : α} : orText x = .ok a ↔ x = .ok a := by
  cases x <;> simp [orText]

/-- The formatter's `PwriteAll`, block by block. -/
def mkfsWrite (op : Op) (x : ℕ × (Block → Block)) : Io Unit Unit :=
  writeAll kBlockSize false
    (fun r => if r.ret < 0 then systemFailure Op.text op (r.err.getD Errno.EIO)
      else mkfsFailure "pwrite made no progress")
    (mkfsFailure "") fun d => ⟨op, x.1, x.2 (d x.1)⟩

def mkfsSync (op : Op) : Io Unit Unit := onFail (Prog.fdatasync Op.text op) id

/-- Overwriting an image makes it unmountable first. -/
def invalidateSuperblock : Io Unit Unit := do
  mkfsWrite .invalidSuperblock (whole 0 (Bytes.zero _))
  mkfsSync .syncInvalidated

def prepareImage (force : Bool) : Io Unit Unit := if force then invalidateSuperblock else pure ()

/-- The superblock makes the image mountable. -/
def publishSuperblock (sb : Superblock) : Io Unit Unit := do
  let superblockBytes ← ofExcept (orText (encodeSuperblock sb))
  mkfsWrite .superblock (whole 0 superblockBytes)
  mkfsSync .syncSuperblock

/-- The body, then the superblock. -/
def publishImage (sb : Superblock) (g : RequestLedgerGeometry) (host : MkfsHost) : Io Unit Unit := do
  let b ← ofExcept (orText (formatBytes sb g host))
  forEach (bodyPatches sb g b) (mkfsWrite .filesystemBody)
  mkfsSync .syncFilesystemBody
  publishSuperblock sb

/-- Format the file; a length of any number of bytes is here the number of blocks it begins. -/
def formatImage (options : MkfsOptions) (host : MkfsHost) : Io Unit Superblock := do
  let layout ← ofExcept (orText (formatLayout options))
  syscall Op.text .getrandom
  syscall Op.text .clockGettime
  let created ← ofExcept (orText (currentTimeNs host))
  let sb := formattedSuperblock layout.1 host created
  syscall Op.text .openImage
  syscall Op.text .lockImage
  prepareImage options.force
  ftruncate Op.text (Bytes.zero _) .truncateImage (options.imageSizeBytes.toNat / kBlockSize)
  syscall Op.text .allocateImage
  publishImage sb layout.2 host
  return sb

end Eufs
