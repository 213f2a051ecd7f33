import Eufs.Journal.Ring

/-!
# Eufs.Journal.Store — the write path of the journal

`JournalControlStore` keeps the selected control, the durable body of the transaction in progress and three latches:
`commitDurable`, `checkpointed` and `reloadRequired`.  Each method below is the source's method as a block-device
program over this state:

* `writeOrderedDataAndUnexposedBody`: ordered data, then descriptor and after-images in the free part of the ring;
* `exposeDurableBody`: the next control, which makes the transaction visible to recovery;
* `writeCommit`: the COMMIT record;
* `completeCommittedTransaction`: after-images to their home blocks, then a clean control.
-/

namespace Eufs

/-- The operations on the image file, one for each text the source reports. -/
inductive Op where
  | fstatImage | inspectFd | readSuperblock | readControlA | readControlB | readBeforeImage
  | orderedData | syncOrderedData | descriptor | payload | syncBody | control | syncControl
  | commit | syncCommit | home | syncHomes
  | readDescriptor | readPayload | readCommit | recoveryHome | syncRecoveryHomes
  | duplicateFd
  | getrandom | clockGettime | openImage | lockImage | invalidSuperblock | syncInvalidated | truncateImage
  | allocateImage | filesystemBody | syncFilesystemBody | superblock | syncSuperblock
  deriving DecidableEq

def Op.text : Op → String
  | .fstatImage => "fstat journal image"
  | .inspectFd => "inspect adopted journal fd"
  | .readSuperblock => "read superblock"
  | .readControlA => "read journal control A"
  | .readControlB => "read journal control B"
  | .readBeforeImage => "pread transaction before-image"
  | .orderedData => "pwrite ordered data"
  | .syncOrderedData => "fdatasync ordered data"
  | .descriptor => "pwrite journal descriptor"
  | .payload => "pwrite journal payload"
  | .syncBody => "fdatasync journal body"
  | .control => "pwrite journal control"
  | .syncControl => "fdatasync journal control"
  | .commit => "pwrite journal COMMIT"
  | .syncCommit => "fdatasync journal COMMIT"
  | .home => "pwrite committed home block"
  | .syncHomes => "fdatasync committed home blocks"
  | .readDescriptor => "pread journal descriptor"
  | .readPayload => "pread journal payload"
  | .readCommit => "pread journal COMMIT"
  | .recoveryHome => "pwrite recovery home block"
  | .syncRecoveryHomes => "fdatasync recovery home blocks"
  | .duplicateFd => "duplicate mounted image fd"
  | .getrandom => "getrandom"
  | .clockGettime => "clock_gettime"
  | .openImage => "open image"
  | .lockImage => "lock image"
  | .invalidSuperblock | .filesystemBody | .superblock => "pwrite"
  | .syncInvalidated => "fdatasync invalidated superblock"
  | .truncateImage => "ftruncate image"
  | .allocateImage => "posix_fallocate image"
  | .syncFilesystemBody => "fdatasync filesystem body"
  | .syncSuperblock => "fdatasync superblock"

/-- Images, worlds and programs of this file system. -/
abbrev Image := ℕ → Block
abbrev Disk := World Block Op
abbrev Io (τ α : Type) := Prog τ Block Op α

/-- A journal body that is durable but not yet exposed by a control. -/
structure DurableJournalBody where
  reservation : RingReservationPlan
  entryCount : UInt32
  descriptorCrc32c : UInt32
  deriving DecidableEq

/-- A transaction that recovery has checked completely. -/
structure ValidatedTransaction where
  transactionId : UInt64
  descriptorRingIndex : UInt32
  commitRingIndex : UInt32
  metadataAfterImages : BlockMap

structure JournalControlStore where
  superblock : Superblock
  current : JournalControl
  currentCopy : ControlCopy
  durableBody : Option DurableJournalBody
  metadataAfterImages : BlockMap
  validatedTransaction : Option ValidatedTransaction
  commitDurable : Bool
  checkpointed : Bool
  reloadRequired : Bool

namespace JournalControlStore

/-- The latch set after a write whose durability is uncertain. -/
def latch (s : JournalControlStore) : JournalControlStore := { s with reloadRequired := true }

end JournalControlStore

/-! ## Helpers -/

/-- The ring size a superblock stands for. -/
def Superblock.ringBlocks (sb : Superblock) : ℕ := sb.journal.count - kJournalControlBlockCount

/-- Where a control copy lies. -/
def Superblock.controlBlock (sb : Superblock) : ControlCopy → ℕ
  | .kA => sb.journal.start
  | .kB => sb.journal.start + 1

/-- Where ring slot `i` lies. -/
def Superblock.ringBlock (sb : Superblock) (i : ℕ) : ℕ := sb.journal.start + kJournalControlBlockCount + i

def isValidMetadataTarget (sb : Superblock) (block : ℕ) : Prop :=
  block ≠ 0 ∧ block < sb.totalBlocks.toNat ∧ ¬ blockIsInRegion block sb.journal

instance (sb : Superblock) (block : ℕ) : Decidable (isValidMetadataTarget sb block) := by
  unfold isValidMetadataTarget; infer_instance

def hasSameIdentity (first second : JournalControl) : Prop :=
  first.ringBlocks = second.ringBlocks ∧ first.filesystemUuid = second.filesystemUuid ∧
  first.stateFlags = second.stateFlags ∧ first.featureCompat = second.featureCompat ∧
  first.featureRoCompat = second.featureRoCompat ∧ first.featureIncompat = second.featureIncompat

instance (a b : JournalControl) : Decidable (hasSameIdentity a b) := by unfold hasSameIdentity; infer_instance

def sameControlState (first second : JournalControl) : Prop :=
  hasSameIdentity first second ∧ first.filesystemUuid = second.filesystemUuid ∧
  first.generation = second.generation ∧ first.head = second.head ∧ first.tail = second.tail ∧
  first.usedBlocks = second.usedBlocks ∧ first.nextTransactionId = second.nextTransactionId

instance (a b : JournalControl) : Decidable (sameControlState a b) := by unfold sameControlState; infer_instance

def sameReservation (first second : RingReservationPlan) : Prop :=
  first.transactionId = second.transactionId ∧ first.descriptorRingIndex = second.descriptorRingIndex ∧
  first.payloadRingIndices = second.payloadRingIndices ∧ first.commitRingIndex = second.commitRingIndex ∧
  sameControlState first.exposedControl second.exposedControl

instance (a b : RingReservationPlan) : Decidable (sameReservation a b) := by unfold sameReservation; infer_instance

/-- The block of a ring slot, checked against the geometry. -/
def ringOffset (sb : Superblock) (ringIndex : UInt32) : Except String ℕ := do
  reject (ringIndex.toNat ≥ sb.ringBlocks) "journal ring index is outside the transaction ring"
  let physicalBlock := sb.ringBlock ringIndex.toNat
  reject (physicalBlock ≥ sb.journal.stop ∨ physicalBlock ≥ sb.totalBlocks.toNat)
    "journal ring position maps outside the image region"
  return physicalBlock

/-- A failed check of a codec becomes the given error. -/
def orFail {α : Type} (errno : Errno) : Except String α → Except Failure α
  | .ok a => .ok a
  | .error text => .error ⟨errno, text⟩

theorem orFail_eq_ok {α : Type} {errno : Errno} {x : Except String α} {a : α} :
    orFail errno x = .ok a ↔ x = .ok a := by
  cases x <;> simp [orFail]

open Prog

section Calls

variable {τ : Type}

def readBlock (op : Op) (a : ℕ) : Io τ Block := preadAll Op.text kBlockSize op a

/-- Write one block; when that fails the store is latched. -/
def storeWrite (op : Op) (a : ℕ) (x : Block) : Io JournalControlStore Unit :=
  onFail (pwriteAll Op.text kBlockSize (op.text ++ " returned an invalid length") ⟨op, a, x⟩)
    JournalControlStore.latch

/-- Make the writes so far durable; when that fails the store is latched. -/
def storeSync (op : Op) : Io JournalControlStore Unit :=
  onFail (Prog.fdatasync Op.text op) JournalControlStore.latch

end Calls

def uncertainWrite : String :=
  "previous journal write has uncertain durability; reopen and reselect before any further write"

/-! ## Opening -/

/-- Superblock, its features and size, and the selected control.  The file's length is a whole number of blocks
here, so only an empty file fails the length check. -/
def loadControlStateFromFd {τ : Type} : Io τ (Superblock × JournalControl × ControlCopy) := do
  syscall Op.text .fstatImage
  let size ← fileSize
  failIf (size < 1) .EUCLEAN "journal image size is not a positive 4 KiB multiple"
  let superblockBytes ← readBlock .readSuperblock 0
  let superblock ← ofExcept (orFail .EUCLEAN (decodeSuperblock superblockBytes))
  failIf (superblock.featureIncompat &&& ~~~ kSupportedFeatureIncompat ≠ 0) .EOPNOTSUPP
    "image requires unsupported incompatible features"
  failIf (superblock.totalBlocks.toNat ≠ size) .EUCLEAN "image size does not match the superblock"
  let controlA ← readBlock .readControlA (superblock.controlBlock .kA)
  let controlB ← readBlock .readControlB (superblock.controlBlock .kB)
  let selected ← ofExcept
    (orFail .EUCLEAN (selectControl controlA controlB superblock.filesystemUuid superblock.ringBlocks))
  return (superblock, selected.1, selected.2)

/-- A store with nothing in progress. -/
def JournalControlStore.fresh (sb : Superblock) (current : JournalControl) (copy : ControlCopy) :
    JournalControlStore where
  superblock := sb
  current := current
  currentCopy := copy
  durableBody := none
  metadataAfterImages := ∅
  validatedTransaction := none
  commitDurable := false
  checkpointed := false
  reloadRequired := false

/-- Take over a descriptor that is open for reading and writing. -/
def adoptLockedFd {τ : Type} : Io τ JournalControlStore := do
  syscall Op.text .inspectFd
  let loaded ← loadControlStateFromFd
  return .fresh loaded.1 loaded.2.1 loaded.2.2

/-! ## Writing a transaction -/

/-- Write `next` to the copy that is not current; the store switches to it after the sync. -/
def persistNext (next : JournalControl) : Io JournalControlStore Unit := do
  let s ← get
  failIf s.reloadRequired Errno.EIO
    "previous journal control update has uncertain durability; reopen and reselect before any further write"
  failIf (¬ hasSameIdentity s.current next ∨ next.filesystemUuid ≠ s.superblock.filesystemUuid ∨
      next.ringBlocks.toNat ≠ s.superblock.ringBlocks)
    .EINVAL "next journal control changes immutable identity fields"
  failIf (next.generation ≠ s.current.generation + 1) .EINVAL
    "next journal control generation is not the exact successor"
  let encoded ← ofExcept (orFail .EINVAL (encodeControl next))
  let targetCopy := s.currentCopy.other
  storeWrite .control (s.superblock.controlBlock targetCopy) encoded
  storeSync .syncControl
  modify fun s => { s with current := next, currentCopy := targetCopy }

/-- The after-images with their ring slots, in the order of the home blocks. -/
def payloadSlots (reservation : RingReservationPlan) (metadata : BlockMap) : List ((ℕ × Block) × UInt32) :=
  metadata.toList.zip reservation.payloadRingIndices

/-- The entries of the descriptor. -/
def descriptorEntries (reservation : RingReservationPlan) (metadata : BlockMap) : List DescriptorEntry :=
  (payloadSlots reservation metadata).map fun p => ⟨UInt32.ofNat p.1.1, p.2, crc32c p.1.2.toList, 0⟩

/-- The descriptor of a reserved transaction. -/
def bodyDescriptor (sb : Superblock) (reservation : RingReservationPlan) (metadata : BlockMap) :
    DescriptorRecord where
  transactionId := reservation.transactionId
  filesystemUuid := sb.filesystemUuid
  transactionBlockCount := UInt32.ofNat (metadata.size + 2)
  flags := 0
  checksum := 0
  entries := descriptorEntries reservation metadata

/-- Descriptor and after-images into the reserved ring slots. -/
def writeUnexposedBody (reservation : RingReservationPlan) (metadata : BlockMap) :
    Io JournalControlStore DurableJournalBody := do
  let s ← get
  failIf s.reloadRequired Errno.EIO uncertainWrite
  failIf (s.current.usedBlocks ≠ 0 ∨ s.durableBody.isSome) .EBUSY
    "v1 already has an exposed or durable journal transaction"
  let expected ← ofExcept (planRingReservation s.current metadata.size)
  failIf (¬ sameReservation reservation expected) .ESTALE
    "ring reservation no longer matches the selected control"
  forEach metadata.toList fun p =>
    failIf (¬ isValidMetadataTarget s.superblock p.1) .EINVAL "metadata after-image targets a forbidden home block"
  let encoded ← ofExcept
    (orFail .EINVAL (encodeDescriptor (bodyDescriptor s.superblock reservation metadata)))
  let descriptorBlock ← ofExcept (orFail .EINVAL (ringOffset s.superblock reservation.descriptorRingIndex))
  storeWrite .descriptor descriptorBlock encoded.1
  forEach (payloadSlots reservation metadata) fun p => do
    let payloadBlock ← onFail (ofExcept (orFail .EINVAL (ringOffset s.superblock p.2))) JournalControlStore.latch
    storeWrite .payload payloadBlock p.1.2
  storeSync .syncBody
  let candidate : DurableJournalBody := ⟨reservation, UInt32.ofNat metadata.size, encoded.2⟩
  modify fun s => { s with durableBody := some candidate, metadataAfterImages := metadata }
  return candidate

/-- The changed blocks that need a before-image. -/
def expectedBeforeBlocks (ordered metadata : BlockMap) : Finset ℕ := (ordered.keys ++ metadata.keys).toFinset

def writeOrderedDataAndUnexposedBody (expectedTotalBlocks : UInt32) (expectedFilesystemUuid : Uuid)
    (before ordered metadata : BlockMap) : Io JournalControlStore DurableJournalBody := do
  failIf metadata.isEmpty .EINVAL "ordered data, metadata, and durable body output are required"
  let s ← get
  failIf s.reloadRequired Errno.EIO uncertainWrite
  failIf (s.current.usedBlocks ≠ 0 ∨ s.durableBody.isSome) .EBUSY
    "v1 already has an exposed or durable journal transaction"
  failIf (expectedTotalBlocks ≠ s.superblock.totalBlocks ∨ expectedFilesystemUuid ≠ s.superblock.filesystemUuid)
    .ESTALE "first-write transaction plan belongs to another image"
  forEach ordered.toList fun p =>
    failIf (¬ blockIsInRegion p.1 s.superblock.data ∨ p.1 ∉ before ∨ p.1 ∈ metadata) .EINVAL
      "ordered-data target is invalid, unvalidated, or metadata"
  forEach metadata.toList fun p =>
    failIf (¬ isValidMetadataTarget s.superblock p.1 ∨ p.1 ∉ before) .EINVAL
      "metadata target is invalid or lacks a before-image"
  failIf (before.size ≠ (expectedBeforeBlocks ordered metadata).card) .EINVAL
    "before-images must exactly cover the distinct changed home blocks"
  forEach before.toList fun p =>
    failIf (p.1 ∉ expectedBeforeBlocks ordered metadata) .EINVAL "before-images contain an unrelated home block"
  let reservation ← ofExcept (planRingReservation s.current metadata.size)
  forEach before.toList fun p => do
    failIf (p.1 ≥ s.superblock.totalBlocks.toNat) .EINVAL "before-image target is outside the image"
    let current ← readBlock .readBeforeImage p.1
    failIf (current ≠ p.2) .ESTALE "home block changed after first-write transaction planning"
  if ordered.isEmpty then
    writeUnexposedBody reservation metadata
  else do
    forEach ordered.toList fun p => storeWrite .orderedData p.1 p.2
    storeSync .syncOrderedData
    writeUnexposedBody reservation metadata

/-- Persist the control that exposes the durable body. -/
def exposeDurableBody : Io JournalControlStore Unit := do
  let s ← get
  failIf s.reloadRequired Errno.EIO uncertainWrite
  failIf (s.current.usedBlocks ≠ 0) .EBUSY "v1 already has an exposed journal transaction"
  match s.durableBody with
  | none => throw ⟨.EPERM, "journal body must be durable before control exposure"⟩
  | some body => persistNext body.reservation.exposedControl

/-- The COMMIT record that binds a durable body. -/
def commitRecord (sb : Superblock) (body : DurableJournalBody) : CommitRecord where
  transactionId := body.reservation.transactionId
  filesystemUuid := sb.filesystemUuid
  entryCount := body.entryCount
  transactionBlockCount := body.entryCount + 2
  descriptorRingIndex := body.reservation.descriptorRingIndex
  descriptorCrc32c := body.descriptorCrc32c

def writeCommit : Io JournalControlStore Unit := do
  let s ← get
  failIf s.reloadRequired Errno.EIO uncertainWrite
  match s.durableBody with
  | none => throw ⟨.EPERM, "durable journal body is required before COMMIT"⟩
  | some body => do
    failIf s.commitDurable .EALREADY "journal COMMIT is already durable"
    failIf (¬ sameControlState s.current body.reservation.exposedControl) .EPERM
      "exact durable journal body must be exposed before COMMIT"
    let encoded ← ofExcept (orFail .EINVAL (encodeCommit (commitRecord s.superblock body)))
    let commitBlock ← ofExcept (orFail .EINVAL (ringOffset s.superblock body.reservation.commitRingIndex))
    storeWrite .commit commitBlock encoded
    storeSync .syncCommit
    modify fun s => { s with commitDurable := true }

/-- The control after the exposed range is given up. -/
def cleanControl (c : JournalControl) : JournalControl :=
  { c with generation := c.generation + 1, tail := c.head, usedBlocks := 0 }

def completeCommittedTransaction : Io JournalControlStore Unit := do
  let s ← get
  failIf s.reloadRequired Errno.EIO uncertainWrite
  failIf (s.durableBody.isNone ∨ ¬ s.commitDurable ∨ s.metadataAfterImages.isEmpty) .EPERM
    "a durable body and COMMIT are required before checkpoint"
  failIf s.checkpointed .EALREADY "journal transaction is already checkpointed"
  forEach s.metadataAfterImages.toList fun p => do
    failIf (¬ isValidMetadataTarget s.superblock p.1) .EUCLEAN
      "committed transaction targets a forbidden home block"
    storeWrite .home p.1 p.2
  storeSync .syncHomes
  persistNext (cleanControl s.current)
  modify fun s => { s with checkpointed := true }

end Eufs
