import Eufs.Journal.Store

/-!
# Eufs.Journal.Recovery — classification, recovery and whole transactions

`classifyRecovery` reads the range the control exposes and decides whether it holds a complete, committed
transaction; `resolveRecovery` then discards or replays it and leaves a clean control.  What is decided is stated
apart from the reads: `classify` is the same decision over an image.  `executeJournalTransaction` is one online
transaction from a freshly adopted store to its checkpoint.
-/

namespace Eufs

inductive RecoveryState where
  | kEmpty | kUncommitted | kCommitted
  deriving DecidableEq

inductive RecoveryAction where
  | kNoAction | kDiscarded | kReplayedAndCheckpointed
  deriving DecidableEq

def corrupt (message : String) : Failure := ⟨.EUCLEAN, message⟩

/-! ## The decision -/

/-- Every entry lies at its place behind the descriptor and targets a block that may be replayed. -/
def checkEntries (sb : Superblock) (current : JournalControl) : ℕ → List DescriptorEntry → Except Failure Unit
  | _, [] => .ok ()
  | index, entry :: rest => do
    reject (entry.payloadRingIndex ≠ advance current.tail (index + 1) current.ringBlocks)
      (corrupt "descriptor payload position violates the v1 grammar")
    reject (¬ isValidMetadataTarget sb entry.homeBlock.toNat)
      (corrupt "descriptor targets a forbidden metadata home block")
    checkEntries sb current (index + 1) rest

/-- The descriptor in `bytes`, when it is the one `current` exposes. -/
def checkDescriptor (sb : Superblock) (current : JournalControl) (bytes : Block) :
    Except Failure DescriptorRecord :=
  match decodeDescriptor bytes with
  | .error cause => .error (corrupt ("exposed descriptor is invalid: " ++ cause))
  | .ok descriptor => do
    reject (descriptor.filesystemUuid ≠ sb.filesystemUuid) (corrupt "descriptor UUID does not match the image")
    reject (descriptor.transactionId ≠ current.nextTransactionId - 1)
      (corrupt "descriptor transaction id does not match the control")
    reject (descriptor.transactionBlockCount ≠ current.usedBlocks)
      (corrupt "descriptor length does not match the exposed range")
    checkEntries sb current 0 descriptor.entries
    reject (advance current.tail (descriptor.entries.length + 2) current.ringBlocks ≠ current.head)
      (corrupt "descriptor transaction end does not match control head")
    return descriptor

def checkPayload (entry : DescriptorEntry) (payload : Block) : Except Failure Unit :=
  reject (crc32c payload.toList ≠ entry.payloadCrc32c) (corrupt "exposed journal payload checksum mismatch")

/-- Whether `bytes` commit the descriptor: a block that is no COMMIT, or one of another transaction, does not; one of
this transaction that binds something else is corrupt. -/
def checkCommit (current : JournalControl) (descriptor : DescriptorRecord) (bytes : Block) : Except Failure Bool :=
  match decodeCommit bytes with
  | .error _ => .ok false
  | .ok commit =>
    if commit.transactionId ≠ descriptor.transactionId then .ok false
    else if ¬ commitMatchesDescriptor descriptor current.tail commit then
      .error (corrupt "current COMMIT is inconsistent: commit does not bind to the decoded descriptor")
    else .ok true

/-- Where the COMMIT of the exposed descriptor must lie. -/
def commitRingIndex (current : JournalControl) (descriptor : DescriptorRecord) : UInt32 :=
  advance current.tail (descriptor.entries.length + 1) current.ringBlocks

/-- The transaction recovery has collected. -/
def candidate (current : JournalControl) (descriptor : DescriptorRecord) (images : BlockMap) :
    ValidatedTransaction :=
  ⟨descriptor.transactionId, current.tail, commitRingIndex current descriptor, images⟩

/-- The after-images the entries name, read from `img`. -/
def collectPayloads (sb : Superblock) (img : Image) : List DescriptorEntry → BlockMap → Except Failure BlockMap
  | [], images => .ok images
  | entry :: rest, images => do
    let payload := img (sb.ringBlock entry.payloadRingIndex.toNat)
    checkPayload entry payload
    collectPayloads sb img rest (images.insertIfNew entry.homeBlock.toNat payload)

/-- Descriptor and after-images that `current` exposes in `img`. -/
def exposedBody (sb : Superblock) (current : JournalControl) (img : Image) :
    Except Failure (DescriptorRecord × BlockMap) := do
  let descriptor ← checkDescriptor sb current (img (sb.ringBlock current.tail.toNat))
  let images ← collectPayloads sb img descriptor.entries ∅
  return (descriptor, images)

/-- The decision on the range `current` exposes in `img`: the collected transaction and whether it is committed. -/
def classify (sb : Superblock) (current : JournalControl) (img : Image) :
    Except Failure (Bool × ValidatedTransaction) := do
  reject (current.nextTransactionId.toNat ≤ 1) (corrupt "nonempty journal control has no preceding transaction id")
  let body ← exposedBody sb current img
  let committed ← checkCommit current body.1 (img (sb.ringBlock (commitRingIndex current body.1).toNat))
  return (committed, candidate current body.1 body.2)

/-! ## The programs -/

open Prog

/-- Read ring slot `ringIndex`, checked against the geometry. -/
def readRingBlock {τ : Type} (sb : Superblock) (ringIndex : UInt32) (op : Op) : Io τ Block := do
  failIf (ringIndex.toNat ≥ sb.ringBlocks) .EUCLEAN "derived journal position is outside the ring"
  failIf (sb.ringBlock ringIndex.toNat ≥ sb.journal.stop ∨ sb.ringBlock ringIndex.toNat ≥ sb.totalBlocks.toNat)
    .EUCLEAN "derived journal position maps outside the image"
  readBlock op (sb.ringBlock ringIndex.toNat)

/-- The loop that reads and checks the after-images. -/
def readPayloads {τ : Type} (sb : Superblock) : List DescriptorEntry → BlockMap → Io τ BlockMap
  | [], images => pure images
  | entry :: rest, images => do
    let payload ← readRingBlock sb entry.payloadRingIndex .readPayload
    ofExcept (checkPayload entry payload)
    readPayloads sb rest (images.insertIfNew entry.homeBlock.toNat payload)

def classifyRecovery : Io JournalControlStore RecoveryState := do
  modify fun s => { s with validatedTransaction := none }
  let s ← get
  failIf s.reloadRequired Errno.EIO
    "journal durability is uncertain; reopen and reselect before recovery classification"
  if s.current.usedBlocks = 0 then
    pure .kEmpty
  else do
    failIf (s.current.nextTransactionId.toNat ≤ 1) .EUCLEAN
      "nonempty journal control has no preceding transaction id"
    let descriptorBytes ← readRingBlock s.superblock s.current.tail .readDescriptor
    let descriptor ← ofExcept (checkDescriptor s.superblock s.current descriptorBytes)
    let images ← readPayloads s.superblock descriptor.entries ∅
    let commitBytes ← readRingBlock s.superblock (commitRingIndex s.current descriptor) .readCommit
    let committed ← ofExcept (checkCommit s.current descriptor commitBytes)
    if committed then do
      modify fun s' => { s' with validatedTransaction := some (candidate s.current descriptor images) }
      pure .kCommitted
    else
      pure .kUncommitted

/-- Write one home block during recovery. -/
def recoveryWrite (a : ℕ) (x : Block) : Io JournalControlStore Unit :=
  onFail (pwriteAll Op.text kBlockSize "pwrite returned an invalid length" ⟨.recoveryHome, a, x⟩)
    JournalControlStore.latch

/-- Replay the validated transaction and give up the exposed range. -/
def replayValidated (clean : JournalControl) : Io JournalControlStore RecoveryAction := do
  let s ← get
  match s.validatedTransaction with
  | none => throw (corrupt "committed classification omitted its validated transaction")
  | some validated => do
    forEach validated.metadataAfterImages.toList fun p => do
      failIf (¬ isValidMetadataTarget s.superblock p.1) .EUCLEAN
        "validated transaction contains a forbidden home block"
      recoveryWrite p.1 p.2
    storeSync .syncRecoveryHomes
    persistNext clean
    modify fun s => { s with validatedTransaction := none }
    return .kReplayedAndCheckpointed

def resolveRecovery : Io JournalControlStore RecoveryAction := do
  let s ← get
  failIf s.reloadRequired Errno.EIO
    "journal durability is uncertain; reopen and reselect before recovery execution"
  failIf (s.durableBody.isSome ∨ s.commitDurable) .EBUSY
    "recovery execution requires a newly opened control store"
  let state ← classifyRecovery
  let clean := cleanControl s.current
  match state with
  | .kEmpty => return .kNoAction
  | .kUncommitted => do
    persistNext clean
    modify fun s => { s with validatedTransaction := none }
    return .kDiscarded
  | .kCommitted => replayValidated clean

/-- Open an image as recovery does, and resolve what its journal holds. -/
def openAndResolve {τ : Type} : Io τ (RecoveryAction × JournalControlStore) := do
  let store ← adoptLockedFd
  withState store resolveRecovery

/-- One transaction; the local state is the source's `failure_requires_fail_closed`. -/
def executeJournalTransaction (before ordered metadata : BlockMap) (totalBlocks : UInt32) (filesystemUuid : Uuid) :
    Io Bool Unit := do
  modify fun _ => false
  syscall Op.text .duplicateFd
  modify fun _ => true
  let store ← adoptLockedFd
  let _ ← withState store do
    let _ ← writeOrderedDataAndUnexposedBody totalBlocks filesystemUuid before ordered metadata
    exposeDurableBody
    writeCommit
    completeCommittedTransaction
  modify fun _ => false

end Eufs
