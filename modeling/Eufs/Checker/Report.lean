import Eufs.Storage.Reader

/-!
# Eufs.Checker.Report — the evidence of a consistency check

`ConsistencyReport` is what a check of an image collects: the issues it found, how far each phase came, and what it
saw.  `classifyReport` turns it into a verdict; incomplete evidence is never called healthy.
-/

namespace Eufs

inductive ScanStatus where
  | kComplete | kPartial | kAborted
  deriving DecidableEq

inductive IssueCode where
  | kJournalRecoveryRequired | kMetadataBlockMarkedFree | kInodeBitmapTailNotReserved | kBlockBitmapTailNotReserved
  | kRootInodeMarkedFree | kRootInodeUndecodable | kRootInodeNotDirectory | kDirectoryBlockOutOfRange
  | kDirectoryBlockMarkedFree | kDirectoryRecordUndecodable | kDentryTargetOutOfRange | kDentryTargetInodeMarkedFree
  | kDentryTargetInodeUndecodable | kAllocatedInodeUndecodable | kInodeUnreachable | kDirectoryCycle
  | kDirectoryHardLink | kDentryTypeMismatch | kDuplicateDentryName | kReferencedBlockOutOfRange
  | kReferencedBlockMarkedFree | kMissingRequiredBlock | kBlockPointerBeyondEnd | kDuplicateBlockReference
  | kAllocatedDataBlockUnreferenced | kInodeLinkCountMismatch | kRegularFileHardLink | kRootDirectoryReferenced
  | kRequestLedgerIdentityInvalid | kRequestLedgerGeometryInvalid | kRequestLedgerBlockUnavailable
  | kRequestLedgerSlotCorrupt | kRequestLedgerRecordAfterHole | kRequestLedgerDuplicateRequestId
  deriving DecidableEq

inductive BlockReferenceKind where
  | kData | kIndirect
  deriving DecidableEq

/-- One finding; `detailName` are bytes of a name that follow the text. -/
structure CheckIssue where
  code : IssueCode
  inodeNumber : ℕ
  blockNumber : ℕ
  relatedInodeNumber : ℕ
  detail : String
  detailName : Name := []
  firstBitmapBit : ℕ := 0
  occurrenceCount : ℕ := 1
  ledgerSlot : ℕ := 0

structure DiscoveredInode where
  inodeNumber : ℕ
  bitmapAllocated : Bool
  inode : InodeRecord

structure DirectoryEdge where
  parentInodeNumber : ℕ
  childInodeNumber : ℕ
  deriving DecidableEq

structure DirectoryScanState where
  inodeNumber : ℕ
  complete : Bool

structure BlockReference where
  blockNumber : ℕ
  inodeNumber : ℕ
  logicalBlock : ℕ
  kind : BlockReferenceKind

structure InodeLinkObservation where
  inodeNumber : ℕ
  declaredLinkCount : ℕ
  observedDentryReferences : ℕ
  observedChildDirectories : ℕ
  expectedLinkCount : ℕ
  expectationComplete : Bool

structure ConsistencyReport where
  status : ScanStatus := .kAborted
  bitmapGeometryScanComplete : Bool := false
  rootInodeDecoded : Bool := false
  rootReachabilityComplete : Bool := false
  blockReferenceScanComplete : Bool := false
  inodeReferenceScanComplete : Bool := false
  requestLedgerFeatureEnabled : Bool := false
  requestLedgerScanComplete : Bool := false
  requestLedgerCapacity : ℕ := 0
  requestLedgerSlotsScanned : ℕ := 0
  requestLedgerValidRecords : ℕ := 0
  requestLedgerEmptySlots : ℕ := 0
  rootInode : Option InodeRecord := none
  rootEntries : List DirectoryEntry := []
  discoveredInodes : List DiscoveredInode := []
  directoryEdges : List DirectoryEdge := []
  directoryScanStates : List DirectoryScanState := []
  blockReferences : List BlockReference := []
  inodeLinkObservations : List InodeLinkObservation := []
  allocatedUnreferencedDataBlocks : List ℕ := []
  physicalScanInodeNumbers : List ℕ := []
  rootReachableInodeNumbers : List ℕ := []
  issues : List CheckIssue := []

inductive CheckVerdict where
  | kHealthy | kInconsistent | kIncomplete
  deriving DecidableEq

/-- All phases came to their end. -/
def isEvidenceComplete (r : ConsistencyReport) : Bool :=
  r.status = .kComplete && r.bitmapGeometryScanComplete && r.rootInodeDecoded && r.rootReachabilityComplete &&
    r.blockReferenceScanComplete && r.inodeReferenceScanComplete && r.requestLedgerScanComplete

def classifyReport (r : ConsistencyReport) : CheckVerdict :=
  if ¬ isEvidenceComplete r then .kIncomplete else if r.issues.isEmpty then .kHealthy else .kInconsistent

theorem classifyReport_eq_healthy {r : ConsistencyReport} :
    classifyReport r = .kHealthy ↔ isEvidenceComplete r = true ∧ r.issues = [] := by
  unfold classifyReport
  by_cases he : isEvidenceComplete r = true <;> by_cases hi : r.issues = [] <;> simp [he, hi]

namespace ConsistencyReport

/-- `AddIssue`. -/
def addIssue (r : ConsistencyReport) (code : IssueCode) (inode block related : ℕ) (detail : String) :
    ConsistencyReport := { r with issues := r.issues ++ [⟨code, inode, block, related, detail, [], 0, 1, 0⟩] }

end ConsistencyReport

end Eufs
