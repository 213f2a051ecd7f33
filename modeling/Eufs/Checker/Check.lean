import Eufs.Base.Search
import Eufs.Checker.Scan
import Eufs.Object.LedgerFormat

/-!
# Eufs.Checker.Check — the check of an image

After the physical scan the check compares the block bitmap with the references, the link counts with the entries and
the types of the entries with the modes, looks for cycles and second entries of directories, and follows the entries
from the root.  An image with a request ledger has the ledger's identity, geometry and slots checked as well.
-/

namespace Eufs

namespace Scan

variable (sb : Superblock) (d : Image)

/-! ## Blocks -/

/-- Allocated data blocks that no pointer names. -/
def unreferencedBlocks (s : Scan) : List ℕ :=
  (List.range sb.totalBlocks.toNat).filter fun b =>
    decide (sb.data.start ≤ b) && sb.blockBit d b && (s.firstBlockReferences b).isNone

def reportUnreferenced (blocks : List ℕ) (r : ConsistencyReport) : ConsistencyReport :=
  { r with
    allocatedUnreferencedDataBlocks := blocks
    issues := r.issues ++ blocks.map fun b =>
      ⟨.kAllocatedDataBlockUnreferenced, 0, b, 0,
        "位图标记已分配的数据块没有任何 inode 映射引用", [], 0, 1, 0⟩ }

/-- Only complete references show that an allocated block is an orphan. -/
def checkBlocks (s : Scan) (r : ConsistencyReport) : ConsistencyReport :=
  let r := { r with blockReferenceScanComplete := s.blockReferenceScanComplete }
  if r.blockReferenceScanComplete then reportUnreferenced (unreferencedBlocks sb d s) r else r

/-! ## Entries and link counts -/

def isDecodedDirectory (s : Scan) (n : ℕ) : Bool :=
  match s.decodedInodes[n]? with
  | some v => S_ISDIR v.mode
  | none => false

def observedDentryReferences (s : Scan) (n : ℕ) : ℕ :=
  s.directoryEntryObservations.countP fun o => o.entry.inode.toNat = n

def observedChildDirectories (s : Scan) (n : ℕ) : ℕ :=
  s.directoryEntryObservations.countP fun o =>
    decide (o.parentInodeNumber = n) && isDecodedDirectory s o.entry.inode.toNat

/-- Entries that point to the root. -/
def checkRootReferences (s : Scan) (r : ConsistencyReport) : ConsistencyReport :=
  { r with
    inodeReferenceScanComplete := s.inodeReferenceScanComplete &&
      s.directoryScanComplete.toList.all (fun x => x.2) &&
      s.directoryEntryObservations.all (fun o => (s.decodedInodes[o.entry.inode.toNat]?).isSome)
    issues := r.issues ++ s.directoryEntryObservations.filterMap fun o =>
      if o.entry.inode = sb.rootInode then
        some ⟨.kRootDirectoryReferenced, sb.rootInode.toNat, o.blockNumber, o.parentInodeNumber,
          "磁盘目录项非法指向根 inode", [], 0, 1, 0⟩
      else none }

def expectedLinkCount (s : Scan) (n : ℕ) (v : InodeRecord) : ℕ :=
  if S_ISDIR v.mode then
    if n = sb.rootInode.toNat then 2 + observedChildDirectories s n
    else 1 + observedDentryReferences s n + observedChildDirectories s n
  else observedDentryReferences s n

/-- The link count of one inode against the evidence. -/
def checkLinkCount (s : Scan) (r : ConsistencyReport) (x : ℕ × InodeRecord) : ConsistencyReport :=
  let (n, v) := x
  let complete := r.inodeReferenceScanComplete && decide (n ≠ sb.rootInode.toNat ∨ S_ISDIR v.mode)
  let expected := expectedLinkCount sb s n v
  let r := if ¬ S_ISDIR v.mode ∧ S_ISREG v.mode ∧ observedDentryReferences s n > 1 then
      r.addIssue .kRegularFileHardLink n 0 0
        "普通文件存在多个命名空间入口，但 eufs v1 不支持硬链接"
    else r
  let r := { r with inodeLinkObservations := r.inodeLinkObservations ++ [InodeLinkObservation.mk n v.linkCount.toNat
    (observedDentryReferences s n) (observedChildDirectories s n) expected complete] }
  if complete && decide (v.linkCount.toNat ≠ expected) then
    r.addIssue .kInodeLinkCountMismatch n 0 0
      ("inode link_count=" ++ toString v.linkCount.toNat ++ "，但命名空间证据要求 " ++ toString expected)
  else r

def checkLinkCounts (s : Scan) (r : ConsistencyReport) : ConsistencyReport :=
  s.decodedInodes.toList.foldl (checkLinkCount sb s) r

/-- The type of each entry against the mode of its target. -/
def checkTypes (s : Scan) (r : ConsistencyReport) : ConsistencyReport :=
  { r with issues := r.issues ++ s.directoryEntryObservations.filterMap fun o =>
      match s.decodedInodes[o.entry.inode.toNat]? with
      | some v => if isDirectoryType o.entry.fileType v.mode then none
        else some ⟨.kDentryTypeMismatch, o.parentInodeNumber, o.blockNumber, o.entry.inode.toNat,
          "目录项类型与目标 inode mode 不一致", [], 0, 1, 0⟩
      | none => none }

/-! ## The graph of the directories -/

def edges (r : ConsistencyReport) : List (ℕ × ℕ) :=
  r.directoryEdges.map fun e => (e.parentInodeNumber, e.childInodeNumber)

/-- The directories a search for cycles starts at. -/
def starts (s : Scan) : List ℕ := (s.decodedInodes.toList.filter fun x => S_ISDIR x.2.mode).map Prod.fst

def cycleIssue (e : ℕ × ℕ) : CheckIssue :=
  ⟨.kDirectoryCycle, e.1, 0, e.2, "目录边指向 DFS 栈中仍处于 active 状态的祖先", [], 0, 1, 0⟩

/-- Entries that lead back to a directory above. -/
def checkCycles (s : Scan) (r : ConsistencyReport) : ConsistencyReport :=
  { r with issues := r.issues ++ (Search.exploreAll (edges r) (isDecodedDirectory s) (starts s)).2.map cycleIssue }

/-- A second entry of a directory; `linked` are the directories seen so far. -/
def checkHardLink (s : Scan) (x : List ℕ × ConsistencyReport) (e : DirectoryEdge) : List ℕ × ConsistencyReport :=
  if isDecodedDirectory s e.childInodeNumber = false then x
  else if e.childInodeNumber ∈ x.1 then
    (x.1, x.2.addIssue .kDirectoryHardLink e.parentInodeNumber 0 e.childInodeNumber
      "目录 inode 存在多个命名空间入口")
  else (x.1 ++ [e.childInodeNumber], x.2)

def checkHardLinks (s : Scan) (r : ConsistencyReport) : ConsistencyReport :=
  (r.directoryEdges.foldl (checkHardLink s) ([], r)).2

/-- What the entries lead to from the root; only decoded directories have entries to follow. -/
def rootReachable (s : Scan) (r : ConsistencyReport) : List ℕ :=
  Search.reach ((edges r).filter fun e => isDecodedDirectory s e.1) {sb.rootInode.toNat} [sb.rootInode.toNat]

/-- Everything on the way was decoded completely. -/
def decodedOnTheWay (s : Scan) (reached : List ℕ) : Bool :=
  isDecodedDirectory s sb.rootInode.toNat && reached.all fun n =>
    match s.decodedInodes[n]? with
    | none => false
    | some v => decide (¬ S_ISDIR v.mode) || s.directoryScanComplete[n]? == some true

def rootReachabilityComplete (s : Scan) (r : ConsistencyReport) : Bool := decodedOnTheWay sb s (rootReachable sb s r)

def unreachableIssue (n : ℕ) : CheckIssue :=
  ⟨.kInodeUnreachable, n, 0, 0, "已分配 inode 无法从根目录到达", [], 0, 1, 0⟩

def checkReachability (s : Scan) (r : ConsistencyReport) : ConsistencyReport :=
  let r := { r with rootReachabilityComplete := rootReachabilityComplete sb s r }
  if r.rootReachabilityComplete then
    { r with issues := r.issues ++ ((List.range sb.totalInodes.toNat).map (· + 1)).filterMap fun n =>
        if n ≠ sb.rootInode.toNat ∧ sb.inodeBit d n ∧ n ∉ rootReachable sb s r then some (unreachableIssue n)
        else none }
  else r

/-! ## The request ledger -/

/-- The scan of the ledger. -/
structure LedgerScan where
  report : ConsistencyReport
  evidenceComplete : Bool := true
  sawEmpty : Bool := false
  requestIds : List RequestId := []

def LedgerScan.addLedgerIssue (l : LedgerScan) (code : IssueCode) (block slot : ℕ) (detail : String) : LedgerScan :=
  { l with report := { l.report with issues := l.report.issues ++
      [⟨code, kRequestLedgerInodeNumber, block, 0, detail, [], 0, 1, slot⟩] } }

/-- One slot. -/
def checkLedgerSlot (physical slot : ℕ) (bytes : RequestLedgerBytes) (l : LedgerScan) : LedgerScan :=
  let l := { l with report := { l.report with requestLedgerSlotsScanned := l.report.requestLedgerSlotsScanned + 1 } }
  match decodeRequestLedgerRecord bytes (UInt64.ofNat slot) with
  | .error detail => l.addLedgerIssue .kRequestLedgerSlotCorrupt physical slot detail
  | .ok none =>
    { l with report := { l.report with requestLedgerEmptySlots := l.report.requestLedgerEmptySlots + 1 }
             sawEmpty := true }
  | .ok (some record) =>
    let l := { l with report := { l.report with requestLedgerValidRecords := l.report.requestLedgerValidRecords + 1 } }
    let l := if l.sawEmpty then
        l.addLedgerIssue .kRequestLedgerRecordAfterHole physical slot
          "合法记录出现在此前已经观察到的全零空槽之后"
      else l
    if record.requestId ∈ l.requestIds then
      l.addLedgerIssue .kRequestLedgerDuplicateRequestId physical slot
        "同一个 Request-ID 在多个合法槽位中出现"
    else { l with requestIds := l.requestIds ++ [record.requestId] }

/-- One logical block of the ledger. -/
def checkLedgerBlock (l : LedgerScan) (x : Option ℕ × ℕ) : LedgerScan :=
  match x with
  | (none, logical) =>
    { l.addLedgerIssue .kRequestLedgerBlockUnavailable 0 (logical * kLedgerEntriesPerBlock + 1)
        "ledger 逻辑块没有可验证的物理映射" with evidenceComplete := false }
  | (some physical, logical) =>
    (List.range kLedgerEntriesPerBlock).foldl (fun l k =>
      checkLedgerSlot physical (logical * kLedgerEntriesPerBlock + k + 1)
        ((d physical).getBytes (k * kRequestLedgerRecordSize) kRequestLedgerRecordSize) l) l

/-- The entry in the root directory. -/
def checkLedgerEntry (s : Scan) (l : LedgerScan) : LedgerScan :=
  if s.directoryScanComplete[sb.rootInode.toNat]? ≠ some true then
    { l.addLedgerIssue .kRequestLedgerIdentityInvalid 0 0
        "根目录未完整解码，无法完整确认固定 ledger 名称的唯一身份" with
      evidenceComplete := false }
  else
    match l.report.rootEntries.filter (fun e => e.name = kRequestLedgerName) with
    | [e] =>
      if e.inode.toNat ≠ kRequestLedgerInodeNumber ∨ e.fileType ≠ .kRegular then
        l.addLedgerIssue .kRequestLedgerIdentityInvalid 0 0
          "根目录必须恰有一个 .eufs.request-ledger，并指向普通文件 inode 2"
      else l
    | _ =>
      l.addLedgerIssue .kRequestLedgerIdentityInvalid 0 0
        "根目录必须恰有一个 .eufs.request-ledger，并指向普通文件 inode 2"

/-- The slots of a ledger whose geometry can be read. -/
def checkLedgerSlots (s : Scan) (v : InodeRecord) (l : LedgerScan) : LedgerScan :=
  let l := { l with report := { l.report with
    requestLedgerCapacity := v.size.toNat / kRequestLedgerRecordSize } }
  let mapping := (s.inodeLogicalBlocks kRequestLedgerInodeNumber).getD []
  if s.inodeLogicalBlocks kRequestLedgerInodeNumber = none ∨ mapping.length ≠ v.size.toNat / kBlockSize then
    { l.addLedgerIssue .kRequestLedgerBlockUnavailable 0 0
      "无法取得与 ledger 文件大小一致的逻辑块映射" with
      evidenceComplete := false }
  else mapping.zipIdx.foldl (checkLedgerBlock d) l

/-- The ledger's inode. -/
def checkLedgerInode (s : Scan) (l : LedgerScan) : LedgerScan :=
  match s.decodedInodes[kRequestLedgerInodeNumber]? with
  | none =>
    { l.addLedgerIssue .kRequestLedgerIdentityInvalid 0 0
      "固定 ledger inode 2 无法解码" with evidenceComplete := false }
  | some v =>
    let l := if sb.inodeBit d kRequestLedgerInodeNumber then l
      else l.addLedgerIssue .kRequestLedgerIdentityInvalid 0 0 "固定 ledger inode 2 在 inode bitmap 中未分配"
    let l := if ¬ S_ISREG v.mode ∨ v.linkCount ≠ 1 then
        l.addLedgerIssue .kRequestLedgerGeometryInvalid 0 0 "ledger inode 必须是 link_count=1 的普通文件"
      else l
    if v.size.toNat ≠ 0 ∧ v.size.toNat ≤ kMaxFileSize ∧ v.size.toNat % kBlockSize = 0 ∧
        v.size.toNat % kRequestLedgerRecordSize = 0 then
      checkLedgerSlots d s v l
    else
      { l.addLedgerIssue .kRequestLedgerGeometryInvalid 0 0
          "ledger 大小必须是非零 4 KiB 整块，且不能超过 v1 最大文件" with evidenceComplete := false }

def checkLedger (s : Scan) (r : ConsistencyReport) : ConsistencyReport :=
  if r.requestLedgerFeatureEnabled then
    let l := checkLedgerInode sb d s (checkLedgerEntry sb s { report := r })
    let complete := l.evidenceComplete && l.report.requestLedgerSlotsScanned == l.report.requestLedgerCapacity
    { l.report with
      requestLedgerScanComplete := complete
      status := if complete then l.report.status else .kPartial }
  else r

/-- The tables of the report. -/
def withTables (s : Scan) (reached : List ℕ) (r : ConsistencyReport) : ConsistencyReport :=
  { r with
    physicalScanInodeNumbers := s.physicalScan.sort (· ≤ ·)
    rootReachableInodeNumbers := reached.toFinset.sort (· ≤ ·)
    directoryScanStates := s.directoryScanComplete.toList.map fun x => ⟨x.1, x.2⟩ }

/-- The phases after the physical scan. -/
def finish (s : Scan) : ConsistencyReport :=
  let r := checkBlocks sb d s s.report
  let r := checkRootReferences sb s r
  let r := checkLinkCounts sb s r
  let r := checkTypes s r
  let r := checkCycles s r
  let r := checkHardLinks s r
  let r := checkReachability sb d s r
  let r := checkLedger sb d s r
  withTables s (rootReachable sb s r) r

end Scan

/-! ## Opening and bitmaps -/

/-- The first clear bit of a range and how many there are. -/
def summarizeClearBits (bm : Bitmap) (first stop : ℕ) : Option (ℕ × ℕ) :=
  match (List.range stop).filter fun k => decide (first ≤ k) && !bm.testBit k with
  | [] => none
  | k :: rest => some (k, rest.length + 1)

def addBitmapIssue (r : ConsistencyReport) (code : IssueCode) (block : ℕ → ℕ) (summary : Option (ℕ × ℕ))
    (detail : String) : ConsistencyReport :=
  match summary with
  | none => r
  | some (bit, count) => { r with issues := r.issues ++ [⟨code, 0, block bit, 0, detail, [], bit, count, 0⟩] }

/-- The findings about the clear bits of the three ranges, and the root's bit. -/
def reportBitmaps (sb : Superblock) (d : Image) (r : ConsistencyReport)
    (missing inodeTail blockTail : Option (ℕ × ℕ)) :
    ConsistencyReport :=
  let r := addBitmapIssue r .kMetadataBlockMarkedFree id missing
    "block bitmap 的 metadata 保留区存在未置位的块"
  let r := addBitmapIssue r .kInodeBitmapTailNotReserved (fun _ => 0) inodeTail
    "inode bitmap 超出 total_inodes 的尾部位未保留"
  let r := addBitmapIssue r .kBlockBitmapTailNotReserved (fun _ => 0) blockTail
    "block bitmap 超出 total_blocks 的尾部位未保留"
  let r := { r with bitmapGeometryScanComplete := true }
  if sb.inodeBit d sb.rootInode.toNat then r
  else r.addIssue .kRootInodeMarkedFree sb.rootInode.toNat 0 0
    "superblock 指定的根 inode 在 inode 位图中未置位"

/-- The reserved bits of both bitmaps and the root's bit. -/
def checkBitmapGeometry (sb : Superblock) (d : Image) (r : ConsistencyReport) : ConsistencyReport :=
  let inodeBitmap := loadBitmap d sb.inodeBitmap.start
  let blockBitmap := loadBitmap d sb.blockBitmap.start
  reportBitmaps sb d r (summarizeClearBits blockBitmap 0 sb.data.start)
    (summarizeClearBits inodeBitmap sb.totalInodes.toNat (sb.inodeBitmap.count * kBlockSize * 8))
    (summarizeClearBits blockBitmap sb.totalBlocks.toNat (sb.blockBitmap.count * kBlockSize * 8))

/-- The report of an image whose journal is empty. -/
def checkClean (sb : Superblock) (d : Image) (r : ConsistencyReport) : ConsistencyReport :=
  Scan.finish sb d (Scan.scanQueue sb d (Scan.start sb d (checkBitmapGeometry sb d r)))

/-- The report a check starts with. -/
def initialReport (sb : Superblock) : ConsistencyReport :=
  { requestLedgerFeatureEnabled := sb.featureIncompat &&& kFeatureIncompatRequestLedger ≠ 0
    requestLedgerScanComplete := ¬ sb.featureIncompat &&& kFeatureIncompatRequestLedger ≠ 0 }

def recoveryRequired (sb : Superblock) : ConsistencyReport :=
  (initialReport sb).addIssue .kJournalRecoveryRequired sb.rootInode.toNat 0 0
    "日志中存在已暴露事务；离线一致性检查前必须先运行 eufsd 完成恢复"

/-- What comes before the scan; the second component says that the journal is not empty. -/
def openForCheck (n : ℕ) (d : Image) : Except Failure (Superblock × Bool) := do
  reject (n = 0) ⟨ Errno.EIO, "读取检查镜像: Input/output error"⟩
  let sb ← orFail .EUCLEAN (decodeSuperblock (d 0))
  reject (sb.featureIncompat &&& ~~~ kSupportedFeatureIncompat ≠ 0)
    ⟨.EOPNOTSUPP, "镜像要求当前 eufsck 不支持的不兼容特性"⟩
  reject (sb.totalBlocks.toNat ≠ n) ⟨.EUCLEAN, "镜像大小与 superblock 几何信息不一致"⟩
  let selected ← orFail .EUCLEAN
    (selectControl (d (sb.controlBlock .kA)) (d (sb.controlBlock .kB)) sb.filesystemUuid sb.ringBlocks)
  return (sb, selected.1.usedBlocks ≠ 0)

/-- Check a file of `n` blocks that holds `d`. -/
def checkImage (n : ℕ) (d : Image) : Except Failure ConsistencyReport := do
  let (sb, used) ← openForCheck n d
  return if used then recoveryRequired sb else checkClean sb d (initialReport sb)

end Eufs
