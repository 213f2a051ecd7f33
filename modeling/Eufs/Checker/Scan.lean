import Eufs.Base.Folds
import Eufs.Checker.Report

/-!
# Eufs.Checker.Scan — the physical scan

The first phase of a check looks at every inode that is allocated, that an entry points to, or that is the root.  It
decodes the inode, registers the blocks its pointers name and walks its records when it is a directory.  A local
contradiction is recorded and the scan goes on; what could not be looked at makes the evidence partial.
-/

namespace Eufs

open Function

structure DirectoryEntryObservation where
  parentInodeNumber : ℕ
  blockNumber : ℕ
  entry : DirectoryEntry

/-- Insert unless the key is there. -/
def emplace {β : Type} (m : ℕ → Option β) (k : ℕ) (x : β) : ℕ → Option β :=
  match m k with
  | some _ => m
  | none => update m k (some x)

/-- The report and the tables the scan fills. -/
structure Scan where
  report : ConsistencyReport
  physicalScan : Finset ℕ
  physicalScanQueue : List ℕ
  attemptedInodes : Finset ℕ
  decodedInodes : Std.ExtTreeMap ℕ InodeRecord
  directoryScanComplete : Std.ExtTreeMap ℕ Bool
  /-- The parent and the block of the first entry that points to an inode. -/
  discovery : ℕ → Option (ℕ × ℕ)
  directoryActiveNames : ℕ → List Name
  directoryEntryObservations : List DirectoryEntryObservation
  firstBlockReferences : ℕ → Option BlockReference
  inodeLogicalBlocks : ℕ → Option (List (Option ℕ))
  blockReferenceScanComplete : Bool
  inodeReferenceScanComplete : Bool

namespace Scan

def addIssue (s : Scan) (code : IssueCode) (inode block related : ℕ) (detail : String) : Scan :=
  { s with report := s.report.addIssue code inode block related detail }

def markPartial (s : Scan) : Scan := { s with report := { s.report with status := .kPartial } }

/-- `directory_scan_complete[n] = complete`. -/
def setComplete (s : Scan) (n : ℕ) (complete : Bool) : Scan :=
  { s with directoryScanComplete := s.directoryScanComplete.insert n complete }

def enqueuePhysicalScan (s : Scan) (n : ℕ) : Scan :=
  if n ∈ s.physicalScan then s
  else { s with physicalScan := insert n s.physicalScan, physicalScanQueue := s.physicalScanQueue ++ [n] }

section

variable (sb : Superblock) (d : Image)

/-! ## Block references -/

/-- Register a reference; false when the block is outside the data region. -/
def registerBlockReference (s : Scan) (block inode logical : ℕ) (kind : BlockReferenceKind) (directoryData : Bool) :
    Scan × Bool :=
  let reference : BlockReference := ⟨block, inode, logical, kind⟩
  let s := { s with report := { s.report with blockReferences := s.report.blockReferences ++ [reference] } }
  if block < sb.data.start ∨ block ≥ sb.totalBlocks.toNat then
    (s.addIssue (if directoryData then .kDirectoryBlockOutOfRange else .kReferencedBlockOutOfRange) inode block 0
      "inode 块指针位于数据区之外", false)
  else
    let s := if sb.blockBit d block then s
      else s.addIssue (if directoryData then .kDirectoryBlockMarkedFree else .kReferencedBlockMarkedFree) inode block 0
        "被引用块在块位图中未置位"
    match s.firstBlockReferences block with
    | some first => (s.addIssue .kDuplicateBlockReference inode block first.inodeNumber
        "同一物理块存在多个 inode 映射引用", true)
    | none => ({ s with firstBlockReferences := emplace s.firstBlockReferences block reference }, true)

/-- One pointer of inode `n`; the second component is the mapping of its logical blocks. -/
def scanPointer (n : ℕ) (directory : Bool) (missing beyond : String) (required : Bool) (logical block : ℕ)
    (s : Scan × List (Option ℕ)) : Scan × List (Option ℕ) :=
  if block = 0 then
    (if required then s.1.addIssue .kMissingRequiredBlock n 0 0 missing else s.1, s.2)
  else
    let scan := if required then s.1 else s.1.addIssue .kBlockPointerBeyondEnd n block 0 beyond
    let (scan, valid) := registerBlockReference sb d scan block n logical .kData directory
    (scan, if required && valid then s.2.set logical (some block) else s.2)

def scanDirect (n : ℕ) (v : InodeRecord) (s : Scan × List (Option ℕ)) : Scan × List (Option ℕ) :=
  (List.range kDirectBlockCount).foldl (fun s k =>
    scanPointer sb d n (S_ISDIR v.mode) "inode 缺少文件大小要求的直接数据块"
      "inode 在文件结尾之后仍有直接块指针"
      (k < min v.requiredBlocks kDirectBlockCount) k (v.directBlock k) s) s

def scanIndirect (n : ℕ) (v : InodeRecord) (s : Scan × List (Option ℕ)) : Scan × List (Option ℕ) :=
  (List.range kIndirectEntries).foldl (fun s k =>
    scanPointer sb d n (S_ISDIR v.mode) "inode 缺少文件大小要求的间接数据块"
      "间接索引块在文件结尾之后仍有数据块指针"
      (k < v.requiredBlocks - kDirectBlockCount) (kDirectBlockCount + k) (indirectPointer (d v.indirect) k) s) s

/-- The indirect block of an inode and the pointers in it. -/
def scanIndirectBlock (n : ℕ) (v : InodeRecord) (s : Scan × List (Option ℕ)) : Scan × List (Option ℕ) :=
  if v.indirect = 0 then
    (if v.requiredBlocks - kDirectBlockCount ≠ 0 then
      s.1.addIssue .kMissingRequiredBlock n 0 0 "inode 缺少文件大小要求的间接索引块" else s.1, s.2)
  else
    let scan := if v.requiredBlocks - kDirectBlockCount = 0 then
      s.1.addIssue .kBlockPointerBeyondEnd n v.indirect 0
        "inode 在文件结尾之后仍有不必要的间接索引块" else s.1
    match registerBlockReference sb d scan v.indirect n 0 .kIndirect false with
    | (scan, false) => ({ scan with blockReferenceScanComplete := false }, s.2)
    | (scan, true) => scanIndirect sb d n v (scan, s.2)

/-- All pointers of an inode. -/
def scanMapping (n : ℕ) (v : InodeRecord) (s : Scan) : Scan :=
  let (s, logicalBlocks) := scanIndirectBlock sb d n v (scanDirect sb d n v (s, List.replicate v.requiredBlocks none))
  { s with inodeLogicalBlocks := emplace s.inodeLogicalBlocks n logicalBlocks }

/-! ## Directories -/

/-- An active record: its name must be new in its directory. -/
def enterName (n physical : ℕ) (s : Scan) (e : DirectoryEntry) : Scan :=
  let s := if n = sb.rootInode.toNat then
    { s with report := { s.report with rootEntries := s.report.rootEntries ++ [e] } } else s
  if (s.directoryActiveNames n).contains e.name then
    { s with report := { s.report with issues := s.report.issues ++
      [⟨.kDuplicateDentryName, n, physical, e.inode.toNat, "目录中存在重复的有效名称: ",
        e.name, 0, 1, 0⟩] } }
  else { s with
    directoryActiveNames := update s.directoryActiveNames n (s.directoryActiveNames n ++ [e.name]) }

/-- Enter the edge of a record whose target is in the inode table. -/
def addEdge (n physical : ℕ) (s : Scan) (e : DirectoryEntry) : Scan :=
  { s with
    report := { s.report with
      directoryEdges := s.report.directoryEdges ++ [DirectoryEdge.mk n e.inode.toNat] }
    directoryEntryObservations := s.directoryEntryObservations ++ [DirectoryEntryObservation.mk n physical e]
    discovery := emplace s.discovery e.inode.toNat (n, physical) }

/-- One record of directory `n` in block `physical`. -/
def scanEntry (n physical : ℕ) (s : Scan) (e : DirectoryEntry) : Scan :=
  if e.inode = 0 then s
  else
    let s := enterName sb n physical s e
    if e.inode.toNat > sb.totalInodes.toNat then
      (s.addIssue .kDentryTargetOutOfRange n physical e.inode.toNat
        "目录项目标位于 inode 表范围之外").markPartial
    else
      let s := (addEdge n physical s e).enqueuePhysicalScan e.inode.toNat
      if sb.inodeBit d e.inode.toNat then s
      else s.addIssue .kDentryTargetInodeMarkedFree n physical e.inode.toNat
        "目录项目标在 inode 位图中未置位"

/-- The records of one logical block of directory `n`. -/
def scanBlock (n : ℕ) (s : Scan × Bool) (mapped : Option ℕ) : Scan × Bool :=
  match mapped with
  | none => (s.1.markPartial, false)
  | some physical =>
    let records := blockRecords "" (d physical) 0
    let scan := (records.1.map Prod.snd).foldl (scanEntry sb d n physical) s.1
    match records.2 with
    | some detail => ((scan.addIssue .kDirectoryRecordUndecodable n physical 0 detail).markPartial, false)
    | none => (scan, s.2)

def scanDirectory (n : ℕ) (v : InodeRecord) (s : Scan) : Scan :=
  if v.size.toNat % kBlockSize ≠ 0 then
    (s.addIssue .kDirectoryRecordUndecodable n 0 0
      "目录大小不是完整块大小的整数倍").markPartial.setComplete n false
  else
    let mapping := (s.inodeLogicalBlocks n).getD []
    if s.inodeLogicalBlocks n = none ∨ mapping.length ≠ v.size.toNat / kBlockSize then
      (s.addIssue .kDirectoryRecordUndecodable n 0 0
        "无法取得完整的目录逻辑块映射证据").markPartial.setComplete n false
    else
      let (s, complete) := mapping.foldl (scanBlock sb d n) (s, true)
      s.setComplete n complete

/-! ## Inodes -/

/-- An inode whose record does not decode. -/
def scanUndecodable (n : ℕ) (detail : String) (s : Scan) : Scan :=
  let s := if n = sb.rootInode.toNat then s.addIssue .kRootInodeUndecodable n 0 0 detail
    else match s.discovery n with
      | some (parent, block) => s.addIssue .kDentryTargetInodeUndecodable parent block n detail
      | none => s.addIssue .kAllocatedInodeUndecodable n 0 0 detail
  { s.markPartial with blockReferenceScanComplete := false, inodeReferenceScanComplete := false }

/-- A decoded inode is entered in the tables. -/
def recordInode (n : ℕ) (v : InodeRecord) (s : Scan) : Scan :=
  let s := { s with decodedInodes := s.decodedInodes.insert n v }
  if n = sb.rootInode.toNat then
    let s := { s with report := { s.report with rootInode := some v, rootInodeDecoded := true } }
    if S_ISDIR v.mode then s
    else (s.addIssue .kRootInodeNotDirectory n 0 0 "superblock 指定的根 inode 实际不是目录").markPartial
  else { s with report := { s.report with
    discoveredInodes := s.report.discoveredInodes ++ [⟨n, sb.inodeBit d n, v⟩] } }

def scanInode (n : ℕ) (s : Scan) : Scan :=
  match decodeInode (inodeSlot sb d n) n with
  | .error detail => scanUndecodable sb n detail s
  | .ok v =>
    let s := scanMapping sb d n v (recordInode sb d n v s)
    if S_ISDIR v.mode then scanDirectory sb d n v s else s

/-! ## The queue -/

/-- Inodes that may still be enqueued, and the queue. -/
def pending (s : Scan) : ℕ :=
  (Finset.range (sb.totalInodes.toNat + 1) \ s.physicalScan).card + s.physicalScanQueue.length

/-- Enqueueing takes an inode from the ones that may still come. -/
theorem pending_enqueue {s : Scan} {n : ℕ} (h : n ≤ sb.totalInodes.toNat) :
    (s.enqueuePhysicalScan n).pending sb = s.pending sb := by
  unfold enqueuePhysicalScan
  split_ifs with hn
  · rfl
  · have hmem : n ∈ Finset.range (sb.totalInodes.toNat + 1) \ s.physicalScan :=
      Finset.mem_sdiff.mpr ⟨Finset.mem_range.mpr (by omega), hn⟩
    have hcard := Finset.card_erase_add_one hmem
    simp only [pending, List.length_append, List.length_singleton, Finset.sdiff_insert]
    omega

theorem pending_registerBlockReference (s : Scan) (block inode logical : ℕ) (kind : BlockReferenceKind)
    (directoryData : Bool) :
    (registerBlockReference sb d s block inode logical kind directoryData).1.pending sb = s.pending sb := by
  unfold registerBlockReference
  dsimp only
  split_ifs <;> try rfl
  all_goals split <;> rfl

theorem pending_scanPointer (n : ℕ) (directory : Bool) (missing beyond : String) (required : Bool)
    (logical block : ℕ) (s : Scan × List (Option ℕ)) :
    (scanPointer sb d n directory missing beyond required logical block s).1.pending sb = s.1.pending sb := by
  unfold scanPointer
  split_ifs
  · rfl
  · rfl
  all_goals exact pending_registerBlockReference sb d _ block n logical .kData directory

theorem pending_scanDirect (n : ℕ) (v : InodeRecord) (s : Scan × List (Option ℕ)) :
    (scanDirect sb d n v s).1.pending sb = s.1.pending sb :=
  foldl_observe (fun s : Scan × List (Option ℕ) => s.1.pending sb)
    (fun s k => pending_scanPointer sb d n _ _ _ _ k _ s) (List.range kDirectBlockCount) s

theorem pending_scanIndirect (n : ℕ) (v : InodeRecord) (s : Scan × List (Option ℕ)) :
    (scanIndirect sb d n v s).1.pending sb = s.1.pending sb :=
  foldl_observe (fun s : Scan × List (Option ℕ) => s.1.pending sb)
    (fun s k => pending_scanPointer sb d n _ _ _ _ (kDirectBlockCount + k) _ s) (List.range kIndirectEntries) s

theorem pending_scanIndirectBlock (n : ℕ) (v : InodeRecord) (s : Scan × List (Option ℕ)) :
    (scanIndirectBlock sb d n v s).1.pending sb = s.1.pending sb := by
  unfold scanIndirectBlock
  by_cases h0 : v.indirect = 0
  · rw [if_pos h0]
    dsimp only
    split_ifs <;> rfl
  · rw [if_neg h0]
    have hscan : (if v.requiredBlocks - kDirectBlockCount = 0 then s.1.addIssue .kBlockPointerBeyondEnd n v.indirect 0
        "inode 在文件结尾之后仍有不必要的间接索引块" else s.1).pending sb = s.1.pending sb := by
      split_ifs <;> rfl
    have hreg := pending_registerBlockReference sb d (if v.requiredBlocks - kDirectBlockCount = 0 then
      s.1.addIssue .kBlockPointerBeyondEnd n v.indirect 0
        "inode 在文件结尾之后仍有不必要的间接索引块" else s.1)
      v.indirect n 0 .kIndirect false
    dsimp only
    split
    · next scan hr =>
      rw [hr] at hreg
      exact hreg.trans hscan
    · next scan hr =>
      rw [hr] at hreg
      exact (pending_scanIndirect sb d n v _).trans (hreg.trans hscan)

theorem pending_scanMapping (n : ℕ) (v : InodeRecord) (s : Scan) :
    (scanMapping sb d n v s).pending sb = s.pending sb :=
  (pending_scanIndirectBlock sb d n v _).trans (pending_scanDirect sb d n v _)

theorem pending_scanEntry (n physical : ℕ) (s : Scan) (e : DirectoryEntry) :
    (scanEntry sb d n physical s e).pending sb = s.pending sb := by
  have hname : (enterName sb n physical s e).pending sb = s.pending sb := by
    unfold enterName
    dsimp only
    split_ifs <;> rfl
  unfold scanEntry
  split_ifs with h0 ht hb
  · rfl
  · exact hname
  · exact (pending_enqueue sb (not_lt.mp ht)).trans hname
  · exact (pending_enqueue sb (not_lt.mp ht)).trans hname

theorem pending_scanBlock (n : ℕ) (s : Scan × Bool) (mapped : Option ℕ) :
    (scanBlock sb d n s mapped).1.pending sb = s.1.pending sb := by
  cases mapped with
  | none => rfl
  | some physical =>
    have hfold := foldl_observe (pending sb) (pending_scanEntry sb d n physical)
      ((blockRecords "" (d physical) 0).1.map Prod.snd) s.1
    unfold scanBlock
    dsimp only
    split <;> exact hfold

theorem pending_scanDirectory (n : ℕ) (v : InodeRecord) (s : Scan) :
    (scanDirectory sb d n v s).pending sb = s.pending sb := by
  unfold scanDirectory
  dsimp only
  split_ifs
  · rfl
  · rfl
  · exact foldl_observe (fun s : Scan × Bool => s.1.pending sb) (pending_scanBlock sb d n) _ (s, true)

theorem pending_scanInode (n : ℕ) (s : Scan) : (scanInode sb d n s).pending sb = s.pending sb := by
  have hrecord : ∀ v, (recordInode sb d n v s).pending sb = s.pending sb := by
    intro v
    unfold recordInode
    dsimp only
    split_ifs <;> rfl
  unfold scanInode
  split
  · unfold scanUndecodable
    dsimp only
    split_ifs
    · rfl
    · split <;> rfl
  · next v _ =>
    dsimp only
    split_ifs
    · exact (pending_scanDirectory sb d n v _).trans ((pending_scanMapping sb d n v _).trans (hrecord v))
    · exact (pending_scanMapping sb d n v _).trans (hrecord v)

/-- Look at the inodes of the queue until it is empty. -/
def scanQueue (s : Scan) : Scan :=
  match _h : s.physicalScanQueue with
  | [] => s
  | n :: rest =>
    let s' := { s with physicalScanQueue := rest }
    if n ∈ s.attemptedInodes then scanQueue s'
    else scanQueue (scanInode sb d n { s' with attemptedInodes := insert n s.attemptedInodes })
termination_by s.pending sb
decreasing_by
  · simp only [pending, _h, List.length_cons]
    omega
  · rw [pending_scanInode]
    simp only [pending, _h, List.length_cons]
    omega

/-- The scan before any inode is enqueued. -/
def blank (report : ConsistencyReport) : Scan :=
  { report := { report with status := .kComplete }, physicalScan := ∅, physicalScanQueue := []
    attemptedInodes := ∅, decodedInodes := ∅, directoryScanComplete := ∅, discovery := fun _ => none
    directoryActiveNames := fun _ => [], directoryEntryObservations := [], firstBlockReferences := fun _ => none
    inodeLogicalBlocks := fun _ => none, blockReferenceScanComplete := true, inodeReferenceScanComplete := true }

/-- The scan starts with the root and the allocated inodes. -/
def start (report : ConsistencyReport) : Scan :=
  ((List.range sb.totalInodes.toNat).map (· + 1)).foldl
    (fun s n => if sb.inodeBit d n then s.enqueuePhysicalScan n else s)
    ((blank report).enqueuePhysicalScan sb.rootInode.toNat)

end

end Scan

end Eufs
