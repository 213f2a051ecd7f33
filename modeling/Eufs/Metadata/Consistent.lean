import Eufs.Object.LedgerFormat
import Eufs.Storage.Reader

/-!
# Eufs.Metadata.Consistent — what a well-formed image is

An image stands for a tree of files.  This module reads the tree off the image without any order of scanning and
without recording failures: the allocated inodes and their records, the blocks of an inode, the entries of a
directory.  `Superblock.Consistent` says in these terms when the metadata of an image agree with each other.
-/

namespace Eufs

variable {v : InodeRecord} {d : Image} {k : ℕ}

namespace InodeRecord

/-- The pointer of logical block `k`: in the record, or in the indirect block. -/
def pointer (v : InodeRecord) (d : Image) (k : ℕ) : ℕ :=
  if k < kDirectBlockCount then v.directBlock k else indirectPointer (d v.indirect) (k - kDirectBlockCount)

/-- The data blocks of an inode, in logical order. -/
def blocks (v : InodeRecord) (d : Image) : List ℕ := (List.range v.requiredBlocks).map (v.pointer d)

/-- The data blocks and the indirect block. -/
def owned (v : InodeRecord) (d : Image) : List ℕ := v.blocks d ++ if v.indirect = 0 then [] else [v.indirect]

/-- Pointers are nonzero exactly where the size requires and lie in the data region. -/
structure Mapped (sb : Superblock) (v : InodeRecord) (d : Image) : Prop where
  direct : ∀ k < kDirectBlockCount, v.directBlock k ≠ 0 ↔ k < v.requiredBlocks
  indirect : v.indirect ≠ 0 ↔ kDirectBlockCount < v.requiredBlocks
  indirectEntries : v.indirect ≠ 0 →
    ∀ k < kIndirectEntries, indirectPointer (d v.indirect) k ≠ 0 ↔ k < v.requiredBlocks - kDirectBlockCount
  inData : ∀ b ∈ v.owned d, sb.data.start ≤ b ∧ b < sb.totalBlocks.toNat

theorem length_blocks (v : InodeRecord) (d : Image) : (v.blocks d).length = v.requiredBlocks := by
  rw [blocks, List.length_map, List.length_range]

theorem getElem?_blocks (v : InodeRecord) (d : Image) (l : ℕ) :
    (v.blocks d)[l]? = if l < v.requiredBlocks then some (v.pointer d l) else none := by
  rw [blocks, List.getElem?_map]
  by_cases h : l < v.requiredBlocks
  · rw [List.getElem?_range h, if_pos h]
    rfl
  · rw [List.getElem?_eq_none (by simpa using h), if_neg h]
    rfl

theorem mem_owned {b : ℕ} : b ∈ v.owned d ↔
    (∃ k < v.requiredBlocks, v.pointer d k = b) ∨ v.indirect ≠ 0 ∧ v.indirect = b := by
  rw [owned, List.mem_append, blocks, List.mem_map]
  refine or_congr ?_ ?_
  · simp only [List.mem_range]
  · by_cases h : v.indirect = 0
    · simp [h]
    · simp [h, eq_comm]

theorem pointer_mem_owned (hk : k < v.requiredBlocks) :
    v.pointer d k ∈ v.owned d := mem_owned.mpr (.inl ⟨k, hk, rfl⟩)

theorem indirect_mem_owned (h : v.indirect ≠ 0) : v.indirect ∈ v.owned d :=
  mem_owned.mpr (.inr ⟨h, rfl⟩)

theorem forall_mem_owned {P : ℕ → Prop} : (∀ b ∈ v.owned d, P b) ↔
    (∀ k < v.requiredBlocks, P (v.pointer d k)) ∧ (v.indirect ≠ 0 → P v.indirect) := by
  rw [owned, List.forall_mem_append, blocks, List.forall_mem_map]
  refine and_congr ?_ ?_
  · simp only [List.mem_range]
  · by_cases h : v.indirect = 0 <;> simp [h]

theorem pointer_of_lt (h : k < kDirectBlockCount) :
    v.pointer d k = v.directBlock k := if_pos h

theorem pointer_of_ge (h : kDirectBlockCount ≤ k) :
    v.pointer d k = indirectPointer (d v.indirect) (k - kDirectBlockCount) := if_neg (not_lt.mpr h)

theorem Valid.requiredBlocks_le (h : v.Valid) : v.requiredBlocks ≤ kDirectBlockCount + kIndirectEntries := by
  have hsize : v.size.toNat ≤ 1036 * 4096 := h.size
  show (v.size.toNat + 4096 - 1) / 4096 ≤ 1036
  omega

/-- The active records of a directory. -/
def entries (v : InodeRecord) (d : Image) : List DirectoryEntry := (v.blocks d).flatMap fun b => activeEntries (d b)

/-- Byte `i` of a file. -/
def byteAt (v : InodeRecord) (d : Image) (i : ℕ) : UInt8 := (d (v.pointer d (i / kBlockSize))).byte (i % kBlockSize)

/-- The bytes of a file. -/
def content (v : InodeRecord) (d : Image) : List UInt8 := (List.range v.size.toNat).map (v.byteAt d)

/-- Slot `k` of a ledger file, counted from 0. -/
def ledgerSlot (v : InodeRecord) (d : Image) (k : ℕ) : RequestLedgerBytes :=
  (d (v.pointer d (k * kRequestLedgerRecordSize / kBlockSize))).getBytes (k * kRequestLedgerRecordSize % kBlockSize)
    kRequestLedgerRecordSize

/-- The slots of a ledger file hold `records`, with different request ids, and then nothing. -/
structure LedgerHolds (v : InodeRecord) (d : Image) (records : List RequestLedgerRecord) : Prop where
  fits : records.length ≤ v.size.toNat / kRequestLedgerRecordSize
  ids : (records.map RequestLedgerRecord.requestId).Nodup
  slots : ∀ k < v.size.toNat / kRequestLedgerRecordSize,
    decodeRequestLedgerRecord (v.ledgerSlot d k) (UInt64.ofNat (k + 1)) = .ok records[k]?

end InodeRecord

namespace Superblock

variable (sb : Superblock) (d : Image)

/-! ## The tree of an image -/

/-- The allocated inodes. -/
def inodes : List ℕ := ((List.range sb.totalInodes.toNat).map (· + 1)).filter (sb.inodeBit d)

/-- The record of an inode. -/
def inodeAt (n : ℕ) : Option InodeRecord := (decodeInode (inodeSlot sb d n) n).toOption

def isDirectory (n : ℕ) : Bool := (sb.inodeAt d n).any fun v => S_ISDIR v.mode

/-- The blocks of an inode. -/
def ownedBy (n : ℕ) : List ℕ := ((sb.inodeAt d n).map fun v => v.owned d).getD []

/-- The entries of a directory; other inodes have none. -/
def entriesOf (n : ℕ) : List DirectoryEntry :=
  ((sb.inodeAt d n).map fun v => if S_ISDIR v.mode then v.entries d else []).getD []

/-- The references to blocks of all inodes. -/
def references : List ℕ := (sb.inodes d).flatMap (sb.ownedBy d)

/-- The entries of all directories. -/
def allEntries : List DirectoryEntry := (sb.inodes d).flatMap (sb.entriesOf d)

/-- How many entries point to an inode. -/
def entriesTo (n : ℕ) : ℕ := (sb.allEntries d).countP fun e => e.inode.toNat = n

/-- How many entries of an inode point to directories. -/
def childDirectories (n : ℕ) : ℕ := (sb.entriesOf d n).countP fun e => sb.isDirectory d e.inode.toNat

/-- Directory `a` has an entry for `b`. -/
def Contains (a b : ℕ) : Prop := a ∈ sb.inodes d ∧ ∃ e ∈ sb.entriesOf d a, e.inode.toNat = b

variable {sb d}

theorem mem_inodes {n : ℕ} : n ∈ sb.inodes d ↔
    1 ≤ n ∧ n ≤ sb.totalInodes.toNat ∧ sb.inodeBit d n = true := by
  simp only [inodes, List.mem_filter, List.mem_map, List.mem_range]
  constructor
  · rintro ⟨⟨k, hk, rfl⟩, hb⟩
    exact ⟨by omega, by omega, hb⟩
  · rintro ⟨h1, h2, hb⟩
    exact ⟨⟨n - 1, by omega, by omega⟩, hb⟩

theorem inodeAt_eq_some {n : ℕ} : sb.inodeAt d n = some v ↔ decodeInode (inodeSlot sb d n) n = .ok v := by
  unfold inodeAt
  cases decodeInode (inodeSlot sb d n) n <;> simp [Except.toOption]

variable (sb d)

theorem nodup_inodes : (sb.inodes d).Nodup :=
  (List.Nodup.map (fun _ _ h => Nat.succ_injective h) List.nodup_range).filter _

/-! ## Agreement of the metadata -/

/-- Whole blocks, records that decode, unique names and targets of the stated type. -/
structure DirectoryOk (v : InodeRecord) : Prop where
  size : v.size.toNat % kBlockSize = 0
  decodes : ∀ b ∈ v.blocks d, recordsDecode (d b)
  names : ((v.entries d).map DirectoryEntry.name).Nodup
  targets : ∀ e ∈ v.entries d, e.inode.toNat ∈ sb.inodes d ∧
    ∃ w, sb.inodeAt d e.inode.toNat = some w ∧ isDirectoryType e.fileType w.mode

/-- The ledger is one entry of the root for inode 2, whole blocks, and records followed by empty slots. -/
structure LedgerOk : Prop where
  entry : ∃ e, (sb.entriesOf d sb.rootInode.toNat).filter (fun e => e.name = kRequestLedgerName) = [e] ∧
    e.inode.toNat = kRequestLedgerInodeNumber ∧ e.fileType = .kRegular
  size : ∀ v, sb.inodeAt d kRequestLedgerInodeNumber = some v → v.size.toNat ≠ 0 ∧ v.size.toNat % kBlockSize = 0
  slots : ∀ v, sb.inodeAt d kRequestLedgerInodeNumber = some v → ∃ records, v.LedgerHolds d records

/-- The reserved bits of the bitmaps are set. -/
@[mk_iff]
structure Reserved : Prop where
  metadata : ∀ b < sb.data.start, sb.blockBit d b
  inodeTail : ∀ k < sb.inodeBitmap.count * kBlockSize * 8, sb.totalInodes.toNat ≤ k →
    (loadBitmap d sb.inodeBitmap.start).testBit k
  blockTail : ∀ k < sb.blockBitmap.count * kBlockSize * 8, sb.totalBlocks.toNat ≤ k → sb.blockBit d k

/-- The bitmaps, the inodes and the directories of an image agree. -/
structure Sound : Prop extends sb.Reserved d where
  inode : ∀ n ∈ sb.inodes d, ∃ v, sb.inodeAt d n = some v ∧ v.Mapped sb d
  referenced : ∀ b, sb.data.start ≤ b → b < sb.totalBlocks.toNat → (sb.blockBit d b ↔ b ∈ sb.references d)
  once : (sb.references d).Nodup
  directory : ∀ n ∈ sb.inodes d, ∀ v, sb.inodeAt d n = some v → S_ISDIR v.mode → sb.DirectoryOk d v
  root : sb.rootInode.toNat ∈ sb.inodes d ∧ sb.isDirectory d sb.rootInode.toNat
  rootTop : ∀ e ∈ sb.allEntries d, e.inode ≠ sb.rootInode
  named : ∀ n ∈ sb.inodes d, n ≠ sb.rootInode.toNat →
    sb.entriesTo d n = 1 ∧ Relation.ReflTransGen (sb.Contains d) sb.rootInode.toNat n
  links : ∀ n ∈ sb.inodes d, ∀ v, sb.inodeAt d n = some v → v.linkCount.toNat =
    if S_ISREG v.mode then 1
    else if n = sb.rootInode.toNat then 2 + sb.childDirectories d n
    else 1 + sb.entriesTo d n + sb.childDirectories d n

/-- The image declares a request ledger. -/
abbrev HasLedger : Prop := sb.featureIncompat &&& kFeatureIncompatRequestLedger ≠ 0

/-- The metadata of an image agree, and the request ledger is in order when the image declares one. -/
structure Consistent : Prop extends sb.Sound d where
  ledger : sb.HasLedger → sb.LedgerOk d

end Superblock

end Eufs
