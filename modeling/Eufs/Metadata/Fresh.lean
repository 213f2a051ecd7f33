import Eufs.Format.Insert
import Eufs.Metadata.Reading
import Eufs.Storage.Formatted

/-!
# Eufs.Metadata.Fresh — a formatted image is well formed

The tree of a formatted image has the root and, with a request ledger, the ledger's file with empty slots.  Every
block before the data region and the blocks of the two inodes are allocated, and nothing else.
-/

namespace Eufs

open Superblock InodeRecord Region Bitmap

variable {k : ℕ}

theorem directBlock_ofFn {v : InodeRecord} {f : ℕ → UInt32} (h : v.directBlocks = Vector.ofFn fun i => f i.val)
    (hk : k < kDirectBlockCount) : v.directBlock k = (f k).toNat := by
  have hk' : k < 12 := hk
  simp [directBlock, h, hk']

theorem Bitmap.testBit_foldl_setBit (f : ℕ → ℕ) (j : ℕ) : ∀ (l : List ℕ) (bm : Bitmap),
    (l.foldl (fun bm k => bm.setBit (f k)) bm).testBit j = (decide (j ∈ l.map f) || bm.testBit j)
  | [], bm => by simp
  | k :: l, bm => by
    rw [List.foldl_cons, testBit_foldl_setBit f j l, testBit_setBit, ← Bool.or_assoc]
    congr 1
    by_cases h1 : j = f k <;> by_cases h2 : j ∈ l.map f <;> simp [h1, h2]

/-- The data blocks in use after formatting. -/
def RequestLedgerGeometry.occupied (g : RequestLedgerGeometry) : ℕ :=
  if g.enabled then 1 + g.dataBlockCount + if 12 < g.dataBlockCount then 1 else 0 else 0

/-- The record of the ledger's entry fills its block. -/
def formattedEntry : DirectoryEntry := { ledgerEntry with recordLength := UInt16.ofNat kBlockSize }

namespace Formatted

variable {options : MkfsOptions} {sb : Superblock} {g : RequestLedgerGeometry} {host : MkfsHost} {base d : Image}
  (h : Formatted sb g host base d) (hl : Layout options sb g)

include h hl

/-! ## Bitmaps -/

theorem inodeBit_eq (hk : k < sb.inodeBitmap.count * kBlockSize * 8) :
    (loadBitmap d sb.inodeBitmap.start).testBit k =
      (decide (sb.totalInodes.toNat ≤ k) || decide (k = 0) || (decide (g.enabled) && decide (k = 1))) := by
  have hroot : sb.rootInode.toNat - 1 = 0 := by rw [hl.root]; rfl
  have hled : kRequestLedgerInodeNumber - 1 = 1 := rfl
  have hzero : testBit (fun _ => 0) k = false := by simp [testBit]
  rw [testBit_congr (loadBitmap_of_blocks h.inodeBitmap (by omega)), formattedInodeBitmap]
  by_cases he : g.enabled
  · simp only [he, if_true, testBit_reserveBitmapTail, testBit_setBit, hroot, hled, hzero]
    by_cases h0 : k = 0 <;> by_cases h1 : k = 1 <;> simp [h0, h1]
  · simp only [he, if_false, testBit_reserveBitmapTail, testBit_setBit, hroot, hzero]
    simp

theorem blockBit_eq {b : ℕ} (hb : b < sb.blockBitmap.count * kBlockSize * 8) :
    sb.blockBit d b = (decide (sb.totalBlocks.toNat ≤ b) || decide (b < sb.data.start + g.occupied)) := by
  have hzero : testBit (fun _ => 0) b = false := by simp [testBit]
  rw [blockBit, testBit_congr (loadBitmap_of_blocks h.blockBitmap (by omega)), formattedBlockBitmap]
  unfold RequestLedgerGeometry.occupied
  by_cases he : g.enabled
  · have hf := hl.ledger he
    have hmem : ∀ j, j ∈ (List.range g.dataBlockCount).map (g.firstDataBlock + ·) ↔
        sb.data.start + 1 ≤ j ∧ j < sb.data.start + 1 + g.dataBlockCount := by
      intro j
      rw [List.mem_map, hf.first]
      constructor
      · rintro ⟨k, hk, rfl⟩
        have := List.mem_range.mp hk
        omega
      · intro hj
        exact ⟨j - (sb.data.start + 1), List.mem_range.mpr (by omega), by omega⟩
    simp only [he, if_true, testBit_reserveBitmapTail]
    congr 1
    by_cases h12 : 12 < g.dataBlockCount
    · have hi : g.indirectBlock = sb.data.start + 1 + g.dataBlockCount := by rw [hf.indirect, if_pos h12]
      rw [if_pos (by omega), testBit_setBit, testBit_foldl_setBit, testBit_setBit,
        testBit_setBitmapPrefix rfl, hzero, hf.root, hi, if_pos h12]
      simp only [hmem, Bool.or_false, ← Bool.decide_or, decide_eq_decide]
      omega
    · have hi : g.indirectBlock = 0 := by rw [hf.indirect, if_neg h12]
      rw [if_neg (by simp [hi]), testBit_foldl_setBit, testBit_setBit,
        testBit_setBitmapPrefix rfl, hzero, hf.root, if_neg h12]
      simp only [hmem, Bool.or_false, ← Bool.decide_or, decide_eq_decide]
      omega
  · simp only [he, if_false, testBit_reserveBitmapTail, Nat.add_zero]
    rw [testBit_setBitmapPrefix rfl, hzero, Bool.or_false]

/-! ## Inodes -/

omit h in
theorem root_eq : sb.rootInode.toNat = 1 := by
  rw [hl.root]
  rfl

theorem mem_inodes_iff {n : ℕ} : n ∈ sb.inodes d ↔ n = 1 ∨ g.enabled ∧ n = 2 := by
  have hroot := hl.regions.root
  have hcount : sb.totalInodes.toNat ≤ sb.inodeBitmap.count * 4096 * 8 := by
    rw [hl.regions.inodeBitmap_count]
    show _ ≤ (sb.totalInodes.toNat + 4096 * 8 - 1) / (4096 * 8) * 4096 * 8
    omega
  have hled : g.enabled → 2 < sb.totalInodes.toNat := fun he => (hl.ledger he).inodes
  rw [mem_inodes]
  constructor
  · rintro ⟨h1, h2, hb⟩
    rw [inodeBit, h.inodeBit_eq hl (by show _ < _ * 4096 * 8; omega)] at hb
    simp only [Bool.or_eq_true, Bool.and_eq_true, decide_eq_true_eq] at hb
    rcases hb with (hb | hb) | ⟨he, hb⟩
    · omega
    · exact .inl (by omega)
    · exact .inr ⟨he, by omega⟩
  · intro hn
    have hle : 1 ≤ n ∧ n ≤ sb.totalInodes.toNat := by
      rcases hn with rfl | ⟨he, rfl⟩
      · omega
      · have := hled he
        omega
    refine ⟨hle.1, hle.2, ?_⟩
    rw [inodeBit, h.inodeBit_eq hl (by show _ < _ * 4096 * 8; omega)]
    rcases hn with rfl | ⟨he, rfl⟩
    · simp
    · simp [he]

theorem inodes_perm : (sb.inodes d).Perm (if g.enabled then [1, 2] else [1]) := by
  refine (List.perm_ext_iff_of_nodup (nodup_inodes sb d) ?_).mpr fun n => ?_
  · split_ifs <;> simp
  · rw [h.mem_inodes_iff hl]
    by_cases he : g.enabled <;> simp [he]

theorem rootAt : sb.inodeAt d 1 = some (formattedRoot sb g host) := by
  have hnum : (formattedRoot sb g host).inodeNumber.toNat = 1 := root_eq hl
  have hdec := decodeInode_inodeBytes h.root.1
  have hslot := h.root.2
  rw [root_eq hl] at hslot
  rw [hnum] at hdec
  rw [inodeAt_eq_some]
  show decodeInode ((d sb.inodeTable.start).getBytes ((1 - 1) * kInodeRecordSize) kInodeRecordSize) 1 = _
  rw [hslot]
  exact hdec

omit hl in
theorem ledgerAt (he : g.enabled) : sb.inodeAt d 2 = some (formattedLedger sb g host) := by
  obtain ⟨hvalid, hslot⟩ := h.ledger he
  rw [inodeAt_eq_some]
  show decodeInode ((d sb.inodeTable.start).getBytes ((kRequestLedgerInodeNumber - 1) * kInodeRecordSize)
    kInodeRecordSize) 2 = _
  rw [hslot]
  exact decodeInode_inodeBytes hvalid

/-! ## The root -/

omit h hl in
theorem root_requiredBlocks : (formattedRoot sb g host).requiredBlocks = if g.enabled then 1 else 0 := by
  unfold InodeRecord.requiredBlocks formattedRoot
  by_cases he : g.enabled <;> simp only [he, if_true, if_false] <;> rfl

omit h in
theorem root_directBlock (hk : k < kDirectBlockCount) :
    (formattedRoot sb g host).directBlock k = if g.enabled ∧ k = 0 then sb.data.start else 0 := by
  rw [directBlock_ofFn (f := fun k => if g.enabled ∧ k = 0 then UInt32.ofNat g.rootDirectoryBlock else 0) rfl hk]
  split_ifs with hc
  · rw [(hl.ledger hc.1).root]
    exact UInt32.toNat_ofNat_of_lt' sb.data.startBlock.toNat_lt
  · rfl

omit h in
theorem root_owned : (formattedRoot sb g host).owned d = if g.enabled then [sb.data.start] else [] := by
  have h0 : (formattedRoot sb g host).indirect = 0 := rfl
  rw [owned, if_pos h0, List.append_nil, blocks, root_requiredBlocks]
  by_cases he : g.enabled
  · rw [if_pos he, if_pos he, List.range_one, List.map_singleton, pointer_of_lt (by decide),
      root_directBlock hl (by decide), if_pos ⟨he, rfl⟩]
  · rw [if_neg he, if_neg he]
    rfl

omit h in
theorem root_mapped : (formattedRoot sb g host).Mapped sb d := by
  have h0 : (formattedRoot sb g host).indirect = 0 := rfl
  have hdata := hl.regions.data_count
  have hstop := hl.regions.data_stop
  have hpos : sb.data.start ≠ 0 := by
    obtain ⟨h1, h2, h3, h4, h5, h6, -, -⟩ := hl.regions.chain
    omega
  refine ⟨fun k hk => ?_, ?_, fun hc => absurd h0 hc, fun b hb => ?_⟩
  · rw [root_directBlock hl hk, root_requiredBlocks]
    by_cases he : g.enabled
    · by_cases hk0 : k = 0
      · simp [he, hk0, hpos]
      · simp [he, hk0]
    · simp [he]
  · rw [root_requiredBlocks, h0]
    have : kDirectBlockCount = 12 := rfl
    split_ifs <;> omega
  · rw [root_owned hl] at hb
    split_ifs at hb
    · rw [List.mem_singleton] at hb
      rw [stop] at hstop
      omega
    · exact absurd hb List.not_mem_nil

/-- The directory block of a new image holds the entry of the ledger. -/
theorem root_records (he : g.enabled) : blockRecords "" (d sb.data.start) 0 =
    ([(0, formattedEntry)], none) := by
  have henc := h.directory he
  rw [(hl.ledger he).root] at henc
  have hfits := fits_of_encodeDirectoryEntry henc
  rw [encodeDirectoryEntry_of_fits hfits] at henc
  have hdec := decode_write hfits (Bytes.zero kBlockSize)
  rw [Except.ok.inj henc] at hdec
  rw [blockRecords_of_ok (by decide) hdec, blockRecords_of_ge (by decide)]
  rfl

theorem root_entries : (formattedRoot sb g host).entries d =
    if g.enabled then [formattedEntry] else [] := by
  have h0 : (formattedRoot sb g host).indirect = 0 := rfl
  have howned : (formattedRoot sb g host).owned d = _ := root_owned hl
  rw [owned, if_pos h0, List.append_nil] at howned
  rw [entries, howned]
  by_cases he : g.enabled
  · rw [if_pos he, if_pos he, List.flatMap_singleton, activeEntries, h.root_records hl he]
    rfl
  · rw [if_neg he, if_neg he]
    rfl

/-! ## The ledger -/

omit h in
theorem ledger_size (he : g.enabled) : (formattedLedger sb g host).size.toNat = g.dataBlockCount * 4096 := by
  have hf := hl.ledger he
  have hlimit := hf.limit
  have : (formattedLedger sb g host).size.toNat = g.fileSize :=
    UInt64.toNat_ofNat_of_lt' (by rw [hf.size]; show _ < 18446744073709551616; omega)
  rw [this, hf.size]

omit h in
theorem ledger_requiredBlocks (he : g.enabled) : (formattedLedger sb g host).requiredBlocks = g.dataBlockCount := by
  unfold InodeRecord.requiredBlocks
  rw [ledger_size hl he]
  show (g.dataBlockCount * 4096 + 4096 - 1) / 4096 = _
  omega

omit h in
theorem ledger_indirect (he : g.enabled) : (formattedLedger sb g host).indirect =
    if 12 < g.dataBlockCount then sb.data.start + 1 + g.dataBlockCount else 0 := by
  have hf := hl.ledger he
  have hroom := hf.room
  have hstop := hl.regions.data_stop
  have hlt := sb.totalBlocks.toNat_lt
  rw [stop] at hstop
  rw [← hf.indirect]
  refine UInt32.toNat_ofNat_of_lt' ?_
  show g.indirectBlock < 4294967296
  rw [hf.indirect]
  split_ifs at hroom ⊢ <;> omega

omit h in
theorem toNat_ledgerBlock (he : g.enabled) (hk : k < g.dataBlockCount) :
    (UInt32.ofNat (g.firstDataBlock + k)).toNat = sb.data.start + 1 + k := by
  have hf := hl.ledger he
  have hroom := hf.room
  have hstop := hl.regions.data_stop
  have hlt := sb.totalBlocks.toNat_lt
  rw [stop] at hstop
  rw [hf.first]
  exact UInt32.toNat_ofNat_of_lt' (by show _ < 4294967296; omega)

omit h in
theorem ledger_directBlock (he : g.enabled) (hk : k < kDirectBlockCount) :
    (formattedLedger sb g host).directBlock k = if k < g.dataBlockCount then sb.data.start + 1 + k else 0 := by
  rw [directBlock_ofFn (f := fun k => if k < g.dataBlockCount then UInt32.ofNat (g.firstDataBlock + k) else 0) rfl hk]
  split_ifs with hc
  · exact toNat_ledgerBlock hl he hc
  · rfl

theorem ledger_indirectPointer (he : g.enabled) (h12 : 12 < g.dataBlockCount) (k : ℕ) :
    indirectPointer (d (formattedLedger sb g host).indirect) k =
      if k < g.dataBlockCount - 12 then sb.data.start + 1 + 12 + k else 0 := by
  have hf := hl.ledger he
  have hi : (formattedLedger sb g host).indirect = _ := ledger_indirect hl he
  have hne : g.indirectBlock ≠ 0 := by
    rw [hf.indirect, if_pos h12]
    omega
  rw [hi, ← hf.indirect, h.indirect he hne, formattedIndirect,
    indirectPointer_fill (f := fun i => UInt32.ofNat (g.firstDataBlock + kDirectBlockCount + i))
      (show g.dataBlockCount - 12 ≤ 1024 by have := hf.limit; omega)]
  show (if k < g.dataBlockCount - 12 then _ else 0) = _
  split_ifs with hk
  · rw [show g.firstDataBlock + kDirectBlockCount + k = g.firstDataBlock + (12 + k) from Nat.add_assoc _ _ _,
      toNat_ledgerBlock hl he (by omega)]
    omega
  · rfl

theorem ledger_pointer (he : g.enabled) (hk : k < g.dataBlockCount) :
    (formattedLedger sb g host).pointer d k = sb.data.start + 1 + k := by
  have h12 : kDirectBlockCount = 12 := rfl
  by_cases hd : k < kDirectBlockCount
  · rw [pointer_of_lt hd, ledger_directBlock hl he hd, if_pos hk]
  · rw [pointer_of_ge (not_lt.mp hd), h.ledger_indirectPointer hl he (by omega), if_pos (by omega)]
    omega

theorem ledger_owned (he : g.enabled) :
    (formattedLedger sb g host).owned d = List.range' (sb.data.start + 1) (g.occupied - 1) := by
  have hblocks : (formattedLedger sb g host).blocks d = List.range' (sb.data.start + 1) g.dataBlockCount := by
    rw [blocks, ledger_requiredBlocks hl he, List.range'_eq_map_range]
    refine List.map_congr_left fun k hk => ?_
    exact h.ledger_pointer hl he (List.mem_range.mp hk)
  rw [owned, hblocks, ledger_indirect hl he, RequestLedgerGeometry.occupied, if_pos he]
  by_cases h12 : 12 < g.dataBlockCount
  · rw [if_pos h12, if_pos h12, if_neg (by omega), show 1 + g.dataBlockCount + 1 - 1 = g.dataBlockCount + 1 by omega,
      List.range'_concat, Nat.one_mul]
  · rw [if_neg h12, if_neg h12, if_pos rfl, List.append_nil]
    congr 1
    omega

omit h in
theorem occupied_le : g.occupied ≤ sb.data.count := by
  unfold RequestLedgerGeometry.occupied
  split_ifs with he h12
  · have := (hl.ledger he).room
    rw [if_pos h12] at this
    omega
  · have := (hl.ledger he).room
    rw [if_neg h12] at this
    omega
  · omega

theorem ledger_mapped (he : g.enabled) : (formattedLedger sb g host).Mapped sb d := by
  have hf := hl.ledger he
  have hi : (formattedLedger sb g host).indirect = _ := ledger_indirect hl he
  have h12 : kDirectBlockCount = 12 := rfl
  refine ⟨fun k hk => ?_, ?_, fun hne k hk => ?_, fun b hb => ?_⟩
  · rw [ledger_directBlock hl he hk, ledger_requiredBlocks hl he]
    split_ifs <;> omega
  · rw [hi, ledger_requiredBlocks hl he, h12]
    split_ifs <;> omega
  · have hlt : 12 < g.dataBlockCount := by
      by_contra hc
      rw [hi, if_neg hc] at hne
      exact hne rfl
    rw [h.ledger_indirectPointer hl he hlt, ledger_requiredBlocks hl he, h12]
    split_ifs <;> omega
  · rw [h.ledger_owned hl he, List.mem_range'_1] at hb
    have hocc := occupied_le hl
    have hstop := hl.regions.data_stop
    rw [stop] at hstop
    omega

theorem ledger_holds (he : g.enabled) : (formattedLedger sb g host).LedgerHolds d [] := by
  refine ⟨Nat.zero_le _, List.nodup_nil, fun k hk => ?_⟩
  have hb : kBlockSize = 4096 := rfl
  have hs : kRequestLedgerRecordSize = 128 := rfl
  have hsize : (formattedLedger sb g host).size.toNat = _ := ledger_size hl he
  have hk' : k * 128 / 4096 < g.dataBlockCount := by
    rw [hsize, hs] at hk
    omega
  have hlimit := (hl.ledger he).limit
  have hzero : (formattedLedger sb g host).ledgerSlot d k = Bytes.zero _ := by
    refine Bytes.ext_byte fun i hi => ?_
    rw [ledgerSlot, Bytes.byte_getBytes hi, h.ledger_pointer hl he hk', ← (hl.ledger he).first,
      h.slots he _ hk', Bytes.byte_zero, Bytes.byte_zero]
  rw [hzero, decodeRequestLedgerRecord_zero]
  · rfl
  · intro hc
    have hnum := congrArg UInt64.toNat hc
    rw [UInt64.toNat_ofNat_of_lt' (by
      rw [hsize, hs] at hk
      show k + 1 < 18446744073709551616
      omega)] at hnum
    exact absurd hnum (by simp)

/-! ## The tree -/

theorem ownedBy_root : sb.ownedBy d 1 = if g.enabled then [sb.data.start] else [] := by
  rw [ownedBy, h.rootAt hl]
  exact root_owned hl

theorem references_perm : (sb.references d).Perm (List.range' sb.data.start g.occupied) := by
  refine ((h.inodes_perm hl).flatMap_right _).trans (List.Perm.of_eq ?_)
  by_cases he : g.enabled
  · have hocc : g.occupied = g.occupied - 1 + 1 := by
      rw [RequestLedgerGeometry.occupied, if_pos he]
      omega
    have hledger : sb.ownedBy d 2 = List.range' (sb.data.start + 1) (g.occupied - 1) := by
      rw [ownedBy, h.ledgerAt he]
      exact h.ledger_owned hl he
    rw [if_pos he, List.flatMap_cons, List.flatMap_singleton, h.ownedBy_root hl, if_pos he, hledger, hocc,
      List.range'_succ]
    rfl
  · rw [if_neg he, List.flatMap_singleton, h.ownedBy_root hl, if_neg he, RequestLedgerGeometry.occupied, if_neg he]
    rfl

omit h hl in
theorem root_isDir : S_ISDIR (formattedRoot sb g host).mode := by
  show S_ISDIR (S_IFDIR ||| 0o755)
  decide

omit h hl in
theorem ledger_isReg : S_ISREG (formattedLedger sb g host).mode := by
  show S_ISREG (S_IFREG ||| 0o600)
  decide

theorem entriesOf_root : sb.entriesOf d 1 =
    if g.enabled then [formattedEntry] else [] := by
  rw [entriesOf, h.rootAt hl, Option.map_some, Option.getD_some, if_pos root_isDir, h.root_entries hl]

theorem allEntries_perm : (sb.allEntries d).Perm
    (if g.enabled then [formattedEntry] else []) := by
  refine ((h.inodes_perm hl).flatMap_right _).trans (List.Perm.of_eq ?_)
  by_cases he : g.enabled
  · have hledger : sb.entriesOf d 2 = [] := by
      rw [entriesOf, h.ledgerAt he, Option.map_some, Option.getD_some,
        if_neg (not_isDir_of_isReg ledger_isReg)]
    rw [if_pos he, List.flatMap_cons, List.flatMap_singleton, h.entriesOf_root hl, if_pos he, hledger]
    rfl
  · rw [if_neg he, List.flatMap_singleton, h.entriesOf_root hl, if_neg he]

theorem mem_allEntries {e : DirectoryEntry} : e ∈ sb.allEntries d ↔
    g.enabled ∧ e = formattedEntry := by
  rw [(h.allEntries_perm hl).mem_iff]
  by_cases he : g.enabled <;> simp [he]

omit hl in
theorem isDirectory_ledger (he : g.enabled) : sb.isDirectory d 2 = false := by
  rw [isDirectory, h.ledgerAt he]
  exact decide_eq_false (not_isDir_of_isReg ledger_isReg)

theorem root_directoryOk : sb.DirectoryOk d (formattedRoot sb g host) := by
  refine ⟨?_, fun b hb => ?_, ?_, fun e hmem => ?_⟩
  · show (if g.enabled then UInt64.ofNat kBlockSize else 0).toNat % kBlockSize = 0
    split_ifs <;> rfl
  · have hb' := List.mem_append_left (if (formattedRoot sb g host).indirect = 0 then [] else
      [(formattedRoot sb g host).indirect]) hb
    rw [← owned, root_owned hl] at hb'
    by_cases he : g.enabled
    · rw [if_pos he, List.mem_singleton] at hb'
      rw [hb', recordsDecode, h.root_records hl he]
    · rw [if_neg he] at hb'
      exact absurd hb' List.not_mem_nil
  · rw [h.root_entries hl]
    split_ifs <;> simp
  · rw [h.root_entries hl] at hmem
    by_cases he : g.enabled
    · rw [if_pos he, List.mem_singleton] at hmem
      subst hmem
      exact ⟨(h.mem_inodes_iff hl).mpr (.inr ⟨he, rfl⟩), _, h.ledgerAt he, ledger_isReg⟩
    · rw [if_neg he] at hmem
      exact absurd hmem List.not_mem_nil

theorem sound : sb.Sound d := by
  have hroot := root_eq hl
  obtain ⟨-, -, -, -, -, hdata, -, hstop⟩ := hl.regions.chain
  have hcap : sb.totalBlocks.toNat ≤ sb.blockBitmap.count * 4096 * 8 := by
    rw [hl.regions.blockBitmap_count]
    show _ ≤ (sb.totalBlocks.toNat + 4096 * 8 - 1) / (4096 * 8) * 4096 * 8
    omega
  have hbit : ∀ b < sb.totalBlocks.toNat, sb.blockBit d b = decide (b < sb.data.start + g.occupied) := by
    intro b hb
    rw [h.blockBit_eq hl (by show _ < _ * 4096 * 8; omega), decide_eq_false (by omega), Bool.false_or]
  refine ⟨⟨fun b hb => ?_, fun k hk hle => ?_, fun k hk hle => ?_⟩, fun n hn => ?_, fun b h1 h2 => ?_, ?_,
    fun n hn v hv hdir => ?_, ?_, fun e hmem => ?_, fun n hn hne => ?_, fun n hn v hv => ?_⟩
  · rw [hbit b (by omega)]
    exact decide_eq_true (by omega)
  · rw [h.inodeBit_eq hl hk]
    simp [hle]
  · rw [h.blockBit_eq hl hk]
    simp [hle]
  · rcases (h.mem_inodes_iff hl).mp hn with rfl | ⟨he, rfl⟩
    · exact ⟨_, h.rootAt hl, root_mapped hl⟩
    · exact ⟨_, h.ledgerAt he, h.ledger_mapped hl he⟩
  · rw [hbit b h2, (h.references_perm hl).mem_iff, List.mem_range'_1, decide_eq_true_eq]
    omega
  · exact (h.references_perm hl).nodup_iff.mpr List.nodup_range'
  · rcases (h.mem_inodes_iff hl).mp hn with rfl | ⟨he, rfl⟩
    · obtain rfl := Option.some.inj ((h.rootAt hl).symm.trans hv)
      exact h.root_directoryOk hl
    · obtain rfl := Option.some.inj ((h.ledgerAt he).symm.trans hv)
      exact absurd hdir (not_isDir_of_isReg ledger_isReg)
  · rw [hroot, isDirectory, h.rootAt hl]
    exact ⟨(h.mem_inodes_iff hl).mpr (.inl rfl), decide_eq_true root_isDir⟩
  · obtain ⟨he, rfl⟩ := (h.mem_allEntries hl).mp hmem
    rw [hl.root]
    decide
  · rw [hroot] at hne ⊢
    obtain ⟨he, rfl⟩ := ((h.mem_inodes_iff hl).mp hn).resolve_left hne
    refine ⟨?_, .single ⟨(h.mem_inodes_iff hl).mpr (.inl rfl), ?_⟩⟩
    · rw [entriesTo, (h.allEntries_perm hl).countP_eq, if_pos he]
      rfl
    · rw [h.entriesOf_root hl, if_pos he]
      exact ⟨_, List.mem_singleton_self _, rfl⟩
  · rcases (h.mem_inodes_iff hl).mp hn with rfl | ⟨he, rfl⟩
    · obtain rfl := Option.some.inj ((h.rootAt hl).symm.trans hv)
      have hchild : sb.childDirectories d 1 = 0 := by
        rw [childDirectories, h.entriesOf_root hl]
        by_cases he : g.enabled
        · rw [if_pos he, List.countP_singleton]
          show (if sb.isDirectory d 2 = true then 1 else 0) = 0
          rw [h.isDirectory_ledger he]
          rfl
        · rw [if_neg he]
          rfl
      rw [if_neg (fun hc => absurd root_isDir (not_isDir_of_isReg hc)), if_pos hroot.symm, hchild]
      rfl
    · obtain rfl := Option.some.inj ((h.ledgerAt he).symm.trans hv)
      rw [if_pos ledger_isReg]
      rfl

theorem consistent : sb.Consistent d := by
  refine ⟨h.sound hl, fun hf => ?_⟩
  have he : g.enabled := by
    by_contra hc
    rw [HasLedger, hl.features, if_neg hc] at hf
    exact hf rfl
  refine ⟨⟨formattedEntry, ?_, rfl, rfl⟩, fun v hv => ?_, fun v hv => ?_⟩
  · rw [root_eq hl, h.entriesOf_root hl, if_pos he]
    rfl
  · obtain rfl := Option.some.inj ((h.ledgerAt he).symm.trans hv)
    have hpos := (hl.ledger he).pos
    rw [ledger_size hl he]
    show g.dataBlockCount * 4096 ≠ 0 ∧ g.dataBlockCount * 4096 % 4096 = 0
    omega
  · obtain rfl := Option.some.inj ((h.ledgerAt he).symm.trans hv)
    exact ⟨[], h.ledger_holds hl he⟩

end Formatted

/-! ## A small image with a ledger -/

/-- Thirty-two blocks, twelve of them journal, and a ledger of thirty-two slots in one block. -/
def ledgerOptions : MkfsOptions := ⟨"eufs.img", 131072, 32, 12, 32, false⟩

def ledgerGeometry : RequestLedgerGeometry := ⟨32, 1, 16, 17, 0, 4096⟩

def ledgerSuperblock : Superblock :=
  formattedSuperblock ⟨32, 32, 1, ⟨1, 1⟩, ⟨2, 1⟩, ⟨3, 1⟩, ⟨4, 12⟩, ⟨16, 16⟩, 0, 0, 1,
    Bytes.zero 16, 0⟩ sampleHost 0

/-- The blocks that formatting writes. -/
def ledgerFormatBytes : FormatBytes :=
  ⟨inodeBytes (formattedRoot ledgerSuperblock ledgerGeometry sampleHost),
    inodeBytes (formattedLedger ledgerSuperblock ledgerGeometry sampleHost),
    (Bytes.zero kBlockSize).write 0 (recordBytes ledgerEntry (UInt16.ofNat kBlockSize)),
    controlBytes (formattedControl ledgerSuperblock)⟩

/-- The image that formatting a new file with these options gives. -/
def ledgerImage : Image :=
  formattedImage ledgerSuperblock ledgerGeometry ledgerFormatBytes
    ((encodeSuperblock ledgerSuperblock).toOption.getD (Bytes.zero _)) fun _ => Bytes.zero _

theorem ledgerLayout : Layout ledgerOptions ledgerSuperblock ledgerGeometry :=
  (@formatLayout_ok ledgerOptions _ _ (by rfl)).identity sampleHost 0

theorem formatBytes_ledger : formatBytes ledgerSuperblock ledgerGeometry sampleHost = .ok ledgerFormatBytes := by
  have hroot : encodeInode (formattedRoot ledgerSuperblock ledgerGeometry sampleHost) =
      .ok (inodeBytes (formattedRoot ledgerSuperblock ledgerGeometry sampleHost)) :=
    encodeInode_eq_ok.mpr ⟨⟨by decide, Or.inr (by decide), by decide⟩, rfl⟩
  have hledger : encodeInode (formattedLedger ledgerSuperblock ledgerGeometry sampleHost) =
      .ok (inodeBytes (formattedLedger ledgerSuperblock ledgerGeometry sampleHost)) :=
    encodeInode_eq_ok.mpr ⟨⟨by decide, Or.inl (by decide), by decide⟩, rfl⟩
  have hcontrol : encodeControl (formattedControl ledgerSuperblock) =
      .ok (controlBytes (formattedControl ledgerSuperblock)) :=
    encodeControl_eq_ok.mpr ⟨(formattedControl_valid ledgerLayout.regions).1, rfl⟩
  have hentry : encodeDirectoryEntry ledgerEntry (UInt16.ofNat kBlockSize) (Bytes.zero _) 0 =
      .ok ((Bytes.zero kBlockSize).write 0 (recordBytes ledgerEntry (UInt16.ofNat kBlockSize))) :=
    encodeDirectoryEntry_of_fits ⟨by decide, Or.inl rfl, by decide, by decide, by decide, by decide⟩ _
  have hbytes : ledgerBytesOf ledgerSuperblock ledgerGeometry sampleHost =
      .ok ((Bytes.zero kBlockSize).write 0 (recordBytes ledgerEntry (UInt16.ofNat kBlockSize)),
        inodeBytes (formattedLedger ledgerSuperblock ledgerGeometry sampleHost)) := by
    rw [ledgerBytesOf, if_pos (by decide), hentry, ok_bind, hledger]
    rfl
  rw [formatBytes, hbytes, ok_bind, hroot, ok_bind, hcontrol]
  rfl

theorem ledgerImage_formatted :
    Formatted ledgerSuperblock ledgerGeometry sampleHost (fun _ => Bytes.zero _) ledgerImage := by
  obtain ⟨x, hx⟩ := ledgerLayout.encodes
  unfold ledgerImage
  rw [hx]
  exact formattedImage_formatted ledgerLayout formatBytes_ledger hx

theorem completes_formatImage_ledger (w : Disk) : Prog.Completes (formatImage ledgerOptions sampleHost) () w
    fun sb _ w' => sb = ledgerSuperblock ∧ w'.size = 32 := by
  have hlayout : formatLayout ledgerOptions =
      .ok (⟨32, 32, 1, ⟨1, 1⟩, ⟨2, 1⟩, ⟨3, 1⟩, ⟨4, 12⟩, ⟨16, 16⟩, 0, 0, 1, Bytes.zero 16, 0⟩,
      ledgerGeometry) := rfl
  have hblocks : ledgerOptions.imageSizeBytes.toNat / kBlockSize = 32 := rfl
  have hrun := completes_formatImage hlayout rfl formatBytes_ledger w
  rw [hblocks] at hrun
  exact hrun

/-- An image with these blocks, opened after formatting. -/
abbrev ledgerReaderOf (d : Image) : ImageReader := ⟨d, ledgerSuperblock, formattedControl ledgerSuperblock, .kA⟩

/-- The small image without a ledger, opened. -/
def sampleReader : ImageReader := ⟨sampleImage, sampleSuperblock, formattedControl sampleSuperblock, .kA⟩

/-- The small image, opened. -/
def ledgerReader : ImageReader := ledgerReaderOf ledgerImage

theorem adoptLockedFd_ledgerImage : ImageReader.adoptLockedFd 32 ledgerImage = .ok ledgerReader :=
  (ledgerImage_formatted.sound ledgerLayout).adoptLockedFd (ledgerImage_formatted.opens ledgerLayout)

theorem ledgerFile_readable : ledgerReader.readInode 2 =
    .ok (formattedLedger ledgerSuperblock ledgerGeometry sampleHost) :=
  ImageReader.readInode_eq_ok.mpr ((ledgerImage_formatted.sound ledgerLayout).readable
    ((ledgerImage_formatted.mem_inodes_iff ledgerLayout).mpr (Or.inr ⟨by decide, rfl⟩))
    (ledgerImage_formatted.ledgerAt (by decide)))

end Eufs
