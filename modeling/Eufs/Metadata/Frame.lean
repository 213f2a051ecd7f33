import Eufs.Journal.Images
import Eufs.Metadata.Reading
import Eufs.Storage.Layout

/-!
# Eufs.Metadata.Frame — what a change leaves alone

An inode depends on its slot in the inode table and on the blocks it owns.  Where two images agree on these, they
agree on the record, the mapping, the entries and the content of the inode.
-/

namespace Eufs

open ImageReader

namespace InodeRecord

variable {sb : Superblock} {v : InodeRecord} {d d' : Image} (hm : v.Mapped sb d) (hd : ∀ b ∈ v.owned d, d' b = d b)

theorem Mapped.indirect_mem (hm : v.Mapped sb d) {k : ℕ} (h : kDirectBlockCount ≤ k) (hk : k < v.requiredBlocks) :
    v.indirect ≠ 0 ∧ v.indirect ∈ v.owned d := by
  have h0 := hm.indirect.mpr (by omega)
  exact ⟨h0, indirect_mem_owned h0⟩

include hm hd

theorem pointer_frame {k : ℕ} (hk : k < v.requiredBlocks) : v.pointer d' k = v.pointer d k := by
  by_cases h12 : k < kDirectBlockCount
  · rw [pointer_of_lt h12, pointer_of_lt h12]
  · have h12 := not_lt.mp h12
    rw [pointer_of_ge h12, pointer_of_ge h12, hd _ (hm.indirect_mem h12 hk).2]

theorem blocks_frame : v.blocks d' = v.blocks d :=
  List.map_congr_left fun _ hk => pointer_frame hm hd (List.mem_range.mp hk)

theorem owned_frame : v.owned d' = v.owned d := by
  rw [owned, owned, blocks_frame hm hd]

theorem mapped_frame : v.Mapped sb d' := by
  refine ⟨hm.direct, hm.indirect, fun h0 k hk => ?_, fun b hb => ?_⟩
  · have hmem : v.indirect ∈ v.owned d := indirect_mem_owned h0
    rw [hd _ hmem]
    exact hm.indirectEntries h0 k hk
  · rw [owned_frame hm hd] at hb
    exact hm.inData b hb

theorem block_frame {k : ℕ} (hk : k < v.requiredBlocks) : d' (v.pointer d' k) = d (v.pointer d k) := by
  rw [pointer_frame hm hd hk]
  exact hd _ (pointer_mem_owned hk)

theorem entries_frame : v.entries d' = v.entries d := by
  rw [entries, entries, blocks_frame hm hd]
  refine List.flatMap_congr fun b hb => ?_
  rw [hd b (List.mem_append_left _ hb)]

theorem content_frame : v.content d' = v.content d := by
  refine List.map_congr_left fun i hi => ?_
  have hi := List.mem_range.mp hi
  rw [byteAt, byteAt, block_frame hm hd]
  show i / 4096 < (v.size.toNat + 4096 - 1) / 4096
  omega

theorem ledgerSlot_frame {k : ℕ} (hk : k < v.size.toNat / kRequestLedgerRecordSize) :
    v.ledgerSlot d' k = v.ledgerSlot d k := by
  rw [ledgerSlot, ledgerSlot, block_frame hm hd]
  have hk : k < v.size.toNat / 128 := hk
  show k * 128 / 4096 < (v.size.toNat + 4096 - 1) / 4096
  omega

theorem ledgerHolds_frame {records : List RequestLedgerRecord} (h : v.LedgerHolds d records) :
    v.LedgerHolds d' records := by
  refine ⟨h.fits, h.ids, fun k hk => ?_⟩
  rw [ledgerSlot_frame hm hd hk]
  exact h.slots k hk

end InodeRecord

namespace Superblock

/-- Inode `n` has the same slot and the same blocks in both images. -/
structure Keeps (sb : Superblock) (d d' : Image) (n : ℕ) : Prop where
  slot : inodeSlot sb d' n = inodeSlot sb d n
  blocks : ∀ b ∈ sb.ownedBy d n, d' b = d b

variable {sb : Superblock} {d d' : Image} {n : ℕ} {v : InodeRecord}

theorem ownedBy_of_record (h : sb.inodeAt d n = some v) : sb.ownedBy d n = v.owned d := by
  rw [ownedBy, h]
  rfl

theorem entriesOf_of_record (h : sb.inodeAt d n = some v) :
    sb.entriesOf d n = if S_ISDIR v.mode then v.entries d else [] := by
  rw [entriesOf, h]
  rfl

theorem isDirectory_of_record (h : sb.inodeAt d n = some v) : sb.isDirectory d n = decide (S_ISDIR v.mode) := by
  rw [isDirectory, h]
  rfl

theorem inodeAt_of_slot (h : inodeSlot sb d' n = inodeSlot sb d n) : sb.inodeAt d' n = sb.inodeAt d n := by
  rw [inodeAt, h, ← inodeAt]

theorem Keeps.owned (h : sb.Keeps d d' n) (hv : sb.inodeAt d n = some v) : ∀ b ∈ v.owned d, d' b = d b := by
  rw [← ownedBy_of_record hv]
  exact h.blocks

theorem Keeps.ownedBy (h : sb.Keeps d d' n) (hv : sb.inodeAt d n = some v) (hm : v.Mapped sb d) :
    sb.ownedBy d' n = sb.ownedBy d n := by
  rw [ownedBy_of_record ((inodeAt_of_slot h.slot).trans hv), ownedBy_of_record hv,
    InodeRecord.owned_frame hm (h.owned hv)]

theorem Keeps.entriesOf (h : sb.Keeps d d' n) (hv : sb.inodeAt d n = some v) (hm : v.Mapped sb d) :
    sb.entriesOf d' n = sb.entriesOf d n := by
  rw [entriesOf_of_record ((inodeAt_of_slot h.slot).trans hv), entriesOf_of_record hv,
    InodeRecord.entries_frame hm (h.owned hv)]

theorem Sound.owned_disjoint (hs : sb.Sound d) {m : ℕ} (hne : n ≠ m) (hn : n ∈ sb.inodes d)
    (hm : m ∈ sb.inodes d) :
    ∀ b ∈ sb.ownedBy d n, b ∉ sb.ownedBy d m := by
  intro b hb hb'
  have hsymm : Std.Symm (Function.onFun List.Disjoint (sb.ownedBy d)) := ⟨fun _ _ h => h.symm⟩
  exact (List.nodup_flatMap.mp hs.once).2.forall hn hm hne hb hb'

theorem Sound.owned_nodup (hs : sb.Sound d) (hn : n ∈ sb.inodes d) (hv : sb.inodeAt d n = some v) :
    (v.owned d).Nodup := by
  rw [← ownedBy_of_record hv]
  exact (List.nodup_flatMap.mp hs.once).1 n hn

/-! ## Images with the same metadata -/

/-- The inode table lies between the block bitmap and the data region. -/
theorem Regions.table_range (hr : sb.Regions) {m : ℕ} (h1 : 1 ≤ m)
    (h2 : m ≤ sb.totalInodes.toNat) : sb.blockBitmap.start + sb.blockBitmap.count ≤ inodeTableBlock sb m ∧
      inodeTableBlock sb m < sb.data.start := by
  obtain ⟨⟨hge, hlt⟩, -⟩ := hr.offsetsInside.inode m h1 h2
  obtain ⟨e1, e2, e3, e4, h5, h6, h7, h8⟩ := hr.chain
  omega

/-- The bitmaps hold a bit for every inode and every block. -/
theorem Regions.inodes_le (h : sb.Regions) : sb.totalInodes.toNat ≤ sb.inodeBitmap.count * kBlockSize * 8 := by
  rw [h.inodeBitmap_count]
  show _ ≤ (sb.totalInodes.toNat + 4096 * 8 - 1) / (4096 * 8) * 4096 * 8
  omega

theorem Regions.blocks_le (h : sb.Regions) : sb.totalBlocks.toNat ≤ sb.blockBitmap.count * kBlockSize * 8 := by
  rw [h.blockBitmap_count]
  show _ ≤ (sb.totalBlocks.toNat + 4096 * 8 - 1) / (4096 * 8) * 4096 * 8
  omega

/-- The bits of a bitmap whose blocks stand in the image. -/
theorem testBit_loadBitmap_of_blocks {start count k : ℕ} {bm : Bitmap}
    (h : ∀ j < count, d (start + j) = bitmapBlock bm j)
    (hk : k < count * kBlockSize * 8) : (loadBitmap d start).testBit k = bm.testBit k :=
  Bitmap.testBit_congr (loadBitmap_of_blocks h (Nat.div_lt_of_lt_mul (by rwa [Nat.mul_comm])))

theorem testBit_loadBitmap_congr {start count k : ℕ} (h : ∀ j < count, d' (start + j) = d (start + j))
    (hk : k < count * kBlockSize * 8) : (loadBitmap d' start).testBit k = (loadBitmap d start).testBit k :=
  testBit_loadBitmap_of_blocks (fun j hj => by rw [h j hj, bitmapBlock_loadBitmap]) hk

/-- The second image has the metadata of the first, with perhaps more inodes marked in use. -/
structure KeepsMetadata (sb : Superblock) (d d' : Image) : Prop where
  blocks : ∀ b < sb.data.start, ¬ blockIsInRegion b sb.inodeBitmap → d' b = d b
  inodeBits : ∀ k < sb.inodeBitmap.count * kBlockSize * 8, (loadBitmap d sb.inodeBitmap.start).testBit k →
    (loadBitmap d' sb.inodeBitmap.start).testBit k

theorem KeepsMetadata.of_eq (hr : sb.Regions) (h : ∀ b < sb.data.start, d' b = d b) : sb.KeepsMetadata d d' := by
  obtain ⟨h1, h2, h3, h4, h5, h6, h7, h8⟩ := hr.chain
  refine ⟨fun b hb _ => h b hb, fun k hk hbit => ?_⟩
  rw [testBit_loadBitmap_congr (fun j hj => h _ (by omega)) hk]
  exact hbit

namespace KeepsMetadata

variable (h : sb.KeepsMetadata d d') (hr : sb.Regions)

include h hr

theorem blockBit_eq {b : ℕ} (hb : b < sb.blockBitmap.count * kBlockSize * 8) :
    sb.blockBit d' b = sb.blockBit d b := by
  obtain ⟨h1, h2, h3, h4, h5, h6, h7, h8⟩ := hr.chain
  refine testBit_loadBitmap_congr (fun j hj => h.blocks _ (by omega) fun hc => ?_) hb
  have := hc.2
  omega

theorem mem_inodes (hn : n ∈ sb.inodes d) : n ∈ sb.inodes d' := by
  have hle := hr.inodes_le
  obtain ⟨h1, h2, h3⟩ := Superblock.mem_inodes.mp hn
  exact Superblock.mem_inodes.mpr ⟨h1, h2, h.inodeBits _ (by omega) h3⟩

theorem inodeSlot_eq (h1 : 1 ≤ n) (h2 : n ≤ sb.totalInodes.toNat) : inodeSlot sb d' n = inodeSlot sb d n := by
  obtain ⟨e1, e2, e3, -, h5, h6, -, -⟩ := hr.chain
  obtain ⟨⟨hge, hlt⟩, -⟩ := hr.offsetsInside.inode n h1 h2
  rw [inodeSlot, inodeSlot, h.blocks _ (by omega) fun hc => ?_]
  have := hc.2
  omega

theorem readable (hv : Readable sb d n v) (h0 : v.indirect = 0) : Readable sb d' n v := by
  obtain ⟨h1, h2, -⟩ := Superblock.mem_inodes.mp hv.allocated
  have hle := hr.blocks_le
  have hreq : v.requiredBlocks ≤ kDirectBlockCount := not_lt.mp fun hc => hv.mapped.indirect.mpr hc h0
  have howned : v.owned d' = v.owned d := by
    rw [InodeRecord.owned, InodeRecord.owned, InodeRecord.blocks, InodeRecord.blocks]
    refine congrArg₂ _ (List.map_congr_left fun k hk => ?_) rfl
    have hk : k < kDirectBlockCount := (List.mem_range.mp hk).trans_le hreq
    rw [InodeRecord.pointer_of_lt hk, InodeRecord.pointer_of_lt hk]
  refine ⟨h.mem_inodes hr hv.allocated, ?_,
    ⟨hv.mapped.direct, hv.mapped.indirect, fun hc => absurd h0 hc, fun b hb => ?_⟩, fun b hb => ?_, hv.whole⟩
  · rw [inodeAt_of_slot (h.inodeSlot_eq hr h1 h2)]
    exact hv.record
  · rw [howned] at hb
    exact hv.mapped.inData b hb
  · rw [howned] at hb
    rw [h.blockBit_eq hr ((hv.mapped.inData b hb).2.trans_le hle)]
    exact hv.blocks b hb

/-- An image with the same metadata is accepted for reading. -/
theorem adoptable (ha : sb.Adoptable d) (h0 : ∀ v, Readable sb d sb.rootInode.toNat v → v.indirect = 0) :
    sb.Adoptable d' := by
  obtain ⟨-, -, -, -, -, -, -, h8⟩ := hr.chain
  have hle := hr.blocks_le
  obtain ⟨v, hv, hdir⟩ := ha.root
  refine ⟨⟨fun b hb => ?_, fun k hk hge => h.inodeBits k hk (ha.inodeTail k hk hge), fun k hk hge => ?_⟩,
    v, h.readable hr hv (h0 v hv), hdir⟩
  · rw [h.blockBit_eq hr (by omega)]
    exact ha.metadata b hb
  · rw [h.blockBit_eq hr hk]
    exact ha.blockTail k hk hge

theorem keepsControls : KeepsControls sb d d' := by
  obtain ⟨e1, e2, e3, e4, h5, h6, h7, -⟩ := hr.chain
  refine ⟨h.blocks _ (by omega) fun hc => ?_, fun copy => ?_⟩
  · have := hc.1
    omega
  · have := (hr.offsetsInside.control copy).1
    have := (hr.offsetsInside.control copy).2
    refine h.blocks _ (by omega) fun hc => ?_
    have := hc.2
    omega

end KeepsMetadata

end Superblock

/-! ## What the reader sees -/

/-- The reader sees inode `m` alike in its image and in `d'`. -/
structure ImageReader.SeesAlike (r : ImageReader) (d' : Image) (m : ℕ) : Prop where
  readInode : readInode { r with image := d' } m = r.readInode m
  readFile : ∀ offset requested,
    readFile { r with image := d' } m offset requested = r.readFile m offset requested
  listDirectory : listDirectory { r with image := d' } m = r.listDirectory m

section SeesAlike

variable {r : ImageReader} {d' : Image} {m : ℕ}

theorem ImageReader.seesAlike_of_not_mem (hm : m ∉ r.superblock.inodes r.image) (hm' : m ∉ r.superblock.inodes d') :
    r.SeesAlike d' m := by
  have herr := readInode_of_not_mem hm
  have herr' := readInode_of_not_mem (r := { r with image := d' }) hm'
  refine ⟨herr'.trans herr.symm, fun offset requested => ?_, ?_⟩
  · exact (readFile_of_error herr' _ _).trans (readFile_of_error herr _ _).symm
  · exact (listDirectory_of_error herr').trans (listDirectory_of_error herr).symm

theorem Superblock.Keeps.seesAlike (h : r.superblock.Keeps r.image d' m) (hs : r.superblock.Sound r.image)
    (hs' : r.superblock.Sound d') (hm : m ∈ r.superblock.inodes r.image) (hm' : m ∈ r.superblock.inodes d') :
    r.SeesAlike d' m := by
  obtain ⟨w, hw⟩ := hs.exists_readable hm
  have hw' : Readable r.superblock d' m w := hs'.readable hm' ((inodeAt_of_slot h.slot).trans hw.record)
  have hread := readInode_eq_ok.mpr hw
  have hread' := readInode_eq_ok (r := { r with image := d' }).mpr hw'
  refine ⟨hread'.trans hread.symm, fun offset requested => ?_, ?_⟩
  · by_cases hreg : S_ISREG w.mode
    · have hcontent : w.content d' = w.content r.image := InodeRecord.content_frame hw.mapped (h.owned hw.record)
      rw [readFile_of_readable hw hreg, ← hcontent]
      exact readFile_of_readable (r := { r with image := d' }) hw' hreg _ _
    · exact (readFile_of_not_reg hread' hreg _ _).trans (readFile_of_not_reg hread hreg _ _).symm
  · by_cases hdir : S_ISDIR w.mode
    · have hentries : w.entries d' = w.entries r.image := InodeRecord.entries_frame hw.mapped (h.owned hw.record)
      rw [listDirectory_of_listable hw hdir (hs.listable hm hw.record hdir), ← hentries]
      exact listDirectory_of_listable (r := { r with image := d' }) hw' hdir (hs'.listable hm' hw'.record hdir)
    · exact (listDirectory_of_not_dir hread' hdir).trans (listDirectory_of_not_dir hread hdir).symm

end SeesAlike

end Eufs
