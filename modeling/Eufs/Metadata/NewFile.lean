import Eufs.Metadata.Created
import Eufs.Metadata.Grown

/-!
# Eufs.Metadata.NewFile — the tree with a new object

The image with a new object differs from the old one by two records, one inode and the blocks in use.  The file maps
its data blocks and holds the data, the root maps its blocks and holds one more entry, and all else is as before; so
the image is sound again.
-/

namespace Eufs

open BitmapAllocator PlanImages InodeRecord

namespace NewObjectRequest.Placed

variable {request : NewObjectRequest} {r : ImageReader} {root : InodeRecord} {inodeBit taken : ℕ} {u : RootUpdate}
  {edited released blocks : List ℕ} {table b m : ℕ} {d : Image}
  (h : request.Placed r root inodeBit u taken edited released blocks table d)
  (hspace : request.demand taken ≤ r.blockAllocator.free.length)

include h

/-! ## The two inodes -/

theorem fresh : inodeBit + 1 ∉ r.superblock.inodes r.image := by
  intro hc
  have hbit : r.inodeBitmap.testBit inodeBit = true := (Superblock.mem_inodes.mp hc).2.2
  rw [h.inode_spec.2] at hbit
  cases hbit

theorem root_ne : r.superblock.rootInode.toNat ≠ inodeBit + 1 := fun hc => h.fresh (hc ▸ h.readable.allocated)

/-! ## The image block by block -/

theorem createdImage_of_table (hb : r.superblock.inodeTable.start ≤ b) :
    request.createdImage r inodeBit taken u released d b = request.recordImage r inodeBit taken u d b := by
  obtain ⟨e1, e2, e3, e4, h5, h6, h7, h8⟩ := h.regions.chain
  rw [createdImage, putBitmap_of_out (.inr (by omega)), putBitmap_of_out (.inr (by omega))]

theorem createdImage_of_data (hb : r.superblock.data.start ≤ b) :
    request.createdImage r inodeBit taken u released d b = request.dataImage r taken d b := by
  obtain ⟨e1, e2, e3, e4, h5, h6, h7, h8⟩ := h.regions.chain
  have ht := h.regions.table_range h.inode_range.1 h.inode_range.2
  have htr := h.regions.table_range h.root_range.1 h.root_range.2
  rw [h.createdImage_of_table (by omega), recordImage_of_not_table (by omega) (by omega)]

theorem inodeBits_created {k : ℕ} (hk : k < r.superblock.inodeBitmap.count * kBlockSize * 8) :
    (loadBitmap (request.createdImage r inodeBit taken u released d) r.superblock.inodeBitmap.start).testBit k =
      (decide (k + 1 ∈ [inodeBit + 1]) || (loadBitmap r.image r.superblock.inodeBitmap.start).testBit k) := by
  obtain ⟨e1, e2, e3, e4, h5, h6, h7, h8⟩ := h.regions.chain
  rw [@Superblock.testBit_loadBitmap_of_blocks _ _ _ _ (r.inodeAllocator.taking [inodeBit]).bitmap (fun j hj => ?_) hk]
  · show ([inodeBit].foldl Bitmap.setBit r.inodeBitmap).testBit k = _
    rw [testBit_foldl_setBit]
    simp only [List.mem_singleton, Nat.add_right_cancel_iff]
    rfl
  · rw [createdImage, putBitmap_of_out (.inl (by omega)), putBitmap_of_in hj]

omit h in
theorem blockBits_created (hb : b < r.superblock.blockBitmap.count * kBlockSize * 8) :
    r.superblock.blockBit (request.createdImage r inodeBit taken u released d) b =
      (!decide (b ∈ released) && (decide (b ∈ r.blockAllocator.free.take (request.demand taken)) ||
        r.superblock.blockBit r.image b)) := by
  rw [Superblock.blockBit, @Superblock.testBit_loadBitmap_of_blocks _ _ _ _
    ((r.blockAllocator.taking (r.blockAllocator.free.take (request.demand taken))).dropping released).bitmap
    (fun j hj => ?_) hb]
  · show (released.foldl Bitmap.clearBit ((r.blockAllocator.free.take (request.demand taken)).foldl Bitmap.setBit
      r.blockBitmap)).testBit b = _
    rw [testBit_foldl_clearBit, testBit_foldl_setBit]
    rfl
  · rw [createdImage, putBitmap_of_in hj]

include hspace

theorem inodeSlot_created (h1 : 1 ≤ m) (h2 : m ≤ r.superblock.totalInodes.toNat) :
    inodeSlot r.superblock (request.createdImage r inodeBit taken u released d) m =
      if m = inodeBit + 1 then inodeBytes (request.file r inodeBit taken)
      else if m = r.superblock.rootInode.toNat then inodeBytes (request.newRoot u)
      else inodeSlot r.superblock r.image m := by
  obtain ⟨e1, e2, e3, e4, h5, h6, h7, h8⟩ := h.regions.chain
  have ht := h.regions.table_range h1 h2
  have hslot : inodeSlot r.superblock (request.createdImage r inodeBit taken u released d) m =
      inodeSlot r.superblock (request.recordImage r inodeBit taken u d) m := by
    rw [inodeSlot, inodeSlot, h.createdImage_of_table (by omega)]
  have hdata : inodeSlot r.superblock (request.dataImage r taken d) m = inodeSlot r.superblock r.image m := by
    rw [inodeSlot, inodeSlot, h.dataImage_of_lt hspace ht.2]
  rw [hslot, recordImage, storeRecord, inodeSlot_putInode h.inode_range.1 h1, storeRecord,
    inodeSlot_putInode h.root_range.1 h1, hdata]

theorem changed : r.superblock.Changed r.image (request.createdImage r inodeBit taken u released d)
    [(r.superblock.rootInode.toNat, request.newRoot u), (inodeBit + 1, request.file r inodeBit taken)] [inodeBit + 1]
    (r.blockAllocator.free.take (request.demand taken)) released edited where
  slot m h1 h2 hm := by
    simp only [List.map_cons, List.map_nil, List.mem_cons, List.not_mem_nil, or_false, not_or] at hm
    rw [h.inodeSlot_created hspace h1 h2, if_neg hm.2, if_neg hm.1]
  record x hx := by
    rcases List.mem_cons.mp hx with rfl | hx
    · rw [h.inodeSlot_created hspace h.root_range.1 h.root_range.2, if_neg h.root_ne, if_pos rfl]
    · rw [List.mem_singleton.mp hx, h.inodeSlot_created hspace h.inode_range.1 h.inode_range.2, if_pos rfl]
  valid x hx := by
    rcases List.mem_cons.mp hx with rfl | hx
    · refine ⟨h.newRoot_valid, ?_⟩
      rw [h.newRoot_eq]
      exact h.root_valid.2
    · rw [List.mem_singleton.mp hx]
      exact ⟨h.file_valid, h.toNat_inode⟩
  inodeBits k hk := h.inodeBits_created hk
  inodeRange m hm := by
    rw [List.mem_singleton.mp hm]
    exact h.inode_range
  blockBits b hb := blockBits_created hb
  free b hb := h.free_spec (List.mem_of_mem_take hb)
  taken b hb := ⟨h.readable.mapped.inData b (h.released_mem hb),
    fun hc => h.not_free (h.released_mem hb) (List.mem_of_mem_take hc)⟩
  data b hb hres hed := by
    rw [reserved_eq hspace, List.mem_append, not_or] at hres
    rw [h.createdImage_of_data hb, dataImage_of_not_mem hspace hres.2, h.place.frame b hed hres.1]

/-! ## The file -/

theorem file_inData : r.superblock.InData (request.dataBlocks r taken) (request.fileTable r taken) := by
  refine ⟨fun b hb => h.data_range hb, fun h12 => ?_⟩
  rw [length_dataBlocks (data_le hspace)] at h12
  exact (h.free_spec (fileOwned_free hspace (fileTable_mem hspace h12))).1

theorem file_maps : (request.file r inodeBit taken).Maps (request.createdImage r inodeBit taken u released d)
    (request.dataBlocks r taken) (request.fileTable r taken) := by
  have hin := h.file_inData hspace
  have hlen := length_dataBlocks (data_le hspace)
  have hlimit : (request.dataBlocks r taken).length ≤ kDirectBlockCount + kIndirectEntries :=
    hlen.trans_le h.blockCount_le
  refine ⟨?_, hlimit, fun k hk => InodeRecord.Maps.directBlock_of hin rfl hk, ?_, fun h12 k hk => ?_⟩
  · rw [InodeRecord.requiredBlocks_eq, h.file_size, hlen, blockCount]
  · show (UInt32.ofNat (request.fileTable r taken)).toNat = _
    split_ifs with h12
    · have h1 := (hin.indirect h12).2
      have h2 := r.superblock.totalBlocks.toNat_lt
      exact UInt32.toNat_ofNat_of_lt' (by show _ < 2 ^ 32; omega)
    · rw [hlen] at h12
      rw [fileTable, if_neg h12]
      rfl
  · rw [hlen] at h12
    rw [h.createdImage_of_data (hin.indirect (hlen ▸ h12)).1, dataImage_table h12,
      InodeRecord.Maps.indirectPointer_of hin hlimit]

theorem file_mapped : (request.file r inodeBit taken).Mapped r.superblock
    (request.createdImage r inodeBit taken u released d) :=
  (h.file_maps hspace).mapped h.regions.data_pos (h.file_inData hspace)

theorem file_owned : (request.file r inodeBit taken).owned (request.createdImage r inodeBit taken u released d) =
    ownedOf (request.dataBlocks r taken) (request.fileTable r taken) :=
  (h.file_maps hspace).owned_eq h.regions.data_pos (h.file_inData hspace)

theorem file_content : (request.file r inodeBit taken).content (request.createdImage r inodeBit taken u released d) =
    request.data := by
  refine content_eq h.file_size.symm fun i hi => ?_
  have hlen := length_dataBlocks (data_le hspace)
  have hl : i / kBlockSize < (request.dataBlocks r taken).length := by
    rw [hlen, blockCount, requiredBlocks_eq]
    show i / 4096 < _
    omega
  have hget := List.getElem?_eq_getElem hl
  have hdata := h.data_range (List.getElem_mem hl)
  rw [byteAt, (h.file_maps hspace).pointer_eq hl, List.getD_eq_getElem?_getD, hget, Option.getD_some,
    h.createdImage_of_data hdata.1, dataImage_data hspace hget, byte_dataBlock (Nat.mod_lt _ (by decide)),
    Nat.div_add_mod']

/-! ## The root -/

theorem createdImage_of_root (hb : b ∈ ownedOf blocks table) :
    request.createdImage r inodeBit taken u released d b = d b := by
  have hdata : r.superblock.data.start ≤ b := by
    rcases (h.place.owned b).mp hb with hb | ⟨hb, -⟩
    · exact (h.free_spec (List.mem_of_mem_take hb)).1.1
    · exact (h.readable.mapped.inData b hb).1
  rw [h.createdImage_of_data hdata, dataImage_of_not_mem hspace]
  intro hc
  rcases (h.place.owned b).mp hb with hb | ⟨hb, -⟩
  · exact fileOwned_not_taken hspace hc hb
  · exact h.not_free hb (fileOwned_free hspace hc)

theorem newRoot_maps : (request.newRoot u).Maps (request.createdImage r inodeBit taken u released d) blocks table := by
  have hmaps := h.place.maps
  have hold : (request.newRoot u).Maps d blocks table :=
    ⟨hmaps.count, hmaps.limit, hmaps.direct, hmaps.indirect, hmaps.entries⟩
  refine hold.congr fun h12 => h.createdImage_of_root hspace ?_
  rw [ownedOf, if_pos h12]
  exact List.mem_append_right _ (List.mem_singleton_self _)

theorem newRoot_mapped : (request.newRoot u).Mapped r.superblock (request.createdImage r inodeBit taken u released d) :=
  (h.newRoot_maps hspace).mapped h.regions.data_pos h.place.inData

theorem newRoot_owned : (request.newRoot u).owned (request.createdImage r inodeBit taken u released d) =
    ownedOf blocks table := (h.newRoot_maps hspace).owned_eq h.regions.data_pos h.place.inData

theorem newRoot_block (hb : b ∈ blocks) : request.createdImage r inodeBit taken u released d b = d b :=
  h.createdImage_of_root hspace (List.mem_append_left _ hb)

theorem newRoot_entries : ∃ pre post, (root.entries r.image).map DirectoryEntry.key = pre ++ post ∧
    ((request.newRoot u).entries (request.createdImage r inodeBit taken u released d)).map DirectoryEntry.key =
      pre ++ (request.entry inodeBit).key :: post := by
  have hentries : (request.newRoot u).entries (request.createdImage r inodeBit taken u released d) =
      blocks.flatMap fun b => activeEntries (d b) := by
    rw [entries, (h.newRoot_maps hspace).blocks_eq]
    exact List.flatMap_congr fun b hb => by rw [h.newRoot_block hspace hb]
  rw [hentries]
  exact h.place.keys

/-! ## The tree -/

theorem inodeAt_file : r.superblock.inodeAt (request.createdImage r inodeBit taken u released d) (inodeBit + 1) =
    some (request.file r inodeBit taken) :=
  (h.changed hspace).inodeAt_record (x := (inodeBit + 1, request.file r inodeBit taken)) (by simp)

theorem inodeAt_root : r.superblock.inodeAt (request.createdImage r inodeBit taken u released d)
    r.superblock.rootInode.toNat = some (request.newRoot u) :=
  (h.changed hspace).inodeAt_record (x := (r.superblock.rootInode.toNat, request.newRoot u)) List.mem_cons_self

theorem mem_inodes : m ∈ r.superblock.inodes (request.createdImage r inodeBit taken u released d) ↔
    m = inodeBit + 1 ∨ m ∈ r.superblock.inodes r.image := by
  rw [(h.changed hspace).mem_inodes_iff h.regions, List.mem_singleton, or_comm]

/-- A new object changes both bitmaps and, when the time has passed, the record of the root. -/
theorem changes (h0 : 0 < request.demand taken) (ht : request.timestampNs ≠ root.mtimeNs) :
    (∃ k < r.superblock.inodeBitmap.count, request.createdImage r inodeBit taken u released d
      (r.superblock.inodeBitmap.start + k) ≠ r.image (r.superblock.inodeBitmap.start + k)) ∧
    (∃ k < r.superblock.blockBitmap.count, request.createdImage r inodeBit taken u released d
      (r.superblock.blockBitmap.start + k) ≠ r.image (r.superblock.blockBitmap.start + k)) ∧
    request.createdImage r inodeBit taken u released d (inodeTableBlock r.superblock r.superblock.rootInode.toNat) ≠
      r.image (inodeTableBlock r.superblock r.superblock.rootInode.toNat) := by
  refine ⟨?_, ?_, fun heq => ?_⟩
  · by_contra! hsame
    have hle := h.regions.inodes_le
    obtain ⟨h1, h2, hbit⟩ := Superblock.mem_inodes.mp ((h.mem_inodes hspace).mpr (.inl rfl))
    refine h.fresh (Superblock.mem_inodes.mpr ⟨h1, h2, ?_⟩)
    rwa [Superblock.inodeBit, Superblock.testBit_loadBitmap_congr hsame (by omega)] at hbit
  · by_contra! hsame
    have hle := h.regions.blocks_le
    obtain ⟨b, hb⟩ := List.exists_mem_of_length_pos (l := r.blockAllocator.free.take (request.demand taken)) (by
      rw [List.length_take]
      omega)
    obtain ⟨⟨-, hlt⟩, hfree⟩ := h.free_spec (List.mem_of_mem_take hb)
    have hbit := @blockBits_created request r inodeBit taken u released b d (by omega)
    have hnot : b ∉ released := fun hc => h.not_free (h.released_mem hc) (List.mem_of_mem_take hb)
    rw [Superblock.blockBit, Superblock.testBit_loadBitmap_congr hsame (by omega)] at hbit
    rw [Superblock.blockBit] at hfree
    simp [hfree, hb, hnot] at hbit
  · have hroot := h.inodeAt_root hspace
    have hslot : inodeSlot r.superblock (request.createdImage r inodeBit taken u released d)
        r.superblock.rootInode.toNat = inodeSlot r.superblock r.image r.superblock.rootInode.toNat := by
      rw [inodeSlot, heq, inodeSlot]
    rw [Superblock.inodeAt_of_slot hslot, h.readable.record, h.newRoot_eq] at hroot
    exact ht (congrArg mtimeNs (Option.some.inj hroot)).symm

theorem keeps (hm : m ∈ r.superblock.inodes r.image) (hne : m ≠ r.superblock.rootInode.toNat) :
    r.superblock.Keeps r.image (request.createdImage r inodeBit taken u released d) m := by
  refine (h.changed hspace).keeps h.sound hm ?_ fun b hb hc => ?_
  · simp only [List.map_cons, List.map_nil, List.mem_cons, List.not_mem_nil, or_false, not_or]
    exact ⟨hne, fun hc => h.fresh (hc ▸ hm)⟩
  · refine h.sound.owned_disjoint hne hm h.readable.allocated b hb ?_
    rw [Superblock.ownedBy_of_record h.readable.record]
    exact h.edited_mem hc

theorem inodeAt_other (hm : m ∈ r.superblock.inodes r.image) (hne : m ≠ r.superblock.rootInode.toNat) :
    r.superblock.inodeAt (request.createdImage r inodeBit taken u released d) m = r.superblock.inodeAt r.image m :=
  Superblock.inodeAt_of_slot (h.keeps hspace hm hne).slot

theorem grownTree : r.superblock.GrownTree r.image (request.createdImage r inodeBit taken u released d) (inodeBit + 1)
    (request.file r inodeBit taken) (request.entry inodeBit) where
  inodes m := h.mem_inodes hspace
  fresh := h.fresh
  inodeAt := h.inodeAt_file hspace
  mapped := h.file_mapped hspace
  regular := file_isReg
  linked := rfl
  record m hm v hv := by
    by_cases hroot : m = r.superblock.rootInode.toNat
    · subst hroot
      obtain rfl : root = v := Option.some.inj (h.readable.record.symm.trans hv)
      refine ⟨_, h.inodeAt_root hspace, h.newRoot_mapped hspace, ?_, ?_⟩ <;> rw [h.newRoot_eq]
    · obtain ⟨w, hw, hmap⟩ := h.sound.inode m hm
      obtain rfl : w = v := Option.some.inj (hw.symm.trans hv)
      have howned := (h.keeps hspace hm hroot).owned hw
      exact ⟨w, (h.inodeAt_other hspace hm hroot).trans hw, mapped_frame hmap howned, rfl, rfl⟩
  listable m hm w hw hdir := by
    by_cases hroot : m = r.superblock.rootInode.toNat
    · subst hroot
      obtain rfl : request.newRoot u = w := Option.some.inj ((h.inodeAt_root hspace).symm.trans hw)
      have hsize : (request.newRoot u).size.toNat = blocks.length * kBlockSize := h.place.size
      refine ⟨by rw [hsize, Nat.mul_mod_left], fun b hb => ?_⟩
      rw [(h.newRoot_maps hspace).blocks_eq] at hb
      rw [h.newRoot_block hspace hb]
      exact h.place.decodes b hb
    · rw [h.inodeAt_other hspace hm hroot] at hw
      have hmap := (h.sound.readable hm hw).mapped
      have howned := (h.keeps hspace hm hroot).owned hw
      have hold := h.sound.directory m hm w hw hdir
      refine ⟨hold.size, fun b hb => ?_⟩
      rw [blocks_frame hmap howned] at hb
      rw [howned b (List.mem_append_left _ hb)]
      exact hold.decodes b hb
  entries m hm hroot := by
    obtain ⟨v, hv, hmap⟩ := h.sound.inode m hm
    exact (h.keeps hspace hm hroot).entriesOf hv hmap
  rootEntries := by
    have hdir : S_ISDIR (request.newRoot u).mode := by
      rw [h.newRoot_eq]
      exact h.directory
    rw [Superblock.entriesOf_of_record h.readable.record, if_pos h.directory,
      Superblock.entriesOf_of_record (h.inodeAt_root hspace), if_pos hdir]
    exact h.newRoot_entries hspace
  target := h.toNat_inode
  type := rfl
  name := by
    rw [Superblock.entriesOf_of_record h.readable.record, if_pos h.directory]
    exact h.absent

/-! ## The blocks in use -/

theorem ownedBy_file : r.superblock.ownedBy (request.createdImage r inodeBit taken u released d) (inodeBit + 1) =
    ownedOf (request.dataBlocks r taken) (request.fileTable r taken) := by
  rw [Superblock.ownedBy_of_record (h.inodeAt_file hspace), h.file_owned hspace]

theorem ownedBy_root : r.superblock.ownedBy (request.createdImage r inodeBit taken u released d)
    r.superblock.rootInode.toNat = ownedOf blocks table := by
  rw [Superblock.ownedBy_of_record (h.inodeAt_root hspace), h.newRoot_owned hspace]

theorem ownedBy_other (hm : m ∈ r.superblock.inodes r.image) (hne : m ≠ r.superblock.rootInode.toNat) :
    r.superblock.ownedBy (request.createdImage r inodeBit taken u released d) m = r.superblock.ownedBy r.image m := by
  obtain ⟨w, hw, hmap⟩ := h.sound.inode m hm
  exact (h.keeps hspace hm hne).ownedBy hw hmap

omit hspace in
theorem ownedBy_oldRoot : r.superblock.ownedBy r.image r.superblock.rootInode.toNat = root.owned r.image :=
  Superblock.ownedBy_of_record h.readable.record

/-- The blocks in use are the old ones and the reserved ones, but for the old indirect block of the root. -/
theorem mem_references : b ∈ r.superblock.references (request.createdImage r inodeBit taken u released d) ↔
    b ∉ released ∧ (b ∈ r.blockAllocator.free.take (request.demand taken) ∨
    b ∈ r.superblock.references r.image) := by
  rw [reserved_eq hspace, List.mem_append, Superblock.references, Superblock.references]
  simp only [List.mem_flatMap]
  constructor
  · rintro ⟨m, hm, hb⟩
    rcases (h.mem_inodes hspace).mp hm with rfl | hm
    · rw [h.ownedBy_file hspace] at hb
      exact ⟨fun hc => h.not_free (h.released_mem hc) (fileOwned_free hspace hb), .inl (.inr hb)⟩
    · by_cases hroot : m = r.superblock.rootInode.toNat
      · rw [hroot, h.ownedBy_root hspace, h.place.owned] at hb
        rcases hb with hb | ⟨hb, hnot⟩
        · exact ⟨fun hc => h.not_free (h.released_mem hc) (List.mem_of_mem_take hb), .inl (.inl hb)⟩
        · exact ⟨hnot, .inr ⟨_, h.readable.allocated, h.ownedBy_oldRoot ▸ hb⟩⟩
      · rw [h.ownedBy_other hspace hm hroot] at hb
        refine ⟨fun hc => ?_, .inr ⟨m, hm, hb⟩⟩
        exact h.sound.owned_disjoint hroot hm h.readable.allocated b hb (h.ownedBy_oldRoot ▸ h.released_mem hc)
  · rintro ⟨hnot, (hb | hb) | ⟨m, hm, hb⟩⟩
    · refine ⟨_, (h.mem_inodes hspace).mpr (.inr h.readable.allocated), ?_⟩
      rw [h.ownedBy_root hspace, h.place.owned]
      exact .inl hb
    · refine ⟨_, (h.mem_inodes hspace).mpr (.inl rfl), ?_⟩
      rwa [h.ownedBy_file hspace]
    · refine ⟨m, (h.mem_inodes hspace).mpr (.inr hm), ?_⟩
      by_cases hroot : m = r.superblock.rootInode.toNat
      · rw [hroot, h.ownedBy_oldRoot] at hb
        rw [hroot, h.ownedBy_root hspace, h.place.owned]
        exact .inr ⟨hb, hnot⟩
      · rwa [h.ownedBy_other hspace hm hroot]

omit h hspace in
/-- The new blocks of each inode. -/
def share (request : NewObjectRequest) (r : ImageReader) (inodeBit taken m : ℕ) : List ℕ :=
  if m = r.superblock.rootInode.toNat then r.blockAllocator.free.take taken
  else if m = inodeBit + 1 then ownedOf (request.dataBlocks r taken) (request.fileTable r taken) else []

omit h in
theorem mem_share (hb : b ∈ share request r inodeBit taken m) : b ∈ r.blockAllocator.free := by
  unfold share at hb
  split_ifs at hb
  · exact List.mem_of_mem_take hb
  · exact fileOwned_free hspace hb
  · exact absurd hb List.not_mem_nil

omit h in
theorem share_disjoint {m' : ℕ} (hne : m ≠ m') (hb : b ∈ share request r inodeBit taken m) :
    b ∉ share request r inodeBit taken m' := by
  intro hb'
  unfold share at hb hb'
  split_ifs at hb hb' with h1 h2 h3 h4 h5 h6
  · exact hne (h1.trans h2.symm)
  · exact fileOwned_not_taken hspace hb' hb
  · exact List.not_mem_nil hb'
  · exact fileOwned_not_taken hspace hb hb'
  · exact hne (h4.trans h6.symm)
  · exact List.not_mem_nil hb'
  all_goals exact List.not_mem_nil hb

theorem references_nodup : (r.superblock.references (request.createdImage r inodeBit taken u released d)).Nodup := by
  refine h.sound.once_of_shares (R := share request r inodeBit taken) (fun m hm => ?_)
    (fun m b hb => (h.free_spec (mem_share hspace hb)).2) fun m m' hne b hb => share_disjoint hspace hne hb
  rcases (h.mem_inodes hspace).mp hm with rfl | hm
  · rw [h.ownedBy_file hspace]
    refine ⟨fileOwned_nodup hspace, fun b hb => .inr ?_⟩
    rwa [share, if_neg h.root_ne.symm, if_pos rfl]
  · by_cases hroot : m = r.superblock.rootInode.toNat
    · rw [hroot, h.ownedBy_root hspace]
      refine ⟨h.place.nodup, fun b hb => ?_⟩
      rcases (h.place.owned b).mp hb with hb | ⟨hb, -⟩
      · refine .inr ?_
        rwa [share, if_pos rfl]
      · exact .inl ⟨h.readable.allocated, h.ownedBy_oldRoot ▸ hb⟩
    · obtain ⟨w, hw, -⟩ := h.sound.inode m hm
      rw [h.ownedBy_other hspace hm hroot]
      refine ⟨?_, fun b hb => .inl ⟨hm, hb⟩⟩
      rw [Superblock.ownedBy_of_record hw]
      exact h.sound.owned_nodup hm hw

theorem sound_created : r.superblock.Sound (request.createdImage r inodeBit taken u released d) :=
  (h.grownTree hspace).sound h.sound ((h.changed hspace).reserved_bits h.regions h.sound)
    ((h.changed hspace).referenced h.regions h.sound fun _ => h.mem_references hspace) (h.references_nodup hspace)

end NewObjectRequest.Placed

end Eufs
