import Eufs.Metadata.Change
import Eufs.Metadata.RootEntry

/-!
# Eufs.Metadata.Created — the image with a new object

Once the entry of a new object has its place, the planner fails only for lack of free blocks.  Otherwise the image of
the plan is `createdImage`: the data in the next free blocks, the indirect block of the file behind them, the two
records, and the bitmaps.
-/

namespace Eufs

open ImageReader Superblock BitmapAllocator PlanImages Function

variable {r : ImageReader} {p : PlanImages}

/-- Blocks where metadata may be written: not the superblock and not the journal. -/
def Superblock.Writable (sb : Superblock) (b : ℕ) : Prop :=
  0 < b ∧ b < sb.totalBlocks.toNat ∧ ¬ blockIsInRegion b sb.journal

namespace Superblock.Regions

variable {sb : Superblock} {b : ℕ} (hr : sb.Regions)

include hr

theorem writable_data (h1 : sb.data.start ≤ b) (h2 : b < sb.totalBlocks.toNat) : sb.Writable b := by
  obtain ⟨e1, e2, e3, e4, h5, h6, h7, h8⟩ := hr.chain
  exact ⟨by omega, h2, fun hc => by have := hc.2; omega⟩

/-- The bitmaps and the inode table lie between the superblock and the journal. -/
theorem writable_metadata (h1 : sb.inodeBitmap.start ≤ b) (h2 : b < sb.journal.start) : sb.Writable b := by
  obtain ⟨e1, e2, e3, e4, h5, h6, h7, h8⟩ := hr.chain
  exact ⟨by omega, by omega, fun hc => by have := hc.1; omega⟩

theorem table_writable {m : ℕ} (h1 : 1 ≤ m) (h2 : m ≤ sb.totalInodes.toNat) :
    sb.Writable (inodeTableBlock sb m) := by
  obtain ⟨e1, e2, e3, e4, h5, h6, h7, h8⟩ := hr.chain
  obtain ⟨⟨hge, hlt⟩, -⟩ := hr.offsetsInside.inode m h1 h2
  exact hr.writable_metadata (by omega) (by omega)

end Superblock.Regions

theorem editMetadataBlock_mem {d : Image} {O M : Set ℕ} {b : ℕ} {f : Block → Except Failure Block}
    {y : Block} (h : p.Builds r.image d O M) (hb : b ∉ O) (hm : b ∈ M) (hw : r.superblock.Writable b)
    (hf : f (d b) = .ok y) : ∃ p', editMetadataBlock r b f p = .ok p' ∧
      p'.Builds r.image (update d b y) O M := by
  obtain ⟨p', hp', hbuild⟩ := editMetadataBlock_ok h hb hw.2.1 hf
  exact ⟨p', hp', hbuild.mono subset_rfl (Set.insert_subset hm subset_rfl)⟩

/-! ## The data -/

theorem foldlM_addDataBlock {data : List UInt8} {ls : List ℕ} {s : FileUpdate} (hf : s.allocator.Fits)
    (hvalid : s.allocator.validBits ≤ r.superblock.totalBlocks.toNat) :
    ls.foldlM (addDataBlock r data) s =
      if ls.length ≤ s.allocator.free.length then
        .ok ⟨s.allocator.taking (s.allocator.free.take ls.length),
          s.images.addOrderedAll r.image
            ((ls.zip (s.allocator.free.take ls.length)).map fun x => (x.2, dataBlock data x.1)),
          s.dataBlocks ++ s.allocator.free.take ls.length⟩
      else .error noSpace := by
  induction ls generalizing s with
  | nil =>
    rw [List.foldlM_nil, List.length_nil, if_pos (Nat.zero_le _), List.take_zero, List.append_nil]
    rfl
  | cons l ls ih =>
    rw [List.foldlM_cons, addDataBlock, reserve_eq hf]
    cases hfree : s.allocator.free with
    | nil => rfl
    | cons b rest =>
      have hb : b < r.superblock.totalBlocks.toNat := by
        have := ((mem_free hf).mp (hfree ▸ List.mem_cons_self)).1.2
        omega
      have hread : r.readBlock b = .ok (r.image b) := readBlock_eq_ok.mpr ⟨hb, rfl⟩
      have hrest : (s.allocator.taking [b]).free = rest := free_taking hfree
      simp only [ok_bind, hread]
      show ls.foldlM (addDataBlock r data) _ = _
      have hrec := ih (s := ⟨s.allocator.taking [b], s.images.addOrdered b (r.image b) (dataBlock data l),
        s.dataBlocks ++ [b]⟩) (hf.taking [b]) hvalid
      rw [hrec, hrest, List.length_cons, List.length_cons]
      refine if_congr (by omega) (congrArg Except.ok ?_) rfl
      simp only [List.take_succ_cons, List.zip_cons_cons, List.map_cons, taking_taking,
        List.singleton_append, addOrderedAll_cons, List.append_assoc]

/-! ## The records -/

/-- The image with the record of inode `n` in the inode table. -/
def storeRecord (sb : Superblock) (n : ℕ) (v : InodeRecord) (d : Image) : Image :=
  update d (inodeTableBlock sb n) (putInode n (inodeBytes v) (d (inodeTableBlock sb n)))

theorem storeInode_ok {d : Image} {O M : Set ℕ} {n : ℕ} {v : InodeRecord} (h : p.Builds r.image d O M)
    (hr : r.superblock.Regions) (hO : ∀ b ∈ O, r.superblock.data.start ≤ b)
    (hM : ∀ b, r.superblock.Writable b → b < r.superblock.journal.start → b ∈ M) (h1 : 1 ≤ n)
    (h2 : n ≤ r.superblock.totalInodes.toNat) (hv : v.Valid) :
    ∃ p', storeInode r n v p = .ok p' ∧ p'.Builds r.image (storeRecord r.superblock n v d) O M := by
  have hrange := hr.table_range h1 h2
  have hw := hr.table_writable h1 h2
  refine editMetadataBlock_mem h (fun hc => ?_) (hM _ hw ?_) hw ?_
  · have := hO _ hc
    omega
  · obtain ⟨e1, e2, e3, e4, h5, h6, h7, h8⟩ := hr.chain
    obtain ⟨⟨hge, hlt⟩, -⟩ := hr.offsetsInside.inode n h1 h2
    omega
  · rw [encodeInode_eq_ok.mpr ⟨hv, rfl⟩]
    rfl

/-! ## The plan -/

namespace NewObjectRequest

section Definitions

variable (request : NewObjectRequest) (r : ImageReader) (inodeBit taken : ℕ) (u : RootUpdate) (released : List ℕ)
  (d : Image)

/-- The entry of the new object. -/
def entry : DirectoryEntry := ⟨UInt32.ofNat (inodeBit + 1), .kRegular, request.name, 0⟩

/-- The number of data blocks. -/
def blockCount : ℕ := requiredBlocks request.data.length

/-- The data blocks: the free blocks behind those the root takes. -/
def dataBlocks : List ℕ := (r.blockAllocator.free.drop taken).take request.blockCount

/-- The indirect block of the file, behind its data. -/
def fileTable : ℕ :=
  if kDirectBlockCount < request.blockCount then r.blockAllocator.free.getD (taken + request.blockCount) 0 else 0

/-- All free blocks that are used. -/
def demand : ℕ := taken + (request.blockCount + if kDirectBlockCount < request.blockCount then 1 else 0)

/-- The data with their places. -/
def ordered : List (ℕ × Block) :=
  ((List.range request.blockCount).zip (request.dataBlocks r taken)).map fun x => (x.2, dataBlock request.data x.1)

/-- The record of the file. -/
def file : InodeRecord := newFile request (inodeBit + 1) (request.dataBlocks r taken) (request.fileTable r taken)

/-- The record of the root. -/
def newRoot : InodeRecord := touchedRoot u.root request.timestampNs

/-- The image with the data of the file. -/
def dataImage : Image :=
  if kDirectBlockCount < request.blockCount then
    update (putAll d (request.ordered r taken)) (request.fileTable r taken)
      (indirectBlockOf (request.dataBlocks r taken))
  else putAll d (request.ordered r taken)


/-- The image with the two records. -/
def recordImage : Image :=
  storeRecord r.superblock (inodeBit + 1) (request.file r inodeBit taken)
    (storeRecord r.superblock r.superblock.rootInode.toNat (request.newRoot u) (request.dataImage r taken d))

/-- The image with the new object. -/
def createdImage : Image :=
  putBitmap
    (putBitmap (request.recordImage r inodeBit taken u d) r.superblock.inodeBitmap
      (r.inodeAllocator.taking [inodeBit]).bitmap)
    r.superblock.blockBitmap
    ((r.blockAllocator.taking (r.blockAllocator.free.take (request.demand taken))).dropping released).bitmap

/-- The metadata blocks that may change: the bitmaps and the inode table, edited blocks of the root, and free ones. -/
def touched (edited : List ℕ) : Set ℕ :=
  {b | r.superblock.Writable b ∧
    (b < r.superblock.journal.start ∨ b ∈ edited ∨ b ∈ r.blockAllocator.free.take (request.demand taken))}

/-- The plan with these block images. -/
def createdPlan (images : PlanImages) : NewObjectPlan :=
  { inodeNumber := inodeBit + 1, objectSize := UInt64.ofNat request.data.length, directoryBlock := u.directoryBlock
    directoryGrew := u.directoryGrew, dataBlocks := request.dataBlocks r taken
    fileIndirectBlock := request.fileTable r taken, rootIndirectBlock := u.rootIndirectBlock
    totalBlocks := r.superblock.totalBlocks, filesystemUuid := r.superblock.filesystemUuid, images }

end Definitions

/-- A request that the planner takes on when there is space. -/
structure Accepted (request : NewObjectRequest) (r : ImageReader) (root : InodeRecord) : Prop where
  regions : r.superblock.Regions
  sound : r.superblock.Sound r.image
  readable : Readable r.superblock r.image r.superblock.rootInode.toNat root
  directory : S_ISDIR root.mode
  name : isValidRootObjectName request.name
  absent : request.name ∉ (root.entries r.image).map DirectoryEntry.name
  size : request.data.length ≤ kMaxFileSize

/-- A new object of a sound image whose entry has its place. -/
structure Placed (request : NewObjectRequest) (r : ImageReader) (root : InodeRecord) (inodeBit : ℕ) (u : RootUpdate)
    (taken : ℕ) (edited released blocks : List ℕ) (table : ℕ) (d : Image) :
      Prop extends request.Accepted r root where
  inode : inodeBit ∈ r.inodeAllocator.free
  place : RootPlaced r root (request.entry inodeBit) u taken edited released blocks table d

variable {request : NewObjectRequest} {r : ImageReader} {root : InodeRecord} {inodeBit taken : ℕ} {u : RootUpdate}
  {edited released blocks : List ℕ} {table b : ℕ} {d : Image}

namespace Placed

variable (h : request.Placed r root inodeBit u taken edited released blocks table d)

include h

theorem fits : r.blockAllocator.Fits := blockAllocator_fits h.regions

theorem free_spec (hb : b ∈ r.blockAllocator.free) :
    (r.superblock.data.start ≤ b ∧ b < r.superblock.totalBlocks.toNat) ∧
    r.superblock.blockBit r.image b = false := (mem_free h.fits).mp hb

theorem inode_spec : inodeBit < r.superblock.totalInodes.toNat ∧ r.inodeBitmap.testBit inodeBit = false := by
  obtain ⟨⟨-, h1⟩, h2⟩ := (mem_free (inodeAllocator_fits h.regions)).mp h.inode
  exact ⟨h1, h2⟩

theorem blockCount_le : request.blockCount ≤ 1036 := by
  have hsize : request.data.length ≤ 1036 * 4096 := h.size
  rw [blockCount, requiredBlocks_eq]
  omega

theorem not_free (hb : b ∈ root.owned r.image) : b ∉ r.blockAllocator.free := by
  intro hc
  have hset := h.readable.blocks b hb
  rw [(h.free_spec hc).2] at hset
  cases hset

theorem edited_mem (hb : b ∈ edited) : b ∈ root.owned r.image := List.mem_append_left _ (h.place.edits b hb)

omit h in
theorem mem_free_of_dataBlocks (hb : b ∈ request.dataBlocks r taken) : b ∈ r.blockAllocator.free :=
  List.mem_of_mem_drop (List.mem_of_mem_take hb)

omit h in
theorem nodup_dataBlocks : (request.dataBlocks r taken).Nodup :=
  ((r.blockAllocator.nodup_free).sublist (List.drop_sublist _ _)).sublist (List.take_sublist _ _)

omit h in
theorem not_taken_of_dataBlocks (hb : b ∈ request.dataBlocks r taken) : b ∉ r.blockAllocator.free.take taken := by
  have hn := r.blockAllocator.nodup_free
  rw [← List.take_append_drop taken r.blockAllocator.free] at hn
  exact fun hc => (List.nodup_append.mp hn).2.2 b hc b (List.mem_of_mem_take hb) rfl

section Data

variable (hdata : taken + request.blockCount ≤ r.blockAllocator.free.length)

include hdata

omit h in
theorem length_dataBlocks : (request.dataBlocks r taken).length = request.blockCount := by
  rw [dataBlocks, List.length_take, List.length_drop]
  omega

omit h in
theorem ordered_fst : (request.ordered r taken).map Prod.fst = request.dataBlocks r taken := by
  rw [ordered, List.map_map]
  show List.map Prod.snd _ = _
  rw [List.map_snd_zip]
  rw [length_dataBlocks hdata, List.length_range]

theorem builds_data : (u.images.addOrderedAll r.image (request.ordered r taken)).Builds r.image
    (putAll d (request.ordered r taken)) {b | b ∈ request.dataBlocks r taken}
    {b | b ∈ edited ∨ b ∈ r.blockAllocator.free.take taken} := by
  have hbuild := @PlanImages.Builds.addOrderedAll _ _ _ _ _ h.place.images (request.ordered r taken) fun x hx => by
    have hmem : x.1 ∈ request.dataBlocks r taken := ordered_fst hdata ▸ List.mem_map_of_mem hx
    rintro (hc | hc)
    · exact h.not_free (h.edited_mem hc) (mem_free_of_dataBlocks hmem)
    · exact not_taken_of_dataBlocks hmem hc
  rw [ordered_fst hdata, Set.empty_union] at hbuild
  exact hbuild

end Data

theorem foldlM_eq : (List.range request.blockCount).foldlM (addDataBlock r request.data)
    ⟨u.allocator, u.images, []⟩ = if taken + request.blockCount ≤ r.blockAllocator.free.length then
      .ok ⟨r.blockAllocator.taking (r.blockAllocator.free.take (taken + request.blockCount)),
        u.images.addOrderedAll r.image (request.ordered r taken), request.dataBlocks r taken⟩
    else .error noSpace := by
  have hfree : u.allocator.free = r.blockAllocator.free.drop taken := by
    rw [h.place.allocator]
    exact free_taking (List.take_append_drop _ _).symm
  have hspace := h.place.space
  have hfits : u.allocator.Fits := by
    rw [h.place.allocator]
    exact h.fits.taking _
  have hvalid : u.allocator.validBits ≤ r.superblock.totalBlocks.toNat := by
    rw [h.place.allocator]
    exact le_rfl
  rw [foldlM_addDataBlock (s := ⟨u.allocator, u.images, []⟩) hfits hvalid]
  simp only [hfree, List.length_range, List.length_drop, List.nil_append]
  refine if_congr (by omega) (congrArg Except.ok ?_) rfl
  rw [h.place.allocator, taking_taking, List.take_add]
  rfl

theorem data_range (hb : b ∈ request.dataBlocks r taken) :
    r.superblock.data.start ≤ b ∧ b < r.superblock.totalBlocks.toNat := (h.free_spec (mem_free_of_dataBlocks hb)).1

section Space

variable (hspace : request.demand taken ≤ r.blockAllocator.free.length)

include hspace

omit h in
theorem data_le : taken + request.blockCount ≤ r.blockAllocator.free.length := by
  rw [demand] at hspace
  omega

omit h in
/-- The blocks in use: those of the root, the data of the file and its indirect block. -/
theorem reserved_eq : r.blockAllocator.free.take (request.demand taken) =
    r.blockAllocator.free.take taken ++ ownedOf (request.dataBlocks r taken) (request.fileTable r taken) := by
  have hlen := length_dataBlocks (data_le hspace)
  rw [demand, List.take_add, List.take_add, ownedOf, hlen, dataBlocks, fileTable]
  rw [demand] at hspace
  congr 2
  split_ifs with h12
  · rw [if_pos h12] at hspace
    rw [List.drop_drop, List.take_one, List.head?_drop, List.getD_eq_getElem?_getD,
      List.getElem?_eq_getElem (by omega)]
    rfl
  · rfl

omit h in
theorem fileOwned_nodup : (ownedOf (request.dataBlocks r taken) (request.fileTable r taken)).Nodup := by
  have hn := (r.blockAllocator.nodup_free).sublist (List.take_sublist (request.demand taken) _)
  rw [reserved_eq hspace] at hn
  exact (List.nodup_append.mp hn).2.1

omit h in
theorem fileOwned_not_taken (hb : b ∈ ownedOf (request.dataBlocks r taken) (request.fileTable r taken)) :
    b ∉ r.blockAllocator.free.take taken := by
  have hn := (r.blockAllocator.nodup_free).sublist (List.take_sublist (request.demand taken) _)
  rw [reserved_eq hspace] at hn
  exact fun hc => (List.nodup_append.mp hn).2.2 b hc b hb rfl

omit h in
theorem fileOwned_free (hb : b ∈ ownedOf (request.dataBlocks r taken) (request.fileTable r taken)) :
    b ∈ r.blockAllocator.free := by
  refine List.mem_of_mem_take (i := request.demand taken) ?_
  rw [reserved_eq hspace]
  exact List.mem_append_right _ hb

omit h in
theorem fileTable_mem (h12 : kDirectBlockCount < request.blockCount) :
    request.fileTable r taken ∈ ownedOf (request.dataBlocks r taken) (request.fileTable r taken) := by
  rw [ownedOf, length_dataBlocks (data_le hspace), if_pos h12]
  exact List.mem_append_right _ (List.mem_singleton_self _)

omit h in
theorem fileTable_not_mem (h12 : kDirectBlockCount < request.blockCount) :
    request.fileTable r taken ∉ request.dataBlocks r taken := by
  have hn := fileOwned_nodup hspace
  rw [ownedOf, length_dataBlocks (data_le hspace), if_pos h12] at hn
  exact fun hc => (List.nodup_append.mp hn).2.2 _ hc _ (List.mem_singleton_self _) rfl

end Space

theorem addFileIndirect_eq (hdata : taken + request.blockCount ≤ r.blockAllocator.free.length)
    (hp : p.Builds r.image (putAll d (request.ordered r taken)) {b | b ∈ request.dataBlocks r taken}
      (request.touched r taken edited)) :
    if request.demand taken ≤ r.blockAllocator.free.length then
      ∃ p', addFileIndirect r ⟨r.blockAllocator.taking (r.blockAllocator.free.take (taken + request.blockCount)), p,
          request.dataBlocks r taken⟩ =
          .ok (request.fileTable r taken,
          ⟨r.blockAllocator.taking (r.blockAllocator.free.take (request.demand taken)), p',
            request.dataBlocks r taken⟩) ∧
        p'.Builds r.image (request.dataImage r taken d) {b | b ∈ request.dataBlocks r taken}
          (request.touched r taken edited)
    else addFileIndirect r ⟨r.blockAllocator.taking (r.blockAllocator.free.take (taken + request.blockCount)), p,
      request.dataBlocks r taken⟩ = .error noSpace := by
  have hlen := length_dataBlocks hdata
  unfold addFileIndirect
  rw [hlen]
  by_cases h12 : kDirectBlockCount < request.blockCount
  · have hdemand : request.demand taken = taken + request.blockCount + 1 := by rw [demand, if_pos h12, Nat.add_assoc]
    have hfree : (r.blockAllocator.taking (r.blockAllocator.free.take (taken + request.blockCount))).free =
        r.blockAllocator.free.drop (taken + request.blockCount) :=
      free_taking (List.take_append_drop _ _).symm
    rw [if_pos h12, reserve_eq (h.fits.taking _), hfree]
    split_ifs with hspace
    · have hget : r.blockAllocator.free.drop (taken + request.blockCount) =
          request.fileTable r taken :: r.blockAllocator.free.drop (taken + request.blockCount + 1) := by
        rw [List.drop_eq_getElem_cons (by omega), fileTable, if_pos h12, List.getD_eq_getElem?_getD,
          List.getElem?_eq_getElem (by omega)]
        rfl
      obtain ⟨⟨hge, hlt⟩, -⟩ := h.free_spec (fileOwned_free hspace (fileTable_mem hspace h12))
      have htake : r.blockAllocator.free.take (request.demand taken) =
          r.blockAllocator.free.take (taken + request.blockCount) ++ [request.fileTable r taken] := by
        rw [hdemand, List.take_add (i := taken + request.blockCount), hget]
        rfl
      have hw := h.regions.writable_data hge hlt
      obtain ⟨p', hp', hbuild⟩ := editMetadataBlock_mem hp (fileTable_not_mem hspace h12)
        ⟨hw, .inr (.inr (by simp [htake]))⟩ hw
        (f := fun _ => .ok (indirectBlockOf (request.dataBlocks r taken))) rfl
      refine ⟨p', ?_, by rwa [dataImage, if_pos h12]⟩
      rw [hget, htake]
      simp only [ok_bind, hp', taking_taking]
      rfl
    · rw [List.drop_eq_nil_of_le (by omega)]
      rfl
  · have hdemand : request.demand taken = taken + request.blockCount := by rw [demand, if_neg h12, Nat.add_zero]
    rw [hdemand, if_pos hdata, if_neg h12]
    exact ⟨p, by rw [fileTable, if_neg h12], by rwa [dataImage, if_neg h12]⟩

/-- The old indirect block of the root is one of its blocks. -/
theorem released_mem (hb : b ∈ released) : b ∈ root.owned r.image := by
  rw [h.place.releases] at hb
  split_ifs at hb with hc
  · rw [List.mem_singleton.mp hb]
    exact InodeRecord.indirect_mem_owned hc.2
  · exact absurd hb List.not_mem_nil

theorem releaseRootIndirect_eq (bits : List ℕ) :
    releaseRootIndirect root.indirect u.rootIndirectBlock (r.blockAllocator.taking bits) =
      .ok ((r.blockAllocator.taking bits).dropping released) := by
  have hone : ∀ b ∈ released, (r.superblock.data.start ≤ b ∧ b < r.superblock.totalBlocks.toNat) ∧
      (r.blockAllocator.taking bits).bitmap.testBit b = true := by
    intro b hb
    refine ⟨h.readable.mapped.inData b (h.released_mem hb), ?_⟩
    have hset : r.blockBitmap.testBit b = true := h.readable.blocks b (h.released_mem hb)
    show (bits.foldl Bitmap.setBit r.blockBitmap).testBit b = true
    rw [testBit_foldl_setBit, hset, Bool.or_true]
  have hnodup : released.Nodup := by
    rw [h.place.releases]
    split_ifs <;> simp
  have hfold := foldlM_releaseAllocated (h.fits.taking bits) hnodup hone
  unfold releaseRootIndirect
  rw [h.place.releases] at hfold ⊢
  split_ifs with hc
  · rw [if_pos hc] at hfold
    simpa only [List.foldlM_cons, List.foldlM_nil, bind_pure] using hfold
  · rfl

/-! ## The records of the two inodes -/

theorem inode_range : 1 ≤ inodeBit + 1 ∧ inodeBit + 1 ≤ r.superblock.totalInodes.toNat := by
  have := h.inode_spec.1
  omega

theorem root_range : 1 ≤ r.superblock.rootInode.toNat ∧
    r.superblock.rootInode.toNat ≤ r.superblock.totalInodes.toNat := by
  obtain ⟨h1, h2, -⟩ := mem_inodes.mp h.sound.root.1
  exact ⟨h1, h2⟩

theorem root_valid : root.Valid ∧ root.inodeNumber.toNat = r.superblock.rootInode.toNat :=
  decodeInode_valid (inodeAt_eq_some.mp h.readable.record)

theorem toNat_inode : (UInt32.ofNat (inodeBit + 1)).toNat = inodeBit + 1 := by
  have h1 := h.inode_range.2
  have h2 := r.superblock.totalInodes.toNat_lt
  exact UInt32.toNat_ofNat_of_lt' (by show _ < 2 ^ 32; omega)

theorem file_size : (request.file r inodeBit taken).size.toNat = request.data.length := by
  have hsize : request.data.length ≤ 1036 * 4096 := h.size
  exact UInt64.toNat_ofNat_of_lt' (by show _ < 2 ^ 64; omega)

omit h in
theorem file_isReg : S_ISREG (request.file r inodeBit taken).mode := isReg_or_permissions _

theorem file_valid : (request.file r inodeBit taken).Valid := by
  refine ⟨fun hc => ?_, .inl file_isReg, h.file_size.trans_le h.size⟩
  have hzero : (UInt32.ofNat (inodeBit + 1)).toNat = 0 := congrArg UInt32.toNat hc
  rw [h.toNat_inode] at hzero
  omega

/-- The root keeps all but its size, its pointers and its times. -/
theorem newRoot_eq : request.newRoot u = { root with
    size := u.root.size, directBlocks := u.root.directBlocks, indirectBlock := u.root.indirectBlock
    mtimeNs := request.timestampNs, ctimeNs := request.timestampNs } := by
  rw [newRoot, touchedRoot, h.place.record]

theorem newRoot_valid : (request.newRoot u).Valid := by
  have hsize := h.place.size
  have hlimit : blocks.length ≤ 1036 := h.place.maps.limit
  rw [h.newRoot_eq]
  refine ⟨h.root_valid.1.number, h.root_valid.1.mode, ?_⟩
  rw [hsize]
  show blocks.length * 4096 ≤ 1036 * 4096
  omega

/-! ## The image block by block -/

theorem frame_of_lt (hb : b < r.superblock.data.start) : d b = r.image b := by
  refine h.place.frame b (fun hc => ?_) fun hc => ?_
  · have := (h.readable.mapped.inData b (h.edited_mem hc)).1
    omega
  · have := (h.free_spec (List.mem_of_mem_take hc)).1.1
    omega

section Space

variable (hspace : request.demand taken ≤ r.blockAllocator.free.length)

include hspace

omit h in
theorem dataImage_of_not_mem (hb : b ∉ ownedOf (request.dataBlocks r taken) (request.fileTable r taken)) :
    request.dataImage r taken d b = d b := by
  have hdata : putAll d (request.ordered r taken) b = d b := by
    refine putAll_of_not_mem fun hc => hb ?_
    rw [ordered_fst (data_le hspace)] at hc
    exact List.mem_append_left _ hc
  unfold dataImage
  split_ifs with h12
  · have hne : b ≠ request.fileTable r taken := fun hc => hb (hc ▸ fileTable_mem hspace h12)
    rw [update_of_ne hne, hdata]
  · exact hdata

omit h in
theorem dataImage_data {j : ℕ} (hj : (request.dataBlocks r taken)[j]? = some b) :
    request.dataImage r taken d b = dataBlock request.data j := by
  have hlen := length_dataBlocks (data_le hspace)
  have hdata : putAll d (request.ordered r taken) b = dataBlock request.data j := by
    refine putAll_of_mem ?_ (List.mem_map.mpr ⟨(j, b), List.mem_of_getElem? (i := j) ?_, rfl⟩)
    · rw [ordered_fst (data_le hspace)]
      exact nodup_dataBlocks
    · refine List.getElem?_zip_eq_some.mpr ⟨List.getElem?_range ?_, hj⟩
      rw [← hlen]
      exact (List.getElem?_eq_some_iff.mp hj).1
  unfold dataImage
  split_ifs with h12
  · have hne : b ≠ request.fileTable r taken :=
      fun hc => fileTable_not_mem hspace h12 (hc ▸ List.mem_of_getElem? hj)
    rw [update_of_ne hne, hdata]
  · exact hdata

omit h hspace in
theorem dataImage_table (h12 : kDirectBlockCount < request.blockCount) :
    request.dataImage r taken d (request.fileTable r taken) = indirectBlockOf (request.dataBlocks r taken) := by
  rw [dataImage, if_pos h12, update_self]

theorem dataImage_of_lt (hb : b < r.superblock.data.start) : request.dataImage r taken d b = r.image b := by
  rw [dataImage_of_not_mem hspace, h.frame_of_lt hb]
  intro hc
  have := (h.free_spec (fileOwned_free hspace hc)).1.1
  omega

omit h hspace in
theorem recordImage_of_not_table (h1 : b ≠ inodeTableBlock r.superblock (inodeBit + 1))
    (h2 : b ≠ inodeTableBlock r.superblock r.superblock.rootInode.toNat) :
    request.recordImage r inodeBit taken u d b = request.dataImage r taken d b := by
  rw [recordImage, storeRecord, update_of_ne h1, storeRecord, update_of_ne h2]

theorem recordImage_of_lt (hb : b < r.superblock.inodeTable.start) :
    request.recordImage r inodeBit taken u d b = r.image b := by
  obtain ⟨e1, e2, e3, e4, h5, h6, h7, h8⟩ := h.regions.chain
  have ht := h.regions.table_range h.inode_range.1 h.inode_range.2
  have htr := h.regions.table_range h.root_range.1 h.root_range.2
  rw [recordImage_of_not_table (by omega) (by omega), h.dataImage_of_lt hspace (by omega)]

end Space

/-! ## The planner -/

theorem publishObject_eq :
    if request.demand taken ≤ r.blockAllocator.free.length then
      ∃ images, publishObject r request inodeBit (r.inodeAllocator.taking [inodeBit]) root.indirect u =
          .ok (request.createdPlan r inodeBit taken u images) ∧
        images.Builds r.image (request.createdImage r inodeBit taken u released d)
          {b | b ∈ request.dataBlocks r taken} (request.touched r taken edited)
    else publishObject r request inodeBit (r.inodeAllocator.taking [inodeBit]) root.indirect u = .error noSpace := by
  obtain ⟨e1, e2, e3, e4, h5, h6, h7, h8⟩ := h.regions.chain
  have hcount : requiredBlocks request.data.length = request.blockCount := rfl
  unfold publishObject
  rw [hcount, h.foldlM_eq]
  by_cases hdata : taken + request.blockCount ≤ r.blockAllocator.free.length
  · have hwrite : {b | b ∈ edited ∨ b ∈ r.blockAllocator.free.take taken} ⊆
      request.touched r taken edited := by
      rintro b (hb | hb)
      · have := h.readable.mapped.inData b (h.edited_mem hb)
        exact ⟨h.regions.writable_data this.1 this.2, .inr (.inl hb)⟩
      · have := (h.free_spec (List.mem_of_mem_take hb)).1
        exact ⟨h.regions.writable_data this.1 this.2,
          .inr (.inr (List.take_subset_take_left _ (Nat.le_add_right _ _) hb))⟩
    have hM : ∀ b, r.superblock.Writable b → b < r.superblock.journal.start →
      b ∈ request.touched r taken edited :=
      fun b h1 h2 => ⟨h1, .inl h2⟩
    have hO : ∀ b ∈ {b | b ∈ request.dataBlocks r taken}, r.superblock.data.start ≤ b :=
      fun b hb => (h.data_range hb).1
    have hindirect := h.addFileIndirect_eq hdata ((h.builds_data hdata).mono subset_rfl hwrite)
    rw [if_pos hdata, ok_bind]
    split_ifs at hindirect ⊢ with hspace
    · obtain ⟨p1, hp1, hb1⟩ := hindirect
      obtain ⟨p2, hp2, hb2⟩ := storeInode_ok hb1 h.regions hO hM h.root_range.1 h.root_range.2 h.newRoot_valid
      obtain ⟨p3, hp3, hb3⟩ := storeInode_ok hb2 h.regions hO hM h.inode_range.1 h.inode_range.2 h.file_valid
      have hp3 : storeInode r (inodeBit + 1) (newFile request (inodeBit + 1) (request.dataBlocks r taken)
        (request.fileTable r taken)) p2 = .ok p3 := hp3
      have hp2 : storeInode r r.superblock.rootInode.toNat (touchedRoot u.root request.timestampNs) p1 = .ok p2 := hp2
      have hb4 := @PlanImages.Builds.addBitmap _ _ _ _ _ hb3 r.superblock.inodeBitmap r.inodeBitmap
        (r.inodeAllocator.taking [inodeBit]).bitmap (fun k hk hc => by have := hO _ hc; omega)
        (fun k _ => (bitmapBlock_loadBitmap _ _ _).symm) fun k hk => by
          show request.recordImage r inodeBit taken u d _ = _
          rw [h.recordImage_of_lt hspace (by omega)]
          exact (bitmapBlock_loadBitmap _ _ _).symm
      have hb5 := @PlanImages.Builds.addBitmap _ _ _ _ _ hb4 r.superblock.blockBitmap r.blockBitmap
        ((r.blockAllocator.taking (r.blockAllocator.free.take (request.demand taken))).dropping released).bitmap
        (fun k hk hc => by have := hO _ hc; omega) (fun k _ => (bitmapBlock_loadBitmap _ _ _).symm) fun k hk => by
          rw [putBitmap_of_out (by omega)]
          show request.recordImage r inodeBit taken u d _ = _
          rw [h.recordImage_of_lt hspace (by omega)]
          exact (bitmapBlock_loadBitmap _ _ _).symm
      rw [hp1, ok_bind]
      simp only [h.releaseRootIndirect_eq, ok_bind, hp2, hp3]
      refine ⟨_, rfl, hb5.mono subset_rfl ?_⟩
      rintro b ((hb | ⟨hb1, hb2⟩) | ⟨hb1, hb2⟩)
      · exact hb
      · exact hM b (h.regions.writable_metadata (by omega) (by omega)) (by omega)
      · exact hM b (h.regions.writable_metadata (by omega) (by omega)) (by omega)
    · rw [hindirect]
      rfl
  · have hspace : ¬ request.demand taken ≤ r.blockAllocator.free.length := fun hc => hdata (data_le hc)
    rw [if_neg hdata, if_neg hspace]
    rfl

end Placed

end NewObjectRequest

end Eufs
