import Eufs.Metadata.Creation
import Eufs.Metadata.EmptyFile

/-!
# Eufs.Metadata.FirstFile — the first file is a new object

The planner for the first file keeps its own maps and edits one block of each bitmap.  The image it builds is still the
one of a new object without data, so the two planners agree and the image is sound.
-/

namespace Eufs

open ImageReader BitmapAllocator Function InodeRecord NewObjectRequest

theorem bitmapBlock_setBit {bm : Bitmap} {bit k : ℕ} (h : k ≠ bit / (kBlockSize * 8)) :
    bitmapBlock (bm.setBit bit) k = bitmapBlock bm k := by
  refine bitmapBlock_congr fun i hi => ?_
  have hne : i ≠ bit / 8 := by
    rintro rfl
    refine h ?_
    rw [← hi, Nat.div_div_eq_div_mul, Nat.mul_comm]
  simp [Bitmap.setBit, hne]

namespace CreateImages

variable {r : ImageReader} {m m' : CreateImages} {d : Image}

/-- The maps as the images of a plan without ordered data. -/
def images (m : CreateImages) : PlanImages := ⟨m.before, ∅, m.after⟩

theorem images_after (m : CreateImages) (d : Image) (b : ℕ) : m.images.after d b = m.after[b]?.getD (d b) := by
  simp [images, PlanImages.after]

/-- Before-images do not matter for the image of the plan. -/
theorem after_insert (m : CreateImages) (before : BlockMap) (d : Image) (b : ℕ) (y : Block) :
    (CreateImages.mk before (m.after.insert b y)).images.after d = update (m.images.after d) b y :=
  @PlanImages.after_setMetadata m.images d b y y

theorem after_addBitmapHome {region : Region} {bitmap : Bitmap} {bit : ℕ}
    (h : m.addBitmapHome r region bitmap bit = .ok m') : m'.images.after d = update (m.images.after d)
      (region.start + bit / (kBlockSize * 8)) (bitmapBlock bitmap (bit / (kBlockSize * 8))) := by
  obtain ⟨x, -, h⟩ := bind_eq_ok.mp h
  obtain rfl := Except.ok.inj h
  exact m.after_insert _ d _ _

/-- The planner edits the block as the plan has it so far. -/
theorem after_of_mutableExistingBlock {b : ℕ} {x : Block} (h : mutableExistingBlock r m.after b = .ok x) :
    m.images.after r.image b = x := by
  unfold mutableExistingBlock at h
  rw [images_after]
  cases hb : m.after[b]? with
  | none =>
    rw [hb] at h
    exact (readBlock_eq_ok.mp h).2
  | some y =>
    rw [hb] at h
    exact Except.ok.inj h

theorem after_addRoot {record : InodeRecord} (h : m.addRoot r record = .ok m') : m'.images.after r.image =
    storeRecord r.superblock r.superblock.rootInode.toNat record (m.images.after r.image) := by
  obtain ⟨x, hx, h⟩ := bind_eq_ok.mp h
  obtain ⟨bytes, hbytes, h⟩ := bind_eq_ok.mp h
  obtain rfl := Except.ok.inj h
  obtain ⟨-, rfl⟩ := encodeInode_eq_ok.mp (orFail_eq_ok.mp hbytes)
  rw [storeRecord, after_of_mutableExistingBlock hx]
  exact m.after_insert _ _ _ _

theorem after_addFile {n : ℕ} {record : InodeRecord} (h : m.addFile r n record = .ok m') :
    m'.images.after r.image = storeRecord r.superblock n record (m.images.after r.image) := by
  obtain ⟨x, hx, h⟩ := bind_eq_ok.mp h
  obtain ⟨bytes, hbytes, h⟩ := bind_eq_ok.mp h
  obtain rfl := Except.ok.inj h
  obtain ⟨-, rfl⟩ := encodeInode_eq_ok.mp (orFail_eq_ok.mp hbytes)
  rw [storeRecord, after_of_mutableExistingBlock hx]
  exact m.after_insert _ _ _ _

theorem after_addDirectory {b : ℕ} {entry : DirectoryEntry} (h : m.addDirectory r b entry = .ok m') :
    entry.New ∧ m'.images.after d = update (m.images.after d) b (oneEntryBlock entry) := by
  obtain ⟨x, -, h⟩ := bind_eq_ok.mp h
  obtain ⟨y, hy, h⟩ := bind_eq_ok.mp h
  obtain rfl := Except.ok.inj h
  obtain ⟨hfits, rfl⟩ := encodeDirectoryEntry_eq_ok.mp (orFail_eq_ok.mp hy)
  exact ⟨⟨hfits.inode, hfits.type, hfits.name⟩, m.after_insert _ d _ _⟩

end CreateImages

/-! ## The same image -/

/-- The images of a plan, which has no ordered data. -/
def EmptyFileCreatePlan.images (plan : EmptyFileCreatePlan) : PlanImages :=
  ⟨plan.beforeImages, ∅, plan.afterImages⟩

/-- The object that the first file is. -/
abbrev firstObject (name : Name) (permissions uid gid : UInt32) (timestampNs : UInt64) : NewObjectRequest :=
  ⟨name, [], permissions, uid, gid, timestampNs⟩

/-- Storing a record changes one block, by what that block holds. -/
theorem storeRecord_congr {sb : Superblock} {n c : ℕ} {v : InodeRecord} {d d' : Image}
    (htable : d' (inodeTableBlock sb n) = d (inodeTableBlock sb n)) (h : d' c = d c) :
    storeRecord sb n v d' c = storeRecord sb n v d c := by
  unfold storeRecord
  rw [htable]
  by_cases hc : c = inodeTableBlock sb n
  · rw [hc, update_self, update_self]
  · rw [update_of_ne hc, update_of_ne hc, h]

theorem storeRecord_of_ne {sb : Superblock} {n c : ℕ} {v : InodeRecord} {d : Image} (h : c ≠ inodeTableBlock sb n) :
    storeRecord sb n v d c = d c := update_of_ne h _ _

/-- An empty root is given its first block as any root its next one. -/
theorem grownRoot_eq {root : InodeRecord} (h : root.isEmptyRoot) (b : ℕ) (timestampNs : UInt64) :
    touchedRoot (RootGrows.directRoot root b) timestampNs = grownRoot root b timestampNs := by
  have hreq : root.requiredBlocks = 0 := by
    rw [InodeRecord.requiredBlocks_eq, h.1]
    rfl
  have hset : root.directBlocks.setIfInBounds 0 (UInt32.ofNat b) =
      root.directBlocks.set 0 (UInt32.ofNat b) kDirectBlockCount_pos := by
    ext i hi
    simp [Vector.getElem_setIfInBounds, Vector.getElem_set]
  unfold touchedRoot RootGrows.directRoot grownRoot
  rw [hreq, hset, h.1]
  rfl

section FirstFile

variable {r : ImageReader} {name : Name} {permissions uid gid : UInt32} {timestampNs : UInt64}
  {plan : EmptyFileCreatePlan}

theorem emptyFile_eq (inodeBit : ℕ) : (firstObject name permissions uid gid timestampNs).file r inodeBit 1 =
    emptyFile (inodeBit + 1) permissions uid gid timestampNs := by
  have hdata : (firstObject name permissions uid gid timestampNs).dataBlocks r 1 = [] := List.take_zero
  unfold file newFile emptyFile
  rw [hdata]
  rfl

theorem dataImage_firstObject (d : Image) :
    (firstObject name permissions uid gid timestampNs).dataImage r 1 d = d := rfl

/-- The blocks of the plan in the order of the planner, and the image of the object. -/
theorem firstImage_eq (hr : r.superblock.Regions) {inodeBit b n : ℕ} {file root : InodeRecord} {x : Block}
    (hi : inodeBit < r.superblock.totalInodes.toNat)
    (hb : r.superblock.data.start ≤ b ∧ b < r.superblock.totalBlocks.toNat) (h1 : 1 ≤ n)
    (h2 : n ≤ r.superblock.totalInodes.toNat) :
    update (storeRecord r.superblock (inodeBit + 1) file (storeRecord r.superblock n root
      (update (update r.image
        (r.superblock.inodeBitmap.start + inodeBit / (kBlockSize * 8))
        (bitmapBlock (r.inodeBitmap.setBit inodeBit) (inodeBit / (kBlockSize * 8))))
        (r.superblock.blockBitmap.start + b / (kBlockSize * 8))
        (bitmapBlock (r.blockBitmap.setBit b) (b / (kBlockSize * 8)))))) b x =
    PlanImages.putBitmap (PlanImages.putBitmap (storeRecord r.superblock (inodeBit + 1) file
      (storeRecord r.superblock n root (update r.image b x))) r.superblock.inodeBitmap
        (r.inodeBitmap.setBit inodeBit)) r.superblock.blockBitmap (r.blockBitmap.setBit b) := by
  obtain ⟨e1, e2, e3, e4, h5, h6, h7, h8⟩ := hr.chain
  obtain ⟨hlt1, hlt2⟩ := bitmapHome_lt hr hi hb.2
  obtain ⟨t1, t2⟩ := hr.table_range h1 h2
  obtain ⟨s1, s2⟩ := hr.table_range (m := inodeBit + 1) (by omega) (by omega)
  generalize hq : inodeBit / (kBlockSize * 8) = q at *
  generalize hp : b / (kBlockSize * 8) = p at *
  funext c
  by_cases hcb : r.superblock.blockBitmap.start ≤ c ∧
    c < r.superblock.blockBitmap.start + r.superblock.blockBitmap.count
  · -- a block of the block bitmap
    obtain ⟨k, rfl⟩ := Nat.exists_eq_add_of_le hcb.1
    rw [PlanImages.putBitmap_of_in (by omega), update_of_ne (by omega), storeRecord_of_ne (by omega),
      storeRecord_of_ne (by omega)]
    by_cases hk : k = p
    · rw [hk, update_self]
    · rw [update_of_ne (by omega), update_of_ne (by omega), bitmapBlock_setBit (by rwa [hp])]
      exact (bitmapBlock_loadBitmap _ _ _).symm
  rw [PlanImages.putBitmap_of_out (by omega)]
  by_cases hci : r.superblock.inodeBitmap.start ≤ c ∧
    c < r.superblock.inodeBitmap.start + r.superblock.inodeBitmap.count
  · -- a block of the inode bitmap
    obtain ⟨k, rfl⟩ := Nat.exists_eq_add_of_le hci.1
    rw [PlanImages.putBitmap_of_in (by omega), update_of_ne (by omega), storeRecord_of_ne (by omega),
      storeRecord_of_ne (by omega), update_of_ne (by omega)]
    by_cases hk : k = q
    · rw [hk, update_self]
    · rw [update_of_ne (by omega), bitmapBlock_setBit (by rwa [hq])]
      exact (bitmapBlock_loadBitmap _ _ _).symm
  rw [PlanImages.putBitmap_of_out (by omega)]
  -- the rest: the records and the directory block
  by_cases hc : c = b
  · rw [hc, update_self, storeRecord_of_ne (by omega), storeRecord_of_ne (by omega), update_self]
  have hsame : ∀ a, a ≠ b → ¬ (r.superblock.blockBitmap.start ≤ a ∧
      a < r.superblock.blockBitmap.start + r.superblock.blockBitmap.count) →
      ¬ (r.superblock.inodeBitmap.start ≤ a ∧
      a < r.superblock.inodeBitmap.start + r.superblock.inodeBitmap.count) →
      update (update r.image (r.superblock.inodeBitmap.start + q) (bitmapBlock (r.inodeBitmap.setBit inodeBit) q))
        (r.superblock.blockBitmap.start + p) (bitmapBlock (r.blockBitmap.setBit b) p) a = update r.image b x a := by
    intro a ha hab hai
    rw [update_of_ne (by omega), update_of_ne (by omega), update_of_ne ha]
  have hroot := hsame (inodeTableBlock r.superblock n) (by omega) (by omega) (by omega)
  rw [update_of_ne hc]
  refine storeRecord_congr (storeRecord_congr hroot (hsame _ (by omega) (by omega) (by omega))) ?_
  exact storeRecord_congr hroot (hsame c hc hcb hci)

/-- The plan for the first file builds the image of a new object without data. -/
theorem created_of_prepareRootEmptyFileCreate (hr : r.superblock.Regions) (hs : r.superblock.Sound r.image)
    (hplan : prepareRootEmptyFileCreate r name permissions uid gid timestampNs = .ok plan) :
    ∃ root inodeBit u blocks d,
    (firstObject name permissions uid gid timestampNs).Placed r root inodeBit u 1 [] [] blocks 0 d ∧
      root.isEmptyRoot ∧ (firstObject name permissions uid gid timestampNs).demand 1 ≤
        r.blockAllocator.free.length ∧
      plan.images.after r.image = (firstObject name permissions uid gid timestampNs).createdImage r
        inodeBit 1 u [] d := by
  unfold prepareRootEmptyFileCreate at hplan
  obtain ⟨root, hroot, h⟩ := bind_eq_ok.mp hplan
  obtain ⟨hdir, h⟩ := reject_bind_eq_ok.mp h
  obtain ⟨hempty, h⟩ := reject_bind_eq_ok.mp h
  obtain ⟨-, -, h⟩ := bind_eq_ok.mp h
  obtain ⟨-, -, h⟩ := bind_eq_ok.mp h
  obtain ⟨⟨inodeBit, inodes⟩, hinode, h⟩ := bind_eq_ok.mp h
  obtain ⟨⟨b, blocks⟩, hblock, h⟩ := bind_eq_ok.mp h
  obtain ⟨m₁, h1, h⟩ := bind_eq_ok.mp h
  obtain ⟨m₂, h2, h⟩ := bind_eq_ok.mp h
  obtain ⟨m₃, h3, h⟩ := bind_eq_ok.mp h
  obtain ⟨m₄, h4, h⟩ := bind_eq_ok.mp h
  obtain ⟨m₅, h5, h⟩ := bind_eq_ok.mp h
  obtain rfl := Except.ok.inj h
  have hdir := not_not.mp hdir
  have hempty := not_not.mp hempty
  have hv := readInode_eq_ok.mp hroot
  obtain ⟨hn1, hn2, -⟩ := Superblock.mem_inodes.mp hv.allocated
  obtain ⟨⟨restI, hfreeI⟩, rfl⟩ := reserve_cons (inodeAllocator_fits hr) hinode
  obtain ⟨⟨restB, hfreeB⟩, rfl⟩ := reserve_cons (blockAllocator_fits hr) hblock
  have hbit : inodeBit < r.superblock.totalInodes.toNat := (reserve_range hinode).2
  have hrange : r.superblock.data.start ≤ b ∧ b < r.superblock.totalBlocks.toNat := reserve_range hblock
  obtain ⟨hentry, hlast⟩ := CreateImages.after_addDirectory (d := r.image) h5
  have hreq : root.requiredBlocks = 0 := by
    rw [InodeRecord.requiredBlocks_eq, hempty.1]
    rfl
  have hblocks : root.blocks r.image = [] := by rw [blocks, hreq]; rfl
  have hgrows : RootGrows r r.superblock.rootInode.toNat root
      ((firstObject name permissions uid gid timestampNs).entry inodeBit) :=
    ⟨hr, hs, hv, hdir, hentry, by rw [hreq]; decide⟩
  have hplace := hgrows.placed_direct (by rw [hreq]; decide) hfreeB
    ((PlanImages.builds_empty r.image).setMetadata (Set.notMem_empty b) rfl |>.mono subset_rfl
      (Set.insert_subset rfl (Set.empty_subset _)))
  refine ⟨root, inodeBit, _, _, _, ⟨⟨hr, hs, hv, hdir, hentry.name, ?_, Nat.zero_le _⟩,
    hfreeI ▸ List.mem_cons_self, hplace⟩, hempty, ?_, ?_⟩
  · rw [entries, hblocks]
    exact List.not_mem_nil
  · show 1 ≤ _
    rw [hfreeB, List.length_cons]
    omega
  · have hstart : (CreateImages.mk ∅ ∅).images.after r.image = r.image := PlanImages.after_empty r.image
    show m₅.images.after r.image = _
    rw [hlast, CreateImages.after_addFile h4, CreateImages.after_addRoot h3, CreateImages.after_addBitmapHome h2,
      CreateImages.after_addBitmapHome h1, hstart]
    refine (firstImage_eq hr hbit hrange hn1 hn2).trans ?_
    have htake : r.blockAllocator.free.take ((firstObject name permissions uid gid timestampNs).demand 1) = [b] := by
      show r.blockAllocator.free.take 1 = [b]
      rw [hfreeB, List.take_succ_cons, List.take_zero]
    rw [createdImage, recordImage, emptyFile_eq, newRoot, grownRoot_eq hempty,
      dataImage_firstObject, htake]
    rfl

end FirstFile

end Eufs
