import Eufs.Metadata.NewFile
import Eufs.Metadata.Overwrite

/-!
# Eufs.Metadata.Creation — creating an object is inserting into a map

On an image the checker calls healthy, a planned object gives an image that opens and in which the path of the object
leads to a new file with the data, the root lists its old entries and the new one, and the reader sees the rest of the
tree as before.
-/

namespace Eufs

open ImageReader BitmapAllocator Formatted NewObjectRequest

/-- A plan that writes to the data region and to blocks for metadata leaves the superblock and the controls alone. -/
theorem PlanImages.Builds.keepsControls {p : PlanImages} {sb : Superblock} {d d' : Image} {O : Set ℕ}
    (h : p.Builds d d' O {b | sb.Writable b}) (hr : sb.Regions) (hO : ∀ b ∈ O, sb.data.start ≤ b) :
    KeepsControls sb d d' := by
  obtain ⟨e1, e2, e3, e4, h5, h6, h7, h8⟩ := hr.chain
  refine ⟨h.frame (fun hc => ?_) fun hc => absurd hc.1 (Nat.lt_irrefl 0), fun copy => ?_⟩
  · have := hO 0 hc
    omega
  · obtain ⟨hc1, hc2⟩ := hr.offsetsInside.control copy
    refine h.frame (fun hc => ?_) fun hc => hc.2.2 (hr.controlBlock_mem copy)
    have := hO _ hc
    omega

namespace NewObjectRequest

variable {request : NewObjectRequest} {r : ImageReader} {root : InodeRecord} {inodeBit : ℕ}

theorem validName_of_root {name : Name} (h : isValidRootObjectName name) : isValidName name := by
  obtain ⟨h1, h2, h3, h4, h5, h6⟩ := h
  exact ⟨h1, h2, h3, h4, h5, h6⟩

namespace Accepted

variable (h : request.Accepted r root)

include h

theorem listDirectory_root : r.listDirectory r.superblock.rootInode.toNat = .ok (root.entries r.image) :=
  listDirectory_of_listable h.readable h.directory
    (h.sound.listable h.readable.allocated h.readable.record h.directory)

theorem prepare_eq : prepareNewRootObject r request = (do
    let (inodeBit, inodes) ← r.inodeAllocator.reserve
    let u ← placeEntry r root (request.entry inodeBit)
    publishObject r request inodeBit inodes root.indirect u) := by
  have hinodes := inodeAllocator_validate h.regions h.sound.adoptable
  have hblocks := blockAllocator_validate h.regions h.sound.adoptable
  unfold prepareNewRootObject
  rw [reject_bind_of_not (not_not.mpr h.name), reject_bind_of_not (not_lt.mpr h.size)]
  simp only [readInode_eq_ok.mpr h.readable, ok_bind]
  rw [reject_bind_of_not (not_not.mpr h.directory), h.listDirectory_root, ok_bind,
    reject_bind_of_not (h.absent ∘ List.mem_map.mpr), hinodes, hblocks]
  rfl

theorem entry_new (hbit : inodeBit ∈ r.inodeAllocator.free) : (request.entry inodeBit).New := by
  refine ⟨fun hc => ?_, .inl rfl, validName_of_root h.name⟩
  obtain ⟨⟨-, hlt⟩, -⟩ := (mem_free (inodeAllocator_fits h.regions)).mp hbit
  have hlt : inodeBit < r.superblock.totalInodes.toNat := hlt
  have hmax := r.superblock.totalInodes.toNat_lt
  have hzero : (UInt32.ofNat (inodeBit + 1)).toNat = 0 := congrArg UInt32.toNat hc
  rw [UInt32.toNat_ofNat_of_lt' (by show _ < 2 ^ 32; omega)] at hzero
  omega

/-- Without a free inode, a place for the entry or free blocks the planner fails for lack of space. -/
theorem prepare_noSpace (hshort : ∀ bit ∈ r.inodeAllocator.free,
      ¬ ((RootHasRoom r root (request.entry bit) ∨ root.requiredBlocks < kDirectBlockCount + kIndirectEntries) ∧
        request.demand (rootDemand r root (request.entry bit)) ≤ r.blockAllocator.free.length)) :
    ∃ detail, prepareNewRootObject r request = .error ⟨.ENOSPC, detail⟩ := by
  rw [h.prepare_eq, reserve_eq (inodeAllocator_fits h.regions)]
  cases hfree : r.inodeAllocator.free with
  | nil => exact ⟨_, rfl⟩
  | cons bit rest =>
    have hbit : bit ∈ r.inodeAllocator.free := hfree ▸ List.mem_cons_self
    simp only [ok_bind]
    rcases placeEntry_spec h.regions h.sound h.readable h.directory (h.entry_new hbit) with
      ⟨hroom, -, u, edited, released, blocks, table, d, hu, hplace⟩ | ⟨-, detail, herr⟩
    · have hp : request.Placed r root bit u _ edited released blocks table d := ⟨h, hbit, hplace⟩
      have hpublish := hp.publishObject_eq
      rw [if_neg fun hc => hshort bit hbit ⟨hroom, hc⟩] at hpublish
      rw [hu, ok_bind, hpublish]
      exact ⟨_, rfl⟩
    · exact ⟨detail, by rw [herr]; rfl⟩

/-- With all of them the object gets the first free inode, and the plan builds the image with the object. -/
theorem prepare_ok {rest : List ℕ} (hfree : r.inodeAllocator.free = inodeBit :: rest)
    (hroom : RootHasRoom r root (request.entry inodeBit) ∨ root.requiredBlocks < kDirectBlockCount + kIndirectEntries)
    (hspace : request.demand (rootDemand r root (request.entry inodeBit)) ≤ r.blockAllocator.free.length) :
    ∃ u edited released blocks table d images,
      request.Placed r root inodeBit u (rootDemand r root (request.entry inodeBit)) edited released blocks table d ∧
      prepareNewRootObject r request =
        .ok (request.createdPlan r inodeBit (rootDemand r root (request.entry inodeBit)) u images) ∧
      images.Builds r.image
        (request.createdImage r inodeBit (rootDemand r root (request.entry inodeBit)) u released d)
        {b | b ∈ request.dataBlocks r (rootDemand r root (request.entry inodeBit))}
        (request.touched r (rootDemand r root (request.entry inodeBit)) edited) := by
  have hbit : inodeBit ∈ r.inodeAllocator.free := hfree ▸ List.mem_cons_self
  rw [h.prepare_eq, reserve_eq (inodeAllocator_fits h.regions), hfree]
  simp only [ok_bind]
  rcases placeEntry_spec h.regions h.sound h.readable h.directory (h.entry_new hbit) with
    ⟨-, -, u, edited, released, blocks, table, d, hu, hplace⟩ | ⟨hnot, -⟩
  · have hp : request.Placed r root inodeBit u _ edited released blocks table d := ⟨h, hbit, hplace⟩
    have hpublish := hp.publishObject_eq
    rw [if_pos hspace] at hpublish
    obtain ⟨images, hok, hbuild⟩ := hpublish
    refine ⟨u, edited, released, blocks, table, d, images, hp, ?_, hbuild⟩
    rw [hu, ok_bind, hok]
  · refine absurd ⟨hroom, ?_⟩ hnot
    rw [demand] at hspace
    omega

end Accepted

theorem accepted_of_prepare {plan : NewObjectPlan} (hr : r.superblock.Regions) (hs : r.superblock.Sound r.image)
    (hplan : prepareNewRootObject r request = .ok plan) : ∃ root, request.Accepted r root := by
  unfold prepareNewRootObject at hplan
  obtain ⟨hname, hplan⟩ := reject_bind_eq_ok.mp hplan
  obtain ⟨hsize, hplan⟩ := reject_bind_eq_ok.mp hplan
  obtain ⟨root, hroot, hplan⟩ := bind_eq_ok.mp hplan
  obtain ⟨hdir, hplan⟩ := reject_bind_eq_ok.mp hplan
  obtain ⟨existing, hlist, hplan⟩ := bind_eq_ok.mp hplan
  obtain ⟨habsent, -⟩ := reject_bind_eq_ok.mp hplan
  have hv := readInode_eq_ok.mp hroot
  have hdir := not_not.mp hdir
  rw [listDirectory_of_listable hv hdir (hs.listable hv.allocated hv.record hdir)] at hlist
  obtain rfl := Except.ok.inj hlist
  exact ⟨root, hr, hs, hv, hdir, not_not.mp hname, habsent ∘ List.mem_map.mp, not_lt.mp hsize⟩

theorem created_of_prepare {plan : NewObjectPlan} (hr : r.superblock.Regions) (hs : r.superblock.Sound r.image)
    (hplan : prepareNewRootObject r request = .ok plan) :
    ∃ root inodeBit u taken edited released blocks table d images,
      request.Placed r root inodeBit u taken edited released blocks table d ∧
      request.demand taken ≤ r.blockAllocator.free.length ∧ plan = request.createdPlan r inodeBit taken u images ∧
      images.Builds r.image (request.createdImage r inodeBit taken u released d)
        {b | b ∈ request.dataBlocks r taken} (request.touched r taken edited) := by
  obtain ⟨root, ha⟩ := accepted_of_prepare hr hs hplan
  by_cases hcan : ∃ inodeBit rest, r.inodeAllocator.free = inodeBit :: rest ∧
      (RootHasRoom r root (request.entry inodeBit) ∨ root.requiredBlocks < kDirectBlockCount + kIndirectEntries) ∧
      request.demand (rootDemand r root (request.entry inodeBit)) ≤ r.blockAllocator.free.length
  · obtain ⟨inodeBit, rest, hfree, hroom, hspace⟩ := hcan
    obtain ⟨u, edited, released, blocks, table, d, images, hp, hok, hbuild⟩ := ha.prepare_ok hfree hroom hspace
    exact ⟨root, inodeBit, u, _, edited, released, blocks, table, d, images, hp, hspace,
      Except.ok.inj (hplan.symm.trans hok), hbuild⟩
  · -- room and demand do not depend on the inode
    obtain ⟨detail, herr⟩ := ha.prepare_noSpace fun bit hbit hok => by
      obtain ⟨first, rest, hfree⟩ := List.exists_cons_of_ne_nil (List.ne_nil_of_mem hbit)
      exact hcan ⟨first, rest, hfree, hok⟩
    rw [herr] at hplan
    cases hplan

namespace Placed

variable {taken : ℕ} {u : RootUpdate} {edited released blocks : List ℕ} {table m : ℕ} {d : Image}
  {w : InodeRecord} (h : request.Placed r root inodeBit u taken edited released blocks table d)
  (hspace : request.demand taken ≤ r.blockAllocator.free.length)

/-! ## What the reader sees -/

/-- The reader of the image with the new object. -/
abbrev reader (_ : request.Placed r root inodeBit u taken edited released blocks table d) : ImageReader :=
  { r with image := request.createdImage r inodeBit taken u released d }

include hspace

theorem readable_file : Readable r.superblock h.reader.image (inodeBit + 1) (request.file r inodeBit taken) :=
  (h.sound_created hspace).readable ((h.mem_inodes hspace).mpr (.inl rfl)) (h.inodeAt_file hspace)

theorem readable_root : Readable r.superblock h.reader.image r.superblock.rootInode.toNat (request.newRoot u) :=
  (h.sound_created hspace).readable ((h.mem_inodes hspace).mpr (.inr h.readable.allocated)) (h.inodeAt_root hspace)

omit hspace in
include h in
theorem newRoot_directory : S_ISDIR (request.newRoot u).mode := by
  rw [h.newRoot_eq]
  exact h.directory

theorem listable_root : ImageReader.Listable r.superblock h.reader.image (request.newRoot u) :=
  (h.sound_created hspace).listable (h.readable_root hspace).allocated (h.inodeAt_root hspace) h.newRoot_directory

theorem listDirectory_root : h.reader.listDirectory r.superblock.rootInode.toNat =
    .ok ((request.newRoot u).entries h.reader.image) :=
  listDirectory_of_listable (r := h.reader) (h.readable_root hspace) h.newRoot_directory
    (h.listable_root hspace)

theorem resolvePath_file :
    h.reader.resolvePath (47 :: request.name) = .ok (inodeBit + 1, request.file r inodeBit taken) := by
  obtain ⟨pre, post, -, hkeys⟩ := h.newRoot_entries hspace
  have hmem : (request.entry inodeBit).key ∈ ((request.newRoot u).entries h.reader.image).map DirectoryEntry.key := by
    rw [hkeys]
    exact List.mem_append_right _ List.mem_cons_self
  obtain ⟨e, he, hkey⟩ := List.mem_map.mp hmem
  have hname : e.name = request.name := congrArg (fun k => k.2.2) hkey
  have hinode : e.inode.toNat = inodeBit + 1 := (congrArg (fun k => k.1.toNat) hkey).trans h.toNat_inode
  rw [← hname, ← pathOf_singleton]
  exact resolvePath_pathOf (r := h.reader) (List.cons_ne_nil _ _)
    (.down (h.readable_root hspace) h.newRoot_directory (h.listable_root hspace) he hinode (.here _))
    (h.readable_file hspace)

theorem readFile_file (offset requested : ℕ) : h.reader.readFile (inodeBit + 1) offset requested =
    .ok ((request.data.drop offset).take requested) := by
  rw [← h.file_content hspace]
  exact readFile_of_readable (r := h.reader) (h.readable_file hspace) file_isReg _ _

theorem seesAlike (hne : m ≠ r.superblock.rootInode.toNat) (hm : m ∈ r.superblock.inodes r.image) :
    r.SeesAlike h.reader.image m :=
  (h.keeps hspace hm hne).seesAlike h.sound (h.sound_created hspace) hm ((h.mem_inodes hspace).mpr (.inr hm))

end Placed

end NewObjectRequest

/-- Creating an object refines the insertion of a name with its content. -/
theorem prepareNewRootObject_refines {blocks : ℕ} {d : Image} {report : ConsistencyReport} {r : ImageReader}
    {request : NewObjectRequest} {plan : NewObjectPlan} (hcheck : checkImage blocks d = .ok report)
    (hhealthy : classifyReport report = .kHealthy) (hopen : ImageReader.adoptLockedFd blocks d = .ok r)
    (hplan : prepareNewRootObject r request = .ok plan) :
    ∃ r', ImageReader.adoptLockedFd blocks (plan.images.after d) = .ok r' ∧
      plan.inodeNumber ∉ r.superblock.inodes r.image ∧
      (∃ v, r'.resolvePath (47 :: request.name) = .ok (plan.inodeNumber, v) ∧ v.generation = 1 ∧
        v.linkCount = 1 ∧
        v.size.toNat = request.data.length ∧ S_ISREG v.mode) ∧
      (∀ offset requested, r'.readFile plan.inodeNumber offset requested =
        .ok ((request.data.drop offset).take requested)) ∧
      (∃ before after pre post, r.listDirectory r.superblock.rootInode.toNat = .ok before ∧
        r'.listDirectory r.superblock.rootInode.toNat = .ok after ∧ before.map DirectoryEntry.key = pre ++ post ∧
        after.map DirectoryEntry.key = pre ++ (UInt32.ofNat plan.inodeNumber, .kRegular, request.name) :: post) ∧
      (∀ m w, m ≠ r.superblock.rootInode.toNat → r.readInode m = .ok w → r'.readInode m = .ok w ∧
        (∀ offset requested, r'.readFile m offset requested = r.readFile m offset requested) ∧
        r'.listDirectory m = r.listDirectory m) ∧
      ∃ old new : InodeRecord, r.readInode r.superblock.rootInode.toNat = .ok old ∧
        r'.readInode r.superblock.rootInode.toNat = .ok new ∧ new = { old with
          size := new.size, directBlocks := new.directBlocks, indirectBlock := new.indirectBlock
          mtimeNs := request.timestampNs, ctimeNs := request.timestampNs } := by
  obtain ⟨sb, c, copy, ho, hc, rfl⟩ := opened_of_healthy hcheck hhealthy hopen
  obtain ⟨root, inodeBit, u, taken, edited, released, rootBlocks, table, d', images, h, hspace, rfl, hbuild⟩ :=
    created_of_prepare (r := ⟨d, sb, c, copy⟩) ho.regions hc.toSound hplan
  have hkeeps := (hbuild.mono subset_rfl fun _ hb => hb.1).keepsControls h.regions fun b hb => (h.data_range hb).1
  have hafter : images.after d = h.reader.image := hbuild.after
  refine ⟨h.reader, ?_, h.fresh,
    ⟨_, h.resolvePath_file hspace, rfl, rfl, h.file_size, NewObjectRequest.Placed.file_isReg⟩,
    h.readFile_file hspace, ?_, fun m w hne hw => ?_, ?_⟩
  · rw [createdPlan, hafter]
    exact (h.sound_created hspace).adoptLockedFd (ho.keep hkeeps)
  · obtain ⟨pre, post, hold, hnew⟩ := h.newRoot_entries hspace
    exact ⟨_, _, pre, post, listDirectory_of_listable h.readable h.directory
      (h.sound.listable h.readable.allocated h.readable.record h.directory), h.listDirectory_root hspace, hold, hnew⟩
  · have halike := h.seesAlike hspace hne (readInode_eq_ok.mp hw).allocated
    exact ⟨halike.readInode.trans hw, halike.readFile, halike.listDirectory⟩
  · refine ⟨root, request.newRoot u, readInode_eq_ok.mpr h.readable,
      readInode_eq_ok.mpr (h.readable_root hspace), ?_⟩
    rw [h.newRoot_eq]

/-! ## Formatted images -/

section Formatted

variable {options : MkfsOptions} {g : RequestLedgerGeometry} {host : MkfsHost} {base : Image} {r : ImageReader}
  {request : NewObjectRequest} (h : Formatted r.superblock g host base r.image) (hl : Layout options r.superblock g)

include h hl

theorem Formatted.accepted (hname : isValidRootObjectName request.name) (hne : request.name ≠ kRequestLedgerName)
    (hsize : request.data.length ≤ kMaxFileSize) : request.Accepted r (formattedRoot r.superblock g host) := by
  have hs := h.sound hl
  have hroot := h.rootAt hl
  rw [← root_eq hl] at hroot
  refine ⟨hl.regions, hs, hs.readable hs.root.1 hroot, root_isDir, hname, ?_, hsize⟩
  rw [h.root_entries hl]
  split_ifs
  · simpa [formattedEntry, ledgerEntry] using hne
  · simp

/-- A new image takes an object when there is room for it and the two blocks the root may take. -/
theorem Formatted.planned (ha : request.Accepted r (formattedRoot r.superblock g host))
    (hinode : 2 < r.superblock.totalInodes.toNat)
    (hspace : r.superblock.data.start + g.occupied + request.demand 2 ≤ r.superblock.totalBlocks.toNat) :
    ∃ inodeBit u taken edited released blocks table d images,
      request.Placed r (formattedRoot r.superblock g host) inodeBit u taken edited released blocks table d ∧
      r.inodeAllocator.free.head? = some inodeBit ∧ taken ≤ 2 ∧
      request.demand taken ≤ r.blockAllocator.free.length ∧
      prepareNewRootObject r request = .ok (request.createdPlan r inodeBit taken u images) ∧
      images.Builds r.image (request.createdImage r inodeBit taken u released d) {b | b ∈ request.dataBlocks r taken}
        (request.touched r taken edited) := by
  obtain ⟨inodeBit, rest, hfree⟩ :=
    List.exists_cons_of_ne_nil (List.ne_nil_of_mem (h.mem_freeInodes hl le_rfl hinode))
  have hlen := h.le_freeBlocks hl hspace
  have hrequired : (formattedRoot r.superblock g host).requiredBlocks ≤ 1 := by
    rw [root_requiredBlocks]
    split_ifs <;> decide
  have htaken : rootDemand r (formattedRoot r.superblock g host) (request.entry inodeBit) ≤ 2 := by
    unfold rootDemand
    split_ifs <;> decide
  have hdemand : request.demand (rootDemand r (formattedRoot r.superblock g host) (request.entry inodeBit)) ≤
      r.blockAllocator.free.length := by
    refine Nat.le_trans ?_ hlen
    rw [demand, demand]
    omega
  obtain ⟨u, edited, released, blocks, table, d, images, hp, hok, hbuild⟩ := ha.prepare_ok hfree
    (.inr (hrequired.trans_lt (by decide))) hdemand
  exact ⟨inodeBit, u, _, edited, released, blocks, table, d, images,
    hp, by rw [hfree]; rfl, htaken, hdemand, hok, hbuild⟩

end Formatted

/-- A small object. -/
def sampleObject : NewObjectRequest := ⟨[97], [1, 2, 3], 0o644, 0, 0, 9⟩

theorem sampleObject_accepted {base d : Image} (h : Formatted ledgerSuperblock ledgerGeometry sampleHost base d) :
    sampleObject.Accepted (ledgerReaderOf d) (formattedRoot ledgerSuperblock ledgerGeometry sampleHost) :=
  accepted (r := ledgerReaderOf d) h ledgerLayout (by decide) (by decide) (by decide)

/-- The planner takes the small object on a new image with a ledger. -/
theorem sampleObject_planned {base d : Image} (h : Formatted ledgerSuperblock ledgerGeometry sampleHost base d) :
    ∃ plan, prepareNewRootObject (ledgerReaderOf d) sampleObject = .ok plan ∧ plan.inodeNumber = 3 ∧
      plan.images.metadataAfterImages.size ≤ 7 ∧ 17 ∉ plan.images.beforeImages := by
  have hinodes : 2 < ledgerSuperblock.totalInodes.toNat := by decide
  obtain ⟨inodeBit, u, taken, edited, released, blocks, table, d', images, hp, hbit, htaken, -, hok, hbuild⟩ :=
    planned (r := ledgerReaderOf d) h ledgerLayout (sampleObject_accepted h) hinodes
      (show ledgerSuperblock.data.start + _ + _ ≤ ledgerSuperblock.totalBlocks.toNat by decide)
  obtain rfl := Option.some.inj (hbit.symm.trans (head?_freeInodes h ledgerLayout (by decide) hinodes))
  have hdemand : sampleObject.demand taken ≤ 3 := Nat.add_le_add_right htaken 1
  have hkeys : ∀ b ∈ images.metadataAfterImages,
      b ∈ ({1, 2, 3, 16} : Finset ℕ) ∪
        ((ledgerReaderOf d).blockAllocator.free.take (sampleObject.demand taken)).toFinset := by
    intro b hb
    obtain ⟨⟨hpos, -⟩, hlow | hedited | hfree⟩ := hbuild.metadata b hb
    · have hlow : b < 4 := hlow
      simp only [Finset.mem_union, Finset.mem_insert]
      omega
    · have howned := hp.edited_mem hedited
      rw [root_owned ledgerLayout, if_pos (by decide)] at howned
      rw [List.mem_singleton.mp howned]
      exact Finset.mem_union_left _ (by decide)
    · exact Finset.mem_union_right _ (List.mem_toFinset.mpr hfree)
  -- the block of the ledger is in use
  have h17 : 17 ∉ (ledgerReaderOf d).blockAllocator.free := by
    intro hc
    have hbit : ledgerSuperblock.blockBit d 17 = true := (h.blockBit_eq ledgerLayout (by decide)).trans (by decide)
    have hfree : ledgerSuperblock.blockBit d 17 = false := (hp.free_spec hc).2
    rw [hbit] at hfree
    cases hfree
  refine ⟨_, hok, rfl, ?_, fun hc => ?_⟩
  · show images.metadataAfterImages.size ≤ 7
    rw [size_eq_card_keys]
    refine (Finset.card_le_card fun b hb => hkeys b ?_).trans ((Finset.card_union_le _ _).trans ?_)
    · exact Std.ExtTreeMap.mem_keys.mp (List.mem_toFinset.mp hb)
    · have hlen :=
        (List.toFinset_card_le ((ledgerReaderOf d).blockAllocator.free.take (sampleObject.demand taken))).trans
        (List.length_take_le _ _)
      have hcard : ({1, 2, 3, 16} : Finset ℕ).card = 4 := rfl
      omega
  · rcases (hbuild.ok.covered 17).mp hc with hc | hc
    · exact h17 (NewObjectRequest.Placed.mem_free_of_dataBlocks (hbuild.ordered 17 hc))
    · rcases Finset.mem_union.mp (hkeys 17 hc) with hc | hc
      · exact absurd hc (by decide)
      · exact h17 (List.mem_of_mem_take (List.mem_toFinset.mp hc))

/-- The new object of the small image, read back by its path. -/
theorem prepareNewRootObject_refines_sample :
    ∃ plan r' v, prepareNewRootObject ledgerReader sampleObject = .ok plan ∧
    ImageReader.adoptLockedFd 32 (plan.images.after ledgerImage) = .ok r' ∧
    r'.resolvePath [47, 97] = .ok (plan.inodeNumber, v) ∧ r'.readFile plan.inodeNumber 1 2 = .ok [2, 3] := by
  obtain ⟨plan, hplan, -⟩ := sampleObject_planned ledgerImage_formatted
  obtain ⟨_, hcheck, hhealthy⟩ := ledgerImage_healthy
  obtain ⟨r', hr', -, ⟨v, hpath, -⟩, hfile, -⟩ :=
    prepareNewRootObject_refines hcheck hhealthy adoptLockedFd_ledgerImage hplan
  exact ⟨plan, r', v, hplan, hr', hpath, hfile 1 2⟩

end Eufs
