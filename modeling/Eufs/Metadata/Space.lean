import Eufs.Metadata.Creation

/-!
# Eufs.Metadata.Space — planners fail for space exactly when space is short

On an image the checker calls healthy the planners fail only for lack of free inodes, of room in the root or of free
blocks.  The demand is counted in advance: the data blocks, the indirect block of the file, and for a new object the
blocks by which the root grows.  Blocks that the plan releases do not count.
-/

namespace Eufs

open ImageReader BitmapAllocator Formatted NewObjectRequest

/-- The free blocks of the data region. -/
def Superblock.freeBlocks (sb : Superblock) (d : Image) : List ℕ :=
  (List.range sb.totalBlocks.toNat).filter fun b => sb.data.start ≤ b && !sb.blockBit d b

/-- `*output = std::move(candidate)`, the last statement of both planners, on the caller's plan. -/
def assignOutput {α : Type} (candidate : Except Failure α) : ExceptT Failure (StateM α) Unit := do
  let plan ← ExceptT.mk (pure candidate)
  set plan

/-- The caller's plan after the call of a planner. -/
def planOutput {α : Type} (candidate : Except Failure α) (output : α) : α := ((assignOutput candidate).run output).2

theorem planOutput_of_error {α : Type} {result : Except Failure α} {e : Failure}
    (h : result = .error e) (output : α) :
    planOutput result output = output := by
  rw [h]
  rfl

theorem ImageReader.length_free {r : ImageReader} (hr : r.superblock.Regions) :
    r.blockAllocator.free.length = (r.superblock.freeBlocks r.image).length := by
  refine ((List.perm_ext_iff_of_nodup (nodup_free _) (List.nodup_range.filter _)).mpr fun b => ?_).length_eq
  rw [mem_free (blockAllocator_fits hr), List.mem_filter, List.mem_range, Bool.and_eq_true,
    decide_eq_true_eq, Bool.not_eq_true']
  exact ⟨fun h => ⟨h.1.2, h.1.1, h.2⟩, fun h => ⟨⟨h.2.1, h.1⟩, h.2.2⟩⟩

/-- An inode is free for the allocator when its bit is clear. -/
theorem ImageReader.exists_free_inode {r : ImageReader} (hr : r.superblock.Regions) :
    (∃ bit, bit ∈ r.inodeAllocator.free) ↔
      ∃ n, 1 ≤ n ∧ n ≤ r.superblock.totalInodes.toNat ∧ r.superblock.inodeBit r.image n = false := by
  have hmem := fun bit => @BitmapAllocator.mem_free _ bit (inodeAllocator_fits hr)
  constructor
  · rintro ⟨bit, hbit⟩
    obtain ⟨⟨-, h1⟩, h2⟩ := (hmem bit).mp hbit
    exact ⟨bit + 1, by omega, h1, h2⟩
  · rintro ⟨n, h1, h2, hbit⟩
    refine ⟨n - 1, (hmem _).mpr ⟨⟨Nat.zero_le _, ?_⟩, hbit⟩⟩
    show n - 1 < r.superblock.totalInodes.toNat
    omega

namespace NewObjectRequest

variable (request : NewObjectRequest) (r : ImageReader) (root : InodeRecord)

/-- Some record of a block of the root has room for the name. -/
def Fits : Prop := ∃ b ∈ root.blocks r.image, ∃ x ∈ (blockRecords "" (r.image b) 0).1,
  x.2.hasRoom (minimumDirectoryRecordLength request.name.length)

instance : Decidable (request.Fits r root) := by unfold Fits; infer_instance

/-- The free blocks that the object needs: its data, its indirect block, and the blocks by which the root grows. -/
def neededBlocks : ℕ :=
  request.blockCount + (if kDirectBlockCount < request.blockCount then 1 else 0) +
    if request.Fits r root then 0 else 1 + if kDirectBlockCount ≤ root.requiredBlocks then 1 else 0

variable {request r root}

/-- The inode of the entry does not matter for its place. -/
theorem demand_rootDemand (inodeBit : ℕ) :
    request.demand (rootDemand r root (request.entry inodeBit)) = request.neededBlocks r root := by
  have hiff : RootHasRoom r root (request.entry inodeBit) ↔ request.Fits r root := Iff.rfl
  simp only [demand, rootDemand, neededBlocks, hiff]
  split_ifs <;> omega

theorem Accepted.prepare_iff (h : request.Accepted r root) :
    ((∃ plan, prepareNewRootObject r request = .ok plan) ↔
      (∃ n, 1 ≤ n ∧ n ≤ r.superblock.totalInodes.toNat ∧ r.superblock.inodeBit r.image n = false) ∧
      (request.Fits r root ∨ root.requiredBlocks < kDirectBlockCount + kIndirectEntries) ∧
      request.neededBlocks r root ≤ (r.superblock.freeBlocks r.image).length) ∧
    ∀ e, prepareNewRootObject r request = .error e → e.errno = .ENOSPC := by
  rw [← exists_free_inode h.regions, ← length_free h.regions]
  by_cases hcan : (∃ bit, bit ∈ r.inodeAllocator.free) ∧
      (request.Fits r root ∨ root.requiredBlocks < kDirectBlockCount + kIndirectEntries) ∧
      request.neededBlocks r root ≤ r.blockAllocator.free.length
  · obtain ⟨bit, hbit⟩ := hcan.1
    obtain ⟨first, rest, hfree⟩ := List.exists_cons_of_ne_nil (List.ne_nil_of_mem hbit)
    obtain ⟨u, edited, released, blocks, table, d, images, -, hok, -⟩ := h.prepare_ok hfree hcan.2.1
      (by rw [demand_rootDemand]; exact hcan.2.2)
    exact ⟨iff_of_true ⟨_, hok⟩ hcan, fun e he => absurd (hok.symm.trans he) (by simp)⟩
  · obtain ⟨detail, herr⟩ := h.prepare_noSpace fun bit hbit hc =>
      hcan ⟨⟨bit, hbit⟩, hc.1, demand_rootDemand (r := r) bit ▸ hc.2⟩
    refine ⟨iff_of_false (fun ⟨plan, hok⟩ => absurd (herr.symm.trans hok) (by simp)) hcan, fun e he => ?_⟩
    rw [← Except.error.inj (herr.symm.trans he)]

end NewObjectRequest

theorem FileMutationRequest.Accepts.prepare_iff {request : FileMutationRequest} {r : ImageReader} {n : ℕ}
    {v : InodeRecord} (h : request.Accepts v) (hr : r.superblock.Regions) (hs : r.superblock.Sound r.image)
    (hv : Readable r.superblock r.image n v) :
    ((∃ plan, prepareFileMutation r n request = .ok plan) ↔
      request.neededBlocks v ≤ (r.superblock.freeBlocks r.image).length) ∧
    ∀ e, prepareFileMutation r n request = .error e → e.errno = .ENOSPC := by
  rw [h.prepareFileMutation_eq hr hs hv, ← length_free hr]
  split_ifs with hspace
  · exact ⟨iff_of_true ⟨_, rfl⟩ hspace, fun e he => absurd he (by simp)⟩
  · refine ⟨iff_of_false (fun ⟨plan, hok⟩ => absurd hok (by simp)) hspace, fun e he => ?_⟩
    rw [← Except.error.inj he, noSpace]

/-- The planners fail for space exactly when space is short. -/
theorem planners_fail_for_space {blocks : ℕ} {d : Image} {report : ConsistencyReport} {r : ImageReader}
    (hcheck : checkImage blocks d = .ok report) (hhealthy : classifyReport report = .kHealthy)
    (hopen : ImageReader.adoptLockedFd blocks d = .ok r) :
    (∀ (request : NewObjectRequest) (root : InodeRecord) (existing : List DirectoryEntry),
      r.readInode r.superblock.rootInode.toNat = .ok root →
      r.listDirectory r.superblock.rootInode.toNat = .ok existing → isValidRootObjectName request.name →
      request.name ∉ existing.map DirectoryEntry.name → request.blockCount ≤ 1036 →
      ((∃ plan, prepareNewRootObject r request = .ok plan) ↔
        (∃ n, 1 ≤ n ∧ n ≤ r.superblock.totalInodes.toNat ∧ r.superblock.inodeBit r.image n = false) ∧
        (request.Fits r root ∨ root.requiredBlocks < 1036) ∧
        request.neededBlocks r root ≤ (r.superblock.freeBlocks r.image).length) ∧
      ∀ e output, prepareNewRootObject r request = .error e →
        e.errno = .ENOSPC ∧ planOutput (prepareNewRootObject r request) output = output) ∧
    ∀ (request : FileMutationRequest) (n : ℕ) (v : InodeRecord), r.readInode n = .ok v → S_ISREG v.mode →
      v.generation.toNat < 2 ^ 64 - 1 → request.offset.toNat + request.data.length ≤ kMaxFileSize →
      (request.mode = .kWriteRange → request.data ≠ []) →
      (request.mode = .kReplaceAll → v.generation = request.expectedGeneration) →
      ((∃ plan, prepareFileMutation r n request = .ok plan) ↔
        request.neededBlocks v ≤ (r.superblock.freeBlocks r.image).length) ∧
      ∀ e output, prepareFileMutation r n request = .error e →
        e.errno = .ENOSPC ∧ planOutput (prepareFileMutation r n request) output = output := by
  obtain ⟨sb, c, copy, ho, hc, rfl⟩ := opened_of_healthy hcheck hhealthy hopen
  refine ⟨fun request root existing hroot hlist hname habsent hcount => ?_,
    fun request n v hread hreg hgeneration hlimit hdata hcurrent => ?_⟩
  · have hv := readInode_eq_ok.mp hroot
    have hdir : S_ISDIR root.mode := by
      by_contra hnot
      rw [listDirectory_of_not_dir hroot hnot] at hlist
      cases hlist
    have ha : request.Accepted ⟨d, sb, c, copy⟩ root := by
      refine ⟨ho.regions, hc.toSound, hv, hdir, hname, ?_, ?_⟩
      · rw [listDirectory_of_listable hv hdir (hc.toSound.listable hv.allocated hv.record hdir)] at hlist
        obtain rfl := Except.ok.inj hlist
        exact habsent
      · rw [blockCount, requiredBlocks_eq] at hcount
        show request.data.length ≤ 1036 * 4096
        omega
    exact ⟨ha.prepare_iff.1, fun e output he => ⟨ha.prepare_iff.2 e he, planOutput_of_error he output⟩⟩
  · have ha : request.Accepts v := ⟨hdata, hlimit, hreg, hcurrent, by omega⟩
    have hiff := ha.prepare_iff (r := ⟨d, sb, c, copy⟩) ho.regions hc.toSound (readInode_eq_ok.mp hread)
    exact ⟨hiff.1, fun e output he => ⟨hiff.2 e he, planOutput_of_error he output⟩⟩

/-- Both planners find their place on the small image. -/
theorem planners_fail_for_space_sample : (∃ plan, prepareNewRootObject ledgerReader sampleObject = .ok plan) ∧
    (∃ plan, prepareFileMutation ledgerReader 2 sampleWrite = .ok plan) := by
  obtain ⟨_, hcheck, hhealthy⟩ := ledgerImage_healthy
  have ha : sampleObject.Accepted ledgerReader _ := sampleObject_accepted ledgerImage_formatted
  have hw := sampleWrite_planned
  obtain ⟨hobject, hfile⟩ := planners_fail_for_space hcheck hhealthy adoptLockedFd_ledgerImage
  have hblocks : 3 ≤ (ledgerSuperblock.freeBlocks ledgerImage).length :=
    (le_freeBlocks (r := ledgerReader) ledgerImage_formatted ledgerLayout (by decide)).trans_eq
      (length_free (r := ledgerReader) ledgerLayout.regions)
  have hinode := (exists_free_inode (r := ledgerReader) ledgerLayout.regions).mp
    ⟨2, mem_freeInodes (r := ledgerReader) ledgerImage_formatted ledgerLayout le_rfl (by decide)⟩
  refine ⟨(hobject sampleObject _ _ (readInode_eq_ok.mpr ha.readable) ha.listDirectory_root ha.name ha.absent
    (by decide)).1.mpr ⟨hinode, .inr (by decide), ?_⟩, (hfile sampleWrite 2 _ (readInode_eq_ok.mpr hw.readable)
    hw.accepts.regular (by decide) (by decide) (by decide) (by decide)).1.mpr ?_⟩
  · refine Nat.le_trans ?_ hblocks
    have hcount : sampleObject.blockCount = 1 := rfl
    rw [neededBlocks, hcount, if_neg (by decide)]
    split_ifs <;> omega
  · exact Nat.le_trans (by decide) hblocks

/-- A replacement with a stale version, and a write of no bytes, fail with other errors whatever the space. -/
theorem planners_fail_otherwise :
    (∃ report, checkImage 32 ledgerImage = .ok report ∧ classifyReport report = .kHealthy) ∧
    ImageReader.adoptLockedFd 32 ledgerImage = .ok ledgerReader ∧
    (∃ v, ledgerReader.readInode 2 = .ok v ∧ S_ISREG v.mode ∧ v.generation.toNat < 2 ^ 64 - 1 ∧
      (⟨.kReplaceAll, 0, [], 9, 77⟩ : FileMutationRequest).neededBlocks v = 0) ∧
    prepareFileMutation ledgerReader 2 ⟨.kReplaceAll, 0, [], 9, 77⟩ =
      .error ⟨.ESTALE, "object version no longer matches expected generation"⟩ ∧
    prepareFileMutation ledgerReader 2 ⟨.kWriteRange, 0, [], 9, 0⟩ =
      .error ⟨.EINVAL, "range write requires non-empty data"⟩ := by
  refine ⟨ledgerImage_healthy, adoptLockedFd_ledgerImage,
    ⟨_, ledgerFile_readable, ledger_isReg, by decide, by decide⟩, ?_, rfl⟩
  unfold prepareFileMutation
  rw [reject_bind_of_not (by decide), reject_bind_of_not (by decide), reject_bind_of_not (by decide),
    ledgerFile_readable, ok_bind, reject_bind_of_not (not_not.mpr ledger_isReg)]
  rfl

end Eufs
