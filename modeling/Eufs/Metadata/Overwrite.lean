import Eufs.Checker.Readback
import Eufs.Metadata.Rewritten
import Eufs.Metadata.Slices

/-!
# Eufs.Metadata.Overwrite — changing a file is writing to a byte string

On an image the checker calls healthy, a planned change of a file gives an image that opens and in which the file reads
as the byte string after the write, with a new version and new times, while the reader sees the rest of the tree as
before.
-/

namespace Eufs

open ImageReader Formatted

namespace FileMutationRequest.Planned

variable {request : FileMutationRequest} {r : ImageReader} {n m : ℕ} {v w : InodeRecord} (h : request.Planned r n v)

include h

theorem prepare_eq : prepareFileMutation r n request = .ok (request.mutationPlan r n v) := by
  rw [h.accepts.prepareFileMutation_eq h.regions h.sound h.readable, if_pos h.space]

theorem keepsControls : KeepsControls r.superblock r.image (request.afterImage r n v) := by
  obtain ⟨e1, e2, e3, e4, h5, h6, h7, h8⟩ := h.regions.chain
  obtain ⟨h1, h2, -⟩ := Superblock.mem_inodes.mp h.readable.allocated
  obtain ⟨⟨hge, hlt⟩, -⟩ := h.regions.offsetsInside.inode n h1 h2
  refine ⟨h.afterImage_of_lt (by omega) (.inl (by omega)) (by omega), fun copy => ?_⟩
  obtain ⟨hc1, hc2⟩ := h.regions.offsetsInside.control copy
  exact h.afterImage_of_lt (by omega) (.inr (by omega)) (by omega)

/-! ## What the reader sees -/

/-- The reader of the image with the change in place. -/
abbrev reader (_ : request.Planned r n v) : ImageReader := { r with image := request.afterImage r n v }

theorem readInode_self : h.reader.readInode n = .ok (request.newRecord r v) := by
  refine readInode_eq_ok.mpr (h.sound_after.readable ?_ h.inodeAt_self)
  rw [h.inodes_eq]
  exact h.readable.allocated

theorem seesAlike (hne : m ≠ n) : r.SeesAlike (request.afterImage r n v) m := by
  by_cases hm : m ∈ r.superblock.inodes r.image
  · exact (h.keeps hm hne).seesAlike h.sound h.sound_after hm (by rwa [h.inodes_eq])
  · exact seesAlike_of_not_mem hm (by rwa [h.inodes_eq])

theorem readFile_self (offset requested : ℕ) : h.reader.readFile n offset requested =
    .ok (((request.newContent (v.content r.image)).drop offset).take requested) := by
  rw [← h.newRecord_content]
  exact readFile_of_readable (readInode_eq_ok.mp h.readInode_self) h.accepts.regular _ _

theorem listDirectory_eq (m : ℕ) : h.reader.listDirectory m = r.listDirectory m := by
  by_cases hne : m = n
  · subst hne
    rw [listDirectory_of_not_dir (readInode_eq_ok.mpr h.readable) (not_isDir_of_isReg h.accepts.regular)]
    exact listDirectory_of_not_dir h.readInode_self (not_isDir_of_isReg h.accepts.regular)
  · exact (h.seesAlike hne).listDirectory

theorem newRecord_generation : (request.newRecord r v).generation.toNat = v.generation.toNat + 1 := by
  have hwraps := h.accepts.wraps
  have hlt := v.generation.toNat_lt
  show (v.generation + 1).toNat = _
  rw [UInt64.toNat_add]
  show (v.generation.toNat + 1) % 2 ^ 64 = _
  omega

end FileMutationRequest.Planned

theorem FileMutationRequest.planned_of_prepare {request : FileMutationRequest} {r : ImageReader} {n : ℕ}
    {plan : FileMutationPlan} (hr : r.superblock.Regions) (hs : r.superblock.Sound r.image)
    (hplan : prepareFileMutation r n request = .ok plan) :
    ∃ v, request.Planned r n v ∧ plan = request.mutationPlan r n v := by
  obtain ⟨v, hread, ha⟩ := accepts_of_prepare hplan
  have hv := readInode_eq_ok.mp hread
  rw [ha.prepareFileMutation_eq hr hs hv] at hplan
  split_ifs at hplan with hspace
  exact ⟨v, ⟨hr, hs, hv, ha, hspace⟩, (Except.ok.inj hplan).symm⟩

/-- Changing a file refines writing to a byte string. -/
theorem prepareFileMutation_refines {blocks : ℕ} {d : Image} {report : ConsistencyReport} {r : ImageReader} {n : ℕ}
    {request : FileMutationRequest} {v : InodeRecord} {content : List UInt8} {plan : FileMutationPlan}
    (hcheck : checkImage blocks d = .ok report) (hhealthy : classifyReport report = .kHealthy)
    (hopen : ImageReader.adoptLockedFd blocks d = .ok r) (hread : r.readInode n = .ok v)
    (hcontent : r.readFile n 0 kMaxFileSize = .ok content) (hplan : prepareFileMutation r n request = .ok plan) :
    ∃ r' v', ImageReader.adoptLockedFd blocks (plan.images.after d) = .ok r' ∧ r'.readInode n = .ok v' ∧
      (∀ offset requested, r'.readFile n offset requested =
        .ok (((request.newContent content).drop offset).take requested)) ∧
      v'.generation.toNat = v.generation.toNat + 1 ∧ v'.mtimeNs = request.timestampNs ∧
      v'.ctimeNs = request.timestampNs ∧
      (v'.mode = v.mode ∧ v'.uid = v.uid ∧ v'.gid = v.gid ∧ v'.linkCount = v.linkCount ∧
        v'.atimeNs = v.atimeNs) ∧
      (∀ m, m ≠ n → r'.readInode m = r.readInode m ∧
        ∀ offset requested, r'.readFile m offset requested = r.readFile m offset requested) ∧
      ∀ m, r'.listDirectory m = r.listDirectory m := by
  obtain ⟨sb, c, copy, ho, hc, rfl⟩ := opened_of_healthy hcheck hhealthy hopen
  obtain ⟨w, h, rfl⟩ :=
    FileMutationRequest.planned_of_prepare (r := ⟨d, sb, c, copy⟩) ho.regions hc.toSound hplan
  obtain rfl : w = v := Except.ok.inj ((readInode_eq_ok.mpr h.readable).symm.trans hread)
  obtain rfl : w.content d = content := by
    rw [readFile_of_readable h.readable h.accepts.regular, List.drop_zero] at hcontent
    rw [← Except.ok.inj hcontent, List.take_of_length_le]
    simpa [InodeRecord.content] using h.valid.size
  refine ⟨h.reader, request.newRecord _ w, h.sound_after.adoptLockedFd (ho.keep h.keepsControls), h.readInode_self,
    h.readFile_self, h.newRecord_generation, rfl, rfl, ⟨rfl, rfl, rfl, rfl, rfl⟩,
    fun m hne => ⟨(h.seesAlike hne).readInode, (h.seesAlike hne).readFile⟩, h.listDirectory_eq⟩

/-- Two bytes behind the end of the file of the small image. -/
def sampleWrite : FileMutationRequest := ⟨.kWriteRange, 5000, [7, 7], 9, 0⟩

theorem sampleWrite_planned :
    sampleWrite.Planned ledgerReader 2 (formattedLedger ledgerSuperblock ledgerGeometry sampleHost) where
  regions := ledgerLayout.regions
  sound := ledgerImage_formatted.sound ledgerLayout
  readable := readInode_eq_ok.mp ledgerFile_readable
  accepts := ⟨by decide, by decide, ledger_isReg, by decide, by decide⟩
  space := List.length_pos_of_mem (mem_freeBlocks (r := ledgerReader) (b := 18) ledgerImage_formatted
    ledgerLayout (by decide) (by decide))

/-- The write leaves a gap of zeros in the file of the small image. -/
theorem prepareFileMutation_refines_sample : ∃ plan r' content,
    prepareFileMutation ledgerReader 2 sampleWrite = .ok plan ∧
    ImageReader.adoptLockedFd 32 (plan.images.after ledgerImage) = .ok r' ∧
    ledgerReader.readFile 2 0 kMaxFileSize = .ok content ∧
    r'.readFile 2 4096 4096 = .ok (((overwrite content 5000 [7, 7]).drop 4096).take 4096) := by
  have h := sampleWrite_planned
  obtain ⟨_, hcheck, hhealthy⟩ := ledgerImage_healthy
  have hcontent := readFile_of_readable h.readable h.accepts.regular 0 kMaxFileSize
  obtain ⟨r', v', hr', -, hfile, -⟩ := prepareFileMutation_refines hcheck hhealthy adoptLockedFd_ledgerImage
    ledgerFile_readable hcontent h.prepare_eq
  exact ⟨_, r', _, h.prepare_eq, hr', hcontent, hfile 4096 4096⟩

end Eufs
