import Eufs.Metadata.FirstFile
import Eufs.Object.Isolation

/-!
# Eufs.Object.Preservation — every plan restores the agreement of the metadata

Each planner gives an image whose metadata agree again, ledger included.  The record of a request joins any of these
plans: the ledger file is not touched by them, so that the append is the one the image after the change asks for.
-/

namespace Eufs

open ImageReader PlanImages InodeRecord

/-- The image after the plan is well formed, and its ordered data go to blocks that no inode refers to. -/
structure PlanImages.Preserves (p : PlanImages) (r : ImageReader) : Prop where
  consistent : r.superblock.Consistent (p.after r.image)
  free : ∀ b ∈ p.orderedDataAfterImages, r.superblock.data.start ≤ b ∧ b ∉ r.superblock.references r.image

/-- A change of the tree: the ledger file is as before. -/
structure PlanImages.SparesLedger (p : PlanImages) (r : ImageReader) : Prop extends p.Preserves r where
  ledger : r.superblock.HasLedger →
    r.superblock.Keeps r.image (p.after r.image) kRequestLedgerInodeNumber

/-! ## Changes of the tree -/

theorem FileMutationRequest.Planned.sparesLedger {request : FileMutationRequest} {r : ImageReader} {n : ℕ}
    {v : InodeRecord} (h : request.Planned r n v) (hc : r.superblock.Consistent r.image)
    (hn : r.superblock.HasLedger → n ≠ kRequestLedgerInodeNumber) :
    (request.planImages r n v).SparesLedger r := by
  have hkeeps : r.superblock.HasLedger →
      r.superblock.Keeps r.image (request.afterImage r n v) kRequestLedgerInodeNumber := fun hf =>
    h.keeps ((hc.ledger hf).mem_inodes h.sound).1 (hn hf).symm
  refine ⟨⟨⟨h.sound_after, fun hf => (hc.ledger hf).of_keeps h.sound (hkeeps hf) ?_⟩,
    fun b hb => ?_⟩, hkeeps⟩
  swap
  · exact ⟨(h.isolated.free b hb).1.1, (h.isolated.free b hb).2.2⟩
  rw [h.sameTree.entriesOf_eq h.sound h.sound.root.1]
  exact (hc.ledger hf).entry

/-- One more entry with another name leaves the entry of the ledger alone. -/
theorem exists_entry_of_keys {old new : List DirectoryEntry} {pre post : List (UInt32 × DirectoryFileType × Name)}
    {k : UInt32 × DirectoryFileType × Name} {name : Name} (hold : old.map DirectoryEntry.key = pre ++ post)
    (hnew : new.map DirectoryEntry.key = pre ++ k :: post) (hk : k.2.2 ≠ name) {e : DirectoryEntry}
    (he : old.filter (fun e => e.name = name) = [e]) :
    ∃ e', new.filter (fun e => e.name = name) = [e'] ∧ e'.key = e.key := by
  have hfilter : ∀ es : List DirectoryEntry, (es.filter fun e => e.name = name).map DirectoryEntry.key =
      (es.map DirectoryEntry.key).filter fun k => k.2.2 = name := fun es => by
    rw [List.filter_map]
    rfl
  have hkeys : (new.filter fun e => e.name = name).map DirectoryEntry.key = [e.key] := by
    rw [hfilter, hnew, List.filter_append, List.filter_cons, if_neg (by simpa using hk),
      ← List.filter_append, ← hold, ← hfilter, he]
    rfl
  obtain ⟨e', he', hkey⟩ := List.map_eq_singleton_iff.mp hkeys
  exact ⟨e', he', hkey⟩

theorem NewObjectRequest.Placed.consistent {request : NewObjectRequest} {r : ImageReader} {root : InodeRecord}
    {inodeBit taken : ℕ} {u : RootUpdate} {edited released blocks : List ℕ} {table : ℕ} {d : Image}
    (h : request.Placed r root inodeBit u taken edited released blocks table d)
    (hspace : request.demand taken ≤ r.blockAllocator.free.length) (hc : r.superblock.Consistent r.image) :
    r.superblock.Consistent (request.createdImage r inodeBit taken u released d) ∧
      (r.superblock.HasLedger →
        r.superblock.Keeps r.image (request.createdImage r inodeBit taken u released d) kRequestLedgerInodeNumber) := by
  have hkeeps : r.superblock.HasLedger → r.superblock.Keeps r.image
      (request.createdImage r inodeBit taken u released d) kRequestLedgerInodeNumber := fun hf =>
    have hmem := (hc.ledger hf).mem_inodes h.sound
    h.keeps hspace hmem.1 hmem.2
  refine ⟨⟨h.sound_created hspace, fun hf => (hc.ledger hf).of_keeps h.sound (hkeeps hf) ?_⟩, hkeeps⟩
  obtain ⟨e, he, hinode, htype⟩ := (hc.ledger hf).entry
  obtain ⟨pre, post, hold, hnew⟩ := (h.grownTree hspace).rootEntries
  have hname : request.name ≠ kRequestLedgerName := by
    rintro hc'
    refine (h.grownTree hspace).name (List.mem_map.mpr ⟨e, ?_, ?_⟩)
    · exact List.mem_of_mem_filter (he ▸ List.mem_singleton_self e)
    · have : e ∈ (r.superblock.entriesOf r.image r.superblock.rootInode.toNat).filter
        (fun e => e.name = kRequestLedgerName) :=
        he ▸ List.mem_singleton_self e
      have hen : e.name = kRequestLedgerName := by simpa using (List.mem_filter.mp this).2
      exact hen.trans hc'.symm
  obtain ⟨e', he', hkey⟩ := exists_entry_of_keys hold hnew hname he
  refine ⟨e', he', ?_, ?_⟩
  · rw [show e'.inode = e.inode from congrArg Prod.fst hkey]
    exact hinode
  · rw [show e'.fileType = e.fileType from congrArg (fun k => k.2.1) hkey]
    exact htype

/-! ## The planners -/

/-- The changes of the tree, as the planners give them. -/
inductive TreePlan (r : ImageReader) : PlanImages → Prop
  | emptyFile {name : Name} {permissions uid gid : UInt32} {timestampNs : UInt64} {plan : EmptyFileCreatePlan}
      (h : prepareRootEmptyFileCreate r name permissions uid gid timestampNs = .ok plan) : TreePlan r plan.images
  | write {n : ℕ} {offset timestampNs : UInt64} {data : List UInt8} {plan : FileMutationPlan}
      (hn : r.superblock.HasLedger → n ≠ kRequestLedgerInodeNumber)
      (h : prepareFileWrite r n offset data timestampNs = .ok plan) : TreePlan r plan.images
  | replace {n : ℕ} {expectedGeneration timestampNs : UInt64} {data : List UInt8} {plan : FileMutationPlan}
      (hn : r.superblock.HasLedger → n ≠ kRequestLedgerInodeNumber)
      (h : prepareObjectReplace r n expectedGeneration data timestampNs = .ok plan) : TreePlan r plan.images
  | create {request : NewObjectRequest} {plan : NewObjectPlan} (h : prepareNewRootObject r request = .ok plan) :
      TreePlan r plan.images

section Planners

variable {r : ImageReader} {p : PlanImages}

theorem sparesLedger_of_prepareFileMutation {n : ℕ} {request : FileMutationRequest} {plan : FileMutationPlan}
    (hr : r.superblock.Regions) (hc : r.superblock.Consistent r.image)
    (hn : r.superblock.HasLedger → n ≠ kRequestLedgerInodeNumber)
    (hplan : prepareFileMutation r n request = .ok plan) : plan.images.SparesLedger r := by
  obtain ⟨v, h, rfl⟩ := FileMutationRequest.planned_of_prepare hr hc.toSound hplan
  exact h.sparesLedger hc hn

theorem TreePlan.sparesLedger (h : TreePlan r p) (hr : r.superblock.Regions) (hc : r.superblock.Consistent r.image) :
    p.SparesLedger r := by
  cases h with
  | emptyFile h =>
    obtain ⟨root, inodeBit, u, blocks, d, hplaced, -, hspace, hafter⟩ :=
      created_of_prepareRootEmptyFileCreate hr hc.toSound h
    obtain ⟨hnew, hkeeps⟩ := hplaced.consistent hspace hc
    exact ⟨⟨hafter ▸ hnew, fun b hb => absurd hb (by simp [EmptyFileCreatePlan.images])⟩, hafter ▸ hkeeps⟩
  | write hn h => exact sparesLedger_of_prepareFileMutation hr hc hn (reject_bind_eq_ok.mp h).2
  | replace hn h => exact sparesLedger_of_prepareFileMutation hr hc hn h
  | create h =>
    have hisolated := isolated_of_prepareNewRootObject hr hc.toSound h
    obtain ⟨root, inodeBit, u, taken, edited, released, blocks, table, d, images, hplaced, hspace, rfl, hbuild⟩ :=
      NewObjectRequest.created_of_prepare hr hc.toSound h
    obtain ⟨hnew, hkeeps⟩ := hplaced.consistent hspace hc
    have hafter := hbuild.after
    exact ⟨⟨hafter ▸ hnew, fun b hb => ⟨(hisolated.free b hb).1.1, (hisolated.free b hb).2.2⟩⟩,
      hafter ▸ hkeeps⟩

theorem sparesLedger_nothing (hc : r.superblock.Consistent r.image) :
    PlanImages.SparesLedger ⟨∅, ∅, ∅⟩ r := by
  refine ⟨⟨?_, fun b hb => absurd hb (by simp)⟩, fun _ => ?_⟩
  · rwa [after_empty]
  · rw [after_empty]
    exact ⟨rfl, fun _ _ => rfl⟩

/-- The ledger block that a change of the tree leaves is the one the append was planned for. -/
theorem PlanImages.SparesLedger.appendPlan_eq {v : InodeRecord} {records : List RequestLedgerRecord}
    {record : RequestLedgerRecord} (h : p.SparesLedger r) (ha : Appends r v records record)
    (hf : r.superblock.HasLedger) :
    appendPlan { r with image := p.after r.image } v records record = appendPlan r v records record := by
  have hmapped := (readable_of_resolvePath ha.inode.resolves).mapped
  have hk := slot_block_lt ha.room
  have hpointer := pointer_frame hmapped ((h.ledger hf).owned ha.current) hk
  have hblock := block_frame hmapped ((h.ledger hf).owned ha.current) hk
  unfold appendPlan
  dsimp only
  rw [hblock, hpointer]

/-- A change of the tree with the record of a new request. -/
theorem PlanImages.SparesLedger.recorded {index : RequestLedgerIndex} {record : RequestLedgerRecord}
    {ledger : RequestLedgerAppendPlan} {totalBlocks : UInt32} {uuid : Bytes 16} {before ordered metadata : BlockMap}
    (h : p.SparesLedger r) (hr : r.superblock.Regions) (hc : r.superblock.Consistent r.image)
    (hscan : scanRequestLedger r = .ok index) (hfresh : index.find record.requestId = none)
    (happend : prepareRequestLedgerAppend r index record = .ok ledger)
    (hmerge : ledger.mergeRequestLedgerAppend totalBlocks uuid p.beforeImages p.orderedDataAfterImages
      p.metadataAfterImages = .ok (before, ordered, metadata)) :
    (⟨before, ordered, metadata⟩ : PlanImages).Preserves r := by
  have hf := (reject_bind_eq_ok.mp hscan).1
  obtain ⟨v, ha, -, rfl⟩ := appends_of_prepare hc hscan happend
  obtain ⟨-, heq⟩ := RequestLedgerAppendPlan.merge_eq_ok hmerge
  obtain ⟨rfl, rfl, rfl⟩ : before = _ ∧ ordered = _ ∧ metadata = _ := by simpa using heq
  refine ⟨?_, h.free⟩
  -- the ledger of the changed tree
  have hkeep := h.ledger hf
  have hat := Superblock.inodeAt_of_slot hkeep.slot
  obtain ⟨w, hinode, hn, hw⟩ := exists_ledgerInode (r := { r with image := p.after r.image }) h.consistent.toSound
    (h.consistent.ledger hf)
  obtain rfl : w = v := Option.some.inj (hw.symm.trans (hat.trans ha.current))
  have hmapped := (readable_of_resolvePath ha.inode.resolves).mapped
  have hholds := ledgerHolds_frame hmapped (hkeep.owned ha.current) ha.holds
  have happlied := consistent_applied (r := { r with image := p.after r.image }) h.consistent hn hinode hholds ha.room
    ha.valid (RequestLedgerIndex.not_mem_of_find hfresh) hr
  rw [h.appendPlan_eq ha hf] at happlied
  have hafter := @PlanImages.after_setMetadata p r.image (appendPlan r w index.records record).physicalBlock
    (appendPlan r w index.records record).beforeImage (appendPlan r w index.records record).afterImage
  exact hafter ▸ happlied

end Planners

end Eufs
