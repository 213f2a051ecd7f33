import Eufs.Metadata.Creation
import Eufs.Object.LedgerAppend

/-!
# Eufs.Object.Isolation — a transaction stays away from the tree

New data go to free blocks before the COMMIT, and metadata are written behind it.  For every transaction the planners
give, with or without the record of its request, the store therefore accepts the images, and whatever a crash leaves in
the blocks of the ordered data, the tree reads as before.
-/

namespace Eufs

open ImageReader PlanImages Std.ExtTreeMap Formatted

variable {d' : Image} {r : ImageReader}

/-- Blocks that no inode refers to may change, and so may the journal. -/
theorem Superblock.Sound.keepsUsed {sb : Superblock} {d : Image} {O : Set ℕ} (hs : sb.Sound d) (hr : sb.Regions)
    (hO : ∀ b ∈ O, sb.data.start ≤ b ∧ b ∉ sb.references d)
    (hd : ∀ b, ¬ blockIsInRegion b sb.journal → b ∉ O → d' b = d b) : sb.KeepsUsed d d' := by
  refine ⟨fun b _ hb hj => hd b hj fun hc => ?_, fun b hb => hd b ?_ fun hc => (hO b hc).2 hb⟩
  · have := (hO b hc).1
    omega
  · obtain ⟨m, hm, hb⟩ := List.mem_flatMap.mp hb
    obtain ⟨h1, h2⟩ := (hs.blockBit_of_mem hm hb).1
    exact (hr.writable_data h1 h2).2.2

namespace PlanImages

/-- The images of a plan that may run as a transaction on `d`: ordered data go to free blocks of the data region,
metadata to blocks outside the superblock and the journal. -/
structure Isolated (p : PlanImages) (sb : Superblock) (d : Image) : Prop extends p.Ok d where
  free : ∀ b ∈ p.orderedDataAfterImages,
    blockIsInRegion b sb.data ∧ sb.blockBit d b = false ∧ b ∉ sb.references d
  targets : ∀ b ∈ p.metadataAfterImages, b ≠ 0 ∧ b < sb.totalBlocks.toNat ∧ ¬ blockIsInRegion b sb.journal

namespace Isolated

variable {p : PlanImages} {sb : Superblock} {d : Image} (h : p.Isolated sb d)

include h

theorem admissible (hr : sb.Regions) :
    Admissible sb p.beforeImages p.orderedDataAfterImages p.metadataAfterImages :=
  admissible_of_covered hr h.covered h.disjoint (fun b hb => (h.free b hb).1) h.targets

/-- A store of the image takes the transaction when the ring has room for it. -/
theorem txnAccepted {s : JournalControlStore} (hr : sb.Regions) (hs : s.superblock = sb) (hl : s.reloadRequired = false)
    (hb : s.durableBody = none) (hplan : Reservable s.current p.metadataAfterImages.size) :
    TxnAccepted s d sb.totalBlocks sb.filesystemUuid p.beforeImages p.orderedDataAfterImages p.metadataAfterImages := by
  subst hs
  refine ⟨hl, hb, hplan, rfl, rfl, h.admissible hr, fun x hx => h.unchanged x.1 x.2 ?_⟩
  exact mem_toList_iff_getElem?_eq_some.mp hx

/-- A block in front of the data that the plan changes is one of its metadata blocks. -/
theorem mem_of_changed {b : ℕ} (hb : b < sb.data.start) (hne : p.after d b ≠ d b) : b ∈ p.metadataAfterImages := by
  by_contra hnot
  have hordered : b ∉ p.orderedDataAfterImages := fun hc => absurd (h.free b hc).1.1 (not_le.mpr hb)
  exact hne (by simp [PlanImages.after, getElem?_eq_none hnot, getElem?_eq_none hordered])

theorem size_le : p.metadataAfterImages.size ≤ sb.totalBlocks.toNat := by
  rw [size_eq_card_keys]
  refine (Finset.card_le_card fun b hb => ?_).trans (Finset.card_range _).le
  exact Finset.mem_range.mpr (h.targets b (mem_keys.mp (List.mem_toFinset.mp hb))).2.1

theorem keepsUsed (hd : ∀ b, ¬ blockIsInRegion b sb.journal → b ∉ p.orderedDataAfterImages → d' b = d b)
    (hs : sb.Sound d) (hr : sb.Regions) : sb.KeepsUsed d d' :=
  hs.keepsUsed (O := {b | b ∈ p.orderedDataAfterImages}) hr
    (fun b hb => ⟨(h.free b hb).1.1, (h.free b hb).2.2⟩) hd

theorem setMetadata {b : ℕ} (hr : sb.Regions) (ho : b ∉ p.orderedDataAfterImages) (h1 : sb.data.start ≤ b)
    (h2 : b < sb.totalBlocks.toNat) (y : Block) : (p.setMetadata b (d b) y).Isolated sb d := by
  refine ⟨h.toOk.setMetadata ho rfl y, h.free, fun c hc => ?_⟩
  rcases mem_insert.mp hc with hc | hc
  · obtain rfl := compare_eq_iff_eq.mp hc
    have hw := hr.writable_data h1 h2
    exact ⟨hw.1.ne', hw.2⟩
  · exact h.targets c hc

end Isolated

theorem Builds.isolated {p : PlanImages} {O : Set ℕ} (h : p.Builds r.image d' O {b | r.superblock.Writable b})
    (hr : r.superblock.Regions) (hs : r.superblock.Sound r.image) (hO : ∀ b ∈ O, b ∈ r.blockAllocator.free) :
    p.Isolated r.superblock r.image := by
  refine ⟨h.ok, fun b hb => ?_, fun b hb => ?_⟩
  · obtain ⟨hrange, hbit⟩ := (BitmapAllocator.mem_free (blockAllocator_fits hr)).mp (hO b (h.ordered b hb))
    have hbit : r.superblock.blockBit r.image b = false := hbit
    refine ⟨⟨hrange.1, ?_⟩, hbit, fun hc => ?_⟩
    · have hstop : r.superblock.data.start + r.superblock.data.count = r.superblock.totalBlocks.toNat := hr.data_stop
      rw [hstop]
      exact hrange.2
    · have := (hs.referenced b hrange.1 hrange.2).mpr hc
      rw [hbit] at this
      cases this
  · obtain ⟨h0, h⟩ := h.metadata b hb
    exact ⟨h0.ne', h⟩

end PlanImages

/-! ## The planners -/

namespace FileMutationRequest.Planned

variable {request : FileMutationRequest} {r : ImageReader} {n : ℕ} {v : InodeRecord} (h : request.Planned r n v)

include h

theorem mem_orderedBlocks {b : ℕ} :
    b ∈ (request.orderedBlocks r v).map Prod.fst ↔ ∃ i < request.rewrittenCount v, place r i = b := by
  rw [orderedBlocks_eq h.rewritten_le, List.map_map]
  simp

theorem ordered_free {b : ℕ} (hb : b ∈ (request.orderedBlocks r v).map Prod.fst) : b ∈ request.reserved r v := by
  obtain ⟨i, hi, rfl⟩ := h.mem_orderedBlocks.mp hb
  exact h.place_mem (hi.trans_le (Nat.le_add_right _ _))

theorem newIndirect_not_ordered (hi : request.RewritesIndirect v) :
    request.newIndirect r v ∉ (request.orderedBlocks r v).map Prod.fst := by
  intro hc
  have hneed := neededBlocks_of_rewrites hi
  obtain ⟨i, hlt, heq⟩ := h.mem_orderedBlocks.mp hc
  rw [newIndirect_eq_place hi] at heq
  have := h.place_inj (by omega) (by omega) heq
  omega

/-- The rewritten blocks of a file are the ordered data of its plan. -/
theorem builds : (request.planImages r n v).Builds r.image (request.afterImage r n v)
    {b | b ∈ (request.orderedBlocks r v).map Prod.fst} {b | r.superblock.Writable b} := by
  have htable := h.table_range
  obtain ⟨e1, e2, e3, e4, h5, h6, h7, h8⟩ := h.regions.chain
  obtain ⟨hn1, hn2, -⟩ := Superblock.mem_inodes.mp h.readable.allocated
  have hdata : ∀ b, b ∈ (request.orderedBlocks r v).map Prod.fst → r.superblock.data.start ≤ b :=
    fun b hb => (mem_reserved_lt h.regions (h.ordered_free hb)).1.1
  have hordered := @PlanImages.Builds.addOrderedAll _ _ _ _ _ (builds_empty r.image)
    (request.orderedBlocks r v) fun _ _ => id
  rw [Set.empty_union] at hordered
  have hbitmap := @PlanImages.Builds.addBitmap _ _ _ _ _ hordered r.superblock.blockBitmap r.blockBitmap
    (request.newBitmap r v) (fun k hk hc => by have := hdata _ hc; omega)
    (fun k _ => (bitmapBlock_loadBitmap _ _ _).symm) fun k hk => by
      rw [putAll_of_not_mem fun hc => by have := hdata _ hc; omega]
      exact (bitmapBlock_loadBitmap _ _ _).symm
  have hwritable := @PlanImages.Builds.mono _ _ _ _ _ hbitmap _ {b | r.superblock.Writable b} subset_rfl <| by
    rintro b (hb | ⟨hb1, hb2⟩)
    · exact hb.elim
    · exact h.regions.writable_metadata (by omega) (by omega)
  obtain ⟨d', hindirect⟩ : ∃ d', (request.withIndirect r v ((request.endState r v).images.addBitmap
      r.superblock.blockBitmap r.blockBitmap (request.newBitmap r v))).Builds r.image d'
      {b | b ∈ (request.orderedBlocks r v).map Prod.fst} {b | r.superblock.Writable b} := by
    unfold withIndirect
    split_ifs with hi
    · refine ⟨_, (hwritable.setMetadata (h.newIndirect_not_ordered hi) rfl).mono subset_rfl ?_⟩
      have hrange := (mem_reserved_lt h.regions (newIndirect_mem hi h.space)).1
      exact Set.insert_subset (h.regions.writable_data hrange.1 hrange.2) subset_rfl
    · exact ⟨_, hwritable⟩
  have hrecord := @PlanImages.Builds.setMetadata _ _ (inodeTableBlock r.superblock n) _
    (putInode n (inodeBytes (request.newRecord r v)) (r.image (inodeTableBlock r.superblock n))) _ _ _ hindirect
    (fun hc => by have := hdata _ hc; omega) rfl
  refine ⟨hrecord.ok, rfl, hrecord.ordered, fun b hb => ?_⟩
  rcases hrecord.metadata b hb with rfl | hb
  · exact h.regions.table_writable hn1 hn2
  · exact hb

theorem isolated : (request.planImages r n v).Isolated r.superblock r.image :=
  h.builds.isolated h.regions h.sound fun _ hb => List.mem_of_mem_take (h.ordered_free hb)

end FileMutationRequest.Planned

theorem isolated_of_prepareFileMutation {n : ℕ} {request : FileMutationRequest} {plan : FileMutationPlan}
    (hr : r.superblock.Regions) (hs : r.superblock.Sound r.image)
    (hplan : prepareFileMutation r n request = .ok plan) : plan.images.Isolated r.superblock r.image := by
  obtain ⟨v, h, rfl⟩ := FileMutationRequest.planned_of_prepare hr hs hplan
  exact h.isolated

theorem isolated_of_prepareNewRootObject {request : NewObjectRequest} {plan : NewObjectPlan}
    (hr : r.superblock.Regions) (hs : r.superblock.Sound r.image)
    (hplan : prepareNewRootObject r request = .ok plan) : plan.images.Isolated r.superblock r.image := by
  obtain ⟨root, inodeBit, u, taken, edited, released, blocks, table, d, images, -, -, rfl, hbuild⟩ :=
    NewObjectRequest.created_of_prepare hr hs hplan
  exact (hbuild.mono subset_rfl fun _ hb => hb.1).isolated hr hs fun b hb =>
    List.mem_of_mem_drop (List.mem_of_mem_take hb)

/-- The block of a planned record is a block of the data region. -/
theorem prepareRequestLedgerAppend_block {index : RequestLedgerIndex} {record : RequestLedgerRecord}
    {plan : RequestLedgerAppendPlan} (h : prepareRequestLedgerAppend r index record = .ok plan) :
    (r.superblock.data.start ≤ plan.physicalBlock ∧ plan.physicalBlock < r.superblock.totalBlocks.toNat) ∧
      plan.beforeImage = r.image plan.physicalBlock := by
  unfold prepareRequestLedgerAppend at h
  obtain ⟨-, h⟩ := reject_bind_eq_ok.mp h
  obtain ⟨-, h⟩ := reject_bind_eq_ok.mp h
  obtain ⟨⟨n, v⟩, -, h⟩ := bind_eq_ok.mp h
  obtain ⟨-, h⟩ := reject_bind_eq_ok.mp h
  obtain ⟨-, h⟩ := reject_bind_eq_ok.mp h
  obtain ⟨-, h⟩ := reject_bind_eq_ok.mp h
  obtain ⟨physical, hphysical, h⟩ := bind_eq_ok.mp h
  obtain ⟨before, hbefore, h⟩ := bind_eq_ok.mp h
  obtain ⟨-, h⟩ := reject_bind_eq_ok.mp h
  obtain ⟨encoded, -, h⟩ := bind_eq_ok.mp h
  obtain rfl := Except.ok.inj h
  obtain ⟨b, -, hb⟩ := bind_eq_ok.mp hphysical
  obtain ⟨-, hb⟩ := reject_bind_eq_ok.mp hb
  obtain ⟨u, hvalid, hb⟩ := bind_eq_ok.mp hb
  obtain rfl := Except.ok.inj hb
  exact ⟨(validateAllocatedDataBlock_eq_ok.mp hvalid).1, (readBlock_eq_ok.mp hbefore).2.symm⟩

theorem RequestLedgerAppendPlan.merge_eq_ok {ledger : RequestLedgerAppendPlan} {totalBlocks : UInt32} {uuid : Bytes 16}
    {before ordered metadata : BlockMap} {merged : BlockMap × BlockMap × BlockMap}
    (h : ledger.mergeRequestLedgerAppend totalBlocks uuid before ordered metadata = .ok merged) :
    ledger.physicalBlock ∉ ordered ∧ merged = (before.insert ledger.physicalBlock ledger.beforeImage, ordered,
      metadata.insert ledger.physicalBlock ledger.afterImage) := by
  unfold RequestLedgerAppendPlan.mergeRequestLedgerAppend at h
  obtain ⟨-, -, h⟩ := bind_eq_ok.mp h
  obtain ⟨-, h⟩ := reject_bind_eq_ok.mp h
  obtain ⟨hnot, h⟩ := reject_bind_eq_ok.mp h
  rw [not_or, not_or] at hnot
  exact ⟨hnot.2.1, (Except.ok.inj h).symm⟩

/-- The images of a transaction of the object store: a planned change, perhaps with the record of its request. -/
inductive TransactionImages (r : ImageReader) : PlanImages → Prop
  | create {request : NewObjectRequest} {plan : NewObjectPlan} (h : prepareNewRootObject r request = .ok plan) :
      TransactionImages r plan.images
  | mutate {n : ℕ} {request : FileMutationRequest} {plan : FileMutationPlan}
      (h : prepareFileMutation r n request = .ok plan) : TransactionImages r plan.images
  | withRecord {p : PlanImages} {index : RequestLedgerIndex} {record : RequestLedgerRecord}
      {ledger : RequestLedgerAppendPlan} {totalBlocks : UInt32} {uuid : Bytes 16} {before ordered metadata : BlockMap}
      (h : TransactionImages r p) (happend : prepareRequestLedgerAppend r index record = .ok ledger)
      (hmerge : ledger.mergeRequestLedgerAppend totalBlocks uuid p.beforeImages p.orderedDataAfterImages
        p.metadataAfterImages = .ok (before, ordered, metadata)) :
      TransactionImages r ⟨before, ordered, metadata⟩

theorem TransactionImages.isolated {p : PlanImages} (h : TransactionImages r p) (hr : r.superblock.Regions)
    (hs : r.superblock.Sound r.image) : p.Isolated r.superblock r.image := by
  induction h with
  | create h => exact isolated_of_prepareNewRootObject hr hs h
  | mutate h => exact isolated_of_prepareFileMutation hr hs h
  | @withRecord p index record ledger totalBlocks uuid before ordered metadata h happend hmerge ih =>
    obtain ⟨⟨h1, h2⟩, hbefore⟩ := prepareRequestLedgerAppend_block happend
    obtain ⟨hnot, heq⟩ := RequestLedgerAppendPlan.merge_eq_ok hmerge
    obtain ⟨rfl, rfl, rfl⟩ : before = _ ∧ ordered = _ ∧ metadata = _ := by simpa using heq
    have hmore := ih.setMetadata hr hnot h1 h2 ledger.afterImage
    rw [← hbefore] at hmore
    exact hmore

/-- Every transaction of the object store on a healthy image is one the journal admits, and its ordered data stay
away from the tree. -/
theorem transactionImages_isolated {blocks : ℕ} {d : Image} {report : ConsistencyReport} {r : ImageReader}
    {p : PlanImages} (hcheck : checkImage blocks d = .ok report) (hhealthy : classifyReport report = .kHealthy)
    (hopen : ImageReader.adoptLockedFd blocks d = .ok r) (hp : TransactionImages r p) :
    p.Isolated r.superblock d ∧
      Admissible r.superblock p.beforeImages p.orderedDataAfterImages p.metadataAfterImages ∧
      (∀ s : JournalControlStore, s.superblock = r.superblock → s.reloadRequired = false →
        s.durableBody = none →
        Reservable s.current p.metadataAfterImages.size →
        TxnAccepted s d r.superblock.totalBlocks r.superblock.filesystemUuid p.beforeImages p.orderedDataAfterImages
          p.metadataAfterImages) ∧
      ∀ d' : Image, (∀ b, b ∉ p.orderedDataAfterImages → d' b = d b) →
      ∃ r', ImageReader.adoptLockedFd blocks d' = .ok r' ∧
        ∀ m, r'.readInode m = r.readInode m ∧ r'.listDirectory m = r.listDirectory m ∧
          ∀ offset requested, r'.readFile m offset requested = r.readFile m offset requested := by
  obtain ⟨sb, c, copy, ho, hc, rfl⟩ := opened_of_healthy hcheck hhealthy hopen
  have h := hp.isolated ho.regions hc.toSound
  refine ⟨h, h.admissible ho.regions, fun s hs hl hb hplan => h.txnAccepted ho.regions hs hl hb hplan,
    fun d' hd => ?_⟩
  have hused : sb.KeepsUsed d d' := h.keepsUsed (fun b _ => hd b) hc.toSound ho.regions
  have hkeep := (Superblock.KeepsMetadata.of_eq ho.regions fun b hb => hd b fun hc => by
    have hge : sb.data.start ≤ b := (h.free b hc).1.1
    omega).keepsControls ho.regions
  refine ⟨⟨d', sb, c, copy⟩, (hused.keepsTree.sound ho.regions hc.toSound).adoptLockedFd (ho.keep hkeep),
    fun m => ?_⟩
  have halike := Superblock.KeepsUsed.seesAlike (r := ⟨d, sb, c, copy⟩) hused ho.regions hc.toSound m
  exact ⟨halike.readInode, halike.listDirectory, halike.readFile⟩

/-- The small object and the record of its request, on a new image with a ledger. -/
theorem sampleObject_recorded {base d : Image} (h : Formatted ledgerSuperblock ledgerGeometry sampleHost base d) :
    ∃ plan ledger before ordered metadata, prepareNewRootObject (ledgerReaderOf d) sampleObject = .ok plan ∧
      plan.inodeNumber = 3 ∧ scanRequestLedger (ledgerReaderOf d) = .ok ⟨32, 1, []⟩ ∧
      prepareRequestLedgerAppend (ledgerReaderOf d) ⟨32, 1, []⟩ firstRecord = .ok ledger ∧
      ledger.mergeRequestLedgerAppend ledgerSuperblock.totalBlocks ledgerSuperblock.filesystemUuid
        plan.images.beforeImages plan.images.orderedDataAfterImages plan.images.metadataAfterImages =
          .ok (before, ordered, metadata) ∧
      Reservable (formattedControl ledgerSuperblock) metadata.size := by
  obtain ⟨plan, hplan, hinode, hsize, h17⟩ := sampleObject_planned h
  have hf : ledgerSuperblock.HasLedger := by decide
  have hc := h.consistent ledgerLayout
  have ha := h.appends
  have hscan := scanRequestLedger_of_consistent (r := ledgerReaderOf d) hc hf (h.opens ledgerLayout).features ha.current
    ha.holds
  have happend := prepareRequestLedgerAppend_eq ha.inode ha.holds ha.room ha.valid hf
  -- the record goes to the block of the ledger, which the object leaves alone
  have hblock : (appendPlan (ledgerReaderOf d) (formattedLedger ledgerSuperblock ledgerGeometry sampleHost) []
      firstRecord).physicalBlock = 17 := by
    have hmem := InodeRecord.pointer_mem_owned (d := d) (slot_block_lt ha.room)
    rw [h.ledger_owned ledgerLayout (by decide)] at hmem
    exact List.mem_singleton.mp hmem
  have hok := (isolated_of_prepareNewRootObject ledgerLayout.regions hc.toSound hplan).toOk
  have hmerge := @mergeRequestLedgerAppend_eq _ _ _ _ ha.inode ha.holds ha.room ha.valid plan.images.beforeImages
    plan.images.orderedDataAfterImages plan.images.metadataAfterImages (by
      rw [hblock]
      intro m hm hc
      simp only [List.mem_cons, List.not_mem_nil, or_false] at hm
      refine h17 ?_
      rcases hm with rfl | rfl | rfl
      · exact hc
      · exact (hok.covered 17).mpr (.inl hc)
      · exact (hok.covered 17).mpr (.inr hc))
  have hring : (formattedControl ledgerSuperblock).ringBlocks.toNat = 10 := by decide
  refine ⟨plan, _, _, _, _, hplan, hinode, hscan, happend, hmerge,
    (formattedControl_valid ledgerLayout.regions).1, rfl, ?_, ?_, ?_, by decide⟩ <;>
  rw [size_insert, if_neg (by rw [hblock]; exact fun hc => h17 ((hok.covered 17).mpr (.inr hc)))] <;> omega

/-- The new object of the small image and its record are one transaction that the store takes, and ones in the blocks of
its data do not reach the ledger file. -/
theorem transactionImages_isolated_sample : ∃ plan ledger before ordered metadata r',
    prepareNewRootObject ledgerReader sampleObject = .ok plan ∧
    prepareRequestLedgerAppend ledgerReader ⟨32, 1, []⟩ firstRecord = .ok ledger ∧
    ledger.mergeRequestLedgerAppend ledgerSuperblock.totalBlocks ledgerSuperblock.filesystemUuid
      plan.images.beforeImages plan.images.orderedDataAfterImages plan.images.metadataAfterImages =
        .ok (before, ordered, metadata) ∧
    TxnAccepted (.fresh ledgerSuperblock (formattedControl ledgerSuperblock) .kA) ledgerImage
      ledgerSuperblock.totalBlocks ledgerSuperblock.filesystemUuid before ordered metadata ∧
    ImageReader.adoptLockedFd 32 (fun b => if b ∈ ordered then Vector.replicate _ 1 else ledgerImage b) = .ok r' ∧
    r'.readFile 2 0 8 = ledgerReader.readFile 2 0 8 := by
  obtain ⟨plan, ledger, before, ordered, metadata, hplan, -, -, happend, hmerge, hring⟩ :=
    sampleObject_recorded ledgerImage_formatted
  obtain ⟨_, hcheck, hhealthy⟩ := ledgerImage_healthy
  obtain ⟨-, -, hstore, hframe⟩ :=
    transactionImages_isolated hcheck hhealthy adoptLockedFd_ledgerImage (.withRecord (.create hplan) happend hmerge)
  obtain ⟨r', hr', hsame⟩ := hframe _ fun b hb => if_neg hb
  exact ⟨plan, ledger, before, ordered, metadata, r', hplan, happend, hmerge,
    hstore (.fresh _ _ _) rfl rfl rfl hring, hr', (hsame 2).2.2 0 8⟩

/-- The small object changes both bitmaps and the inode table of the small image. -/
theorem sampleObject_changes : ∃ plan, prepareNewRootObject sampleReader sampleObject = .ok plan ∧
    plan.images.Isolated sampleSuperblock sampleImage ∧ 3 ≤ plan.images.metadataAfterImages.size := by
  have haccepted : sampleObject.Accepted sampleReader _ :=
    accepted (r := sampleReader) sampleImage_formatted sampleLayout (by decide) (by decide) (by decide)
  obtain ⟨inodeBit, u, taken, edited, released, blocks, table, d, images, hp, -, -, hspace, hok, hbuild⟩ :=
    planned (r := sampleReader) sampleImage_formatted sampleLayout haccepted (by decide) (by decide)
  have hisolated := isolated_of_prepareNewRootObject (r := sampleReader) sampleLayout.regions
    (sampleImage_formatted.sound sampleLayout) hok
  have hpos : 0 < sampleObject.demand taken := Nat.lt_of_lt_of_le (by decide) (Nat.le_add_left _ _)
  obtain ⟨⟨k, hk, h1⟩, ⟨l, hl, h2⟩, h3⟩ := hp.changes hspace hpos (by decide)
  obtain rfl : k = 0 := Nat.lt_one_iff.mp hk
  obtain rfl : l = 0 := Nat.lt_one_iff.mp hl
  rw [← hbuild.after] at h1 h2 h3
  have hkeys : ∀ b ∈ ({1, 2, 3} : Finset ℕ), b ∈ images.metadataAfterImages.keys.toFinset := by
    intro b hb
    rw [List.mem_toFinset, mem_keys]
    simp only [Finset.mem_insert, Finset.mem_singleton] at hb
    rcases hb with rfl | rfl | rfl
    · exact hisolated.mem_of_changed (by decide) h1
    · exact hisolated.mem_of_changed (by decide) h2
    · exact hisolated.mem_of_changed (by decide) h3
  refine ⟨_, hok, hisolated, ?_⟩
  rw [size_eq_card_keys]
  exact (show 3 = Finset.card {1, 2, 3} from rfl).trans_le (Finset.card_le_card hkeys)

/-- A ring of four blocks has room for two after-images; a new object has three at least.  The store refuses the plan
for the healthy image. -/
theorem ring_has_no_room : ∃ report plan, checkImage 16 sampleImage = .ok report ∧
    classifyReport report = .kHealthy ∧ ImageReader.adoptLockedFd 16 sampleImage = .ok sampleReader ∧
    prepareNewRootObject sampleReader sampleObject = .ok plan ∧
    ∀ w, writeOrderedDataAndUnexposedBody sampleSuperblock.totalBlocks sampleSuperblock.filesystemUuid
        plan.images.beforeImages plan.images.orderedDataAfterImages plan.images.metadataAfterImages
        (.fresh sampleSuperblock (formattedControl sampleSuperblock) .kA) w =
      .fail ⟨.ENOSPC, "the complete transaction does not fit in the journal ring"⟩
        (.fresh sampleSuperblock (formattedControl sampleSuperblock) .kA) w := by
  have hr := sampleLayout.regions
  have hopen := sampleImage_formatted.opens sampleLayout
  obtain ⟨plan, hplan, hisolated, hmin⟩ := sampleObject_changes
  have hmax : plan.images.metadataAfterImages.size ≤ 16 := hisolated.size_le
  have hpos : 0 < plan.images.metadataAfterImages.size := Nat.lt_of_lt_of_le (by decide) hmin
  have hring : (formattedControl sampleSuperblock).ringBlocks.toNat = 4 := by decide
  have hroom := planRingReservation_noRoom (formattedControl_valid hr).1 rfl hpos (hmax.trans (by decide))
    (hring.trans_lt (Nat.lt_of_lt_of_le (by decide) (Nat.add_le_add_right hmin 2)))
  exact ⟨_, plan, checkImage_of_clean hopen rfl,
    (checkClean_healthy_iff hr).mpr (sampleImage_formatted.consistent sampleLayout),
    (sampleImage_formatted.sound sampleLayout).adoptLockedFd hopen, hplan, fun w =>
      writeOrderedDataAndUnexposedBody_noRoom
        (s := .fresh sampleSuperblock (formattedControl sampleSuperblock) .kA) rfl rfl rfl
        (hisolated.admissible hr) hpos hroom⟩

end Eufs
