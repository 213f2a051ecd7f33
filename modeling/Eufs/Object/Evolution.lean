import Eufs.Object.Lifetime
import Eufs.Object.Result

/-!
# Eufs.Object.Evolution — how the objects of an image change

The objects of an image are the files that its root directory names, the ledger apart.  Whatever a planner changes, an
object keeps its name and its inode, its content changes only together with its generation, which grows, and a record
of the ledger stays.  `Superblock.Evolves` says so of two images.
-/

namespace Eufs

open Superblock PlanImages InodeRecord RequestLedgerIndex

variable {record : RequestLedgerRecord} {v : InodeRecord} {index : RequestLedgerIndex}

/-- The earlier version and content of an object, and the later ones. -/
def ObjectVersion.Grows (version : ObjectVersion) (data : List UInt8) (version' : ObjectVersion)
    (data' : List UInt8) : Prop :=
  version'.inodeNumber = version.inodeNumber ∧
    (version.generation < version'.generation ∨ version' = version ∧ data' = data)

theorem ObjectVersion.Grows.trans {x y z : ObjectVersion} {a b c : List UInt8} (h : x.Grows a y b)
    (h' : y.Grows b z c) :
    x.Grows a z c := by
  refine ⟨h'.1.trans h.1, ?_⟩
  rcases h.2, h'.2 with ⟨hlt | ⟨rfl, rfl⟩, hlt' | ⟨rfl, rfl⟩⟩
  · exact .inl (UInt64.lt_trans hlt hlt')
  · exact .inl hlt
  · exact .inl hlt'
  · exact .inr ⟨rfl, rfl⟩

namespace Superblock

section Definitions

variable (sb : Superblock) (d d' : Image)

/-- The root has inode `i` under `name`. -/
def Binds (name : Name) (i : UInt32) : Prop :=
  ∃ e ∈ sb.entriesOf d sb.rootInode.toNat, e.name = name ∧ e.inode = i

/-- An inode that may hold an object: neither the root nor the ledger. -/
def IsObject (n : ℕ) : Prop :=
  n ∈ sb.inodes d ∧ n ≠ sb.rootInode.toNat ∧ (sb.HasLedger → n ≠ kRequestLedgerInodeNumber)

/-- The object `name` is there in this version. -/
def Stored (name : Name) (version : ObjectVersion) (data : List UInt8) : Prop :=
  sb.Binds d name version.inodeNumber ∧ sb.IsObject d version.inodeNumber.toNat ∧
    ∃ v, sb.inodeAt d version.inodeNumber.toNat = some v ∧ S_ISREG v.mode ∧ v.generation = version.generation ∧
      v.content d = data

/-- The file of the ledger, and its records. -/
def Logs (v : InodeRecord) (records : List RequestLedgerRecord) : Prop :=
  sb.inodeAt d kRequestLedgerInodeNumber = some v ∧ v.LedgerHolds d records

/-- The ledger holds the record. -/
def Recorded (record : RequestLedgerRecord) : Prop :=
  sb.HasLedger ∧ ∃ v records, sb.Logs d v records ∧ record ∈ records

/-- The index of the ledger. -/
def Indexes (index : RequestLedgerIndex) : Prop :=
  sb.HasLedger ∧ ∃ v records, sb.Logs d v records ∧ index = ledgerIndex v records

/-- Objects and records of `d` are still there in `d'`. -/
structure Evolves : Prop where
  objects : ∀ name version data, sb.Stored d name version data →
    ∃ version' data', sb.Stored d' name version' data' ∧ version.Grows data version' data'
  records : ∀ record, sb.Recorded d record → sb.Recorded d' record

end Definitions

variable {sb : Superblock} {d d' : Image} {name : Name} {i i' : UInt32}

theorem Evolves.refl (sb : Superblock) (d : Image) : sb.Evolves d d :=
  ⟨fun _ version data h => ⟨version, data, h, rfl, .inr ⟨rfl, rfl⟩⟩, fun _ h => h⟩

theorem Evolves.trans {d'' : Image} (h : sb.Evolves d d') (h' : sb.Evolves d' d'') : sb.Evolves d d'' := by
  refine ⟨fun name version data hs => ?_, fun record hr => h'.records _ (h.records _ hr)⟩
  obtain ⟨version', data', hs', hgrows⟩ := h.objects _ _ _ hs
  obtain ⟨version'', data'', hs'', hgrows'⟩ := h'.objects _ _ _ hs'
  exact ⟨version'', data'', hs'', hgrows.trans hgrows'⟩

/-- It is enough that names stay and that every object is kept or gets a later generation. -/
theorem Evolves.of_keeps (hs : sb.Sound d) (hnames : ∀ name i, sb.Binds d name i → sb.Binds d' name i)
    (hinodes : ∀ n ∈ sb.inodes d, n ∈ sb.inodes d') (hobjects : ∀ n, sb.IsObject d n → sb.Keeps d d' n ∨
      ∀ v, sb.inodeAt d n = some v → ∃ v', sb.inodeAt d' n = some v' ∧ v'.mode = v.mode ∧
      v.generation < v'.generation)
    (hrecords : ∀ record, sb.Recorded d record → sb.Recorded d' record) : sb.Evolves d d' := by
  refine ⟨fun name version data ⟨hb, hn, v, hv, hreg, hgen, hdata⟩ => ?_, hrecords⟩
  have hn' : sb.IsObject d' version.inodeNumber.toNat := ⟨hinodes _ hn.1, hn.2⟩
  rcases hobjects _ hn with hk | hk
  · obtain ⟨w, hw⟩ := hs.exists_readable hn.1
    obtain rfl := Option.some.inj (hw.record.symm.trans hv)
    refine ⟨version, data, ⟨hnames _ _ hb, hn', w, (inodeAt_of_slot hk.slot).trans hv, hreg, hgen, ?_⟩, rfl,
      .inr ⟨rfl, rfl⟩⟩
    rw [content_frame hw.mapped (hk.owned hv), hdata]
  · obtain ⟨v', hv', hmode, hlt⟩ := hk v hv
    exact ⟨⟨version.inodeNumber, v'.generation⟩, _,
      ⟨hnames _ _ hb, hn', v', hv', hmode ▸ hreg, rfl, rfl⟩, rfl,
      .inl (hgen ▸ hlt)⟩

theorem Consistent.recorded_of_keeps (hc : sb.Consistent d)
    (hk : sb.HasLedger → sb.Keeps d d' kRequestLedgerInodeNumber) (h : sb.Recorded d record) :
    sb.Recorded d' record := by
  obtain ⟨hf, v, records, ⟨hv, hh⟩, hmem⟩ := h
  obtain ⟨w, hw⟩ := hc.exists_readable ((hc.ledger hf).mem_inodes hc.toSound).1
  obtain rfl := Option.some.inj (hw.record.symm.trans hv)
  exact ⟨hf, w, records, ⟨(inodeAt_of_slot (hk hf).slot).trans hv,
    ledgerHolds_frame hw.mapped ((hk hf).owned hv) hh⟩, hmem⟩

/-- The slots of the ledger are decoded in one way. -/
theorem Logs.unique {v' : InodeRecord} {records records' : List RequestLedgerRecord} (h : sb.Logs d v records)
    (h' : sb.Logs d v' records') : v = v' ∧ records = records' := by
  obtain rfl := Option.some.inj (h.1.symm.trans h'.1)
  refine ⟨rfl, List.ext_getElem? fun k => ?_⟩
  by_cases hk : k < v.size.toNat / kRequestLedgerRecordSize
  · exact Except.ok.inj ((h.2.slots k hk).symm.trans (h'.2.slots k hk))
  · rw [List.getElem?_eq_none (h.2.fits.trans (not_lt.mp hk)), List.getElem?_eq_none (h'.2.fits.trans (not_lt.mp hk))]

/-- The index finds exactly the records. -/
theorem Indexes.find_eq_some (h : sb.Indexes d index) {id : RequestId} :
    index.find id = some record ↔ sb.Recorded d record ∧ record.requestId = id := by
  obtain ⟨hf, v, records, hlogs, rfl⟩ := h
  constructor
  · intro hfind
    exact ⟨⟨hf, v, records, hlogs, List.mem_of_find?_eq_some hfind⟩, by simpa using List.find?_some hfind⟩
  · rintro ⟨⟨-, v', records', hlogs', hmem⟩, rfl⟩
    obtain ⟨rfl, rfl⟩ := hlogs'.unique hlogs
    cases hfind : (ledgerIndex v' records').find record.requestId with
    | none => exact absurd (List.mem_map_of_mem hmem) (not_mem_of_find hfind)
    | some e =>
      have hid : e.requestId = record.requestId := by simpa using List.find?_some hfind
      rw [List.inj_on_of_nodup_map hlogs.2.ids (List.mem_of_find?_eq_some hfind) hmem hid]

/-- Blocks that are not in use do not matter. -/
theorem KeepsUsed.evolves (hk : sb.KeepsUsed d d') (hr : sb.Regions) (hc : sb.Consistent d) : sb.Evolves d d' := by
  refine .of_keeps hc.toSound (fun name i hb => ?_) (fun n hn => ?_) (fun n hn => .inl (hk.keeps hr hn.1))
    fun _ => hc.recorded_of_keeps fun hf => hk.keeps hr ((hc.ledger hf).mem_inodes hc.toSound).1
  · rwa [Binds, hk.keepsTree.entriesOf_eq hr hc.toSound hc.root.1]
  · rwa [hk.keepsTree.inodes_eq hr]

namespace Consistent

variable (hc : sb.Consistent d)

include hc

theorem names_nodup : ((sb.entriesOf d sb.rootInode.toNat).map DirectoryEntry.name).Nodup := by
  obtain ⟨w, hw⟩ := hc.exists_readable hc.root.1
  rw [entriesOf_of_record hw.record]
  split_ifs with hdir
  · exact (hc.directory _ hc.root.1 w hw.record hdir).names
  · exact List.nodup_nil

/-- A name stands for one inode. -/
theorem binds_unique (hb : sb.Binds d name i) (hb' : sb.Binds d name i') : i = i' := by
  obtain ⟨e, he, rfl, rfl⟩ := hb
  obtain ⟨e', he', hname, rfl⟩ := hb'
  rw [List.inj_on_of_nodup_map hc.names_nodup he he' hname.symm]

/-- A name stands for an object, unless it is the one of the ledger. -/
theorem isObject_of_binds (hb : sb.Binds d name i) (hi : sb.HasLedger → i.toNat ≠ kRequestLedgerInodeNumber) :
    sb.IsObject d i.toNat := by
  obtain ⟨e, he, rfl, rfl⟩ := hb
  refine ⟨(hc.entry_target hc.root.1 he).1, fun h => ?_, hi⟩
  exact hc.rootTop e (List.mem_flatMap.mpr ⟨_, hc.root.1, he⟩) (UInt32.toNat_inj.mp h)

end Consistent

theorem Stored.unique {version version' : ObjectVersion} {data data' : List UInt8} (h : sb.Stored d name version data)
    (h' : sb.Stored d name version' data') (hc : sb.Consistent d) : version = version' ∧ data = data' := by
  obtain ⟨inode, generation⟩ := version
  obtain ⟨inode', generation'⟩ := version'
  obtain ⟨hb, -, v, hv, -, rfl, rfl⟩ := h
  obtain ⟨hb', -, v', hv', -, rfl, rfl⟩ := h'
  obtain rfl := hc.binds_unique hb hb'
  obtain rfl := Option.some.inj (hv.symm.trans hv')
  exact ⟨rfl, rfl⟩

end Superblock

/-! ## The planners -/

section Creation

variable {r : ImageReader} {request : NewObjectRequest} {root : InodeRecord} {inodeBit taken : ℕ} {u : RootUpdate}
  {edited released blocks : List ℕ} {table : ℕ} {d : Image} (hc : r.superblock.Consistent r.image)
  (h : request.Placed r root inodeBit u taken edited released blocks table d)
  (hspace : request.demand taken ≤ r.blockAllocator.free.length)

include h

theorem NewObjectRequest.Placed.not_binds (i : UInt32) : ¬ r.superblock.Binds r.image request.name i := by
  rintro ⟨e, he, hname, -⟩
  refine h.absent ?_
  rw [entriesOf_of_record h.readable.record, if_pos h.directory] at he
  exact hname ▸ List.mem_map_of_mem he

include hspace

theorem NewObjectRequest.Placed.binds_iff {name : Name} {i : UInt32} :
    r.superblock.Binds (request.createdImage r inodeBit taken u released d) name i ↔
      name = request.name ∧ i = UInt32.ofNat (inodeBit + 1) ∨ r.superblock.Binds r.image name i := by
  have hkeys : ∀ d' : Image, r.superblock.Binds d' name i ↔
      ∃ k ∈ (r.superblock.entriesOf d' r.superblock.rootInode.toNat).map DirectoryEntry.key,
      k.2.2 = name ∧ k.1 = i := by
    intro d'
    simp only [List.mem_map, exists_exists_and_eq_and]
    rfl
  obtain ⟨pre, post, hold, hnew⟩ := (h.grownTree hspace).rootEntries
  rw [hkeys, hkeys, hold, hnew]
  simp only [List.mem_append, List.mem_cons, or_and_right, exists_or, exists_eq_left]
  rw [or_left_comm]
  exact or_congr_left (and_congr eq_comm eq_comm)

include hc

theorem NewObjectRequest.Placed.evolves :
    r.superblock.Evolves r.image (request.createdImage r inodeBit taken u released d) :=
  .of_keeps hc.toSound (fun _ _ hb => (h.binds_iff hspace).mpr (.inr hb))
    (fun _ hn => (h.mem_inodes hspace).mpr (.inr hn))
    (fun _ hn => .inl (h.keeps hspace hn.1 hn.2.1)) fun _ => hc.recorded_of_keeps (h.consistent hspace hc).2

theorem NewObjectRequest.Placed.stored : r.superblock.Stored (request.createdImage r inodeBit taken u released d)
    request.name ⟨UInt32.ofNat (inodeBit + 1), 1⟩ request.data := by
  have hnew := (h.mem_inodes hspace (m := inodeBit + 1)).mpr (.inl rfl)
  refine ⟨(h.binds_iff hspace).mpr (.inl ⟨rfl, rfl⟩), ?_, ?_⟩
  · rw [h.toNat_inode]
    refine ⟨hnew, fun hroot => h.fresh (hroot ▸ hc.root.1), fun hf hl => h.fresh (hl ▸ ?_)⟩
    exact ((hc.ledger hf).mem_inodes hc.toSound).1
  · rw [h.toNat_inode]
    exact ⟨_, h.inodeAt_file hspace, file_isReg, rfl, h.file_content hspace⟩

end Creation

theorem FileMutationRequest.Planned.generation_lt {request : FileMutationRequest} {r : ImageReader} {n : ℕ}
    (h : request.Planned r n v) : v.generation < v.generation + 1 := by
  have hwraps := h.accepts.wraps
  have hlt := v.generation.toNat_lt
  rw [UInt64.lt_iff_toNat_lt, UInt64.toNat_add, UInt64.toNat_one]
  omega

/-- The new version of a file is all that changes. -/
theorem FileMutationRequest.Planned.evolves {request : FileMutationRequest} {r : ImageReader} {n : ℕ}
    (h : request.Planned r n v) (hc : r.superblock.Consistent r.image)
    (hn : r.superblock.HasLedger → n ≠ kRequestLedgerInodeNumber) :
    r.superblock.Evolves r.image (request.afterImage r n v) := by
  refine .of_keeps hc.toSound (fun name i hb => ?_) (fun m hm => by rwa [h.inodes_eq]) (fun m hm => ?_)
    fun _ => hc.recorded_of_keeps (h.sparesLedger hc hn).ledger
  · rwa [Superblock.Binds, h.sameTree.entriesOf_eq hc.toSound hc.root.1]
  by_cases hne : m = n
  · subst hne
    refine .inr fun w hw => ⟨_, h.inodeAt_self, ?_⟩
    obtain rfl := Option.some.inj (h.readable.record.symm.trans hw)
    exact ⟨rfl, h.generation_lt⟩
  · exact .inl (h.keeps hm.1 hne)

section Planners

variable {r : ImageReader} {p : PlanImages} (hr : r.superblock.Regions) (hc : r.superblock.Consistent r.image)

include hr hc

theorem TreePlan.evolves (h : TreePlan r p) : r.superblock.Evolves r.image (p.after r.image) := by
  have hmutation : ∀ {n request plan}, (r.superblock.HasLedger →
      n ≠ kRequestLedgerInodeNumber) → prepareFileMutation r n request = .ok plan →
      r.superblock.Evolves r.image (plan.images.after r.image) := fun hn hplan => by
    obtain ⟨v, h, rfl⟩ := FileMutationRequest.planned_of_prepare hr hc.toSound hplan
    exact h.evolves hc hn
  cases h with
  | emptyFile h =>
    obtain ⟨root, inodeBit, u, blocks, d, hplaced, -, hspace, hafter⟩ :=
      created_of_prepareRootEmptyFileCreate hr hc.toSound h
    exact hafter ▸ hplaced.evolves hc hspace
  | write hn h => exact hmutation hn (reject_bind_eq_ok.mp h).2
  | replace hn h => exact hmutation hn h
  | create h =>
    obtain ⟨root, inodeBit, u, taken, edited, released, blocks, table, d, images, hplaced, hspace, rfl, hbuild⟩ :=
      NewObjectRequest.created_of_prepare hr hc.toSound h
    exact hbuild.after ▸ hplaced.evolves hc hspace

/-- One record more. -/
theorem Appends.evolves {records : List RequestLedgerRecord} (ha : Appends r v records record)
    (hf : r.superblock.HasLedger) (hfresh : record.requestId ∉ records.map RequestLedgerRecord.requestId) :
    r.superblock.Evolves r.image ((appendPlan r v records record).applied r.image) ∧
      r.superblock.Logs ((appendPlan r v records record).applied r.image) v
        (records ++ [(appendPlan r v records record).record]) := by
  have htree : r.superblock.KeepsTree r.image ((appendPlan r v records record).applied r.image) :=
    keepsTree_applied hc ha.allocated ha.inode ha.room
  have hmem := (hc.ledger hf).mem_inodes hc.toSound
  have hv := (htree.inodeAt_eq hr hmem.1).trans ha.current
  have hh := ledgerHolds_applied hc ha.allocated ha.inode ha.holds ha.room ha.valid hfresh
  refine ⟨.of_keeps hc.toSound (fun name i hb => ?_) (fun m hm => by rwa [htree.inodes_eq hr])
    (fun m hm => .inl ?_) ?_, hv, hh⟩
  · rwa [Superblock.Binds, htree.entriesOf_eq hr hc.toSound hc.root.1]
  · -- the block of the slot is not a block of the object
    refine ⟨htree.slot_eq hr hm.1, fun b hbo => Function.update_of_ne ?_ _ _⟩
    rintro rfl
    refine hc.toSound.owned_disjoint (hm.2.2 hf) hm.1 hmem.1 _ hbo ?_
    rw [ownedBy_of_record ha.current]
    exact pointer_mem_owned (slot_block_lt ha.room)
  · rintro x ⟨-, w, records', hlogs, hx⟩
    obtain ⟨rfl, rfl⟩ := hlogs.unique ⟨ha.current, ha.holds⟩
    exact ⟨hf, w, _, ⟨hv, hh⟩, List.mem_append_left _ hx⟩

omit hr in
/-- The scan of the ledger gives its index. -/
theorem indexes_of_scan (hscan : scanRequestLedger r = .ok index) : r.superblock.Indexes r.image index := by
  obtain ⟨hf, hscan'⟩ := reject_bind_eq_ok.mp hscan
  obtain ⟨v, hinode, -, hv⟩ := exists_ledgerInode hc.toSound (hc.ledger hf)
  obtain ⟨hh, hindex⟩ := (scanRequestLedger_eq_ok hinode hf (not_not.mp (reject_bind_eq_ok.mp hscan').1)).mp hscan
  exact ⟨hf, v, _, ⟨hv, hh⟩, hindex⟩

/-- A change of the tree leaves the ledger ready for the record. -/
theorem PlanImages.SparesLedger.evolves_recorded {ledger : RequestLedgerAppendPlan} {totalBlocks : UInt32}
    {uuid : Bytes 16} {before ordered metadata : BlockMap} (h : p.SparesLedger r)
    (hscan : scanRequestLedger r = .ok index) (hfresh : FreshRecord index record)
    (happend : prepareRequestLedgerAppend r index record = .ok ledger)
    (hmerge : ledger.mergeRequestLedgerAppend totalBlocks uuid p.beforeImages p.orderedDataAfterImages
      p.metadataAfterImages = .ok (before, ordered, metadata)) :
    r.superblock.Evolves (p.after r.image) (after ⟨before, ordered, metadata⟩ r.image) ∧
      r.superblock.Recorded (after ⟨before, ordered, metadata⟩ r.image) ledger.record ∧
      ∃ k, ledger.record = { record with sequence := k } := by
  have hf := (reject_bind_eq_ok.mp hscan).1
  obtain ⟨v, ha, -, rfl⟩ := appends_of_prepare hc hscan happend
  obtain ⟨-, heq⟩ := RequestLedgerAppendPlan.merge_eq_ok hmerge
  obtain ⟨rfl, rfl, rfl⟩ : before = _ ∧ ordered = _ ∧ metadata = _ := by simpa using heq
  have hkeep := h.ledger hf
  obtain ⟨w, hinode, hn, hw⟩ := exists_ledgerInode (r := { r with image := p.after r.image }) h.consistent.toSound
    (h.consistent.ledger hf)
  obtain rfl := Option.some.inj (hw.symm.trans ((inodeAt_of_slot hkeep.slot).trans ha.current))
  have hmapped := (ImageReader.readable_of_resolvePath ha.inode.resolves).mapped
  have ha' : Appends { r with image := p.after r.image } w index.records record :=
    ⟨hinode, hn, hw, ledgerHolds_frame hmapped (hkeep.owned ha.current) ha.holds, ha.room, ha.valid⟩
  have happlied := Appends.evolves (r := { r with image := p.after r.image }) hr h.consistent ha' hf
    (not_mem_of_find hfresh)
  rw [h.appendPlan_eq ha hf] at happlied
  have hafter : (p.setMetadata (appendPlan r w index.records record).physicalBlock
      (appendPlan r w index.records record).beforeImage (appendPlan r w index.records record).afterImage).after
      r.image = (appendPlan r w index.records record).applied (p.after r.image) := after_setMetadata
  dsimp only at happlied
  rw [← hafter] at happlied
  exact ⟨happlied.1, ⟨hf, w, _, happlied.2, List.mem_append_right _ (List.mem_singleton_self _)⟩, _, rfl⟩

end Planners

end Eufs
