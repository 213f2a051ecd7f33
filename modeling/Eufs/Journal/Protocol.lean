import Eufs.Journal.Recovery

/-!
# Eufs.Journal.Protocol — the batches each method writes

Every method of the store is summed up by the list of batches it writes between two syncs:

* `bodyWrites`: descriptor and after-images of a transaction;
* `controlWrite`, `commitWrite`: one block each;
* `homeWrites`: after-images to their home blocks.

The specifications below hold from any state of the store; what a method needs before it writes at all is stated as
a predicate (`BodyAccepted`, `TxnAccepted`), and a method that refuses leaves the store as it was.
-/

namespace Eufs

open Prog Superblock Std.ExtTreeMap Function Region

variable {i a n : ℕ} {sb : Superblock} {metadata before ordered : BlockMap}

/-! ## Geometry -/

namespace Superblock.Regions

variable {sb : Superblock} (h : sb.Regions)

include h

theorem ringBlocks_add : sb.ringBlocks + 2 = sb.journal.count := by
  have := h.journal_count
  simp only [ringBlocks, kJournalControlBlockCount]
  omega

theorem three_le_ringBlocks : 3 ≤ sb.ringBlocks := by
  have := h.journal_count
  have := h.ringBlocks_add
  omega

theorem journal_stop_lt : sb.journal.stop < sb.totalBlocks.toNat := by
  have h1 := h.data
  have h2 := h.data_count
  have h3 := h.data_stop
  simp only [stop] at *
  omega

theorem journal_start_pos : 0 < sb.journal.start := by
  have h1 := h.journal
  have h2 := h.inodeTable
  have h3 := h.blockBitmap
  have h4 := h.inodeBitmap
  simp only [stop] at *
  omega

theorem ringBlock_lt_stop (hi : i < sb.ringBlocks) : sb.ringBlock i < sb.journal.stop := by
  have := h.ringBlocks_add
  simp only [ringBlock, stop, kJournalControlBlockCount]
  omega

theorem ringBlock_lt_total (hi : i < sb.ringBlocks) : sb.ringBlock i < sb.totalBlocks.toNat :=
  (h.ringBlock_lt_stop hi).trans h.journal_stop_lt

theorem controlBlock_lt_total (copy : ControlCopy) : sb.controlBlock copy < sb.totalBlocks.toNat := by
  have h1 := h.journal_stop_lt
  have h2 := h.journal_count
  cases copy <;> simp only [controlBlock, stop] at * <;> omega

theorem controlBlock_mem (copy : ControlCopy) : blockIsInRegion (sb.controlBlock copy) sb.journal := by
  have h2 := h.journal_count
  cases copy <;> simp only [controlBlock, blockIsInRegion] <;> omega

theorem ringBlock_mem (hi : i < sb.ringBlocks) : blockIsInRegion (sb.ringBlock i) sb.journal := by
  have h1 := h.ringBlock_lt_stop hi
  simp only [ringBlock, blockIsInRegion, stop] at *
  omega

theorem not_journal_of_data (ha : blockIsInRegion a sb.data) : ¬ blockIsInRegion a sb.journal := by
  have h1 := h.data
  simp only [blockIsInRegion, stop] at *
  omega

theorem ringOffset_eq {i : UInt32} (hi : i.toNat < sb.ringBlocks) :
    ringOffset sb i = .ok (sb.ringBlock i.toNat) := by
  unfold ringOffset
  simp only [reject_bind_eq_ok]
  exact ⟨not_le.mpr hi, not_or.mpr ⟨not_le.mpr (h.ringBlock_lt_stop hi), not_le.mpr (h.ringBlock_lt_total hi)⟩,
    rfl⟩

end Superblock.Regions

theorem Superblock.controlBlock_inj {a b : ControlCopy} (h : sb.controlBlock a = sb.controlBlock b) : a = b := by
  cases a <;> cases b <;> simp only [controlBlock] at h <;> first | rfl | omega

theorem Superblock.ringBlock_inj {j : ℕ} (h : sb.ringBlock i = sb.ringBlock j) : i = j := by
  simp only [ringBlock] at h
  omega

theorem Superblock.controlBlock_ne_ringBlock {copy : ControlCopy} : sb.controlBlock copy ≠ sb.ringBlock i := by
  cases copy <;> simp only [controlBlock, ringBlock, kJournalControlBlockCount] <;> omega

/-! ## States of the store -/

/-- The state a method leaves after a write whose outcome is unknown. -/
def Latched (s : JournalControlStore) : Prop := s.reloadRequired = true

theorem latched_latch (s : JournalControlStore) : Latched s.latch := rfl

/-- What every opened store satisfies. -/
structure StoreOk (s : JournalControlStore) : Prop where
  regions : s.superblock.Regions
  valid : s.current.Valid
  uuid : s.current.filesystemUuid = s.superblock.filesystemUuid
  ring : s.current.ringBlocks.toNat = s.superblock.ringBlocks

theorem issues_storeWrite (op : Op) (a : ℕ) (x : Block) : Issues Latched (storeWrite op a x) ⟨op, a, x⟩ :=
  issues_pwriteAll Op.text latched_latch

theorem syncs_storeSync (op : Op) : Syncs Latched (storeSync op) := syncs_fdatasync Op.text latched_latch

theorem issues_recoveryWrite (a : ℕ) (x : Block) : Issues Latched (recoveryWrite a x) ⟨.recoveryHome, a, x⟩ :=
  issues_pwriteAll Op.text latched_latch

theorem sameControlState_iff {a b : JournalControl} : sameControlState a b ↔ a = b := by
  constructor
  · intro h
    cases a; cases b
    simp only [sameControlState, hasSameIdentity] at h
    simp [h]
  · rintro rfl
    simp [sameControlState, hasSameIdentity]

theorem sameReservation_iff {a b : RingReservationPlan} : sameReservation a b ↔ a = b := by
  constructor
  · intro h
    cases a; cases b
    simp only [sameReservation, sameControlState_iff] at h
    simp [h]
  · rintro rfl
    simp [sameReservation, sameControlState_iff]

/-! ## Controls -/

/-- The write of a control to one of its copies. -/
def controlWrite (sb : Superblock) (copy : ControlCopy) (c : JournalControl) : Write Block Op :=
  ⟨.control, sb.controlBlock copy, controlBytes c⟩

/-- `next` may follow the current control. -/
structure Succeeds (s : JournalControlStore) (next : JournalControl) : Prop where
  identity : hasSameIdentity s.current next
  generation : next.generation = s.current.generation + 1
  valid : next.Valid

section Specs

variable {s : JournalControlStore} {w : Disk} {R : Failure → Prop}

/-- What `persistNext` asks of the identity of the next control. -/
theorem Succeeds.unchanged {next : JournalControl} (hn : Succeeds s next) (hs : StoreOk s) :
    ¬ (¬ hasSameIdentity s.current next ∨ next.filesystemUuid ≠ s.superblock.filesystemUuid ∨
      next.ringBlocks.toNat ≠ s.superblock.ringBlocks) := by
  have h1 := hn.identity
  simp only [not_or, not_not, ne_eq]
  exact ⟨h1, h1.2.1 ▸ hs.uuid, h1.1 ▸ hs.ring⟩

theorem phased_persistNext {next : JournalControl} (hp : w.pending = []) (hs : StoreOk s)
    (hl : s.reloadRequired = false) (hn : Succeeds s next) :
    Phased Latched (persistNext next) s w [[controlWrite s.superblock s.currentCopy.other next]]
      (fun _ s' => s' = { s with current := next, currentCopy := s.currentCopy.other }) (fun _ => False) R := by
  unfold persistNext
  refine phased_get (phased_failIf (fun h => absurd h (by simp [hl])) fun _ => ?_)
  refine phased_failIf (fun h => absurd h (hn.unchanged hs)) fun _ => ?_
  refine phased_failIf (fun h => absurd hn.generation h) fun _ => ?_
  rw [encodeControl_eq_ok.mpr ⟨hn.valid, rfl⟩]
  -- the one block, its sync, and the switch of the store to it
  refine InBatch.phased
    (inBatch_write (issues_storeWrite _ _ _) (Issued.refl w) hp (List.Subset.refl _) fun w' hw' => ?_)
  refine inBatch_sync (syncs_storeSync _) hw' hp fun w'' hw'' => ?_
  exact phased_modify_end hw''.pending rfl

/-! ## The body of a transaction -/

/-- The descriptor of the transaction that writes `metadata` after the clean control `c`. -/
def txnDescriptor (sb : Superblock) (c : JournalControl) (metadata : BlockMap) : DescriptorRecord :=
  bodyDescriptor sb (reservation c metadata.size) metadata

/-- What the store remembers of a body that is durable. -/
def txnBody (sb : Superblock) (c : JournalControl) (metadata : BlockMap) : DurableJournalBody :=
  ⟨reservation c metadata.size, UInt32.ofNat metadata.size, descriptorChecksum (txnDescriptor sb c metadata)⟩

/-- Descriptor and after-images. -/
def bodyWrites (sb : Superblock) (c : JournalControl) (metadata : BlockMap) : List (Write Block Op) :=
  ⟨.descriptor, sb.ringBlock c.head.toNat, descriptorBytes (txnDescriptor sb c metadata)⟩ ::
    (payloadSlots (reservation c metadata.size) metadata).map fun p =>
      ⟨.payload, sb.ringBlock p.2.toNat, p.1.2⟩

/-- What `writeUnexposedBody` asks for before it writes. -/
structure BodyAccepted (s : JournalControlStore) (r : RingReservationPlan) (metadata : BlockMap) : Prop where
  reload : s.reloadRequired = false
  body : s.durableBody = none
  plan : Reservable s.current metadata.size
  same : r = reservation s.current metadata.size
  targets : ∀ p ∈ metadata.toList, isValidMetadataTarget s.superblock p.1

section Slots

variable {c : JournalControl} {metadata : BlockMap}

theorem length_payloadRingIndices (c : JournalControl) (n : ℕ) :
    (reservation c n).payloadRingIndices.length = n := by
  simp [reservation]

theorem length_payloadSlots : (payloadSlots (reservation c metadata.size) metadata).length = metadata.size := by
  simp [payloadSlots, length_payloadRingIndices]

theorem map_fst_payloadSlots :
    (payloadSlots (reservation c metadata.size) metadata).map Prod.fst = metadata.toList :=
  List.map_fst_zip (by simp [length_payloadRingIndices])

theorem map_snd_payloadSlots : (payloadSlots (reservation c metadata.size) metadata).map Prod.snd =
    (reservation c metadata.size).payloadRingIndices :=
  List.map_snd_zip (by simp [length_payloadRingIndices])

theorem getElem?_payloadSlots {p : (ℕ × Block) × UInt32}
    (h : (payloadSlots (reservation c metadata.size) metadata)[i]? = some p) :
    metadata.toList[i]? = some p.1 ∧ p.2 = advance c.head (i + 1) c.ringBlocks ∧ i < metadata.size := by
  rw [payloadSlots, List.getElem?_zip_eq_some] at h
  have hi : i < metadata.size := by
    have := (List.getElem?_eq_some_iff.mp h.2).1
    rwa [length_payloadRingIndices] at this
  refine ⟨h.1, ?_, hi⟩
  have h2 := h.2
  simp only [reservation, List.getElem?_map, List.getElem?_range hi, Option.map_some, Option.some.injEq] at h2
  exact h2.symm

theorem nodup_payloadRingIndices (h : n + 2 ≤ c.ringBlocks.toNat) :
    (reservation c n).payloadRingIndices.Nodup := by
  refine List.Nodup.map_on (fun i hi j hj hij => ?_) List.nodup_range
  have h1 := List.mem_range.mp hi
  have h2 := List.mem_range.mp hj
  have := advance_inj (by omega) (by omega) hij
  omega

end Slots

theorem ofNat_block_inj {b : ℕ} (ha : a < n) (hb : b < n) (hn : n ≤ 2 ^ 32)
    (h : UInt32.ofNat a = UInt32.ofNat b) : a = b := by
  have h' := congrArg UInt32.toNat h
  rw [UInt32.toNat_ofNat', UInt32.toNat_ofNat'] at h'
  omega

theorem mem_of_mem_toList {m : BlockMap} {p : ℕ × Block} (h : p ∈ m.toList) : p.1 ∈ m :=
  mem_iff_isSome_getElem?.mpr (by rw [mem_toList_iff_getElem?_eq_some.mp h]; rfl)

theorem nodup_keys (metadata : BlockMap) : (metadata.toList.map Prod.fst).Nodup := by
  have h := metadata.distinct_keys_toList
  rw [List.Nodup, List.pairwise_map]
  refine h.imp fun {a b} hab => ?_
  simpa using hab

theorem isValidMetadataTarget.lt (h : isValidMetadataTarget sb a) : a < 2 ^ 32 :=
  h.2.1.trans sb.totalBlocks.toNat_lt

/-- The descriptor of an accepted transaction can be encoded. -/
theorem txnDescriptor_encodable {c : JournalControl} (hr : Reservable c metadata.size)
    (ht : ∀ p ∈ metadata.toList, isValidMetadataTarget sb p.1) : (txnDescriptor sb c metadata).Encodable := by
  have hlen : (txnDescriptor sb c metadata).entries.length = metadata.size := by
    simp [txnDescriptor, bodyDescriptor, descriptorEntries, length_payloadSlots]
  have hpos := hr.pos
  refine ⟨?_, rfl, ⟨?_, hlen.trans_le hr.entries, ?_, ?_, ?_⟩,
    congrArg (fun n => UInt32.ofNat (n + 2)) hlen.symm⟩
  · intro h0
    exact hr.valid.next (by rw [show c.nextTransactionId = 0 from h0]; rfl)
  · exact List.ne_nil_of_length_pos (by omega)
  · intro e he
    obtain ⟨p, hp, rfl⟩ := List.mem_map.mp he
    have hk := ht p.1 (List.of_mem_zip hp).1
    exact ⟨fun h0 => hk.1 (ofNat_block_inj hk.lt (by decide) le_rfl h0), rfl⟩
  · have hkeys : (metadata.toList.map fun p => UInt32.ofNat p.1).Nodup := by
      have := List.Nodup.map_on (f := UInt32.ofNat) (fun a ha b hb hab => ?_) (nodup_keys metadata)
      · rwa [List.map_map] at this
      · obtain ⟨p, hp, rfl⟩ := List.mem_map.mp ha
        obtain ⟨q, hq, rfl⟩ := List.mem_map.mp hb
        exact ofNat_block_inj (ht p hp).lt (ht q hq).lt le_rfl hab
    rw [← map_fst_payloadSlots (c := c), List.map_map] at hkeys
    simpa [txnDescriptor, bodyDescriptor, descriptorEntries, comp_def] using hkeys
  · have h := nodup_payloadRingIndices hr.ring
    rw [← map_snd_payloadSlots] at h
    simpa [txnDescriptor, bodyDescriptor, descriptorEntries, comp_def] using h

theorem phased_writeUnexposedBody {r : RingReservationPlan} {ps : List (List (Write Block Op))}
    (hp : w.pending = []) (hs : StoreOk s)
    (hps : BodyAccepted s r metadata → ps = [bodyWrites s.superblock s.current metadata])
    (hR : ¬ BodyAccepted s r metadata → ∀ e, R e) :
    Phased Latched (writeUnexposedBody r metadata) s w ps
      (fun b s' => BodyAccepted s r metadata ∧ b = txnBody s.superblock s.current metadata ∧
        s' = { s with durableBody := some (txnBody s.superblock s.current metadata)
                      metadataAfterImages := metadata })
      (fun s' => s' = s ∧ ¬ BodyAccepted s r metadata) R := by
  have hno : ∀ {e}, ¬ BodyAccepted s r metadata → (s = s ∧ ¬ BodyAccepted s r metadata) ∧ R e :=
    fun h => ⟨⟨rfl, h⟩, hR h _⟩
  unfold writeUnexposedBody
  refine phased_get (phased_failIf (fun h => hno fun ha => by simp [ha.reload] at h) fun h1 => ?_)
  refine phased_failIf (fun h => hno fun ha => by simp [ha.body, ha.plan.clean] at h) fun h2 => ?_
  refine phased_ofExcept (fun e he => hno fun ha => ?_) fun plan hplan => ?_
  · rw [planRingReservation_eq_ok.mpr ⟨ha.plan, rfl⟩] at he
    cases he
  have hplan' := planRingReservation_eq_ok.mp hplan
  refine phased_failIf (fun h => hno fun ha => h (sameReservation_iff.mpr (ha.same.trans hplan'.2.symm))) fun h3 => ?_
  refine phased_forEach_failIf _ (fun p hp' hc => hno fun ha => hc (ha.targets p hp')) fun h4 => ?_
  have hacc : BodyAccepted s r metadata :=
    ⟨by simpa using h1, by simpa using (not_or.mp h2).2, hplan'.1,
      (sameReservation_iff.mp (not_not.mp h3)).trans hplan'.2, fun p hp' => not_not.mp (h4 p hp')⟩
  rw [hps hacc]
  have hring : 0 < s.current.ringBlocks.toNat := by have := hs.valid.ring; omega
  obtain rfl := hacc.same
  have hhead : (reservation s.current metadata.size).descriptorRingIndex.toNat < s.superblock.ringBlocks := by
    rw [← hs.ring]; exact hs.valid.head_lt
  have henc := txnDescriptor_encodable hacc.plan hacc.targets
  rw [show encodeDescriptor (bodyDescriptor _ _ _) = _ from encodeDescriptor_eq_ok.mpr ⟨henc, rfl⟩,
    hs.regions.ringOffset_eq hhead]
  refine InBatch.phased (inBatch_write (issues_storeWrite _ _ _) (Issued.refl w) hp ?_ fun w₁ hw₁ => ?_)
  · exact List.cons_subset_cons _ (List.nil_subset _)
  refine inBatch_forEach (g := fun p => ⟨.payload, s.superblock.ringBlock p.2.toNat, p.1.2⟩)
    (fun p hp' => ?_) hw₁ hp (List.Subset.refl _) fun w₂ hw₂ => ?_
  · -- every slot of the plan lies in the ring, so its offset is found
    have hslot : p.2.toNat < s.superblock.ringBlocks := by
      obtain ⟨i, hi⟩ := List.mem_iff_getElem?.mp hp'
      rw [(getElem?_payloadSlots hi).2.1, ← hs.ring]
      exact advance_lt hring
    rw [hs.regions.ringOffset_eq hslot]
    exact issues_storeWrite _ _ _
  refine inBatch_sync (syncs_storeSync _) hw₂ hp fun w₃ hw₃ => ?_
  exact phased_modify (phased_pure hw₃.pending ⟨hacc, rfl, rfl⟩)

/-! ## Ordered data and the whole first step -/

/-- Data blocks that go to their home before the transaction is visible. -/
def orderedWrites (ordered : BlockMap) : List (Write Block Op) :=
  ordered.toList.map fun p => ⟨.orderedData, p.1, p.2⟩

/-- The batches of the first step: without ordered data there is no batch for it. -/
def orderedBatches (ordered : BlockMap) : List (List (Write Block Op)) :=
  if ordered.isEmpty then [] else [orderedWrites ordered]

/-- What the store asks of the three maps of a transaction. -/
structure Admissible (sb : Superblock) (before ordered metadata : BlockMap) : Prop where
  data : ∀ p ∈ ordered.toList, blockIsInRegion p.1 sb.data ∧ p.1 ∈ before ∧ p.1 ∉ metadata
  targets : ∀ p ∈ metadata.toList, isValidMetadataTarget sb p.1 ∧ p.1 ∈ before
  size : before.size = (expectedBeforeBlocks ordered metadata).card
  covered : ∀ p ∈ before.toList, p.1 ∈ expectedBeforeBlocks ordered metadata ∧ p.1 < sb.totalBlocks.toNat

theorem size_eq_card_keys (m : BlockMap) : m.size = m.keys.toFinset.card := by
  rw [List.toFinset_card_of_nodup m.nodup_keys, length_keys]

/-- Maps are admissible when the before-images belong to exactly the blocks that change. -/
theorem admissible_of_covered (hr : sb.Regions) (hkeys : ∀ b, b ∈ before ↔ b ∈ ordered ∨ b ∈ metadata)
    (hdisjoint : ∀ b ∈ ordered, b ∉ metadata) (hdata : ∀ b ∈ ordered, blockIsInRegion b sb.data)
    (htargets : ∀ b ∈ metadata, isValidMetadataTarget sb b) : Admissible sb before ordered metadata := by
  have hexpected : ∀ b, b ∈ expectedBeforeBlocks ordered metadata ↔ b ∈ before := by
    intro b
    rw [expectedBeforeBlocks, List.mem_toFinset, List.mem_append, mem_keys, mem_keys, hkeys]
  refine ⟨fun p hp => ?_, fun p hp => ?_, ?_, fun p hp => ?_⟩
  · have hm := mem_of_mem_toList hp
    exact ⟨hdata _ hm, (hkeys _).mpr (.inl hm), hdisjoint _ hm⟩
  · have hm := mem_of_mem_toList hp
    exact ⟨htargets _ hm, (hkeys _).mpr (.inr hm)⟩
  · rw [size_eq_card_keys]
    refine congrArg Finset.card (Finset.ext fun b => ?_)
    rw [hexpected, List.mem_toFinset, mem_keys]
  · have hm := mem_of_mem_toList hp
    refine ⟨(hexpected _).mpr hm, ?_⟩
    rcases (hkeys _).mp hm with h | h
    · have := (hdata _ h).2
      have := hr.data_stop
      simp only [stop] at this
      omega
    · exact (htargets _ h).2.1

/-- What `writeOrderedDataAndUnexposedBody` asks for before it writes; `d` is the image it reads. -/
structure TxnAccepted (s : JournalControlStore) (d : Image) (totalBlocks : UInt32) (uuid : Uuid)
    (before ordered metadata : BlockMap) : Prop where
  reload : s.reloadRequired = false
  body : s.durableBody = none
  plan : Reservable s.current metadata.size
  total : totalBlocks = s.superblock.totalBlocks
  uuid : uuid = s.superblock.filesystemUuid
  maps : Admissible s.superblock before ordered metadata
  unchanged : ∀ p ∈ before.toList, d p.1 = p.2

theorem TxnAccepted.bodyAccepted {d : Image} {n : UInt32} {u : Uuid}
    (h : TxnAccepted s d n u before ordered metadata) :
    BodyAccepted s (reservation s.current metadata.size) metadata :=
  ⟨h.reload, h.body, h.plan, rfl, fun p hp => (h.maps.targets p hp).1⟩

theorem not_isEmpty_of_size_pos {m : BlockMap} (h : 0 < m.size) : m.isEmpty = false := by
  rw [isEmpty_eq_size_beq_zero]
  simp
  omega

/-- Admissible maps that do not fit in the ring are refused before anything is read. -/
theorem writeOrderedDataAndUnexposedBody_noRoom {e : Failure} (hl : s.reloadRequired = false)
    (hb : s.durableBody = none) (hu : s.current.usedBlocks = 0)
    (ha : Admissible s.superblock before ordered metadata) (h0 : 0 < metadata.size)
    (hplan : planRingReservation s.current metadata.size = .error e) :
    writeOrderedDataAndUnexposedBody s.superblock.totalBlocks s.superblock.filesystemUuid before ordered metadata s w =
      .fail e s w := by
  unfold writeOrderedDataAndUnexposedBody
  rw [failIf_bind, if_neg (by simp [not_isEmpty_of_size_pos h0]), get_bind, failIf_bind,
    if_neg (by simp [hl]), failIf_bind, if_neg (by simp [hb, hu]), failIf_bind, if_neg (by simp),
    forEach_failIf_bind_of_not fun p hp => by have := ha.data p hp; tauto,
    forEach_failIf_bind_of_not fun p hp => by have := ha.targets p hp; tauto,
    failIf_bind, if_neg (not_not.mpr ha.size),
    forEach_failIf_bind_of_not fun p hp => not_not.mpr (ha.covered p hp).1, hplan]
  rfl

theorem phased_writeOrderedDataAndUnexposedBody {n : UInt32} {u : Uuid} {ps : List (List (Write Block Op))}
    (hp : w.pending = []) (hs : StoreOk s) (hsize : w.size = s.superblock.totalBlocks.toNat)
    (hps : TxnAccepted s w.durable n u before ordered metadata →
      ps = orderedBatches ordered ++ [bodyWrites s.superblock s.current metadata])
    (hR : ¬ TxnAccepted s w.durable n u before ordered metadata → ∀ e, R e) :
    Phased Latched (writeOrderedDataAndUnexposedBody n u before ordered metadata) s w ps
      (fun b s' => TxnAccepted s w.durable n u before ordered metadata ∧
        b = txnBody s.superblock s.current metadata ∧
        s' = { s with durableBody := some (txnBody s.superblock s.current metadata)
                      metadataAfterImages := metadata })
      (fun s' => s' = s) R := by
  have hno : ∀ {e}, ¬ TxnAccepted s w.durable n u before ordered metadata → s = s ∧ R e :=
    fun h => ⟨rfl, hR h _⟩
  unfold writeOrderedDataAndUnexposedBody
  refine phased_failIf (fun h => hno fun ha => ?_) fun h0 => phased_get ?_
  · rw [not_isEmpty_of_size_pos ha.plan.pos] at h
    exact absurd h (by decide)
  refine phased_failIf (fun h => hno fun ha => by simp [ha.reload] at h) fun h1 => ?_
  refine phased_failIf (fun h => hno fun ha => by simp [ha.body, ha.plan.clean] at h) fun h2 => ?_
  refine phased_failIf (fun h => hno fun ha => by simp [ha.total, ha.uuid] at h) fun h3 => ?_
  refine phased_forEach_failIf _ (fun p hp' hc => hno fun ha => ?_) fun h4 => ?_
  · have := ha.maps.data p hp'
    tauto
  refine phased_forEach_failIf _ (fun p hp' hc => hno fun ha => ?_) fun h5 => ?_
  · have := ha.maps.targets p hp'
    tauto
  refine phased_failIf (fun h => hno fun ha => h ha.maps.size) fun h6 => ?_
  refine phased_forEach_failIf _ (fun p hp' hc => hno fun ha => hc (ha.maps.covered p hp').1) fun h7 => ?_
  refine phased_ofExcept (fun e he => hno fun ha => ?_) fun plan hplan => ?_
  · rw [planRingReservation_eq_ok.mpr ⟨ha.plan, rfl⟩] at he
    cases he
  obtain ⟨hres, rfl⟩ := planRingReservation_eq_ok.mp hplan
  refine phased_forEach (P := fun p => p.1 < s.superblock.totalBlocks.toNat ∧ w.durable p.1 = p.2) hp _
    (fun p hp' w' hw' => ?_) (fun w' hw' h8 => ?_) w (World.Same.refl w)
  · refine phased_failIf (fun h => hno fun ha => absurd (ha.maps.covered p hp').2 (not_lt.mpr h)) fun h => ?_
    refine phased_preadAll Op.text (hw'.pending.trans hp) (by rw [hw'.size, hsize]; omega) rfl fun w'' hw'' => ?_
    rw [hw'.durable]
    exact phased_failIf_end ((hw'.trans hw'').pending.trans hp)
      (fun h => hno fun ha => h (ha.unchanged p hp')) fun h' => ⟨rfl, not_le.mp h, not_not.mp h'⟩
  have hacc : TxnAccepted s w.durable n u before ordered metadata := by
    push Not at h2 h3 h4 h5 h6 h7
    exact ⟨by simpa using h1, by simpa using h2.2, hres, h3.1, h3.2,
      ⟨h4, h5, h6, fun p hp' => ⟨h7 p hp', (h8 p hp').1⟩⟩, fun p hp' => (h8 p hp').2⟩
  have hp' := hw'.pending.trans hp
  -- the second plan is made from the same control, so the body cannot be refused any more
  have hbody : ∀ v : Disk, v.pending = [] → ∀ {K R}, Phased Latched
      (writeUnexposedBody (reservation s.current metadata.size) metadata) s v
      [bodyWrites s.superblock s.current metadata]
      (fun b s' => TxnAccepted s w.durable n u before ordered metadata ∧
        b = txnBody s.superblock s.current metadata ∧
        s' = { s with durableBody := some (txnBody s.superblock s.current metadata)
                      metadataAfterImages := metadata }) K R := fun v hv K R =>
    (phased_writeUnexposedBody hv hs (fun _ => rfl) fun h => absurd hacc.bodyAccepted h).mono
      (fun b s' h => ⟨hacc, h.2⟩) (fun _ h => absurd hacc.bodyAccepted h.2) (fun _ h => h)
  rw [hps hacc, orderedBatches]
  split_ifs with ho
  · exact hbody w' hp'
  · refine InBatch.phased (inBatch_forEach (g := fun p => ⟨.orderedData, p.1, p.2⟩)
      (fun p _ => issues_storeWrite _ _ _) (Issued.refl w') hp' (List.Subset.refl _) fun v hv => ?_)
    exact inBatch_sync (syncs_storeSync _) hv hp' fun v' hv' => hbody v' hv'.pending

/-! ## Exposure, COMMIT and checkpoint -/

theorem cleanControl_valid {c : JournalControl} (h : c.Valid) : (cleanControl c).Valid :=
  ⟨h.ring, h.head_lt, h.head_lt, Nat.zero_le _, fun h0 => absurd rfl h0, h.next,
    (Nat.mod_eq_of_lt h.head_lt).symm, h.flags⟩

theorem succeeds_cleanControl (h : s.current.Valid) : Succeeds s (cleanControl s.current) :=
  ⟨by simp [hasSameIdentity, cleanControl], rfl, cleanControl_valid h⟩

theorem succeeds_exposedControl (h : Reservable s.current n) :
    Succeeds s (reservation s.current n).exposedControl :=
  ⟨by simp [hasSameIdentity, reservation], rfl, h.exposed_valid⟩

theorem phased_exposeDurableBody {body : DurableJournalBody} (hp : w.pending = []) (hs : StoreOk s)
    (hl : s.reloadRequired = false) (hu : s.current.usedBlocks = 0) (hb : s.durableBody = some body)
    (hn : Succeeds s body.reservation.exposedControl) :
    Phased Latched exposeDurableBody s w
      [[controlWrite s.superblock s.currentCopy.other body.reservation.exposedControl]]
      (fun _ s' => s' = { s with current := body.reservation.exposedControl, currentCopy := s.currentCopy.other })
      (fun _ => False) R := by
  unfold exposeDurableBody
  refine phased_get (phased_failIf (fun h => absurd h (by simp [hl])) fun _ => ?_)
  refine phased_failIf (fun h => absurd hu h) fun _ => ?_
  split
  · next h => exact absurd (h.symm.trans hb) (by simp)
  · next b h =>
    obtain rfl := Option.some.inj (h.symm.trans hb)
    exact phased_persistNext hp hs hl hn

/-- The COMMIT of a durable body. -/
def commitWrite (sb : Superblock) (body : DurableJournalBody) : Write Block Op :=
  ⟨.commit, sb.ringBlock body.reservation.commitRingIndex.toNat, commitBytes (commitRecord sb body)⟩

theorem phased_writeCommit {body : DurableJournalBody} (hp : w.pending = []) (hs : StoreOk s)
    (hl : s.reloadRequired = false) (hb : s.durableBody = some body) (hc : s.commitDurable = false)
    (hx : s.current = body.reservation.exposedControl)
    (hf : ¬ (commitRecord s.superblock body).fieldsInvalid)
    (hi : body.reservation.commitRingIndex.toNat < s.superblock.ringBlocks) :
    Phased Latched writeCommit s w [[commitWrite s.superblock body]]
      (fun _ s' => s' = { s with commitDurable := true }) (fun _ => False) R := by
  unfold writeCommit
  refine phased_get (phased_failIf (fun h => absurd h (by simp [hl])) fun _ => ?_)
  split
  · next h => exact absurd (h.symm.trans hb) (by simp)
  · next b h =>
    obtain rfl := Option.some.inj (h.symm.trans hb)
    refine phased_failIf (fun h => absurd h (by simp [hc])) fun _ => ?_
    refine phased_failIf (fun h => absurd (sameControlState_iff.mpr hx) h) fun _ => ?_
    rw [encodeCommit_eq_ok.mpr ⟨hf, rfl⟩, hs.regions.ringOffset_eq hi]
    refine InBatch.phased (inBatch_write (issues_storeWrite _ _ _) (Issued.refl w) hp (List.Subset.refl _)
      fun w' hw' => ?_)
    refine inBatch_sync (syncs_storeSync _) hw' hp fun w'' hw'' => ?_
    exact phased_modify_end hw''.pending rfl

/-- After-images to their home blocks. -/
def homeWrites (op : Op) (metadata : BlockMap) : List (Write Block Op) :=
  metadata.toList.map fun p => ⟨op, p.1, p.2⟩

/-- A check that holds before a write issues nothing of its own. -/
theorem Issues.after_failIf {τ : Type} {L : τ → Prop} {m : Io τ Unit} {p : Write Block Op} {c : Prop} [Decidable c]
    {n : Errno} {d : String} (h : Issues L m p) (hc : ¬ c) : Issues L (do failIf c n d; m) p := by
  unfold failIf
  rw [if_neg hc]
  exact h

theorem phased_completeCommittedTransaction (hp : w.pending = []) (hs : StoreOk s)
    (hl : s.reloadRequired = false) (hb : s.durableBody.isSome) (hc : s.commitDurable = true)
    (hm : s.metadataAfterImages.isEmpty = false) (hk : s.checkpointed = false)
    (ht : ∀ p ∈ s.metadataAfterImages.toList, isValidMetadataTarget s.superblock p.1) :
    Phased Latched completeCommittedTransaction s w
      [homeWrites .home s.metadataAfterImages,
        [controlWrite s.superblock s.currentCopy.other (cleanControl s.current)]]
      (fun _ s' => s' = { s with current := cleanControl s.current, currentCopy := s.currentCopy.other
                                 checkpointed := true })
      (fun _ => False) R := by
  unfold completeCommittedTransaction
  refine phased_get (phased_failIf (fun h => absurd h (by simp [hl])) fun _ => ?_)
  refine phased_failIf (fun h => ?_) fun _ => ?_
  · rw [Option.isNone_iff_eq_none, hc, hm] at h
    rcases h with h | h | h
    · simp [h] at hb
    · exact absurd rfl h
    · exact absurd h (by decide)
  refine phased_failIf (fun h => absurd h (by simp [hk])) fun _ => ?_
  refine InBatch.phased (inBatch_forEach (g := fun p => ⟨.home, p.1, p.2⟩)
    (fun p hp' => Issues.after_failIf (issues_storeWrite _ _ _) (not_not.mpr (ht p hp')))
    (Issued.refl w) hp (List.Subset.refl _) fun v hv => ?_)
  refine inBatch_sync (syncs_storeSync _) hv hp fun v' hv' => ?_
  refine Phased.bind (phased_persistNext hv'.pending hs hl (succeeds_cleanControl hs.valid)) ?_
  rintro - s' w' rfl hw'
  exact phased_modify_end hw'.pending rfl

end Specs

end Eufs
