import Eufs.Journal.Resolve

/-!
# Eufs.Journal.Images — what the journal region of an image says

* `HoldsBody`: descriptor and after-images of a transaction are in their slots; recovery reads exactly them back.
* `CommitsBelow`: no slot of the ring holds a COMMIT with an id of `t` or more, so an id about to be used is free.
* `Controls`: the selected control, with the other copy unusable, one generation behind, or equal.
-/

namespace Eufs

open Superblock Std.ExtTreeMap Function Region

variable {d : DescriptorRecord} {c : JournalControl} {b : Block}

/-! ## Bodies -/

/-- `d` holds the body of the transaction that writes `metadata` after the clean control `c`. -/
def HoldsBody (sb : Superblock) (c : JournalControl) (metadata : BlockMap) (d : Image) : Prop :=
  ∀ p ∈ bodyWrites sb c metadata, d p.addr = p.data

/-- The descriptor as it is read back. -/
def storedDescriptor (sb : Superblock) (c : JournalControl) (metadata : BlockMap) : DescriptorRecord :=
  { txnDescriptor sb c metadata with checksum := descriptorChecksum (txnDescriptor sb c metadata) }

section Body

variable {sb : Superblock} {c : JournalControl} {metadata : BlockMap} {d : Image}

theorem length_txnDescriptor : (txnDescriptor sb c metadata).entries.length = metadata.size := by
  simp [txnDescriptor, bodyDescriptor, descriptorEntries, length_payloadSlots]

/-- Reading the slots back collects what was written to them. -/
theorem collectPayloads_slots : ∀ (l : List ((ℕ × Block) × UInt32)) (m : BlockMap),
    (∀ p ∈ l, d (sb.ringBlock p.2.toNat) = p.1.2 ∧ p.1.1 < 2 ^ 32) → (l.map fun p => p.1.1).Nodup →
    (∀ p ∈ l, p.1.1 ∉ m) →
    ∃ m', collectPayloads sb d
        (l.map fun p => ⟨UInt32.ofNat p.1.1, p.2, crc32c p.1.2.toList, 0⟩) m = .ok m' ∧
      ∀ a x, m'[a]? = some x ↔ m[a]? = some x ∨ (a, x) ∈ l.map Prod.fst
  | [], m, _, _, _ => ⟨m, rfl, by simp⟩
  | p :: l, m, hd, hn, hm => by
    obtain ⟨⟨hslot, hlt⟩, hd⟩ := List.forall_mem_cons.mp hd
    obtain ⟨hpm, hm⟩ := List.forall_mem_cons.mp hm
    simp only [List.map_cons, List.nodup_cons, List.mem_map, not_exists, not_and] at hn
    have hkey : (UInt32.ofNat p.1.1).toNat = p.1.1 := by
      rw [UInt32.toNat_ofNat']
      omega
    obtain ⟨m', h1, h2⟩ := collectPayloads_slots l (m.insertIfNew p.1.1 p.1.2) hd hn.2 fun q hq => by
      rw [mem_insertIfNew, not_or]
      exact ⟨fun h => hn.1 q hq (Std.LawfulEqCmp.eq_of_compare h).symm, hm q hq⟩
    refine ⟨m', ?_, fun a x => ?_⟩
    · simp only [List.map_cons, collectPayloads, checkPayload, hslot, hkey, ne_eq, not_true_eq_false, reject_false,
        ok_bind, h1]
    · rw [h2, getElem?_insertIfNew, List.map_cons, List.mem_cons, ← or_assoc]
      refine or_congr_left ?_
      by_cases ha : p.1.1 = a
      · subst ha
        simp [hpm, Prod.ext_iff, eq_comm]
      · have : ¬ (a, x) = p.1 := fun h => ha (by rw [← h])
        simp [ha, this]

theorem nodup_slots : ((payloadSlots (reservation c metadata.size) metadata).map fun p => p.1.1).Nodup := by
  have := nodup_keys metadata
  rw [← map_fst_payloadSlots (c := c), List.map_map] at this
  exact this

/-- The descriptor of the transaction is the one its control exposes. -/
theorem descriptorOf_stored (hr : Reservable c metadata.size)
    (ht : ∀ p ∈ metadata.toList, isValidMetadataTarget sb p.1) :
    DescriptorOf sb (reservation c metadata.size).exposedControl (storedDescriptor sb c metadata) := by
  refine ⟨rfl, ?_, rfl, fun j e he => ?_, ?_⟩
  · show c.nextTransactionId = c.nextTransactionId + 1 - 1
    grind
  · simp only [storedDescriptor, txnDescriptor, bodyDescriptor, descriptorEntries, List.getElem?_map,
      Option.map_eq_some_iff] at he
    obtain ⟨p, hp, rfl⟩ := he
    obtain ⟨h1, h2, -⟩ := getElem?_payloadSlots hp
    have hk := ht p.1 (List.mem_of_getElem? h1)
    have hkey : (UInt32.ofNat p.1.1).toNat = p.1.1 := by
      have := hk.lt
      rw [UInt32.toNat_ofNat']
      omega
    exact ⟨by rw [h2, hr.head_eq_tail]; rfl, by rw [hkey]; exact hk⟩
  · show advance c.tail ((txnDescriptor sb c metadata).entries.length + 2) c.ringBlocks =
      advance c.head (metadata.size + 2) c.ringBlocks
    rw [length_txnDescriptor, hr.head_eq_tail]

theorem HoldsBody.exposedBody (h : HoldsBody sb c metadata d) (hr : Reservable c metadata.size)
    (ht : ∀ p ∈ metadata.toList, isValidMetadataTarget sb p.1) :
    exposedBody sb (reservation c metadata.size).exposedControl d = .ok (storedDescriptor sb c metadata, metadata) := by
  have hdesc : d (sb.ringBlock c.tail.toNat) = descriptorBytes (txnDescriptor sb c metadata) := by
    have := h _ List.mem_cons_self
    rwa [hr.head_eq_tail] at this
  have hcheck : checkDescriptor sb (reservation c metadata.size).exposedControl (d (sb.ringBlock c.tail.toNat)) =
      .ok (storedDescriptor sb c metadata) := by
    rw [checkDescriptor_eq_ok, hdesc]
    exact ⟨decodeDescriptor_descriptorBytes (txnDescriptor_encodable hr ht), descriptorOf_stored hr ht⟩
  have hslots : ∀ p ∈ payloadSlots (reservation c metadata.size) metadata,
      d (sb.ringBlock p.2.toNat) = p.1.2 ∧ p.1.1 < 2 ^ 32 := fun p hp =>
    ⟨h _ (List.mem_cons_of_mem _ (List.mem_map.mpr ⟨p, hp, rfl⟩)), (ht p.1 (List.of_mem_zip hp).1).lt⟩
  obtain ⟨m', h1, h2⟩ := collectPayloads_slots _ ∅ hslots nodup_slots (by simp)
  have hm' : m' = metadata := by
    refine ext_getElem? fun a => Option.ext fun x => ?_
    rw [h2, map_fst_payloadSlots, mem_toList_iff_getElem?_eq_some]
    simp
  unfold Eufs.exposedBody
  rw [show checkDescriptor _ _ (d (sb.ringBlock (reservation c metadata.size).exposedControl.tail.toNat)) = _ from
    hcheck, ok_bind, show collectPayloads sb d (storedDescriptor sb c metadata).entries ∅ = _ from h1, hm']
  rfl

end Body

/-! ## COMMIT records -/

/-- The block is no COMMIT. -/
def NoCommit (b : Block) : Prop := ∀ r, decodeCommit b ≠ .ok r

/-- Every COMMIT in the ring has an id below `t`. -/
def CommitsBelow (sb : Superblock) (d : Image) (t : ℕ) : Prop :=
  ∀ i < sb.ringBlocks, ∀ r, decodeCommit (d (sb.ringBlock i)) = .ok r → r.transactionId.toNat < t

theorem noCommit_descriptorBytes {v : DescriptorRecord} (h : v.entries.length ≤ 252) :
    NoCommit (descriptorBytes v) := by
  intro r hr
  have hmagic : (descriptorBytes v).read 0 8 = kDescriptorMagic :=
    (descriptorBytes_sealed h).read (by simp [descriptorFields, descriptorHeaderFields]) rfl
  simp only [decodeCommit, reject_bind_eq_ok, hmagic, not_or, ne_eq, not_not] at hr
  exact absurd hr.1.1 (by decide)

theorem CommitsBelow.mono {sb : Superblock} {d : Image} {t t' : ℕ} (h : CommitsBelow sb d t) (ht : t ≤ t') :
    CommitsBelow sb d t' := fun i hi r hr => (h i hi r hr).trans_le ht

/-- Slots that kept their content or are no COMMIT leave the bound as it is. -/
theorem CommitsBelow.of_slots {sb : Superblock} {d d' : Image} {t : ℕ} (h : CommitsBelow sb d t)
    (hd : ∀ i < sb.ringBlocks, d' (sb.ringBlock i) = d (sb.ringBlock i) ∨ NoCommit (d' (sb.ringBlock i))) :
    CommitsBelow sb d' t := by
  intro i hi r hr
  rcases hd i hi with he | hn
  · exact h i hi r (he ▸ hr)
  · exact absurd hr (hn r)

theorem checkCommit_of_ne (h : ∀ r, decodeCommit b = .ok r → r.transactionId ≠ d.transactionId) :
    checkCommit c d b = .ok false := by
  unfold checkCommit
  cases hb : decodeCommit b with
  | error e => rfl
  | ok r => simp only [if_pos (h r hb)]

theorem checkCommit_of_matches {r : CommitRecord} (h : decodeCommit b = .ok r)
    (hm : commitMatchesDescriptor d c.tail r) : checkCommit c d b = .ok true := by
  unfold checkCommit
  rw [h]
  simp only [if_neg (not_not.mpr hm.1.symm), if_neg (not_not.mpr hm)]

theorem checkCommit_of_mismatch {r : CommitRecord} (h : decodeCommit b = .ok r)
    (hid : r.transactionId = d.transactionId) (hm : ¬ commitMatchesDescriptor d c.tail r) : checkCommit c d b =
      .error (corrupt "current COMMIT is inconsistent: commit does not bind to the decoded descriptor") := by
  unfold checkCommit
  rw [h]
  simp only [if_neg (not_not.mpr hid), if_pos hm]

section Decision

variable {sb : Superblock} {c : JournalControl} {metadata : BlockMap} {d : Image}

/-- The slot of the COMMIT. -/
def commitSlot (sb : Superblock) (c : JournalControl) (metadata : BlockMap) : ℕ :=
  sb.ringBlock (reservation c metadata.size).commitRingIndex.toNat

theorem commitRingIndex_stored (hr : Reservable c metadata.size) :
    commitRingIndex (reservation c metadata.size).exposedControl (storedDescriptor sb c metadata) =
      (reservation c metadata.size).commitRingIndex := by
  show advance c.tail ((txnDescriptor sb c metadata).entries.length + 1) c.ringBlocks =
    advance c.head (metadata.size + 1) c.ringBlocks
  rw [length_txnDescriptor, hr.head_eq_tail]

/-- The COMMIT that is written binds the descriptor that is read back. -/
theorem commitMatches_stored (hr : Reservable c metadata.size) :
    commitMatchesDescriptor (storedDescriptor sb c metadata) (reservation c metadata.size).exposedControl.tail
      (commitRecord sb (txnBody sb c metadata)) := by
  have hlen : (storedDescriptor sb c metadata).entries.length = metadata.size :=
    show (txnDescriptor sb c metadata).entries.length = _ from length_txnDescriptor
  have h1 := hr.entries
  have hn : (UInt32.ofNat metadata.size).toNat = metadata.size := by
    rw [UInt32.toNat_ofNat']
    omega
  refine ⟨rfl, rfl, hlen.trans hn.symm, ?_, hr.head_eq_tail.symm, rfl⟩
  show UInt32.ofNat (metadata.size + 2) = UInt32.ofNat metadata.size + 2
  exact UInt32.ofNat_add _ _

theorem checkCommit_commitBytes (hr : Reservable c metadata.size) :
    checkCommit (reservation c metadata.size).exposedControl (storedDescriptor sb c metadata)
      (commitBytes (commitRecord sb (txnBody sb c metadata))) = .ok true := by
  exact checkCommit_of_matches (decodeCommit_commitBytes (txnCommit_fields hr)) (commitMatches_stored hr)

theorem one_lt_exposed_id (hr : Reservable c metadata.size) :
    1 < (reservation c metadata.size).exposedControl.nextTransactionId.toNat := by
  have h1 := hr.next_toNat
  have h2 := hr.valid.next
  show 1 < (c.nextTransactionId + 1).toNat
  omega

/-- An exposed body without its COMMIT is found uncommitted. -/
theorem HoldsBody.classify_uncommitted (h : HoldsBody sb c metadata d) (hr : Reservable c metadata.size)
    (ht : ∀ p ∈ metadata.toList, isValidMetadataTarget sb p.1)
    (hc : ∀ r, decodeCommit (d (commitSlot sb c metadata)) = .ok r → r.transactionId ≠ c.nextTransactionId) :
    ∃ v, classify sb (reservation c metadata.size).exposedControl d = .ok (false, v) := by
  refine ⟨_, classify_eq_ok.mpr ⟨one_lt_exposed_id hr, _, _, h.exposedBody hr ht, ?_, rfl⟩⟩
  rw [commitRingIndex_stored hr]
  exact checkCommit_of_ne hc

/-- With its COMMIT it is found committed, with the after-images that were written. -/
theorem HoldsBody.classify_committed (h : HoldsBody sb c metadata d) (hr : Reservable c metadata.size)
    (ht : ∀ p ∈ metadata.toList, isValidMetadataTarget sb p.1)
    (hc : d (commitSlot sb c metadata) = commitBytes (commitRecord sb (txnBody sb c metadata))) :
    ∃ v, classify sb (reservation c metadata.size).exposedControl d = .ok (true, v) ∧
      v.metadataAfterImages = metadata := by
  refine ⟨_, classify_eq_ok.mpr ⟨one_lt_exposed_id hr, _, _, h.exposedBody hr ht, ?_, rfl⟩, rfl⟩
  rw [commitRingIndex_stored hr, show d (sb.ringBlock _) = _ from hc]
  exact checkCommit_commitBytes hr

end Decision

/-! ## Controls -/

/-- The control in a block, when it belongs to this file system. -/
def controlOf (sb : Superblock) (d : Image) (copy : ControlCopy) : Option JournalControl :=
  usableControl sb.filesystemUuid sb.ringBlocks (d (sb.controlBlock copy))

/-- The control of a mounted image. -/
def selected (sb : Superblock) (d : Image) : Except String (JournalControl × ControlCopy) :=
  selectControl (d (sb.controlBlock .kA)) (d (sb.controlBlock .kB)) sb.filesystemUuid sb.ringBlocks

/-- `c` in `copy` is selected, and the other copy is unusable, one generation behind, or equal. -/
structure Controls (sb : Superblock) (d : Image) (c : JournalControl) (copy : ControlCopy) : Prop where
  selected : selected sb d = .ok (c, copy)
  paired : Paired c (controlOf sb d copy.other)

section Controls

variable {sb : Superblock} {d d' : Image} {c next : JournalControl} {copy : ControlCopy}

theorem Controls.current (h : Controls sb d c copy) : controlOf sb d copy = some c := by
  have := (selectControl_usable h.selected).2
  cases copy <;> exact this

/-- A usable control whose other copy is in order is selected, from one copy or the other. -/
theorem Controls.intro (hn : 3 ≤ sb.ringBlocks) (h : controlOf sb d copy = some c)
    (hp : Paired c (controlOf sb d copy.other)) : ∃ copy', Controls sb d c copy' := by
  cases copy with
  | kA => exact ⟨.kA, selectControl_of_paired_a hn h hp, hp⟩
  | kB =>
    rcases selectControl_of_paired_b hn h hp with hs | ⟨ha, hs⟩
    · exact ⟨.kB, hs, hp⟩
    · refine ⟨.kA, hs, fun p hp' => Or.inr ?_⟩
      exact Option.some.inj (hp'.symm.trans h)

theorem Controls.congr (h : Controls sb d c copy)
    (hd : ∀ copy, d' (sb.controlBlock copy) = d (sb.controlBlock copy)) : Controls sb d' c copy := by
  have h1 := h.selected
  have h2 := h.paired
  refine ⟨?_, ?_⟩
  · unfold Eufs.selected
    rw [hd, hd]
    exact h1
  · unfold controlOf
    rw [hd]
    exact h2

theorem Controls.of_torn (h : controlOf sb d copy = some c) (hn : 3 ≤ sb.ringBlocks)
    (ht : controlOf sb d copy.other = none) : ∃ copy', Controls sb d c copy' :=
  Controls.intro hn h fun p hp => by
    rw [ht] at hp
    cases hp

theorem Controls.of_next (h : controlOf sb d copy = some c) (hn : 3 ≤ sb.ringBlocks)
    (hx : controlOf sb d copy.other = some next) (hg : next.generation = c.generation + 1) :
    Controls sb d next copy.other := by
  have hp : Paired next (controlOf sb d copy) := fun p hp => Or.inl <| by
    obtain rfl := Option.some.inj (hp.symm.trans h)
    rw [hg]
    grind
  cases copy with
  | kA =>
    refine ⟨(selectControl_of_paired_b hn hx hp).resolve_right fun hs => ?_, hp⟩
    -- the two copies cannot hold the same control, their generations differ
    have he : c = next := Option.some.inj (h.symm.trans hs.1)
    rw [he] at hg
    have : (1 : UInt64) = 0 := by grind
    exact absurd this (by decide)
  | kB => exact ⟨selectControl_of_paired_a hn hx hp, hp⟩

/-- The write of a successor makes it the current control. -/
theorem Controls.of_write (h : controlOf sb d copy = some c) (hn : 3 ≤ sb.ringBlocks) (hv : next.Valid)
    (hid : hasSameIdentity c next) (hg : next.generation = c.generation + 1) :
    Controls sb (applyWrites [controlWrite sb copy.other next] d) next copy.other := by
  obtain ⟨-, hu, hr⟩ := usableControl_eq_some.mp h
  refine Controls.of_next ?_ hn ?_ hg
  · unfold controlOf
    rw [show applyWrites [controlWrite sb copy.other next] d (sb.controlBlock copy) = d (sb.controlBlock copy) from
      update_of_ne (fun he => copy.other_ne (controlBlock_inj he).symm) _ _]
    exact h
  · unfold controlOf
    rw [show applyWrites [controlWrite sb copy.other next] d (sb.controlBlock copy.other) = controlBytes next from
      update_self _ _ _, usableControl_eq_some]
    exact ⟨decodeControl_controlBytes hv, hid.2.1.symm.trans hu, hid.1 ▸ hr⟩

end Controls

/-! ## Torn blocks -/

/-- What a torn write may leave in block `a`: anything, but in the journal no control and no COMMIT. -/
def Torn (sb : Superblock) (a : ℕ) (_old new : Block) : Prop :=
  blockIsInRegion a sb.journal → (∀ c, decodeControl new ≠ .ok c) ∧ NoCommit new

section Update

variable {sb : Superblock} {d img : Image} {c next : JournalControl} {copy : ControlCopy}

/-- A crash while a control is being written touches that block only: it is old, new or lost. -/
theorem crash_controlWrite (hsb : sb.Regions) (h : Crashes (Torn sb) d [controlWrite sb copy next] img) :
    (∀ a, a ≠ sb.controlBlock copy → img a = d a) ∧
      (img (sb.controlBlock copy) = d (sb.controlBlock copy) ∨
        img (sb.controlBlock copy) = controlBytes next ∨ controlOf sb img copy = none) := by
  refine ⟨fun a ha => h.of_not_mem fun p hp => ?_, ?_⟩
  · rw [List.mem_singleton.mp hp]
    exact ha.symm
  rcases h (sb.controlBlock copy) with h0 | ⟨p, hp, -, h1 | ht⟩
  · exact Or.inl h0
  · rw [List.mem_singleton.mp hp] at h1
    exact Or.inr (Or.inl h1)
  · refine Or.inr (Or.inr ?_)
    have hno := (ht (hsb.controlBlock_mem copy)).1
    unfold controlOf usableControl
    cases hd : decodeControl (img (sb.controlBlock copy)) with
    | ok c => exact absurd hd (hno c)
    | error e => rfl

/-- After a crash while a successor is being written, the old or the new control is selected. -/
theorem Controls.crash (h : Controls sb d c copy) (hsb : sb.Regions) (hv : next.Valid)
    (hid : hasSameIdentity c next) (hg : next.generation = c.generation + 1)
    (hc : Crashes (Torn sb) d [controlWrite sb copy.other next] img) :
    (∃ copy', Controls sb img c copy') ∨ Controls sb img next copy.other := by
  obtain ⟨hrest, htarget⟩ := crash_controlWrite hsb hc
  obtain ⟨-, hu, hr⟩ := usableControl_eq_some.mp h.current
  have hcur : controlOf sb img copy = some c := by
    unfold controlOf
    rw [hrest _ fun he => copy.other_ne (controlBlock_inj he).symm]
    exact h.current
  rcases htarget with h0 | h1 | ht
  · refine Or.inl ⟨copy, h.congr fun copy' => ?_⟩
    by_cases hcopy : copy' = copy.other
    · rw [hcopy, h0]
    · exact hrest _ fun he => hcopy (controlBlock_inj he)
  · refine Or.inr (Controls.of_next hcur hsb.three_le_ringBlocks ?_ hg)
    unfold controlOf
    rw [h1, usableControl_eq_some]
    exact ⟨decodeControl_controlBytes hv, hid.2.1.symm.trans hu, hid.1 ▸ hr⟩
  · exact Or.inl (Controls.of_torn hcur hsb.three_le_ringBlocks ht)

end Update

/-! ## What a batch leaves alone -/

/-- All writes go to blocks outside the journal, none to the superblock. -/
def Outside (sb : Superblock) (B : List (Write Block Op)) : Prop :=
  ∀ p ∈ B, p.addr ≠ 0 ∧ ¬ blockIsInRegion p.addr sb.journal

/-- All writes go to slots of the ring. -/
def InRing (sb : Superblock) (B : List (Write Block Op)) : Prop :=
  ∀ p ∈ B, ∃ i < sb.ringBlocks, p.addr = sb.ringBlock i

/-- Superblock and controls are the same in both images. -/
structure KeepsControls (sb : Superblock) (d d' : Image) : Prop where
  superblock : d' 0 = d 0
  control : ∀ copy, d' (sb.controlBlock copy) = d (sb.controlBlock copy)

/-- The ring is the same in both images. -/
def KeepsRing (sb : Superblock) (d d' : Image) : Prop :=
  ∀ i < sb.ringBlocks, d' (sb.ringBlock i) = d (sb.ringBlock i)

section Frames

variable {n : ℕ} {sb : Superblock} {c : JournalControl} {copy : ControlCopy} {d d' : Image} {metadata : BlockMap}
  {B : List (Write Block Op)}

theorem Opens.keep (h : Opens n d sb c copy) (hd : KeepsControls sb d d') : Opens n d' sb c copy :=
  ⟨by rw [hd.superblock]; exact h.superblock, h.features, h.size, by rw [hd.control, hd.control]; exact h.selected⟩

/-- After the write of a successor the file opens with it. -/
theorem Opens.next {next : JournalControl} (h : Opens n d sb c copy) (hv : next.Valid)
    (hid : hasSameIdentity c next) (hg : next.generation = c.generation + 1) :
    Opens n (applyWrites [controlWrite sb copy.other next] d) sb next copy.other := by
  have hsb := h.regions
  refine ⟨?_, h.features, h.size, (Controls.of_write h.usable hsb.three_le_ringBlocks hv hid hg).selected⟩
  rw [show applyWrites [controlWrite sb copy.other next] d 0 = d 0 from update_of_ne (fun h0 => ?_) _ _]
  · exact h.superblock
  · have h1 := hsb.journal_start_pos
    have h2 := hsb.controlBlock_mem copy.other
    change 0 = sb.controlBlock copy.other at h0
    rw [← h0] at h2
    simp only [blockIsInRegion] at h2
    omega

theorem Outside.keepsControls (h : Outside sb B) (hsb : sb.Regions) : KeepsControls sb d (applyWrites B d) := by
  refine ⟨applyWrites_of_not_mem _ _ _ fun p hp => (h p hp).1, fun copy => ?_⟩
  exact applyWrites_of_not_mem _ _ _ fun p hp he => (h p hp).2 (he ▸ hsb.controlBlock_mem copy)

theorem Outside.keepsRing (h : Outside sb B) (hsb : sb.Regions) : KeepsRing sb d (applyWrites B d) := fun _ hi =>
  applyWrites_of_not_mem _ _ _ fun p hp he => (h p hp).2 (he ▸ hsb.ringBlock_mem hi)

theorem InRing.keepsControls (h : InRing sb B) (hsb : sb.Regions) : KeepsControls sb d (applyWrites B d) := by
  refine ⟨applyWrites_of_not_mem _ _ _ fun p hp h0 => ?_, fun copy => ?_⟩
  · obtain ⟨i, -, hi⟩ := h p hp
    have := hsb.journal_start_pos
    rw [h0, ringBlock] at hi
    omega
  · refine applyWrites_of_not_mem _ _ _ fun p hp he => ?_
    obtain ⟨i, -, hi⟩ := h p hp
    exact controlBlock_ne_ringBlock (he.symm.trans hi)

theorem outside_homeWrites (op : Op) (ht : ∀ p ∈ metadata.toList, isValidMetadataTarget sb p.1) :
    Outside sb (homeWrites op metadata) := by
  intro p hp
  obtain ⟨q, hq, rfl⟩ := List.mem_map.mp hp
  exact ⟨(ht q hq).1, (ht q hq).2.2⟩

theorem outside_orderedWrites {before ordered : BlockMap} (hsb : sb.Regions)
    (h : Admissible sb before ordered metadata) : Outside sb (orderedWrites ordered) := by
  intro p hp
  obtain ⟨q, hq, rfl⟩ := List.mem_map.mp hp
  have hdata := (h.data q hq).1
  refine ⟨fun h0 => ?_, hsb.not_journal_of_data hdata⟩
  have h1 := hsb.journal_start_pos
  have h2 := hsb.data
  simp only [blockIsInRegion, stop] at h2 hdata h0
  omega

theorem inRing_commitWrite {body : DurableJournalBody}
    (h : body.reservation.commitRingIndex.toNat < sb.ringBlocks) : InRing sb [commitWrite sb body] := by
  intro p hp
  obtain rfl := List.mem_singleton.mp hp
  exact ⟨_, h, rfl⟩

theorem inRing_bodyWrites (hc : c.Valid) (hring : c.ringBlocks.toNat = sb.ringBlocks) :
    InRing sb (bodyWrites sb c metadata) := by
  have hpos := hc.ring
  intro p hp
  rcases List.mem_cons.mp hp with rfl | hp
  · exact ⟨_, by rw [← hring]; exact hc.head_lt, rfl⟩
  · obtain ⟨q, hq, rfl⟩ := List.mem_map.mp hp
    obtain ⟨i, hi⟩ := List.mem_iff_getElem?.mp hq
    refine ⟨_, ?_, rfl⟩
    rw [(getElem?_payloadSlots hi).2.1, ← hring]
    exact advance_lt (by omega)

/-- The slots of a body are distinct, and none is that of the COMMIT. -/
theorem nodup_bodyWrites (hr : Reservable c metadata.size) :
    ((bodyWrites sb c metadata).map Write.addr).Nodup ∧
      commitSlot sb c metadata ∉ (bodyWrites sb c metadata).map Write.addr := by
  have hring := hr.ring
  have hslot : ∀ i, i < c.ringBlocks.toNat → ∀ j, j < c.ringBlocks.toNat →
      sb.ringBlock (advance c.head i c.ringBlocks).toNat = sb.ringBlock (advance c.head j c.ringBlocks).toNat →
      i = j := fun i hi j hj h => advance_inj hi hj (UInt32.toNat_inj.mp (ringBlock_inj h))
  have haddr : (bodyWrites sb c metadata).map Write.addr =
      (List.range (metadata.size + 1)).map fun i => sb.ringBlock (advance c.head i c.ringBlocks).toNat := by
    rw [List.range_succ_eq_map, List.map_cons, List.map_map, advance_zero hr.valid.head_lt, bodyWrites, List.map_cons,
      List.map_map]
    refine congrArg _ ?_
    have := congrArg (List.map fun i : UInt32 => sb.ringBlock i.toNat) (@map_snd_payloadSlots c metadata)
    simpa [List.map_map, comp_def, reservation] using this
  rw [haddr]
  refine ⟨List.Nodup.map_on (fun i hi j hj => ?_) List.nodup_range, fun hm => ?_⟩
  · have h1 := List.mem_range.mp hi
    have h2 := List.mem_range.mp hj
    exact hslot i (by omega) j (by omega)
  · obtain ⟨i, hi, he⟩ := List.mem_map.mp hm
    have h1 := List.mem_range.mp hi
    have := hslot i (by omega) (metadata.size + 1) (by omega) he
    omega

theorem holdsBody_applyWrites (hr : Reservable c metadata.size) :
    HoldsBody sb c metadata (applyWrites (bodyWrites sb c metadata) d) := fun p hp =>
  applyWrites_of_mem _ _ (nodup_bodyWrites hr).1 p hp

theorem HoldsBody.congr (h : HoldsBody sb c metadata d)
    (hd : ∀ p ∈ bodyWrites sb c metadata, d' p.addr = d p.addr) : HoldsBody sb c metadata d' := fun p hp =>
  (hd p hp).trans (h p hp)

theorem HoldsBody.keep (h : HoldsBody sb c metadata d) (hc : c.Valid)
    (hring : c.ringBlocks.toNat = sb.ringBlocks) (hd : KeepsRing sb d d') : HoldsBody sb c metadata d' := by
  refine h.congr fun p hp => ?_
  obtain ⟨i, hi, he⟩ := inRing_bodyWrites hc hring p hp
  rw [he]
  exact hd i hi

theorem collectPayloads_congr : ∀ {es : List DescriptorEntry} {m : BlockMap},
    (∀ e ∈ es, d' (sb.ringBlock e.payloadRingIndex.toNat) = d (sb.ringBlock e.payloadRingIndex.toNat)) →
    collectPayloads sb d' es m = collectPayloads sb d es m
  | [], _, _ => rfl
  | e :: es, m, h => by
    simp only [collectPayloads, h e List.mem_cons_self]
    refine congrArg _ (funext fun _ => ?_)
    exact collectPayloads_congr fun e' he' => h e' (List.mem_cons_of_mem _ he')

theorem classify_congr (hc : c.Valid) (hring : c.ringBlocks.toNat = sb.ringBlocks) (hd : KeepsRing sb d d') :
    classify sb c d' = classify sb c d := by
  have hpos := hc.ring
  have hbody : exposedBody sb c d' = exposedBody sb c d := by
    unfold exposedBody
    rw [hd _ (by rw [← hring]; exact hc.tail_lt)]
    cases hdesc : checkDescriptor sb c (d (sb.ringBlock c.tail.toNat)) with
    | error e => rfl
    | ok desc =>
      simp only [ok_bind]
      rw [collectPayloads_congr fun e he => hd _ ((checkDescriptor_eq_ok.mp hdesc).2.payload_lt hc hring e he)]
  unfold classify
  rw [hbody]
  refine congrArg _ (funext fun _ => congrArg _ (funext fun body => ?_))
  rw [hd]
  rw [← hring]
  exact advance_lt (by omega)

theorem keepsRing_controlWrite {copy : ControlCopy} : KeepsRing sb d (applyWrites [controlWrite sb copy c] d) :=
  fun _ _ => update_of_ne (fun h => controlBlock_ne_ringBlock h.symm) _ _

theorem applyWrites_homeWrites {op : Op} {a : ℕ} {x : Block} (h : metadata[a]? = some x) :
    applyWrites (homeWrites op metadata) d a = x := by
  have hm := mem_toList_iff_getElem?_eq_some.mpr h
  have hn : ((homeWrites op metadata).map Write.addr).Nodup := by
    rw [homeWrites, List.map_map]
    exact nodup_keys metadata
  exact applyWrites_of_mem _ _ hn ⟨op, a, x⟩ (List.mem_map.mpr ⟨(a, x), hm, rfl⟩)

theorem applyWrites_homeWrites_of_not_mem {op : Op} {a : ℕ} (h : a ∉ metadata) :
    applyWrites (homeWrites op metadata) d a = d a := by
  refine applyWrites_of_not_mem _ _ _ fun p hp he => h ?_
  obtain ⟨q, hq, rfl⟩ := List.mem_map.mp hp
  exact he ▸ mem_of_mem_toList hq

end Frames

end Eufs
