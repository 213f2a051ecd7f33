import Eufs.Journal.History

/-!
# Eufs.Journal.Language — the writer and the classifier agree on what a transaction is

A store that writes a body, exposes it and commits it leaves a range that a store opened later classifies as
committed, with the same after-images, id and positions; without its COMMIT the range is uncommitted.  Conversely
whatever is classified as committed has the shape the writer gives it (`CommittedRange`), byte for byte in the ring.
-/

namespace Eufs

open Prog Std.ExtTreeMap Function JournalControlStore

/-- The slots of a plan in the order of the ring. -/
def RingReservationPlan.slots (r : RingReservationPlan) : List UInt32 :=
  r.descriptorRingIndex :: (r.payloadRingIndices ++ [r.commitRingIndex])

/-- The slots of `n` payloads are the descriptor's place and the `n + 1` behind it. -/
theorem slots_reservation {c : JournalControl} {n : ℕ} (h : Reservable c n) :
    (reservation c n).slots = (List.range (n + 2)).map fun i => advance c.head i c.ringBlocks := by
  have hlast : (List.range (n + 2)).map (fun i => advance c.head i c.ringBlocks) =
      (List.range (n + 1)).map (fun i => advance c.head i c.ringBlocks) ++ [advance c.head (n + 1) c.ringBlocks] := by
    rw [List.range_succ, List.map_append, List.map_singleton]
  rw [hlast, List.range_succ_eq_map, List.map_cons, List.map_map, advance_zero h.valid.head_lt]
  rfl

theorem nodup_slots_reservation {c : JournalControl} {n : ℕ} (h : Reservable c n) :
    (reservation c n).slots.Nodup := by
  have hring := h.ring
  rw [slots_reservation h]
  refine List.Nodup.map_on ?_ List.nodup_range
  intro i hi j hj hij
  have h1 := List.mem_range.mp hi
  have h2 := List.mem_range.mp hj
  exact advance_inj (by omega) (by omega) hij

/-! ## What is classified as committed -/

/-- The range that `c` exposes in `img` is the transaction `v`: its descriptor at the tail, one payload a home block
behind it, and behind the payloads its COMMIT, where the range ends. -/
structure CommittedRange (sb : Superblock) (c : JournalControl) (img : Image) (v : ValidatedTransaction)
    (descriptor : DescriptorRecord) (commit : CommitRecord) : Prop where
  decodes : decodeDescriptor (img (sb.ringBlock c.tail.toNat)) = .ok descriptor
  uuid : descriptor.filesystemUuid = sb.filesystemUuid
  id : descriptor.transactionId.toNat + 1 = c.nextTransactionId.toNat
  found : v.transactionId = descriptor.transactionId ∧ v.descriptorRingIndex = c.tail
  size : descriptor.entries.length = v.metadataAfterImages.size
  homes : (descriptor.entries.map DescriptorEntry.homeBlock).Nodup
  payloads : ∀ j e, descriptor.entries[j]? = some e → isValidMetadataTarget sb e.homeBlock.toNat ∧
    e.payloadRingIndex = advance c.tail (j + 1) c.ringBlocks ∧
    e.payloadCrc32c = crc32c (img (sb.ringBlock e.payloadRingIndex.toNat)).toList ∧
    v.metadataAfterImages[e.homeBlock.toNat]? = some (img (sb.ringBlock e.payloadRingIndex.toNat))
  slot : v.commitRingIndex = advance c.tail (v.metadataAfterImages.size + 1) c.ringBlocks
  commits : decodeCommit (img (sb.ringBlock v.commitRingIndex.toNat)) = .ok commit
  binds : commitMatchesDescriptor descriptor c.tail commit
  ends : advance c.tail (v.metadataAfterImages.size + 2) c.ringBlocks = c.head

section Converse

variable {sb : Superblock} {c : JournalControl} {img : Image}

/-- What the payload loop collects when no two entries name one home block. -/
theorem collectPayloads_ok : ∀ {es : List DescriptorEntry} {m m' : BlockMap},
    collectPayloads sb img es m = .ok m' → (es.map DescriptorEntry.homeBlock).Nodup →
    (∀ e ∈ es, e.homeBlock.toNat ∉ m) →
    m'.size = m.size + es.length ∧ (∀ a, a ∈ m → m'[a]? = m[a]?) ∧
    ∀ e ∈ es, e.payloadCrc32c = crc32c (img (sb.ringBlock e.payloadRingIndex.toNat)).toList ∧
      m'[e.homeBlock.toNat]? = some (img (sb.ringBlock e.payloadRingIndex.toNat))
  | [], m, m', h, _, _ => by
    cases h
    exact ⟨rfl, fun _ _ => rfl, by simp⟩
  | e :: es, m, m', h, hn, hm => by
    obtain ⟨hfresh, hm⟩ := List.forall_mem_cons.mp hm
    rw [List.map_cons, List.nodup_cons] at hn
    simp only [collectPayloads, bind_eq_ok] at h
    obtain ⟨u, hcheck, h⟩ := h
    have hcrc : crc32c (img (sb.ringBlock e.payloadRingIndex.toNat)).toList = e.payloadCrc32c := by
      by_contra hne
      simp [checkPayload, reject, hne] at hcheck
    have hne : ∀ e' ∈ es, e'.homeBlock.toNat ≠ e.homeBlock.toNat := fun e' he' heq =>
      hn.1 (List.mem_map.mpr ⟨e', he', UInt32.toNat_inj.mp heq⟩)
    obtain ⟨hsize, hkeep, hall⟩ := collectPayloads_ok h hn.2 fun e' he' => by
      rw [mem_insertIfNew, not_or]
      exact ⟨fun heq => hne e' he' (Std.LawfulEqCmp.eq_of_compare heq).symm, hm e' he'⟩
    refine ⟨?_, fun a ha => ?_, List.forall_mem_cons.mpr ⟨⟨hcrc.symm, ?_⟩, hall⟩⟩
    · rw [hsize, size_insertIfNew, if_neg hfresh, List.length_cons]
      omega
    · rw [hkeep a (mem_insertIfNew.mpr (Or.inr ha)), getElem?_insertIfNew]
      refine if_neg fun heq => hfresh ?_
      rw [Std.LawfulEqCmp.eq_of_compare heq.1]
      exact ha
    · rw [hkeep _ (mem_insertIfNew.mpr (Or.inl (by simp))), getElem?_insertIfNew]
      simp [hfresh]

/-- Whatever the ring holds: a range that is classified as committed is a transaction. -/
theorem committedRange_of_classify {v : ValidatedTransaction} (h : classify sb c img = .ok (true, v)) :
    ∃ descriptor commit, CommittedRange sb c img v descriptor commit := by
  obtain ⟨hid, desc, m, hbody, hcommit, rfl⟩ := classify_eq_ok.mp h
  simp only [exposedBody, bind_eq_ok] at hbody
  obtain ⟨desc', hdesc, m', hcollect, heq⟩ := hbody
  cases heq
  obtain ⟨hdec, hof⟩ := checkDescriptor_eq_ok.mp hdesc
  obtain ⟨-, hentries, -⟩ := decodeDescriptor_valid hdec
  obtain ⟨hsize, -, hall⟩ := collectPayloads_ok hcollect hentries.homes (by simp)
  have hlen : desc.entries.length = m.size := by simpa using hsize.symm
  have hnext : desc.transactionId.toNat + 1 = c.nextTransactionId.toNat := by
    have h1 : (1 : UInt64).toNat = 1 := rfl
    rw [hof.id, UInt64.toNat_sub_of_le _ _ (UInt64.le_iff_toNat_le.mpr (by omega))]
    omega
  have hslot : commitRingIndex c desc = advance c.tail (m.size + 1) c.ringBlocks := by rw [commitRingIndex, hlen]
  obtain ⟨commit, hdecodes, hbinds⟩ : ∃ commit, decodeCommit (img (sb.ringBlock (commitRingIndex c desc).toNat)) =
      .ok commit ∧ commitMatchesDescriptor desc c.tail commit := by
    unfold checkCommit at hcommit
    split at hcommit
    · cases hcommit
    · next commit hdecodes =>
      by_cases hid' : commit.transactionId ≠ desc.transactionId
      · rw [if_pos hid'] at hcommit
        cases hcommit
      rw [if_neg hid'] at hcommit
      by_cases hm : commitMatchesDescriptor desc c.tail commit
      · exact ⟨commit, hdecodes, hm⟩
      · rw [if_pos hm] at hcommit
        cases hcommit
  refine ⟨desc, commit, hdec, hof.uuid, hnext, ⟨rfl, rfl⟩, hlen, hentries.homes, fun j e he => ?_, hslot,
    hdecodes, hbinds, hlen ▸ hof.head⟩
  obtain ⟨hplace, htarget⟩ := hof.entries j e he
  obtain ⟨hcrc, hvalue⟩ := hall e (List.mem_of_getElem? he)
  exact ⟨htarget, hplace, hcrc, hvalue⟩

end Converse

/-! ## A fresh store classifies -/

/-- Open an image and classify what its journal holds. -/
def openAndClassify {τ : Type} : Io τ (RecoveryState × JournalControlStore) := do
  let store ← adoptLockedFd
  withState store classifyRecovery

/-- Classification of `d` by a fresh store returns unless an I/O error stops it, and its result is `state` with the
transaction `found`. -/
structure ClassifiesAs (n : ℕ) (d : Image) (state : RecoveryState) (found : Option ValidatedTransaction) : Prop where
  returns : Completes openAndClassify () ⟨n, d, [], [], []⟩ fun _ _ w' => w'.faults = 0
  fails : ∀ script trace e t' w', openAndClassify () ⟨n, d, [], script, trace⟩ = .fail e t' w' →
    World.faults (⟨n, d, [], script, trace⟩ : Disk) < w'.faults
  result : ∀ script trace r t' w', openAndClassify () ⟨n, d, [], script, trace⟩ = .ok r t' w' →
    r.1 = state ∧ r.2.validatedTransaction = found

section Classifying

variable {n : ℕ} {d : Image} {sb : Superblock} {c : JournalControl} {copy : ControlCopy} {script : List Sys}
  {trace : List (Event Block Op)}

theorem Opens.phased_openAndClassify (ho : Opens n d sb c copy) {R : Failure → Prop}
    (hR : c.usedBlocks ≠ 0 → ∀ e, classify sb c d = .error e → R e) :
    Phased (fun _ => True) openAndClassify () ⟨n, d, [], script, trace⟩ []
      (fun r _ => Classified (.fresh sb c copy) d r.1 r.2) (fun _ => True) R := by
  refine phased_adoptLockedFd rfl trivial (fun h => absurd ho (h _ _ _)) fun sb' c' copy' w' hw' ho' => ?_
  obtain ⟨rfl, rfl, rfl⟩ := ho.inj ho'
  have hc := phased_classifyRecovery (s := .fresh sb' c' copy') (R := R) hw'.pending ho.storeOk (hw'.size.trans ho.size)
    rfl (by rw [hw'.durable]; exact hR)
  rw [hw'.durable] at hc
  exact (phased_withState hc trivial trivial).mono (fun _ _ h => h.1) (fun _ h => h) fun _ h => h

/-- What `classify` decides is what a fresh store answers. -/
theorem Opens.classifiesAs (ho : Opens n d sb c copy) (hu : c.usedBlocks ≠ 0) {b : Bool} {v : ValidatedTransaction}
    (hv : classify sb c d = .ok (b, v)) :
    ClassifiesAs n d (if b then .kCommitted else .kUncommitted) (if b then some v else none) := by
  have hspec : ∀ script trace, Phased (fun _ => True) openAndClassify () ⟨n, d, [], script, trace⟩ []
      (fun r _ => Classified (.fresh sb c copy) d r.1 r.2) (fun _ => True) (fun _ => False) := fun script trace =>
    ho.phased_openAndClassify fun _ e he => by cases hv.symm.trans he
  refine ⟨?_, ?_, ?_⟩
  · refine completes_bind
      (completes_adoptLockedFd (w := ⟨n, d, [], [], []⟩) ho fun w₁ h₁ => completes_withState ?_)
    have hd : w₁.visible = d := h₁.visible
    refine completes_classifyRecovery ho.storeOk (h₁.size.trans ho.size) rfl (fun _ => ?_) fun r s' w₂ _ h₂ => ?_
    · rw [hd]
      exact ⟨_, hv⟩
    · exact h₂.faults.trans h₁.faults
  · intro script trace e t' w' hrun
    rcases Ends.fail (hspec script trace) hrun with ⟨-, -, hf⟩ | ⟨-, -, hf | hf⟩
    · exact hf
    · exact hf
    · exact hf.elim
  · intro script trace r t' w' hrun
    obtain ⟨hr, -⟩ := Ends.ok (hspec script trace) hrun
    obtain ⟨state, store⟩ := r
    change Classified _ _ state store at hr
    cases hr with
    | empty h => exact absurd h hu
    | uncommitted _ hv' =>
      cases hv.symm.trans hv'
      exact ⟨rfl, rfl⟩
    | committed _ hv' =>
      cases hv.symm.trans hv'
      exact ⟨rfl, rfl⟩

end Classifying

/-! ## What the writer leaves -/

/-- The image of a transaction whose COMMIT is durable and whose after-images are not home. -/
structure CommittedImage (n : ℕ) (sb : Superblock) (c : JournalControl) (copy : ControlCopy) (metadata : BlockMap)
    (d : Image) : Prop where
  mounts : Mounts n d sb
  controls : Controls sb d (exposing c metadata) copy.other
  former : controlOf sb d copy = some c
  holds : HoldsBody sb c metadata d
  commit : d (commitSlot sb c metadata) = commitBytes (commitRecord sb (txnBody sb c metadata))

section Writer

variable {n : ℕ} {d : Image} {sb : Superblock} {c : JournalControl} {copy : ControlCopy} {metadata : BlockMap}

/-- Body, exposing control and COMMIT, in this order. -/
def committedImage (sb : Superblock) (c : JournalControl) (copy : ControlCopy) (metadata : BlockMap)
    (d : Image) : Image :=
  applyWrites [commitWrite sb (txnBody sb c metadata)]
    (applyWrites [controlWrite sb copy.other (exposing c metadata)] (applyWrites (bodyWrites sb c metadata) d))

theorem Opens.committedImage (ho : Opens n d sb c copy) (ht : Txn sb c metadata) :
    CommittedImage n sb c copy metadata (Eufs.committedImage sb c copy metadata d) := by
  have hsb := ho.regions
  unfold Eufs.committedImage
  -- the body leaves both controls as they are
  have hk₁ : KeepsControls sb d (applyWrites (bodyWrites sb c metadata) d) :=
    (inRing_bodyWrites ht.valid ht.ring).keepsControls hsb
  have hb₁ : HoldsBody sb c metadata (applyWrites (bodyWrites sb c metadata) d) := holdsBody_applyWrites ht.plan
  have ho₁ := ho.keep hk₁
  generalize applyWrites (bodyWrites sb c metadata) d = d₁ at hb₁ ho₁
  have hm₁ : Mounts n d₁ sb := ⟨ho₁.superblock, ho₁.features, ho₁.size⟩
  -- the exposing control goes to the other copy
  obtain ⟨hring₂, hout₂⟩ := crash_control_frame hsb
    (Crashes.all (Torn sb) d₁ [controlWrite sb copy.other (exposing c metadata)])
  have hctl₂ := Controls.of_write ho₁.usable hsb.three_le_ringBlocks ht.plan.exposed_valid
    hasSameIdentity_exposing rfl
  have hcopy₂ : controlOf sb (applyWrites [controlWrite sb copy.other (exposing c metadata)] d₁) copy = some c := by
    have hother : sb.controlBlock copy ≠ sb.controlBlock copy.other := fun he =>
      copy.other_ne (Superblock.controlBlock_inj he).symm
    have hsame : applyWrites [controlWrite sb copy.other (exposing c metadata)] d₁ (sb.controlBlock copy) =
        d₁ (sb.controlBlock copy) := update_of_ne hother _ _
    unfold controlOf
    rw [hsame]
    exact ho₁.usable
  have hb₂ := hb₁.keep ht.valid ht.ring hring₂
  have hm₂ := hm₁.keep (hout₂ 0 hsb.zero_not_mem)
  generalize applyWrites [controlWrite sb copy.other (exposing c metadata)] d₁ = d₂ at hctl₂ hcopy₂ hb₂ hm₂
  -- and the COMMIT into its slot
  obtain ⟨⟨hm₃, hctl₃, -, hb₃⟩, -, -⟩ :=
    Exposed.commit_crash ⟨hm₂, hctl₂, ht, hb₂⟩ (Crashes.all (Torn sb) _ _)
  have hkeep : KeepsControls sb d₂ (applyWrites [commitWrite sb (txnBody sb c metadata)] d₂) :=
    (inRing_commitWrite ht.commit_lt).keepsControls hsb
  refine ⟨hm₃, hctl₃, ?_, hb₃, update_self _ _ _⟩
  unfold controlOf
  rw [hkeep.control]
  exact hcopy₂

/-- The three methods that make a transaction durable. -/
def writeTransaction (r : RingReservationPlan) (metadata : BlockMap) : Io JournalControlStore Unit := do
  let _ ← writeUnexposedBody r metadata
  exposeDurableBody
  writeCommit

theorem phased_writeTransaction {w : Disk} (hp : w.pending = []) (ho : Opens w.size w.durable sb c copy)
    (ht : Txn sb c metadata) :
    Phased Latched (writeTransaction (reservation c metadata.size) metadata) (.fresh sb c copy) w
      ([bodyWrites sb c metadata] ++ ([[controlWrite sb copy.other (exposing c metadata)]] ++
        [[commitWrite sb (txnBody sb c metadata)]]))
      (fun _ _ => True) (fun _ => True) (fun _ => False) := by
  have hs := ho.storeOk
  have hacc : BodyAccepted (.fresh sb c copy) (reservation c metadata.size) metadata :=
    ⟨rfl, rfl, ht.plan, rfl, ht.targets⟩
  have hbody := phased_writeUnexposedBody (R := fun _ => False) hp hs (fun _ => rfl) fun h => absurd hacc h
  refine Phased.bind (hbody.mono (fun _ _ h => h) (fun _ _ => trivial) fun _ h => h) ?_
  rintro b s₁ w₁ ⟨-, -, rfl⟩ hw₁
  have hin : InTxn sb c metadata c copy false { fresh sb c copy with
      durableBody := some (txnBody sb c metadata), metadataAfterImages := metadata } :=
    ⟨rfl, rfl, rfl, rfl, rfl, rfl, rfl, rfl⟩
  refine Phased.bind (hin.expose hw₁.pending ⟨hs.regions, hs.valid, hs.uuid, hs.ring⟩ ht.plan) ?_
  rintro - s₂ w₂ ⟨hin₂, hs₂⟩ hw₂
  exact (hin₂.commits hw₂.pending hs₂ ht.plan).mono (fun _ _ _ => trivial) (fun _ h => h) fun _ h => h

theorem Opens.completes_writeTransaction {w : Disk} (ho : Opens w.size w.durable sb c copy) (hp : w.pending = [])
    (ht : Txn sb c metadata) :
    Completes (writeTransaction (reservation c metadata.size) metadata) (.fresh sb c copy) w fun _ _ _ => True := by
  have hs := ho.storeOk
  have hacc : BodyAccepted (.fresh sb c copy) (reservation c metadata.size) metadata :=
    ⟨rfl, rfl, ht.plan, rfl, ht.targets⟩
  have hspec : ∀ script, Phased Latched (writeUnexposedBody (reservation c metadata.size) metadata) (.fresh sb c copy)
      { w with script := script } [bodyWrites sb c metadata]
      (fun _ s' => s' = { fresh sb c copy with
        durableBody := some (txnBody sb c metadata), metadataAfterImages := metadata })
      (fun _ => True) (fun _ => False) := fun script =>
    (phased_writeUnexposedBody (R := fun _ => False) (w := { w with script := script }) hp hs (fun _ => rfl)
      fun h => absurd hacc h).mono (fun _ _ h => h.2.2) (fun _ _ => trivial) fun _ h => h
  refine completes_bind (((completes_writeUnexposedBody hs hacc fun _ _ _ h => h).wrote hspec).mono ?_)
  rintro b s₁ w₁ ⟨-, rfl, hw₁⟩
  have hin : InTxn sb c metadata c copy false { fresh sb c copy with
      durableBody := some (txnBody sb c metadata), metadataAfterImages := metadata } :=
    ⟨rfl, rfl, rfl, rfl, rfl, rfl, rfl, rfl⟩
  refine completes_bind
    ((hin.completes_expose ⟨hs.regions, hs.valid, hs.uuid, hs.ring⟩ ht.plan hw₁.pending).mono ?_)
  rintro - s₂ w₂ ⟨hin₂, hs₂, hw₂⟩
  exact (hin₂.completes_commit hs₂ ht.plan hw₂.pending).mono fun _ _ _ _ => trivial

theorem CommittedImage.classifiesAs (h : CommittedImage n sb c copy metadata d) (ht : Txn sb c metadata) :
    ClassifiesAs n d .kCommitted
      (some ⟨c.nextTransactionId, c.head, (reservation c metadata.size).commitRingIndex, metadata⟩) := by
  have hv : classify sb (exposing c metadata) d =
      .ok (true, candidate (exposing c metadata) (storedDescriptor sb c metadata) metadata) := by
    refine classify_eq_ok.mpr ⟨one_lt_exposed_id ht.plan, _, _, h.holds.exposedBody ht.plan ht.targets, ?_, rfl⟩
    rw [commitRingIndex_stored ht.plan, show d (sb.ringBlock _) = _ from h.commit]
    exact checkCommit_commitBytes ht.plan
  have := (h.mounts.opens h.controls).classifiesAs ht.exposing_used hv
  rwa [candidate, commitRingIndex_stored ht.plan, show (exposing c metadata).tail = c.head from
    ht.plan.head_eq_tail.symm] at this

/-- With another block in the slot of the COMMIT it is uncommitted. -/
theorem CommittedImage.classifiesAs_update (h : CommittedImage n sb c copy metadata d)
    (ht : Txn sb c metadata) {x : Block}
    (hx : ∀ r, decodeCommit x = .ok r → r.transactionId ≠ c.nextTransactionId) :
    ClassifiesAs n (update d (commitSlot sb c metadata) x) .kUncommitted none := by
  have hcrash : Crashes (fun _ _ _ => True) d [commitWrite sb (txnBody sb c metadata)]
      (update d (commitSlot sb c metadata) x) := fun a => by
    by_cases ha : a = commitSlot sb c metadata
    · exact Or.inr ⟨_, List.mem_singleton_self _, ha.symm, Or.inr trivial⟩
    · exact Or.inl (update_of_ne ha _ _)
  obtain ⟨⟨hm, hctl, -, hb⟩, -, -⟩ := Exposed.commit_crash ⟨h.mounts, h.controls, ht, h.holds⟩ hcrash
  obtain ⟨v, hv⟩ := hb.classify_uncommitted ht.plan ht.targets (by rw [update_self]; exact hx)
  exact (hm.opens hctl).classifiesAs ht.exposing_used hv

end Writer

/-- Writer and classifier agree.  On an image that opens with the control `c`:
* if nothing is exposed and the after-images `metadata` fit, the plan has distinct slots and a valid exposing control;
  the three methods return unless an I/O error stops them, and what they leave is classified as committed with exactly
  these after-images, or as uncommitted when the slot of the COMMIT holds anything that is no COMMIT with its id;
* whatever the ring holds, what is classified as committed is a transaction in the ring. -/
theorem writer_classifier_agree {n : ℕ} {d : Image} {sb : Superblock} {c : JournalControl} {copy : ControlCopy}
    (ho : Opens n d sb c copy) :
    (∀ metadata : BlockMap, c.usedBlocks = 0 → c.nextTransactionId.toNat < 2 ^ 64 - 1 → 1 ≤ metadata.size →
      metadata.size ≤ min 252 (c.ringBlocks.toNat - 2) →
      (∀ p ∈ metadata.toList, isValidMetadataTarget sb p.1) →
      ∃ r, planRingReservation c metadata.size = .ok r ∧ r.slots.length = metadata.size + 2 ∧ r.slots.Nodup ∧
        (∀ i ∈ r.slots, i.toNat < sb.ringBlocks) ∧ r.exposedControl.Valid ∧
        Completes (writeTransaction r metadata) (.fresh sb c copy) ⟨n, d, [], [], []⟩ (fun _ _ _ => True) ∧
        ∀ script trace s w, writeTransaction r metadata (.fresh sb c copy) ⟨n, d, [], script, trace⟩ =
          .ok () s w →
          ClassifiesAs n w.durable .kCommitted (some ⟨c.nextTransactionId, c.head, r.commitRingIndex, metadata⟩) ∧
          ∀ x, (∀ commit, decodeCommit x = .ok commit → commit.transactionId ≠ c.nextTransactionId) →
            ClassifiesAs n (update w.durable (sb.ringBlock r.commitRingIndex.toNat) x) .kUncommitted none) ∧
    ∀ script trace r t' w', openAndClassify () ⟨n, d, [], script, trace⟩ = .ok r t' w' → r.1 = .kCommitted →
      ∃ v descriptor commit, r.2.validatedTransaction = some v ∧ CommittedRange sb c d v descriptor commit := by
  constructor
  · intro metadata hu hnext hpos hmax htargets
    have hring := ho.valid.ring
    have hres : Reservable c metadata.size := ⟨ho.valid, hu, hpos, by omega, by omega, by omega⟩
    have ht : Txn sb c metadata := ⟨hres, htargets, ho.ring⟩
    refine ⟨_, planRingReservation_eq_ok.mpr ⟨hres, rfl⟩, ?_, nodup_slots_reservation hres, ?_,
      hres.exposed_valid, Opens.completes_writeTransaction (w := ⟨n, d, [], [], []⟩) ho rfl ht, ?_⟩
    · simp [slots_reservation hres]
    · intro i hi
      rw [slots_reservation hres] at hi
      obtain ⟨j, -, rfl⟩ := List.mem_map.mp hi
      rw [← ho.ring]
      exact advance_lt (by omega)
    · intro script trace s w hrun
      obtain ⟨-, hw⟩ := Ends.ok (phased_writeTransaction (w := ⟨n, d, [], script, trace⟩) rfl ho ht) hrun
      have himg : w.durable = committedImage sb c copy metadata d := by
        rw [hw.durable]
        simp only [List.flatten_append, List.flatten_cons, List.flatten_nil, List.append_nil, applyWrites_append]
        rfl
      have hc := ho.committedImage ht
      rw [← himg] at hc
      exact ⟨hc.classifiesAs ht, fun x hx => hc.classifiesAs_update ht hx⟩
  · intro script trace r t' w' hrun hstate
    obtain ⟨hr, -⟩ := Ends.ok (ho.phased_openAndClassify (R := fun _ => True) fun _ _ _ => trivial) hrun
    obtain ⟨state, store⟩ := r
    change Classified _ _ state store at hr
    cases hr with
    | empty _ => cases hstate
    | uncommitted _ _ => cases hstate
    | committed _ hv =>
      obtain ⟨descriptor, commit, hrange⟩ := committedRange_of_classify hv
      exact ⟨_, descriptor, commit, rfl, hrange⟩

/-- On the small image: a transaction that rewrites a bitmap block. -/
theorem writer_classifier_sample : ∃ r, planRingReservation (formattedControl sampleSuperblock) 1 = .ok r ∧
    ∃ script s w, writeTransaction r (singleBlock 1 (Bytes.zero _))
        (.fresh sampleSuperblock (formattedControl sampleSuperblock) .kA) ⟨16, sampleImage, [], script, []⟩ =
          .ok () s w ∧
      ClassifiesAs 16 w.durable .kCommitted (some ⟨1, 0, 2, singleBlock 1 (Bytes.zero _)⟩) := by
  have ho : Opens 16 sampleImage sampleSuperblock (formattedControl sampleSuperblock) .kA :=
    sampleImage_formatted.opens sampleLayout
  have htarget : isValidMetadataTarget sampleSuperblock 1 := by decide
  obtain ⟨r, hplan, -, -, -, -, ⟨script, _, s, w, -, hrun⟩, hall⟩ := (writer_classifier_agree ho).1
    (singleBlock 1 (Bytes.zero _)) rfl (by decide) (by rw [size_singleBlock])
    (by rw [size_singleBlock]; decide) (fun p hp => by rw [mem_singleBlock.mp hp]; exact htarget)
  rw [size_singleBlock] at hplan
  have hslot : r.commitRingIndex = 2 := by
    rw [(planRingReservation_eq_ok.mp hplan).2]
    decide
  have hclass := (hall _ _ _ _ (hrun [])).1
  rw [hslot] at hclass
  exact ⟨r, hplan, _, s, _, hrun [], hclass⟩

end Eufs
