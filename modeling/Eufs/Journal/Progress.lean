import Eufs.Base.Progress
import Eufs.Journal.Resolve

/-!
# Eufs.Journal.Progress — opening and recovery return

On a host that serves every call an image that opens is opened, and a journal that is empty or holds a range
`classify` accepts is resolved.
-/

namespace Eufs

open Prog JournalControlStore

variable {op : Op} {Q : Unit → JournalControlStore → Disk → Prop} {s : JournalControlStore}

section Progress

variable {τ : Type} {t : τ} {w : Disk} {sb : Superblock} {c : JournalControl} {copy : ControlCopy}

theorem completes_readBlock {a : ℕ} {Q : Block → τ → Disk → Prop} (ha : a < w.size)
    (h : ∀ w', w.Read w' → Q (w.visible a) t w') : Completes (readBlock op a) t w Q :=
  completes_preadAll Op.text (by decide) ha (h _ (World.Read.event rfl))

theorem completes_adoptLockedFd {Q : JournalControlStore → τ → Disk → Prop}
    (ho : Opens w.size w.visible sb c copy)
    (h : ∀ w', w.Read w' → Q (.fresh sb c copy) t w') : Completes adoptLockedFd t w Q := by
  have hreg := ho.regions
  have hlt : ∀ copy, sb.controlBlock copy < w.size := fun copy =>
    (hreg.controlBlock_lt_total copy).trans_eq ho.size.symm
  have hpos : 0 < w.size := by
    have := hlt .kA
    omega
  refine completes_bind (completes_syscall _ (completes_bind ?_))
  refine completes_bind (completes_syscall _ (completes_bind (completes_fileSize ?_)))
  refine completes_bind (completes_failIf (by show ¬ w.size < 1; omega) (completes_bind ?_))
  refine completes_readBlock hpos fun w₁ h₁ => completes_bind ?_
  refine completes_ofExcept (orFail_eq_ok.mpr ho.superblock) (completes_bind ?_)
  refine completes_failIf (not_not.mpr ho.features) (completes_bind ?_)
  refine completes_failIf (not_not.mpr ho.size.symm) (completes_bind ?_)
  refine completes_readBlock (by rw [h₁.size]; exact hlt .kA) fun w₂ h₂ => completes_bind ?_
  refine completes_readBlock (by rw [h₂.size, h₁.size]; exact hlt .kB) fun w₃ h₃ => completes_bind ?_
  refine completes_ofExcept (a := (c, copy)) (orFail_eq_ok.mpr ?_) (completes_pure (completes_pure (h w₃ ?_)))
  · rw [h₂.visible, h₁.visible]
    exact ho.selected
  · exact (((World.Read.event rfl).trans (World.Read.event rfl)).trans h₁).trans (h₂.trans h₃)

theorem completes_readRingBlock {i : UInt32} {Q : Block → τ → Disk → Prop} (hsb : sb.Regions)
    (hsize : w.size = sb.totalBlocks.toNat) (hi : i.toNat < sb.ringBlocks)
    (h : ∀ w', w.Read w' → Q (w.visible (sb.ringBlock i.toNat)) t w') :
    Completes (readRingBlock sb i op) t w Q := by
  have hstop := hsb.ringBlock_lt_stop hi
  have htotal := hsb.journal_stop_lt
  refine completes_bind (completes_failIf (by omega) (completes_bind (completes_failIf (by omega) ?_)))
  exact completes_readBlock (by omega) h

theorem completes_readPayloads (hsb : sb.Regions) : ∀ {es : List DescriptorEntry} {m m' : BlockMap} {w : Disk}
    {Q : BlockMap → τ → Disk → Prop}, w.size = sb.totalBlocks.toNat →
    (∀ e ∈ es, e.payloadRingIndex.toNat < sb.ringBlocks) → collectPayloads sb w.visible es m = .ok m' →
    (∀ w', w.Read w' → Q m' t w') → Completes (readPayloads sb es m) t w Q
  | [], m, m', w, Q, _, _, hc, h => by
    rw [← Except.ok.inj hc] at h
    exact completes_pure (h w (World.Read.refl w))
  | e :: es, m, m', w, Q, hsize, hes, hc, h => by
    obtain ⟨he, hes⟩ := List.forall_mem_cons.mp hes
    obtain ⟨u, hcheck, hrest⟩ := bind_eq_ok.mp hc
    refine completes_bind (completes_readRingBlock hsb hsize he fun w₁ h₁ => completes_bind ?_)
    have hrest' : collectPayloads sb w₁.visible es
        (m.insertIfNew e.homeBlock.toNat (w.visible (sb.ringBlock e.payloadRingIndex.toNat))) = .ok m' := by
      rw [h₁.visible]
      exact hrest
    exact completes_ofExcept hcheck <|
      completes_readPayloads hsb (h₁.size.trans hsize) hes hrest' fun w₂ h₂ => h w₂ (h₁.trans h₂)

/-- An empty journal, or a range that `classify` accepts, is classified. -/
theorem completes_classifyRecovery {Q : RecoveryState → JournalControlStore → Disk → Prop} (hs : StoreOk s)
    (hsize : w.size = s.superblock.totalBlocks.toNat) (hl : s.reloadRequired = false)
    (hc : s.current.usedBlocks ≠ 0 → ∃ r, classify s.superblock s.current w.visible = .ok r)
    (h : ∀ r s' w', Classified s w.visible r s' → w.Read w' → Q r s' w') :
    Completes classifyRecovery s w Q := by
  refine completes_bind (completes_modify (completes_bind (completes_get (completes_bind ?_))))
  refine completes_failIf (by simp [hl]) ?_
  by_cases hu : s.current.usedBlocks = 0
  · rw [if_pos hu]
    exact completes_pure (h _ _ _ (.empty hu) (World.Read.refl w))
  obtain ⟨⟨b, v⟩, hv⟩ := hc hu
  obtain ⟨hid, desc, m, hbody, hcommit, rfl⟩ := classify_eq_ok.mp hv
  obtain ⟨desc', hdesc, hrest⟩ := bind_eq_ok.mp hbody
  obtain ⟨m', hcollect, hpair⟩ := bind_eq_ok.mp hrest
  obtain ⟨rfl, rfl⟩ : desc' = desc ∧ m' = m := by simpa using Except.ok.inj hpair
  have hring := hs.ring
  have hpos := hs.valid.ring
  have hcommit_lt : (commitRingIndex s.current desc').toNat < s.superblock.ringBlocks := by
    rw [← hring]
    exact advance_lt (by omega)
  rw [if_neg hu]
  refine completes_bind (completes_failIf (not_le.mpr hid) (completes_bind ?_))
  refine completes_readRingBlock hs.regions hsize (by rw [← hring]; exact hs.valid.tail_lt) fun w₁ h₁ => ?_
  refine completes_bind (completes_ofExcept hdesc (completes_bind ?_))
  have hentries := (checkDescriptor_eq_ok.mp hdesc).2.payload_lt hs.valid hring
  rw [← h₁.visible] at hcollect
  refine completes_readPayloads hs.regions (h₁.size.trans hsize) hentries hcollect fun w₂ h₂ => completes_bind ?_
  refine completes_readRingBlock hs.regions ((h₁.trans h₂).size.trans hsize) hcommit_lt fun w₃ h₃ =>
    completes_bind ?_
  have hr := (h₁.trans h₂).trans h₃
  rw [← (h₁.trans h₂).visible] at hcommit
  refine completes_ofExcept hcommit ?_
  cases b with
  | true => exact completes_bind (completes_modify (completes_pure (h _ _ _ (.committed hu hv) hr)))
  | false => exact completes_pure (h _ _ _ (.uncommitted hu hv) hr)

/-- An exposed body whose COMMIT is found corrupt is not classified. -/
theorem fails_classifyRecovery {desc : DescriptorRecord} {m : BlockMap} {e : Failure} (hs : StoreOk s)
    (hsize : w.size = s.superblock.totalBlocks.toNat) (hl : s.reloadRequired = false)
    (hu : s.current.usedBlocks ≠ 0) (hid : 1 < s.current.nextTransactionId.toNat)
    (hbody : exposedBody s.superblock s.current w.visible = .ok (desc, m))
    (hcommit : checkCommit s.current desc (w.visible (s.superblock.ringBlock (commitRingIndex s.current desc).toNat)) =
      .error e) : Fails classifyRecovery s w e fun _ w' => w'.faults = w.faults := by
  have hpos := hs.valid.ring
  obtain ⟨desc', hdesc, hrest⟩ := bind_eq_ok.mp hbody
  obtain ⟨m', hcollect, hpair⟩ := bind_eq_ok.mp hrest
  obtain ⟨rfl, rfl⟩ : desc' = desc ∧ m' = m := by simpa using Except.ok.inj hpair
  have hentries := (checkDescriptor_eq_ok.mp hdesc).2.payload_lt hs.valid hs.ring
  have hcommit_lt : (commitRingIndex s.current desc').toNat < s.superblock.ringBlocks := by
    rw [← hs.ring]
    exact advance_lt (by omega)
  refine fails_of_completes (completes_modify (fails_of_completes (completes_get (fails_of_completes ?_))))
  refine completes_failIf (by simp [hl]) ?_
  rw [if_neg hu]
  refine fails_of_completes (completes_failIf (not_le.mpr hid) (fails_of_completes ?_))
  refine completes_readRingBlock hs.regions hsize (by rw [← hs.ring]; exact hs.valid.tail_lt) fun w₁ h₁ => ?_
  refine fails_of_completes (completes_ofExcept hdesc (fails_of_completes ?_))
  rw [← h₁.visible] at hcollect
  refine completes_readPayloads hs.regions (h₁.size.trans hsize) hentries hcollect fun w₂ h₂ =>
    fails_of_completes ?_
  have h12 := h₁.trans h₂
  refine completes_readRingBlock hs.regions (h12.size.trans hsize) hcommit_lt fun w₃ h₃ => ?_
  rw [← h12.visible] at hcommit
  exact fails_of_fails (fails_ofExcept hcommit (h12.trans h₃).faults)

/-- Recovery then fails with the same error, on a host that serves every call. -/
theorem fails_openAndResolve {desc : DescriptorRecord} {m : BlockMap} {e : Failure}
    (ho : Opens w.size w.visible sb c copy) (hu : c.usedBlocks ≠ 0) (hid : 1 < c.nextTransactionId.toNat)
    (hbody : exposedBody sb c w.visible = .ok (desc, m))
    (hcommit : checkCommit c desc (w.visible (sb.ringBlock (commitRingIndex c desc).toNat)) = .error e) :
    Fails openAndResolve t w e fun _ w' => w'.faults = w.faults := by
  refine fails_of_completes (completes_adoptLockedFd ho fun w₁ h₁ => fails_withState (fails_of_completes ?_))
  refine completes_get (fails_of_completes (completes_failIf (by simp [fresh]) ?_))
  refine fails_of_completes (completes_failIf (by simp [fresh]) (fails_of_fails ?_))
  rw [← h₁.visible] at hbody hcommit
  rw [← h₁.faults]
  exact fails_classifyRecovery ho.storeOk (h₁.size.trans ho.size) rfl hu hid hbody hcommit

theorem completes_storeWrite {a : ℕ} {x : Block} (h : ∀ w', w'.faults = w.faults → Q () s w') :
    Completes (storeWrite op a x) s w Q :=
  completes_onFail (completes_writeAll (by decide) (h _ (by simp [World.faults, Event.ok])))

theorem completes_storeSync (h : ∀ w', w'.faults = w.faults → Q () s w') : Completes (storeSync op) s w Q :=
  completes_onFail (completes_fdatasync _ (h _ (by simp [World.faults, Event.ok])))

theorem completes_persistNext {next : JournalControl} (hs : StoreOk s) (hl : s.reloadRequired = false)
    (hn : Succeeds s next) (h : ∀ s' w', w'.faults = w.faults → Q () s' w') :
    Completes (persistNext next) s w Q := by
  refine completes_bind (completes_get (completes_bind (completes_failIf (by simp [hl]) (completes_bind ?_))))
  refine completes_failIf (hn.unchanged hs) (completes_bind ?_)
  refine completes_failIf (not_not.mpr hn.generation) (completes_bind ?_)
  refine completes_ofExcept (orFail_eq_ok.mpr (encodeControl_eq_ok.mpr ⟨hn.valid, rfl⟩)) (completes_bind ?_)
  refine completes_storeWrite fun w₁ h₁ => completes_bind (completes_storeSync fun w₂ h₂ => ?_)
  exact completes_modify (h _ _ (h₂.trans h₁))

theorem completes_replayValidated {v : ValidatedTransaction} (hs : StoreOk s) (hl : s.reloadRequired = false)
    (hv : s.validatedTransaction = some v)
    (ht : ∀ p ∈ v.metadataAfterImages.toList, isValidMetadataTarget s.superblock p.1) :
    Completes (replayValidated (cleanControl s.current)) s w fun _ _ w' => w'.faults = w.faults := by
  refine completes_bind (completes_get ?_)
  rw [hv]
  refine completes_bind <| Completes.mono (completes_forEach
    (fun l s' w' => (∀ p ∈ l, isValidMetadataTarget s.superblock p.1) ∧ s' = s ∧ w'.faults = w.faults) ?_ _ s w
    ⟨ht, rfl, rfl⟩) ?_
  · rintro p l s' w' ⟨htl, rfl, hw'⟩
    obtain ⟨htp, htl⟩ := List.forall_mem_cons.mp htl
    refine completes_bind (completes_failIf (not_not.mpr htp) (completes_onFail (completes_writeAll (by decide) ?_)))
    exact ⟨htl, rfl, by simpa [World.faults, Event.ok] using hw'⟩
  · rintro - s' w' ⟨-, rfl, hw'⟩
    refine completes_bind (completes_storeSync fun w₁ h₁ => completes_bind ?_)
    refine completes_persistNext hs hl (succeeds_cleanControl hs.valid) fun s₂ w₂ h₂ => completes_bind ?_
    exact completes_modify (completes_pure ((h₂.trans h₁).trans hw'))

/-- On a host that serves every call, opening and recovery return. -/
theorem completes_openAndResolve (ho : Opens w.size w.visible sb c copy)
    (hc : c.usedBlocks ≠ 0 → ∃ r, classify sb c w.visible = .ok r) :
    Completes openAndResolve t w fun _ _ w' => w'.faults = w.faults := by
  refine completes_bind (completes_adoptLockedFd ho fun w₁ h₁ => completes_withState ?_)
  refine completes_bind (completes_get (completes_bind (completes_failIf (by simp [fresh]) ?_)))
  refine completes_bind (completes_failIf (by simp [fresh]) (completes_bind ?_))
  have hs := ho.storeOk
  have hs' : ∀ v, StoreOk { fresh sb c copy with validatedTransaction := v } := fun v =>
    ⟨hs.regions, hs.valid, hs.uuid, hs.ring⟩
  refine completes_classifyRecovery hs (h₁.size.trans ho.size) rfl (by rw [h₁.visible]; exact hc)
    fun r s' w₂ hr h₂ => ?_
  have hfaults := (h₁.trans h₂).faults
  rw [h₁.visible] at hr
  cases hr with
  | empty h => exact completes_pure hfaults
  | uncommitted h hv =>
    refine completes_bind
      (completes_persistNext (hs' none) rfl (succeeds_cleanControl hs.valid) fun s₃ w₃ h₃ => ?_)
    exact completes_bind (completes_modify (completes_pure (h₃.trans hfaults)))
  | committed h hv =>
    refine (completes_replayValidated (hs' (some _)) rfl rfl (classify_targets hv)).mono fun _ _ w₃ h₃ => ?_
    exact h₃.trans hfaults

/-- Recovery of a committed transaction begins with a home block, whatever of the file is durable. -/
theorem stops_resolveRecovery {v : ValidatedTransaction} {p : ℕ × Block} {l : List (ℕ × Block)}
    (hs : StoreOk s) (hsize : w.size = s.superblock.totalBlocks.toNat) (hl : s.reloadRequired = false)
    (hb : s.durableBody = none) (hc : s.commitDurable = false) (hu : s.current.usedBlocks ≠ 0)
    (hv : classify s.superblock s.current w.visible = .ok (true, v)) (hp : v.metadataAfterImages.toList = p :: l) :
    Stops resolveRecovery s w fun w' =>
      .pwrite w.durable ⟨.recoveryHome, p.1, p.2⟩ false ∈ w'.trace := by
  refine stops_of_completes (completes_get (stops_of_completes (completes_failIf (by simp [hl]) ?_)))
  refine stops_of_completes (completes_failIf (by simp [hb, hc]) (stops_of_completes ?_))
  refine completes_classifyRecovery hs hsize hl (fun _ => ⟨_, hv⟩) fun r s' w₁ hr h₁ => ?_
  cases hr with
  | empty h => exact absurd h hu
  | uncommitted h hv' => cases hv.symm.trans hv'
  | committed h hv' =>
    cases hv.symm.trans hv'
    refine stops_of_completes (completes_get (stops_of_stops ?_))
    rw [hp]
    refine stops_of_stops (stops_of_completes (completes_failIf (not_not.mpr ?_) ?_))
    · exact classify_targets hv p (hp ▸ List.mem_cons_self)
    · exact stops_onFail (stops_writeAll (by decide) (h₁.durable ▸ List.mem_cons_self))

/-! ### The write path up to the COMMIT -/

section Write

variable {s : JournalControlStore} {before ordered metadata : BlockMap} {totalBlocks : UInt32} {uuid : Uuid}

theorem completes_writeUnexposedBody {Q : DurableJournalBody → JournalControlStore → Disk → Prop} (hs : StoreOk s)
    (ha : BodyAccepted s (reservation s.current metadata.size) metadata)
    (h : ∀ b s' w', w'.faults = w.faults → Q b s' w') :
    Completes (writeUnexposedBody (reservation s.current metadata.size) metadata) s w Q := by
  have hring : 0 < s.current.ringBlocks.toNat := by
    have := hs.valid.ring
    omega
  have hhead : (reservation s.current metadata.size).descriptorRingIndex.toNat < s.superblock.ringBlocks := by
    rw [← hs.ring]
    exact hs.valid.head_lt
  refine completes_bind (completes_get (completes_bind (completes_failIf (by simp [ha.reload]) (completes_bind ?_))))
  refine completes_failIf (by simp [ha.body, ha.plan.clean]) (completes_bind ?_)
  refine completes_ofExcept (planRingReservation_eq_ok.mpr ⟨ha.plan, rfl⟩) (completes_bind ?_)
  refine completes_failIf (not_not.mpr (sameReservation_iff.mpr rfl)) (completes_bind ?_)
  refine completes_checks (fun p hp => not_not.mpr (ha.targets p hp)) (completes_bind ?_)
  have henc := txnDescriptor_encodable ha.plan ha.targets
  refine completes_ofExcept (orFail_eq_ok.mpr (encodeDescriptor_eq_ok.mpr ⟨henc, rfl⟩)) (completes_bind ?_)
  refine completes_ofExcept (orFail_eq_ok.mpr (hs.regions.ringOffset_eq hhead)) (completes_bind ?_)
  refine completes_storeWrite fun w₁ h₁ => completes_bind <| Completes.mono (completes_forEach
    (fun l s' w' => (∀ p ∈ l, p.2.toNat < s.superblock.ringBlocks) ∧ s' = s ∧ w'.faults = w.faults) ?_ _ s w₁
    ⟨fun p hp => ?_, rfl, h₁⟩) ?_
  · rintro p l s' w' ⟨hl, rfl, hw'⟩
    obtain ⟨hslot, hl⟩ := List.forall_mem_cons.mp hl
    refine completes_bind (completes_onFail (completes_ofExcept (orFail_eq_ok.mpr (hs.regions.ringOffset_eq hslot)) ?_))
    exact completes_storeWrite fun w'' hw'' => ⟨hl, rfl, hw''.trans hw'⟩
  · obtain ⟨i, hi⟩ := List.mem_iff_getElem?.mp hp
    rw [(getElem?_payloadSlots hi).2.1, ← hs.ring]
    exact advance_lt hring
  · rintro - s' w₂ ⟨-, rfl, h₂⟩
    refine completes_bind (completes_storeSync fun w₃ h₃ => completes_bind (completes_modify (completes_pure ?_)))
    exact h _ _ _ (h₃.trans h₂)

/-- An accepted transaction has its ordered data and its body written. -/
theorem completes_writeOrderedDataAndUnexposedBody (hs : StoreOk s) (hsize : w.size = s.superblock.totalBlocks.toNat)
    (ha : TxnAccepted s w.visible totalBlocks uuid before ordered metadata) :
    Completes (writeOrderedDataAndUnexposedBody totalBlocks uuid before ordered metadata) s w
      fun _ _ w' => w'.faults = w.faults := by
  refine completes_bind (completes_failIf (by simp [not_isEmpty_of_size_pos ha.plan.pos]) (completes_bind ?_))
  refine completes_get (completes_bind (completes_failIf (by simp [ha.reload]) (completes_bind ?_)))
  refine completes_failIf (by simp [ha.body, ha.plan.clean]) (completes_bind ?_)
  refine completes_failIf (by simp [ha.total, ha.uuid]) (completes_bind ?_)
  refine completes_checks (fun p hp => by have := ha.maps.data p hp; tauto) (completes_bind ?_)
  refine completes_checks (fun p hp => by have := ha.maps.targets p hp; tauto) (completes_bind ?_)
  refine completes_failIf (not_not.mpr ha.maps.size) (completes_bind ?_)
  refine completes_checks (fun p hp => not_not.mpr (ha.maps.covered p hp).1) (completes_bind ?_)
  refine completes_ofExcept (planRingReservation_eq_ok.mpr ⟨ha.plan, rfl⟩) (completes_bind ?_)
  refine Completes.mono
    (completes_forEach (fun l s' w' => (∀ p ∈ l, p ∈ before.toList) ∧ s' = s ∧ w.Read w') ?_ _ s w
    ⟨fun p hp => hp, rfl, World.Read.refl w⟩) ?_
  · rintro p l s' w' ⟨hl, rfl, hw'⟩
    obtain ⟨hp, hl⟩ := List.forall_mem_cons.mp hl
    have hlt := (ha.maps.covered p hp).2
    refine completes_bind (completes_failIf (by omega) (completes_bind ?_))
    refine completes_readBlock (by rw [hw'.size, hsize]; exact hlt) fun w'' hw'' => ?_
    refine completes_failIf (not_not.mpr ?_) ⟨hl, rfl, hw'.trans hw''⟩
    rw [hw'.visible]
    exact ha.unchanged p hp
  · rintro - s' w₁ ⟨-, rfl, h₁⟩
    split_ifs with ho
    · exact completes_writeUnexposedBody hs ha.bodyAccepted fun _ _ _ h' => h'.trans h₁.faults
    refine completes_bind <| Completes.mono
      (completes_forEach (fun _ s'' w' => s'' = s' ∧ w'.faults = w.faults) ?_ _ s' w₁
      ⟨rfl, h₁.faults⟩) ?_
    · rintro p l s'' w' ⟨rfl, hw'⟩
      exact completes_storeWrite fun w'' hw'' => ⟨rfl, hw''.trans hw'⟩
    · rintro - s'' w₂ ⟨rfl, h₂⟩
      refine completes_bind (completes_storeSync fun w₃ h₃ => ?_)
      exact completes_writeUnexposedBody hs ha.bodyAccepted fun _ _ _ h' => h'.trans (h₃.trans h₂)

theorem InTxn.completes_expose (h : InTxn sb c metadata c copy false s) (hs : StoreOk s)
    (hres : Reservable c metadata.size) (hp : w.pending = []) :
    Completes exposeDurableBody s w fun _ s' w' =>
      InTxn sb c metadata (reservation c metadata.size).exposedControl copy.other false s' ∧ StoreOk s' ∧
      w.Wrote [[controlWrite sb copy.other (reservation c metadata.size).exposedControl]] w' := by
  have hn : Succeeds s (reservation c metadata.size).exposedControl := by
    have := succeeds_exposedControl (s := s) (n := metadata.size) (by rw [h.current]; exact hres)
    rwa [h.current] at this
  have hrun : Completes exposeDurableBody s w fun _ _ _ => True := by
    refine completes_bind (completes_get (completes_bind (completes_failIf (by simp [h.reload]) (completes_bind ?_))))
    refine completes_failIf (by rw [h.current]; exact not_not.mpr hres.clean) ?_
    rw [h.body]
    exact completes_persistNext hs h.reload hn fun _ _ _ => trivial
  refine (hrun.wrote fun script => h.expose (R := fun _ => True) (w := { w with script := script }) hp hs hres).mono ?_
  rintro - s' w' ⟨-, ⟨h1, h2⟩, h3⟩
  exact ⟨h1, h2, h3⟩

/-- The COMMIT slot of a store with a transaction in progress is in the ring. -/
theorem InTxn.commit_lt {current : JournalControl} {b : Bool} (h : InTxn sb c metadata current copy b s)
    (hs : StoreOk s) (hres : Reservable c metadata.size) (hring : current.ringBlocks = c.ringBlocks) :
    (txnBody sb c metadata).reservation.commitRingIndex.toNat < s.superblock.ringBlocks := by
  have hpos := hres.valid.ring
  have h1 := hs.ring
  rw [h.current, hring] at h1
  exact (show (advance c.head _ c.ringBlocks).toNat < _ from advance_lt (by omega)).trans_eq h1

theorem InTxn.completes_commit (h : InTxn sb c metadata (reservation c metadata.size).exposedControl copy false s)
    (hs : StoreOk s) (hres : Reservable c metadata.size) (hp : w.pending = []) :
    Completes writeCommit s w fun _ s' w' =>
      InTxn sb c metadata (reservation c metadata.size).exposedControl copy true s' ∧ StoreOk s' ∧
      w.Wrote [[commitWrite sb (txnBody sb c metadata)]] w' := by
  have henc : encodeCommit (commitRecord s.superblock (txnBody sb c metadata)) = .ok _ :=
    encodeCommit_eq_ok.mpr ⟨by rw [h.superblock]; exact txnCommit_fields hres, rfl⟩
  have hrun : Completes writeCommit s w fun _ _ _ => True := by
    refine completes_bind (completes_get (completes_bind (completes_failIf (by simp [h.reload]) ?_)))
    rw [h.body]
    refine completes_bind (completes_failIf (by simp [h.commit]) (completes_bind ?_))
    refine completes_failIf (not_not.mpr (sameControlState_iff.mpr h.current)) (completes_bind ?_)
    refine completes_ofExcept (orFail_eq_ok.mpr henc) (completes_bind ?_)
    refine completes_ofExcept (orFail_eq_ok.mpr (hs.regions.ringOffset_eq (h.commit_lt hs hres rfl)))
      (completes_bind ?_)
    refine completes_storeWrite fun w₁ h₁ => completes_bind (completes_storeSync fun w₂ h₂ => ?_)
    exact completes_modify trivial
  refine (hrun.wrote fun script => h.commits (R := fun _ => True) (w := { w with script := script }) hp hs hres).mono ?_
  rintro - s' w' ⟨-, ⟨h1, h2⟩, h3⟩
  exact ⟨h1, h2, h3⟩

/-- A committed transaction is brought home and its range released. -/
theorem InTxn.completes_home (h : InTxn sb c metadata (reservation c metadata.size).exposedControl copy true s)
    (hs : StoreOk s) (hres : Reservable c metadata.size) (hp : w.pending = [])
    (ht : ∀ p ∈ metadata.toList, isValidMetadataTarget sb p.1) :
    Completes completeCommittedTransaction s w fun _ _ w' =>
      w.Wrote [homeWrites .home metadata,
        [controlWrite sb copy.other (cleanControl (reservation c metadata.size).exposedControl)]] w' := by
  have hnext := succeeds_cleanControl (s := s) hs.valid
  have hrun : Completes completeCommittedTransaction s w fun _ _ _ => True := by
    refine completes_bind (completes_get (completes_bind (completes_failIf (by simp [h.reload]) (completes_bind ?_))))
    refine completes_failIf ?_ (completes_bind (completes_failIf (by simp [h.checkpointed]) (completes_bind ?_)))
    · rw [h.body, h.commit, h.images]
      simp [not_isEmpty_of_size_pos hres.pos]
    rw [h.images]
    refine Completes.mono (completes_forEach
      (fun l s' _ => (∀ p ∈ l, isValidMetadataTarget s.superblock p.1) ∧ s' = s) ?_ _ s w
      ⟨by rw [h.superblock]; exact ht, rfl⟩) ?_
    · rintro p l s' w' ⟨htl, rfl⟩
      obtain ⟨htp, htl⟩ := List.forall_mem_cons.mp htl
      exact completes_bind (completes_failIf (not_not.mpr htp) (completes_storeWrite fun _ _ => ⟨htl, rfl⟩))
    · rintro - s' w₁ ⟨-, rfl⟩
      refine completes_bind (completes_storeSync fun w₂ _ => completes_bind ?_)
      exact completes_persistNext hs h.reload hnext fun _ _ _ => completes_modify trivial
  refine (hrun.wrote fun script =>
    h.completes (R := fun _ => True) (w := { w with script := script }) hp hs hres ht).mono ?_
  exact fun _ _ _ h => h.2.2

theorem InTxn.stops_commit (h : InTxn sb c metadata (reservation c metadata.size).exposedControl copy false s)
    (hs : StoreOk s) (hres : Reservable c metadata.size) :
    Stops writeCommit s w fun w' => w'.durable = w.durable ∧
      w'.pending = w.pending ++ [commitWrite sb (txnBody sb c metadata)] := by
  have henc : encodeCommit (commitRecord s.superblock (txnBody sb c metadata)) = .ok _ :=
    encodeCommit_eq_ok.mpr ⟨by rw [h.superblock]; exact txnCommit_fields hres, rfl⟩
  refine stops_of_completes (completes_get (stops_of_completes (completes_failIf (by simp [h.reload]) ?_)))
  rw [h.body]
  refine stops_of_completes (completes_failIf (by simp [h.commit]) (stops_of_completes ?_))
  refine completes_failIf (not_not.mpr (sameControlState_iff.mpr h.current)) (stops_of_completes ?_)
  refine completes_ofExcept (orFail_eq_ok.mpr henc) (stops_of_completes ?_)
  refine completes_ofExcept (orFail_eq_ok.mpr (hs.regions.ringOffset_eq (h.commit_lt hs hres rfl))) (stops_of_stops ?_)
  refine stops_onFail (stops_writeAll (by decide) ⟨rfl, ?_⟩)
  rw [h.superblock]
  rfl

/-- A store that just opened the file prepares an accepted transaction. -/
theorem Opens.completes_prepare (ho : Opens w.size w.durable sb c copy) (hp : w.pending = [])
    (ha : TxnAccepted (.fresh sb c copy) w.durable totalBlocks uuid before ordered metadata) :
    Completes (writeOrderedDataAndUnexposedBody totalBlocks uuid before ordered metadata) (.fresh sb c copy) w
      fun _ s' w' => InTxn sb c metadata c copy false s' ∧ StoreOk s' ∧
        w.Wrote (orderedBatches ordered ++ [bodyWrites sb c metadata]) w' := by
  have hv : w.visible = w.durable := by rw [World.visible, hp]; rfl
  have hs := ho.storeOk
  have hspec : ∀ script, Phased Latched (writeOrderedDataAndUnexposedBody totalBlocks uuid before ordered metadata)
      (.fresh sb c copy) { w with script := script } (orderedBatches ordered ++ [bodyWrites sb c metadata])
      (fun _ s' => s' = { fresh sb c copy with
        durableBody := some (txnBody sb c metadata), metadataAfterImages := metadata })
      (fun _ => True) (fun _ => True) := fun script =>
    (phased_writeOrderedDataAndUnexposedBody (R := fun _ => True) (w := { w with script := script }) hp hs
      ho.size (fun _ => rfl) (fun _ _ => trivial)).mono (fun _ _ h => h.2.2) (fun _ _ => trivial) fun _ h => h
  refine ((completes_writeOrderedDataAndUnexposedBody hs ho.size (by rw [hv]; exact ha)).wrote hspec).mono ?_
  rintro b s' w' ⟨-, rfl, hw'⟩
  exact ⟨⟨rfl, rfl, rfl, rfl, rfl, rfl, rfl, rfl⟩, ⟨hs.regions, hs.valid, hs.uuid, hs.ring⟩, hw'⟩

/-- The machine can stop with the transaction exposed and its COMMIT written, but not durable. -/
theorem stops_executeJournalTransaction {t : Bool} (hp : w.pending = []) (ho : Opens w.size w.durable sb c copy)
    (ha : TxnAccepted (.fresh sb c copy) w.durable totalBlocks uuid before ordered metadata) :
    Stops (executeJournalTransaction before ordered metadata totalBlocks uuid) t w fun w' =>
      w'.durable = applyWrites [controlWrite sb copy.other (reservation c metadata.size).exposedControl]
        (applyWrites (orderedBatches ordered ++ [bodyWrites sb c metadata]).flatten w.durable) ∧
      w'.pending = [commitWrite sb (txnBody sb c metadata)] := by
  have hv : w.visible = w.durable := by rw [World.visible, hp]; rfl
  refine stops_of_completes (completes_modify (stops_of_completes (completes_syscall _ (stops_of_completes ?_))))
  refine completes_modify
    (stops_of_completes (completes_adoptLockedFd (by rw [← hv] at ho; exact ho) fun w₁ h₁ => ?_))
  refine stops_of_stops (stops_withState (stops_of_completes ?_))
  have ho₁ : Opens w₁.size w₁.durable sb c copy := by
    rw [h₁.size, h₁.durable]
    exact ho
  refine (ho₁.completes_prepare (h₁.pending.trans hp) (by rw [h₁.durable]; exact ha)).mono ?_
  rintro b s₂ w₂ ⟨hin₂, hs₂, hw₂⟩
  refine stops_of_completes ((hin₂.completes_expose hs₂ ha.plan hw₂.pending).mono ?_)
  rintro - s₃ w₃ ⟨hin₃, hs₃, hw₃⟩
  refine stops_of_stops ((hin₃.stops_commit hs₃ ha.plan).imp ?_)
  rintro w₄ ⟨h₄, hp₄⟩
  rw [h₄, hp₄, hw₃.durable, hw₂.durable, h₁.durable, hw₃.pending]
  exact ⟨rfl, rfl⟩

/-- On a host that serves every call, an accepted transaction is committed. -/
theorem Opens.completes_commitTransaction (ho : Opens w.size w.durable sb c copy) (hp : w.pending = [])
    (ha : TxnAccepted (.fresh sb c copy) w.durable totalBlocks uuid before ordered metadata) :
    Completes (commitTransaction totalBlocks uuid before ordered metadata) (.fresh sb c copy) w fun _ s' w' =>
      InTxn sb c metadata (reservation c metadata.size).exposedControl copy.other true s' ∧ StoreOk s' ∧
      w'.pending = [] := by
  refine completes_bind ((ho.completes_prepare hp ha).mono ?_)
  rintro b s₁ w₁ ⟨hin₁, hs₁, hw₁⟩
  refine completes_bind ((hin₁.completes_expose hs₁ ha.plan hw₁.pending).mono ?_)
  rintro - s₂ w₂ ⟨hin₂, hs₂, hw₂⟩
  refine (hin₂.completes_commit hs₂ ha.plan hw₂.pending).mono ?_
  rintro - s₃ w₃ ⟨hin₃, hs₃, hw₃⟩
  exact ⟨hin₃, hs₃, hw₃.pending⟩

theorem completes_executeJournalTransaction {t : Bool} (hp : w.pending = []) (ho : Opens w.size w.durable sb c copy)
    (ha : TxnAccepted (.fresh sb c copy) w.durable totalBlocks uuid before ordered metadata) :
    Completes (executeJournalTransaction before ordered metadata totalBlocks uuid) t w fun _ t' w' => t' = false ∧
      w.Wrote (txnBatches sb c copy ordered metadata) w' := by
  have hv : w.visible = w.durable := by rw [World.visible, hp]; rfl
  have ht : ∀ p ∈ metadata.toList, isValidMetadataTarget sb p.1 := fun p hp => (ha.maps.targets p hp).1
  have hrun : Completes (executeJournalTransaction before ordered metadata totalBlocks uuid) t w fun _ _ _ => True := by
    rw [executeJournalTransaction_eq]
    refine completes_bind (completes_modify (completes_bind (completes_syscall _ (completes_bind ?_))))
    refine completes_modify
      (completes_bind (completes_adoptLockedFd (by rw [← hv] at ho; exact ho) fun w₁ h₁ => ?_))
    have ho₁ : Opens w₁.size w₁.durable sb c copy := by
      rw [h₁.size, h₁.durable]
      exact ho
    refine completes_bind (completes_withState (completes_bind ?_))
    refine (ho₁.completes_commitTransaction (h₁.pending.trans hp) (by rw [h₁.durable]; exact ha)).mono ?_
    rintro - s₂ w₂ ⟨hin₂, hs₂, hp₂⟩
    refine (hin₂.completes_home hs₂ ha.plan hp₂ ht).mono ?_
    exact fun _ _ _ _ => completes_modify trivial
  have hspec : ∀ script, Phased (fun t => t = true)
    (executeJournalTransaction before ordered metadata totalBlocks uuid) t
      { w with script := script } (txnBatches sb c copy ordered metadata) (fun _ t' => t' = false) (fun _ => True)
      (fun _ => True) := fun script =>
    (phased_executeJournalTransaction (w := { w with script := script }) (R := fun _ => True) hp ho (fun _ => rfl)
      (fun _ _ => trivial)).mono (fun _ _ h => h.2) (fun _ h => h) fun _ h => h
  exact (hrun.wrote hspec).mono fun _ _ _ h => h.2

end Write

end Progress

end Eufs
