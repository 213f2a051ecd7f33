import Eufs.Journal.Protocol

/-!
# Eufs.Journal.Resolve — what opening, recovery and a whole transaction write

The batch lists of `resolveRecovery` and `executeJournalTransaction`.  Both are functions of the image alone:
`recoveryBatches` follows the decision of `classify`, and a transaction writes ordered data, body, exposing control,
COMMIT, after-images and clean control, in this order.
-/

namespace Eufs

open Prog

variable {sb : Superblock} {c : JournalControl} {d : DescriptorRecord} {v : ValidatedTransaction}
  {ps : List (List (Write Block Op))}

/-! ## Classification -/

theorem checkEntries_eq_ok {sb : Superblock} {c : JournalControl} : ∀ {es : List DescriptorEntry} {i : ℕ},
    checkEntries sb c i es = .ok () ↔ ∀ j e, es[j]? = some e →
      e.payloadRingIndex = advance c.tail (i + j + 1) c.ringBlocks ∧ isValidMetadataTarget sb e.homeBlock.toNat
  | [], i => by simp [checkEntries]
  | e :: es, i => by
    have ih := @checkEntries_eq_ok sb c es (i + 1)
    simp only [checkEntries, reject_bind_eq_ok, not_not, ih]
    constructor
    · rintro ⟨h1, h2, h3⟩ j e' he'
      cases j with
      | zero =>
        cases Option.some.inj (he'.symm.trans List.getElem?_cons_zero)
        exact ⟨h1, h2⟩
      | succ j =>
        have := h3 j e' (by simpa using he')
        rwa [show i + (j + 1) + 1 = i + 1 + j + 1 by omega]
    · intro h
      refine ⟨(h 0 e rfl).1, (h 0 e rfl).2, fun j e' he' => ?_⟩
      have := h (j + 1) e' (by simpa using he')
      rwa [show i + (j + 1) + 1 = i + 1 + j + 1 by omega] at this

/-- What an accepted descriptor says. -/
structure DescriptorOf (sb : Superblock) (c : JournalControl) (d : DescriptorRecord) : Prop where
  uuid : d.filesystemUuid = sb.filesystemUuid
  id : d.transactionId = c.nextTransactionId - 1
  used : d.transactionBlockCount = c.usedBlocks
  entries : ∀ j e, d.entries[j]? = some e →
    e.payloadRingIndex = advance c.tail (j + 1) c.ringBlocks ∧ isValidMetadataTarget sb e.homeBlock.toNat
  head : advance c.tail (d.entries.length + 2) c.ringBlocks = c.head

theorem checkDescriptor_eq_ok {b : Block} :
    checkDescriptor sb c b = .ok d ↔ decodeDescriptor b = .ok d ∧ DescriptorOf sb c d := by
  unfold checkDescriptor
  cases decodeDescriptor b with
  | error e => simp
  | ok d' =>
    simp only [reject_bind_eq_ok, not_not, ne_eq, Except.ok.injEq]
    constructor
    · rintro ⟨h1, h2, h3, h⟩
      obtain ⟨u, h4, h⟩ := bind_eq_ok.mp h
      obtain ⟨h5, h⟩ := reject_bind_eq_ok.mp h
      cases h
      refine ⟨rfl, h1, h2, h3, ?_, not_not.mp h5⟩
      simpa using checkEntries_eq_ok.mp h4
    · rintro ⟨rfl, h⟩
      refine ⟨h.uuid, h.id, h.used, bind_eq_ok.mpr ⟨(), checkEntries_eq_ok.mpr (by simpa using h.entries), ?_⟩⟩
      exact reject_bind_eq_ok.mpr ⟨not_not.mpr h.head, rfl⟩

theorem mem_collectPayloads {sb : Superblock} {img : Image} {P : ℕ → Prop} : ∀ {es : List DescriptorEntry}
    {m m' : BlockMap}, collectPayloads sb img es m = .ok m' → (∀ e ∈ es, P e.homeBlock.toNat) →
    (∀ a ∈ m, P a) → ∀ a ∈ m', P a
  | [], m, m', h, _, hm => by cases h; exact hm
  | e :: es, m, m', h, he, hm => by
    simp only [collectPayloads, bind_eq_ok] at h
    obtain ⟨-, -, h⟩ := h
    refine mem_collectPayloads h (fun e' he' => he e' (List.mem_cons_of_mem _ he')) fun a ha => ?_
    rw [Std.ExtTreeMap.mem_insertIfNew] at ha
    rcases ha with ha | ha
    · rw [← Std.LawfulEqCmp.eq_of_compare ha]
      exact he e List.mem_cons_self
    · exact hm a ha

theorem exposedBody_targets {img : Image} {m : BlockMap} (h : exposedBody sb c img = .ok (d, m)) :
    ∀ a ∈ m, isValidMetadataTarget sb a := by
  simp only [exposedBody, bind_eq_ok] at h
  obtain ⟨d', hd, m', hm, h⟩ := h
  cases h
  refine mem_collectPayloads hm (fun e he => ?_) (by simp)
  obtain ⟨j, hj⟩ := List.mem_iff_getElem?.mp he
  exact ((checkDescriptor_eq_ok.mp hd).2.entries j e hj).2

theorem classify_eq_ok {img : Image} {b : Bool} :
    classify sb c img = .ok (b, v) ↔ 1 < c.nextTransactionId.toNat ∧ ∃ d m, exposedBody sb c img = .ok (d, m) ∧
      checkCommit c d (img (sb.ringBlock (commitRingIndex c d).toNat)) = .ok b ∧ v = candidate c d m := by
  simp only [classify, reject_bind_eq_ok, not_le]
  simp only [bind_eq_ok, Prod.exists]
  refine and_congr_right fun _ => exists_congr fun d => exists_congr fun m => and_congr_right fun _ => ?_
  constructor
  · rintro ⟨b', h1, h2⟩
    cases h2
    exact ⟨h1, rfl⟩
  · rintro ⟨h1, rfl⟩
    exact ⟨b, h1, rfl⟩

/-! ## Reading -/

section Reading

variable {τ γ : Type} {t : τ} {w : Disk} {L K : τ → Prop} {R : Failure → Prop} {Q : γ → τ → Prop}
  {ps : List (List (Write Block Op))} {sb : Superblock}

theorem phased_readRingBlock {i : UInt32} {op : Op} {k : Block → Io τ γ} (hp : w.pending = [])
    (hsb : sb.Regions) (hsize : w.size = sb.totalBlocks.toNat) (hi : i.toNat < sb.ringBlocks) (hK : K t)
    (h : ∀ w', w.Same w' → Phased L (k (w.durable (sb.ringBlock i.toNat))) t w' ps Q K R) :
    Phased L (readRingBlock sb i op >>= k) t w ps Q K R := by
  unfold readRingBlock
  rw [bind_assoc]
  refine phased_failIf (fun h => absurd hi (not_lt.mpr h)) fun _ => ?_
  rw [bind_assoc]
  refine phased_failIf (fun h => ?_) fun _ => ?_
  · have h1 := hsb.ringBlock_lt_stop hi
    have h2 := hsb.ringBlock_lt_total hi
    omega
  · exact phased_preadAll Op.text hp (hsize ▸ hsb.ringBlock_lt_total hi) hK h

theorem phased_readPayloads {k : BlockMap → Io τ γ} (hp : w.pending = []) (hsb : sb.Regions)
    (hsize : w.size = sb.totalBlocks.toNat) (hK : K t) : ∀ {es : List DescriptorEntry} {m : BlockMap} {w' : Disk},
    w.Same w' → (∀ e ∈ es, e.payloadRingIndex.toNat < sb.ringBlocks) →
    (∀ e, collectPayloads sb w.durable es m = .error e → R e) →
    (∀ m' v, w.Same v → collectPayloads sb w.durable es m = .ok m' → Phased L (k m') t v ps Q K R) →
    Phased L (readPayloads sb es m >>= k) t w' ps Q K R
  | [], m, w', hw, _, _, hk => hk m w' hw rfl
  | e :: es, m, w', hw, hes, hR, hk => by
    rw [readPayloads, bind_assoc]
    refine phased_readRingBlock (hw.pending.trans hp) hsb (hw.size.trans hsize) (hes e List.mem_cons_self) hK
      fun v hv => ?_
    rw [hw.durable, bind_assoc]
    refine phased_ofExcept (fun f hf => ⟨hK, hR f ?_⟩) fun _ hf => ?_
    · simp only [collectPayloads, hf]
      rfl
    · have hstep : collectPayloads sb w.durable (e :: es) m = collectPayloads sb w.durable es
          (m.insertIfNew e.homeBlock.toNat (w.durable (sb.ringBlock e.payloadRingIndex.toNat))) := by
        simp only [collectPayloads, hf]
        rfl
      rw [hstep] at hR hk
      exact phased_readPayloads hp hsb hsize hK (hw.trans hv) (fun e' he' => hes e' (List.mem_cons_of_mem _ he'))
        hR hk

end Reading

/-! ## Opening -/

/-- Opening a file of `n` blocks that holds `d` finds this superblock and selects this control. -/
structure Opens (n : ℕ) (d : Image) (sb : Superblock) (c : JournalControl) (copy : ControlCopy) : Prop where
  superblock : decodeSuperblock (d 0) = .ok sb
  features : sb.featureIncompat &&& ~~~ kSupportedFeatureIncompat = 0
  size : n = sb.totalBlocks.toNat
  selected : selectControl (d (sb.controlBlock .kA)) (d (sb.controlBlock .kB)) sb.filesystemUuid sb.ringBlocks =
    .ok (c, copy)

section Opening

variable {n : ℕ} {d : Image} {sb : Superblock} {c : JournalControl} {copy : ControlCopy}

section

variable (h : Opens n d sb c copy)

include h

theorem Opens.regions : sb.Regions := decodeSuperblock_valid h.superblock

theorem Opens.inj {sb' : Superblock} {c' : JournalControl} {copy' : ControlCopy} (h' : Opens n d sb' c' copy') :
    sb' = sb ∧ c' = c ∧ copy' = copy := by
  obtain rfl : sb' = sb := Except.ok.inj (h'.superblock.symm.trans h.superblock)
  exact ⟨rfl, by simpa using Except.ok.inj (h'.selected.symm.trans h.selected)⟩

theorem Opens.usable : usableControl sb.filesystemUuid sb.ringBlocks (d (sb.controlBlock copy)) = some c := by
  have := (selectControl_usable h.selected).2
  cases copy <;> exact this

theorem Opens.valid : c.Valid := decodeControl_valid (usableControl_eq_some.mp h.usable).1

theorem Opens.uuid : c.filesystemUuid = sb.filesystemUuid :=
  (usableControl_eq_some.mp h.usable).2.1

theorem Opens.ring : c.ringBlocks.toNat = sb.ringBlocks :=
  (usableControl_eq_some.mp h.usable).2.2

theorem Opens.storeOk : StoreOk (.fresh sb c copy) := ⟨h.regions, h.valid, h.uuid, h.ring⟩

end

variable {τ γ : Type} {t : τ} {w : Disk} {L K : τ → Prop} {R : Failure → Prop} {Q : γ → τ → Prop}
  {ps : List (List (Write Block Op))}

/-- Opening writes nothing, and without a failed call it fails only on an image that does not open. -/
theorem phased_adoptLockedFd {k : JournalControlStore → Io τ γ} (hp : w.pending = []) (hK : K t)
    (hR : (∀ sb c copy, ¬ Opens w.size w.durable sb c copy) → ∀ e, R e)
    (h : ∀ sb c copy w', w.Same w' → Opens w.size w.durable sb c copy →
      Phased L (k (.fresh sb c copy)) t w' ps Q K R) :
    Phased L (adoptLockedFd >>= k) t w ps Q K R := by
  unfold adoptLockedFd
  rw [bind_assoc]
  refine phased_syscall Op.text hp hK fun w₁ hw₁ => ?_
  unfold loadControlStateFromFd
  simp only [bind_assoc]
  refine phased_syscall Op.text (hw₁.pending.trans hp) hK fun w₂ hw₂ => ?_
  have h2 := hw₁.trans hw₂
  refine phased_fileSize ?_
  rw [h2.size]
  refine phased_failIf (fun hc => ⟨hK, hR (fun sb c copy ho => ?_) _⟩) fun hsize => ?_
  · have h3 := ho.regions.journal_stop_lt
    have h4 := ho.size
    omega
  refine phased_preadAll Op.text (h2.pending.trans hp) (by rw [h2.size]; omega) hK fun w₃ hw₃ => ?_
  rw [h2.durable]
  refine phased_ofExcept (fun e he => ⟨hK, hR (fun sb c copy ho => ?_) _⟩) fun sb hsb => ?_
  · rw [ho.superblock] at he
    cases he
  have hsb' := orFail_eq_ok.mp hsb
  have hone : ∀ {sb' c copy}, Opens w.size w.durable sb' c copy → sb' = sb := fun ho =>
    Except.ok.inj (ho.superblock.symm.trans hsb')
  refine phased_failIf (fun hc => ⟨hK, hR (fun sb' c copy ho => ?_) _⟩) fun hf => ?_
  · obtain rfl := hone ho
    exact hc ho.features
  refine phased_failIf (fun hc => ⟨hK, hR (fun sb' c copy ho => ?_) _⟩) fun hs => ?_
  · obtain rfl := hone ho
    exact hc ho.size.symm
  have h3 := h2.trans hw₃
  have hreg := decodeSuperblock_valid hsb'
  have hlt : ∀ copy, sb.controlBlock copy < w.size := fun copy =>
    (hreg.controlBlock_lt_total copy).trans_eq (not_not.mp hs)
  refine phased_preadAll Op.text (h3.pending.trans hp) (by rw [h3.size]; exact hlt _) hK fun w₄ hw₄ => ?_
  have h4 := h3.trans hw₄
  refine phased_preadAll Op.text (h4.pending.trans hp) (by rw [h4.size]; exact hlt _) hK fun w₅ hw₅ => ?_
  rw [h3.durable, h4.durable]
  refine phased_ofExcept (fun e he => ⟨hK, hR (fun sb' c copy ho => ?_) _⟩) fun sel hsel => ?_
  · obtain rfl := hone ho
    rw [ho.selected] at he
    cases he
  exact h sb sel.1 sel.2 w₅ (h4.trans hw₅) ⟨hsb', not_not.mp hf, (not_not.mp hs).symm, orFail_eq_ok.mp hsel⟩

end Opening

/-! ## Recovery -/

/-- The store without the transaction a former classification found. -/
def JournalControlStore.forget (s : JournalControlStore) : JournalControlStore :=
  { s with validatedTransaction := none }

/-- What classification leaves: the decision, and a store that keeps a committed transaction. -/
inductive Classified (s : JournalControlStore) (d : Image) : RecoveryState → JournalControlStore → Prop
  | empty (h : s.current.usedBlocks = 0) : Classified s d .kEmpty s.forget
  | uncommitted {v : ValidatedTransaction} (h : s.current.usedBlocks ≠ 0)
      (hv : classify s.superblock s.current d = .ok (false, v)) : Classified s d .kUncommitted s.forget
  | committed {v : ValidatedTransaction} (h : s.current.usedBlocks ≠ 0)
      (hv : classify s.superblock s.current d = .ok (true, v)) :
      Classified s d .kCommitted { s with validatedTransaction := some v }

/-- The batches of a recovery. -/
def recoveryBatches (sb : Superblock) (c : JournalControl) (copy : ControlCopy) (d : Image) :
    List (List (Write Block Op)) :=
  if c.usedBlocks = 0 then [] else
    match classify sb c d with
    | .error _ => []
    | .ok (false, _) => [[controlWrite sb copy.other (cleanControl c)]]
    | .ok (true, v) =>
      [homeWrites .recoveryHome v.metadataAfterImages, [controlWrite sb copy.other (cleanControl c)]]

/-- What a successful recovery leaves. -/
inductive Resolved (s : JournalControlStore) (d : Image) : RecoveryAction → JournalControlStore → Prop
  | noAction (h : s.current.usedBlocks = 0) : Resolved s d .kNoAction s.forget
  | discarded {v : ValidatedTransaction} (h : s.current.usedBlocks ≠ 0)
      (hv : classify s.superblock s.current d = .ok (false, v)) : Resolved s d .kDiscarded
        { s.forget with current := cleanControl s.current, currentCopy := s.currentCopy.other }
  | replayed {v : ValidatedTransaction} (h : s.current.usedBlocks ≠ 0)
      (hv : classify s.superblock s.current d = .ok (true, v)) : Resolved s d .kReplayedAndCheckpointed
        { s.forget with current := cleanControl s.current, currentCopy := s.currentCopy.other }

section Recovery

variable {s : JournalControlStore} {w : Disk} {R : Failure → Prop}

/-- The entries of an accepted descriptor lie in the ring. -/
theorem DescriptorOf.payload_lt (h : DescriptorOf sb c d) (hc : c.Valid)
    (hring : c.ringBlocks.toNat = sb.ringBlocks) :
    ∀ e ∈ d.entries, e.payloadRingIndex.toNat < sb.ringBlocks := by
  intro e he
  obtain ⟨j, hj⟩ := List.mem_iff_getElem?.mp he
  have hpos := hc.ring
  rw [(h.entries j e hj).1, ← hring]
  exact advance_lt (by omega)

theorem phased_classifyRecovery (hp : w.pending = []) (hs : StoreOk s)
    (hsize : w.size = s.superblock.totalBlocks.toNat) (hl : s.reloadRequired = false)
    (hR : s.current.usedBlocks ≠ 0 → ∀ e, classify s.superblock s.current w.durable = .error e → R e) :
    Phased Latched classifyRecovery s w [] (Classified s w.durable) (fun s' => s' = s.forget) R := by
  have hpos := hs.valid.ring
  have hlt : ∀ i, (advance s.current.tail i s.current.ringBlocks).toNat < s.superblock.ringBlocks := fun i => by
    rw [← hs.ring]
    exact advance_lt (by omega)
  unfold classifyRecovery
  refine phased_modify (phased_get (phased_failIf (fun h => absurd h (by simp [hl])) fun _ => ?_))
  show Phased Latched (if s.current.usedBlocks = 0 then _ else _) s.forget w [] _ _ _
  split_ifs with hu
  · exact phased_pure hp (.empty hu)
  -- from here on every refusal is the one `classify` makes at the same place
  have hR' := hR hu
  refine phased_failIf (fun h => ⟨rfl, hR' _ ?_⟩) fun h0 => ?_
  · simp only [classify, reject, if_pos (show s.current.nextTransactionId.toNat ≤ 1 from h)]
    rfl
  have h0' : reject (s.current.nextTransactionId.toNat ≤ 1)
      (corrupt "nonempty journal control has no preceding transaction id") = .ok () :=
    reject_eq_ok.mpr h0
  refine phased_readRingBlock hp hs.regions hsize (by rw [← hs.ring]; exact hs.valid.tail_lt) rfl fun w₁ hw₁ => ?_
  refine phased_ofExcept (fun e he => ⟨rfl, hR' e ?_⟩) fun desc hdesc => ?_
  · simp only [classify, exposedBody, h0', ok_bind]
    rw [show checkDescriptor _ _ _ = _ from he]
    rfl
  have hdo := (checkDescriptor_eq_ok.mp hdesc).2
  refine phased_readPayloads (K := fun s' => s' = s.forget) (hw₁.pending.trans hp) hs.regions
    (hw₁.size.trans hsize) rfl (World.Same.refl w₁)
    (hdo.payload_lt hs.valid hs.ring) (fun e he => hR' e ?_) fun m w₂ hw₂ hm => ?_
  · rw [hw₁.durable] at he
    simp only [classify, exposedBody, h0', ok_bind]
    rw [show checkDescriptor _ _ _ = _ from hdesc, ok_bind, he]
    rfl
  rw [hw₁.durable] at hm
  have hbody : exposedBody s.superblock s.current w.durable = .ok (desc, m) := by
    unfold exposedBody
    rw [show checkDescriptor _ _ _ = _ from hdesc, ok_bind, hm]
    rfl
  have h2 := hw₁.trans hw₂
  refine phased_readRingBlock (h2.pending.trans hp) hs.regions (h2.size.trans hsize) (hlt _) rfl fun w₃ hw₃ => ?_
  rw [h2.durable]
  refine phased_ofExcept (fun e he => ⟨rfl, hR' e ?_⟩) fun b hb => ?_
  · simp only [classify, h0', ok_bind, hbody]
    rw [show checkCommit _ _ _ = _ from he]
    rfl
  have hcl : classify s.superblock s.current w.durable = .ok (b, candidate s.current desc m) :=
    classify_eq_ok.mpr ⟨not_le.mp h0, desc, m, hbody, hb, rfl⟩
  have hp3 := (h2.trans hw₃).pending.trans hp
  cases b with
  | true => exact phased_modify (phased_pure hp3 (.committed hu hcl))
  | false => exact phased_pure hp3 (.uncommitted hu hcl)

theorem classify_targets {d : Image} {b : Bool} (h : classify sb c d = .ok (b, v)) :
    ∀ p ∈ v.metadataAfterImages.toList, isValidMetadataTarget sb p.1 := by
  obtain ⟨-, desc, m, hbody, -, rfl⟩ := classify_eq_ok.mp h
  exact fun p hp => exposedBody_targets hbody p.1 (mem_of_mem_toList hp)

theorem phased_replayValidated (hp : w.pending = []) (hs : StoreOk s) (hl : s.reloadRequired = false)
    (hv : s.validatedTransaction = some v)
    (ht : ∀ p ∈ v.metadataAfterImages.toList, isValidMetadataTarget s.superblock p.1) :
    Phased Latched (replayValidated (cleanControl s.current)) s w
      [homeWrites .recoveryHome v.metadataAfterImages,
        [controlWrite s.superblock s.currentCopy.other (cleanControl s.current)]]
      (fun a s' => a = .kReplayedAndCheckpointed ∧
        s' = { s.forget with current := cleanControl s.current, currentCopy := s.currentCopy.other })
      (fun _ => False) R := by
  unfold replayValidated
  refine phased_get ?_
  split
  · next h => exact absurd (h.symm.trans hv) (by simp)
  · next v' h =>
    obtain rfl := Option.some.inj (h.symm.trans hv)
    refine InBatch.phased (inBatch_forEach (g := fun p => ⟨.recoveryHome, p.1, p.2⟩)
      (fun p hp' => Issues.after_failIf (issues_recoveryWrite _ _) (not_not.mpr (ht p hp')))
      (Issued.refl w) hp (List.Subset.refl _) fun u hu => ?_)
    refine inBatch_sync (syncs_storeSync _) hu hp fun u' hu' => ?_
    refine Phased.bind (phased_persistNext hu'.pending hs hl (succeeds_cleanControl hs.valid)) ?_
    rintro - s' w' rfl hw'
    exact phased_modify (phased_pure hw'.pending ⟨rfl, rfl⟩)

theorem phased_resolveRecovery (hp : w.pending = []) (hs : StoreOk s)
    (hsize : w.size = s.superblock.totalBlocks.toNat) (hl : s.reloadRequired = false)
    (hb : s.durableBody = none) (hc : s.commitDurable = false)
    (hR : s.current.usedBlocks ≠ 0 → ∀ e, classify s.superblock s.current w.durable = .error e → R e) :
    Phased Latched resolveRecovery s w (recoveryBatches s.superblock s.current s.currentCopy w.durable)
      (Resolved s w.durable) (fun s' => s' = s.forget) R := by
  unfold resolveRecovery
  refine phased_get (phased_failIf (fun h => absurd h (by simp [hl])) fun _ => ?_)
  refine phased_failIf (fun h => absurd h (by simp [hb, hc])) fun _ => ?_
  refine Phased.after hp (phased_classifyRecovery hp hs hsize hl hR) fun state s' w' hst hw' => ?_
  have hp' := hw'.pending.trans hp
  have hs' : ∀ v, StoreOk { s with validatedTransaction := v } :=
    fun v => ⟨hs.regions, hs.valid, hs.uuid, hs.ring⟩
  unfold recoveryBatches
  cases hst with
  | empty h =>
    rw [if_pos h]
    exact phased_pure hp' (.noAction h)
  | uncommitted h hv =>
    rw [if_neg h, hv]
    have hpersist := phased_persistNext (s := s.forget) (R := R) hp' (hs' none) hl (succeeds_cleanControl hs.valid)
    refine Phased.bind (hpersist.mono (fun _ _ h => h) (fun _ h => h.elim) (fun _ h => h)) ?_
    rintro - s'' w'' rfl hw''
    exact phased_modify (phased_pure hw''.pending (.discarded h hv))
  | @committed v h hv =>
    rw [if_neg h, hv]
    refine (phased_replayValidated hp' (hs' (some v)) hl rfl (classify_targets hv)).mono ?_
      (fun _ h => h.elim) (fun _ h => h)
    rintro a s'' ⟨rfl, rfl⟩
    exact .replayed h hv

theorem phased_openAndResolve {τ : Type} {t : τ} {L K : τ → Prop} {copy : ControlCopy} (hp : w.pending = [])
    (ho : Opens w.size w.durable sb c copy) (hL : L t) (hK : K t)
    (hR : c.usedBlocks ≠ 0 → ∀ e, classify sb c w.durable = .error e → R e) :
    Phased L openAndResolve t w (recoveryBatches sb c copy w.durable)
      (fun r t' => Resolved (.fresh sb c copy) w.durable r.1 r.2 ∧ t' = t) K R := by
  unfold openAndResolve
  refine phased_adoptLockedFd hp hK (fun h => absurd ho (h _ _ _)) fun sb' c' copy' w' hw' ho' => ?_
  obtain ⟨rfl, rfl, rfl⟩ := ho.inj ho'
  have := phased_resolveRecovery (s := .fresh sb' c' copy') (R := R) (hw'.pending.trans hp) ho.storeOk
    (hw'.size.trans ho.size) rfl rfl rfl (by rw [hw'.durable]; exact hR)
  rw [hw'.durable] at this
  exact phased_withState this hL hK

end Recovery

/-! ## A whole transaction -/

/-- The batches of a transaction after the clean control `c`, whose copy is `copy`. -/
def txnBatches (sb : Superblock) (c : JournalControl) (copy : ControlCopy) (ordered metadata : BlockMap) :
    List (List (Write Block Op)) :=
  (orderedBatches ordered ++ [bodyWrites sb c metadata]) ++
    ([[controlWrite sb copy.other (reservation c metadata.size).exposedControl]] ++
      ([[commitWrite sb (txnBody sb c metadata)]] ++
        [homeWrites .home metadata,
          [controlWrite sb copy (cleanControl (reservation c metadata.size).exposedControl)]]))

/-- The batches up to the COMMIT. -/
def commitBatches (sb : Superblock) (c : JournalControl) (copy : ControlCopy) (ordered metadata : BlockMap) :
    List (List (Write Block Op)) :=
  (orderedBatches ordered ++ [bodyWrites sb c metadata]) ++
    ([[controlWrite sb copy.other (reservation c metadata.size).exposedControl]] ++
      [[commitWrite sb (txnBody sb c metadata)]])

theorem txnBatches_eq {copy : ControlCopy} {ordered metadata : BlockMap} :
    txnBatches sb c copy ordered metadata = commitBatches sb c copy ordered metadata ++
      [homeWrites .home metadata,
        [controlWrite sb copy (cleanControl (reservation c metadata.size).exposedControl)]] := by
  unfold txnBatches commitBatches
  simp only [List.append_assoc]

/-- The methods of a transaction up to the sync of its COMMIT. -/
def commitTransaction (totalBlocks : UInt32) (uuid : Uuid) (before ordered metadata : BlockMap) :
    Io JournalControlStore Unit := do
  let _ ← writeOrderedDataAndUnexposedBody totalBlocks uuid before ordered metadata
  exposeDurableBody
  writeCommit

/-- The executor is this part and the completion, in a store that just opened the file. -/
theorem executeJournalTransaction_eq {before ordered metadata : BlockMap} {totalBlocks : UInt32} {uuid : Uuid} :
    executeJournalTransaction before ordered metadata totalBlocks uuid = (do
      modify fun _ => false
      syscall Op.text .duplicateFd
      modify fun _ => true
      let store ← adoptLockedFd
      let _ ← withState store do
        commitTransaction totalBlocks uuid before ordered metadata
        completeCommittedTransaction
      modify fun _ => false) := by
  unfold executeJournalTransaction commitTransaction
  simp only [bind_assoc]

section Transaction

variable {w : Disk} {R : Failure → Prop} {sb : Superblock} {c : JournalControl} {copy : ControlCopy}
  {n : UInt32} {u : Uuid} {before ordered metadata : BlockMap}

theorem txnCommit_fields (h : Reservable c metadata.size) :
    ¬ (commitRecord sb (txnBody sb c metadata)).fieldsInvalid := by
  have h1 := h.pos
  have h2 := h.entries
  have h3 : (UInt32.ofNat metadata.size).toNat = metadata.size := by
    rw [UInt32.toNat_ofNat']
    omega
  rintro (h0 | h0 | h0 | h0)
  · exact h.valid.next (by rw [show c.nextTransactionId = 0 from h0]; rfl)
  · rw [show UInt32.ofNat metadata.size = 0 from h0] at h3
    have : (0 : UInt32).toNat = 0 := rfl
    omega
  · exact absurd h2 (not_le.mpr (h3 ▸ h0))
  · exact h0 rfl

/-- The store while the transaction that writes `metadata` after the clean control `c` is in progress. -/
structure InTxn (sb : Superblock) (c : JournalControl) (metadata : BlockMap) (current : JournalControl)
    (copy : ControlCopy) (committed : Bool) (s : JournalControlStore) : Prop where
  superblock : s.superblock = sb
  current : s.current = current
  currentCopy : s.currentCopy = copy
  body : s.durableBody = some (txnBody sb c metadata)
  images : s.metadataAfterImages = metadata
  commit : s.commitDurable = committed
  checkpointed : s.checkpointed = false
  reload : s.reloadRequired = false

section Stages

variable {s : JournalControlStore}

theorem InTxn.expose (h : InTxn sb c metadata c copy false s) (hp : w.pending = []) (hs : StoreOk s)
    (hres : Reservable c metadata.size) :
    Phased Latched exposeDurableBody s w [[controlWrite sb copy.other (reservation c metadata.size).exposedControl]]
      (fun _ s' => InTxn sb c metadata (reservation c metadata.size).exposedControl copy.other false s' ∧ StoreOk s')
      (fun _ => False) R := by
  have hn : Succeeds s (reservation c metadata.size).exposedControl := by
    have := succeeds_exposedControl (s := s) (n := metadata.size) (by rw [h.current]; exact hres)
    rwa [h.current] at this
  have := phased_exposeDurableBody (R := R) hp hs h.reload (by rw [h.current]; exact hres.clean) h.body hn
  rw [h.superblock, h.currentCopy] at this
  refine this.mono ?_ (fun _ h => h) (fun _ h => h)
  rintro - s' rfl
  refine ⟨⟨rfl, rfl, rfl, h.body, h.images, h.commit, h.checkpointed, h.reload⟩, ?_⟩
  have huuid := hs.uuid
  have hring := hs.ring
  rw [h.superblock, h.current] at huuid hring
  exact ⟨h.superblock ▸ hs.regions, hres.exposed_valid, huuid, hring⟩

theorem InTxn.commits (h : InTxn sb c metadata (reservation c metadata.size).exposedControl copy false s)
    (hp : w.pending = []) (hs : StoreOk s) (hres : Reservable c metadata.size) :
    Phased Latched writeCommit s w [[commitWrite sb (txnBody sb c metadata)]]
      (fun _ s' => InTxn sb c metadata (reservation c metadata.size).exposedControl copy true s' ∧ StoreOk s')
      (fun _ => False) R := by
  have hpos := hres.valid.ring
  have hlt : (txnBody sb c metadata).reservation.commitRingIndex.toNat < s.superblock.ringBlocks := by
    have h1 := hs.ring
    rw [h.current] at h1
    exact (show (advance c.head _ c.ringBlocks).toNat < _ from advance_lt (by omega)).trans_eq h1
  have := phased_writeCommit (R := R) hp hs h.reload h.body h.commit h.current
    (by rw [h.superblock]; exact txnCommit_fields hres) hlt
  rw [h.superblock] at this
  refine this.mono ?_ (fun _ h => h) (fun _ h => h)
  rintro - s' rfl
  exact ⟨⟨rfl, h.current, h.currentCopy, h.body, h.images, rfl, h.checkpointed, h.reload⟩,
    ⟨h.superblock ▸ hs.regions, hs.valid, h.superblock ▸ hs.uuid, h.superblock ▸ hs.ring⟩⟩

theorem InTxn.completes (h : InTxn sb c metadata (reservation c metadata.size).exposedControl copy true s)
    (hp : w.pending = []) (hs : StoreOk s) (hres : Reservable c metadata.size)
    (ht : ∀ p ∈ metadata.toList, isValidMetadataTarget sb p.1) :
    Phased Latched completeCommittedTransaction s w
      [homeWrites .home metadata,
        [controlWrite sb copy.other (cleanControl (reservation c metadata.size).exposedControl)]]
      (fun _ s' => s' = { s with superblock := sb
                                 current := cleanControl (reservation c metadata.size).exposedControl
                                 currentCopy := copy.other, metadataAfterImages := metadata, checkpointed := true })
      (fun _ => False) R := by
  have := phased_completeCommittedTransaction (R := R) hp hs h.reload (by rw [h.body]; rfl) h.commit
    (by rw [h.images]; exact not_isEmpty_of_size_pos hres.pos) h.checkpointed
    (by rw [h.images, h.superblock]; exact ht)
  rwa [h.superblock, h.currentCopy, h.images, h.current] at this

end Stages

theorem phased_commitTransaction (hp : w.pending = []) (ho : Opens w.size w.durable sb c copy)
    (hps : TxnAccepted (.fresh sb c copy) w.durable n u before ordered metadata →
      ps = commitBatches sb c copy ordered metadata)
    (hR : ¬ TxnAccepted (.fresh sb c copy) w.durable n u before ordered metadata → ∀ e, R e) :
    Phased Latched (commitTransaction n u before ordered metadata) (.fresh sb c copy) w ps
      (fun _ s' => TxnAccepted (.fresh sb c copy) w.durable n u before ordered metadata ∧
        InTxn sb c metadata (reservation c metadata.size).exposedControl copy.other true s' ∧ StoreOk s')
      (fun s' => s' = .fresh sb c copy) R := by
  have hs := ho.storeOk
  by_cases hacc : TxnAccepted (.fresh sb c copy) w.durable n u before ordered metadata
  swap
  · refine Phased.after hp (phased_writeOrderedDataAndUnexposedBody hp hs ho.size (fun h => absurd h hacc) hR) ?_
    exact fun b s₁ w₁ h _ => absurd h.1 hacc
  rw [hps hacc]
  refine Phased.bind (phased_writeOrderedDataAndUnexposedBody hp hs ho.size (fun _ => rfl) hR) ?_
  rintro b s₁ w₁ ⟨-, -, h₁⟩ hw₁
  have hres : Reservable c metadata.size := hacc.plan
  have hin : InTxn sb c metadata c copy false s₁ := by
    rw [h₁]
    exact ⟨rfl, rfl, rfl, rfl, rfl, rfl, rfl, rfl⟩
  have hs₁ : StoreOk s₁ := by
    rw [h₁]
    exact ⟨hs.regions, hs.valid, hs.uuid, hs.ring⟩
  refine Phased.bind (hin.expose hw₁.pending hs₁ hres) ?_
  rintro - s₂ w₂ ⟨hin₂, hs₂⟩ hw₂
  exact (hin₂.commits hw₂.pending hs₂ hres).mono (fun _ _ h => ⟨hacc, h⟩) (fun _ h => h) (fun _ h => h)

theorem phased_transaction (hp : w.pending = []) (ho : Opens w.size w.durable sb c copy)
    (hps : TxnAccepted (.fresh sb c copy) w.durable n u before ordered metadata →
      ps = txnBatches sb c copy ordered metadata)
    (hR : ¬ TxnAccepted (.fresh sb c copy) w.durable n u before ordered metadata → ∀ e, R e) :
    Phased Latched (do
        commitTransaction n u before ordered metadata
        completeCommittedTransaction) (.fresh sb c copy) w ps
      (fun _ _ => TxnAccepted (.fresh sb c copy) w.durable n u before ordered metadata)
      (fun s' => s' = .fresh sb c copy) R := by
  by_cases hacc : TxnAccepted (.fresh sb c copy) w.durable n u before ordered metadata
  swap
  · refine Phased.after hp (phased_commitTransaction hp ho (fun h => absurd h hacc) hR) ?_
    exact fun b s₁ w₁ h _ => absurd h.1 hacc
  rw [hps hacc, txnBatches_eq]
  refine Phased.bind (phased_commitTransaction hp ho (fun _ => rfl) hR) ?_
  rintro - s₁ w₁ ⟨-, hin₁, hs₁⟩ hw₁
  have := hin₁.completes (R := fun _ => False) hw₁.pending hs₁ hacc.plan fun p hp' => (hacc.maps.targets p hp').1
  rw [ControlCopy.other_other] at this
  exact this.mono (fun _ _ _ => hacc) (fun _ h => h) (fun _ h => h)

/-- A transaction through the executor on a file that opens. -/
theorem phased_executeJournalTransaction {t : Bool} (hp : w.pending = []) (ho : Opens w.size w.durable sb c copy)
    (hps : TxnAccepted (.fresh sb c copy) w.durable n u before ordered metadata →
      ps = txnBatches sb c copy ordered metadata)
    (hR : ¬ TxnAccepted (.fresh sb c copy) w.durable n u before ordered metadata → ∀ e, R e) :
    Phased (fun t => t = true) (executeJournalTransaction before ordered metadata n u) t w ps
      (fun _ t' => TxnAccepted (.fresh sb c copy) w.durable n u before ordered metadata ∧ t' = false)
      (fun _ => True) R := by
  rw [executeJournalTransaction_eq]
  refine phased_modify (phased_syscall Op.text hp trivial fun w₁ hw₁ => phased_modify ?_)
  refine phased_adoptLockedFd (hw₁.pending.trans hp) trivial (fun h => ?_) fun sb' c' copy' w₂ hw₂ ho' => ?_
  · rw [hw₁.size, hw₁.durable] at h
    exact absurd ho (h _ _ _)
  rw [hw₁.size, hw₁.durable] at ho'
  obtain ⟨rfl, rfl, rfl⟩ := ho.inj ho'
  have h2 := hw₁.trans hw₂
  have hps' : TxnAccepted (.fresh sb' c' copy') w₂.durable n u before ordered metadata →
      ps = txnBatches sb' c' copy' ordered metadata := by
    rw [h2.durable]
    exact hps
  have htxn := phased_transaction (R := R) (h2.pending.trans hp) (by rw [h2.size, h2.durable]; exact ho) hps'
    (by rw [h2.durable]; exact hR)
  rw [h2.durable] at htxn
  have := phased_withState (L := fun t => t = true) (K := fun _ => True) (t := true) htxn rfl trivial
  rw [← List.append_nil ps]
  refine Phased.bind this ?_
  rintro a t' w₃ ⟨h, -⟩ hw₃
  exact phased_modify_end hw₃.pending ⟨h, rfl⟩

end Transaction

end Eufs
