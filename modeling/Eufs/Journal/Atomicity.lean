import Eufs.Journal.Ordering
import Eufs.Journal.Progress

/-!
# Eufs.Journal.Atomicity — crashes of transactions and of recovery

An image exposes nothing (`Idle`) or the body of a transaction (`Exposed`), whatever crash it comes from.  The lemmas of
this file say where the batches of a transaction and of a recovery lead from either, when they are written completely
and when the machine stops among them.

What recovery makes of an exposed body depends on the block it finds in the slot of the COMMIT, and that block may come
from anywhere: formatting does not clear the ring, and a body may hold any bytes.  But the body itself is durable before
it is exposed, and recovery can bring home nothing else.  So a transaction and the recoveries after it leave the image
before or the image after (`Pending`), also where they end with an error.  Without a COMMIT in the ring that has an id
still to be used (`Guarded`) there is no such error.
-/

namespace Eufs

open Prog Superblock Std.ExtTreeMap Crashes

/-! ## States of an image -/

/-- The superblock is the one of this file system. -/
structure Mounts (n : ℕ) (d : Image) (sb : Superblock) : Prop where
  superblock : decodeSuperblock (d 0) = .ok sb
  features : sb.featureIncompat &&& ~~~ kSupportedFeatureIncompat = 0
  size : n = sb.totalBlocks.toNat

/-- The control that exposes a body written after `c`. -/
abbrev exposing (c : JournalControl) (metadata : BlockMap) : JournalControl :=
  (reservation c metadata.size).exposedControl

/-- The control that ends a transaction. -/
abbrev closing (c : JournalControl) (metadata : BlockMap) : JournalControl := cleanControl (exposing c metadata)

/-- Nothing is exposed; the ring may hold anything. -/
structure Idle (n : ℕ) (sb : Superblock) (c : JournalControl) (copy : ControlCopy) (d : Image) : Prop where
  mounts : Mounts n d sb
  controls : Controls sb d c copy
  used : c.usedBlocks = 0

/-- The body of a transaction is exposed. -/
structure Exposed (n : ℕ) (sb : Superblock) (c : JournalControl) (copy : ControlCopy) (metadata : BlockMap)
    (d : Image) : Prop where
  mounts : Mounts n d sb
  controls : Controls sb d (exposing c metadata) copy
  txn : Txn sb c metadata
  holds : HoldsBody sb c metadata d

/-- No COMMIT in the ring has an id still to be used, and what is exposed is found committed or uncommitted. -/
def Guarded (n : ℕ) (sb : Superblock) (d : Image) : Prop :=
  ∃ c copy, Opens n d sb c copy ∧ CommitsBelow sb d c.nextTransactionId.toNat ∧
    (c.usedBlocks ≠ 0 → ∃ r, classify sb c d = .ok r)

/-- The blocks outside the journal are the same in both images. -/
def KeepsOutside (sb : Superblock) (d d' : Image) : Prop := ∀ a, ¬ blockIsInRegion a sb.journal → d' a = d a

section States

variable {n : ℕ} {sb : Superblock} {c next : JournalControl} {copy copy' : ControlCopy} {metadata : BlockMap}
  {d d' img : Image} {B : List (Write Block Op)} {T : ℕ → Block → Block → Prop}

theorem Mounts.regions (h : Mounts n d sb) : sb.Regions := decodeSuperblock_valid h.superblock

theorem Mounts.opens (h : Mounts n d sb) (hc : Controls sb d c copy) : Opens n d sb c copy :=
  ⟨h.superblock, h.features, h.size, hc.selected⟩

theorem Mounts.keep (h : Mounts n d sb) (h0 : d' 0 = d 0) : Mounts n d' sb :=
  ⟨by rw [h0]; exact h.superblock, h.features, h.size⟩

theorem Superblock.Regions.zero_not_mem (h : sb.Regions) : ¬ blockIsInRegion 0 sb.journal := by
  have := h.journal_start_pos
  simp only [Region.blockIsInRegion]
  omega

/-! ### Frames of a crash -/

/-- What a crash among writes outside the journal leaves alone. -/
theorem Outside.crash (h : Outside sb B) (hsb : sb.Regions) (hc : Crashes T d B img) :
    KeepsControls sb d img ∧ KeepsRing sb d img := by
  refine ⟨⟨hc.of_not_mem fun p hp => (h p hp).1, fun copy => hc.of_not_mem fun p hp he => ?_⟩,
    fun i hi => hc.of_not_mem fun p hp he => ?_⟩
  · exact (h p hp).2 (he ▸ hsb.controlBlock_mem copy)
  · exact (h p hp).2 (he ▸ hsb.ringBlock_mem hi)

theorem InRing.crash (h : InRing sb B) (hsb : sb.Regions) (hc : Crashes T d B img) :
    KeepsControls sb d img ∧ KeepsOutside sb d img := by
  have hout : KeepsOutside sb d img := fun a ha =>
    hc.of_not_mem fun p hp he => by
      obtain ⟨i, hi, hpi⟩ := h p hp
      exact ha (he ▸ hpi ▸ hsb.ringBlock_mem hi)
  refine ⟨⟨hout 0 hsb.zero_not_mem, fun copy => hc.of_not_mem fun p hp he => ?_⟩, hout⟩
  obtain ⟨i, -, hpi⟩ := h p hp
  exact controlBlock_ne_ringBlock (he.symm.trans hpi)

/-- What a crash while a control is written leaves alone. -/
theorem crash_control_frame (hsb : sb.Regions) (hc : Crashes (Torn sb) d [controlWrite sb copy next] img) :
    KeepsRing sb d img ∧ KeepsOutside sb d img := by
  obtain ⟨hrest, -⟩ := crash_controlWrite hsb hc
  exact ⟨fun i _ => hrest _ fun he => controlBlock_ne_ringBlock he.symm,
    fun a ha => hrest a fun he => ha (he ▸ hsb.controlBlock_mem copy)⟩

theorem CommitsBelow.keep {t : ℕ} (h : CommitsBelow sb d t) (hd : KeepsRing sb d d') : CommitsBelow sb d' t :=
  h.of_slots fun i hi => Or.inl (hd i hi)

theorem Txn.valid (h : Txn sb c metadata) : c.Valid := h.plan.valid

theorem Txn.exposing_used (h : Txn sb c metadata) : (exposing c metadata).usedBlocks ≠ 0 := h.plan.exposed_used

theorem hasSameIdentity_exposing : hasSameIdentity c (exposing c metadata) := ⟨rfl, rfl, rfl, rfl, rfl, rfl⟩

theorem hasSameIdentity_closing : hasSameIdentity (exposing c metadata) (closing c metadata) :=
  ⟨rfl, rfl, rfl, rfl, rfl, rfl⟩

theorem Txn.closing_valid (h : Txn sb c metadata) : (closing c metadata).Valid :=
  cleanControl_valid h.plan.exposed_valid

theorem Txn.exposing_next (h : Txn sb c metadata) :
    (exposing c metadata).nextTransactionId.toNat = c.nextTransactionId.toNat + 1 := h.plan.next_toNat

/-! ### Batches of a transaction and of a recovery -/

theorem Idle.opens (h : Idle n sb c copy d) : Opens n d sb c copy := h.mounts.opens h.controls

theorem Idle.keep {d' : Image} (h : Idle n sb c copy d) (hk : KeepsControls sb d d') : Idle n sb c copy d' :=
  ⟨h.mounts.keep hk.superblock, h.controls.congr hk.control, h.used⟩

theorem noCommit_bodyWrites (hr : Reservable c metadata.size) (hno : ∀ p ∈ metadata.toList, NoCommit p.2)
    {p : Write Block Op} (hp : p ∈ bodyWrites sb c metadata) : NoCommit p.data := by
  rcases List.mem_cons.mp hp with rfl | hp
  · exact noCommit_descriptorBytes (by rw [length_txnDescriptor]; exact hr.entries)
  · obtain ⟨q, hq, rfl⟩ := List.mem_map.mp hp
    exact hno q.1 (List.of_mem_zip hq).1

theorem Idle.body_crash (h : Idle n sb c copy d) (ht : Txn sb c metadata)
    (hc : Crashes (Torn sb) d (bodyWrites sb c metadata) img) : Idle n sb c copy img ∧ KeepsOutside sb d img := by
  obtain ⟨hk, hout⟩ := (inRing_bodyWrites ht.valid ht.ring).crash h.mounts.regions hc
  exact ⟨h.keep hk, hout⟩

/-- After-images that are no COMMITs do not count. -/
theorem CommitsBelow.body_crash {t : ℕ} (h : CommitsBelow sb d t) (hsb : sb.Regions) (ht : Txn sb c metadata)
    (hno : ∀ p ∈ metadata.toList, NoCommit p.2) (hc : Crashes (Torn sb) d (bodyWrites sb c metadata) img) :
    CommitsBelow sb img t := h.of_slots fun i hi => by
  rcases hc (sb.ringBlock i) with h0 | ⟨p, hp, -, h1 | h1⟩
  · exact Or.inl h0
  · exact Or.inr (h1 ▸ noCommit_bodyWrites ht.plan hno hp)
  · exact Or.inr (h1 (hsb.ringBlock_mem hi)).2

/-- The successor `next` of the current control is written: the old or the new one is selected. -/
theorem Mounts.control_crash (h : Mounts n d sb) (hcur : Controls sb d c copy) (hv : next.Valid)
    (hid : hasSameIdentity c next) (hg : next.generation = c.generation + 1)
    (hc : Crashes (Torn sb) d [controlWrite sb copy.other next] img) :
    Mounts n img sb ∧ KeepsRing sb d img ∧ KeepsOutside sb d img ∧
      ((∃ copy', Controls sb img c copy') ∨ Controls sb img next copy.other) := by
  obtain ⟨hring, hout⟩ := crash_control_frame h.regions hc
  exact ⟨h.keep (hout 0 h.regions.zero_not_mem), hring, hout, hcur.crash h.regions hv hid hg hc⟩

theorem Idle.expose_crash (h : Idle n sb c copy d) (ht : Txn sb c metadata) (hb : HoldsBody sb c metadata d)
    (hc : Crashes (Torn sb) d [controlWrite sb copy.other (exposing c metadata)] img) :
    ((∃ copy', Idle n sb c copy' img) ∨ Exposed n sb c copy.other metadata img) ∧ KeepsRing sb d img ∧
      KeepsOutside sb d img := by
  obtain ⟨hm, hring, hout, hsel⟩ :=
    h.mounts.control_crash h.controls ht.plan.exposed_valid hasSameIdentity_exposing rfl hc
  refine ⟨hsel.imp ?_ fun hnew => ?_, hring, hout⟩
  · rintro ⟨copy', hold⟩
    exact ⟨copy', hm, hold, h.used⟩
  · exact ⟨hm, hnew, ht, hb.keep ht.valid ht.ring hring⟩

theorem Idle.expose (h : Idle n sb c copy d) (ht : Txn sb c metadata) (hb : HoldsBody sb c metadata d) :
    Exposed n sb c copy.other metadata (applyWrites [controlWrite sb copy.other (exposing c metadata)] d) := by
  obtain ⟨hm, hring, -, -⟩ := h.mounts.control_crash h.controls ht.plan.exposed_valid hasSameIdentity_exposing rfl
    (all _ _ _)
  exact ⟨hm, Controls.of_write h.controls.current h.mounts.regions.three_le_ringBlocks ht.plan.exposed_valid
    hasSameIdentity_exposing rfl, ht, hb.keep ht.valid ht.ring hring⟩

namespace Exposed

variable (h : Exposed n sb c copy metadata d)

include h

theorem opens : Opens n d sb (exposing c metadata) copy := h.mounts.opens h.controls

theorem keep (hc : KeepsControls sb d d') (hr : KeepsRing sb d d') : Exposed n sb c copy metadata d' :=
  ⟨h.mounts.keep hc.superblock, h.controls.congr hc.control, h.txn, h.holds.keep h.txn.valid h.txn.ring hr⟩

theorem commit_crash (hc : Crashes T d [commitWrite sb (txnBody sb c metadata)] img) :
    Exposed n sb c copy metadata img ∧
      (∀ i < sb.ringBlocks, sb.ringBlock i ≠ commitSlot sb c metadata →
        img (sb.ringBlock i) = d (sb.ringBlock i)) ∧
      KeepsOutside sb d img := by
  obtain ⟨hk, hout⟩ := (inRing_commitWrite h.txn.commit_lt).crash h.mounts.regions hc
  have hslot : ∀ a, a ≠ commitSlot sb c metadata → img a = d a := fun a ha => hc.of_not_mem fun p hp => by
    rw [List.mem_singleton.mp hp]
    exact ha.symm
  refine ⟨⟨h.mounts.keep hk.superblock, h.controls.congr hk.control, h.txn,
    h.holds.congr fun p hp => hslot _ fun he => ?_⟩, fun i _ hi => hslot _ hi, hout⟩
  have hslots : commitSlot sb c metadata ∉ (bodyWrites sb c metadata).map Write.addr :=
    (nodup_bodyWrites h.txn.plan).2
  exact hslots (List.mem_map.mpr ⟨p, hp, he⟩)

/-- An exposed body is the only one that recovery can find. -/
theorem images_of_classify {b : Bool} {v : ValidatedTransaction}
    (hv : classify sb (exposing c metadata) d = .ok (b, v)) : v.metadataAfterImages = metadata := by
  obtain ⟨-, desc, m, hbody, -, rfl⟩ := classify_eq_ok.mp hv
  rw [h.holds.exposedBody h.txn.plan h.txn.targets] at hbody
  exact (congrArg Prod.snd (Except.ok.inj hbody)).symm

theorem classify_keep (hr : KeepsRing sb d d') :
    classify sb (exposing c metadata) d' = classify sb (exposing c metadata) d :=
  classify_congr h.txn.plan.exposed_valid h.opens.ring hr

theorem close_crash (hc : Crashes (Torn sb) d [controlWrite sb copy.other (closing c metadata)] img) :
    ((∃ copy', Exposed n sb c copy' metadata img) ∨ Idle n sb (closing c metadata) copy.other img) ∧
      KeepsRing sb d img ∧ KeepsOutside sb d img := by
  obtain ⟨hm, hring, hout, hsel⟩ :=
    h.mounts.control_crash h.controls h.txn.closing_valid hasSameIdentity_closing rfl hc
  refine ⟨hsel.imp ?_ fun hnew => ⟨hm, hnew, rfl⟩, hring, hout⟩
  rintro ⟨copy', hold⟩
  exact ⟨copy', hm, hold, h.txn, h.holds.keep h.txn.valid h.txn.ring hring⟩

theorem close :
    Idle n sb (closing c metadata) copy.other (applyWrites [controlWrite sb copy.other (closing c metadata)] d) := by
  obtain ⟨hm, -, -, -⟩ := h.mounts.control_crash h.controls h.txn.closing_valid hasSameIdentity_closing rfl
    (all _ _ _)
  exact ⟨hm, Controls.of_write h.controls.current h.mounts.regions.three_le_ringBlocks h.txn.closing_valid
    hasSameIdentity_closing rfl, rfl⟩

theorem home_crash {op : Op} (hc : Crashes (Torn sb) d (homeWrites op metadata) img) :
    Exposed n sb c copy metadata img ∧ KeepsRing sb d img ∧ ∀ a, a ∉ metadata → img a = d a := by
  obtain ⟨hk, hr⟩ := (outside_homeWrites op h.txn.targets).crash h.mounts.regions hc
  refine ⟨h.keep hk hr, hr, fun a ha => hc.of_not_mem fun p hp he => ha ?_⟩
  obtain ⟨q, hq, rfl⟩ := List.mem_map.mp hp
  exact he ▸ mem_of_mem_toList hq

end Exposed

/-! ### What the ring holds -/

theorem Guarded.of_opens (h : Guarded n sb d) (ho : Opens n d sb c copy) :
    CommitsBelow sb d c.nextTransactionId.toNat ∧ (c.usedBlocks ≠ 0 → ∃ r, classify sb c d = .ok r) := by
  obtain ⟨c', copy', ho', hd⟩ := h
  obtain ⟨-, rfl, rfl⟩ := ho'.inj ho
  exact hd

theorem Idle.guarded (h : Idle n sb c copy d) (hb : CommitsBelow sb d c.nextTransactionId.toNat) : Guarded n sb d :=
  ⟨c, copy, h.opens, hb, fun hu => absurd h.used hu⟩

/-- A body without a COMMIT is found uncommitted. -/
theorem Exposed.guarded_of_below (h : Exposed n sb c copy metadata d)
    (hb : CommitsBelow sb d c.nextTransactionId.toNat) : Guarded n sb d := by
  obtain ⟨v, hv⟩ := h.holds.classify_uncommitted h.txn.plan h.txn.targets fun r hr he => by
    have := hb _ h.txn.commit_lt r hr
    rw [he] at this
    exact absurd this (lt_irrefl _)
  refine ⟨_, _, h.opens, hb.mono ?_, fun _ => ⟨_, hv⟩⟩
  rw [h.txn.exposing_next]
  omega

/-- Whatever a crash leaves of the COMMIT, the body is found committed or uncommitted. -/
theorem Exposed.guarded_of_commit (h : Exposed n sb c copy metadata d)
    (hb : CommitsBelow sb d c.nextTransactionId.toNat)
    (hc : Crashes (Torn sb) d [commitWrite sb (txnBody sb c metadata)] img) : Guarded n sb img := by
  obtain ⟨h', hslots, -⟩ := h.commit_crash hc
  have hun : img (commitSlot sb c metadata) = d (commitSlot sb c metadata) ∨
    NoCommit (img (commitSlot sb c metadata)) →
      Guarded n sb img := fun hslot => h'.guarded_of_below (hb.of_slots fun i hi => by
    by_cases hi' : sb.ringBlock i = commitSlot sb c metadata
    · rw [hi']
      exact hslot
    · exact Or.inl (hslots i hi hi'))
  rcases hc (commitSlot sb c metadata) with h0 | ⟨p, hp, -, h1 | h1⟩
  · exact hun (Or.inl h0)
  · rw [List.mem_singleton.mp hp] at h1
    change img (commitSlot sb c metadata) = commitBytes (commitRecord sb (txnBody sb c metadata)) at h1
    obtain ⟨v, hv, -⟩ := h'.holds.classify_committed h.txn.plan h.txn.targets h1
    refine ⟨_, _, h'.opens, fun i hi r hr => ?_, fun _ => ⟨_, hv⟩⟩
    rw [h.txn.exposing_next]
    by_cases hi' : sb.ringBlock i = commitSlot sb c metadata
    · rw [hi', h1, decodeCommit_commitBytes (txnCommit_fields h.txn.plan)] at hr
      rw [← Except.ok.inj hr]
      exact Nat.lt_succ_self _
    · rw [hslots i hi hi'] at hr
      exact (hb i hi r hr).trans (Nat.lt_succ_self _)
  · exact hun (Or.inr (h1 (h.mounts.regions.ringBlock_mem h.txn.commit_lt)).2)

theorem Exposed.guarded_keep (h : Exposed n sb c copy metadata d) (hg : Guarded n sb d) (hr : KeepsRing sb d d')
    (h' : Exposed n sb c copy' metadata d') : Guarded n sb d' := by
  obtain ⟨hb, hcl⟩ := hg.of_opens h.opens
  exact ⟨_, _, h'.opens, hb.keep hr, fun hu => by rw [h.classify_keep hr]; exact hcl hu⟩

/-- Closing the range does not use another id. -/
theorem Exposed.guarded_close (h : Exposed n sb c copy metadata d) (hg : Guarded n sb d) (hr : KeepsRing sb d d')
    (h' : Idle n sb (closing c metadata) copy' d') : Guarded n sb d' :=
  h'.guarded ((hg.of_opens h.opens).1.keep hr)

end States

/-! ## Interrupted transactions -/

/-- A transaction that did not end: the image it started from and the blocks it writes. -/
structure Interrupted where
  before : Image
  ordered : BlockMap
  metadata : BlockMap

namespace Interrupted

/-- The image with the ordered data in place. -/
def prepared (t : Interrupted) : Image := fun a => t.ordered[a]?.getD (t.before a)

/-- The image the transaction leads to. -/
def after (t : Interrupted) : Image := fun a => t.metadata[a]?.getD (t.prepared a)

/-- Outside the journal and the ordered data, `d` is as before the transaction. -/
def Old (sb : Superblock) (t : Interrupted) (d : Image) : Prop :=
  ∀ a, ¬ blockIsInRegion a sb.journal → a ∉ t.ordered → d a = t.before a

/-- Outside the journal, `d` is as after the transaction. -/
def New (sb : Superblock) (t : Interrupted) (d : Image) : Prop := KeepsOutside sb t.after d

/-- In the ring before the transaction no COMMIT has an id still to be used, and the transaction writes none there. -/
def Quiet (sb : Superblock) (c : JournalControl) (t : Interrupted) : Prop :=
  CommitsBelow sb t.before c.nextTransactionId.toNat ∧ ∀ p ∈ t.metadata.toList, NoCommit p.2

theorem old_of_prepared {sb : Superblock} {t : Interrupted} {d : Image} (h : KeepsOutside sb t.prepared d) :
    t.Old sb d := fun a ha ho => by
  rw [h a ha, prepared, getElem?_eq_none ho]
  rfl

theorem after_of_prepared {sb : Superblock} {t : Interrupted} {d : Image} (h : KeepsOutside sb t.prepared d) :
    ∀ a, ¬ blockIsInRegion a sb.journal → a ∉ t.metadata → d a = t.after a := fun a ha hm => by
  rw [h a ha, after, getElem?_eq_none hm]
  rfl

end Interrupted

/-- The images that a transaction, and the recoveries since, can leave. -/
inductive Pending (n : ℕ) (sb : Superblock) (t : Interrupted) (d : Image) : Prop
  | idle {c : JournalControl} {copy : ControlCopy} (h : Idle n sb c copy d) (ht : t.Old sb d ∨ t.New sb d)
  | exposed {c : JournalControl} {copy : ControlCopy} (h : Exposed n sb c copy t.metadata d)
      (ht : KeepsOutside sb t.prepared d)
  | replaying {c : JournalControl} {copy : ControlCopy} {v : ValidatedTransaction}
      (h : Exposed n sb c copy t.metadata d) (hv : classify sb (exposing c t.metadata) d = .ok (true, v))
      (ht : ∀ a, ¬ blockIsInRegion a sb.journal → a ∉ t.metadata → d a = t.after a)

section Interrupted

variable {n : ℕ} {sb : Superblock} {c : JournalControl} {copy : ControlCopy} {t : Interrupted} {d img : Image}

theorem KeepsOutside.trans {d' : Image} (h : KeepsOutside sb d d') (h' : KeepsOutside sb d' img) :
    KeepsOutside sb d img := fun a ha => (h' a ha).trans (h a ha)

theorem KeepsOutside.old (h : KeepsOutside sb d img) (ht : t.Old sb d) : t.Old sb img := fun a ha ho =>
  (h a ha).trans (ht a ha ho)

theorem KeepsOutside.new (h : KeepsOutside sb d img) (ht : t.New sb d) : t.New sb img := fun a ha =>
  (h a ha).trans (ht a ha)

/-- With the after-images at home the transaction is done. -/
theorem Interrupted.home_new (op : Op)
    (ht : ∀ a, ¬ blockIsInRegion a sb.journal → a ∉ t.metadata → d a = t.after a) :
    t.New sb (applyWrites (homeWrites op t.metadata) d) := fun a ha => by
  by_cases hm : a ∈ t.metadata
  · have hx := getElem?_eq_some_getElem hm
    rw [applyWrites_homeWrites hx, Interrupted.after, hx]
    rfl
  · rw [applyWrites_homeWrites_of_not_mem hm]
    exact ht a ha hm

/-- Behind a COMMIT, whoever wrote it, a crash leaves a body that will be replayed, or the image after. -/
theorem Exposed.finish_crash {op : Op} {v : ValidatedTransaction} (h : Exposed n sb c copy t.metadata d)
    (hv : classify sb (exposing c t.metadata) d = .ok (true, v))
    (ht : ∀ a, ¬ blockIsInRegion a sb.journal → a ∉ t.metadata → d a = t.after a)
    (hc : CrashesIn (Torn sb) d [homeWrites op t.metadata, [controlWrite sb copy.other (closing c t.metadata)]] img) :
    Pending n sb t img ∧ (Guarded n sb d → Guarded n sb img) := by
  rcases hc with hc | hc
  · obtain ⟨h', hr, hk⟩ := h.home_crash hc
    exact ⟨.replaying h' ((h.classify_keep hr).trans hv) fun a ha hm => (hk a hm).trans (ht a ha hm),
      fun hg => h.guarded_keep hg hr h'⟩
  · have hnew := Interrupted.home_new op ht
    obtain ⟨h₁, hr₁, -⟩ := h.home_crash (all _ _ (homeWrites op t.metadata))
    obtain ⟨h', hr, hk⟩ := h₁.close_crash hc.single
    rcases h' with ⟨copy', h'⟩ | h'
    · exact ⟨.replaying h' ((h₁.classify_keep hr).trans ((h.classify_keep hr₁).trans hv))
        fun a ha _ => (hk.new hnew) a ha, fun hg => h₁.guarded_keep (h.guarded_keep hg hr₁ h₁) hr h'⟩
    · exact ⟨.idle h' (Or.inr (hk.new hnew)), fun hg => h₁.guarded_close (h.guarded_keep hg hr₁ h₁) hr h'⟩

theorem Exposed.finish (op : Op) (h : Exposed n sb c copy t.metadata d)
    (ht : ∀ a, ¬ blockIsInRegion a sb.journal → a ∉ t.metadata → d a = t.after a) :
    let img := applyWrites [homeWrites op t.metadata, [controlWrite sb copy.other (closing c t.metadata)]].flatten d
    Idle n sb (closing c t.metadata) copy.other img ∧ t.New sb img ∧ (Guarded n sb d → Guarded n sb img) := by
  obtain ⟨h', hr, -⟩ := h.home_crash (all _ _ (homeWrites op t.metadata))
  obtain ⟨-, hr', hk⟩ := h'.close_crash (all _ _ _)
  simp only [List.flatten_cons, List.flatten_nil, List.append_nil, applyWrites_append]
  exact ⟨h'.close, hk.new (Interrupted.home_new op ht),
    fun hg => h'.guarded_close (h.guarded_keep hg hr h') hr' h'.close⟩

/-! ### Transactions -/

theorem applyWrites_orderedBatches :
    applyWrites (orderedBatches t.ordered).flatten t.before = t.prepared := by
  have hwrites : (orderedBatches t.ordered).flatten = homeWrites .orderedData t.ordered := by
    unfold orderedBatches
    split_ifs with he
    · rw [isEmpty_iff.mp he]
      rfl
    · exact List.append_nil _
  rw [hwrites]
  funext a
  by_cases ha : a ∈ t.ordered
  · have hx := getElem?_eq_some_getElem ha
    rw [applyWrites_homeWrites hx, Interrupted.prepared, hx]
    rfl
  · rw [applyWrites_homeWrites_of_not_mem ha, Interrupted.prepared, getElem?_eq_none ha]
    rfl

/-- A crash while the ordered data is written leaves the journal and the other blocks as they are. -/
theorem ordered_crash (hsb : sb.Regions) (ho : Outside sb (orderedWrites t.ordered))
    (hc : CrashesIn (Torn sb) t.before (orderedBatches t.ordered) img) :
    KeepsControls sb t.before img ∧ KeepsRing sb t.before img ∧ t.Old sb img := by
  have hc' : Crashes (Torn sb) t.before (orderedWrites t.ordered) img := by
    unfold orderedBatches at hc
    split_ifs at hc
    · rw [show img = t.before from hc]
      exact fun a => Or.inl rfl
    · exact hc.single
  obtain ⟨hk, hr⟩ := ho.crash hsb hc'
  refine ⟨hk, hr, fun a _ ha => hc'.of_not_mem fun p hp he => ha ?_⟩
  obtain ⟨q, hq, rfl⟩ := List.mem_map.mp hp
  exact he ▸ mem_of_mem_toList hq

theorem Idle.prepared (h : Idle n sb c copy t.before) (ho : Outside sb (orderedWrites t.ordered)) :
    Idle n sb c copy t.prepared ∧ KeepsRing sb t.before t.prepared := by
  obtain ⟨hk, hr, -⟩ := ordered_crash h.mounts.regions ho (CrashesIn.all _ _ _)
  rw [applyWrites_orderedBatches] at hk hr
  exact ⟨h.keep hk, hr⟩

/-- The image with the body in the ring. -/
def Interrupted.bodied (sb : Superblock) (c : JournalControl) (t : Interrupted) : Image :=
  applyWrites (bodyWrites sb c t.metadata) t.prepared

/-- The image with the body exposed. -/
def Interrupted.exposed (sb : Superblock) (c : JournalControl) (copy : ControlCopy) (t : Interrupted) : Image :=
  applyWrites [controlWrite sb copy.other (exposing c t.metadata)] (t.bodied sb c)

section

variable (h : Idle n sb c copy t.before) (ht : Txn sb c t.metadata) (ho : Outside sb (orderedWrites t.ordered))

include h ht ho

theorem Idle.bodied : Idle n sb c copy (t.bodied sb c) ∧ HoldsBody sb c t.metadata (t.bodied sb c) ∧
    KeepsOutside sb t.prepared (t.bodied sb c) ∧
    (t.Quiet sb c → CommitsBelow sb (t.bodied sb c) c.nextTransactionId.toNat) := by
  obtain ⟨hp, hr⟩ := h.prepared ho
  obtain ⟨hbody, hk⟩ := hp.body_crash ht (all _ _ _)
  exact ⟨hbody, holdsBody_applyWrites ht.plan, hk, fun hq =>
    (hq.1.keep hr).body_crash hp.mounts.regions ht hq.2 (all _ _ _)⟩

theorem Idle.exposed : Exposed n sb c copy.other t.metadata (t.exposed sb c copy) ∧
    KeepsOutside sb t.prepared (t.exposed sb c copy) ∧
    (t.Quiet sb c → CommitsBelow sb (t.exposed sb c copy) c.nextTransactionId.toNat) := by
  obtain ⟨hbody, hholds, hk, hb⟩ := h.bodied ht ho
  obtain ⟨-, hring, hout⟩ := hbody.expose_crash ht hholds (all _ _ _)
  exact ⟨hbody.expose ht hholds, hk.trans hout, fun hq => (hb hq).keep hring⟩

theorem Idle.committed :
    let img := applyWrites (commitBatches sb c copy t.ordered t.metadata).flatten t.before
    Exposed n sb c copy.other t.metadata img ∧ KeepsOutside sb t.prepared img ∧
      img (commitSlot sb c t.metadata) = commitBytes (commitRecord sb (txnBody sb c t.metadata)) ∧
      (t.Quiet sb c → Guarded n sb img) := by
  obtain ⟨hexp, hk, hb⟩ := h.exposed ht ho
  obtain ⟨hcommit, -, hout⟩ := hexp.commit_crash (all (Torn sb) _ _)
  unfold commitBatches
  simp only [List.flatten_append, applyWrites_append, applyWrites_orderedBatches, List.flatten_cons, List.flatten_nil,
    List.append_nil]
  exact ⟨hcommit, hk.trans hout, Function.update_self _ _ _, fun hq =>
    hexp.guarded_of_commit (hb hq) (all _ _ _)⟩

/-- Where a crash of the transaction after the clean control `c` can leave the image: before the exposing control,
between it and the COMMIT, or behind the COMMIT. -/
theorem Idle.txn_crash_cases
    (hc : CrashesIn (Torn sb) t.before (txnBatches sb c copy t.ordered t.metadata) img) :
    (∃ copy', Idle n sb c copy' img ∧ t.Old sb img ∧ (t.Quiet sb c → Guarded n sb img)) ∨
    (Exposed n sb c copy.other t.metadata img ∧ KeepsOutside sb t.prepared img ∧
      (t.Quiet sb c → Guarded n sb img)) ∨
    CrashesIn (Torn sb) (applyWrites (commitBatches sb c copy t.ordered t.metadata).flatten t.before)
      [homeWrites .home t.metadata, [controlWrite sb copy (closing c t.metadata)]] img := by
  obtain ⟨hp, hr⟩ := h.prepared ho
  obtain ⟨hbody, hholds, hk₁, hb₁⟩ := h.bodied ht ho
  obtain ⟨hexp, hk₂, hb₂⟩ := h.exposed ht ho
  rw [txnBatches_eq] at hc
  rcases crashesIn_append hc with hc | hc
  swap
  · exact Or.inr (Or.inr hc)
  unfold commitBatches at hc
  rw [List.append_assoc] at hc
  rcases crashesIn_append hc with hc | hc
  · obtain ⟨hk, hr', hold⟩ := ordered_crash h.mounts.regions ho hc
    exact Or.inl ⟨copy, h.keep hk, hold, fun hq => (h.keep hk).guarded (hq.1.keep hr')⟩
  rw [applyWrites_orderedBatches] at hc
  rcases hc with hc | hc | hc
  · obtain ⟨h', hk⟩ := hp.body_crash ht hc
    exact Or.inl ⟨copy, h', Interrupted.old_of_prepared hk, fun hq =>
      h'.guarded ((hq.1.keep hr).body_crash hp.mounts.regions ht hq.2 hc)⟩
  · obtain ⟨h', hring, hk⟩ := hbody.expose_crash ht hholds hc
    rcases h' with ⟨copy', h'⟩ | h'
    · exact Or.inl ⟨copy', h', Interrupted.old_of_prepared (hk₁.trans hk),
        fun hq => h'.guarded ((hb₁ hq).keep hring)⟩
    · exact Or.inr (Or.inl ⟨h', hk₁.trans hk, fun hq => h'.guarded_of_below ((hb₁ hq).keep hring)⟩)
  · obtain ⟨h', -, hk⟩ := hexp.commit_crash hc.single
    exact Or.inr (Or.inl ⟨h', hk₂.trans hk, fun hq => hexp.guarded_of_commit (hb₂ hq) hc.single⟩)

/-- A transaction that is cut short leaves the image before, the image after or one that recovery takes to either. -/
theorem Idle.txn_crash (hc : CrashesIn (Torn sb) t.before (txnBatches sb c copy t.ordered t.metadata) img) :
    Pending n sb t img ∧ (t.Quiet sb c → Guarded n sb img) := by
  rcases h.txn_crash_cases ht ho hc with ⟨copy', h', hold, hg⟩ | ⟨h', hk, hg⟩ | hc
  · exact ⟨.idle h' (Or.inl hold), hg⟩
  · exact ⟨.exposed h' hk, hg⟩
  · obtain ⟨h', hk, hcommit, hg⟩ := h.committed ht ho
    obtain ⟨v, hv, -⟩ := h'.holds.classify_committed ht.plan ht.targets hcommit
    obtain ⟨hp, hg'⟩ := h'.finish_crash hv (Interrupted.after_of_prepared hk) (by rwa [ControlCopy.other_other])
    exact ⟨hp, fun hq => hg' (hg hq)⟩

/-- A transaction that ends is done. -/
theorem Idle.txn :
    let img := applyWrites (txnBatches sb c copy t.ordered t.metadata).flatten t.before
    Idle n sb (closing c t.metadata) copy img ∧ t.New sb img ∧ (t.Quiet sb c → Guarded n sb img) := by
  obtain ⟨h', hk, -, hg⟩ := h.committed ht ho
  have hfinish := h'.finish .home (Interrupted.after_of_prepared hk)
  rw [ControlCopy.other_other] at hfinish
  dsimp only
  rw [txnBatches_eq, List.flatten_append, applyWrites_append]
  exact ⟨hfinish.1, hfinish.2.1, fun hq => hfinish.2.2 (hg hq)⟩

end

/-! ### Recoveries -/

namespace Pending

theorem opens (h : Pending n sb t d) : ∃ c copy, Opens n d sb c copy := by
  cases h with
  | idle h' _ => exact ⟨_, _, h'.opens⟩
  | exposed h' _ => exact ⟨_, _, h'.opens⟩
  | replaying h' _ _ => exact ⟨_, _, h'.opens⟩

section

variable (h : Pending n sb t d) (ho : Opens n d sb c copy)

include h ho

/-- With a control that exposes nothing the transaction is undone or done. -/
theorem idle_of_used (hu : c.usedBlocks = 0) : Idle n sb c copy d ∧ (t.Old sb d ∨ t.New sb d) := by
  cases h with
  | idle h' ht =>
    obtain ⟨-, rfl, rfl⟩ := h'.opens.inj ho
    exact ⟨h', ht⟩
  | exposed h' _ =>
    obtain ⟨-, rfl, rfl⟩ := h'.opens.inj ho
    exact absurd hu h'.txn.exposing_used
  | replaying h' _ _ =>
    obtain ⟨-, rfl, rfl⟩ := h'.opens.inj ho
    exact absurd hu h'.txn.exposing_used

theorem batches :
    (Eufs.recoveryBatches sb c copy d = [] ∧ (c.usedBlocks ≠ 0 → ∃ e, classify sb c d = .error e)) ∨
    ∃ c₀, c = exposing c₀ t.metadata ∧ Exposed n sb c₀ copy t.metadata d ∧
      ((t.Old sb d ∧ KeepsOutside sb t.prepared d ∧
          Eufs.recoveryBatches sb c copy d = [[controlWrite sb copy.other (closing c₀ t.metadata)]]) ∨
        ((∃ v, classify sb c d = .ok (true, v)) ∧
          (∀ a, ¬ blockIsInRegion a sb.journal → a ∉ t.metadata → d a = t.after a) ∧
          Eufs.recoveryBatches sb c copy d =
            [homeWrites .recoveryHome t.metadata, [controlWrite sb copy.other (closing c₀ t.metadata)]])) := by
  cases h with
  | idle h' _ =>
    obtain ⟨-, rfl, rfl⟩ := h'.opens.inj ho
    exact Or.inl ⟨if_pos h'.used, fun hu => absurd h'.used hu⟩
  | @exposed c₀ _ h' ht =>
    obtain ⟨-, rfl, rfl⟩ := h'.opens.inj ho
    rw [Eufs.recoveryBatches, if_neg h'.txn.exposing_used]
    cases hv : classify sb (exposing c₀ t.metadata) d with
    | error e => exact Or.inl ⟨rfl, fun _ => ⟨e, rfl⟩⟩
    | ok r =>
      obtain ⟨b, v⟩ := r
      refine Or.inr ⟨c₀, rfl, h', ?_⟩
      cases b with
      | false => exact Or.inl ⟨Interrupted.old_of_prepared ht, ht, rfl⟩
      | true =>
        refine Or.inr ⟨⟨v, rfl⟩, Interrupted.after_of_prepared ht, ?_⟩
        rw [← h'.images_of_classify hv]
  | @replaying c₀ _ v h' hv ht =>
    obtain ⟨-, rfl, rfl⟩ := h'.opens.inj ho
    refine Or.inr ⟨c₀, rfl, h', Or.inr ⟨⟨v, hv⟩, ht, ?_⟩⟩
    rw [Eufs.recoveryBatches, if_neg h'.txn.exposing_used, hv]
    dsimp only
    rw [h'.images_of_classify hv]

theorem recovery_crash (hc : CrashesIn (Torn sb) d (Eufs.recoveryBatches sb c copy d) img) :
    Pending n sb t img ∧ (Guarded n sb d → Guarded n sb img) := by
  obtain ⟨hb, -⟩ | ⟨c₀, rfl, h', ⟨hold, hk, hb⟩ | ⟨⟨v, hv⟩, ht, hb⟩⟩ := h.batches ho
  · rw [hb] at hc
    rw [show img = d from hc]
    exact ⟨h, id⟩
  · rw [hb] at hc
    obtain ⟨h'', hr, hk'⟩ := h'.close_crash hc.single
    rcases h'' with ⟨copy', h''⟩ | h''
    · exact ⟨.exposed h'' (hk.trans hk'), fun hg => h'.guarded_keep hg hr h''⟩
    · exact ⟨.idle h'' (Or.inl (hk'.old hold)), fun hg => h'.guarded_close hg hr h''⟩
  · rw [hb] at hc
    exact h'.finish_crash hv ht hc

theorem recovery (hv : c.usedBlocks ≠ 0 → ∃ r, classify sb c d = .ok r) :
    let img := applyWrites (Eufs.recoveryBatches sb c copy d).flatten d
    (∃ c' copy', Idle n sb c' copy' img) ∧ (t.Old sb img ∨ t.New sb img) ∧
    (Guarded n sb d → Guarded n sb img) := by
  obtain ⟨hb, he⟩ | ⟨c₀, rfl, h', ⟨hold, -, hb⟩ | ⟨-, ht, hb⟩⟩ := h.batches ho
  · rw [hb]
    have hu : c.usedBlocks = 0 := by
      by_contra hu
      obtain ⟨e, he⟩ := he hu
      obtain ⟨r, hr⟩ := hv hu
      cases he.symm.trans hr
    exact ⟨⟨_, _, (h.idle_of_used ho hu).1⟩, (h.idle_of_used ho hu).2, id⟩
  · rw [hb]
    obtain ⟨-, hr, hk⟩ := h'.close_crash (all _ _ _)
    exact ⟨⟨_, _, h'.close⟩, Or.inl (hk.old hold), fun hg => h'.guarded_close hg hr h'.close⟩
  · rw [hb]
    obtain ⟨h1, h2, hg⟩ := h'.finish .recoveryHome ht
    exact ⟨⟨_, _, h1⟩, Or.inr h2, hg⟩

end

end Pending

end Interrupted

end Eufs
