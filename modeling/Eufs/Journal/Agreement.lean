import Eufs.Journal.Language
import Eufs.Journal.Reformat

/-!
# Eufs.Journal.Agreement — recovery ends where the transaction would have ended

Once the COMMIT of a transaction is durable, the image at the end is settled: the transaction itself and every
recovery after a crash write the same after-images home and the same control into the same copy.  `Settling` is what
all images on the way have in common with the final one; `recovery_agrees_with_completion` is the result for any
number of interrupted recoveries.
-/

namespace Eufs

open Prog Function Crashes

/-- `img` is left by a crash after the sync of the COMMIT: everything up to it returned, and the machine stops then, or
the completion does not return. -/
def CrashedAfterCommit (n : ℕ) (sb : Superblock) (c : JournalControl) (copy : ControlCopy) (totalBlocks : UInt32)
    (uuid : Uuid) (before ordered metadata : BlockMap) (d img : Image) : Prop :=
  ∃ script trace s w,
    commitTransaction totalBlocks uuid before ordered metadata (.fresh sb c copy) ⟨n, d, [], script, trace⟩ =
      .ok () s w ∧
    (w.Crash (Torn sb) img ∨ (completeCommittedTransaction s w).Crashed (Torn sb) img)

/-- A recovery of `d` was interrupted and left `img`. -/
def RecoveryInterrupted (n : ℕ) (sb : Superblock) (d img : Image) : Prop :=
  ∃ script trace t, (openAndResolve t ⟨n, d, [], script, trace⟩ : Res Unit Block Op _).Crashed (Torn sb) img

section Settling

variable {n : ℕ} {sb : Superblock} {c : JournalControl} {copy : ControlCopy} {metadata : BlockMap} {d img F : Image}

/-- What the writes after the COMMIT make of an image. -/
def settled (sb : Superblock) (c : JournalControl) (copy : ControlCopy) (metadata : BlockMap) (d : Image) : Image :=
  applyWrites [controlWrite sb copy (closing c metadata)] (applyWrites (homeWrites .home metadata) d)

/-- The transaction is committed and not closed: the blocks still to be written are the after-images' and the copy that
the closing control goes to. -/
structure Settling (n : ℕ) (sb : Superblock) (c : JournalControl) (copy : ControlCopy) (metadata : BlockMap)
    (F d : Image) : Prop extends Exposed n sb c copy.other metadata d where
  /-- So the exposing control is selected from one copy only. -/
  behind : controlOf sb d copy ≠ some (exposing c metadata)
  commit : d (commitSlot sb c metadata) = commitBytes (commitRecord sb (txnBody sb c metadata))
  final : settled sb c copy metadata d = F

theorem applyWrites_controlWrite_of_ne {a : ℕ} {next : JournalControl} (h : a ≠ sb.controlBlock copy) :
    applyWrites [controlWrite sb copy next] d a = d a := update_of_ne h _ _

theorem applyWrites_controlWrite_self {next : JournalControl} :
    applyWrites [controlWrite sb copy next] d (sb.controlBlock copy) = controlBytes next := update_self _ _ _

/-- At home an after-image replaces what was there, whoever writes it. -/
theorem applyWrites_homeWrites_congr {op op' : Op} {a : ℕ} (h : a ∉ metadata → img a = d a) :
    applyWrites (homeWrites op metadata) img a = applyWrites (homeWrites op' metadata) d a := by
  by_cases hm : a ∈ metadata
  · have hx := Std.ExtTreeMap.getElem?_eq_some_getElem hm
    rw [applyWrites_homeWrites hx, applyWrites_homeWrites hx]
  · rw [applyWrites_homeWrites_of_not_mem hm, applyWrites_homeWrites_of_not_mem hm]
    exact h hm

/-- Only the blocks that are not written any more matter. -/
theorem settled_congr (h : ∀ a, a ∉ metadata → a ≠ sb.controlBlock copy → img a = d a) :
    settled sb c copy metadata img = settled sb c copy metadata d := by
  funext a
  unfold settled
  by_cases hctl : a = sb.controlBlock copy
  · rw [hctl, applyWrites_controlWrite_self, applyWrites_controlWrite_self]
  · rw [applyWrites_controlWrite_of_ne hctl, applyWrites_controlWrite_of_ne hctl]
    exact applyWrites_homeWrites_congr fun hm => h a hm hctl

/-- The writes after the COMMIT, as a transaction or as a recovery issues them. -/
theorem applyWrites_settled (sb : Superblock) (c : JournalControl) (copy : ControlCopy)
    (metadata : BlockMap) (d : Image) (op : Op) :
    applyWrites [homeWrites op metadata, [controlWrite sb copy (closing c metadata)]].flatten d =
      settled sb c copy metadata d := by
  have hhome : applyWrites (homeWrites op metadata) d = applyWrites (homeWrites .home metadata) d :=
    funext fun a => applyWrites_homeWrites_congr fun _ => rfl
  simp only [List.flatten_cons, List.flatten_nil, List.append_nil, applyWrites_append, hhome]
  rfl

section

variable (h : Settling n sb c copy metadata F d)

include h

/-- A change of the blocks still to be written that keeps the control in force. -/
theorem Settling.keep (h0 : img 0 = d 0) (hctl : img (sb.controlBlock copy.other) = d (sb.controlBlock copy.other))
    (hold : img (sb.controlBlock copy) = d (sb.controlBlock copy) ∨ controlOf sb img copy = none)
    (hring : KeepsRing sb d img) (hrest : ∀ a, a ∉ metadata → a ≠ sb.controlBlock copy → img a = d a) :
    Settling n sb c copy metadata F img := by
  have hbehind : controlOf sb img copy ≠ some (exposing c metadata) := by
    rcases hold with hold | hold
    · unfold controlOf
      rw [hold]
      exact h.behind
    · rw [hold]
      exact fun he => by cases he
  have hcontrols : Controls sb img (exposing c metadata) copy.other := by
    rcases hold with hold | hold
    · refine h.controls.congr fun copy' => ?_
      by_cases hc : copy' = copy
      · rw [hc, hold]
      · rw [ControlCopy.eq_other_of_ne hc, hctl]
    · have hcur : controlOf sb img copy.other = some (exposing c metadata) := by
        unfold controlOf
        rw [hctl]
        exact h.controls.current
      obtain ⟨copy', hc⟩ := Controls.of_torn hcur h.mounts.regions.three_le_ringBlocks
        (by rw [ControlCopy.other_other]; exact hold)
      by_cases he : copy' = copy
      · exact absurd (he ▸ hc.current) hbehind
      · exact ControlCopy.eq_other_of_ne he ▸ hc
  exact ⟨⟨h.mounts.keep h0, hcontrols, h.txn, h.holds.keep h.txn.valid h.txn.ring hring⟩, hbehind,
    (hring _ h.txn.commit_lt).trans h.commit, (settled_congr hrest).trans h.final⟩

theorem Settling.home_crash {op : Op} (hc : Crashes (Torn sb) d (homeWrites op metadata) img) :
    Settling n sb c copy metadata F img := by
  obtain ⟨hk, hr⟩ := (outside_homeWrites op h.txn.targets).crash h.mounts.regions hc
  refine h.keep hk.superblock (hk.control _) (Or.inl (hk.control _)) hr fun a ha _ => hc.of_not_mem fun p hp he => ha ?_
  obtain ⟨q, hq, rfl⟩ := List.mem_map.mp hp
  exact he ▸ mem_of_mem_toList hq

/-- A crash while the closing control is written, the after-images at home. -/
theorem Settling.close_crash (hF : applyWrites [controlWrite sb copy (closing c metadata)] d = F)
    (hc : Crashes (Torn sb) d [controlWrite sb copy (closing c metadata)] img) :
    Settling n sb c copy metadata F img ∨ img = F := by
  have hsb := h.mounts.regions
  obtain ⟨hrest, htarget⟩ := crash_controlWrite hsb hc
  have h0 : img 0 = d 0 := (crash_control_frame hsb hc).2 0 hsb.zero_not_mem
  have hctl : img (sb.controlBlock copy.other) = d (sb.controlBlock copy.other) :=
    hrest _ fun he => copy.other_ne (Superblock.controlBlock_inj he)
  have hring := (crash_control_frame hsb hc).1
  rcases htarget with hold | hnew | htorn
  · exact Or.inl (h.keep h0 hctl (Or.inl hold) hring fun a _ ha => hrest a ha)
  · refine Or.inr ?_
    rw [← hF]
    funext a
    by_cases ha : a = sb.controlBlock copy
    · rw [ha, hnew, applyWrites_controlWrite_self]
    · rw [hrest a ha, applyWrites_controlWrite_of_ne ha]
  · exact Or.inl (h.keep h0 hctl (Or.inr htorn) hring fun a _ ha => hrest a ha)

theorem Settling.crash {op : Op}
    (hc : CrashesIn (Torn sb) d [homeWrites op metadata, [controlWrite sb copy (closing c metadata)]] img) :
    Settling n sb c copy metadata F img ∨ img = F := by
  rcases hc with hc | hc
  · exact Or.inl (h.home_crash hc)
  · refine (h.home_crash (all _ _ (homeWrites op metadata))).close_crash ?_ hc.single
    have := applyWrites_settled sb c copy metadata d op
    simp only [List.flatten_cons, List.flatten_nil, List.append_nil, applyWrites_append] at this
    exact this.trans h.final

theorem Settling.final_opens : Opens n F sb (closing c metadata) copy := by
  have hhome := h.home_crash (all _ _ (homeWrites .home metadata))
  have hnext := Controls.of_write hhome.controls.current h.mounts.regions.three_le_ringBlocks h.txn.closing_valid
    hasSameIdentity_closing rfl
  rw [ControlCopy.other_other] at hnext
  have hm : Mounts n (settled sb c copy metadata d) sb :=
    hhome.mounts.keep ((crash_control_frame h.mounts.regions (all _ _ _)).2 0 h.mounts.regions.zero_not_mem)
  have ho : Opens n (settled sb c copy metadata d) sb (closing c metadata) copy := hm.opens hnext
  rwa [h.final] at ho

theorem Settling.classify :
    ∃ v, Eufs.classify sb (exposing c metadata) d = .ok (true, v) ∧ v.metadataAfterImages = metadata :=
  h.holds.classify_committed h.txn.plan h.txn.targets h.commit

theorem Settling.recoveryBatches :
    Eufs.recoveryBatches sb (exposing c metadata) copy.other d =
      [homeWrites .recoveryHome metadata, [controlWrite sb copy (closing c metadata)]] := by
  obtain ⟨v, hv, hmeta⟩ := h.classify
  simp only [Eufs.recoveryBatches, if_neg h.txn.exposing_used, hv, hmeta, ControlCopy.other_other]

end

/-- On the way to `F`, or there. -/
def Finishing (n : ℕ) (sb : Superblock) (c : JournalControl) (copy : ControlCopy) (metadata : BlockMap)
    (F img : Image) : Prop :=
  Settling n sb c copy metadata F img ∨ (img = F ∧ Opens n F sb (closing c metadata) copy)

theorem Settling.finishing_of_crash {op : Op} (h : Settling n sb c copy metadata F d)
    (hc : CrashesIn (Torn sb) d [homeWrites op metadata, [controlWrite sb copy (closing c metadata)]] img) :
    Finishing n sb c copy metadata F img :=
  (h.crash hc).imp_right fun he => ⟨he, h.final_opens⟩

/-- The control of such an image, and what recovery writes over it. -/
theorem Finishing.opens (h : Finishing n sb c copy metadata F img) : ∃ c' copy', Opens n img sb c' copy' ∧
    (c'.usedBlocks ≠ 0 → ∃ r, Eufs.classify sb c' img = .ok r) ∧
    applyWrites (Eufs.recoveryBatches sb c' copy' img).flatten img = F ∧
    ∀ img', CrashesIn (Torn sb) img (Eufs.recoveryBatches sb c' copy' img) img' →
    Finishing n sb c copy metadata F img' := by
  rcases h with h | ⟨rfl, ho⟩
  · refine ⟨_, _, h.opens, fun _ => ?_, ?_, fun img' hc => ?_⟩
    · obtain ⟨v, hv, -⟩ := h.classify
      exact ⟨_, hv⟩
    · rw [h.recoveryBatches, applyWrites_settled]
      exact h.final
    · rw [h.recoveryBatches] at hc
      exact h.finishing_of_crash hc
  · have hnone : Eufs.recoveryBatches sb (closing c metadata) copy img = [] := if_pos rfl
    refine ⟨_, _, ho, fun hu => absurd rfl hu, ?_, fun img' hc => ?_⟩
    · rw [hnone]
      rfl
    · rw [hnone] at hc
      exact Or.inr ⟨hc, ho⟩

theorem Finishing.step (h : Finishing n sb c copy metadata F d) (hi : RecoveryInterrupted n sb d img) :
    Finishing n sb c copy metadata F img := by
  obtain ⟨script, trace, t, hrun⟩ := hi
  obtain ⟨c', copy', ho, hclass, -, hcrash⟩ := h.opens
  exact hcrash img (hrun.crashesIn (ho.phased_recovery hclass) rfl)

theorem Finishing.run (h : Finishing n sb c copy metadata F d)
    (hi : Relation.ReflTransGen (RecoveryInterrupted n sb) d img) : Finishing n sb c copy metadata F img := by
  induction hi with
  | refl => exact h
  | tail _ hlast ih => exact ih.step hlast

end Settling

/-! ## The runs -/

section Runs

variable {n : ℕ} {sb : Superblock} {c : JournalControl} {copy : ControlCopy} {d img : Image}
  {before ordered metadata : BlockMap} {totalBlocks : UInt32} {uuid : Uuid} {script : List Sys}
  {trace : List (Event Block Op)}

/-- With its COMMIT synced a transaction is on the way to the image it ends with. -/
theorem Opens.settling (ho : Opens n d sb c copy)
    (ha : TxnAccepted (.fresh sb c copy) d totalBlocks uuid before ordered metadata) :
    Settling n sb c copy metadata (applyWrites (txnBatches sb c copy ordered metadata).flatten d)
      (applyWrites (commitBatches sb c copy ordered metadata).flatten d) := by
  have hsb := ho.regions
  have ht : Txn sb c metadata := ⟨ha.plan, fun p hp => (ha.maps.targets p hp).1, ho.ring⟩
  have hfinal := applyWrites_settled sb c copy metadata
    (applyWrites (commitBatches sb c copy ordered metadata).flatten d) .home
  rw [← applyWrites_append, ← List.flatten_append, ← txnBatches_eq] at hfinal
  rw [hfinal]
  -- the ordered data leaves both controls as they are
  obtain ⟨hk, -, -⟩ := ordered_crash (t := ⟨d, ordered, metadata⟩) hsb (outside_orderedWrites hsb ha.maps)
    (CrashesIn.all _ _ _)
  have himg : applyWrites (commitBatches sb c copy ordered metadata).flatten d =
      Eufs.committedImage sb c copy metadata (applyWrites (orderedBatches ordered).flatten d) := by
    unfold commitBatches
    simp only [List.flatten_append, List.flatten_cons, List.flatten_nil, List.append_nil, applyWrites_append]
    rfl
  rw [himg]
  have hc := (ho.keep hk).committedImage ht
  refine ⟨⟨hc.mounts, hc.controls, ht, hc.holds⟩, ?_, hc.commit, rfl⟩
  -- the former control is one generation older
  intro he
  have heq : c = exposing c metadata := Option.some.inj (hc.former.symm.trans he)
  have hg : c.generation = c.generation + 1 := congrArg JournalControl.generation heq
  have : (1 : UInt64) = 0 := by grind
  exact absurd this (by decide)

/-- Recovery of `img` succeeds unless an I/O error stops it, and ends with `F`. -/
structure RecoversTo (n : ℕ) (F img : Image) : Prop extends Recovers n img where
  result : ∀ script trace r t' w', openAndResolve () ⟨n, img, [], script, trace⟩ = .ok r t' w' →
    w'.durable = F ∧ w'.pending = []

theorem Finishing.recoversTo {F : Image} (h : Finishing n sb c copy metadata F img) : RecoversTo n F img := by
  obtain ⟨c', copy', ho, hclass, hF, -⟩ := h.opens
  refine ⟨ho.recovers hclass, fun script trace r t' w' hrun => ?_⟩
  obtain ⟨-, hw⟩ := Ends.ok (ho.phased_recovery hclass) hrun
  exact ⟨hw.durable.trans hF, hw.pending⟩

/-- A recovery of an image that exposes nothing takes no action and writes nothing. -/
theorem Opens.recovery_idle (ho : Opens n d sb c copy) (hu : c.usedBlocks = 0)
    {r : RecoveryAction × JournalControlStore} {t' : Unit} {w' : Disk}
    (hrun : openAndResolve () ⟨n, d, [], script, trace⟩ = .ok r t' w') :
    r.1 = .kNoAction ∧ w'.durable = d ∧ ∀ d' p b, .pwrite d' p b ∈ w'.trace → .pwrite d' p b ∈ trace := by
  obtain ⟨⟨hr, -⟩, hw⟩ := Ends.ok (ho.phased_recovery fun hne => absurd hu hne) hrun
  have hnone : recoveryBatches sb c copy d = [] := if_pos hu
  rw [hnone] at hw
  obtain ⟨action, store⟩ := r
  change Resolved _ _ action store at hr
  have hact : action = .kNoAction := by
    cases hr with
    | noAction _ => rfl
    | discarded hne _ => exact absurd hu hne
    | replayed hne _ => exact absurd hu hne
  refine ⟨hact, hw.durable, fun d' p b hm => (hw.log d' p b hm).resolve_right ?_⟩
  rintro ⟨k, -, hk⟩
  simp at hk

/-- Online completion and recovery agree.  `wF` is the end of an uninterrupted transaction.  After a crash anywhere
behind the sync of the COMMIT and any number of interrupted recoveries, recovery ends with the image of `wF`; one more
finds nothing to do and writes nothing. -/
theorem recovery_agrees_with_completion {img' : Image} {t t' : Bool} {wF : Disk} (ho : Opens n d sb c copy)
    (hrun : executeJournalTransaction before ordered metadata totalBlocks uuid t ⟨n, d, [], script, trace⟩ =
      .ok () t' wF)
    (hcrash : CrashedAfterCommit n sb c copy totalBlocks uuid before ordered metadata d img)
    (hrec : Relation.ReflTransGen (RecoveryInterrupted n sb) img img') :
    RecoversTo n wF.durable img' ∧ RecoversTo n wF.durable wF.durable ∧
    ∀ script trace r t' w', openAndResolve () ⟨n, wF.durable, [], script, trace⟩ = .ok r t' w' →
      r.1 = .kNoAction ∧ w'.durable = wF.durable ∧ ∀ d' p b, .pwrite d' p b ∈ w'.trace →
      .pwrite d' p b ∈ trace := by
  obtain ⟨⟨ha, -⟩, hw⟩ :=
    Ends.ok (phased_executeJournalTransaction (w := ⟨n, d, [], script, trace⟩) (R := fun _ => True)
    rfl ho (fun _ => rfl) (fun _ _ => trivial)) hrun
  have hset := ho.settling ha
  have hF : wF.durable = applyWrites (txnBatches sb c copy ordered metadata).flatten d := hw.durable
  rw [← hF] at hset
  have hfin : Finishing n sb c copy metadata wF.durable img := by
    obtain ⟨script', trace', s, w, hcommit, hstop⟩ := hcrash
    obtain ⟨⟨-, hin, hs⟩, hw'⟩ := Ends.ok (phased_commitTransaction (w := ⟨n, d, [], script', trace'⟩)
      (R := fun _ => False) rfl ho (fun _ => rfl) (fun h => absurd ha h)) hcommit
    have hd : w.durable = applyWrites (commitBatches sb c copy ordered metadata).flatten d := hw'.durable
    rw [← hd] at hset
    rcases hstop with hstop | hstop
    · rw [World.Crash.eq_of_pending_nil hstop hw'.pending]
      exact Or.inl hset
    · have hcompletes := hin.completes (R := fun _ => False) hw'.pending hs ha.plan hset.txn.targets
      rw [ControlCopy.other_other] at hcompletes
      exact hset.finishing_of_crash (hstop.crashesIn hcompletes hw'.pending)
  refine ⟨(hfin.run hrec).recoversTo, ?_, ?_⟩
  · exact Finishing.recoversTo (Or.inr ⟨rfl, hset.final_opens⟩)
  · intro script trace r t' w' hlast
    exact hset.final_opens.recovery_idle rfl hlast

end Runs

/-- On the small image: the machine stops right after the COMMIT of a transaction that rewrites a bitmap block. -/
theorem recovery_agrees_sample : ∃ d img : Image, ∃ wF : Disk, ∃ script,
    executeJournalTransaction (singleBlock 1 (d 1)) ∅
      (singleBlock 1 (Bytes.zero _)) 16 sampleSuperblock.filesystemUuid
      false ⟨16, d, [], script, []⟩ = .ok () false wF ∧
    CrashedAfterCommit 16 sampleSuperblock (formattedControl sampleSuperblock) .kA 16 sampleSuperblock.filesystemUuid
      (singleBlock 1 (d 1)) ∅ (singleBlock 1 (Bytes.zero _)) d img ∧
    RecoversTo 16 wF.durable img := by
  obtain ⟨-, w', -, -, -, hidle⟩ := reformat_usedFile (Bytes.zero _)
  have ho := hidle.opens
  obtain ⟨sb, c, copy, ho', ha⟩ := sampleAccepts (Bytes.zero _) ho sampleReservable
  obtain ⟨rfl, rfl, rfl⟩ := ho.inj ho'
  obtain ⟨script, _, t', wF, ⟨rfl, -⟩, hrun⟩ := completes_executeJournalTransaction (t := false)
    (w := ⟨16, w'.durable, [], [], []⟩) rfl ho ha
  obtain ⟨script', _, s, w, -, hcommit⟩ :=
    Opens.completes_commitTransaction (w := ⟨16, w'.durable, [], [], []⟩) ho rfl ha
  have hcrash : CrashedAfterCommit 16 sampleSuperblock (formattedControl sampleSuperblock) .kA 16
      sampleSuperblock.filesystemUuid (singleBlock 1 (w'.durable 1)) ∅
      (singleBlock 1 (Bytes.zero _)) w'.durable w.durable :=
    ⟨script' ++ [], [], s, _, hcommit [], Or.inl fun _ => Or.inl rfl⟩
  exact ⟨w'.durable, w.durable, _, _, hrun [], hcrash,
    (recovery_agrees_with_completion ho (hrun []) hcrash Relation.ReflTransGen.refl).1⟩

end Eufs
