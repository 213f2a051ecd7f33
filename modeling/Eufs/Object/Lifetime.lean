import Eufs.Journal.Reformat
import Eufs.Object.Preservation

/-!
# Eufs.Object.Lifetime — the metadata agree over the whole life of a file

A file is formatted, and then planned transactions run on it, some of which are cut short, and recoveries, some of
which are cut short as well.  Whenever the journal is clean, the checker calls the image healthy.  The planner of a
ledger append does not look for the request id among the records, so this takes requests with new ids.
-/

namespace Eufs

open Prog PlanImages

variable {c : JournalControl} {copy : ControlCopy}

/-- The lives of one file whose transactions are planned by `P`: `d` is durable. -/
inductive Lifetime (P : ImageReader → PlanImages → Prop) (n : ℕ) (sb : Superblock) : Image → Prop
  | formatted {options : MkfsOptions} {host : MkfsHost} {w w' : Disk} {t t' : Unit} (hp : w.pending = [])
      (hinodes : options.totalInodes.toNat < 2 ^ 32 - 1) (hrun : formatImage options host t w = .ok sb t' w')
      (hn : n = w'.size) : Lifetime P n sb w'.durable
  | transaction {d : Image} {r : ImageReader} {p : PlanImages} (h : Lifetime P n sb d)
      (hopen : ImageReader.adoptLockedFd n d = .ok r) (hplan : P r p) {totalBlocks : UInt32} {uuid : Uuid}
      {script : List Sys} {trace : List (Event Block Op)} {t t' : Bool} {w' : Disk}
      (hrun : executeJournalTransaction p.beforeImages p.orderedDataAfterImages p.metadataAfterImages totalBlocks uuid t
        ⟨n, d, [], script, trace⟩ = .ok () t' w') : Lifetime P n sb w'.durable
  | interrupted {d img : Image} {r : ImageReader} {p : PlanImages} (h : Lifetime P n sb d)
      (hopen : ImageReader.adoptLockedFd n d = .ok r) (hplan : P r p) {totalBlocks : UInt32} {uuid : Uuid}
      {script : List Sys} {trace : List (Event Block Op)} {t : Bool}
      (hrun : (executeJournalTransaction p.beforeImages p.orderedDataAfterImages p.metadataAfterImages
        totalBlocks uuid t ⟨n, d, [], script, trace⟩).Crashed (Torn sb) img) : Lifetime P n sb img
  | recovered {d : Image} (h : Lifetime P n sb d) {script : List Sys} {trace : List (Event Block Op)}
      {r : RecoveryAction × JournalControlStore} {w' : Disk}
      (hrun : openAndResolve () ⟨n, d, [], script, trace⟩ = .ok r () w') : Lifetime P n sb w'.durable
  | recovering {d img : Image} (h : Lifetime P n sb d) {script : List Sys} {trace : List (Event Block Op)}
      (hrun : (openAndResolve () ⟨n, d, [], script, trace⟩).Crashed (Torn sb) img) : Lifetime P n sb img

/-! ## The invariant -/

/-- Undone or done, the transaction leaves metadata that agree. -/
def Interrupted.Safe (sb : Superblock) (t : Interrupted) : Prop :=
  ∀ img, t.Old sb img ∨ t.New sb img → sb.Consistent img

section Invariant

variable {P : ImageReader → PlanImages → Prop} {n : ℕ} {sb : Superblock} {d : Image} {r : ImageReader}
  {p : PlanImages}

/-- The journal does not matter for the agreement of the metadata. -/
theorem KeepsOutside.keepsUsed {img : Image} (h : KeepsOutside sb d img) (hr : sb.Regions) (hs : sb.Sound d) :
    sb.KeepsUsed d img :=
  hs.keepsUsed (O := ∅) hr (fun _ hb => hb.elim) fun b hb _ => h b hb

theorem KeepsOutside.consistent {img : Image} (h : KeepsOutside sb d img) (hr : sb.Regions) (hc : sb.Consistent d) :
    sb.Consistent img := (h.keepsUsed hr hc.toSound).consistent hr hc

theorem PlanImages.Preserves.safe (h : p.Preserves r) (hr : r.superblock.Regions)
    (hc : r.superblock.Consistent r.image) :
    Interrupted.Safe r.superblock ⟨r.image, p.orderedDataAfterImages, p.metadataAfterImages⟩ := by
  rintro img (hold | hnew)
  · exact (hc.toSound.keepsUsed (O := {b | b ∈ p.orderedDataAfterImages}) hr h.free hold).consistent hr hc
  · exact KeepsOutside.consistent (d := p.after r.image) hnew hr h.consistent

variable (hP : ∀ r p, r.superblock.Regions → r.superblock.Consistent r.image → P r p → p.Preserves r)

include hP

theorem safe_of_plan (hopen : ImageReader.adoptLockedFd n d = .ok r) (hplan : P r p) (ho : Opens n d sb c copy)
    (hc : sb.Consistent d) : Interrupted.Safe sb ⟨d, p.orderedDataAfterImages, p.metadataAfterImages⟩ := by
  obtain ⟨rfl, ho', -⟩ := ImageReader.adoptLockedFd_eq_ok.mp hopen
  obtain ⟨rfl, -, -⟩ := ho.inj ho'
  exact (hP r p ho.regions hc hplan).safe ho.regions hc

/-- The invariant: the last transaction is undone, done or still to be resolved, and both outcomes are safe. -/
theorem Lifetime.pending (h : Lifetime P n sb d) : ∃ t, Pending n sb t d ∧ t.Safe sb := by
  induction h with
  | @formatted options host w w' t t' hp _ hrun hn =>
    obtain ⟨g, base, hl, hf, -⟩ := formatImage_ok hp hrun
    have hidle := (formatImage_idle ∅ hp hrun).1
    rw [← hn] at hidle
    refine ⟨⟨w'.durable, ∅, ∅⟩, .idle hidle (Or.inl fun _ _ _ => rfl), ?_⟩
    rintro img (hold | hnew)
    · exact KeepsOutside.consistent (fun a ha => hold a ha (by simp)) hl.regions (hf.consistent hl)
    · refine KeepsOutside.consistent (fun a ha => (hnew a ha).trans ?_) hl.regions (hf.consistent hl)
      simp [Interrupted.after, Interrupted.prepared]
  | transaction _ hopen hplan hrun ih =>
    obtain ⟨t, hpend, hsafe⟩ := ih
    obtain ⟨c, copy, ho⟩ := hpend.opens
    obtain ⟨ht, ⟨c', copy', hidle⟩, hnew, -⟩ := hpend.transaction hrun
    exact ⟨_, .idle hidle (Or.inr hnew), safe_of_plan hP hopen hplan ho (hsafe _ ht)⟩
  | interrupted _ hopen hplan hrun ih =>
    obtain ⟨t, hpend, hsafe⟩ := ih
    obtain ⟨c, copy, ho⟩ := hpend.opens
    obtain ⟨-, rfl⟩ | ⟨ht, hpend', -⟩ := hpend.transaction_crash hrun
    · exact ⟨t, hpend, hsafe⟩
    · exact ⟨_, hpend', safe_of_plan hP hopen hplan ho (hsafe _ ht)⟩
  | recovered _ hrun ih =>
    obtain ⟨t, hpend, hsafe⟩ := ih
    obtain ⟨⟨c, copy, hidle⟩, ht, -⟩ := hpend.recovered hrun
    exact ⟨t, .idle hidle ht, hsafe⟩
  | recovering _ hrun ih =>
    obtain ⟨t, hpend, hsafe⟩ := ih
    exact ⟨t, (hpend.recovering hrun).1, hsafe⟩

theorem Lifetime.consistent (h : Lifetime P n sb d) (ho : Opens n d sb c copy) (hu : c.usedBlocks = 0) :
    sb.Consistent d := by
  obtain ⟨t, hpend, hsafe⟩ := h.pending hP
  exact hsafe d (hpend.idle_of_used ho hu).2

end Invariant

/-! ## The planners -/

/-- The transactions of the file system and of the object store: a change of the tree, alone or with the record of its
request, or the record alone.  `A` says which records may join an index. -/
inductive PlannedBy (A : RequestLedgerIndex → RequestLedgerRecord → Prop) (r : ImageReader) : PlanImages → Prop
  | tree {p : PlanImages} (h : TreePlan r p) : PlannedBy A r p
  | recorded {p : PlanImages} {index : RequestLedgerIndex} {record : RequestLedgerRecord}
    {ledger : RequestLedgerAppendPlan}
      {totalBlocks : UInt32} {uuid : Bytes 16} {before ordered metadata : BlockMap}
      (h : p = ⟨∅, ∅, ∅⟩ ∨ TreePlan r p)
      (hscan : scanRequestLedger r = .ok index) (hrecord : A index record)
      (happend : prepareRequestLedgerAppend r index record = .ok ledger)
      (hmerge : ledger.mergeRequestLedgerAppend totalBlocks uuid p.beforeImages p.orderedDataAfterImages
        p.metadataAfterImages = .ok (before, ordered, metadata)) : PlannedBy A r ⟨before, ordered, metadata⟩

/-- The record is one of a request that has none yet. -/
def FreshRecord (index : RequestLedgerIndex) (record : RequestLedgerRecord) : Prop := index.find record.requestId = none

theorem preserves_of_plannedBy {r : ImageReader} {p : PlanImages} (hr : r.superblock.Regions)
    (hc : r.superblock.Consistent r.image) (h : PlannedBy FreshRecord r p) : p.Preserves r := by
  cases h with
  | tree h => exact (h.sparesLedger hr hc).toPreserves
  | recorded h hscan hrecord happend hmerge =>
    rcases h with rfl | h
    · exact (sparesLedger_nothing hc).recorded hr hc hscan hrecord happend hmerge
    · exact (h.sparesLedger hr hc).recorded hr hc hscan hrecord happend hmerge

/-- A life of transactions for new requests: with a clean journal the image is healthy, and a transaction or a recovery
that returns success leaves a clean journal. -/
theorem lifetime_healthy {n : ℕ} {sb : Superblock} {d : Image} (h : Lifetime (PlannedBy FreshRecord) n sb d) :
    (∀ c copy, Opens n d sb c copy → c.usedBlocks = 0 → Healthy n d ∧ sb.Consistent d) ∧
    (∀ r p totalBlocks uuid script trace t t' w', ImageReader.adoptLockedFd n d = .ok r →
      PlannedBy FreshRecord r p →
      executeJournalTransaction p.beforeImages p.orderedDataAfterImages p.metadataAfterImages totalBlocks uuid t
        ⟨n, d, [], script, trace⟩ = .ok () t' w' → Healthy n w'.durable ∧ sb.Consistent w'.durable) ∧
    ∀ script trace r w', openAndResolve () ⟨n, d, [], script, trace⟩ = .ok r () w' →
      Healthy n w'.durable ∧ sb.Consistent w'.durable := by
  have hP : ∀ r p, r.superblock.Regions → r.superblock.Consistent r.image → PlannedBy FreshRecord r p →
    p.Preserves r :=
    fun _ _ => preserves_of_plannedBy
  have hclean : ∀ {d c copy}, Lifetime (PlannedBy FreshRecord) n sb d → Opens n d sb c copy → c.usedBlocks = 0 →
      Healthy n d ∧ sb.Consistent d := fun h ho hu =>
    ⟨(healthy_iff ho hu).mpr (h.consistent hP ho hu), h.consistent hP ho hu⟩
  obtain ⟨t, hpend, -⟩ := h.pending hP
  refine ⟨fun c copy ho hu => hclean h ho hu, fun r p _ _ _ _ _ _ w' hopen hplan hrun => ?_,
    fun _ _ _ w' hrun => ?_⟩
  · obtain ⟨-, ⟨c, copy, hidle⟩, -⟩ := hpend.transaction hrun
    exact hclean (.transaction h hopen hplan hrun) hidle.opens hidle.used
  · obtain ⟨⟨c, copy, hidle⟩, -⟩ := hpend.recovered hrun
    exact hclean (.recovered h hrun) hidle.opens hidle.used

/-! ## One request id, twice -/

section Append

variable {A : RequestLedgerIndex → RequestLedgerRecord → Prop} {n : ℕ} {sb : Superblock} {c : JournalControl}
  {copy : ControlCopy} {d : Image} {v : InodeRecord} {records : List RequestLedgerRecord} {record : RequestLedgerRecord}

/-- With room in the ring a transaction of isolated images runs to its end. -/
theorem Idle.executes {p : PlanImages} (hidle : Idle n sb c copy d) (hp : p.Isolated sb d)
    (hring : Reservable c p.metadataAfterImages.size) : ∃ script t' w',
      executeJournalTransaction p.beforeImages p.orderedDataAfterImages p.metadataAfterImages sb.totalBlocks
        sb.filesystemUuid false ⟨n, d, [], script, []⟩ = .ok () t' w' ∧
      Idle n sb (closing c p.metadataAfterImages) copy w'.durable ∧ KeepsOutside sb (p.after d) w'.durable := by
  have hr := hidle.mounts.regions
  have haccepted := hp.txnAccepted (s := .fresh sb c copy) hr rfl rfl rfl hring
  obtain ⟨script, _, t', w', ⟨-, hw⟩, hrun⟩ := completes_executeJournalTransaction (t := false)
    (w := ⟨n, d, [], [], []⟩) rfl hidle.opens haccepted
  have htxn : Txn sb c p.metadataAfterImages :=
    ⟨haccepted.plan, fun p hp => (haccepted.maps.targets p hp).1, hidle.opens.ring⟩
  obtain ⟨h1, h2, -⟩ := Idle.txn (t := ⟨d, p.orderedDataAfterImages, p.metadataAfterImages⟩) hidle htxn
    (outside_orderedWrites hr haccepted.maps)
  have hdurable : ({ w' with script := [] } : Disk).durable = _ := hw.durable
  exact ⟨_, t', _, hrun [], hdurable ▸ h1, fun a hj => (congrFun hdurable a).trans (h2 a hj)⟩

theorem Idle.append (hidle : Idle n sb c copy d) (hc : sb.Consistent d)
    (hf : sb.HasLedger) (ha : Appends ⟨d, sb, c, copy⟩ v records record)
    (hA : A (ledgerIndex v records) record) (hring : Reservable c 1) :
    ∃ p script t' w', PlannedBy A ⟨d, sb, c, copy⟩ p ∧
      executeJournalTransaction p.beforeImages p.orderedDataAfterImages p.metadataAfterImages sb.totalBlocks
        sb.filesystemUuid false ⟨n, d, [], script, []⟩ = .ok () t' w' ∧
      Idle n sb (closing c p.metadataAfterImages) copy w'.durable ∧
      KeepsOutside sb ((appendPlan ⟨d, sb, c, copy⟩ v records record).applied d) w'.durable := by
  have hscan := scanRequestLedger_of_consistent
    (r := ⟨d, sb, c, copy⟩) hc hf hidle.mounts.features ha.current ha.holds
  have happend := prepareRequestLedgerAppend_eq ha.inode ha.holds ha.room ha.valid hf
  have hmerge := @mergeRequestLedgerAppend_eq _ _ _ _ ha.inode ha.holds ha.room ha.valid ∅ ∅ ∅ (by simp)
  set plan := appendPlan ⟨d, sb, c, copy⟩ v records record
  have hin := prepareRequestLedgerAppend_block happend
  have hempty : (⟨∅, ∅, ∅⟩ : PlanImages).Isolated sb d :=
    ⟨(builds_empty d).ok, fun b hb => absurd hb (by simp), fun b hb => absurd hb (by simp)⟩
  have hisolated := hempty.setMetadata hidle.mounts.regions (by simp) hin.1.1 hin.1.2 plan.afterImage
  have hsize : ((∅ : BlockMap).insert plan.physicalBlock plan.afterImage).size = 1 := size_singleBlock
  obtain ⟨script, t', w', hrun, hidle', hkeep⟩ := hidle.executes hisolated (hsize.symm ▸ hring)
  rw [PlanImages.after_setMetadata, after_empty] at hkeep
  exact ⟨_, script, t', w', .recorded (Or.inl rfl) hscan hA happend hmerge, hrun, hidle', hkeep⟩

end Append

/-- A new file with a ledger. -/
theorem exists_ledgerLife (P : ImageReader → PlanImages → Prop) : ∃ d base, Lifetime P 32 ledgerSuperblock d ∧
    Idle 32 ledgerSuperblock (formattedControl ledgerSuperblock) .kA d ∧
    Formatted ledgerSuperblock ledgerGeometry sampleHost base d := by
  obtain ⟨s, sb, t', w', ⟨rfl, hsize⟩, hrun⟩ :=
    completes_formatImage_ledger ⟨0, fun _ => Bytes.zero _, [], [], []⟩
  have hrun := hrun []
  obtain ⟨g, base, hl, hf, -⟩ := formatImage_ok rfl hrun
  obtain rfl := ledgerLayout.geometry_unique hl (by decide)
  exact ⟨_, base, .formatted rfl (by decide) hrun hsize.symm, hsize ▸ (formatImage_idle ∅ rfl hrun).1, hf⟩

theorem reservable_formatted : Reservable (formattedControl ledgerSuperblock) 1 :=
  ⟨(formattedControl_valid ledgerLayout.regions).1, rfl, by decide, by decide, by decide, by decide⟩

/-- The life of a new file whose first record is `firstRecord`. -/
theorem exists_recordedLife (A : RequestLedgerIndex → RequestLedgerRecord → Prop)
    (hA : ∀ v, A (ledgerIndex v []) firstRecord) : ∃ d v c, Lifetime (PlannedBy A) 32 ledgerSuperblock d ∧
    Idle 32 ledgerSuperblock c .kA d ∧ Reservable c 1 ∧ ledgerSuperblock.Consistent d ∧
    ledgerSuperblock.inodeAt d kRequestLedgerInodeNumber = some v ∧
    v.LedgerHolds d [{ firstRecord with sequence := 1 }] ∧ 2 ≤ v.size.toNat / kRequestLedgerRecordSize := by
  obtain ⟨d, base, hlife, hidle, h⟩ := exists_ledgerLife (PlannedBy A)
  have hr := hidle.mounts.regions
  have hf : ledgerSuperblock.HasLedger := by decide
  have hc := h.consistent ledgerLayout
  have ha := h.appends
  obtain ⟨p, script, t', w', hp, hrun, hidle', hkeep⟩ := hidle.append hc hf ha (hA _) reservable_formatted
  have happlied := consistent_applied hc ha.allocated ha.inode ha.holds ha.room ha.valid (by simp) hr
  have htree : ledgerSuperblock.KeepsTree d ((appendPlan _ _ [] firstRecord).applied d) :=
    keepsTree_applied hc ha.allocated ha.inode ha.room
  have hv' := (htree.inodeAt_eq hr ha.allocated).trans ha.current
  have hh' := ledgerHolds_applied hc ha.allocated ha.inode ha.holds ha.room ha.valid (by simp)
  -- the journal apart, the image is the one the append asks for
  have hn := ((happlied.ledger hf).mem_inodes happlied.toSound).1
  have hkept := (hkeep.keepsUsed hr happlied.toSound).keeps hr hn
  obtain ⟨w, hw, hmapped⟩ := happlied.inode _ hn
  obtain rfl := Option.some.inj (hw.symm.trans hv')
  refine ⟨w'.durable, _, _, .transaction hlife (hc.toSound.adoptLockedFd hidle.opens) hp hrun, hidle', ?_,
    hkeep.consistent hr happlied, (Superblock.inodeAt_of_slot hkept.slot).trans hw,
    InodeRecord.ledgerHolds_frame hmapped (hkept.owned hw) hh', by decide⟩
  refine ⟨hidle'.opens.valid, rfl, by decide, by decide, ?_, ?_⟩
  · show 1 + 2 ≤ (formattedControl ledgerSuperblock).ringBlocks.toNat
    decide
  · show ((formattedControl ledgerSuperblock).nextTransactionId + 1).toNat ≠ 2 ^ 64 - 1
    decide

/-- A second record for the same request is planned and committed, and the image is not healthy any more. -/
theorem duplicate_record_unhealthy : ∃ d c, Lifetime (PlannedBy fun _ _ => True) 32 ledgerSuperblock d ∧
    Opens 32 d ledgerSuperblock c .kA ∧ c.usedBlocks = 0 ∧ ¬ Healthy 32 d := by
  obtain ⟨d, v, c, hlife, hidle, hring, hc, hv, hh, hroom⟩ := exists_recordedLife (fun _ _ => True) fun _ => trivial
  have hr := hidle.mounts.regions
  have hf : ledgerSuperblock.HasLedger := by decide
  have ha := @appends_of_consistent ⟨d, ledgerSuperblock, c, .kA⟩ _ _ firstRecord hc hf hv hh hroom (by decide)
  obtain ⟨p, script, t', w', hp, hrun, hidle', hkeep⟩ := hidle.append (A := fun _ _ => True) hc hf ha trivial hring
  refine ⟨w'.durable, _, .transaction hlife (hc.toSound.adoptLockedFd hidle.opens) hp hrun, hidle'.opens, rfl,
    fun hbad => ?_⟩
  have hc' := (healthy_iff hidle'.opens rfl).mp hbad
  have hback : KeepsOutside ledgerSuperblock w'.durable _ := fun a hj => (hkeep a hj).symm
  exact not_consistent_applied hc ha hr hf (by simp) (hback.consistent hr hc')

/-- A new file takes its first record; it is healthy, and so is what a transaction and a recovery leave. -/
theorem lifetime_healthy_sample : ∃ d, ∃ p : PlanImages, ∃ script t w script' r w',
    Lifetime (PlannedBy FreshRecord) 32 ledgerSuperblock d ∧
    executeJournalTransaction p.beforeImages p.orderedDataAfterImages p.metadataAfterImages 32
      ledgerSuperblock.filesystemUuid false ⟨32, d, [], script, []⟩ = .ok () t w ∧
    openAndResolve () ⟨32, d, [], script', []⟩ = .ok r () w' ∧
    Healthy 32 d ∧ Healthy 32 w.durable ∧ Healthy 32 w'.durable := by
  obtain ⟨d, base, hlife, hidle, h⟩ := exists_ledgerLife (PlannedBy FreshRecord)
  have hc := h.consistent ledgerLayout
  obtain ⟨p, script, t, w, hp, hrun, -, -⟩ :=
    hidle.append (A := FreshRecord) hc (by decide) h.appends rfl reservable_formatted
  obtain ⟨script', r, t', w', -, hrecovery⟩ := completes_openAndResolve (w := ⟨32, d, [], [], []⟩) hidle.opens
    fun hu => absurd hidle.used hu
  obtain ⟨hclean, htransaction, hrecovered⟩ := lifetime_healthy hlife
  have hopen := hc.toSound.adoptLockedFd hidle.opens
  exact ⟨d, p, script, t, w, _, r, _, hlife, hrun, hrecovery [], (hclean _ _ hidle.opens hidle.used).1,
    (htransaction _ p _ _ _ _ _ _ w hopen hp hrun).1, (hrecovered _ _ r _ (hrecovery [])).1⟩

end Eufs
