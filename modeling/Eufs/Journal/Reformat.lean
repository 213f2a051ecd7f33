import Eufs.Journal.History

/-!
# Eufs.Journal.Reformat — the first transaction on a file that was used before

Formatting does not write the ring, and transaction ids start at 1 again.  So the slot where the first transaction
puts its COMMIT may already hold a COMMIT with the id 1, of a file system that was there before.  Recovery reads that
slot when the transaction is exposed and its own COMMIT is lost.  `reformat_recovers_iff`: the first transaction is
undone by recovery in every such crash exactly when there is no such leftover.
-/

namespace Eufs

open Prog Crashes

/-- Before formatting, the slot of the first transaction's COMMIT held a COMMIT with the id 1. -/
def StaleCommit (sb : Superblock) (metadata : BlockMap) (old : Image) : Prop :=
  ∃ r, decodeCommit (old (commitSlot sb (formattedControl sb) metadata)) = .ok r ∧ r.transactionId = 1

/-- Recovery of `img` succeeds unless an I/O error stops it, finds nothing to do or discards, and leaves the metadata
of `t` as it was. -/
structure RecoversUndone (n : ℕ) (sb : Superblock) (t : Interrupted) (img : Image) : Prop extends Recovers n img where
  undone : ∀ script trace r t' w', openAndResolve () ⟨n, img, [], script, trace⟩ = .ok r t' w' →
    (r.1 = .kNoAction ∨ r.1 = .kDiscarded) ∧ t.Old sb w'.durable

/-- In `img` the COMMIT of the transaction after `c` is lost: its slot is as in `d`, or is no COMMIT. -/
def LostCommit (sb : Superblock) (c : JournalControl) (metadata : BlockMap) (d img : Image) : Prop :=
  img (commitSlot sb c metadata) = d (commitSlot sb c metadata) ∨ NoCommit (img (commitSlot sb c metadata))

section Undone

variable {n : ℕ} {sb : Superblock} {c : JournalControl} {copy : ControlCopy} {d img : Image} {t : Interrupted}

/-- The image opens, and what it exposes, if anything, is found uncommitted. -/
def Discardable (n : ℕ) (sb : Superblock) (img : Image) : Prop :=
  ∃ c copy, Opens n img sb c copy ∧ (c.usedBlocks ≠ 0 → ∃ v, classify sb c img = .ok (false, v))

theorem Discardable.recoversUndone (h : Discardable n sb img) (ht : t.Old sb img) : RecoversUndone n sb t img := by
  obtain ⟨c, copy, ho, hc⟩ := h
  have hclass : c.usedBlocks ≠ 0 → ∃ r, classify sb c img = .ok r := fun hu => by
    obtain ⟨v, hv⟩ := hc hu
    exact ⟨_, hv⟩
  refine ⟨ho.recovers hclass, fun script trace r t' w' hrun => ?_⟩
  · obtain ⟨⟨hr, -⟩, hw⟩ := Ends.ok (ho.phased_recovery hclass) hrun
    rw [hw.durable]
    -- nothing outside the journal is written
    have hkeep : c.usedBlocks = 0 ∨ (∃ v, classify sb c img = .ok (false, v)) →
        KeepsOutside sb img (applyWrites (recoveryBatches sb c copy img).flatten img) := by
      rintro (hu | ⟨v, hv⟩) a ha
      · rw [recoveryBatches, if_pos hu]
        rfl
      · unfold recoveryBatches
        rw [hv]
        split_ifs with hu
        · rfl
        · exact (crash_control_frame ho.regions (all _ _ _)).2 a ha
    obtain ⟨action, store⟩ := r
    change Resolved _ _ action store at hr
    cases hr with
    | noAction hu => exact ⟨Or.inl rfl, (hkeep (Or.inl hu)).old ht⟩
    | discarded hu hv => exact ⟨Or.inr rfl, (hkeep (Or.inr ⟨_, hv⟩)).old ht⟩
    | replayed hu hv =>
      obtain ⟨v, hv'⟩ := hc hu
      cases hv'.symm.trans hv

variable {metadata : BlockMap}

theorem Idle.discardable (h : Idle n sb c copy img) : Discardable n sb img :=
  ⟨c, copy, h.opens, fun hu => absurd h.used hu⟩

/-- An exposed body is discarded when its slot holds no COMMIT with its id. -/
theorem Exposed.discardable (h : Exposed n sb c copy metadata img)
    (hslot : ∀ r, decodeCommit (img (commitSlot sb c metadata)) = .ok r → r.transactionId ≠ c.nextTransactionId) :
    Discardable n sb img :=
  ⟨_, _, h.opens, fun _ => h.holds.classify_uncommitted h.txn.plan h.txn.targets hslot⟩

/-- A crash after the COMMIT is durable: it stays in its slot. -/
theorem commit_stays {op : Op} (hsb : sb.Regions) (ht : Txn sb c metadata)
    (hc : CrashesIn (Torn sb) d [homeWrites op metadata, [controlWrite sb copy (closing c metadata)]] img) :
    img (commitSlot sb c metadata) = d (commitSlot sb c metadata) := by
  have hlt : (reservation c metadata.size).commitRingIndex.toNat < sb.ringBlocks := ht.commit_lt
  have hhome : ∀ {img}, Crashes (Torn sb) d (homeWrites op metadata) img → KeepsRing sb d img := fun h =>
    ((outside_homeWrites op ht.targets).crash hsb h).2
  rcases hc with hc | hc
  · exact hhome hc _ hlt
  · exact ((crash_control_frame hsb hc.single).1 _ hlt).trans (hhome (all _ _ _) _ hlt)

/-- A crash of the transaction after the clean control `c` that loses its COMMIT leaves something to discard, when the
slot held no COMMIT with its id before. -/
theorem Idle.discardable_of_crash (h : Idle n sb c copy t.before) (ht : Txn sb c t.metadata)
    (ho : Outside sb (orderedWrites t.ordered))
    (hfree : ∀ r, decodeCommit (t.before (commitSlot sb c t.metadata)) = .ok r →
      r.transactionId ≠ c.nextTransactionId)
    (hc : CrashesIn (Torn sb) t.before (txnBatches sb c copy t.ordered t.metadata) img)
    (hlost : LostCommit sb c t.metadata t.before img) : Discardable n sb img ∧ t.Old sb img := by
  have hfree' : ∀ r, decodeCommit (img (commitSlot sb c t.metadata)) = .ok r →
    r.transactionId ≠ c.nextTransactionId := by
    intro r hr
    rcases hlost with he | hn
    · exact hfree r (he ▸ hr)
    · exact absurd hr (hn r)
  rcases h.txn_crash_cases ht ho hc with ⟨copy', h', hold, -⟩ | ⟨h', hk, -⟩ | hc
  · exact ⟨h'.discardable, hold⟩
  · exact ⟨h'.discardable hfree', Interrupted.old_of_prepared hk⟩
  · -- from here on the COMMIT is in its slot, so it was not lost
    have hcommit := (commit_stays h.mounts.regions ht hc).trans (h.committed ht ho).2.2.1
    have hdec : decodeCommit (commitBytes (commitRecord sb (txnBody sb c t.metadata))) = .ok _ :=
      decodeCommit_commitBytes (txnCommit_fields ht.plan)
    rw [← hcommit] at hdec
    exact absurd rfl (hfree' _ hdec)

/-- The transaction is exposed once its control is written; the slot of the COMMIT is as before. -/
theorem Idle.exposed_first {ordered : BlockMap} (h : Idle n sb c copy d) (ht : Txn sb c metadata)
    (ho : Outside sb (orderedWrites ordered)) :
    let img := applyWrites [controlWrite sb copy.other (exposing c metadata)]
      (applyWrites (orderedBatches ordered ++ [bodyWrites sb c metadata]).flatten d)
    Exposed n sb c copy.other metadata img ∧ img (commitSlot sb c metadata) = d (commitSlot sb c metadata) := by
  have hsb := h.mounts.regions
  have hlt : (reservation c metadata.size).commitRingIndex.toNat < sb.ringBlocks := ht.commit_lt
  obtain ⟨hk, hr, -⟩ := ordered_crash (t := ⟨d, ordered, metadata⟩) hsb ho (CrashesIn.all _ _ _)
  rw [List.flatten_append, applyWrites_append]
  generalize applyWrites (orderedBatches ordered).flatten d = d₁ at hk hr
  have hbody := ((h.keep hk).body_crash ht (all _ _ _)).1
  have hholds : HoldsBody sb c metadata (applyWrites (bodyWrites sb c metadata) d₁) := holdsBody_applyWrites ht.plan
  have hring := (hbody.expose_crash ht hholds (all _ _ _)).2.1
  rw [List.flatten_singleton]
  refine ⟨hbody.expose ht hholds, ?_⟩
  exact ((hring _ hlt).trans ht.body_slot).trans (hr _ hlt)

/-- A leftover COMMIT with the id of the exposed transaction: recovery does not discard. -/
theorem Exposed.not_discards (h : Exposed n sb c copy metadata img) {r : CommitRecord} {v : ValidatedTransaction}
    (hr : decodeCommit (img (commitSlot sb c metadata)) = .ok r) (hid : r.transactionId = c.nextTransactionId) :
    classify sb (exposing c metadata) img ≠ .ok (false, v) := by
  intro hv
  obtain ⟨-, desc, m, hbody, hcommit, -⟩ := classify_eq_ok.mp hv
  rw [h.holds.exposedBody h.txn.plan h.txn.targets] at hbody
  obtain ⟨rfl, rfl⟩ : storedDescriptor sb c metadata = desc ∧ metadata = m := by simpa using Except.ok.inj hbody
  rw [commitRingIndex_stored h.txn.plan] at hcommit
  by_cases hm : commitMatchesDescriptor (storedDescriptor sb c metadata) (exposing c metadata).tail r
  · cases (checkCommit_of_matches hr hm).symm.trans hcommit
  · cases (checkCommit_of_mismatch hr hid hm).symm.trans hcommit

end Undone

section Reformat

variable {options : MkfsOptions} {host : MkfsHost} {sb : Superblock} {w w' : Disk} {t t' : Unit}
  {before ordered metadata : BlockMap} {totalBlocks : UInt32} {uuid : Uuid}

/-- What a formatted file and a transaction its store accepts are to the lemmas above. -/
theorem formatImage_idle (metadata : BlockMap) (hp : w.pending = [])
    (hrun : formatImage options host t w = .ok sb t' w') : Idle w'.size sb (formattedControl sb) .kA w'.durable ∧
      w'.durable (commitSlot sb (formattedControl sb) metadata) =
        resized sb.totalBlocks.toNat w (commitSlot sb (formattedControl sb) metadata) := by
  obtain ⟨g, base, hl, hf, hsize, -, hbase⟩ := formatImage_ok hp hrun
  obtain ⟨hv, hr⟩ := formattedControl_valid hl.regions
  have hlt : (reservation (formattedControl sb) metadata.size).commitRingIndex.toNat < sb.ringBlocks := by
    have := hv.ring
    exact (show (advance (formattedControl sb).head _ (formattedControl sb).ringBlocks).toNat < _ from
      advance_lt (by omega)).trans_eq hr
  refine ⟨hsize ▸ hf.idle hl, ?_⟩
  rw [commitSlot, hf.keepsRing hl _ hlt]
  refine hbase _ fun h0 => ?_
  have := hl.regions.journal_start_pos
  rw [Superblock.ringBlock] at h0
  omega

/-- The first transaction after formatting is undone in every crash that loses its COMMIT exactly when the file held no
COMMIT with the id 1 in that slot before. -/
theorem reformat_recovers_iff (hp : w.pending = []) (hrun : formatImage options host t w = .ok sb t' w')
    (hacc : Accepts w'.size w'.durable totalBlocks uuid before ordered metadata) :
    (∀ script trace s img,
      (executeJournalTransaction before ordered metadata totalBlocks uuid s
        ⟨w'.size, w'.durable, [], script, trace⟩).Crashed (Torn sb) img →
      LostCommit sb (formattedControl sb) metadata w'.durable img →
      RecoversUndone w'.size sb ⟨w'.durable, ordered, metadata⟩ img) ↔
    ¬ StaleCommit sb metadata (resized sb.totalBlocks.toNat w) := by
  obtain ⟨hidle, hslot⟩ := formatImage_idle metadata hp hrun
  obtain ⟨sb', c, copy, ho, ha⟩ := hacc
  obtain ⟨rfl, rfl, rfl⟩ := (hidle.opens).inj ho
  have ht : Txn sb' (formattedControl sb') metadata := ⟨ha.plan, fun p hp => (ha.maps.targets p hp).1, ho.ring⟩
  have hout : Outside sb' (orderedWrites ordered) := outside_orderedWrites ho.regions ha.maps
  constructor
  · rintro hall ⟨r, hr, hid⟩
    -- the machine stops with the transaction exposed and nothing of the COMMIT on disk
    obtain ⟨script, v, ⟨hv, -⟩, hstop⟩ := stops_executeJournalTransaction (t := false)
      (w := ⟨w'.size, w'.durable, [], [], []⟩) rfl ho ha
    obtain ⟨hexp, hkeep⟩ := hidle.exposed_first ht hout
    rw [← hv] at hexp hkeep
    have hlost : LostCommit sb' (formattedControl sb') metadata w'.durable v.durable := Or.inl hkeep
    have hcrash : (executeJournalTransaction before ordered metadata totalBlocks uuid false
        ⟨w'.size, w'.durable, [], script, []⟩).Crashed (Torn sb') v.durable := by
      rw [hstop]
      exact fun a => Or.inl rfl
    have hrec := hall script [] false v.durable hcrash hlost
    rw [← hslot, ← hkeep] at hr
    -- a recovery that returns would have discarded the transaction
    obtain ⟨s, res, t₁, w₁, -, hres⟩ := hrec.returns
    have hact := (hrec.undone _ _ _ _ _ (hres [])).1
    obtain ⟨⟨hresolved, -⟩, -⟩ := Ends.ok (phased_openAndResolve (L := fun _ => True) (K := fun _ => True)
      (R := fun _ => True) (w := ⟨w'.size, v.durable, [], s ++ [], []⟩) rfl (hexp.opens) trivial trivial
      (fun _ _ _ => trivial)) (hres [])
    obtain ⟨action, store⟩ := res
    change Resolved _ _ action store at hresolved
    cases hresolved with
    | noAction hu => exact ht.exposing_used hu
    | discarded hu hv' => exact hexp.not_discards hr hid hv'
    | replayed hu hv' =>
      rcases hact with h | h
      · cases h
      · cases h
  · intro hfree script trace s img hcrash hlost
    have hin := hcrash.crashesIn (phased_executeJournalTransaction (w := ⟨w'.size, w'.durable, [], script, trace⟩)
      (R := fun _ => False) rfl ho (fun _ => rfl) (fun hn => absurd ha hn)) rfl
    have hnone : ∀ r, decodeCommit (w'.durable (commitSlot sb' (formattedControl sb') metadata)) = .ok r →
        r.transactionId ≠ 1 := fun r hr he => hfree ⟨r, hslot ▸ hr, he⟩
    obtain ⟨h1, h2⟩ := Idle.discardable_of_crash
      (t := ⟨w'.durable, ordered, metadata⟩) hidle ht hout hnone hin hlost
    exact h1.recoversUndone h2

end Reformat

/-! ## A file with and without a leftover -/

/-- A COMMIT of the first transaction of another file system with the same geometry. -/
def staleCommit : CommitRecord where
  transactionId := 1
  filesystemUuid := Vector.replicate 16 1
  entryCount := 1
  transactionBlockCount := 3
  descriptorRingIndex := 0
  descriptorCrc32c := 0

/-- A file whose third ring slot holds `x`. -/
def usedFile (x : Block) : Disk := ⟨16, Function.update (fun _ => Bytes.zero _) 8 x, [], [], []⟩

theorem commitSlot_sample (x : Block) :
    commitSlot sampleSuperblock (formattedControl sampleSuperblock) (singleBlock 1 x) = 8 := by
  unfold commitSlot
  rw [size_singleBlock]
  decide

/-- Overwriting the file succeeds and leaves the slot as it is. -/
theorem reformat_usedFile (x : Block) : ∃ s w', formatImage { sampleOptions with force := true } sampleHost ()
      { usedFile x with script := s } = .ok sampleSuperblock () w' ∧ w'.size = 16 ∧ w'.durable 8 = x ∧
    Idle 16 sampleSuperblock (formattedControl sampleSuperblock) .kA w'.durable := by
  obtain ⟨s, sb, t', w', ⟨rfl, hsize⟩, hrun⟩ := completes_formatImage_sample true (usedFile x)
  obtain ⟨hidle, hslot⟩ := formatImage_idle (singleBlock 1 x) rfl (hrun [])
  rw [commitSlot_sample] at hslot
  have hold : resized 16 { usedFile x with script := s ++ [] } 8 = x := by simp [resized, usedFile]
  exact ⟨s ++ [], _, hrun [], hsize, hslot.trans hold, hsize ▸ hidle⟩

theorem reformat_recovers_sample : ∃ s w', formatImage { sampleOptions with force := true } sampleHost ()
      { usedFile (Bytes.zero _) with script := s } = .ok sampleSuperblock () w' ∧
    ∀ script trace b img,
    (executeJournalTransaction (singleBlock 1 (w'.durable 1)) ∅ (singleBlock 1 (Bytes.zero _)) 16
        sampleSuperblock.filesystemUuid b ⟨w'.size, w'.durable, [], script, trace⟩).Crashed
        (Torn sampleSuperblock) img →
      LostCommit sampleSuperblock (formattedControl sampleSuperblock) (singleBlock 1 (Bytes.zero _)) w'.durable img →
      RecoversUndone w'.size sampleSuperblock ⟨w'.durable, ∅, singleBlock 1 (Bytes.zero _)⟩ img := by
  obtain ⟨s, w', hrun, hsize, -, hidle⟩ := reformat_usedFile (Bytes.zero _)
  refine ⟨s, w', hrun, (reformat_recovers_iff rfl hrun ?_).mpr ?_⟩
  · rw [hsize]
    exact sampleAccepts _ (hidle.opens) sampleReservable
  · rintro ⟨r, hr, -⟩
    rw [commitSlot_sample] at hr
    exact noCommit_zero r (by simpa [resized, usedFile] using hr)

/-- With the leftover, a crash before the COMMIT is written makes recovery fail, with no I/O error. -/
theorem reformat_finds_stale_commit : ∃ s w', formatImage { sampleOptions with force := true } sampleHost ()
      { usedFile (commitBytes staleCommit) with script := s } = .ok sampleSuperblock () w' ∧
    ∃ script img, (executeJournalTransaction (singleBlock 1 (w'.durable 1)) ∅ (singleBlock 1 (Bytes.zero _)) 16
        sampleSuperblock.filesystemUuid false ⟨16, w'.durable, [], script, []⟩).Crashed
        (Torn sampleSuperblock) img ∧
      LostCommit sampleSuperblock (formattedControl sampleSuperblock) (singleBlock 1 (Bytes.zero _)) w'.durable img ∧
      Fails openAndResolve () ⟨16, img, [], [], []⟩
        ⟨.EUCLEAN, "current COMMIT is inconsistent: commit does not bind to the decoded descriptor"⟩
        fun _ v => v.faults = 0 := by
  obtain ⟨s, w', hrun, hsize, hslot, hidle⟩ := reformat_usedFile (commitBytes staleCommit)
  have ho := hidle.opens
  obtain ⟨sb, c, copy, ho', ha⟩ := sampleAccepts (Bytes.zero _) ho sampleReservable
  obtain ⟨rfl, rfl, rfl⟩ := ho.inj ho'
  obtain ⟨script, v, ⟨hv, -⟩, hstop⟩ := stops_executeJournalTransaction (t := false)
    (w := ⟨16, w'.durable, [], [], []⟩) rfl ho ha
  have ht : Txn sampleSuperblock (formattedControl sampleSuperblock) (singleBlock 1 (Bytes.zero _)) :=
    ⟨ha.plan, fun p hp => (ha.maps.targets p hp).1, ho.ring⟩
  obtain ⟨hexp, hkeep⟩ := hidle.exposed_first ht (outside_orderedWrites ho.regions ha.maps)
  rw [← hv] at hexp hkeep
  refine ⟨s, w', hrun, script, v.durable, ?_, Or.inl hkeep, ?_⟩
  · rw [hstop]
    exact fun a => Or.inl rfl
  have hdec : decodeCommit (v.durable (commitSlot sampleSuperblock (formattedControl sampleSuperblock)
      (singleBlock 1 (Bytes.zero _)))) = .ok staleCommit := by
    rw [hkeep, commitSlot_sample, hslot]
    exact decodeCommit_commitBytes (by decide)
  have huuid : sampleSuperblock.filesystemUuid ≠ staleCommit.filesystemUuid := by decide
  refine fails_openAndResolve (w := ⟨16, v.durable, [], [], []⟩) (hexp.opens) ht.exposing_used
    (one_lt_exposed_id ht.plan) (hexp.holds.exposedBody ht.plan ht.targets) ?_
  rw [commitRingIndex_stored ht.plan]
  exact checkCommit_of_mismatch hdec rfl fun hmatch => huuid hmatch.2.1

end Eufs
