import Eufs.Journal.Atomicity

/-!
# Eufs.Journal.History — crash atomicity over whole histories

A history starts from a file that was formatted new and goes on with transactions, recoveries and crashes at any point
of either.  Its images are `Pending` and `Guarded`; from them every recovery that meets no I/O error succeeds, and
undoes or completes the transaction that was interrupted.
-/

namespace Eufs

open Prog Interrupted

variable {sb : Superblock} {d : Image} {w' : Disk} {t : Bool}

/-- The run did not return, or returned an error, and `img` is what a crash then leaves. -/
def Res.Crashed {τ α : Type} (T : ℕ → Block → Block → Prop) (r : Res τ Block Op α) (img : Image) : Prop :=
  match r with
  | .ok _ _ _ => False
  | .fail _ _ w => w.Crash T img
  | .stop w => w.Crash T img

/-- The store that opens `d` accepts the transaction. -/
def Accepts (n : ℕ) (d : Image) (totalBlocks : UInt32) (uuid : Uuid) (before ordered metadata : BlockMap) : Prop :=
  ∃ sb c copy, Opens n d sb c copy ∧ TxnAccepted (.fresh sb c copy) d totalBlocks uuid before ordered metadata

/-- Histories of one file: `d` is durable, and `x` is the transaction that was interrupted since the last one that
ended and the last recovery that ended, if there is one. -/
inductive History (n : ℕ) (sb : Superblock) : Image → Option Interrupted → Prop
  | formatted {options : MkfsOptions} {host : MkfsHost} {w w' : Disk} {t t' : Unit} (hp : w.pending = [])
      (hnew : ∀ a < w.size, w.durable a = Bytes.zero _) (hrun : formatImage options host t w = .ok sb t' w')
      (hn : n = w'.size) : History n sb w'.durable none
  | committed {d : Image} {x : Option Interrupted} (h : History n sb d x) {before ordered metadata : BlockMap}
      {totalBlocks : UInt32} {uuid : Uuid} {script : List Sys} {trace : List (Event Block Op)} {t t' : Bool} {w' : Disk}
      (hno : ∀ p ∈ metadata.toList, NoCommit p.2)
      (hrun : executeJournalTransaction before ordered metadata totalBlocks uuid t ⟨n, d, [], script, trace⟩ =
        .ok () t' w') : History n sb w'.durable none
  | interrupted {d img : Image} {x : Option Interrupted} (h : History n sb d x) {before ordered metadata : BlockMap}
      {totalBlocks : UInt32} {uuid : Uuid} {script : List Sys} {trace : List (Event Block Op)} {t : Bool}
      (hno : ∀ p ∈ metadata.toList, NoCommit p.2) (hacc : Accepts n d totalBlocks uuid before ordered metadata)
      (hrun : (executeJournalTransaction before ordered metadata totalBlocks uuid t
        ⟨n, d, [], script, trace⟩).Crashed (Torn sb) img) : History n sb img (some ⟨d, ordered, metadata⟩)
  | refused {d img : Image} {x : Option Interrupted} (h : History n sb d x) {before ordered metadata : BlockMap}
      {totalBlocks : UInt32} {uuid : Uuid} {script : List Sys} {trace : List (Event Block Op)} {t : Bool}
      (hacc : ¬ Accepts n d totalBlocks uuid before ordered metadata)
      (hrun : (executeJournalTransaction before ordered metadata totalBlocks uuid t
        ⟨n, d, [], script, trace⟩).Crashed (Torn sb) img) : History n sb img x
  | recovered {d : Image} {x : Option Interrupted} (h : History n sb d x) {script : List Sys}
      {trace : List (Event Block Op)} {t t' : Unit} {r : RecoveryAction × JournalControlStore} {w' : Disk}
      (hrun : openAndResolve t ⟨n, d, [], script, trace⟩ = .ok r t' w') : History n sb w'.durable none
  | recovering {d img : Image} {x : Option Interrupted} (h : History n sb d x) {script : List Sys}
      {trace : List (Event Block Op)} {t : Unit}
      (hrun : (openAndResolve t ⟨n, d, [], script, trace⟩).Crashed (Torn sb) img) : History n sb img x

/-! ## Runs that do not return -/

section Crashed

variable {τ α : Type} {T : ℕ → Block → Block → Prop} {L K : τ → Prop} {R : Failure → Prop}
  {Q : α → τ → Prop} {m : Io τ α} {t : τ} {w : Disk} {ps : List (List (Write Block Op))} {img : Image}

/-- A crash of a program with batches `ps` is a crash among those batches. -/
theorem Res.Crashed.crashesIn (hm : Phased L m t w ps Q K R) (hp : w.pending = []) (h : (m t w).Crashed T img) :
    CrashesIn T w.durable ps img := by
  unfold Phased Ends at hm
  cases hr : m t w with
  | ok a t' w' =>
    rw [hr] at h
    exact h.elim
  | fail e t' w' =>
    rw [hr] at hm h
    rcases hm with ⟨hw, -⟩ | ⟨hw, -⟩
    · exact hw.crashesIn h
    · have himg := World.Crash.eq_of_pending_nil h (hw.pending.trans hp)
      rw [himg, hw.durable]
      cases ps with
      | nil => rfl
      | cons B ps => exact Or.inl fun a => Or.inl rfl
  | stop w' =>
    rw [hr] at hm h
    exact hm.crashesIn h

end Crashed

/-! ## Runs -/

section Runs

variable {n : ℕ} {c : JournalControl} {copy : ControlCopy} {img : Image} {t : Interrupted} {totalBlocks : UInt32}
  {uuid : Uuid} {before ordered metadata : BlockMap} {script : List Sys} {trace : List (Event Block Op)} {s s' : Bool}

/-- Recovery as a list of batches, when classification succeeds. -/
theorem Opens.phased_recovery (ho : Opens n d sb c copy) (hc : c.usedBlocks ≠ 0 → ∃ r, classify sb c d = .ok r)
    {τ : Type} {t : τ} :
    Phased (fun _ => True) openAndResolve t ⟨n, d, [], script, trace⟩ (recoveryBatches sb c copy d)
      (fun r t' => Resolved (.fresh sb c copy) d r.1 r.2 ∧ t' = t) (fun _ => True) (fun _ => False) := by
  refine phased_openAndResolve (w := ⟨n, d, [], script, trace⟩) rfl ho trivial trivial fun hu e he => ?_
  obtain ⟨r, hr⟩ := hc hu
  cases hr.symm.trans he

theorem Opens.recovery_fails (ho : Opens n d sb c copy)
    (hc : c.usedBlocks ≠ 0 → ∃ r, classify sb c d = .ok r) {e : Failure} {t' : Unit}
    (hrun : openAndResolve () ⟨n, d, [], script, trace⟩ = .fail e t' w') :
    World.faults (⟨n, d, [], script, trace⟩ : Disk) < w'.faults := by
  rcases Ends.fail (ho.phased_recovery hc) hrun with ⟨-, -, hf⟩ | ⟨-, -, hf | hf⟩
  · exact hf
  · exact hf
  · exact hf.elim

/-- Recovery of `img` succeeds unless an I/O error stops it. -/
structure Recovers (n : ℕ) (img : Image) : Prop where
  returns : Completes openAndResolve () ⟨n, img, [], [], []⟩ fun _ _ w' => w'.faults = 0
  fails : ∀ script trace e t' w', openAndResolve () ⟨n, img, [], script, trace⟩ = .fail e t' w' →
    World.faults (⟨n, img, [], script, trace⟩ : Disk) < w'.faults

theorem Opens.recovers (ho : Opens n img sb c copy) (hc : c.usedBlocks ≠ 0 → ∃ r, classify sb c img = .ok r) :
    Recovers n img :=
  ⟨completes_openAndResolve (w := ⟨n, img, [], [], []⟩) ho hc, fun _ _ _ _ _ hrun => ho.recovery_fails hc hrun⟩

namespace Pending

/-- A store takes a transaction only where nothing is exposed. -/
theorem accepted (h : Pending n sb t d) (ho : Opens n d sb c copy)
    (ha : TxnAccepted (.fresh sb c copy) d totalBlocks uuid before ordered metadata) :
    Idle n sb c copy d ∧ (t.Old sb d ∨ t.New sb d) ∧ Txn sb c metadata ∧
    Outside sb (orderedWrites ordered) := by
  obtain ⟨hidle, ht⟩ := h.idle_of_used ho ha.plan.clean
  exact ⟨hidle, ht, ⟨ha.plan, fun p hp => (ha.maps.targets p hp).1, ho.ring⟩,
    outside_orderedWrites ho.regions ha.maps⟩

theorem transaction (h : Pending n sb t d)
    (hrun : executeJournalTransaction before ordered metadata totalBlocks uuid s ⟨n, d, [], script, trace⟩ =
      .ok () s' w') :
    (t.Old sb d ∨ t.New sb d) ∧ (∃ c copy, Idle n sb c copy w'.durable) ∧
      Interrupted.New sb ⟨d, ordered, metadata⟩ w'.durable ∧
      (Guarded n sb d → (∀ p ∈ metadata.toList, NoCommit p.2) → Guarded n sb w'.durable) := by
  obtain ⟨c, copy, ho⟩ := h.opens
  obtain ⟨⟨ha, -⟩, hw⟩ :=
    Ends.ok (phased_executeJournalTransaction (w := ⟨n, d, [], script, trace⟩) (R := fun _ => True)
    rfl ho (fun _ => rfl) (fun _ _ => trivial)) hrun
  obtain ⟨hidle, ht, htxn, hout⟩ := h.accepted ho ha
  obtain ⟨h1, h2, hg⟩ := Idle.txn (t := ⟨d, ordered, metadata⟩) hidle htxn hout
  rw [hw.durable]
  exact ⟨ht, ⟨_, _, h1⟩, h2, fun hd hno => hg ⟨(hd.of_opens ho).1, hno⟩⟩

/-- A transaction that does not return: it was refused and nothing was written, or it is the one to be recovered now. -/
theorem transaction_crash (h : Pending n sb t d)
    (hrun : (executeJournalTransaction before ordered metadata totalBlocks uuid s ⟨n, d, [], script, trace⟩).Crashed
      (Torn sb) img) :
    (¬ Accepts n d totalBlocks uuid before ordered metadata ∧ img = d) ∨
      ((t.Old sb d ∨ t.New sb d) ∧ Pending n sb ⟨d, ordered, metadata⟩ img ∧
        (Guarded n sb d → (∀ p ∈ metadata.toList, NoCommit p.2) → Guarded n sb img) ∧
        Accepts n d totalBlocks uuid before ordered metadata) := by
  obtain ⟨c, copy, ho⟩ := h.opens
  by_cases ha : TxnAccepted (.fresh sb c copy) d totalBlocks uuid before ordered metadata
  · obtain ⟨hidle, ht, htxn, hout⟩ := h.accepted ho ha
    obtain ⟨hp, hg⟩ := Idle.txn_crash (t := ⟨d, ordered, metadata⟩) hidle htxn hout <|
      hrun.crashesIn (phased_executeJournalTransaction (w := ⟨n, d, [], script, trace⟩) (R := fun _ => False) rfl ho
        (fun _ => rfl) (fun hn => absurd ha hn)) rfl
    exact Or.inr ⟨ht, hp, fun hd hno => hg ⟨(hd.of_opens ho).1, hno⟩, sb, c, copy, ho, ha⟩
  · have hin : CrashesIn (Torn sb) d [] img := hrun.crashesIn (phased_executeJournalTransaction
      (w := ⟨n, d, [], script, trace⟩) (R := fun _ => True) rfl ho (fun ha' => absurd ha' ha)
      (fun _ _ => trivial)) rfl
    refine Or.inl ⟨fun hacc => ?_, hin⟩
    obtain ⟨sb', c', copy', ho', ha'⟩ := hacc
    obtain ⟨rfl, rfl, rfl⟩ := ho.inj ho'
    exact ha ha'

theorem phased (ho : Opens n d sb c copy) :
    Phased (fun _ : Unit => True) openAndResolve () ⟨n, d, [], script, trace⟩ (Eufs.recoveryBatches sb c copy d)
      (fun r t' => Resolved (.fresh sb c copy) d r.1 r.2 ∧ t' = ()) (fun _ => True) (fun _ => True) :=
  phased_openAndResolve (w := ⟨n, d, [], script, trace⟩) rfl ho trivial trivial fun _ _ _ => trivial

theorem recovered (h : Pending n sb t d) {r : RecoveryAction × JournalControlStore}
    (hrun : openAndResolve () ⟨n, d, [], script, trace⟩ = .ok r () w') :
    (∃ c copy, Idle n sb c copy w'.durable) ∧ (t.Old sb w'.durable ∨ t.New sb w'.durable) ∧
      (Guarded n sb d → Guarded n sb w'.durable) := by
  obtain ⟨c, copy, ho⟩ := h.opens
  obtain ⟨⟨hr, -⟩, hw⟩ := Ends.ok (phased ho) hrun
  rw [hw.durable]
  refine h.recovery ho fun hu => ?_
  obtain ⟨action, store⟩ := r
  change Resolved _ _ action store at hr
  cases hr with
  | noAction hu' => exact absurd hu' hu
  | discarded _ hv => exact ⟨_, hv⟩
  | replayed _ hv => exact ⟨_, hv⟩

theorem recovering (h : Pending n sb t d)
    (hrun : (openAndResolve () ⟨n, d, [], script, trace⟩).Crashed (Torn sb) img) :
    Pending n sb t img ∧ (Guarded n sb d → Guarded n sb img) := by
  obtain ⟨c, copy, ho⟩ := h.opens
  exact h.recovery_crash ho (hrun.crashesIn (phased ho) rfl)

end Pending

end Runs

/-! ## The invariant -/

/-- Where no transaction was interrupted, none is to be undone or completed. -/
structure HistoryInv (n : ℕ) (sb : Superblock) (d : Image) (x : Option Interrupted) : Prop where
  pending : Pending n sb (x.getD ⟨d, ∅, ∅⟩) d
  guarded : Guarded n sb d

theorem Pending.rebase {n : ℕ} {img : Image} (h : Pending n sb ⟨d, ∅, ∅⟩ img) :
    Pending n sb ⟨img, ∅, ∅⟩ img := by
  cases h with
  | idle h _ => exact .idle h (Or.inl fun _ _ _ => rfl)
  | exposed h _ => exact .exposed h fun a _ => by simp [prepared]
  | replaying h hv _ => exact .replaying h hv fun a _ _ => by simp [after, prepared]

theorem Idle.inv {n : ℕ} {c : JournalControl} {copy : ControlCopy} (h : Idle n sb c copy d) (hg : Guarded n sb d) :
    HistoryInv n sb d none :=
  ⟨.idle h (Or.inl fun _ _ _ => rfl), hg⟩

/-- A formatted file opens with an empty journal. -/
theorem Formatted.idle {options : MkfsOptions} {g : RequestLedgerGeometry} {host : MkfsHost} {base : Image}
    (h : Formatted sb g host base d) (hl : Layout options sb g) :
    Idle sb.totalBlocks.toNat sb (formattedControl sb) .kA d :=
  have ho := h.opens hl
  ⟨⟨ho.superblock, ho.features, ho.size⟩, h.selects hl, rfl⟩

theorem History.start {options : MkfsOptions} {host : MkfsHost} {w : Disk} {t t' : Unit} (hp : w.pending = [])
    (hnew : ∀ a < w.size, w.durable a = Bytes.zero _) (hrun : formatImage options host t w = .ok sb t' w') :
    HistoryInv w'.size sb w'.durable none := by
  obtain ⟨g, base, hl, hf, hsize, -, hbase⟩ := formatImage_ok hp hrun
  rw [hsize]
  have hb : CommitsBelow sb base 1 := fun i hi r hr => by
    have hzero : base (sb.ringBlock i) = Bytes.zero _ := by
      rw [hbase _ (by have := hl.regions.journal_start_pos; simp only [Superblock.ringBlock]; omega), resized]
      split_ifs with hlt
      · exact hnew _ hlt.1
      · rfl
    rw [hzero] at hr
    exact absurd hr (noCommit_zero r)
  exact (hf.idle hl).inv ((hf.idle hl).guarded (hb.keep (hf.keepsRing hl)))

theorem History.inv {n : ℕ} {x : Option Interrupted} (h : History n sb d x) : HistoryInv n sb d x := by
  induction h with
  | formatted hp hnew hrun hn =>
    rw [hn]
    exact History.start hp hnew hrun
  | committed _ hno hrun ih =>
    obtain ⟨-, ⟨_, _, hidle⟩, -, hg⟩ := ih.pending.transaction hrun
    exact hidle.inv (hg ih.guarded hno)
  | interrupted _ hno hacc hrun ih =>
    obtain ⟨hn, -⟩ | ⟨-, hp, hg, -⟩ := ih.pending.transaction_crash hrun
    · exact absurd hacc hn
    · exact ⟨hp, hg ih.guarded hno⟩
  | refused _ hacc hrun ih =>
    obtain ⟨-, rfl⟩ | ⟨-, -, -, ha⟩ := ih.pending.transaction_crash hrun
    · exact ih
    · exact absurd ha hacc
  | recovered _ hrun ih =>
    obtain ⟨⟨_, _, hidle⟩, -, hg⟩ := ih.pending.recovered hrun
    exact hidle.inv (hg ih.guarded)
  | @recovering d img x _ _ _ _ hrun ih =>
    obtain ⟨hp, hg⟩ := ih.pending.recovering hrun
    cases x with
    | none => exact ⟨hp.rebase, hg ih.guarded⟩
    | some t => exact ⟨hp, hg ih.guarded⟩

/-- What recovery leaves outside the journal. -/
def Settled (sb : Superblock) (d img : Image) : Option Interrupted → Prop
  | none => KeepsOutside sb d img
  | some t => t.Old sb img ∨ t.New sb img

theorem settled_of_pending {img : Image} : ∀ {x : Option Interrupted},
    (x.getD ⟨d, ∅, ∅⟩).Old sb img ∨ (x.getD ⟨d, ∅, ∅⟩).New sb img → Settled sb d img x
  | some _, h => h
  | none, .inl h => fun a ha => h a ha (by simp)
  | none, .inr h => fun a ha => (h a ha).trans (by simp [after, prepared])

theorem Resolved.used {s s' : JournalControlStore} {a : RecoveryAction} (h : Resolved s d a s') :
    s'.current.usedBlocks = 0 := by
  cases h with
  | noAction h => exact h
  | discarded => rfl
  | replayed => rfl

/-- Crash atomicity.  After any history, a recovery that fails has met an I/O error, and one is there that meets none
and returns.  A recovery that returns leaves a clean control and, outside the journal, the interrupted transaction
undone or done; a transaction that returns success is done. -/
theorem crash_atomicity {n : ℕ} {sb : Superblock} {d : Image} {x : Option Interrupted} (h : History n sb d x)
    (trace : List (Event Block Op)) :
    (∀ script e t' w', openAndResolve () ⟨n, d, [], script, trace⟩ = .fail e t' w' →
      World.faults (⟨n, d, [], script, trace⟩ : Disk) < w'.faults) ∧
    (Completes openAndResolve () ⟨n, d, [], [], trace⟩ fun _ _ w' =>
      w'.faults = World.faults (⟨n, d, [], [], trace⟩ : Disk)) ∧
    (∀ script r t' w', openAndResolve () ⟨n, d, [], script, trace⟩ = .ok r t' w' →
      w'.pending = [] ∧ r.2.current.usedBlocks = 0 ∧
      (∃ c copy, Opens n w'.durable sb c copy ∧ c.usedBlocks = 0) ∧
      Settled sb d w'.durable x) ∧
    ∀ before ordered metadata totalBlocks uuid script t t' w', (∀ p ∈ metadata.toList, NoCommit p.2) →
      executeJournalTransaction before ordered metadata totalBlocks uuid t ⟨n, d, [], script, trace⟩ =
        .ok () t' w' →
      Interrupted.New sb ⟨d, ordered, metadata⟩ w'.durable := by
  obtain ⟨hpending, hguarded⟩ := h.inv
  obtain ⟨c, copy, ho⟩ := hpending.opens
  have hclass := (hguarded.of_opens ho).2
  refine ⟨fun script e t' w' hrun => ho.recovery_fails hclass hrun,
    completes_openAndResolve (w := ⟨n, d, [], [], trace⟩) ho hclass, fun script r t' w' hrun => ?_,
    fun _ _ _ _ _ _ _ _ _ _ hrun => (hpending.transaction hrun).2.2.1⟩
  obtain ⟨⟨hr, -⟩, hw⟩ := Ends.ok (ho.phased_recovery hclass) hrun
  obtain ⟨⟨c', copy', hidle⟩, hset, -⟩ := hpending.recovered hrun
  exact ⟨hw.pending, hr.used, ⟨c', copy', hidle.opens, hidle.used⟩, settled_of_pending hset⟩

/-! ## A short history -/

/-- A store of the small image takes a transaction that rewrites a bitmap block. -/
theorem sampleAccepts {c : JournalControl} {copy : ControlCopy} (x : Block)
    (ho : Opens 16 d sampleSuperblock c copy) (hr : Reservable c 1) :
    Accepts 16 d 16 sampleSuperblock.filesystemUuid (singleBlock 1 (d 1)) ∅ (singleBlock 1 x) := by
  refine ⟨_, _, _, ho, sampleTxn hr (fun b => by simp [mem_singleBlock_iff]) (by simp) fun p hp => ?_⟩
  rw [mem_singleBlock.mp hp]

/-- Formatting, and a transaction that stops with its COMMIT written and not synced; then any crash. -/
theorem crash_atomicity_sample : ∃ d script w,
    executeJournalTransaction (singleBlock 1 (d 1)) ∅
      (singleBlock 1 (Bytes.zero _)) 16 sampleSuperblock.filesystemUuid
      false ⟨16, d, [], script, []⟩ = .stop w ∧ w.pending ≠ [] ∧
    ∀ img, w.Crash (Torn sampleSuperblock) img →
      (Completes openAndResolve () ⟨16, img, [], [], []⟩ fun _ _ w' => w'.faults = 0) ∧
      ∀ script' r t' w', openAndResolve () ⟨16, img, [], script', []⟩ = .ok r t' w' →
        Settled sampleSuperblock img w'.durable (some ⟨d, ∅, singleBlock 1 (Bytes.zero _)⟩) := by
  obtain ⟨s, sb, t', w', ⟨rfl, hsize⟩, hrun⟩ :=
    completes_formatImage_sample false ⟨0, fun _ => Bytes.zero _, [], [], []⟩
  have hstart : History 16 sampleSuperblock ({ w' with script := [] } : Disk).durable none :=
    .formatted rfl (fun a ha => absurd ha (Nat.not_lt_zero a)) (hrun []) hsize.symm
  obtain ⟨g, base, hl, hf, -⟩ := formatImage_ok rfl (hrun [])
  obtain ⟨sb, c, copy, ho, ha⟩ := sampleAccepts (Bytes.zero _) (hf.opens hl) sampleReservable
  obtain ⟨script, w, ⟨-, hp⟩, hstop⟩ := stops_executeJournalTransaction (t := false)
    (w := ⟨16, w'.durable, [], [], []⟩) rfl ho ha
  refine ⟨w'.durable, script, w, hstop, by simp [hp], fun img hcrash => ?_⟩
  have hno : ∀ p ∈ (singleBlock 1 (Bytes.zero kBlockSize)).toList, NoCommit p.2 := fun p hp => by
    rw [mem_singleBlock.mp hp]
    exact noCommit_zero
  have h : History 16 sampleSuperblock img _ := .interrupted hstart hno ⟨sb, c, copy, ho, ha⟩ (by
    rw [show executeJournalTransaction _ _ _ _ _ _ _ = _ from hstop]
    exact hcrash)
  obtain ⟨-, hreturns, hsettled, -⟩ := crash_atomicity h []
  exact ⟨hreturns, fun script' r t' w' hrec => (hsettled script' r t' w' hrec).2.2.2⟩

end Eufs
