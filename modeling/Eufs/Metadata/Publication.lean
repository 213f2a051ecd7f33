import Eufs.Journal.Ordering
import Eufs.Metadata.Fresh
import Eufs.Object.LedgerIndex

/-!
# Eufs.Metadata.Publication — formatting publishes all or nothing

The formatter makes the old superblock unusable, writes the body, and writes the new superblock only when the body is
durable.  Wherever it stops, block 0 is no superblock, or it is the new one over a complete and empty file system, or
nothing has happened to the file yet.  A new file on which formatting failed is removed again; what is said here
holds of the file until then.
-/

namespace Eufs

open Prog ImageReader Function

/-- A file of `n` blocks without a superblock. -/
def NoSuperblock (n : ℕ) (d : Image) : Prop := n = 0 ∨ ∀ sb, decodeSuperblock (d 0) ≠ .ok sb

/-- Every part of a new file system is on disk, and its readers accept it as empty. -/
structure FreshImage (sb : Superblock) (g : RequestLedgerGeometry) (host : MkfsHost) (n : ℕ) (d : Image) : Prop where
  size : n = sb.totalBlocks.toNat
  superblock : decodeSuperblock (d 0) = .ok sb
  inodeBits : ∀ k < sb.inodeBitmap.count * kBlockSize * 8, (loadBitmap d sb.inodeBitmap.start).testBit k = true ↔
    sb.totalInodes.toNat ≤ k ∨ k = sb.rootInode.toNat - 1 ∨ g.enabled ∧ k = kRequestLedgerInodeNumber - 1
  blockBits : ∀ b < sb.blockBitmap.count * kBlockSize * 8, sb.blockBit d b = true ↔
    sb.totalBlocks.toNat ≤ b ∨ b < sb.data.start ∨ g.enabled ∧ (b = g.rootDirectoryBlock ∨
      (g.firstDataBlock ≤ b ∧ b < g.firstDataBlock + g.dataBlockCount) ∨ g.indirectBlock ≠ 0 ∧
      b = g.indirectBlock)
  root : sb.inodeAt d sb.rootInode.toNat = some (formattedRoot sb g host)
  controls : ∀ copy, d (sb.controlBlock copy) = controlBytes (formattedControl sb)
  ledger : g.enabled → sb.inodeAt d kRequestLedgerInodeNumber = some (formattedLedger sb g host) ∧
    encodeDirectoryEntry ledgerEntry (UInt16.ofNat kBlockSize) (Bytes.zero _) 0 = .ok (d g.rootDirectoryBlock) ∧
    (∀ k < g.dataBlockCount, d (g.firstDataBlock + k) = Bytes.zero _) ∧
    (g.indirectBlock ≠ 0 → d g.indirectBlock = formattedIndirect g)
  journal : ∀ rest trace, adoptLockedFd () ⟨n, d, [], openScript ++ rest, trace⟩ =
    .ok (.fresh sb (formattedControl sb) .kA) () ⟨n, d, [], rest, openTrace sb ++ trace⟩
  reader : ImageReader.adoptLockedFd n d = .ok ⟨d, sb, formattedControl sb, .kA⟩
  listing : listDirectory ⟨d, sb, formattedControl sb, .kA⟩ sb.rootInode.toNat =
    .ok (if g.enabled then [formattedEntry] else [])
  scan : g.enabled → scanRequestLedger ⟨d, sb, formattedControl sb, .kA⟩ = .ok ⟨g.entryCount, 1, []⟩

/-- The new file system of the options. -/
def Published (options : MkfsOptions) (host : MkfsHost) (n : ℕ) (d : Image) : Prop :=
  ∃ layout g created, formatLayout options = .ok (layout, g) ∧ currentTimeNs host = .ok created ∧
    FreshImage (formattedSuperblock layout host created) g host n d

section Fresh

variable {options : MkfsOptions} {sb : Superblock} {g : RequestLedgerGeometry} {host : MkfsHost} {base d : Image}

theorem Formatted.freshImage (h : Formatted sb g host base d) (hl : Layout options sb g) :
    FreshImage sb g host sb.totalBlocks.toNat d := by
  have hs := h.sound hl
  have hroot := root_eq hl
  have hopens := h.opens hl
  have hmem := hs.root.1
  have hat : sb.inodeAt d sb.rootInode.toNat = some (formattedRoot sb g host) := by
    rw [hroot]
    exact h.rootAt hl
  refine ⟨rfl, h.superblock, fun k hk => ?_, fun b hb => ?_, hat, h.controls, fun he => ?_,
    fun rest trace => adoptLockedFd_run () [] rest trace hopens, hs.adoptLockedFd hopens, ?_, fun he => ?_⟩
  · rw [h.inodeBit_eq hl hk, hroot, show kRequestLedgerInodeNumber = 2 from rfl]
    simp [or_assoc]
  · rw [h.blockBit_eq hl hb, RequestLedgerGeometry.occupied]
    by_cases he : g.enabled
    · have hf := hl.ledger he
      have hi := hf.indirect
      simp only [he, if_true, hf.root, hf.first, true_and, Bool.or_eq_true, decide_eq_true_eq]
      split_ifs at hi ⊢ <;> omega
    · simp [he]
  · exact ⟨h.ledgerAt he, h.directory he, h.slots he, h.indirect he⟩
  · rw [← h.root_entries hl]
    exact listDirectory_of_listable (hs.readable hmem hat) root_isDir (hs.listable hmem hat root_isDir)
  · have hf : sb.HasLedger := by
      rw [Superblock.HasLedger, hl.features, if_pos he]
      decide
    have hscan := scanRequestLedger_of_consistent (r := ⟨d, sb, formattedControl sb, .kA⟩) (h.consistent hl) hf
      hopens.features (h.ledgerAt he) (h.ledger_holds hl he)
    rw [hscan, ledger_size hl he, (hl.ledger he).entries, show kRequestLedgerRecordSize = 128 from rfl]
    refine congrArg Except.ok (congrArg (RequestLedgerIndex.mk · _ _) ?_)
    omega

end Fresh

/-! ## Where the formatter can stop -/

/-- Without `force` the open call, the third of the run, refuses a path that exists. -/
def ExclusiveOpen (options : MkfsOptions) (existed : Prop) (script : List Sys) : Prop :=
  options.force = false → existed → ∀ r, script[2]? = some r → r.ret < 0

/-- A torn write of block 0 leaves no superblock. -/
def TornSuperblock (T : ℕ → Block → Block → Prop) : Prop :=
  ∀ x y sb, T 0 x y → decodeSuperblock y ≠ .ok sb

/-- What a crash in `w'` can leave of a file that was `w`. -/
def LeavesAllOrNothing (options : MkfsOptions) (host : MkfsHost) (existed : Prop) (w w' : Disk) : Prop :=
  ∀ T, TornSuperblock T → ∀ d, w'.Crash T d → NoSuperblock w'.size d ∨ Published options host w'.size d ∨
    existed ∧ w'.size = w.size ∧ d = w.durable ∧ Unsynced w w'

theorem decodeSuperblock_zero {sb : Superblock} : decodeSuperblock (Bytes.zero _) ≠ .ok sb := by
  intro h
  have hmagic := (reject_bind_eq_ok.mp h).1
  exact hmagic (by decide)

section Stops

variable {options : MkfsOptions} {host : MkfsHost} {existed : Prop} {w v v' : Disk}

theorem leaves_of_same (hp : w.pending = []) (hnew : ¬ existed → w.size = 0) (hs : w.Same v) (hu : Unsynced w v) :
    LeavesAllOrNothing options host existed w v := by
  intro T _ d hd
  by_cases he : existed
  · have hd : d = v.durable := hd.eq_of_pending_nil (hs.pending.trans hp)
    exact Or.inr (Or.inr ⟨he, hs.size, hd.trans hs.durable, hu⟩)
  · exact Or.inl (Or.inl (hs.size.trans (hnew he)))

/-- Nothing is pending and block 0 is empty. -/
def Blank (v : Disk) : Prop := v.pending = [] ∧ (v.size = 0 ∨ v.durable 0 = Bytes.zero _)

theorem Blank.leaves (h : Blank v) : LeavesAllOrNothing options host existed w v := by
  intro T _ d hd
  rw [hd.eq_of_pending_nil h.1]
  refine Or.inl (h.2.imp id fun h0 sb => ?_)
  rw [h0]
  exact decodeSuperblock_zero

theorem Blank.same (h : Blank v) (hs : v.Same v') : Blank v' :=
  ⟨hs.pending.trans h.1, by rw [hs.size, hs.durable]; exact h.2⟩

theorem leaves_of_invalidating (hp : w.pending = []) (hnew : ¬ existed → w.size = 0) (hs : w.Same v)
    (hu : Unsynced w v) {op : Op} (hi : Issued v [⟨op, 0, Bytes.zero _⟩] v') (hu' : Unsynced v v') :
    LeavesAllOrNothing options host existed w v' := by
  intro T hT d hd
  have hdurable : v'.durable = w.durable := hi.durable.trans hs.durable
  have hpending : v'.pending = [⟨op, 0, Bytes.zero _⟩] := by rw [hi.pending, hs.pending, hp, List.nil_append]
  have hsize : v'.size = w.size := hi.size.trans hs.size
  have hrest : ∀ a, a ≠ 0 → d a = w.durable a := by
    intro a ha
    refine ((hd a).resolve_right ?_).trans (congrFun hdurable a)
    rintro ⟨p, hmem, hpa, -⟩
    rw [hpending, List.mem_singleton] at hmem
    exact ha (by rw [← hpa, hmem])
  rcases hd 0 with h0 | ⟨p, hmem, -, h0 | h0⟩
  · by_cases he : existed
    · refine Or.inr (Or.inr ⟨he, hsize, funext fun a => ?_, hu.trans hu'⟩)
      by_cases ha : a = 0
      · rw [ha, h0, hdurable]
      · exact hrest a ha
    · exact Or.inl (Or.inl (hsize.trans (hnew he)))
  · rw [hpending, List.mem_singleton] at hmem
    refine Or.inl (Or.inr fun sb => ?_)
    rw [h0, hmem]
    exact decodeSuperblock_zero
  · exact Or.inl (Or.inr fun sb => hT _ _ sb h0)

/-- The old superblock is gone before anything else is changed. -/
theorem ends_prepareImage (hp : w.pending = []) (hnew : ¬ existed → w.size = 0)
    (hforce : options.force = true ∨ ¬ existed) (hs : w.Same v) (hu : Unsynced w v) :
    Ends (prepareImage options.force) () v (fun _ _ v' => Blank v')
      (fun _ _ v' => LeavesAllOrNothing options host existed w v') (LeavesAllOrNothing options host existed w) := by
  unfold prepareImage
  by_cases hf : options.force = true
  · rw [if_pos hf]
    unfold invalidateSuperblock
    rw [ends_bind]
    refine ((ends_mkfsWrite (whole 0 (Bytes.zero _)) () v).and unsynced_writeAll).mono ?_ ?_ ?_
    · rintro - t' v₁ ⟨⟨-, hi⟩, hu₁⟩
      have hunsynced : Ends (mkfsSync .syncInvalidated) t' v₁ (fun _ _ _ => True) (fun _ _ v' => Unsynced v₁ v')
          (Unsynced v₁) := ends_onFail.mpr (unsynced_fdatasync Op.text)
      refine ((syncs_mkfsSync .syncInvalidated t' v₁).and hunsynced).mono ?_ ?_ ?_
      · rintro - - v' ⟨⟨-, -, hdurable, hpending, -, -⟩, -⟩
        refine ⟨hpending, Or.inr ?_⟩
        rw [hdurable, World.visible, hi.pending, hi.durable, hs.pending, hp]
        rfl
      · rintro - - v' ⟨⟨-, hsame, -⟩, hu₂⟩
        exact leaves_of_invalidating hp hnew hs hu (hi.same hsame) (hu₁.trans hu₂)
      · rintro v' ⟨hsame, hu₂⟩
        exact leaves_of_invalidating hp hnew hs hu (hi.same hsame) (hu₁.trans hu₂)
    · rintro - - v' ⟨⟨-, hi, -⟩, hu'⟩
      exact leaves_of_invalidating hp hnew hs hu hi hu'
    · rintro v' ⟨hi, hu'⟩
      exact leaves_of_invalidating hp hnew hs hu hi hu'
  · rw [if_neg hf, ends_pure]
    exact ⟨hs.pending.trans hp, Or.inl (hs.size.trans (hnew (hforce.resolve_left hf)))⟩

theorem ends_ftruncate {op : Op} {n : ℕ} (h : Blank v) :
    Ends (ftruncate Op.text (Bytes.zero kBlockSize) op n) () v
      (fun _ _ v' => Blank v' ∧ v'.size = n ∧ v'.durable 0 = Bytes.zero _)
      (fun _ _ v' => Blank v') Blank := by
  unfold Ends ftruncate
  cases hscript : v.script with
  | nil => exact h
  | cons r rest =>
    dsimp only
    split_ifs
    · have h0 : (if 0 < v.size ∧ 0 < n then v.durable 0 else Bytes.zero kBlockSize) = Bytes.zero _ := by
        split_ifs with hc
        · exact h.2.resolve_left (by omega)
        · rfl
      exact ⟨⟨by rw [h.1]; rfl, Or.inr h0⟩, rfl, h0⟩
    · exact h

/-- The body is durable before the superblock is written. -/
theorem ends_publishImage {sb : Superblock} {g : RequestLedgerGeometry} (hl : Layout options sb g)
    (hpublished : ∀ d, FreshImage sb g host sb.totalBlocks.toNat d → Published options host sb.totalBlocks.toNat d)
    (hp : v.pending = []) (hsize : v.size = sb.totalBlocks.toNat) (h0 : v.durable 0 = Bytes.zero _) :
    Ends (publishImage sb g host) () v (fun _ _ => LeavesAllOrNothing options host existed w)
      (fun _ _ => LeavesAllOrNothing options host existed w) (LeavesAllOrNothing options host existed w) := by
  obtain ⟨x, hx⟩ := hl.encodes
  cases hb : formatBytes sb g host with
  | error e =>
    unfold publishImage
    rw [hb]
    exact Blank.leaves ⟨hp, Or.inr h0⟩
  | ok b =>
    -- every end is within the two batches
    have hcrash : ∀ v',
      v.Within [patchWrites .filesystemBody v.durable (bodyPatches sb g b), [⟨.superblock, 0, x⟩]] v' →
        LeavesAllOrNothing options host existed w v' := by
      intro v' hv' T hT d hd
      have hbody : ∀ q ∈ patchWrites Op.filesystemBody v.durable (bodyPatches sb g b), q.addr ≠ 0 := by
        intro q hq hq0
        obtain ⟨p, hp, hqp⟩ := addr_of_mem_patchWrites hq
        exact bodyPatch_ne_zero hl.regions hl.ledger hp (hqp.symm.trans hq0)
      rcases hv'.crashesIn hd with hc | hc
      · refine Or.inl (Or.inr fun sb' => ?_)
        rw [hc.of_not_mem hbody, h0]
        exact decodeSuperblock_zero
      · have hc := hc.single
        have hrest : ∀ a, a ≠ 0 → d a = applyPatches (bodyPatches sb g b) v.durable a := by
          intro a ha
          rw [← applyWrites_patchWrites Op.filesystemBody]
          exact hc.of_not_mem fun p hp hpa => ha (by rw [← hpa, List.mem_singleton.mp hp])
        rcases hc 0 with hzero | ⟨p, hmem, -, hnew | htorn⟩
        · refine Or.inl (Or.inr fun sb' => ?_)
          rw [hzero, applyWrites_of_not_mem _ _ _ hbody, h0]
          exact decodeSuperblock_zero
        · rw [List.mem_singleton.mp hmem] at hnew
          have himage : d = formattedImage sb g b x v.durable := by
            funext a
            by_cases ha : a = 0
            · rw [ha, hnew, formattedImage, update_self]
            · rw [hrest a ha, formattedImage, update_of_ne ha]
          refine Or.inr (Or.inl ?_)
          rw [hv'.size, hsize, himage]
          exact hpublished _ ((formattedImage_formatted hl hb hx).freshImage hl)
        · exact Or.inl (Or.inr fun sb' => hT _ _ sb' htorn)
    refine Ends.mono (phased_publishImage hp hb hx) ?_ ?_ hcrash
    · rintro - - v' ⟨-, hv'⟩
      refine hcrash v' ⟨hv'.size, hv'.faults, hv'.log, 2, le_rfl, hv'.durable, ?_⟩
      rw [hv'.pending]
      exact List.nil_subset _
    · rintro - - v' (⟨hv', -, -⟩ | ⟨-, hfalse, -⟩)
      · exact hcrash v' hv'
      · exact hfalse.elim

end Stops

/-- Wherever the formatter stops, a crash leaves no superblock, or the new one over a complete and empty file system,
or the file as it was; the last only before the first sync completes, and only if the path existed. -/
theorem formatImage_all_or_nothing {options : MkfsOptions} {host : MkfsHost} {layout : Superblock}
    {g : RequestLedgerGeometry} {w : Disk} {existed : Prop} (haccepted : formatLayout options = .ok (layout, g))
    (hp : w.pending = []) (hnew : ¬ existed → w.size = 0) (hopen : ExclusiveOpen options existed w.script)
    {T : ℕ → Block → Block → Prop} (htorn : TornSuperblock T) {d : Image}
    (hcrash : (formatImage options host () w).world.Crash T d) :
    NoSuperblock (formatImage options host () w).world.size d ∨
    Published options host (formatImage options host () w).world.size d ∨
    existed ∧ (formatImage options host () w).world.size = w.size ∧ d = w.durable ∧
      Unsynced w (formatImage options host () w).world := by
  suffices h : Ends (formatImage options host) () w (fun _ _ => LeavesAllOrNothing options host existed w)
      (fun _ _ => LeavesAllOrNothing options host existed w) (LeavesAllOrNothing options host existed w) from
    h.world T htorn d hcrash
  have hearly : ∀ {v v' : Disk}, w.Same v → Unsynced w v → v.Same v' ∧ Unsynced v v' →
      LeavesAllOrNothing options host existed w v' := fun hs hu h =>
    leaves_of_same hp hnew (hs.trans h.1) (hu.trans h.2)
  -- the program after a call that leaves the file alone
  have hcall : ∀ {op : Op} {v : Disk} {k : Unit → Io Unit Superblock}, w.Same v → Unsynced w v →
      (∀ v', w.Same v' → Unsynced w v' → (∃ r, v.script = r :: v'.script ∧ 0 ≤ r.ret) →
        Ends (k ()) () v' (fun _ _ => LeavesAllOrNothing options host existed w)
          (fun _ _ => LeavesAllOrNothing options host existed w) (LeavesAllOrNothing options host existed w)) →
      Ends (syscall Op.text op >>= k) () v (fun _ _ => LeavesAllOrNothing options host existed w)
        (fun _ _ => LeavesAllOrNothing options host existed w) (LeavesAllOrNothing options host existed w) := by
    intro op v k hs hu hk
    rw [ends_bind]
    refine (ends_syscall_script Op.text).mono ?_ (fun _ _ _ h => hearly hs hu h) fun _ h => hearly hs hu h
    rintro - - v' ⟨-, hs', hu', hr⟩
    exact hk v' (hs.trans hs') (hu.trans hu') hr
  unfold formatImage
  rw [haccepted]
  refine hcall (World.Same.refl w) (Unsynced.refl w) fun w₁ hs₁ hu₁ ⟨r₁, hr₁, _⟩ => ?_
  refine hcall hs₁ hu₁ fun w₂ hs₂ hu₂ ⟨r₂, hr₂, _⟩ => ?_
  cases hcreated : currentTimeNs host with
  | error e => exact leaves_of_same hp hnew hs₂ hu₂
  | ok created =>
    refine hcall hs₂ hu₂ fun w₃ hs₃ hu₃ ⟨r₃, hr₃, hret⟩ => ?_
    have hforce : options.force = true ∨ ¬ existed := by
      by_contra hc
      rw [not_or, not_not, Bool.not_eq_true] at hc
      have := hopen hc.1 hc.2 r₃ (by rw [hr₁, hr₂, hr₃]; rfl)
      omega
    have hl := (formatLayout_ok haccepted).identity host created
    refine hcall hs₃ hu₃ fun w₄ hs₄ hu₄ _ => ?_
    rw [ends_bind]
    refine (ends_prepareImage hp hnew hforce hs₄ hu₄).mono (fun _ _ w₅ hblank => ?_)
      (fun _ _ _ h => h) fun _ h => h
    rw [ends_bind]
    refine (ends_ftruncate hblank).mono (fun _ _ w₆ h₆ => ?_) (fun _ _ _ h => h.leaves) fun _ h => h.leaves
    obtain ⟨hblank₆, hsize, h0⟩ := h₆
    rw [ends_bind]
    refine (ends_syscall Op.text).mono ?_ (fun _ _ _ h => (hblank₆.same h.2.1).leaves) fun _ h =>
      (hblank₆.same h).leaves
    rintro - - w₇ ⟨-, hs₇⟩
    rw [ends_bind]
    refine (ends_publishImage hl (fun d hd => ⟨layout, g, created, haccepted, hcreated, hd⟩)
      (hs₇.pending.trans hblank₆.1) ?_ ?_).mono (fun _ _ _ h => h) (fun _ _ _ h => h) fun _ h => h
    · rw [hs₇.size, hsize, hl.blocks]
    · rw [hs₇.durable, h0]

/-- On a new file, with every call served, the formatter publishes the small image. -/
theorem formatImage_all_or_nothing_sample : ∃ script d,
    (formatImage sampleOptions sampleHost () ⟨0, fun _ => Bytes.zero _, [], script, []⟩).world.Crash
      (fun _ _ _ => False) d ∧
    Published sampleOptions sampleHost 16 d := by
  obtain ⟨script, sb, t', w', ⟨-, hsize⟩, hrun⟩ :=
    completes_formatImage_sample false ⟨0, fun _ => Bytes.zero _, [], [], []⟩
  have hrun : formatImage sampleOptions sampleHost () ⟨0, fun _ => Bytes.zero _, [], script ++ [], []⟩ =
      .ok sb t' { w' with script := [] } := hrun []
  have hok := formatImage_ok rfl hrun
  obtain ⟨g, base, -, hformatted, -⟩ := hok
  have hcrash :
    (formatImage sampleOptions sampleHost () ⟨0, fun _ => Bytes.zero _, [], script ++ [], []⟩).world.Crash
      (fun _ _ _ => False) w'.durable := by
    intro a
    rw [hrun]
    exact Or.inl rfl
  refine ⟨script ++ [], w'.durable, hcrash, ?_⟩
  have hleft := @formatImage_all_or_nothing sampleOptions sampleHost _ sampleLedger
    ⟨0, fun _ => Bytes.zero _, [], script ++ [], []⟩ False rfl rfl (fun _ => rfl) (fun _ h => h.elim)
    (fun _ _ _ => False) (fun _ _ _ h => h.elim) w'.durable hcrash
  have hworld :
    (formatImage sampleOptions sampleHost () ⟨0, fun _ => Bytes.zero _, [], script ++ [], []⟩).world.size = 16 := by
    rw [hrun]
    exact hsize
  rw [hworld] at hleft
  rcases hleft with (h | h) | h | h
  · exact absurd h (by decide)
  · exact absurd hformatted.superblock (h sb)
  · exact h
  · exact h.1.elim

/-- Another host, with another identity for its images. -/
def otherHost : MkfsHost := ⟨Vector.replicate 16 1, 0, 0, 0, 0⟩

theorem not_published_sampleImage (options : MkfsOptions) : ¬ Published options otherHost 16 sampleImage := by
  rintro ⟨layout, g, created, -, -, h⟩
  have heq := Except.ok.inj (h.superblock.symm.trans sampleImage_formatted.superblock)
  have huuid : randomUuid otherHost.random = randomUuid sampleHost.random := congrArg Superblock.filesystemUuid heq
  exact absurd huuid (by decide)

/-- Errors before the first sync leave an old image as it was: the path exists and `force` is not set, or `force` is
set and the first write fails. -/
theorem formatImage_keeps_old_image :
    (∃ w', formatImage sampleOptions otherHost ()
      ⟨16, sampleImage, [], [⟨0, none⟩, ⟨0, none⟩, ⟨-1, some .EEXIST⟩], []⟩ =
        .fail ⟨.EEXIST, "open image: File exists"⟩ () w' ∧ w'.size = 16 ∧
        w'.Crash (fun _ _ _ => False) sampleImage) ∧
    (∃ w', formatImage { sampleOptions with force := true } otherHost ()
        ⟨16, sampleImage, [],
          [⟨0, none⟩, ⟨0, none⟩, ⟨0, none⟩, ⟨0, none⟩, ⟨-1, some Errno.EIO⟩], []⟩ =
        .fail ⟨ Errno.EIO, "pwrite: Input/output error"⟩ () w' ∧ w'.size = 16 ∧
        w'.Crash (fun _ _ _ => False) sampleImage) ∧
    ¬ NoSuperblock 16 sampleImage ∧ ∀ options, ¬ Published options otherHost 16 sampleImage := by
  refine ⟨⟨_, rfl, rfl, fun _ => Or.inl rfl⟩, ⟨_, rfl, rfl, fun _ => Or.inl rfl⟩, ?_,
    not_published_sampleImage⟩
  rintro (h | h)
  · exact absurd h (by decide)
  · exact h _ sampleImage_formatted.superblock

end Eufs
