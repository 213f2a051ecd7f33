import Eufs.Checker.Decides
import Eufs.Metadata.Fresh
import Eufs.Object.LedgerIndex

/-!
# Eufs.Checker.Readback — the check and the reader agree

The check records everything it finds and goes on; the reader stops at the first thing that is wrong.  On an image
that the check calls healthy the reader finds nothing wrong, and both see the same entries and the same ledger.
-/

namespace Eufs

open Scan ImageReader Superblock Function Formatted

/-- The entries of directory `n` that a scan recorded. -/
def Scan.entriesSeen (s : Scan) (n : ℕ) : List DirectoryEntry :=
  (s.directoryEntryObservations.filter fun o => o.parentInodeNumber = n).map DirectoryEntryObservation.entry

theorem flatMap_eq_of_mem {α β : Type} {l : List α} {f : α → List β} {a : α} (hl : l.Nodup) (ha : a ∈ l)
    (h : ∀ x ∈ l, x ≠ a → f x = []) : l.flatMap f = f a := by
  obtain ⟨l₁, l₂, rfl⟩ := List.append_of_mem ha
  have hnil : ∀ l' : List α, (∀ x ∈ l', f x = []) → l'.flatMap f = [] :=
    fun l' hl' => List.flatMap_eq_nil_iff.mpr hl'
  obtain ⟨-, h2, h3⟩ := List.nodup_append.mp hl
  rw [List.flatMap_append, List.flatMap_cons, hnil l₁ ?_, hnil l₂ ?_, List.nil_append, List.append_nil]
  · exact fun x hx => h x (by simp [hx]) fun hc => (List.nodup_cons.mp h2).1 (hc ▸ hx)
  · exact fun x hx => h x (by simp [hx]) fun hc => h3 x hx a List.mem_cons_self hc

/-- A complete scan has recorded the entries of each directory in their order. -/
theorem Scan.Complete.entriesSeen_eq {sb : Superblock} {d : Image} {r : ConsistencyReport} {s : Scan} {n : ℕ}
    (h : Complete sb d r s) (hn : n ∈ sb.inodes d) : s.entriesSeen n = sb.entriesOf d n := by
  have hpairs : s.entriesSeen n = (((s.directoryEntryObservations.map fun o => (o.parentInodeNumber, o.entry)).filter
      fun x => x.1 = n).map Prod.snd) := by
    rw [List.filter_map, List.map_map]
    rfl
  rw [hpairs, h.seen.observations, List.filter_flatMap, List.map_flatMap,
    flatMap_eq_of_mem (nodup_scanList sb d) (h.mem.mpr hn)]
  · simp [List.filter_map, comp_def]
  · intro m _ hm
    simp [List.filter_map, comp_def, hm]

theorem opened_of_healthy {n : ℕ} {d : Image} {report : ConsistencyReport} {r : ImageReader}
    (h : checkImage n d = .ok report) (hh : classifyReport report = .kHealthy)
    (hopen : ImageReader.adoptLockedFd n d = .ok r) :
    ∃ sb c copy, Opens n d sb c copy ∧ sb.Consistent d ∧ r = ⟨d, sb, c, copy⟩ := by
  obtain ⟨sb, c, copy, ho, -, hc, -⟩ := consistent_of_healthy h hh
  exact ⟨sb, c, copy, ho, hc, Except.ok.inj (hopen.symm.trans (hc.toSound.adoptLockedFd ho))⟩

/-- On an image that is called healthy the reader succeeds everywhere and reads what the check has seen. -/
theorem reader_agrees_of_healthy {n : ℕ} {d : Image} {report : ConsistencyReport} (h : checkImage n d = .ok report)
    (hh : classifyReport report = .kHealthy) :
    ∃ r, ImageReader.adoptLockedFd n d = .ok r ∧ r.image = d ∧
      report = finish r.superblock d (imageScan r.superblock d) ∧
      (∀ m, r.isInodeAllocated m = true → ∃ v, r.readInode m = .ok v ∧
        (∃ path, r.resolvePath path = .ok (m, v)) ∧
        (S_ISDIR v.mode → r.listDirectory m = .ok ((imageScan r.superblock d).entriesSeen m)) ∧
        (S_ISREG v.mode → ∀ requested, v.size.toNat ≤ requested →
          ∃ bytes, r.readFile m 0 requested = .ok bytes ∧ bytes.length = v.size.toNat)) ∧
      (r.superblock.HasLedger →
        ∃ index, scanRequestLedger r = .ok index ∧ index.capacity = report.requestLedgerCapacity ∧
          index.size = report.requestLedgerValidRecords) := by
  obtain ⟨sb, c, copy, hopen, -, hc, hreport⟩ := consistent_of_healthy h hh
  rw [checkClean_eq] at hreport
  obtain ⟨hb, ht, hl⟩ := consistent_iff.mp hc
  have hscan := complete_of_treeOk hb ht
  refine ⟨⟨d, sb, c, copy⟩, hc.toSound.adoptLockedFd hopen, rfl, hreport, fun m hm => ?_, fun hf => ?_⟩
  · have hm : m ∈ sb.inodes d := (isInodeAllocated_iff (r := ⟨d, sb, c, copy⟩)).mp hm
    obtain ⟨v, hv⟩ := hc.toSound.exists_readable hm
    refine ⟨v, readInode_eq_ok.mpr hv, hc.toSound.exists_path c copy hv, fun hdir => ?_,
      fun hreg requested hle => ⟨_, readFile_of_readable hv hreg 0 requested, ?_⟩⟩
    · rw [hscan.entriesSeen_eq hm, entriesOf, hv.record, Option.map_some, Option.getD_some, if_pos hdir]
      exact listDirectory_of_listable hv hdir (hc.toSound.listable hm hv.record hdir)
    · rw [List.drop_zero, List.length_take, InodeRecord.content, List.length_map, List.length_range, min_eq_right hle]
  · obtain ⟨v, records, hv, hs, -, -, -, hcap, hvalid⟩ := hscan.checkLedger_eq ht hf (hl hf)
    have hw := ((hl hf).size v hv).2
    refine ⟨_, scanRequestLedger_of_consistent hc hf hopen.features hv ((slotsOk_iff d hw).mp hs), ?_, ?_⟩
    · rw [hreport, (finish_ledger _).1, hcap]
    · rw [hreport, (finish_ledger _).2, hvalid]
      rfl

/-! ## A small image with a ledger -/

theorem ledgerImage_healthy : Healthy 32 ledgerImage :=
  (healthy_iff (ledgerImage_formatted.opens ledgerLayout) rfl).mpr (ledgerImage_formatted.consistent ledgerLayout)

/-- The root directory, the file of the ledger and its records, as the reader and the check see them. -/
theorem reader_agrees_of_healthy_ledgerImage : ∃ report, checkImage 32 ledgerImage = .ok report ∧
    ledgerReader.listDirectory 1 = .ok ((imageScan ledgerSuperblock ledgerImage).entriesSeen 1) ∧
    (∃ path v, ledgerReader.resolvePath path = .ok (2, v)) ∧
    (∃ bytes, ledgerReader.readFile 2 0 4096 = .ok bytes ∧ bytes.length = 4096) ∧
    ∃ index, scanRequestLedger ledgerReader = .ok index ∧ index.capacity = report.requestLedgerCapacity ∧
      index.size = report.requestLedgerValidRecords := by
  obtain ⟨report, hcheck, hhealthy⟩ := ledgerImage_healthy
  obtain ⟨r, hr, -, -, hall, hledger⟩ := reader_agrees_of_healthy hcheck hhealthy
  obtain rfl := Except.ok.inj (hr.symm.trans adoptLockedFd_ledgerImage)
  have hroot := ledgerImage_formatted.rootAt ledgerLayout
  obtain ⟨v, hv, -, hdir, -⟩ := hall 1 (isInodeAllocated_iff.mpr
    ((ledgerImage_formatted.mem_inodes_iff ledgerLayout).mpr (.inl rfl)))
  obtain rfl := Option.some.inj ((readInode_eq_ok.mp hv).record.symm.trans hroot)
  obtain ⟨w, hw, ⟨path, hpath⟩, -, hreg⟩ := hall 2 (isInodeAllocated_iff.mpr
    (readInode_eq_ok.mp ledgerFile_readable).allocated)
  obtain rfl := Except.ok.inj (hw.symm.trans ledgerFile_readable)
  exact ⟨report, hcheck, hdir root_isDir, ⟨path, _, hpath⟩, hreg ledger_isReg 4096 (by decide),
    hledger (by decide)⟩

end Eufs
