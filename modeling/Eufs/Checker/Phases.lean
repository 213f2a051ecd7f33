import Eufs.Checker.Check
import Eufs.Checker.Tables

/-!
# Eufs.Checker.Phases — the phases after the scan

Each phase adds its findings to the report and leaves the others alone.  A report is healthy when the scan was clean
and no phase had a finding (`Passed`).
-/

namespace Eufs

open Superblock

namespace Scan

variable (sb : Superblock) (d : Image)

/-! ## Folds that report -/

/-- The findings of one link count. -/
def linkIssues (s : Scan) (evidence : Bool) (x : ℕ × InodeRecord) : List CheckIssue :=
  (if ¬ S_ISDIR x.2.mode ∧ S_ISREG x.2.mode ∧ observedDentryReferences s x.1 > 1 then
    [⟨.kRegularFileHardLink, x.1, 0, 0,
      "普通文件存在多个命名空间入口，但 eufs v1 不支持硬链接", [], 0, 1, 0⟩] else []) ++
  if (evidence && decide (x.1 ≠ sb.rootInode.toNat ∨ S_ISDIR x.2.mode)) &&
      decide (x.2.linkCount.toNat ≠ expectedLinkCount sb s x.1 x.2) then
    [⟨.kInodeLinkCountMismatch, x.1, 0, 0, "inode link_count=" ++ toString x.2.linkCount.toNat ++
      "，但命名空间证据要求 " ++ toString (expectedLinkCount sb s x.1 x.2), [], 0, 1, 0⟩] else []

def linkObservation (s : Scan) (evidence : Bool) (x : ℕ × InodeRecord) : InodeLinkObservation :=
  ⟨x.1, x.2.linkCount.toNat, observedDentryReferences s x.1, observedChildDirectories s x.1,
    expectedLinkCount sb s x.1 x.2, evidence && decide (x.1 ≠ sb.rootInode.toNat ∨ S_ISDIR x.2.mode)⟩

theorem checkLinkCount_eq (s : Scan) (r : ConsistencyReport) (x : ℕ × InodeRecord) : checkLinkCount sb s r x =
    { r with
      inodeLinkObservations := r.inodeLinkObservations ++ [linkObservation sb s r.inodeReferenceScanComplete x]
      issues := r.issues ++ linkIssues sb s r.inodeReferenceScanComplete x } := by
  obtain ⟨n, v⟩ := x
  unfold checkLinkCount linkIssues linkObservation
  dsimp only
  split_ifs <;> simp_all [ConsistencyReport.addIssue]

theorem checkLinkCounts_eq (s : Scan) : ∀ (l : List (ℕ × InodeRecord)) (r : ConsistencyReport),
    l.foldl (checkLinkCount sb s) r =
      { r with
        inodeLinkObservations := r.inodeLinkObservations ++ l.map (linkObservation sb s r.inodeReferenceScanComplete)
        issues := r.issues ++ l.flatMap (linkIssues sb s r.inodeReferenceScanComplete) }
  | [], r => by simp
  | x :: l, r => by
    rw [List.foldl_cons, checkLinkCounts_eq s l, checkLinkCount_eq]
    simp

def hardLinkIssue (e : DirectoryEdge) : CheckIssue :=
  ⟨.kDirectoryHardLink, e.parentInodeNumber, 0, e.childInodeNumber,
    "目录 inode 存在多个命名空间入口", [], 0, 1, 0⟩

/-- Second entries leave everything but the findings alone. -/
theorem checkHardLink_fold (s : Scan) : ∀ (l : List DirectoryEdge) (linked : List ℕ) (r : ConsistencyReport),
    ∃ issues, (l.foldl (checkHardLink s) (linked, r)).2 = { r with issues := r.issues ++ issues } ∧
      (linked.Nodup → (issues = [] ↔
        (linked ++ ((l.map DirectoryEdge.childInodeNumber).filter (isDecodedDirectory s))).Nodup))
  | [], linked, r => ⟨[], by simp, by simp⟩
  | e :: l, linked, r => by
    rw [List.foldl_cons]
    by_cases hd : isDecodedDirectory s e.childInodeNumber = true
    · by_cases hm : e.childInodeNumber ∈ linked
      · have hstep : checkHardLink s (linked, r) e = (linked, { r with issues := r.issues ++ [hardLinkIssue e] }) := by
          simp [checkHardLink, hd, hm, ConsistencyReport.addIssue, hardLinkIssue]
        obtain ⟨issues, h1, -⟩ := checkHardLink_fold s l linked { r with issues := r.issues ++ [hardLinkIssue e] }
        refine ⟨hardLinkIssue e :: issues, ?_, fun _ => ⟨fun h => absurd h (List.cons_ne_nil _ _), fun h => ?_⟩⟩
        · rw [hstep, h1]
          simp
        · rw [List.map_cons, List.filter_cons_of_pos hd] at h
          exact absurd rfl ((List.nodup_append.mp h).2.2 _ hm _ List.mem_cons_self)
      · have hstep : checkHardLink s (linked, r) e = (linked ++ [e.childInodeNumber], r) := by
          simp [checkHardLink, hd, hm]
        obtain ⟨issues, h1, h2⟩ := checkHardLink_fold s l (linked ++ [e.childInodeNumber]) r
        refine ⟨issues, by rw [hstep]; exact h1, fun hl => ?_⟩
        rw [h2 (List.nodup_append.mpr ⟨hl, List.nodup_singleton _, fun a ha b hb hc => ?_⟩), List.map_cons,
          List.filter_cons_of_pos hd]
        · simp
        · rw [List.mem_singleton.mp hb] at hc
          exact hm (hc ▸ ha)
    · have hstep : checkHardLink s (linked, r) e = (linked, r) := by
        simp [checkHardLink, hd]
      obtain ⟨issues, h1, h2⟩ := checkHardLink_fold s l linked r
      refine ⟨issues, by rw [hstep]; exact h1, fun hl => ?_⟩
      rw [h2 hl, List.map_cons, List.filter_cons_of_neg hd]

/-! ## Reports without findings -/

/-- What the later phases look at, and what is settled before them. -/
structure Kept (r t : ConsistencyReport) : Prop where
  status : t.status = r.status
  settled : settled t = settled r
  rootDecoded : t.rootInodeDecoded = r.rootInodeDecoded
  rootEntries : t.rootEntries = r.rootEntries
  edges : t.directoryEdges = r.directoryEdges

theorem Kept.trans {r t u : ConsistencyReport} (h : Kept r t) (h' : Kept t u) : Kept r u :=
  ⟨h'.status.trans h.status, h'.settled.trans h.settled, h'.rootDecoded.trans h.rootDecoded,
    h'.rootEntries.trans h.rootEntries, h'.edges.trans h.edges⟩

/-- A phase that has no finding exactly when `C` holds. -/
structure Phase (r t : ConsistencyReport) (C : Prop) : Prop where
  kept : Kept r t
  quiet : t.issues = [] ↔ r.issues = [] ∧ C

/-- The evidence for blocks and for entries. -/
def evidence (r : ConsistencyReport) : Bool × Bool := (r.blockReferenceScanComplete, r.inodeReferenceScanComplete)

variable (s : Scan) (r : ConsistencyReport)

theorem checkBlocks_phase : Phase r (checkBlocks sb d s r)
    (s.blockReferenceScanComplete → unreferencedBlocks sb d s = []) ∧
    evidence (checkBlocks sb d s r) = (s.blockReferenceScanComplete, r.inodeReferenceScanComplete) := by
  unfold checkBlocks reportUnreferenced
  dsimp only
  by_cases h : s.blockReferenceScanComplete = true
  · simp only [h, if_true]
    exact ⟨⟨⟨rfl, rfl, rfl, rfl, rfl⟩, by simp⟩, rfl⟩
  · simp only [h]
    exact ⟨⟨⟨rfl, rfl, rfl, rfl, rfl⟩, by simp⟩, rfl⟩

/-- The evidence for entries is complete. -/
def referencesComplete : Bool :=
  s.inodeReferenceScanComplete && s.directoryScanComplete.toList.all (fun x => x.2) &&
    s.directoryEntryObservations.all (fun o => (s.decodedInodes[o.entry.inode.toNat]?).isSome)

theorem checkRootReferences_phase : Phase r (checkRootReferences sb s r)
      (∀ o ∈ s.directoryEntryObservations, o.entry.inode ≠ sb.rootInode) ∧
    evidence (checkRootReferences sb s r) = (r.blockReferenceScanComplete, referencesComplete s) := by
  refine ⟨⟨⟨rfl, rfl, rfl, rfl, rfl⟩, ?_⟩, rfl⟩
  simp [checkRootReferences, List.filterMap_eq_nil_iff]

theorem checkLinkCounts_phase : Phase r (checkLinkCounts sb s r)
      (∀ x ∈ s.decodedInodes.toList, linkIssues sb s r.inodeReferenceScanComplete x = []) ∧
    evidence (checkLinkCounts sb s r) = evidence r := by
  rw [checkLinkCounts, checkLinkCounts_eq]
  refine ⟨⟨⟨rfl, rfl, rfl, rfl, rfl⟩, ?_⟩, rfl⟩
  dsimp only
  rw [List.append_eq_nil_iff, List.flatMap_eq_nil_iff]

theorem checkTypes_phase : Phase r (checkTypes s r)
      (∀ o ∈ s.directoryEntryObservations, ∀ v, s.decodedInodes[o.entry.inode.toNat]? = some v →
        isDirectoryType o.entry.fileType v.mode) ∧
    evidence (checkTypes s r) = evidence r := by
  refine ⟨⟨⟨rfl, rfl, rfl, rfl, rfl⟩, ?_⟩, rfl⟩
  simp only [checkTypes, List.append_eq_nil_iff, List.filterMap_eq_nil_iff]
  refine and_congr_right fun _ => forall₂_congr fun o _ => ?_
  cases s.decodedInodes[o.entry.inode.toNat]? with
  | none => simp
  | some v => simp

theorem checkCycles_phase : Phase r (checkCycles s r)
      ((Search.exploreAll (edges r) (isDecodedDirectory s) (starts s)).2 = []) ∧
    evidence (checkCycles s r) = evidence r := by
  refine ⟨⟨⟨rfl, rfl, rfl, rfl, rfl⟩, ?_⟩, rfl⟩
  simp only [checkCycles, List.append_eq_nil_iff, List.map_eq_nil_iff]

theorem checkHardLinks_phase : Phase r (checkHardLinks s r)
      (((r.directoryEdges.map DirectoryEdge.childInodeNumber).filter (isDecodedDirectory s)).Nodup) ∧
    evidence (checkHardLinks s r) = evidence r := by
  obtain ⟨issues, h1, h2⟩ := checkHardLink_fold s r.directoryEdges [] r
  rw [checkHardLinks, h1]
  refine ⟨⟨⟨rfl, rfl, rfl, rfl, rfl⟩, ?_⟩, rfl⟩
  dsimp only
  rw [List.append_eq_nil_iff, h2 List.nodup_nil, List.nil_append]

theorem checkReachability_phase : Phase r (checkReachability sb d s r)
      (rootReachabilityComplete sb s r → ∀ n ∈ sb.inodes d, n ≠ sb.rootInode.toNat →
        n ∈ rootReachable sb s r) ∧
    evidence (checkReachability sb d s r) = evidence r ∧
    (checkReachability sb d s r).rootReachabilityComplete = rootReachabilityComplete sb s r := by
  unfold checkReachability
  dsimp only
  by_cases h : rootReachabilityComplete sb s r = true
  · simp only [h, if_true]
    refine ⟨⟨⟨rfl, rfl, rfl, rfl, rfl⟩, ?_⟩, rfl, trivial⟩
    dsimp only
    rw [List.append_eq_nil_iff, List.filterMap_eq_nil_iff]
    refine and_congr_right fun _ => ?_
    simp only [ite_eq_right_iff, reduceCtorEq, imp_false, not_and, not_not, forall_true_left]
    constructor
    · intro hall n hn hroot
      obtain ⟨h1, h2, hb⟩ := mem_inodes.mp hn
      exact hall n (List.mem_map.mpr ⟨n - 1, List.mem_range.mpr (by omega), by omega⟩) hroot hb
    · intro hall n hn hroot hb
      obtain ⟨k, hk, rfl⟩ := List.mem_map.mp hn
      have := List.mem_range.mp hk
      exact hall _ (mem_inodes.mpr ⟨by omega, by omega, hb⟩) hroot
  · simp only [h]
    exact ⟨⟨⟨rfl, rfl, rfl, rfl, rfl⟩, by simp⟩, rfl, rfl⟩

/-- What the scan and the phases before the ledger must have shown. -/
structure Passed (s : Scan) : Prop where
  clean : s.Clean
  bitmaps : s.report.bitmapGeometryScanComplete = true
  rootDecoded : s.report.rootInodeDecoded = true
  blocks : unreferencedBlocks sb d s = []
  references : referencesComplete s = true
  rootTop : ∀ o ∈ s.directoryEntryObservations, o.entry.inode ≠ sb.rootInode
  links : ∀ x ∈ s.decodedInodes.toList, linkIssues sb s true x = []
  types : ∀ o ∈ s.directoryEntryObservations, ∀ v, s.decodedInodes[o.entry.inode.toNat]? = some v →
    isDirectoryType o.entry.fileType v.mode
  cycles : (Search.exploreAll (edges s.report) (isDecodedDirectory s) (starts s)).2 = []
  hardLinks : ((s.report.directoryEdges.map DirectoryEdge.childInodeNumber).filter (isDecodedDirectory s)).Nodup
  reach : rootReachabilityComplete sb s s.report = true
  reachable : ∀ n ∈ sb.inodes d, n ≠ sb.rootInode.toNat → n ∈ rootReachable sb s s.report

/-- The report before the ledger is looked at. -/
def beforeLedger : ConsistencyReport :=
  checkReachability sb d s (checkHardLinks s (checkCycles s (checkTypes s (checkLinkCounts sb s
    (checkRootReferences sb s (checkBlocks sb d s s.report))))))

/-- The evidence of all phases before the ledger. -/
def PassedEvidence (r : ConsistencyReport) : Prop :=
  r.status = .kComplete ∧ r.bitmapGeometryScanComplete = true ∧ r.rootInodeDecoded = true ∧
    r.rootReachabilityComplete = true ∧ r.blockReferenceScanComplete = true ∧ r.inodeReferenceScanComplete = true

theorem rootReachabilityComplete_congr {r t : ConsistencyReport} (h : t.directoryEdges = r.directoryEdges) :
    rootReachabilityComplete sb s t = rootReachabilityComplete sb s r ∧
    rootReachable sb s t = rootReachable sb s r := by
  simp only [rootReachabilityComplete, rootReachable, edges, h, and_self]

theorem beforeLedger_spec : Kept s.report (beforeLedger sb d s) ∧
    (PassedEvidence (beforeLedger sb d s) ∧ (beforeLedger sb d s).issues = [] ↔ Passed sb d s) := by
  unfold beforeLedger
  obtain ⟨h1, e1⟩ := checkBlocks_phase sb d s s.report
  generalize checkBlocks sb d s s.report = r1 at h1 e1 ⊢
  obtain ⟨h2, e2⟩ := checkRootReferences_phase sb s r1
  generalize checkRootReferences sb s r1 = r2 at h2 e2 ⊢
  obtain ⟨h3, e3⟩ := checkLinkCounts_phase sb s r2
  generalize checkLinkCounts sb s r2 = r3 at h3 e3 ⊢
  obtain ⟨h4, e4⟩ := checkTypes_phase s r3
  generalize checkTypes s r3 = r4 at h4 e4 ⊢
  have k4 : Kept s.report r4 := h1.kept.trans (h2.kept.trans (h3.kept.trans h4.kept))
  obtain ⟨h5, e5⟩ := checkCycles_phase s r4
  generalize checkCycles s r4 = r5 at h5 e5 ⊢
  obtain ⟨h6, e6⟩ := checkHardLinks_phase s r5
  generalize checkHardLinks s r5 = r6 at h6 e6 ⊢
  have k6 : Kept s.report r6 := k4.trans (h5.kept.trans h6.kept)
  obtain ⟨h7, e7, hreach⟩ := checkReachability_phase sb d s r6
  generalize checkReachability sb d s r6 = r7 at h7 e7 hreach ⊢
  have k7 : Kept s.report r7 := k6.trans h7.kept
  obtain ⟨hcomplete, hreachable⟩ := rootReachabilityComplete_congr sb s k6.edges
  have hedges : edges r4 = edges s.report := by rw [edges, k4.edges, edges]
  have hflags : evidence r7 = (s.blockReferenceScanComplete, referencesComplete s) := by
    rw [e7, e6, e5, e4, e3, e2, (Prod.mk.inj e1).1]
  obtain ⟨hblock, hrefs⟩ := Prod.mk.inj hflags
  have hrefs2 : r2.inodeReferenceScanComplete = referencesComplete s := (Prod.mk.inj e2).2
  have hbitmaps : r7.bitmapGeometryScanComplete = s.report.bitmapGeometryScanComplete := (Prod.mk.inj k7.settled).1
  refine ⟨k7, ?_⟩
  rw [h7.quiet, h6.quiet, h5.quiet, h4.quiet, h3.quiet, h2.quiet, h1.quiet, PassedEvidence, k7.status, hbitmaps,
    k7.rootDecoded, hreach, hblock, hrefs, hcomplete, hreachable, hrefs2, hedges, h5.kept.edges, k4.edges]
  constructor
  · rintro ⟨⟨hs, hb, hd, hr, hbl, hre⟩, ⟨⟨⟨⟨⟨⟨hi, q1⟩, q2⟩, q3⟩, q4⟩, q5⟩, q6⟩, q7⟩
    refine ⟨⟨hi, hs, hbl, ?_⟩, hb, hd, q1 hbl, hre, q2, hre ▸ q3, q4, q5, q6, hr, q7 hr⟩
    simp only [referencesComplete, Bool.and_eq_true] at hre
    exact hre.1.1
  · intro h
    exact ⟨⟨h.clean.status, h.bitmaps, h.rootDecoded, h.reach, h.clean.blocks, h.references⟩,
      ⟨⟨⟨⟨⟨⟨h.clean.issues, fun _ => h.blocks⟩, h.rootTop⟩, h.references.symm ▸ h.links⟩,
        h.types⟩, h.cycles⟩, h.hardLinks⟩, fun _ => h.reachable⟩

end Scan

end Eufs
