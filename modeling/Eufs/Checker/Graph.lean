import Eufs.Checker.Decides
import Eufs.Format.Insert

/-!
# Eufs.Checker.Graph — the directory graph of damaged images

The search for cycles and the walk from the root on an image of any content.  The scan collects entries from decoded
directories only and reports no cycle itself; the later phases keep what it collected.  So the cycles that are reported
are those of the collected entries, and what is called reachable can be reached along them.
-/

namespace Eufs

open Std.ExtTreeMap InodeRecord Search Superblock

variable {code : IssueCode}

namespace ConsistencyReport

variable {r : ConsistencyReport}

/-- The cycles that were reported. -/
def cycles (r : ConsistencyReport) : List CheckIssue := r.issues.filter fun i => i.code = .kDirectoryCycle

/-- A decoded directory. -/
def IsDirectory (r : ConsistencyReport) (root n : ℕ) : Prop :=
  n = root ∧ (∃ v, r.rootInode = some v ∧ S_ISDIR v.mode) ∨
    ∃ x ∈ r.discoveredInodes, x.inodeNumber = n ∧ S_ISDIR x.inode.mode

/-- A collected entry of `a` that points to `b`. -/
def Entry (r : ConsistencyReport) (a b : ℕ) : Prop := ⟨a, b⟩ ∈ r.directoryEdges

/-- A collected entry between decoded directories. -/
def Link (r : ConsistencyReport) (root a b : ℕ) : Prop :=
  r.IsDirectory root a ∧ r.Entry a b ∧ r.IsDirectory root b

theorem filter_cycles {l : List CheckIssue} (h : ∀ i ∈ l, i.code ≠ .kDirectoryCycle) (is : List CheckIssue) :
    (is ++ l).filter (fun i => i.code = .kDirectoryCycle) = is.filter fun i => i.code = .kDirectoryCycle := by
  have hnil : l.filter (fun i => decide (i.code = .kDirectoryCycle)) = [] :=
    List.filter_eq_nil_iff.mpr fun i hi => by simpa using h i hi
  rw [List.filter_append, hnil, List.append_nil]

theorem cycles_addIssue (h : code ≠ .kDirectoryCycle) (inode block related : ℕ) (detail : String) :
    (r.addIssue code inode block related detail).cycles = r.cycles :=
  filter_cycles (by simpa using h) _

end ConsistencyReport

namespace Scan

variable (sb : Superblock) (d : Image)

/-! ## The scan -/

/-- The directory graph is kept, up to new entries of the inodes in `own`. -/
structure KeepsGraph (own : ℕ → Prop) (s t : Scan) : Prop where
  decoded : t.decodedInodes = s.decodedInodes
  attempted : t.attemptedInodes = s.attemptedInodes
  root : t.report.rootInode = s.report.rootInode
  discovered : t.report.discoveredInodes = s.report.discoveredInodes
  cycles : t.report.cycles = s.report.cycles
  edges : ∀ e ∈ t.report.directoryEdges, e ∈ s.report.directoryEdges ∨ own e.parentInodeNumber

namespace KeepsGraph

variable {own : ℕ → Prop} {s t u : Scan}

theorem refl (own : ℕ → Prop) (s : Scan) : KeepsGraph own s s := ⟨rfl, rfl, rfl, rfl, rfl, fun _ he => .inl he⟩

theorem trans (h : KeepsGraph own s t) (h' : KeepsGraph own t u) : KeepsGraph own s u :=
  ⟨h'.decoded.trans h.decoded, h'.attempted.trans h.attempted, h'.root.trans h.root, h'.discovered.trans h.discovered,
    h'.cycles.trans h.cycles, fun e he => (h'.edges e he).elim (h.edges e) .inr⟩

theorem addIssue (h : KeepsGraph own s t) (hcode : code ≠ .kDirectoryCycle) (inode block related : ℕ)
    (detail : String) : KeepsGraph own s (t.addIssue code inode block related detail) :=
  ⟨h.decoded, h.attempted, h.root, h.discovered,
    (ConsistencyReport.cycles_addIssue hcode inode block related detail).trans h.cycles, h.edges⟩

theorem markPartial (h : KeepsGraph own s t) : KeepsGraph own s t.markPartial :=
  ⟨h.decoded, h.attempted, h.root, h.discovered, h.cycles, h.edges⟩

theorem incomplete (h : KeepsGraph own s t) : KeepsGraph own s { t.markPartial with
    blockReferenceScanComplete := false, inodeReferenceScanComplete := false } :=
  ⟨h.decoded, h.attempted, h.root, h.discovered, h.cycles, h.edges⟩

theorem setComplete (h : KeepsGraph own s t) (m : ℕ) (complete : Bool) :
    KeepsGraph own s (t.setComplete m complete) :=
  ⟨h.decoded, h.attempted, h.root, h.discovered, h.cycles, h.edges⟩

theorem enqueue (h : KeepsGraph own s t) (m : ℕ) : KeepsGraph own s (t.enqueuePhysicalScan m) := by
  unfold enqueuePhysicalScan
  split_ifs
  · exact h
  · exact ⟨h.decoded, h.attempted, h.root, h.discovered, h.cycles, h.edges⟩

end KeepsGraph

variable (own : ℕ → Prop) (n : ℕ)

theorem keepsGraph_registerBlockReference (s : Scan) (block inode logical : ℕ) (kind : BlockReferenceKind)
    (directoryData : Bool) :
    KeepsGraph own s (registerBlockReference sb d s block inode logical kind directoryData).1 := by
  have hadd : KeepsGraph own s { s with report := { s.report with
      blockReferences := s.report.blockReferences ++ [BlockReference.mk block inode logical kind] } } :=
    ⟨rfl, rfl, rfl, rfl, rfl, fun _ he => .inl he⟩
  unfold registerBlockReference
  dsimp only
  generalize ({ s with report := { s.report with blockReferences :=
      s.report.blockReferences ++ [BlockReference.mk block inode logical kind] } } : Scan) = t at hadd ⊢
  by_cases hout : block < sb.data.start ∨ block ≥ sb.totalBlocks.toNat
  · rw [if_pos hout]
    refine hadd.addIssue ?_ _ _ _ _
    split_ifs <;> decide
  · rw [if_neg hout]
    have hbit : KeepsGraph own s (if sb.blockBit d block then t
        else t.addIssue (if directoryData then .kDirectoryBlockMarkedFree else .kReferencedBlockMarkedFree)
          inode block 0 "被引用块在块位图中未置位") := by
      split_ifs
      · exact hadd
      · exact hadd.addIssue (by decide) _ _ _ _
      · exact hadd.addIssue (by decide) _ _ _ _
    generalize (if sb.blockBit d block then t
        else t.addIssue (if directoryData then .kDirectoryBlockMarkedFree else .kReferencedBlockMarkedFree)
          inode block 0 "被引用块在块位图中未置位") = u at hbit ⊢
    split
    · exact hbit.addIssue (by decide) _ _ _ _
    · exact ⟨hbit.decoded, hbit.attempted, hbit.root, hbit.discovered, hbit.cycles, hbit.edges⟩

theorem keepsGraph_scanPointer (directory : Bool) (missing beyond : String) (required : Bool) (logical block : ℕ)
    (s : Scan × List (Option ℕ)) :
    KeepsGraph own s.1 (scanPointer sb d n directory missing beyond required logical block s).1 := by
  have hstart := KeepsGraph.refl own s.1
  unfold scanPointer
  split_ifs
  · exact hstart.addIssue (by decide) _ _ _ _
  · exact hstart
  · exact keepsGraph_registerBlockReference sb d own s.1 _ _ _ _ _
  · exact (hstart.addIssue (by decide) _ _ _ _).trans (keepsGraph_registerBlockReference sb d own _ _ _ _ _ _)

theorem keepsGraph_foldl {α β : Type} {f : Scan × β → α → Scan × β}
    (h : ∀ s x, KeepsGraph own s.1 (f s x).1) (l : List α)
    (s : Scan × β) : KeepsGraph own s.1 (l.foldl f s).1 :=
  foldl_rel (fun s t : Scan × β => KeepsGraph own s.1 t.1) (fun s => .refl own s.1) .trans h l s

theorem keepsGraph_scanIndirectBlock (v : InodeRecord) (s : Scan × List (Option ℕ)) :
    KeepsGraph own s.1 (scanIndirectBlock sb d n v s).1 := by
  have hstart := KeepsGraph.refl own s.1
  unfold scanIndirectBlock
  by_cases h0 : v.indirect = 0
  · rw [if_pos h0]
    dsimp only
    split_ifs
    · exact hstart.addIssue (by decide) _ _ _ _
    · exact hstart
  · rw [if_neg h0]
    have hscan : KeepsGraph own s.1
      (if v.requiredBlocks - kDirectBlockCount = 0 then s.1.addIssue .kBlockPointerBeyondEnd n
        v.indirect 0 "inode 在文件结尾之后仍有不必要的间接索引块" else s.1) := by
      split_ifs
      · exact hstart.addIssue (by decide) _ _ _ _
      · exact hstart
    dsimp only
    generalize (if v.requiredBlocks - kDirectBlockCount = 0 then s.1.addIssue .kBlockPointerBeyondEnd n
        v.indirect 0 "inode 在文件结尾之后仍有不必要的间接索引块" else s.1) = t at hscan ⊢
    have hreg := hscan.trans (keepsGraph_registerBlockReference sb d own t v.indirect n 0 .kIndirect false)
    split
    · next u hu =>
      rw [hu] at hreg
      exact ⟨hreg.decoded, hreg.attempted, hreg.root, hreg.discovered, hreg.cycles, hreg.edges⟩
    · next u hu =>
      rw [hu] at hreg
      exact hreg.trans (keepsGraph_foldl own (fun s k => keepsGraph_scanPointer sb d own n _ _ _ _ _ _ s) _ (u, s.2))

theorem keepsGraph_scanMapping (v : InodeRecord) (s : Scan) : KeepsGraph own s (scanMapping sb d n v s) := by
  have hdirect : KeepsGraph own s (scanDirect sb d n v (s, List.replicate v.requiredBlocks none)).1 :=
    keepsGraph_foldl own (fun s k => keepsGraph_scanPointer sb d own n _ _ _ _ _ _ s) _
      (s, List.replicate v.requiredBlocks none)
  have h := hdirect.trans (keepsGraph_scanIndirectBlock sb d own n v _)
  exact ⟨h.decoded, h.attempted, h.root, h.discovered, h.cycles, h.edges⟩

theorem keepsGraph_enterName (physical : ℕ) (s : Scan) (e : DirectoryEntry) :
    KeepsGraph (· = n) s (enterName sb n physical s e) := by
  have hroot : KeepsGraph (· = n) s (if n = sb.rootInode.toNat then
      { s with report := { s.report with rootEntries := s.report.rootEntries ++ [e] } } else s) := by
    split_ifs
    · exact ⟨rfl, rfl, rfl, rfl, rfl, fun _ he => .inl he⟩
    · exact .refl _ s
  unfold enterName
  dsimp only
  generalize (if n = sb.rootInode.toNat then
      { s with report := { s.report with rootEntries := s.report.rootEntries ++ [e] } } else s) = t at hroot ⊢
  split_ifs
  · exact ⟨hroot.decoded, hroot.attempted, hroot.root, hroot.discovered,
      (ConsistencyReport.filter_cycles (by simp) _).trans hroot.cycles, hroot.edges⟩
  · exact ⟨hroot.decoded, hroot.attempted, hroot.root, hroot.discovered, hroot.cycles, hroot.edges⟩

theorem keepsGraph_scanEntry (physical : ℕ) (s : Scan) (e : DirectoryEntry) :
    KeepsGraph (· = n) s (scanEntry sb d n physical s e) := by
  have hname := keepsGraph_enterName sb n physical s e
  -- the new entry starts at `n`
  have hadd : KeepsGraph (· = n) s (addEdge n physical (enterName sb n physical s e) e) := by
    refine ⟨hname.decoded, hname.attempted, hname.root, hname.discovered, hname.cycles, fun x hx => ?_⟩
    rcases List.mem_append.mp hx with hx | hx
    · exact hname.edges x hx
    · rw [List.mem_singleton.mp hx]
      exact .inr rfl
  have hedge := hadd.enqueue e.inode.toNat
  unfold scanEntry
  split_ifs
  · exact .refl _ s
  · exact (hname.addIssue (by decide) _ _ _ _).markPartial
  · exact hedge
  · exact hedge.addIssue (by decide) _ _ _ _

theorem keepsGraph_scanBlock (s : Scan × Bool) (mapped : Option ℕ) :
    KeepsGraph (· = n) s.1 (scanBlock sb d n s mapped).1 := by
  cases mapped with
  | none => exact (KeepsGraph.refl (· = n) s.1).markPartial
  | some physical =>
    have hfold := foldl_rel (KeepsGraph (· = n)) (.refl _) .trans (keepsGraph_scanEntry sb d n physical)
      ((blockRecords "" (d physical) 0).1.map Prod.snd) s.1
    unfold scanBlock
    dsimp only
    split
    · exact (hfold.addIssue (by decide) _ _ _ _).markPartial
    · exact hfold

theorem keepsGraph_scanDirectory (v : InodeRecord) (s : Scan) : KeepsGraph (· = n) s (scanDirectory sb d n v s) := by
  have hstart := KeepsGraph.refl (· = n) s
  unfold scanDirectory
  dsimp only
  split_ifs
  · exact (hstart.addIssue (by decide) _ _ _ _).markPartial.setComplete _ _
  · exact (hstart.addIssue (by decide) _ _ _ _).markPartial.setComplete _ _
  · exact (keepsGraph_foldl _ (keepsGraph_scanBlock sb d n) _ (s, true)).setComplete _ _

theorem keepsGraph_scanUndecodable (detail : String) (s : Scan) : KeepsGraph own s (scanUndecodable sb n detail s) := by
  have hstart := KeepsGraph.refl own s
  unfold scanUndecodable
  refine KeepsGraph.incomplete ?_
  split_ifs
  · exact hstart.addIssue (by decide) _ _ _ _
  · split
    · exact hstart.addIssue (by decide) _ _ _ _
    · exact hstart.addIssue (by decide) _ _ _ _

/-- The tables of the scan and the report agree, and the entries were found in decoded directories. -/
structure Graphed (s : Scan) : Prop where
  attempted : ∀ n v, s.decodedInodes[n]? = some v → n ∈ s.attemptedInodes
  decoded : ∀ n v, s.decodedInodes[n]? = some v ↔ n = sb.rootInode.toNat ∧ s.report.rootInode = some v ∨
    ∃ x ∈ s.report.discoveredInodes, x.inodeNumber = n ∧ x.inode = v
  cycles : s.report.cycles = []
  sources : ∀ e ∈ s.report.directoryEdges, isDecodedDirectory s e.parentInodeNumber = true

variable {sb d own n} {s t : Scan}

theorem isDecodedDirectory_iff : isDecodedDirectory s n = true ↔
    ∃ v, s.decodedInodes[n]? = some v ∧ S_ISDIR v.mode := by
  unfold isDecodedDirectory
  cases s.decodedInodes[n]? with
  | none => simp
  | some v => simp

theorem mem_starts (h : isDecodedDirectory s n = true) : n ∈ starts s := by
  obtain ⟨v, hv, hdir⟩ := isDecodedDirectory_iff.mp h
  refine List.mem_map.mpr ⟨(n, v), List.mem_filter.mpr ⟨?_, by simpa using hdir⟩, rfl⟩
  exact mem_toList_iff_getElem?_eq_some.mpr hv

theorem Graphed.keep (h : Graphed sb s) (hk : KeepsGraph own s t)
    (hown : ∀ m, own m → isDecodedDirectory s m = true) :
    Graphed sb t := by
  have hdir : ∀ m, isDecodedDirectory t m = isDecodedDirectory s m := fun m => by
    rw [isDecodedDirectory, isDecodedDirectory, hk.decoded]
  refine ⟨?_, ?_, hk.cycles.trans h.cycles, fun e he => ?_⟩
  · rw [hk.decoded, hk.attempted]
    exact h.attempted
  · rw [hk.decoded, hk.root, hk.discovered]
    exact h.decoded
  · rw [hdir]
    exact (hk.edges e he).elim (h.sources e) (hown _)

theorem recordInode_graph (n : ℕ) (v : InodeRecord) (s : Scan) :
    (recordInode sb d n v s).decodedInodes = s.decodedInodes.insert n v ∧
    (recordInode sb d n v s).attemptedInodes = s.attemptedInodes ∧
    (recordInode sb d n v s).report.directoryEdges = s.report.directoryEdges ∧
    (recordInode sb d n v s).report.cycles = s.report.cycles ∧
    (recordInode sb d n v s).report.rootInode = (if n = sb.rootInode.toNat then some v else s.report.rootInode) ∧
    (recordInode sb d n v s).report.discoveredInodes = s.report.discoveredInodes ++
      (if n = sb.rootInode.toNat then [] else [⟨n, sb.inodeBit d n, v⟩]) := by
  unfold recordInode
  dsimp only
  by_cases hroot : n = sb.rootInode.toNat
  · simp only [if_pos hroot, List.append_nil]
    split_ifs
    · exact ⟨rfl, rfl, rfl, rfl, rfl, rfl⟩
    · exact ⟨rfl, rfl, rfl, ConsistencyReport.cycles_addIssue (by decide) _ _ _ _, rfl, rfl⟩
  · simp only [if_neg hroot]
    exact ⟨trivial, trivial, trivial, rfl, trivial, trivial⟩

theorem Graphed.recordInode (h : Graphed sb s) (hn : s.decodedInodes[n]? = none) (hat : n ∈ s.attemptedInodes)
    (v : InodeRecord) : Graphed sb (recordInode sb d n v s) := by
  obtain ⟨hdec, hatt, hedges, hcycles, hroot, hdisc⟩ := @recordInode_graph sb d n v s
  have hget : ∀ m, (Scan.recordInode sb d n v s).decodedInodes[m]? =
      if n = m then some v else s.decodedInodes[m]? := by
    intro m
    rw [hdec, getElem?_insert]
    split_ifs with h1 h2 h2
    · rfl
    · exact absurd (Std.compare_eq_iff_eq.mp h1) h2
    · exact absurd (Std.compare_eq_iff_eq.mpr h2) h1
    · rfl
  refine ⟨fun m w hw => ?_, fun m w => ?_, hcycles.trans h.cycles, fun e he => ?_⟩
  · rw [hatt]
    rw [hget] at hw
    split_ifs at hw with hm
    · exact hm ▸ hat
    · exact h.attempted m w hw
  · rw [hget, hroot, hdisc]
    by_cases hm : n = m
    · subst hm
      have hold : ¬ ∃ x ∈ s.report.discoveredInodes, x.inodeNumber = n ∧ x.inode = w := fun hx => by
        cases hn.symm.trans ((h.decoded n w).mpr (.inr hx))
      by_cases hr : n = sb.rootInode.toNat
      · rw [if_pos rfl, if_pos hr, if_pos hr, List.append_nil, or_iff_left hold, and_iff_right hr]
      · simp [hr, hold, or_and_right, exists_or]
    · have hother : m = sb.rootInode.toNat → n ≠ sb.rootInode.toNat := fun h1 h2 => hm (h2.trans h1.symm)
      rw [if_neg hm, h.decoded]
      by_cases hr : n = sb.rootInode.toNat
      · have hmr : m ≠ sb.rootInode.toNat := fun hc => hother hc hr
        simp [hr, hmr]
      · simp [hr, hm, or_and_right, exists_or]
  · rw [hedges] at he
    obtain ⟨w, hw, hdir⟩ := isDecodedDirectory_iff.mp (h.sources e he)
    refine isDecodedDirectory_iff.mpr ⟨w, ?_, hdir⟩
    rw [hget, if_neg fun hc => ?_]
    · exact hw
    · rw [← hc, hn] at hw
      cases hw

theorem Graphed.scanInode (h : Graphed sb s) (hn : s.decodedInodes[n]? = none) (hat : n ∈ s.attemptedInodes) :
    Graphed sb (scanInode sb d n s) := by
  unfold Scan.scanInode
  split
  · next detail _ => exact h.keep (keepsGraph_scanUndecodable sb (fun _ => False) n detail s) fun _ hm => hm.elim
  · next v _ =>
    have hmap := keepsGraph_scanMapping sb d (fun _ => False) n v (Scan.recordInode sb d n v s)
    have hgraph := (h.recordInode hn hat v).keep hmap fun _ hm => hm.elim
    dsimp only
    split_ifs with hdir
    · refine hgraph.keep (keepsGraph_scanDirectory sb d n v _) fun m hm => isDecodedDirectory_iff.mpr ⟨v, ?_, hdir⟩
      rw [hmap.decoded, (recordInode_graph n v s).1, hm, getElem?_insert_self]
    · exact hgraph

theorem Graphed.dequeue (h : Graphed sb s) (q : List ℕ) (a : Finset ℕ) (ha : s.attemptedInodes ⊆ a) :
    Graphed sb { s with physicalScanQueue := q, attemptedInodes := a } :=
  ⟨fun n v hv => ha (h.attempted n v hv), h.decoded, h.cycles, h.sources⟩

theorem Graphed.scanQueue (h : Graphed sb s) : Graphed sb (scanQueue sb d s) := by
  induction s using scanQueue.induct sb d with
  | case1 s hq => rwa [scanQueue_nil sb d hq]
  | case2 s n rest hq s' hn ih =>
    rw [scanQueue_seen sb d hq hn]
    exact ih (h.dequeue rest _ subset_rfl)
  | case3 s n rest hq s' hn ih =>
    rw [scanQueue_cons sb d hq hn]
    refine ih ((h.dequeue rest _ (Finset.subset_insert n _)).scanInode ?_ (Finset.mem_insert_self n _))
    show s.decodedInodes[n]? = none
    cases hv : s.decodedInodes[n]? with
    | none => rfl
    | some v => exact absurd (h.attempted n v hv) hn

theorem cycles_addBitmapIssue {r : ConsistencyReport} (h : code ≠ .kDirectoryCycle) (block : ℕ → ℕ)
    (summary : Option (ℕ × ℕ)) (detail : String) :
    (addBitmapIssue r code block summary detail).cycles = r.cycles := by
  cases summary with
  | none => rfl
  | some x => exact ConsistencyReport.filter_cycles (by simpa using h) _

theorem cycles_checkBitmapGeometry (sb : Superblock) (d : Image) (r : ConsistencyReport) :
    (checkBitmapGeometry sb d r).cycles = r.cycles := by
  have hbits : ∀ (t : ConsistencyReport), ({ t with bitmapGeometryScanComplete := true } : ConsistencyReport).cycles =
      t.cycles := fun _ => rfl
  unfold checkBitmapGeometry reportBitmaps
  dsimp only
  split_ifs
  · rw [hbits, cycles_addBitmapIssue (by decide), cycles_addBitmapIssue (by decide), cycles_addBitmapIssue (by decide)]
  · rw [ConsistencyReport.cycles_addIssue (by decide), hbits, cycles_addBitmapIssue (by decide),
      cycles_addBitmapIssue (by decide), cycles_addBitmapIssue (by decide)]

theorem imageScan_graphed (sb : Superblock) (d : Image) : Graphed sb (imageScan sb d) := by
  obtain ⟨issues, heq, -⟩ := checkBitmapGeometry_spec sb d (initialReport sb)
  refine Graphed.scanQueue ?_
  rw [start_eq]
  refine ⟨fun n v hv => ?_, fun n v => ?_, cycles_checkBitmapGeometry sb d (initialReport sb), fun e he => ?_⟩
  · simp [blank] at hv
  · rw [heq]
    simp [initialReport, blank]
  · rw [heq] at he
    exact absurd he List.not_mem_nil

/-! ## The later phases -/

/-- The directory graph in the report, and the cycles. -/
def graph (r : ConsistencyReport) :
    List DirectoryEdge × Option InodeRecord × List DiscoveredInode × List CheckIssue :=
  (r.directoryEdges, r.rootInode, r.discoveredInodes, r.cycles)

variable {r : ConsistencyReport}

theorem graph_append {l : List CheckIssue} (h : ∀ i ∈ l, i.code ≠ .kDirectoryCycle) :
    graph { r with issues := r.issues ++ l } = graph r := by
  have hcycles := ConsistencyReport.filter_cycles h r.issues
  simp only [graph, ConsistencyReport.cycles, hcycles]

variable (sb d s r)

theorem graph_checkBlocks : graph (checkBlocks sb d s r) = graph r := by
  unfold checkBlocks
  dsimp only
  split_ifs
  · exact graph_append (by simp)
  · rfl

theorem graph_checkRootReferences : graph (checkRootReferences sb s r) = graph r := by
  refine graph_append fun i hi => ?_
  obtain ⟨o, -, ho⟩ := List.mem_filterMap.mp hi
  split_ifs at ho
  cases ho
  simp

theorem graph_checkLinkCounts : graph (checkLinkCounts sb s r) = graph r := by
  rw [checkLinkCounts, checkLinkCounts_eq]
  refine graph_append fun i hi => ?_
  obtain ⟨x, -, hx⟩ := List.mem_flatMap.mp hi
  rcases List.mem_append.mp hx with hx | hx
  · split_ifs at hx
    · rw [List.mem_singleton.mp hx]
      simp
    · exact absurd hx List.not_mem_nil
  · split_ifs at hx
    · rw [List.mem_singleton.mp hx]
      simp
    · exact absurd hx List.not_mem_nil

theorem graph_checkTypes : graph (checkTypes s r) = graph r := by
  refine graph_append fun i hi => ?_
  obtain ⟨o, -, ho⟩ := List.mem_filterMap.mp hi
  split at ho
  · split_ifs at ho
    cases ho
    simp
  · cases ho

theorem graph_checkHardLinks : graph (checkHardLinks s r) = graph r := by
  refine foldl_observe (fun x : List ℕ × ConsistencyReport => graph x.2) (fun x e => ?_) r.directoryEdges ([], r)
  unfold checkHardLink
  split_ifs
  · rfl
  · exact graph_append (by simp)
  · rfl

theorem graph_checkReachability : graph (checkReachability sb d s r) = graph r := by
  unfold checkReachability
  dsimp only
  split_ifs
  · refine graph_append fun i hi => ?_
    obtain ⟨n, -, hn⟩ := List.mem_filterMap.mp hi
    split_ifs at hn
    cases hn
    simp [unreachableIssue]
  · rfl

theorem graph_addLedgerIssue (l : LedgerScan) (h : code ≠ .kDirectoryCycle) (block slot : ℕ) (detail : String) :
    graph (l.addLedgerIssue code block slot detail).report = graph l.report :=
  graph_append (by simpa using h)

theorem graph_checkLedgerSlot (physical slot : ℕ) (bytes : RequestLedgerBytes) (l : LedgerScan) :
    graph (checkLedgerSlot physical slot bytes l).report = graph l.report := by
  unfold checkLedgerSlot
  dsimp only
  split
  · exact graph_addLedgerIssue _ (by decide) _ _ _
  · rfl
  · split_ifs
    · exact (graph_addLedgerIssue _ (by decide) _ _ _).trans (graph_addLedgerIssue _ (by decide) _ _ _)
    · exact graph_addLedgerIssue _ (by decide) _ _ _
    · exact graph_addLedgerIssue _ (by decide) _ _ _
    · rfl

theorem graph_checkLedgerBlock (l : LedgerScan) (x : Option ℕ × ℕ) :
    graph (checkLedgerBlock d l x).report = graph l.report := by
  obtain ⟨mapped, logical⟩ := x
  cases mapped with
  | none => exact graph_addLedgerIssue l (by decide) _ _ _
  | some physical =>
    exact foldl_observe (fun l : LedgerScan => graph l.report) (fun l k => graph_checkLedgerSlot _ _ _ l) _ l

theorem graph_checkLedgerSlots (v : InodeRecord) (l : LedgerScan) :
    graph (checkLedgerSlots d s v l).report = graph l.report := by
  unfold checkLedgerSlots
  dsimp only
  split_ifs
  · exact graph_addLedgerIssue _ (by decide) _ _ _
  · exact foldl_observe (fun l : LedgerScan => graph l.report) (graph_checkLedgerBlock d) _ _

theorem graph_checkLedgerInode (l : LedgerScan) : graph (checkLedgerInode sb d s l).report = graph l.report := by
  unfold checkLedgerInode
  split
  · exact graph_addLedgerIssue l (by decide) _ _ _
  · next v _ =>
    have hbit : graph (if sb.inodeBit d kRequestLedgerInodeNumber then l else
        l.addLedgerIssue .kRequestLedgerIdentityInvalid 0 0
          "固定 ledger inode 2 在 inode bitmap 中未分配").report =
          graph l.report := by
      split_ifs
      · rfl
      · exact graph_addLedgerIssue l (by decide) _ _ _
    dsimp only
    generalize (if sb.inodeBit d kRequestLedgerInodeNumber then l else
        l.addLedgerIssue .kRequestLedgerIdentityInvalid 0 0 "固定 ledger inode 2 在 inode bitmap 中未分配") =
          m at hbit ⊢
    have hlink : graph (if ¬ S_ISREG v.mode ∨ v.linkCount ≠ 1 then
        m.addLedgerIssue .kRequestLedgerGeometryInvalid 0 0 "ledger inode 必须是 link_count=1 的普通文件"
          else m).report = graph l.report := by
      split_ifs
      · exact (graph_addLedgerIssue m (by decide) _ _ _).trans hbit
      · exact hbit
    generalize (if ¬ S_ISREG v.mode ∨ v.linkCount ≠ 1 then
        m.addLedgerIssue .kRequestLedgerGeometryInvalid 0 0 "ledger inode 必须是 link_count=1 的普通文件"
          else m) = k at hlink ⊢
    split_ifs
    · exact (graph_checkLedgerSlots d s v k).trans hlink
    · exact (graph_addLedgerIssue k (by decide) _ _ _).trans hlink

theorem graph_checkLedgerEntry (l : LedgerScan) : graph (checkLedgerEntry sb s l).report = graph l.report := by
  unfold checkLedgerEntry
  split_ifs
  · exact graph_addLedgerIssue l (by decide) _ _ _
  · split
    · split_ifs
      · exact graph_addLedgerIssue l (by decide) _ _ _
      · rfl
    · exact graph_addLedgerIssue l (by decide) _ _ _

theorem graph_checkLedger : graph (checkLedger sb d s r) = graph r := by
  unfold checkLedger
  split_ifs
  · exact (graph_checkLedgerInode sb d s _).trans (graph_checkLedgerEntry sb s { report := r })
  · rfl

/-- The cycles are the edges that lead back into the stack of the search. -/
theorem cycles_checkCycles (h : r.cycles = []) : (checkCycles s r).cycles =
    (exploreAll (edges r) (isDecodedDirectory s) (starts s)).2.map cycleIssue := by
  rw [ConsistencyReport.cycles, checkCycles, List.filter_append]
  have hold : r.issues.filter (fun i => decide (i.code = .kDirectoryCycle)) = [] := h
  rw [hold, List.nil_append]
  refine List.filter_eq_self.mpr fun i hi => ?_
  obtain ⟨e, -, rfl⟩ := List.mem_map.mp hi
  rfl

theorem finish_graph (h : s.report.cycles = []) :
    (finish sb d s).directoryEdges = s.report.directoryEdges ∧ (finish sb d s).rootInode = s.report.rootInode ∧
    (finish sb d s).discoveredInodes = s.report.discoveredInodes ∧
    ((finish sb d s).cycles = [] ↔ (exploreAll (edges s.report) (isDecodedDirectory s) (starts s)).2 = []) ∧
    (finish sb d s).rootReachableInodeNumbers = (rootReachable sb s s.report).toFinset.sort (· ≤ ·) := by
  -- the report before the search for cycles, and the one before the tables are copied
  let before := checkTypes s (checkLinkCounts sb s (checkRootReferences sb s (checkBlocks sb d s s.report)))
  let after := checkLedger sb d s (checkReachability sb d s (checkHardLinks s (checkCycles s before)))
  have hbefore : graph before = graph s.report := (graph_checkTypes s _).trans ((graph_checkLinkCounts sb s _).trans
    ((graph_checkRootReferences sb s _).trans (graph_checkBlocks sb d s _)))
  have hafter : graph after = graph (checkCycles s before) := (graph_checkLedger sb d s _).trans
    ((graph_checkReachability sb d s _).trans (graph_checkHardLinks s _))
  simp only [graph, Prod.mk.injEq] at hbefore hafter
  obtain ⟨b1, b2, b3, b4⟩ := hbefore
  obtain ⟨a1, a2, a3, a4⟩ := hafter
  have hedges : after.directoryEdges = s.report.directoryEdges := a1.trans b1
  refine ⟨hedges, a2.trans b2, a3.trans b3, ?_, ?_⟩
  · show after.cycles = [] ↔ _
    have hlist : edges before = edges s.report := by rw [edges, edges, b1]
    rw [a4, cycles_checkCycles s before (b4.trans h), List.map_eq_nil_iff, hlist]
  · show (rootReachable sb s after).toFinset.sort (· ≤ ·) = _
    rw [(rootReachabilityComplete_congr sb s hedges).2]

variable {sb s}

theorem finish_isDirectory_iff (h : Graphed sb s) :
    (finish sb d s).IsDirectory sb.rootInode.toNat n ↔ isDecodedDirectory s n = true := by
  obtain ⟨-, hroot, hdisc, -, -⟩ := finish_graph sb d s h.cycles
  rw [isDecodedDirectory_iff, ConsistencyReport.IsDirectory, hroot, hdisc]
  constructor
  · rintro (⟨ha, v, hv, hd⟩ | ⟨x, hx, hxa, hd⟩)
    · exact ⟨v, (h.decoded n v).mpr (.inl ⟨ha, hv⟩), hd⟩
    · exact ⟨x.inode, (h.decoded n x.inode).mpr (.inr ⟨x, hx, hxa, rfl⟩), hd⟩
  · rintro ⟨v, hv, hd⟩
    rcases (h.decoded n v).mp hv with ⟨ha, hv⟩ | ⟨x, hx, hxa, rfl⟩
    · exact .inl ⟨ha, v, hv, hd⟩
    · exact .inr ⟨x, hx, hxa, hd⟩

theorem finish_entry_iff (h : Graphed sb s) {a b : ℕ} :
    (finish sb d s).Entry a b ↔ Search.Edge (edges s.report) a b := by
  rw [ConsistencyReport.Entry, (finish_graph sb d s h.cycles).1, Search.Edge, edges, List.mem_map]
  constructor
  · exact fun he => ⟨_, he, rfl⟩
  · rintro ⟨e, he, heq⟩
    cases heq
    exact he

end Scan

/-! ## Whole images -/

open Scan in
/-- The report on an image of any content: a cycle is reported exactly when the collected entries between decoded
directories form one, and the reachable inodes are those the entries lead to from the root. -/
theorem checkImage_graph_exact {n : ℕ} {d : Image} {sb : Superblock} {c : JournalControl} {copy : ControlCopy}
    {report : ConsistencyReport} (h : Opens n d sb c copy) (hclean : c.usedBlocks = 0)
    (hreport : checkImage n d = .ok report) :
    ((∃ i ∈ report.issues, i.code = .kDirectoryCycle) ↔
      ∃ a, Relation.TransGen (report.Link sb.rootInode.toNat) a a) ∧
    ∀ a, a ∈ report.rootReachableInodeNumbers ↔ Relation.ReflTransGen report.Entry sb.rootInode.toNat a := by
  obtain rfl : checkClean sb d (initialReport sb) = report :=
    Except.ok.inj ((checkImage_of_clean h hclean).symm.trans hreport)
  rw [checkClean_eq]
  have hg := imageScan_graphed sb d
  generalize imageScan sb d = s at hg
  have hdir : ∀ a, (finish sb d s).IsDirectory sb.rootInode.toNat a ↔ isDecodedDirectory s a = true :=
    fun _ => finish_isDirectory_iff d hg
  have hentry : ∀ a b, (finish sb d s).Entry a b ↔ Search.Edge (edges s.report) a b :=
    fun _ _ => finish_entry_iff d hg
  obtain ⟨-, -, -, hcycles, hreach⟩ := finish_graph sb d s hg.cycles
  generalize finish sb d s = report at hdir hentry hcycles hreach
  have hsource : ∀ a b, Search.Edge (edges s.report) a b → isDecodedDirectory s a = true := by
    intro a b hab
    obtain ⟨e, he, heq⟩ := List.mem_map.mp hab
    cases heq
    exact hg.sources e he
  constructor
  · have hlink : report.Link sb.rootInode.toNat = Search.Edge (followed (edges s.report) (isDecodedDirectory s)) := by
      funext a b
      refine propext ?_
      rw [ConsistencyReport.Link, hdir, hdir, hentry, edge_followed]
      exact and_iff_right_of_imp fun hab => hsource a b hab.1
    have hissue : (∃ i ∈ report.issues, i.code = .kDirectoryCycle) ↔ report.cycles ≠ [] := by
      simp [ConsistencyReport.cycles, List.filter_eq_nil_iff]
    rw [hissue, ne_eq, hcycles, exploreAll_eq_nil_iff fun x hx => mem_starts hx, hlink, not_forall]
    simp only [not_not]
  · intro a
    have hreached : Search.Edge ((edges s.report).filter fun e => isDecodedDirectory s e.1) = report.Entry := by
      funext x y
      refine propext ?_
      rw [hentry, Search.Edge, List.mem_filter]
      exact and_iff_left_of_imp fun hxy => hsource x y hxy
    rw [hreach, Finset.mem_sort, List.mem_toFinset, rootReachable, mem_reach_singleton, hreached]

/-! ## A cycle of directories -/

/-- Directory `n` of the damaged image, with one block. -/
def cyclicDirectory (n : UInt32) : InodeRecord :=
  { formattedRoot sampleSuperblock sampleLedger sampleHost with
    inodeNumber := n
    size := 4096
    directBlocks := Vector.ofFn fun i => if i.val = 0 then 9 + n else 0 }

/-- Its entry: the root and directory 3 lead to directory 2, which leads to directory 3. -/
def cyclicEntry (n : ℕ) : DirectoryEntry := ⟨if n = 2 then 3 else 2, .kDirectory, [97], 0⟩

/-- The small image with these directories in place of its root. -/
def cyclicImage : Image := fun b =>
  if b = 1 then bitmapBlock ((Bitmap.setBitmapPrefix (fun _ => 0) 3).reserveBitmapTail 32) 0
  else if b = 2 then bitmapBlock ((Bitmap.setBitmapPrefix (fun _ => 0) 13).reserveBitmapTail 16) 0
  else if b = 3 then (Bytes.zero kBlockSize).fill ([1, 2, 3].map fun n =>
    .raw (inodeOffsetInBlock n) (inodeBytes (cyclicDirectory (UInt32.ofNat n))).toList)
  else if 10 ≤ b ∧ b ≤ 12 then oneEntryBlock (cyclicEntry (b - 9))
  else sampleImage b

theorem cyclicImage_opens : Opens 16 cyclicImage sampleSuperblock (formattedControl sampleSuperblock) .kA :=
  (sampleImage_formatted.opens sampleLayout).keep ⟨rfl, fun copy => by cases copy <;> rfl⟩

theorem testBit_cyclicImage {k : ℕ} (hk : k < 32768) :
    (loadBitmap cyclicImage 1).testBit k = (decide (32 ≤ k) || decide (k < 3)) ∧
    (loadBitmap cyclicImage 2).testBit k = (decide (16 ≤ k) || decide (k < 13)) :=
  ⟨testBit_loadBitmap_reserved hk rfl, testBit_loadBitmap_reserved hk rfl⟩

theorem inodes_cyclicImage : sampleSuperblock.inodes cyclicImage = [1, 2, 3] := by
  have hbit : ∀ n ∈ (List.range 32).map (· + 1), sampleSuperblock.inodeBit cyclicImage n = decide (n ≤ 3) := by
    intro n hn
    obtain ⟨k, hk, rfl⟩ := List.mem_map.mp hn
    have hk : k < 32 := List.mem_range.mp hk
    refine (testBit_cyclicImage (k := k) (by omega)).1.trans ?_
    rw [decide_eq_false (by omega), Bool.false_or]
    exact decide_eq_decide.mpr (by omega)
  exact (List.filter_congr hbit).trans (by decide)

theorem bitmapsOk_cyclicImage : BitmapsOk sampleSuperblock cyclicImage := by
  refine ⟨⟨fun b hb => ?_, fun k hk hle => ?_, fun k hk hle => ?_⟩, ?_⟩
  · have hb : b < 10 := hb
    refine (testBit_cyclicImage (by omega)).2.trans ?_
    simp only [Bool.or_eq_true, decide_eq_true_eq]
    omega
  · have hle : 32 ≤ k := hle
    exact (testBit_cyclicImage hk).1.trans (by simp [hle])
  · have hle : 16 ≤ k := hle
    exact (testBit_cyclicImage hk).2.trans (by simp [hle])
  · exact (testBit_cyclicImage (by decide)).1.trans (by decide)

theorem cyclicDirectory_isDir (n : UInt32) : S_ISDIR (cyclicDirectory n).mode :=
  (by decide : S_ISDIR (S_IFDIR ||| 0o755))

theorem cyclicDirectory_valid {n : UInt32} (hn : n ≠ 0) : (cyclicDirectory n).Valid :=
  ⟨hn, .inr (cyclicDirectory_isDir n), (by decide : (4096 : UInt64).toNat ≤ kMaxFileSize)⟩

theorem inodeAt_cyclicImage {n : ℕ} (hn : n ∈ [1, 2, 3]) :
    sampleSuperblock.inodeAt cyclicImage n = some (cyclicDirectory (UInt32.ofNat n)) := by
  have hslot : inodeSlot sampleSuperblock cyclicImage n = inodeBytes (cyclicDirectory (UInt32.ofNat n)) := by
    have hfits : Bytes.Fits kBlockSize ([1, 2, 3].map fun n => (inodeOffsetInBlock n, kInodeRecordSize)) := by decide
    have htable : inodeTableBlock sampleSuperblock n = 3 := by fin_cases hn <;> rfl
    rw [inodeSlot, htable]
    exact Bytes.getBytes_fill (by simpa using hfits) (List.mem_map_of_mem hn)
  rw [inodeAt_eq_some, hslot]
  fin_cases hn <;> exact decodeInode_inodeBytes (cyclicDirectory_valid (by decide))

theorem blocks_cyclicDirectory {n : ℕ} (hn : n ∈ [1, 2, 3]) :
    (cyclicDirectory (UInt32.ofNat n)).blocks cyclicImage = [9 + n] := by
  fin_cases hn <;> rfl

theorem block_cyclicImage {n : ℕ} (hn : n ∈ [1, 2, 3]) : cyclicImage (9 + n) = oneEntryBlock (cyclicEntry n) := by
  have hle : 1 ≤ n ∧ n ≤ 3 := by fin_cases hn <;> decide
  rw [cyclicImage, if_neg (by omega), if_neg (by omega), if_neg (by omega), if_pos (by omega), Nat.add_sub_cancel_left]

theorem cyclicEntry_new (n : ℕ) : (cyclicEntry n).New :=
  ⟨by unfold cyclicEntry; split_ifs <;> decide, .inr rfl, (by decide : isValidName [97])⟩

theorem entries_cyclicDirectory {n : ℕ} (hn : n ∈ [1, 2, 3]) :
    (cyclicDirectory (UInt32.ofNat n)).entries cyclicImage =
      [{ cyclicEntry n with recordLength := UInt16.ofNat kBlockSize }] := by
  rw [entries, blocks_cyclicDirectory hn, List.flatMap_singleton, block_cyclicImage hn,
    activeEntries_oneEntryBlock (cyclicEntry_new n)]

theorem owned_cyclicDirectory {n : ℕ} (hn : n ∈ [1, 2, 3]) :
    (cyclicDirectory (UInt32.ofNat n)).owned cyclicImage = [9 + n] := by
  rw [owned, blocks_cyclicDirectory hn]
  rfl

theorem nodeOk_cyclicImage {n : ℕ} (hn : n ∈ [1, 2, 3]) :
    Scan.NodeOk sampleSuperblock cyclicImage n (cyclicDirectory (UInt32.ofNat n)) := by
  have howned := owned_cyclicDirectory hn
  have hentries := entries_cyclicDirectory hn
  refine ⟨inodeAt_cyclicImage hn, ⟨?_, ?_, fun hc => absurd rfl hc, ?_⟩, ?_, ?_, fun _ => cyclicDirectory_isDir _,
    fun _ => (by decide : (4096 : UInt64).toNat % kBlockSize = 0), fun _ => ?_, fun _ => ?_, fun _ => ?_⟩
  · fin_cases hn <;> decide
  · fin_cases hn <;> decide
  · rw [howned, List.forall_mem_singleton]
    fin_cases hn <;> decide
  · rw [howned, List.forall_mem_singleton]
    fin_cases hn <;> exact (testBit_cyclicImage (by decide)).2.trans (by decide)
  · rw [howned]
    exact List.nodup_singleton _
  · rw [blocks_cyclicDirectory hn, List.forall_mem_singleton, block_cyclicImage hn]
    exact recordsDecode_oneEntryBlock (cyclicEntry_new n)
  · rw [hentries]
    exact List.nodup_singleton _
  · rw [hentries, List.forall_mem_singleton, inodes_cyclicImage]
    fin_cases hn <;> decide

theorem contains_cyclicImage {n : ℕ} (hn : n ∈ [1, 2, 3]) :
    sampleSuperblock.Contains cyclicImage n (cyclicEntry n).inode.toNat := by
  refine ⟨inodes_cyclicImage ▸ hn, { cyclicEntry n with recordLength := UInt16.ofNat kBlockSize }, ?_, rfl⟩
  rw [(nodeOk_cyclicImage hn).entriesOf, if_pos (cyclicDirectory_isDir _), entries_cyclicDirectory hn]
  exact List.mem_singleton_self _

/-- The scan itself finds nothing wrong. -/
theorem complete_cyclicImage : Scan.Complete sampleSuperblock cyclicImage (scanReport sampleSuperblock)
    (imageScan sampleSuperblock cyclicImage) := by
  have howned : ∀ n ∈ [1, 2, 3], sampleSuperblock.ownedBy cyclicImage n = [9 + n] := fun n hn => by
    rw [ownedBy, inodeAt_cyclicImage hn, Option.map_some, owned_cyclicDirectory hn, Option.getD_some]
  refine complete_of_nodes bitmapsOk_cyclicImage ?_ ?_ ?_
  · rw [inodes_cyclicImage]
    decide
  · rw [inodes_cyclicImage]
    exact fun n hn => ⟨_, nodeOk_cyclicImage hn⟩
  · rw [references, inodes_cyclicImage, List.flatMap_congr howned]
    decide

/-- The report on the damaged image names a cycle, and directory 3 can be reached. -/
theorem checkImage_graph_exact_cyclicImage : ∃ report, checkImage 16 cyclicImage = .ok report ∧
    (∃ i ∈ report.issues, i.code = .kDirectoryCycle) ∧ 3 ∈ report.rootReachableInodeNumbers := by
  have hcheck := checkImage_of_clean cyclicImage_opens rfl
  obtain ⟨hcycle, hreach⟩ := checkImage_graph_exact cyclicImage_opens rfl hcheck
  rw [checkClean_eq] at hcheck hcycle hreach
  have hg := Scan.imageScan_graphed sampleSuperblock cyclicImage
  have hdir := fun n (hn : n ∈ [1, 2, 3]) => (Scan.finish_isDirectory_iff cyclicImage hg).mpr
    (complete_cyclicImage.isDirectory_of_contains (contains_cyclicImage hn))
  have hentry := fun n (hn : n ∈ [1, 2, 3]) => (Scan.finish_entry_iff cyclicImage hg).mpr
    (complete_cyclicImage.edge_iff.mpr (contains_cyclicImage hn))
  generalize Scan.finish sampleSuperblock cyclicImage _ = report at hcheck hcycle hreach hdir hentry
  have h2 := hdir 2 (by decide)
  have h3 := hdir 3 (by decide)
  refine ⟨report, hcheck, hcycle.mpr ⟨2, ?_⟩, (hreach 3).mpr ?_⟩
  · exact .tail (.single ⟨h2, hentry 2 (by decide), h3⟩) ⟨h3, hentry 3 (by decide), h2⟩
  · exact .tail (.tail .refl (hentry 1 (by decide))) (hentry 2 (by decide))

end Eufs
