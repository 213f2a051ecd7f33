import Eufs.Checker.LedgerPhase
import Eufs.Storage.Formatted

/-!
# Eufs.Checker.Decides — the check decides consistency

For an image with an empty journal the verdict is healthy exactly when the metadata agree (`checkClean_healthy_iff`).
Both directions go through the tables of a clean scan: they hold the tree of the image, so the findings of the later
phases are the clauses of `Superblock.Consistent`.
-/

namespace Eufs

open Superblock Std.ExtTreeMap Function Search

/-! ## Reserved bits -/

theorem summarizeClearBits_eq_none {bm : Bitmap} {first stop : ℕ} :
    summarizeClearBits bm first stop = none ↔ ∀ k < stop, first ≤ k → bm.testBit k := by
  unfold summarizeClearBits
  split
  · next h =>
    simp only [List.filter_eq_nil_iff, List.mem_range, Bool.and_eq_true, decide_eq_true_eq, Bool.not_eq_true',
      not_and, Bool.not_eq_false] at h
    simpa using h
  · next k rest h =>
    have hk : k ∈ (List.range stop).filter fun k => decide (first ≤ k) && !bm.testBit k := by
      rw [h]
      exact List.mem_cons_self
    simp only [List.mem_filter, List.mem_range, Bool.and_eq_true, decide_eq_true_eq, Bool.not_eq_true'] at hk
    simp only [reduceCtorEq, false_iff, not_forall]
    exact ⟨k, hk.1, hk.2.1, by simp [hk.2.2]⟩

/-- The reserved bits and the one of the root are set. -/
structure BitmapsOk (sb : Superblock) (d : Image) : Prop extends sb.Reserved d where
  root : sb.inodeBit d sb.rootInode.toNat = true

theorem checkBitmapGeometry_spec (sb : Superblock) (d : Image) (r : ConsistencyReport) :
    ∃ issues, checkBitmapGeometry sb d r =
      { r with bitmapGeometryScanComplete := true, issues := r.issues ++ issues } ∧
      (r.issues = [] → (issues = [] ↔ BitmapsOk sb d)) := by
  have hadd : ∀ (r : ConsistencyReport) (code : IssueCode) (block : ℕ → ℕ) (summary : Option (ℕ × ℕ))
    (detail : String),
      ∃ issues, addBitmapIssue r code block summary detail = { r with issues := r.issues ++ issues } ∧
        (issues = [] ↔ summary = none) := by
    intro r code block summary detail
    cases summary with
    | none => exact ⟨[], by simp [addBitmapIssue], by simp⟩
    | some x => exact ⟨_, rfl, by simp⟩
  obtain ⟨i1, h1, q1⟩ := hadd r .kMetadataBlockMarkedFree id
    (summarizeClearBits (loadBitmap d sb.blockBitmap.start) 0 sb.data.start)
    "block bitmap 的 metadata 保留区存在未置位的块"
  obtain ⟨i2, h2, q2⟩ := hadd { r with issues := r.issues ++ i1 } .kInodeBitmapTailNotReserved (fun _ => 0)
    (summarizeClearBits (loadBitmap d sb.inodeBitmap.start) sb.totalInodes.toNat
      (sb.inodeBitmap.count * kBlockSize * 8)) "inode bitmap 超出 total_inodes 的尾部位未保留"
  obtain ⟨i3, h3, q3⟩ := hadd { r with issues := r.issues ++ i1 ++ i2 } .kBlockBitmapTailNotReserved (fun _ => 0)
    (summarizeClearBits (loadBitmap d sb.blockBitmap.start) sb.totalBlocks.toNat
      (sb.blockBitmap.count * kBlockSize * 8)) "block bitmap 超出 total_blocks 的尾部位未保留"
  unfold checkBitmapGeometry reportBitmaps
  dsimp only
  rw [h1, h2, h3]
  rw [summarizeClearBits_eq_none] at q1 q2 q3
  by_cases hroot : sb.inodeBit d sb.rootInode.toNat = true
  · rw [if_pos hroot]
    refine ⟨i1 ++ i2 ++ i3, by simp, fun _ => ?_⟩
    rw [List.append_eq_nil_iff, List.append_eq_nil_iff, q1, q2, q3]
    constructor
    · rintro ⟨⟨c1, c2⟩, c3⟩
      exact ⟨⟨fun b hb => c1 b hb (Nat.zero_le b), c2, c3⟩, hroot⟩
    · intro h
      exact ⟨⟨fun b hb _ => h.metadata b hb, h.inodeTail⟩, h.blockTail⟩
  · rw [if_neg hroot]
    refine ⟨_, by simp [ConsistencyReport.addIssue]; rfl, fun _ => ⟨fun hc => ?_, fun h => absurd h.root hroot⟩⟩
    simp at hc

/-! ## Entries with their parents -/

namespace Superblock

variable (sb : Superblock) (d : Image)

/-- All entries, each with its directory. -/
def placedEntries : List (ℕ × DirectoryEntry) :=
  (sb.inodes d).flatMap fun n => (sb.entriesOf d n).map fun e => (n, e)

variable {sb d} {n c : ℕ}

theorem map_placedEntries : (sb.placedEntries d).map Prod.snd = sb.allEntries d := by
  simp [placedEntries, allEntries, List.map_flatMap, comp_def]

theorem mem_placedEntries {e : DirectoryEntry} :
    (n, e) ∈ sb.placedEntries d ↔ n ∈ sb.inodes d ∧ e ∈ sb.entriesOf d n := by
  simp only [placedEntries, List.mem_flatMap, List.mem_map, Prod.mk.injEq]
  constructor
  · rintro ⟨m, hm, e', he, rfl, rfl⟩
    exact ⟨hm, he⟩
  · rintro ⟨hn, he⟩
    exact ⟨n, hn, e, he, rfl, rfl⟩

theorem contains_iff {a b : ℕ} : sb.Contains d a b ↔
    ∃ e, (a, e) ∈ sb.placedEntries d ∧ e.inode.toNat = b := by
  simp only [Contains, mem_placedEntries]
  constructor
  · rintro ⟨ha, e, he, hb⟩
    exact ⟨e, ⟨ha, he⟩, hb⟩
  · rintro ⟨e, ⟨ha, he⟩, hb⟩
    exact ⟨ha, e, he, hb⟩

theorem entriesTo_eq : sb.entriesTo d c = (sb.placedEntries d).countP fun x => x.2.inode.toNat = c := by
  rw [entriesTo, ← map_placedEntries, List.countP_map]
  rfl

theorem placed_unique (h : sb.entriesTo d c = 1) {x y : ℕ × DirectoryEntry} (hx : x ∈ sb.placedEntries d)
    (hy : y ∈ sb.placedEntries d) (hxc : x.2.inode.toNat = c) (hyc : y.2.inode.toNat = c) : x = y := by
  rw [entriesTo_eq, List.countP_eq_length_filter, List.length_eq_one_iff] at h
  obtain ⟨a, ha⟩ := h
  have hmem : ∀ z ∈ sb.placedEntries d, z.2.inode.toNat = c → z = a := by
    intro z hz hzc
    have : z ∈ (sb.placedEntries d).filter fun x => x.2.inode.toNat = c :=
      List.mem_filter.mpr ⟨hz, by simpa using hzc⟩
    rw [ha] at this
    exact List.mem_singleton.mp this
  rw [hmem x hx hxc, hmem y hy hyc]

end Superblock

/-! ## The tables against the tree -/

namespace Scan

variable {sb : Superblock} {d : Image} {r : ConsistencyReport} {s : Scan} {n : ℕ}

/-- The scan has seen everything, and the root is allocated. -/
structure Complete (sb : Superblock) (d : Image) (r : ConsistencyReport) (s : Scan) : Prop where
  seen : Seen sb d r s (scanList sb d)
  root : sb.rootInode.toNat ∈ sb.inodes d

theorem scanList_perm (h : sb.rootInode.toNat ∈ sb.inodes d) : (scanList sb d).Perm (sb.inodes d) := by
  refine (List.perm_ext_iff_of_nodup (nodup_scanList sb d) (nodup_inodes sb d)).mpr fun n => ?_
  simp only [scanList, List.mem_cons, List.mem_filter, decide_eq_true_eq]
  constructor
  · rintro (rfl | ⟨hn, -⟩)
    exacts [h, hn]
  · intro hn
    by_cases hr : n = sb.rootInode.toNat
    exacts [.inl hr, .inr ⟨hn, by simpa using hr⟩]

namespace Complete

variable (h : Complete sb d r s)

include h

theorem mem : n ∈ scanList sb d ↔ n ∈ sb.inodes d := (scanList_perm h.root).mem_iff

theorem node (hn : n ∈ sb.inodes d) : ∃ v, NodeOk sb d n v := h.seen.ok n (h.mem.mpr hn)

theorem decoded : s.decodedInodes[n]? = if n ∈ sb.inodes d then sb.inodeAt d n else none := by
  rw [h.seen.decoded]
  exact if_congr h.mem rfl rfl

theorem isDecodedDirectory_iff : isDecodedDirectory s n = true ↔ n ∈ sb.inodes d ∧ sb.isDirectory d n = true := by
  unfold isDecodedDirectory isDirectory
  rw [h.decoded]
  by_cases hn : n ∈ sb.inodes d
  · rw [if_pos hn]
    cases sb.inodeAt d n <;> simp [hn]
  · simp [hn]

theorem placed_perm :
    (s.directoryEntryObservations.map fun o => (o.parentInodeNumber, o.entry)).Perm (sb.placedEntries d) := by
  rw [h.seen.observations]
  exact (scanList_perm h.root).flatMap_right _

theorem forall_observations {P : ℕ → DirectoryEntry → Prop} :
    (∀ o ∈ s.directoryEntryObservations, P o.parentInodeNumber o.entry) ↔
      ∀ x ∈ sb.placedEntries d, P x.1 x.2 := by
  rw [← List.forall_mem_map (f := fun o : DirectoryEntryObservation => (o.parentInodeNumber, o.entry))
    (P := fun x => P x.1 x.2)]
  exact forall_congr' fun x => imp_congr_left h.placed_perm.mem_iff

theorem target {x : ℕ × DirectoryEntry} (hx : x ∈ sb.placedEntries d) : x.2.inode.toNat ∈ sb.inodes d := by
  obtain ⟨hn, he⟩ := mem_placedEntries.mp hx
  obtain ⟨v, hv⟩ := h.node hn
  rw [hv.entriesOf] at he
  by_cases hdir : S_ISDIR v.mode
  · rw [if_pos hdir] at he
    exact hv.targets hdir x.2 he
  · rw [if_neg hdir] at he
    exact absurd he List.not_mem_nil

theorem observedDentryReferences_eq (n : ℕ) : observedDentryReferences s n = sb.entriesTo d n := by
  rw [entriesTo_eq, ← h.placed_perm.countP_eq, List.countP_map]
  rfl

theorem observedChildDirectories_eq (hn : n ∈ sb.inodes d) :
    observedChildDirectories s n = sb.childDirectories d n := by
  have hcount : observedChildDirectories s n = (sb.placedEntries d).countP fun x =>
      decide (x.1 = n) && sb.isDirectory d x.2.inode.toNat := by
    have h1 : observedChildDirectories s n =
        (s.directoryEntryObservations.map fun o => (o.parentInodeNumber, o.entry)).countP fun x =>
          decide (x.1 = n) && isDecodedDirectory s x.2.inode.toNat := by
      rw [List.countP_map]
      rfl
    rw [h1, h.placed_perm.countP_eq]
    refine List.countP_congr fun x hx => ?_
    rw [Bool.and_eq_true, Bool.and_eq_true, h.isDecodedDirectory_iff]
    simp [h.target hx]
  rw [hcount, placedEntries, List.countP_flatMap, childDirectories]
  have hother : ∀ m, m ≠ n → m ∈ sb.inodes d → ((List.countP fun x : ℕ × DirectoryEntry =>
      decide (x.1 = n) && sb.isDirectory d x.2.inode.toNat) ∘
        fun m => (sb.entriesOf d m).map fun e => (m, e)) m = 0 := by
    intro m hm _
    simp [List.countP_map, comp_def, hm]
  rw [List.sum_map_eq_nsmul_single n _ hother, List.count_eq_one_of_mem (nodup_inodes sb d) hn, one_smul]
  simp [List.countP_map, comp_def]

theorem edge_iff {a b : ℕ} : Search.Edge (edges s.report) a b ↔ sb.Contains d a b := by
  unfold Search.Edge edges Superblock.Contains
  rw [h.seen.edges]
  simp only [List.mem_map, List.mem_flatMap, h.mem, Prod.mk.injEq]
  constructor
  · rintro ⟨_, ⟨m, hm, e, he, rfl⟩, rfl, rfl⟩
    exact ⟨hm, e, he, rfl⟩
  · rintro ⟨ha, e, he, rfl⟩
    exact ⟨_, ⟨a, ha, e, he, rfl⟩, rfl, rfl⟩

theorem isDirectory_of_contains {a b : ℕ} (hab : sb.Contains d a b) : isDecodedDirectory s a = true := by
  obtain ⟨ha, e, he, -⟩ := hab
  obtain ⟨v, hv⟩ := h.node ha
  rw [hv.entriesOf] at he
  by_cases hdir : S_ISDIR v.mode
  · exact h.isDecodedDirectory_iff.mpr ⟨ha, by rw [hv.isDirectory]; simpa using hdir⟩
  · rw [if_neg hdir] at he
    exact absurd he List.not_mem_nil

theorem mem_rootReachable : n ∈ rootReachable sb s s.report ↔
    Relation.ReflTransGen (sb.Contains d) sb.rootInode.toNat n := by
  have hedge : Search.Edge ((edges s.report).filter fun e => isDecodedDirectory s e.1) = sb.Contains d := by
    funext a b
    refine propext ?_
    rw [← h.edge_iff, Search.Edge, Search.Edge, List.mem_filter]
    exact and_iff_left_of_imp fun hab => h.isDirectory_of_contains (h.edge_iff.mp hab)
  rw [rootReachable, mem_reach_singleton, hedge]

theorem allocated_of_reachable (hn : Relation.ReflTransGen (sb.Contains d) sb.rootInode.toNat n) :
    n ∈ sb.inodes d := by
  induction hn with
  | refl => exact h.root
  | tail _ hbc _ =>
    obtain ⟨e, he, rfl⟩ := contains_iff.mp hbc
    exact h.target he

theorem children_perm : (s.report.directoryEdges.map DirectoryEdge.childInodeNumber).Perm
    ((sb.placedEntries d).map fun x => x.2.inode.toNat) := by
  rw [h.seen.edges, placedEntries, List.map_flatMap, List.map_flatMap]
  simp only [List.map_map, comp_def]
  exact (scanList_perm h.root).flatMap_right _

theorem count_children (c : ℕ) :
    (s.report.directoryEdges.map DirectoryEdge.childInodeNumber).count c = sb.entriesTo d c := by
  rw [h.children_perm.count_eq, entriesTo_eq, List.count, List.countP_map]
  refine List.countP_congr fun x _ => ?_
  simp

end Complete

/-! ## Passing the phases -/

/-- The clauses of consistency without the ledger. -/
structure TreeOk (sb : Superblock) (d : Image) : Prop where
  nodes : ∀ n ∈ sb.inodes d, ∃ v, NodeOk sb d n v
  once : (sb.references d).Nodup
  referenced : ∀ b, sb.data.start ≤ b → b < sb.totalBlocks.toNat → sb.blockBit d b = true →
    b ∈ sb.references d
  types : ∀ x ∈ sb.placedEntries d, ∀ w, sb.inodeAt d x.2.inode.toNat = some w →
    isDirectoryType x.2.fileType w.mode
  root : sb.rootInode.toNat ∈ sb.inodes d
  rootTop : ∀ x ∈ sb.placedEntries d, x.2.inode ≠ sb.rootInode
  named : ∀ n ∈ sb.inodes d, n ≠ sb.rootInode.toNat →
    sb.entriesTo d n = 1 ∧ Relation.ReflTransGen (sb.Contains d) sb.rootInode.toNat n
  links : ∀ n ∈ sb.inodes d, ∀ v, sb.inodeAt d n = some v → v.linkCount.toNat =
    if S_ISREG v.mode then 1
    else if n = sb.rootInode.toNat then 2 + sb.childDirectories d n
    else 1 + sb.entriesTo d n + sb.childDirectories d n

theorem linkIssues_eq_nil {x : ℕ × InodeRecord} : linkIssues sb s true x = [] ↔
    (¬ S_ISDIR x.2.mode → S_ISREG x.2.mode → observedDentryReferences s x.1 ≤ 1) ∧
      (x.1 ≠ sb.rootInode.toNat ∨ S_ISDIR x.2.mode → x.2.linkCount.toNat = expectedLinkCount sb s x.1 x.2) := by
  unfold linkIssues
  rw [List.append_eq_nil_iff]
  refine and_congr ?_ ?_
  · split_ifs with h
    · simp only [false_iff, not_forall]
      exact ⟨h.1, h.2.1, by omega⟩
    · simp only [true_iff]
      intro h1 h2
      by_contra hc
      exact h ⟨h1, h2, by omega⟩
  · rw [Bool.true_and]
    split_ifs with h
    · simp only [Bool.and_eq_true, decide_eq_true_eq] at h
      simp only [false_iff, not_forall]
      exact ⟨h.1, h.2⟩
    · simp only [Bool.and_eq_true, decide_eq_true_eq, not_and, not_not] at h
      simpa using h

namespace Complete

section

variable (h : Complete sb d r s)

include h

theorem mem_decoded {x : ℕ × InodeRecord} :
    x ∈ s.decodedInodes.toList ↔ x.1 ∈ sb.inodes d ∧ sb.inodeAt d x.1 = some x.2 := by
  rw [mem_toList_iff_getElem?_eq_some, h.decoded]
  by_cases hn : x.1 ∈ sb.inodes d <;> simp [hn]

theorem treeOk (hp : Passed sb d s) : TreeOk sb d := by
  have hnamed : ∀ n ∈ sb.inodes d, n ≠ sb.rootInode.toNat →
      sb.entriesTo d n = 1 ∧ Relation.ReflTransGen (sb.Contains d) sb.rootInode.toNat n := by
    intro n hn hroot
    have hreach := h.mem_rootReachable.mp (hp.reachable n hn hroot)
    refine ⟨?_, hreach⟩
    have hpos : 1 ≤ sb.entriesTo d n := by
      rcases Relation.ReflTransGen.cases_tail_iff _ _ _ |>.mp hreach with heq | ⟨m, -, hmn⟩
      · exact absurd heq hroot
      · obtain ⟨e, he, hc⟩ := contains_iff.mp hmn
        rw [entriesTo_eq]
        exact List.countP_pos_iff.mpr ⟨_, he, by simpa using hc⟩
    obtain ⟨v, hv⟩ := h.node hn
    have hle : sb.entriesTo d n ≤ 1 := by
      by_cases hdir : S_ISDIR v.mode
      · have hd : isDecodedDirectory s n = true :=
          h.isDecodedDirectory_iff.mpr ⟨hn, by rw [hv.isDirectory]; simpa using hdir⟩
        have hone := List.nodup_iff_count_le_one.mp hp.hardLinks n
        rwa [List.count_filter hd, h.count_children] at hone
      · have hreg : S_ISREG v.mode :=
          ((decodeInode_valid (inodeAt_eq_some.mp hv.record)).1.mode).resolve_right hdir
        have hx := linkIssues_eq_nil.mp (hp.links (n, v) (h.mem_decoded.mpr ⟨hn, hv.record⟩))
        have := hx.1 hdir hreg
        rwa [h.observedDentryReferences_eq] at this
    omega
  refine ⟨fun n hn => h.node hn, ?_, ?_, ?_, h.root, ?_, hnamed, ?_⟩
  · exact ((scanList_perm h.root).flatMap_right _).nodup_iff.mp h.seen.once
  · intro b h1 h2 hb
    have hb' := List.filter_eq_nil_iff.mp hp.blocks b (List.mem_range.mpr h2)
    simp only [h1, hb, decide_true, Bool.and_self, Bool.true_and, Option.isNone_iff_eq_none,
      h.seen.first, not_not] at hb'
    exact ((scanList_perm h.root).flatMap_right _).mem_iff.mp hb'
  · have htypes := (h.forall_observations (P := fun _ e => ∀ v, s.decodedInodes[e.inode.toNat]? = some v →
      isDirectoryType e.fileType v.mode)).mp hp.types
    intro x hx w hw
    exact htypes x hx w (by rw [h.decoded, if_pos (h.target hx), hw])
  · exact (h.forall_observations (P := fun _ e => e.inode ≠ sb.rootInode)).mp hp.rootTop
  · intro n hn v hv
    obtain ⟨v', hok⟩ := h.node hn
    obtain rfl : v' = v := Option.some.inj (hok.record.symm.trans hv)
    have hx := linkIssues_eq_nil.mp (hp.links (n, v') (h.mem_decoded.mpr ⟨hn, hv⟩))
    have hmode := (decodeInode_valid (inodeAt_eq_some.mp hv)).1.mode
    by_cases hreg : S_ISREG v'.mode
    · have hdir : ¬ S_ISDIR v'.mode := not_isDir_of_isReg hreg
      have hroot : n ≠ sb.rootInode.toNat := fun hc => hdir (hok.root hc)
      have hl := hx.2 (.inl hroot)
      rw [expectedLinkCount, if_neg hdir, h.observedDentryReferences_eq, (hnamed n hn hroot).1] at hl
      rw [if_pos hreg]
      exact hl
    · have hdir : S_ISDIR v'.mode := hmode.resolve_left hreg
      have hl := hx.2 (.inr hdir)
      rw [expectedLinkCount, if_pos hdir, h.observedDentryReferences_eq, h.observedChildDirectories_eq hn] at hl
      rw [if_neg hreg]
      exact hl

theorem entriesTo_le_one (ht : TreeOk sb d) (c : ℕ) : sb.entriesTo d c ≤ 1 := by
  by_contra hc
  have hpos : 0 < (sb.placedEntries d).countP fun x => x.2.inode.toNat = c := by
    rw [← entriesTo_eq]
    omega
  obtain ⟨x, hx, hxc⟩ := List.countP_pos_iff.mp hpos
  have hxc : x.2.inode.toNat = c := by simpa using hxc
  have hroot : c ≠ sb.rootInode.toNat := fun hr => ht.rootTop x hx (UInt32.toNat_inj.mp (hxc.trans hr))
  have := (ht.named c (hxc ▸ h.target hx) hroot).1
  omega

theorem acyclic (ht : TreeOk sb d) (x : ℕ) : ¬ Relation.TransGen (Search.Edge (edges s.report)) x x := by
  have hedge : Search.Edge (edges s.report) = sb.Contains d := by
    funext a b
    exact propext h.edge_iff
  have hroot : ∀ a, ¬ Search.Edge (edges s.report) a sb.rootInode.toNat := by
    intro a ha
    obtain ⟨e, he, hc⟩ := contains_iff.mp (h.edge_iff.mp ha)
    exact ht.rootTop _ he (UInt32.toNat_inj.mp hc)
  refine acyclic_of_unique_parent hroot ?_ ?_ x
  · intro a b c ha hb
    obtain ⟨e, he, hec⟩ := contains_iff.mp (h.edge_iff.mp ha)
    obtain ⟨f, hf, hfc⟩ := contains_iff.mp (h.edge_iff.mp hb)
    have hne : c ≠ sb.rootInode.toNat := fun hc => ht.rootTop _ he (UInt32.toNat_inj.mp (hec.trans hc))
    have hmem : c ∈ sb.inodes d := hec ▸ h.target he
    exact congrArg Prod.fst (placed_unique (ht.named c hmem hne).1 he hf hec hfc)
  · intro a b hab
    rw [hedge]
    obtain ⟨e, he, hc⟩ := contains_iff.mp (h.edge_iff.mp hab)
    have hne : b ≠ sb.rootInode.toNat := fun hr => ht.rootTop _ he (UInt32.toNat_inj.mp (hc.trans hr))
    exact (ht.named b (hc ▸ h.target he) hne).2

theorem referencesComplete : Scan.referencesComplete s = true := by
  unfold Scan.referencesComplete
  rw [Bool.and_eq_true, Bool.and_eq_true, List.all_eq_true, List.all_eq_true]
  refine ⟨⟨h.seen.clean.inodes, fun x hx => ?_⟩, ?_⟩
  · have hget := mem_toList_iff_getElem?_eq_some.mp hx
    rw [h.seen.complete] at hget
    split_ifs at hget
    exact (Option.some.inj hget).symm
  · refine (h.forall_observations (P := fun _ e => (s.decodedInodes[e.inode.toNat]?).isSome)).mpr fun x hx => ?_
    obtain ⟨v, hv⟩ := h.node (h.target hx)
    rw [h.decoded, if_pos (h.target hx), hv.record]
    rfl

theorem rootReachabilityComplete : Scan.rootReachabilityComplete sb s s.report = true := by
  obtain ⟨v, hv⟩ := h.node h.root
  unfold Scan.rootReachabilityComplete decodedOnTheWay
  rw [Bool.and_eq_true, List.all_eq_true]
  refine ⟨h.isDecodedDirectory_iff.mpr ⟨h.root, by rw [hv.isDirectory]; simpa using hv.root rfl⟩,
    fun n hn => ?_⟩
  have hmem := h.allocated_of_reachable (h.mem_rootReachable.mp hn)
  obtain ⟨w, hw⟩ := h.node hmem
  rw [h.decoded, if_pos hmem, hw.record, h.seen.complete]
  by_cases hdir : S_ISDIR w.mode <;> simp [hdir, h.mem.mpr hmem, hw.isDirectory]

theorem passed (hb : r.bitmapGeometryScanComplete = true) (ht : TreeOk sb d) : Passed sb d s := by
  refine ⟨h.seen.clean, (Prod.mk.inj h.seen.settled).1.trans hb, ?_, ?_, h.referencesComplete, ?_, ?_, ?_, ?_, ?_,
    h.rootReachabilityComplete, ?_⟩
  · rw [h.seen.rootDecoded]
    simpa using h.mem.mpr h.root
  · refine List.filter_eq_nil_iff.mpr fun b hmem hbad => ?_
    simp only [Bool.and_eq_true, decide_eq_true_eq, Option.isNone_iff_eq_none, h.seen.first] at hbad
    refine hbad.2 (((scanList_perm h.root).flatMap_right _).mem_iff.mpr ?_)
    exact ht.referenced b hbad.1.1 (List.mem_range.mp hmem) hbad.1.2
  · exact (h.forall_observations (P := fun _ e => e.inode ≠ sb.rootInode)).mpr ht.rootTop
  · intro x hx
    obtain ⟨hn, hv⟩ := h.mem_decoded.mp hx
    have hl := ht.links x.1 hn x.2 hv
    refine linkIssues_eq_nil.mpr ⟨fun _ _ => ?_, fun hor => ?_⟩
    · rw [h.observedDentryReferences_eq]
      exact h.entriesTo_le_one ht x.1
    · rw [hl, expectedLinkCount, h.observedDentryReferences_eq, h.observedChildDirectories_eq hn]
      by_cases hreg : S_ISREG x.2.mode
      · have hdir := not_isDir_of_isReg hreg
        rw [if_pos hreg, if_neg hdir, (ht.named x.1 hn (hor.resolve_right hdir)).1]
      · have hdir := ((decodeInode_valid (inodeAt_eq_some.mp hv)).1.mode).resolve_left hreg
        rw [if_neg hreg, if_pos hdir]
  · refine (h.forall_observations (P := fun _ e => ∀ v, s.decodedInodes[e.inode.toNat]? = some v →
      isDirectoryType e.fileType v.mode)).mpr fun x hx v hv => ?_
    rw [h.decoded, if_pos (h.target hx)] at hv
    exact ht.types x hx v hv
  · exact exploreAll_of_acyclic (h.acyclic ht) _
  · refine List.nodup_iff_count_le_one.mpr fun c => ?_
    refine (List.Sublist.count_le c List.filter_sublist).trans ?_
    rw [h.count_children]
    exact h.entriesTo_le_one ht c
  · intro n hn hroot
    exact h.mem_rootReachable.mpr (ht.named n hn hroot).2

end

end Complete

/-! ## The verdict -/

/-- The mapping of the ledger's inode after a complete scan. -/
theorem Complete.ledgerMapped (h : Complete sb d r s) : LedgerMapped d s := by
  intro v hv
  rw [h.decoded] at hv
  split_ifs at hv with hmem
  refine ⟨(decodeInode_valid (inodeAt_eq_some.mp hv)).1.size, ?_⟩
  rw [h.seen.logical, if_pos (h.mem.mpr hmem), hv]
  rfl

/-- The ledger clause of consistency against the findings of the phase. -/
theorem Complete.ledgerOk_iff (h : Complete sb d r s) (ht : TreeOk sb d) :
    sb.LedgerOk d ↔ EntryOk sb s s.report.rootEntries ∧ ∃ v records, LedgerInodeOk sb d s v ∧
    SlotsOk d v records := by
  have hroots : s.report.rootEntries = sb.entriesOf d sb.rootInode.toNat := by
    rw [h.seen.rootEntries, if_pos (h.mem.mpr h.root)]
  constructor
  · intro hl
    obtain ⟨e, he, hino, hty⟩ := hl.entry
    have hmem : e ∈ sb.entriesOf d sb.rootInode.toNat := by
      have hm : e ∈ [e] := List.mem_singleton_self e
      rw [← he] at hm
      exact (List.mem_filter.mp hm).1
    have hplaced : (sb.rootInode.toNat, e) ∈ sb.placedEntries d := mem_placedEntries.mpr ⟨h.root, hmem⟩
    have halloc : kRequestLedgerInodeNumber ∈ sb.inodes d := hino ▸ h.target hplaced
    obtain ⟨v, hv⟩ := h.node halloc
    obtain ⟨hsize, hwhole⟩ := hl.size v hv.record
    obtain ⟨records, hrecords⟩ := hl.slots v hv.record
    have htype := ht.types _ hplaced v (hino ▸ hv.record)
    have hreg : S_ISREG v.mode := by simpa [isDirectoryType, hty] using htype
    have hlink := ht.links _ halloc v hv.record
    rw [if_pos hreg] at hlink
    obtain ⟨w, hw⟩ := h.node h.root
    refine ⟨⟨?_, ?_⟩, v, records, ⟨?_, (mem_inodes.mp halloc).2.2, hreg, UInt32.toNat_inj.mp hlink, hsize,
      hwhole⟩, (slotsOk_iff d hwhole).mpr hrecords⟩
    · rw [h.seen.complete, if_pos ⟨h.mem.mpr h.root, by rw [hw.isDirectory]; simpa using hw.root rfl⟩]
    · rw [hroots]
      exact ⟨e, he, hino, hty⟩
    · rw [h.decoded, if_pos halloc, hv.record]
  · rintro ⟨hentry, v, records, hinode, hs⟩
    have hv : sb.inodeAt d kRequestLedgerInodeNumber = some v := by
      have := hinode.decoded
      rw [h.decoded] at this
      split_ifs at this
      exact this
    refine ⟨hroots ▸ hentry.entry, fun w hw => ?_, fun w hw => ?_⟩
    · obtain rfl : v = w := Option.some.inj (hv.symm.trans hw)
      exact ⟨hinode.size, hinode.whole⟩
    · obtain rfl : v = w := Option.some.inj (hv.symm.trans hw)
      exact ⟨records, (slotsOk_iff d hinode.whole).mp hs⟩

end Scan

open Scan

variable {sb : Superblock} {d : Image}

theorem Superblock.consistent_iff : sb.Consistent d ↔ BitmapsOk sb d ∧ TreeOk sb d ∧
    (sb.HasLedger → sb.LedgerOk d) := by
  constructor
  · intro h
    have hnodes : ∀ n ∈ sb.inodes d, ∃ v, NodeOk sb d n v := by
      intro n hn
      obtain ⟨v, hv, hm⟩ := h.inode n hn
      have howned : sb.ownedBy d n = v.owned d := by rw [ownedBy, hv]; rfl
      have hsub : ∀ b ∈ v.owned d, b ∈ sb.references d := fun b hb =>
        List.mem_flatMap.mpr ⟨n, hn, howned ▸ hb⟩
      have hdir := h.directory n hn v hv
      refine ⟨v, hv, hm, fun b hb => ?_, ?_, fun hroot => ?_, fun hd => (hdir hd).size, fun hd => (hdir hd).decodes,
        fun hd => (hdir hd).names, fun hd e he => ((hdir hd).targets e he).1⟩
      · obtain ⟨h1, h2⟩ := hm.inData b hb
        exact (h.referenced b h1 h2).mpr (hsub b hb)
      · rw [← howned]
        exact (List.nodup_flatMap.mp h.once).1 n hn
      · have := h.root.2
        rw [← hroot, isDirectory, hv] at this
        simpa using this
    have hplaced : ∀ x ∈ sb.placedEntries d, ∃ v, sb.inodeAt d x.1 = some v ∧ S_ISDIR v.mode ∧
      x.1 ∈ sb.inodes d ∧
        x.2 ∈ v.entries d := by
      intro x hx
      obtain ⟨hn, he⟩ := mem_placedEntries.mp hx
      obtain ⟨v, hv⟩ := hnodes x.1 hn
      rw [hv.entriesOf] at he
      by_cases hd : S_ISDIR v.mode
      · rw [if_pos hd] at he
        exact ⟨v, hv.record, hd, hn, he⟩
      · rw [if_neg hd] at he
        exact absurd he List.not_mem_nil
    refine ⟨⟨h.toReserved, (mem_inodes.mp h.root.1).2.2⟩,
      ⟨hnodes, h.once, fun b h1 h2 hb => (h.referenced b h1 h2).mp hb, fun x hx w hw => ?_, h.root.1, fun x hx => ?_,
        h.named, h.links⟩, h.ledger⟩
    · obtain ⟨v, hv, hd, hn, he⟩ := hplaced x hx
      obtain ⟨-, w', hw', hty⟩ := (h.directory x.1 hn v hv hd).targets x.2 he
      rwa [Option.some.inj (hw'.symm.trans hw)] at hty
    · refine h.rootTop x.2 ?_
      rw [← map_placedEntries]
      exact List.mem_map_of_mem hx
  · rintro ⟨hb, ht, hl⟩
    have hroot : sb.isDirectory d sb.rootInode.toNat = true := by
      obtain ⟨v, hv⟩ := ht.nodes _ ht.root
      rw [hv.isDirectory]
      simpa using hv.root rfl
    refine ⟨⟨hb.toReserved, fun n hn => ?_, fun b h1 h2 => ⟨ht.referenced b h1 h2, fun hm => ?_⟩,
      ht.once, fun n hn v hv hd => ?_, ⟨ht.root, hroot⟩, fun e he => ?_, ht.named, ht.links⟩, hl⟩
    · obtain ⟨v, hv⟩ := ht.nodes n hn
      exact ⟨v, hv.record, hv.mapped⟩
    · obtain ⟨n, hn, hmem⟩ := List.mem_flatMap.mp hm
      obtain ⟨v, hv⟩ := ht.nodes n hn
      rw [hv.ownedBy] at hmem
      exact hv.allocated b hmem
    · obtain ⟨v', hok⟩ := ht.nodes n hn
      obtain rfl : v' = v := Option.some.inj (hok.record.symm.trans hv)
      refine ⟨hok.size hd, hok.decodes hd, hok.names hd, fun e he => ?_⟩
      have hmem := hok.targets hd e he
      obtain ⟨w, hw⟩ := ht.nodes _ hmem
      refine ⟨hmem, w, hw.record, ht.types (n, e) ?_ w hw.record⟩
      rw [mem_placedEntries, hok.entriesOf, if_pos hd]
      exact ⟨hn, he⟩
    · rw [← map_placedEntries] at he
      obtain ⟨x, hx, rfl⟩ := List.mem_map.mp he
      exact ht.rootTop x hx

/-- The tables of the scan of a whole image. -/
def imageScan (sb : Superblock) (d : Image) : Scan :=
  scanQueue sb d (start sb d (checkBitmapGeometry sb d (initialReport sb)))

theorem checkClean_eq (sb : Superblock) (d : Image) :
    checkClean sb d (initialReport sb) = finish sb d (imageScan sb d) := rfl

/-- The report a scan starts with when the bitmaps are in order. -/
def scanReport (sb : Superblock) : ConsistencyReport := { initialReport sb with bitmapGeometryScanComplete := true }

theorem checkBitmapGeometry_of_ok (h : BitmapsOk sb d) :
    checkBitmapGeometry sb d (initialReport sb) = scanReport sb := by
  obtain ⟨issues, heq, hq⟩ := checkBitmapGeometry_spec sb d (initialReport sb)
  rw [heq, (hq rfl).mpr h]
  rfl

theorem mem_inodes_root (hr : sb.Regions) (h : BitmapsOk sb d) : sb.rootInode.toNat ∈ sb.inodes d :=
  mem_inodes.mpr ⟨hr.root.1, hr.root.2, h.root⟩

/-- With the bitmaps in order the scan starts with nothing seen. -/
theorem imageScan_start (sb : Superblock) (d : Image) : Seen sb d (scanReport sb) (start sb d (scanReport sb)) [] ∧
    (start sb d (scanReport sb)).physicalScanQueue = scanList sb d ∧
    ∀ m, m ∈ (start sb d (scanReport sb)).attemptedInodes ↔ m ∈ ([] : List ℕ) := by
  refine ⟨start_seen sb d rfl rfl rfl rfl, ?_, fun m => ?_⟩
  · rw [start_eq]
  · simp [start_eq, blank]

theorem complete_of_clean (hr : sb.Regions) (h : (imageScan sb d).Clean) :
    BitmapsOk sb d ∧ Complete sb d (scanReport sb) (imageScan sb d) := by
  have hb : BitmapsOk sb d := by
    obtain ⟨issues, heq, hq⟩ := checkBitmapGeometry_spec sb d (initialReport sb)
    have hstart := (clean_of_scanQueue sb d h).issues
    rw [start_eq, heq] at hstart
    exact (hq rfl).mp (by simpa [initialReport, blank] using hstart)
  obtain ⟨hseen, hqueue, hatt⟩ := imageScan_start sb d
  unfold imageScan at h ⊢
  rw [checkBitmapGeometry_of_ok hb] at h ⊢
  have hnodup : ([] ++ scanList sb d).Nodup := nodup_scanList sb d
  exact ⟨hb, hseen.scanQueue hqueue hatt hnodup (hseen.queueOk hqueue hatt hnodup h), mem_inodes_root hr hb⟩

theorem complete_of_nodes (hb : BitmapsOk sb d) (hroot : sb.rootInode.toNat ∈ sb.inodes d)
    (hnodes : ∀ n ∈ sb.inodes d, ∃ v, NodeOk sb d n v) (honce : (sb.references d).Nodup) :
    Complete sb d (scanReport sb) (imageScan sb d) := by
  obtain ⟨hseen, hqueue, hatt⟩ := imageScan_start sb d
  have hperm := scanList_perm hroot
  unfold imageScan
  rw [checkBitmapGeometry_of_ok hb]
  refine ⟨hseen.scanQueue hqueue hatt (nodup_scanList sb d)
    ⟨fun n hn => hnodes n (hperm.mem_iff.mp hn), ?_⟩, hroot⟩
  exact (hperm.flatMap_right _).nodup_iff.mpr honce

theorem complete_of_treeOk (hb : BitmapsOk sb d) (ht : TreeOk sb d) :
    Complete sb d (scanReport sb) (imageScan sb d) := complete_of_nodes hb ht.root ht.nodes ht.once

theorem classify_finish {s : Scan} : classifyReport (finish sb d s) = .kHealthy ↔
    PassedEvidence (checkLedger sb d s (beforeLedger sb d s)) ∧
      (checkLedger sb d s (beforeLedger sb d s)).requestLedgerScanComplete = true ∧
      (checkLedger sb d s (beforeLedger sb d s)).issues = [] := by
  rw [classifyReport_eq_healthy]
  have hfields : isEvidenceComplete (finish sb d s) = isEvidenceComplete (checkLedger sb d s (beforeLedger sb d s)) ∧
      (finish sb d s).issues = (checkLedger sb d s (beforeLedger sb d s)).issues := ⟨rfl, rfl⟩
  rw [hfields.1, hfields.2, isEvidenceComplete, PassedEvidence]
  simp only [Bool.and_eq_true, decide_eq_true_eq]
  tauto

/-- The report says about the ledger what the last phase found. -/
theorem finish_ledger (s : Scan) :
    (finish sb d s).requestLedgerCapacity = (checkLedger sb d s (beforeLedger sb d s)).requestLedgerCapacity ∧
    (finish sb d s).requestLedgerValidRecords =
      (checkLedger sb d s (beforeLedger sb d s)).requestLedgerValidRecords := ⟨rfl, rfl⟩

/-- The last phase changes the evidence of the others only by making it partial. -/
theorem passedEvidence_checkLedger (s : Scan) (r : ConsistencyReport) : PassedEvidence (checkLedger sb d s r) ↔
    (checkLedger sb d s r).status = .kComplete ∧ PassedEvidence r := by
  unfold checkLedger
  split_ifs
  · have hev := (otherEvidence_checkLedgerInode sb d s (checkLedgerEntry sb s { report := r })).trans
      (otherEvidence_checkLedgerEntry sb s { report := r })
    simp only [otherEvidence, Prod.mk.injEq] at hev
    obtain ⟨e1, e2, e3, e4, e5, e6⟩ := hev
    unfold PassedEvidence
    dsimp only
    rw [e1, e2, e3, e4, e5, e6]
    split_ifs <;> simp
  · exact ⟨fun h => ⟨h.1, h⟩, fun h => h.2⟩

theorem Scan.Complete.settled {s : Scan} (h : Complete sb d (scanReport sb) s) :
    (beforeLedger sb d s).requestLedgerFeatureEnabled = (initialReport sb).requestLedgerFeatureEnabled ∧
      (beforeLedger sb d s).requestLedgerScanComplete = (initialReport sb).requestLedgerScanComplete ∧
      (beforeLedger sb d s).requestLedgerSlotsScanned = 0 ∧ (beforeLedger sb d s).requestLedgerValidRecords = 0 := by
  have hs := (beforeLedger_spec sb d s).1.settled.trans h.seen.settled
  simp only [Scan.settled, Prod.mk.injEq] at hs
  exact ⟨hs.2.1, hs.2.2.1, hs.2.2.2.2.1, hs.2.2.2.2.2⟩

theorem Scan.Complete.checkLedger_eq {s : Scan} (h : Complete sb d (scanReport sb) s) (ht : TreeOk sb d)
    (hf : sb.HasLedger) (hl : sb.LedgerOk d) : ∃ v records,
    sb.inodeAt d kRequestLedgerInodeNumber = some v ∧ SlotsOk d v records ∧
    (checkLedger sb d s (beforeLedger sb d s)).issues = (beforeLedger sb d s).issues ∧
    (checkLedger sb d s (beforeLedger sb d s)).requestLedgerScanComplete = true ∧
    (checkLedger sb d s (beforeLedger sb d s)).status = (beforeLedger sb d s).status ∧
    (checkLedger sb d s (beforeLedger sb d s)).requestLedgerCapacity = v.size.toNat / kRequestLedgerRecordSize ∧
    (checkLedger sb d s (beforeLedger sb d s)).requestLedgerValidRecords = records.length := by
  obtain ⟨he, v, records, hi, hs⟩ := (h.ledgerOk_iff ht).mp hl
  obtain ⟨henabled, -, hcount, hvalid⟩ := h.settled
  have hv : sb.inodeAt d kRequestLedgerInodeNumber = some v := by
    have := hi.decoded
    rw [h.decoded] at this
    split_ifs at this
    exact this
  obtain ⟨h1, h2, h3, h4, h5⟩ := checkLedger_of_ok sb d (henabled.trans (by simpa [initialReport] using hf)) hcount
    h.ledgerMapped ((beforeLedger_spec sb d s).1.rootEntries ▸ he) hi hs
  exact ⟨v, records, hv, hs, h1, h2, h3, h4, by rw [h5, hvalid, Nat.zero_add]⟩

theorem checkClean_healthy_iff (hr : sb.Regions) :
    classifyReport (checkClean sb d (initialReport sb)) = .kHealthy ↔ sb.Consistent d := by
  rw [checkClean_eq, classify_finish, consistent_iff]
  have hspec := beforeLedger_spec sb d (imageScan sb d)
  constructor
  · rintro ⟨hev, hcomplete, hissues⟩
    have hp := hspec.2.mp ⟨((passedEvidence_checkLedger _ _).mp hev).2, quiet_of_checkLedger sb d hissues⟩
    obtain ⟨hb, hc⟩ := complete_of_clean hr hp.clean
    refine ⟨hb, hc.treeOk hp, fun hf => (hc.ledgerOk_iff (hc.treeOk hp)).mpr ?_⟩
    have henabled : (beforeLedger sb d (imageScan sb d)).requestLedgerFeatureEnabled = true :=
      hc.settled.1.trans (by simpa [initialReport] using hf)
    obtain ⟨he, hrest⟩ := of_checkLedger sb d henabled hc.ledgerMapped hissues
    exact ⟨hspec.1.rootEntries ▸ he, hrest⟩
  · rintro ⟨hb, ht, hl⟩
    have hc := complete_of_treeOk hb ht
    obtain ⟨hev, hissues⟩ := hspec.2.mpr (hc.passed rfl ht)
    obtain ⟨henabled, hscan, -, -⟩ := hc.settled
    by_cases hf : sb.HasLedger
    · obtain ⟨v, records, -, -, h1, h2, h3, -, -⟩ := hc.checkLedger_eq ht hf (hl hf)
      exact ⟨(passedEvidence_checkLedger _ _).mpr ⟨h3.trans hev.1, hev⟩, h2, h1.trans hissues⟩
    · have hoff : checkLedger sb d (imageScan sb d) (beforeLedger sb d (imageScan sb d)) =
          beforeLedger sb d (imageScan sb d) := by
        unfold checkLedger
        rw [if_neg (by rw [henabled]; simpa [initialReport] using hf)]
      rw [hoff]
      exact ⟨hev, hscan.trans (by simpa [initialReport] using hf), hissues⟩

/-! ## Whole images -/

theorem openForCheck_eq_ok {n : ℕ} {used : Bool} : openForCheck n d = .ok (sb, used) ↔
    ∃ c copy, Opens n d sb c copy ∧ (used = true ↔ c.usedBlocks ≠ 0) := by
  constructor
  · intro h
    simp only [openForCheck, reject_bind_eq_ok] at h
    obtain ⟨-, h⟩ := h
    obtain ⟨sb', hsb, h⟩ := bind_eq_ok.mp h
    simp only [reject_bind_eq_ok, not_not, ne_eq] at h
    obtain ⟨hf, hsize, h⟩ := h
    obtain ⟨⟨c, copy⟩, hsel, h⟩ := bind_eq_ok.mp h
    obtain ⟨rfl, rfl⟩ := Prod.mk.inj (Except.ok.inj h)
    exact ⟨c, copy, ⟨orFail_eq_ok.mp hsb, hf, hsize.symm, orFail_eq_ok.mp hsel⟩, by simp⟩
  · rintro ⟨c, copy, h, hused⟩
    have hn : n ≠ 0 := by
      have := h.regions.total
      have := h.size
      omega
    unfold openForCheck
    simp only [hn, reject_false, ok_bind, orFail_eq_ok.mpr h.superblock, h.features, ne_eq, not_true_eq_false,
      h.size.symm, orFail_eq_ok.mpr h.selected]
    refine congrArg (fun b => Except.ok (sb, b)) ?_
    rw [Bool.eq_iff_iff, hused, decide_eq_true_eq]

/-- The report on an image that opens with an empty journal. -/
theorem checkImage_of_clean {n : ℕ} {c : JournalControl} {copy : ControlCopy} (h : Opens n d sb c copy)
    (hc : c.usedBlocks = 0) : checkImage n d = .ok (checkClean sb d (initialReport sb)) := by
  rw [checkImage, openForCheck_eq_ok.mpr ⟨c, copy, h, (by simp [hc] : false = true ↔ _)⟩]
  rfl

/-- An image is called healthy only when it opens with an empty journal and its metadata agree. -/
theorem consistent_of_healthy {n : ℕ} {report : ConsistencyReport} (h : checkImage n d = .ok report)
    (hh : classifyReport report = .kHealthy) :
    ∃ sb c copy, Opens n d sb c copy ∧ c.usedBlocks = 0 ∧ sb.Consistent d ∧
      report = checkClean sb d (initialReport sb) := by
  obtain ⟨⟨sb, used⟩, ho, h⟩ := bind_eq_ok.mp h
  obtain ⟨c, copy, hopen, hused⟩ := openForCheck_eq_ok.mp ho
  obtain rfl := Except.ok.inj h
  cases used with
  | true => exact absurd (classifyReport_eq_healthy.mp hh).2 (by simp [recoveryRequired, ConsistencyReport.addIssue])
  | false => exact ⟨sb, c, copy, hopen, by simpa using hused, (checkClean_healthy_iff hopen.regions).mp hh, rfl⟩

/-- The checker finds nothing wrong with `d`. -/
def Healthy (n : ℕ) (d : Image) : Prop :=
  ∃ report, checkImage n d = .ok report ∧ classifyReport report = .kHealthy

theorem healthy_iff {n : ℕ} {c : JournalControl} {copy : ControlCopy} (ho : Opens n d sb c copy)
    (hu : c.usedBlocks = 0) : Healthy n d ↔ sb.Consistent d := by
  rw [Healthy, checkImage_of_clean ho hu, ← checkClean_healthy_iff ho.regions]
  constructor
  · rintro ⟨report, hreport, hhealthy⟩
    rwa [Except.ok.inj hreport]
  · exact fun h => ⟨_, rfl, h⟩

end Eufs
