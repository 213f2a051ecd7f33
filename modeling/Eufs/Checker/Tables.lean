import Eufs.Checker.Walk

/-!
# Eufs.Checker.Tables — the tree in the tables

`Seen` relates the tables of a clean scan to the tree of the image: after the inodes of a list were scanned the tables
hold exactly their records, entries and blocks.  A scan that ends clean has seen the root and every allocated inode,
and each of them was well formed (`Seen.queueOk`).
-/

namespace Eufs

open Std.ExtTreeMap Function InodeRecord

variable {s : Scan} {rest done : List ℕ} {r : ConsistencyReport}

namespace Scan

variable (sb : Superblock) (d : Image)

/-- What the physical scan leaves to other phases. -/
def settled (r : ConsistencyReport) : Bool × Bool × Bool × ℕ × ℕ × ℕ :=
  (r.bitmapGeometryScanComplete, r.requestLedgerFeatureEnabled, r.requestLedgerScanComplete, r.requestLedgerCapacity,
    r.requestLedgerSlotsScanned, r.requestLedgerValidRecords)

/-- The tables after inode `n` with record `v` was entered. -/
structure Noted (s t : Scan) (n : ℕ) (v : InodeRecord) : Prop where
  clean : s.Clean → t.Clean
  settled : settled t.report = settled s.report
  physical : t.physicalScan = s.physicalScan
  queue : t.physicalScanQueue = s.physicalScanQueue
  attempted : t.attemptedInodes = s.attemptedInodes
  decoded : t.decodedInodes = s.decodedInodes.insert n v
  complete : t.directoryScanComplete =
    if S_ISDIR v.mode then s.directoryScanComplete.insert n true else s.directoryScanComplete
  names : ∀ m, m ≠ n → t.directoryActiveNames m = s.directoryActiveNames m
  first : ∀ b, t.firstBlockReferences b = none ↔ s.firstBlockReferences b = none ∧ b ∉ v.owned d
  logical : t.inodeLogicalBlocks = emplace s.inodeLogicalBlocks n ((v.blocks d).map some)
  edges : t.report.directoryEdges = s.report.directoryEdges ++
    (if S_ISDIR v.mode then v.entries d else []).map fun e => ⟨n, e.inode.toNat⟩
  observations : (t.directoryEntryObservations.map fun o => (o.parentInodeNumber, o.entry)) =
    (s.directoryEntryObservations.map fun o => (o.parentInodeNumber, o.entry)) ++
      (if S_ISDIR v.mode then v.entries d else []).map fun e => (n, e)
  rootEntries : t.report.rootEntries = s.report.rootEntries ++
    if n = sb.rootInode.toNat then if S_ISDIR v.mode then v.entries d else [] else []
  rootDecoded : t.report.rootInodeDecoded = (decide (n = sb.rootInode.toNat) || s.report.rootInodeDecoded)

variable {n : ℕ} {v : InodeRecord}

theorem map_located_entry {α : Type} (f : DirectoryEntry → α) :
    ((located d (v.blocks d)).map fun x => f x.2) = (v.entries d).map f := by
  rw [entries, ← map_located, List.map_map]
  rfl

theorem noteAll_noted (s : Scan) (hok : NodeOk sb d n v) : Noted sb d s (noteAll sb d n v s) n v := by
  have hdec : decodeInode (inodeSlot sb d n) n = .ok v := Superblock.inodeAt_eq_some.mp hok.record
  have hv := (decodeInode_valid hdec).1.requiredBlocks_le
  have hperm := inodeReferences_perm d (n := n) hv hok.mapped.indirect
  have hfirst : ∀ b, ((noteInode sb d n v s).addReferences (inodeReferences d n v)).firstBlockReferences b = none ↔
      s.firstBlockReferences b = none ∧ b ∉ v.owned d := by
    intro b
    rw [firstBlockReferences_addReferences, hperm.mem_iff]
    rfl
  unfold noteAll
  rw [addReferences_eq]
  generalize hg : ((noteInode sb d n v s).addReferences (inodeReferences d n v)).firstBlockReferences = g at hfirst ⊢
  by_cases hdir : S_ISDIR v.mode
  · rw [if_pos hdir]
    refine ⟨fun h => h.congr rfl rfl rfl rfl, rfl, rfl, rfl, rfl, rfl, ?_, fun m hm => ?_, hfirst, rfl,
      ?_, ?_, ?_, rfl⟩
    · rw [if_pos hdir]
      rfl
    · exact update_of_ne hm _ _
    · rw [if_pos hdir, ← map_located_entry]
      rfl
    · rw [if_pos hdir, ← map_located_entry]
      simp [addEntries, setComplete, setLogical, noteInode, comp_def]
    · rw [if_pos hdir, entries, ← map_located]
      rfl
  · rw [if_neg hdir]
    refine ⟨fun h => h.congr rfl rfl rfl rfl, rfl, rfl, rfl, rfl, rfl, ?_, fun m hm => rfl, hfirst, rfl,
      ?_, ?_, ?_, rfl⟩
    · rw [if_neg hdir]
      rfl
    · rw [if_neg hdir, List.map_nil, List.append_nil]
      rfl
    · rw [if_neg hdir, List.map_nil, List.append_nil]
      rfl
    · rw [if_neg hdir, ite_self, List.append_nil]
      rfl

/-! ## What was seen -/

/-- The tables hold the inodes of `done`, all of them well formed. -/
structure Seen (r : ConsistencyReport) (s : Scan) (done : List ℕ) : Prop where
  clean : s.Clean
  settled : settled s.report = Scan.settled r
  covers : Covers sb d s
  ok : ∀ n ∈ done, ∃ v, NodeOk sb d n v
  once : (done.flatMap (sb.ownedBy d)).Nodup
  decoded : ∀ n : ℕ, s.decodedInodes[n]? = if n ∈ done then sb.inodeAt d n else none
  complete : ∀ n : ℕ, s.directoryScanComplete[n]? = if n ∈ done ∧ sb.isDirectory d n then some true else none
  names : ∀ n, n ∉ done → s.directoryActiveNames n = []
  first : ∀ b, s.firstBlockReferences b = none ↔ b ∉ done.flatMap (sb.ownedBy d)
  logical : ∀ n, s.inodeLogicalBlocks n =
    if n ∈ done then (sb.inodeAt d n).map fun v => (v.blocks d).map some else none
  edges : s.report.directoryEdges = done.flatMap fun n => (sb.entriesOf d n).map fun e => ⟨n, e.inode.toNat⟩
  observations : (s.directoryEntryObservations.map fun o => (o.parentInodeNumber, o.entry)) =
    done.flatMap fun n => (sb.entriesOf d n).map fun e => (n, e)
  rootEntries : s.report.rootEntries =
    if sb.rootInode.toNat ∈ done then sb.entriesOf d sb.rootInode.toNat else []
  rootDecoded : s.report.rootInodeDecoded = decide (sb.rootInode.toNat ∈ done)

variable {sb d}

theorem NodeOk.ownedBy (h : NodeOk sb d n v) : sb.ownedBy d n = v.owned d := by
  rw [Superblock.ownedBy, h.record]
  rfl

theorem NodeOk.entriesOf (h : NodeOk sb d n v) : sb.entriesOf d n = if S_ISDIR v.mode then v.entries d else [] := by
  rw [Superblock.entriesOf, h.record]
  rfl

theorem NodeOk.isDirectory (h : NodeOk sb d n v) : sb.isDirectory d n = decide (S_ISDIR v.mode) := by
  rw [Superblock.isDirectory, h.record]
  rfl

namespace Seen

variable {r : ConsistencyReport} {s : Scan} {done : List ℕ}

theorem dequeue (h : Seen sb d r s done) (q : List ℕ) (a : Finset ℕ) :
    Seen sb d r { s with physicalScanQueue := q, attemptedInodes := a } done :=
  ⟨h.clean.congr rfl rfl rfl rfl, h.settled, h.covers, h.ok, h.once, h.decoded, h.complete, h.names,
    h.first, h.logical, h.edges, h.observations, h.rootEntries, h.rootDecoded⟩

theorem unscanned (h : Seen sb d r s done) (hn : n ∉ done) : Unscanned s n :=
  ⟨h.names n hn, by rw [h.logical, if_neg hn]⟩

theorem noted {t : Scan} (h : Seen sb d r s done) (hn : n ∉ done) (hok : NodeOk sb d n v)
    (hfresh : ∀ b ∈ v.owned d, b ∉ done.flatMap (sb.ownedBy d)) (ht : Noted sb d s t n v) :
    Seen sb d r t (done ++ [n]) := by
  have hlast : ∀ {m : ℕ}, m ∈ done ++ [n] ↔ m ∈ done ∨ m = n := by simp
  refine ⟨ht.clean h.clean, ht.settled.trans h.settled, ?_, ?_, ?_, ?_, ?_, ?_, ?_, ?_, ?_, ?_, ?_, ?_⟩
  · intro m hm
    rw [ht.physical]
    exact h.covers m hm
  · intro m hm
    rcases hlast.mp hm with hm | rfl
    · exact h.ok m hm
    · exact ⟨v, hok⟩
  · rw [List.flatMap_append, List.flatMap_singleton, hok.ownedBy]
    exact List.nodup_append.mpr ⟨h.once, hok.owned, fun a ha b hb hc => hfresh b hb (hc ▸ ha)⟩
  · intro m
    rw [ht.decoded, getElem?_insert]
    by_cases hm : m = n
    · simp [hm, hok.record]
    · rw [if_neg (by simpa using Ne.symm hm), h.decoded]
      simp [hm]
  · intro m
    rw [ht.complete]
    by_cases hm : m = n
    · subst hm
      by_cases hdir : S_ISDIR v.mode
      · simp [hdir, hok.isDirectory]
      · rw [if_neg hdir, h.complete]
        simp [hn, hdir, hok.isDirectory]
    · have hkey : ¬ (compare n m = .eq) := by simpa using Ne.symm hm
      by_cases hdir : S_ISDIR v.mode
      · rw [if_pos hdir, getElem?_insert, if_neg hkey, h.complete]
        simp [hm]
      · rw [if_neg hdir, h.complete]
        simp [hm]
  · intro m hm
    rw [hlast, not_or] at hm
    rw [ht.names m hm.2]
    exact h.names m hm.1
  · intro b
    rw [ht.first, h.first, List.flatMap_append, List.flatMap_singleton, hok.ownedBy, List.mem_append, not_or]
  · intro m
    have hnone : s.inodeLogicalBlocks n = none := (h.unscanned hn).logical
    rw [ht.logical, emplace, hnone]
    by_cases hm : m = n
    · subst hm
      simp [hok.record]
    · simp only [update_of_ne hm, h.logical]
      simp [hm]
  · rw [ht.edges, h.edges, List.flatMap_append, List.flatMap_singleton, hok.entriesOf]
  · rw [ht.observations, h.observations, List.flatMap_append, List.flatMap_singleton, hok.entriesOf]
  · rw [ht.rootEntries, h.rootEntries]
    by_cases hr : n = sb.rootInode.toNat
    · subst hr
      simp [hn, hok.entriesOf]
    · have : sb.rootInode.toNat ≠ n := Ne.symm hr
      simp [hr, this]
  · rw [ht.rootDecoded, h.rootDecoded]
    by_cases hr : n = sb.rootInode.toNat
    · simp [hr]
    · have : sb.rootInode.toNat ≠ n := Ne.symm hr
      simp [hr, this]

end Seen

/-! ## The queue -/

variable (sb d)

theorem scanQueue_nil (h : s.physicalScanQueue = []) : scanQueue sb d s = s := by
  rw [scanQueue]
  split
  · rfl
  · simp_all

theorem scanQueue_cons (h : s.physicalScanQueue = n :: rest) (hn : n ∉ s.attemptedInodes) :
    scanQueue sb d s = scanQueue sb d (scanInode sb d n
      { s with physicalScanQueue := rest, attemptedInodes := insert n s.attemptedInodes }) := by
  rw [scanQueue]
  split
  · simp_all
  · next m rest' h' =>
    obtain ⟨rfl, rfl⟩ : m = n ∧ rest' = rest := by simp_all
    rw [if_neg hn]

theorem scanQueue_seen (h : s.physicalScanQueue = n :: rest) (hn : n ∈ s.attemptedInodes) :
    scanQueue sb d s = scanQueue sb d { s with physicalScanQueue := rest } := by
  rw [scanQueue]
  split
  · simp_all
  · next m rest' h' =>
    obtain ⟨rfl, rfl⟩ : m = n ∧ rest' = rest := by simp_all
    rw [if_pos hn]

theorem clean_of_scanQueue (h : (scanQueue sb d s).Clean) : s.Clean := by
  induction s using scanQueue.induct sb d with
  | case1 s hq => rwa [scanQueue_nil sb d hq] at h
  | case2 s n rest hq s' hn ih =>
    rw [scanQueue_seen sb d hq hn] at h
    exact (ih h).congr rfl rfl rfl rfl
  | case3 s n rest hq s' hn ih =>
    rw [scanQueue_cons sb d hq hn] at h
    exact (clean_of_scanInode sb d (ih h)).congr rfl rfl rfl rfl

/-- The inodes of the queue are well formed and share no block, with each other and with those already seen. -/
structure QueueOk (done q : List ℕ) : Prop where
  nodes : ∀ n ∈ q, ∃ v, NodeOk sb d n v
  once : ((done ++ q).flatMap (sb.ownedBy d)).Nodup

variable {sb d}

theorem QueueOk.fresh (h : QueueOk sb d done (n :: rest)) (hok : NodeOk sb d n v) :
    ∀ b ∈ v.owned d, b ∉ done.flatMap (sb.ownedBy d) := by
  intro b hb hc
  have hd := (List.nodup_append.mp (List.flatMap_append ▸ h.once)).2.2
  refine hd b hc b ?_ rfl
  rw [List.flatMap_cons, hok.ownedBy]
  exact List.mem_append_left _ hb

theorem queueOk_cons : QueueOk sb d done (n :: rest) ↔
    (∃ v, NodeOk sb d n v) ∧ QueueOk sb d (done ++ [n]) rest := by
  have happ : done ++ n :: rest = done ++ [n] ++ rest := by simp
  constructor
  · rintro ⟨hn, ho⟩
    exact ⟨hn n List.mem_cons_self, fun m hm => hn m (List.mem_cons_of_mem _ hm), happ ▸ ho⟩
  · rintro ⟨hn, hr, ho⟩
    exact ⟨List.forall_mem_cons.mpr ⟨hn, hr⟩, happ ▸ ho⟩

theorem Seen.scanInode (h : Seen sb d r s done) (hn : n ∉ done) (hok : NodeOk sb d n v)
    (hfresh : ∀ b ∈ v.owned d, b ∉ done.flatMap (sb.ownedBy d)) :
    Seen sb d r (Scan.scanInode sb d n s) (done ++ [n]) ∧
      Noted sb d s (Scan.scanInode sb d n s) n v := by
  have hfirst : ∀ b ∈ v.owned d, s.firstBlockReferences b = none := fun b hb => (h.first b).mpr (hfresh b hb)
  rw [scanInode_of_ok sb d h.covers (h.unscanned hn) hok hfirst]
  have hnoted := noteAll_noted sb d s hok
  exact ⟨h.noted hn hok hfresh hnoted, hnoted⟩

theorem Seen.scanQueue : ∀ {q done : List ℕ} {s : Scan}, s.physicalScanQueue = q →
    Seen sb d r s done → (∀ m, m ∈ s.attemptedInodes ↔ m ∈ done) → (done ++ q).Nodup →
    QueueOk sb d done q →
      Seen sb d r (Scan.scanQueue sb d s) (done ++ q)
  | [], done, s, hq, h, _, _, _ => by
    rw [scanQueue_nil sb d hq, List.append_nil]
    exact h
  | n :: rest, done, s, hq, h, ha, hnd, hok => by
    have happ : done ++ n :: rest = done ++ [n] ++ rest := by simp
    have hn : n ∉ done := fun hc => (List.nodup_append.mp hnd).2.2 n hc n List.mem_cons_self rfl
    obtain ⟨⟨v, hv⟩, hrest⟩ := queueOk_cons.mp hok
    obtain ⟨hseen, hnoted⟩ := (h.dequeue rest (insert n s.attemptedInodes)).scanInode hn hv (hok.fresh hv)
    rw [scanQueue_cons sb d hq (mt (ha n).mp hn), happ]
    refine hseen.scanQueue hnoted.queue (fun m => ?_) (happ ▸ hnd) hrest
    rw [hnoted.attempted]
    simp [ha, or_comm]

theorem Seen.queueOk : ∀ {q done : List ℕ} {s : Scan}, s.physicalScanQueue = q →
    Seen sb d r s done → (∀ m, m ∈ s.attemptedInodes ↔ m ∈ done) → (done ++ q).Nodup →
      (Scan.scanQueue sb d s).Clean → QueueOk sb d done q
  | [], done, s, _, h, _, _, _ => by
    refine ⟨fun n hn => absurd hn List.not_mem_nil, ?_⟩
    rw [List.append_nil]
    exact h.once
  | n :: rest, done, s, hq, h, ha, hnd, hclean => by
    have happ : done ++ n :: rest = done ++ [n] ++ rest := by simp
    have hn : n ∉ done := fun hc => (List.nodup_append.mp hnd).2.2 n hc n List.mem_cons_self rfl
    have h' := h.dequeue rest (insert n s.attemptedInodes)
    rw [scanQueue_cons sb d hq (mt (ha n).mp hn)] at hclean
    obtain ⟨v, hv, hfirst⟩ := of_clean_scanInode sb d h'.covers (h'.unscanned hn) (clean_of_scanQueue sb d hclean)
    obtain ⟨hseen, hnoted⟩ := h'.scanInode hn hv fun b hb => (h'.first b).mp (hfirst b hb)
    refine queueOk_cons.mpr ⟨⟨v, hv⟩, hseen.queueOk hnoted.queue (fun m => ?_) (happ ▸ hnd) hclean⟩
    rw [hnoted.attempted]
    simp [ha, or_comm]

/-! ## The start -/

variable (sb d)

/-- The root and the allocated inodes, the root first. -/
def scanList : List ℕ := sb.rootInode.toNat :: (sb.inodes d).filter (· ≠ sb.rootInode.toNat)

theorem nodup_scanList : (scanList sb d).Nodup := by
  refine List.nodup_cons.mpr ⟨fun h => ?_, (Superblock.nodup_inodes sb d).filter _⟩
  simpa using (List.mem_filter.mp h).2

theorem foldl_enqueue (p : ℕ → Bool) : ∀ {l : List ℕ} {s : Scan}, l.Nodup →
    l.foldl (fun s n => if p n then s.enqueuePhysicalScan n else s) s =
      { s with
        physicalScan := s.physicalScan ∪ (l.filter p).toFinset
        physicalScanQueue := s.physicalScanQueue ++ (l.filter p).filter (· ∉ s.physicalScan) }
  | [], s, _ => by simp
  | n :: l, s, h => by
    obtain ⟨hn, hl⟩ := List.nodup_cons.mp h
    rw [List.foldl_cons]
    by_cases hp : p n = true
    · rw [if_pos hp, foldl_enqueue p hl, List.filter_cons_of_pos hp]
      by_cases hm : n ∈ s.physicalScan
      · simp [enqueuePhysicalScan, hm]
      · simp only [enqueuePhysicalScan, hm, if_false, List.toFinset_cons, Finset.insert_union, Finset.union_insert,
          List.append_assoc, List.singleton_append, not_false_eq_true, decide_true, List.filter_cons_of_pos]
        congr 3
        refine List.filter_congr fun m hm' => ?_
        have : m ≠ n := fun hc => hn (hc ▸ (List.mem_filter.mp hm').1)
        simp [this]
    · rw [if_neg hp, foldl_enqueue p hl, List.filter_cons_of_neg hp]

theorem start_eq (r : ConsistencyReport) : start sb d r =
    { blank r with
      physicalScan := {sb.rootInode.toNat} ∪ (sb.inodes d).toFinset, physicalScanQueue := scanList sb d } := by
  have hnodup : ((List.range sb.totalInodes.toNat).map (· + 1)).Nodup :=
    List.Nodup.map (fun _ _ h => Nat.succ_injective h) List.nodup_range
  unfold start
  rw [foldl_enqueue _ hnodup]
  simp [enqueuePhysicalScan, blank, scanList, Superblock.inodes]

theorem start_seen (hissues : r.issues = []) (hdecoded : r.rootInodeDecoded = false) (hroot : r.rootEntries = [])
    (hedges : r.directoryEdges = []) : Seen sb d r (start sb d r) [] := by
  rw [start_eq]
  refine ⟨⟨hissues, rfl, rfl, rfl⟩, rfl, ?_, ?_, List.nodup_nil, ?_, ?_, ?_, ?_, ?_, hedges, rfl,
    hroot, hdecoded⟩
  · intro n hn
    exact Finset.mem_union_right _ (List.mem_toFinset.mpr hn)
  all_goals simp [blank]

end Scan

end Eufs
