import Eufs.Checker.Clean

/-!
# Eufs.Checker.Walk — the tables of a clean scan

What a clean scan of directories and inodes enters.  When the queue is empty and the scan is clean, the tables hold
the tree of the image: the records, the entries and the blocks of exactly the allocated inodes (`Seen`).
-/

namespace Eufs

open Superblock Function

variable {n physical : ℕ} {s : Scan} {e : DirectoryEntry}

namespace Scan

variable (sb : Superblock) (d : Image)

/-! ## Directory records -/

/-- Active records of directory `n`, each with its block, entered in the tables. -/
def addEntries (n : ℕ) (s : Scan) (xs : List (ℕ × DirectoryEntry)) : Scan :=
  { s with
    report := { s.report with
      rootEntries := s.report.rootEntries ++ if n = sb.rootInode.toNat then xs.map Prod.snd else []
      directoryEdges := s.report.directoryEdges ++ xs.map fun x => ⟨n, x.2.inode.toNat⟩ }
    directoryActiveNames :=
      update s.directoryActiveNames n (s.directoryActiveNames n ++ xs.map fun x => x.2.name)
    directoryEntryObservations := s.directoryEntryObservations ++ xs.map fun x => ⟨n, x.1, x.2⟩
    discovery := xs.foldl (fun m x => emplace m x.2.inode.toNat (n, x.1)) s.discovery }

theorem addEntries_nil (n : ℕ) (s : Scan) : addEntries sb n s [] = s := by
  unfold addEntries
  simp only [List.map_nil, ite_self, List.append_nil, update_eq_self, List.foldl_nil]

theorem addEntries_append (n : ℕ) (s : Scan) (xs ys : List (ℕ × DirectoryEntry)) :
    addEntries sb n s (xs ++ ys) = addEntries sb n (addEntries sb n s xs) ys := by
  unfold addEntries
  simp only [List.map_append, List.append_assoc, update_self, update_idem, List.foldl_append]
  split_ifs <;> rfl

/-- New names, and targets that are allocated. -/
structure NewNames (s : Scan) (n : ℕ) (es : List DirectoryEntry) : Prop where
  nodup : (es.map DirectoryEntry.name).Nodup
  fresh : ∀ e ∈ es, e.name ∉ s.directoryActiveNames n
  targets : ∀ e ∈ es, e.inode.toNat ∈ sb.inodes d

/-- All allocated inodes are scanned or in the queue. -/
def Covers (s : Scan) : Prop := ∀ n ∈ sb.inodes d, n ∈ s.physicalScan

theorem scanEntry_of_free (h : e.inode = 0) :
    scanEntry sb d n physical s e = s := if_pos h

theorem scanEntry_of_new (hc : Covers sb d s) (h0 : e.inode ≠ 0) (hn : e.name ∉ s.directoryActiveNames n)
    (ht : e.inode.toNat ∈ sb.inodes d) : scanEntry sb d n physical s e = addEntries sb n s [(physical, e)] := by
  have hmem := hc _ ht
  obtain ⟨-, hle, hb⟩ := mem_inodes.mp ht
  unfold scanEntry enterName addEntries addEdge enqueuePhysicalScan
  by_cases hr : n = sb.rootInode.toNat
  · simp [h0, hr ▸ hn, hmem, hb, hr, not_lt.mpr hle]
  · simp [h0, hn, hmem, hb, hr, not_lt.mpr hle]

theorem clean_enterName (h : (enterName sb n physical s e).Clean) :
    s.Clean ∧ e.name ∉ s.directoryActiveNames n := by
  unfold enterName at h
  dsimp only at h
  split_ifs at h with hr hn hn
  · exact absurd h.issues (by simp)
  · exact ⟨h.congr rfl rfl rfl rfl, by simpa using hn⟩
  · exact absurd h.issues (by simp)
  · exact ⟨h.congr rfl rfl rfl rfl, by simpa using hn⟩

theorem of_clean_scanEntry (h : (scanEntry sb d n physical s e).Clean) :
    s.Clean ∧ (e.inode ≠ 0 → e.name ∉ s.directoryActiveNames n ∧ e.inode.toNat ∈ sb.inodes d) := by
  unfold scanEntry at h
  by_cases h0 : e.inode = 0
  · rw [if_pos h0] at h
    exact ⟨h, fun hc => absurd h0 hc⟩
  · rw [if_neg h0] at h
    by_cases ht : e.inode.toNat > sb.totalInodes.toNat
    · simp only [ht, if_true] at h
      exact absurd h not_clean_markPartial
    · simp only [ht, if_false] at h
      by_cases hb : sb.inodeBit d e.inode.toNat = true
      · simp only [hb, if_true] at h
        have hq : (addEdge n physical (enterName sb n physical s e) e).Clean := by
          unfold enqueuePhysicalScan at h
          split_ifs at h
          · exact h
          · exact h.congr rfl rfl rfl rfl
        obtain ⟨hc, hn⟩ := clean_enterName sb (hq.congr rfl rfl rfl rfl)
        refine ⟨hc, fun _ => ⟨hn, mem_inodes.mpr ⟨?_, not_lt.mp ht, hb⟩⟩⟩
        exact Nat.one_le_iff_ne_zero.mpr fun hz => h0 (UInt32.toNat_inj.mp hz)
      · simp only [hb] at h
        exact absurd h not_clean_addIssue

theorem newNames_append {x : List (ℕ × DirectoryEntry)} {es : List DirectoryEntry} :
    NewNames sb d s n (x.map Prod.snd ++ es) ↔
      NewNames sb d s n (x.map Prod.snd) ∧ NewNames sb d (addEntries sb n s x) n es := by
  have hnames : (addEntries sb n s x).directoryActiveNames n =
      s.directoryActiveNames n ++ (x.map Prod.snd).map DirectoryEntry.name := by
    simp only [addEntries, update_self, List.map_map, comp_def]
  constructor
  · rintro ⟨h1, h2, h3⟩
    rw [List.map_append] at h1
    obtain ⟨hx, he, hd⟩ := List.nodup_append.mp h1
    obtain ⟨hfx, hfe⟩ := List.forall_mem_append.mp h2
    obtain ⟨htx, hte⟩ := List.forall_mem_append.mp h3
    refine ⟨⟨hx, hfx, htx⟩, he, fun e hm => ?_, hte⟩
    rw [hnames, List.mem_append, not_or]
    exact ⟨hfe e hm, fun hc => hd _ hc _ (List.mem_map_of_mem hm) rfl⟩
  · rintro ⟨⟨hx, hfx, htx⟩, he, hfe, hte⟩
    simp only [hnames, List.mem_append, not_or] at hfe
    refine ⟨?_, List.forall_mem_append.mpr ⟨hfx, fun e hm => (hfe e hm).1⟩,
      List.forall_mem_append.mpr ⟨htx, hte⟩⟩
    rw [List.map_append]
    refine List.nodup_append.mpr ⟨hx, he, fun a ha b hb => ?_⟩
    obtain ⟨e, hm, rfl⟩ := List.mem_map.mp hb
    exact fun hc => (hfe e hm).2 (hc ▸ ha)

theorem newNames_singleton : NewNames sb d s n [e] ↔
    e.name ∉ s.directoryActiveNames n ∧ e.inode.toNat ∈ sb.inodes d := by
  constructor
  · intro h
    exact ⟨h.fresh e (List.mem_singleton_self e), h.targets e (List.mem_singleton_self e)⟩
  · rintro ⟨h1, h2⟩
    refine ⟨List.nodup_singleton _, fun x hx => ?_, fun x hx => ?_⟩
    · rwa [List.mem_singleton.mp hx]
    · rwa [List.mem_singleton.mp hx]

theorem newNames_nil : NewNames sb d s n [] :=
  ⟨List.nodup_nil, fun _ h => absurd h List.not_mem_nil, fun _ h => absurd h List.not_mem_nil⟩

theorem Covers.addEntries (h : Covers sb d s) (n : ℕ) (xs : List (ℕ × DirectoryEntry)) :
    Covers sb d (Scan.addEntries sb n s xs) := h

theorem scanEntries_of_new {n physical : ℕ} : ∀ {es : List DirectoryEntry} {s : Scan}, Covers sb d s →
    NewNames sb d s n (activeRecords es) →
      es.foldl (scanEntry sb d n physical) s = addEntries sb n s ((activeRecords es).map fun e => (physical, e))
  | [], s, _, _ => (addEntries_nil sb n s).symm
  | e :: es, s, hc, hn => by
    rw [List.foldl_cons]
    by_cases h0 : e.inode = 0
    · rw [activeRecords_cons_of_free h0] at hn ⊢
      rw [scanEntry_of_free sb d h0, scanEntries_of_new hc hn]
    · rw [activeRecords_cons_of_ne h0] at hn ⊢
      obtain ⟨h1, h2⟩ := (newNames_append sb d (x := [(physical, e)])).mp hn
      obtain ⟨hname, ht⟩ := (newNames_singleton sb d).mp h1
      rw [scanEntry_of_new sb d hc h0 hname ht, scanEntries_of_new (hc.addEntries sb d _ _) h2,
        List.map_cons, ← addEntries_append, List.singleton_append]

theorem of_clean_scanEntries {n physical : ℕ} : ∀ {es : List DirectoryEntry} {s : Scan}, Covers sb d s →
    (es.foldl (scanEntry sb d n physical) s).Clean → s.Clean ∧ NewNames sb d s n (activeRecords es)
  | [], s, _, h => ⟨h, newNames_nil sb d⟩
  | e :: es, s, hc, h => by
    rw [List.foldl_cons] at h
    have hclean := foldl_reflects Clean (fun s e h => (of_clean_scanEntry sb d h).1) _ _ h
    obtain ⟨hs, hnew⟩ := of_clean_scanEntry sb d hclean
    by_cases h0 : e.inode = 0
    · rw [scanEntry_of_free sb d h0] at h
      rw [activeRecords_cons_of_free h0]
      exact of_clean_scanEntries hc h
    · obtain ⟨hname, ht⟩ := hnew h0
      rw [scanEntry_of_new sb d hc h0 hname ht] at h
      rw [activeRecords_cons_of_ne h0]
      exact ⟨hs, (newNames_append sb d (x := [(physical, e)])).mpr
        ⟨(newNames_singleton sb d).mpr ⟨hname, ht⟩, (of_clean_scanEntries (hc.addEntries sb d _ _) h).2⟩⟩

/-! ## Directory blocks -/

/-- The active records of some blocks, each with its block. -/
def located (bs : List ℕ) : List (ℕ × DirectoryEntry) :=
  bs.flatMap fun b => (activeEntries (d b)).map fun e => (b, e)

theorem map_located (bs : List ℕ) : (located d bs).map Prod.snd = bs.flatMap fun b => activeEntries (d b) := by
  simp [located, List.map_flatMap, comp_def]

theorem scanBlock_of_new {b : ℕ} {s : Scan × Bool} (hc : Covers sb d s.1) (hd : recordsDecode (d b))
    (hn : NewNames sb d s.1 n (activeEntries (d b))) : scanBlock sb d n s (some b) =
      (addEntries sb n s.1 ((activeEntries (d b)).map fun e => (b, e)), s.2) := by
  unfold scanBlock
  simp only [show (blockRecords "" (d b) 0).2 = none from hd]
  rw [scanEntries_of_new sb d hc hn]
  rfl

theorem clean_of_scanBlock {s : Scan × Bool} {mapped : Option ℕ} (h : (scanBlock sb d n s mapped).1.Clean) :
    s.1.Clean := by
  cases mapped with
  | none => exact absurd h not_clean_markPartial
  | some b =>
    unfold scanBlock at h
    cases hf : (blockRecords "" (d b) 0).2 with
    | some detail =>
      simp only [hf] at h
      exact absurd h not_clean_markPartial
    | none =>
      simp only [hf] at h
      exact foldl_reflects Clean (fun s e h => (of_clean_scanEntry sb d h).1) _ _ h

theorem of_clean_scanBlock {s : Scan × Bool} {b : ℕ} (hc : Covers sb d s.1)
    (h : (scanBlock sb d n s (some b)).1.Clean) :
    recordsDecode (d b) ∧ NewNames sb d s.1 n (activeEntries (d b)) := by
  unfold scanBlock at h
  cases hf : (blockRecords "" (d b) 0).2 with
  | some detail =>
    simp only [hf] at h
    exact absurd h not_clean_markPartial
  | none =>
    simp only [hf] at h
    exact ⟨hf, (of_clean_scanEntries sb d hc h).2⟩

theorem map_snd_pair (b : ℕ) (es : List DirectoryEntry) : (es.map fun e => (b, e)).map Prod.snd = es := by
  simp [comp_def]

theorem scanBlocks_of_new {n : ℕ} : ∀ {bs : List ℕ} {s : Scan × Bool}, Covers sb d s.1 →
    (∀ b ∈ bs, recordsDecode (d b)) → NewNames sb d s.1 n (bs.flatMap fun b => activeEntries (d b)) →
      (bs.map some).foldl (scanBlock sb d n) s = (addEntries sb n s.1 (located d bs), s.2)
  | [], s, _, _, _ => by
    rw [located, List.flatMap_nil, addEntries_nil]
    rfl
  | b :: bs, s, hc, hd, hn => by
    obtain ⟨hb, hd⟩ := List.forall_mem_cons.mp hd
    rw [List.flatMap_cons, ← map_snd_pair b (activeEntries (d b))] at hn
    obtain ⟨h1, h2⟩ := (newNames_append sb d).mp hn
    rw [map_snd_pair] at h1
    have ih := scanBlocks_of_new (s := (addEntries sb n s.1 ((activeEntries (d b)).map fun e => (b, e)), s.2))
      (hc.addEntries sb d _ _) hd h2
    rw [List.map_cons, List.foldl_cons, scanBlock_of_new sb d hc hb h1, ih, ← addEntries_append]
    rfl

theorem of_clean_scanBlocks {n : ℕ} : ∀ {bs : List ℕ} {s : Scan × Bool}, Covers sb d s.1 →
    ((bs.map some).foldl (scanBlock sb d n) s).1.Clean → s.1.Clean ∧ (∀ b ∈ bs, recordsDecode (d b)) ∧
      NewNames sb d s.1 n (bs.flatMap fun b => activeEntries (d b))
  | [], s, _, h => ⟨h, fun _ hb => absurd hb List.not_mem_nil, newNames_nil sb d⟩
  | b :: bs, s, hc, h => by
    rw [List.map_cons, List.foldl_cons] at h
    have hclean := foldl_reflects (fun s : Scan × Bool => s.1.Clean) (fun s x h => clean_of_scanBlock sb d h) _ _ h
    obtain ⟨hb, hn⟩ := of_clean_scanBlock sb d hc hclean
    rw [scanBlock_of_new sb d hc hb hn] at h
    obtain ⟨-, hd, hrest⟩ := of_clean_scanBlocks
      (s := (addEntries sb n s.1 ((activeEntries (d b)).map fun e => (b, e)), s.2)) (hc.addEntries sb d _ _) h
    refine ⟨clean_of_scanBlock sb d hclean, List.forall_mem_cons.mpr ⟨hb, hd⟩, ?_⟩
    rw [List.flatMap_cons, ← map_snd_pair b (activeEntries (d b))]
    refine (newNames_append sb d).mpr ⟨?_, hrest⟩
    rwa [map_snd_pair]

/-! ## Directories -/

variable {n : ℕ} {v : InodeRecord}

theorem length_blocks_of_whole (h : v.size.toNat % kBlockSize = 0) :
    ((v.blocks d).map some).length = v.size.toNat / kBlockSize := by
  rw [List.length_map, InodeRecord.blocks, List.length_map, List.length_range, InodeRecord.requiredBlocks]
  unfold kBlockSize at *
  omega

/-- What a clean scan of a directory finds. -/
structure Listed (s : Scan) (n : ℕ) (v : InodeRecord) : Prop where
  size : v.size.toNat % kBlockSize = 0
  decodes : ∀ b ∈ v.blocks d, recordsDecode (d b)
  names : NewNames sb d s n (v.entries d)

theorem scanDirectory_of_listed (hc : Covers sb d s) (hl : s.inodeLogicalBlocks n = some ((v.blocks d).map some))
    (h : Listed sb d s n v) :
    scanDirectory sb d n v s = (addEntries sb n s (located d (v.blocks d))).setComplete n true := by
  have hlen := length_blocks_of_whole d h.size
  unfold scanDirectory
  simp only [h.size, ne_eq, not_true_eq_false, if_false, hl, Option.getD_some, reduceCtorEq, hlen, or_self]
  rw [scanBlocks_of_new sb d hc h.decodes h.names]

theorem clean_of_scanDirectory (h : (scanDirectory sb d n v s).Clean) : s.Clean := by
  unfold scanDirectory at h
  dsimp only at h
  split_ifs at h
  · exact absurd h.status (by simp [setComplete, markPartial])
  · exact absurd h.status (by simp [setComplete, markPartial])
  · exact foldl_reflects (fun s : Scan × Bool => s.1.Clean) (fun s x h => clean_of_scanBlock sb d h) _ (s, true)
      (h.congr rfl rfl rfl rfl)

theorem of_clean_scanDirectory (hc : Covers sb d s) (hl : s.inodeLogicalBlocks n = some ((v.blocks d).map some))
    (h : (scanDirectory sb d n v s).Clean) : Listed sb d s n v := by
  unfold scanDirectory at h
  by_cases hsize : v.size.toNat % kBlockSize = 0
  · have hlen := length_blocks_of_whole d hsize
    simp only [hsize, ne_eq, not_true_eq_false, if_false, hl, Option.getD_some, reduceCtorEq, hlen, or_self] at h
    obtain ⟨-, h2, h3⟩ := of_clean_scanBlocks sb d (s := (s, true)) hc (h.congr rfl rfl rfl rfl)
    exact ⟨hsize, h2, h3⟩
  · simp only [hsize, ne_eq, not_false_eq_true, if_true] at h
    exact absurd h.status (by simp [setComplete, markPartial])

/-! ## Inodes -/

/-- A decoded inode, a directory if it is the root. -/
def noteInode (n : ℕ) (v : InodeRecord) (s : Scan) : Scan :=
  { s with
    decodedInodes := s.decodedInodes.insert n v
    report := { s.report with
      rootInode := if n = sb.rootInode.toNat then some v else s.report.rootInode
      rootInodeDecoded := decide (n = sb.rootInode.toNat) || s.report.rootInodeDecoded
      discoveredInodes := s.report.discoveredInodes ++
        if n = sb.rootInode.toNat then [] else [⟨n, sb.inodeBit d n, v⟩] } }

theorem recordInode_of_directory (h : n = sb.rootInode.toNat → S_ISDIR v.mode) :
    recordInode sb d n v s = noteInode sb d n v s := by
  unfold recordInode noteInode
  by_cases hr : n = sb.rootInode.toNat
  · simp [hr, h hr]
  · simp [hr]

theorem of_clean_recordInode (h : (recordInode sb d n v s).Clean) :
    s.Clean ∧ (n = sb.rootInode.toNat → S_ISDIR v.mode) := by
  unfold recordInode at h
  dsimp only at h
  split_ifs at h with hr hd
  · exact ⟨h.congr rfl rfl rfl rfl, fun _ => hd⟩
  · exact absurd h not_clean_markPartial
  · exact ⟨h.congr rfl rfl rfl rfl, fun hc => absurd hc hr⟩

/-- An inode without findings, entered in the tables. -/
def noteAll (n : ℕ) (v : InodeRecord) (s : Scan) : Scan :=
  let s := ((noteInode sb d n v s).addReferences (inodeReferences d n v)).setLogical n ((v.blocks d).map some)
  if S_ISDIR v.mode then (addEntries sb n s (located d (v.blocks d))).setComplete n true else s

theorem addReferences_eq : ∀ (xs : List BlockReference) (s : Scan), s.addReferences xs =
    { s with
      report := { s.report with blockReferences := s.report.blockReferences ++ xs }
      firstBlockReferences := (s.addReferences xs).firstBlockReferences }
  | [], s => by simp [addReferences]
  | x :: xs, s => by
    rw [addReferences_cons, addReferences_eq xs (s.addReference x)]
    simp [addReference]

/-- What a clean scan of one inode finds. -/
structure NodeOk (n : ℕ) (v : InodeRecord) : Prop where
  record : sb.inodeAt d n = some v
  mapped : v.Mapped sb d
  allocated : ∀ b ∈ v.owned d, sb.blockBit d b = true
  owned : (v.owned d).Nodup
  root : n = sb.rootInode.toNat → S_ISDIR v.mode
  size : S_ISDIR v.mode → v.size.toNat % kBlockSize = 0
  decodes : S_ISDIR v.mode → ∀ b ∈ v.blocks d, recordsDecode (d b)
  names : S_ISDIR v.mode → ((v.entries d).map DirectoryEntry.name).Nodup
  targets : S_ISDIR v.mode → ∀ e ∈ v.entries d, e.inode.toNat ∈ sb.inodes d

/-- The inode was not looked at before. -/
structure Unscanned (s : Scan) (n : ℕ) : Prop where
  names : s.directoryActiveNames n = []
  logical : s.inodeLogicalBlocks n = none

theorem inodeLogicalBlocks_setLogical (h : s.inodeLogicalBlocks n = none) (l : List (Option ℕ)) :
    (s.setLogical n l).inodeLogicalBlocks = update s.inodeLogicalBlocks n (some l) := by
  simp only [setLogical, emplace, h]

theorem scanInode_of_ok (hc : Covers sb d s) (hu : Unscanned s n) (hok : NodeOk sb d n v)
    (hf : ∀ b ∈ v.owned d, s.firstBlockReferences b = none) : scanInode sb d n s = noteAll sb d n v s := by
  have hdec : decodeInode (inodeSlot sb d n) n = .ok v := inodeAt_eq_some.mp hok.record
  have hv := (decodeInode_valid hdec).1.requiredBlocks_le
  have hfresh : Fresh sb d (noteInode sb d n v s) (v.owned d) :=
    ⟨fun b hb => ⟨hok.mapped.inData b hb, hok.allocated b hb, hf b hb⟩, hok.owned⟩
  unfold scanInode noteAll
  simp only [hdec]
  rw [recordInode_of_directory sb d hok.root, scanMapping_of_mapped sb d hv hok.mapped hfresh]
  by_cases hdir : S_ISDIR v.mode
  · rw [if_pos hdir, if_pos hdir, scanDirectory_of_listed sb d]
    · rw [addReferences_eq]
      exact hc
    · rw [inodeLogicalBlocks_setLogical, update_self]
      rw [addReferences_eq]
      exact hu.logical
    · refine ⟨hok.size hdir, hok.decodes hdir, hok.names hdir, fun e _ => ?_, hok.targets hdir⟩
      rw [addReferences_eq]
      show e.name ∉ s.directoryActiveNames n
      rw [hu.names]
      exact List.not_mem_nil
  · rw [if_neg hdir, if_neg hdir]

/-- In a clean scan of an inode the record decodes, and its mapping and its directory are scanned cleanly. -/
theorem decode_of_clean_scanInode (h : (scanInode sb d n s).Clean) : ∃ v, decodeInode (inodeSlot sb d n) n = .ok v ∧
    (scanMapping sb d n v (recordInode sb d n v s)).Clean ∧
    (S_ISDIR v.mode → (scanDirectory sb d n v (scanMapping sb d n v (recordInode sb d n v s))).Clean) := by
  unfold scanInode at h
  split at h
  · exact absurd h.status (by simp [scanUndecodable, markPartial])
  · next v hdec =>
    dsimp only at h
    split_ifs at h with hdir
    · exact ⟨v, hdec, clean_of_scanDirectory sb d h, fun _ => h⟩
    · exact ⟨v, hdec, h, fun hd => absurd hd hdir⟩

theorem clean_of_scanInode (h : (scanInode sb d n s).Clean) : s.Clean := by
  obtain ⟨v, hdec, hm, -⟩ := decode_of_clean_scanInode sb d h
  have hv := (decodeInode_valid hdec).1.requiredBlocks_le
  exact (of_clean_recordInode sb d (of_clean_scanMapping sb d hv hm).1).1

/-- A clean scan of an inode shows that it is well formed. -/
theorem of_clean_scanInode (hc : Covers sb d s) (hu : Unscanned s n) (h : (scanInode sb d n s).Clean) :
    ∃ v, NodeOk sb d n v ∧ ∀ b ∈ v.owned d, s.firstBlockReferences b = none := by
  obtain ⟨v, hdec, hm, hd⟩ := decode_of_clean_scanInode sb d h
  have hv := (decodeInode_valid hdec).1.requiredBlocks_le
  obtain ⟨hrec, hmap, hfresh⟩ := of_clean_scanMapping sb d hv hm
  have hroot := (of_clean_recordInode sb d hrec).2
  rw [recordInode_of_directory sb d hroot] at hfresh hd
  rw [scanMapping_of_mapped sb d hv hmap hfresh] at hd
  have hlist : S_ISDIR v.mode → Listed sb d (((noteInode sb d n v s).addReferences
      (inodeReferences d n v)).setLogical n ((v.blocks d).map some)) n v := by
    intro hdir
    refine of_clean_scanDirectory sb d ?_ ?_ (hd hdir)
    · rw [addReferences_eq]
      exact hc
    · rw [inodeLogicalBlocks_setLogical, update_self]
      rw [addReferences_eq]
      exact hu.logical
  exact ⟨v, ⟨inodeAt_eq_some.mpr hdec, hmap, fun b hb => (hfresh.good b hb).allocated, hfresh.nodup, hroot,
    fun hd => (hlist hd).size, fun hd => (hlist hd).decodes, fun hd => (hlist hd).names.nodup,
    fun hd => (hlist hd).names.targets⟩, fun b hb => (hfresh.good b hb).first⟩

end Scan

end Eufs
