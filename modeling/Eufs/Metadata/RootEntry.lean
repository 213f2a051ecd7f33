import Eufs.Metadata.Mapping
import Eufs.Metadata.NewObject
import Eufs.Metadata.Rewrite

/-!
# Eufs.Metadata.RootEntry — the place of a new entry

On a sound image the entry of a new object goes into the first block of the root with room for it, or into a new block.
`RootPlaced` says what the image holds after that, for all the ways it can happen: the blocks of the root, how its
record maps them, and that its entries are the old ones and the new one.
-/

namespace Eufs

open ImageReader Superblock BitmapAllocator PlanImages Function InodeRecord

variable {b table : ℕ} {p : PlanImages} {d : Image} {rest : List ℕ}

/-! ## Records of a block -/

theorem Inserted.keys {new : DirectoryEntry} {b b' : Block} (h : Inserted new b b' 0) (hnew : new.New) :
    ∃ pre post, (activeEntries b).map DirectoryEntry.key = pre ++ post ∧
      (activeEntries b').map DirectoryEntry.key = pre ++ new.key :: post := by
  obtain ⟨pre, x, post, hr, -, -, hr'⟩ := h.records
  refine ⟨activeKeys (pre ++ [x]), activeKeys post, ?_, ?_⟩
  · show activeKeys (blockRecords "" b 0).1 = _
    rw [hr, ← activeKeys_append, List.append_assoc, List.singleton_append]
  · show activeKeys (blockRecords "" b' 0).1 = _
    rw [hr', activeKeys_append, activeKeys_append, activeKeys_placed hnew, activeKeys_append]
    simp only [List.append_assoc, List.singleton_append]

theorem keys_oneEntryBlock {e : DirectoryEntry} (h : e.New) :
    (activeEntries (oneEntryBlock e)).map DirectoryEntry.key = [e.key] := by
  rw [activeEntries_oneEntryBlock h]
  rfl

/-- Some record of the root has room for the entry. -/
def RootHasRoom (r : ImageReader) (root : InodeRecord) (entry : DirectoryEntry) : Prop :=
  ∃ b ∈ root.blocks r.image, ∃ x ∈ (blockRecords "" (r.image b) 0).1,
    x.2.hasRoom (minimumDirectoryRecordLength entry.name.length)

instance (r : ImageReader) (root : InodeRecord) (entry : DirectoryEntry) : Decidable (RootHasRoom r root entry) := by
  unfold RootHasRoom; infer_instance

/-- The free blocks the root takes for the entry. -/
def rootDemand (r : ImageReader) (root : InodeRecord) (entry : DirectoryEntry) : ℕ :=
  if RootHasRoom r root entry then 0 else if root.requiredBlocks < kDirectBlockCount then 1 else 2

section Place

variable {r : ImageReader} {n : ℕ} {root : InodeRecord} {entry : DirectoryEntry}

theorem tryInsert_spec {b : Block} (hnew : entry.New) (hb : recordsDecode b) :
    (∃ b', tryInsertDirectoryEntry entry b = .ok (some b') ∧ Inserted entry b b' 0) ∨
      (tryInsertDirectoryEntry entry b = .ok none ∧
        ∀ x ∈ (blockRecords "" b 0).1, ¬ x.2.hasRoom (minimumDirectoryRecordLength entry.name.length)) :=
  tryInsertFrom_spec hnew hb

theorem insertIntoRoot_spec (hv : Readable r.superblock r.image n root) (hnew : entry.New) {ls : List ℕ}
    (hls : ∀ l ∈ ls, l < root.requiredBlocks ∧ recordsDecode (r.image (root.pointer r.image l))) :
    (∃ l ∈ ls, ∃ b', insertIntoRoot r root entry ls = .ok (some (root.pointer r.image l, b')) ∧
      Inserted entry (r.image (root.pointer r.image l)) b' 0) ∨
    (insertIntoRoot r root entry ls = .ok none ∧
      ∀ l ∈ ls, ∀ x ∈ (blockRecords "" (r.image (root.pointer r.image l)) 0).1,
        ¬ x.2.hasRoom (minimumDirectoryRecordLength entry.name.length)) := by
  induction ls with
  | nil => exact .inr ⟨rfl, fun l hl => absurd hl List.not_mem_nil⟩
  | cons l ls ih =>
    obtain ⟨⟨hl, hdec⟩, hls⟩ := List.forall_mem_cons.mp hls
    have hread : r.readBlock (root.pointer r.image l) = .ok (r.image (root.pointer r.image l)) :=
      readBlock_eq_ok.mpr ⟨(hv.mapped.inData _ (pointer_mem_owned hl)).2, rfl⟩
    rw [insertIntoRoot, mapLogicalBlock_of_readable hv hl, ok_bind, hread, ok_bind]
    rcases tryInsert_spec hnew hdec with ⟨b', hb', hi⟩ | ⟨hb', hno⟩
    · rw [hb']
      exact .inl ⟨l, List.mem_cons_self, b', rfl, hi⟩
    · rw [hb']
      rcases ih hls with ⟨m, hm, b', hok, hi⟩ | ⟨hok, hall⟩
      · exact .inl ⟨m, List.mem_cons_of_mem _ hm, b', hok, hi⟩
      · exact .inr ⟨hok, List.forall_mem_cons.mpr ⟨hno, hall⟩⟩

/-! ## What the image holds -/

/-- The blocks and the indirect block of a mapping. -/
def ownedOf (blocks : List ℕ) (table : ℕ) : List ℕ :=
  blocks ++ if kDirectBlockCount < blocks.length then [table] else []

/-- The entry has its place in the image `d`: the root has the blocks `blocks`, `taken` free blocks are used, one of its
blocks may be edited, and its old indirect block is released when it gets a new one. -/
structure RootPlaced (r : ImageReader) (root : InodeRecord) (entry : DirectoryEntry) (u : RootUpdate) (taken : ℕ)
    (edited released blocks : List ℕ) (table : ℕ) (d : Image) : Prop where
  allocator : u.allocator = r.blockAllocator.taking (r.blockAllocator.free.take taken)
  space : taken ≤ r.blockAllocator.free.length
  images : u.images.Builds r.image d ∅ {b | b ∈ edited ∨ b ∈ r.blockAllocator.free.take taken}
  frame : ∀ b, b ∉ edited → b ∉ r.blockAllocator.free.take taken → d b = r.image b
  edits : ∀ b ∈ edited, b ∈ root.blocks r.image
  maps : u.root.Maps d blocks table
  inData : r.superblock.InData blocks table
  nodup : (ownedOf blocks table).Nodup
  owned : ∀ b, b ∈ ownedOf blocks table ↔
    b ∈ r.blockAllocator.free.take taken ∨ b ∈ root.owned r.image ∧ b ∉ released
  releases : released = if u.rootIndirectBlock ≠ 0 ∧ root.indirect ≠ 0 then [root.indirect] else []
  record : u.root = { root with
    size := u.root.size, directBlocks := u.root.directBlocks, indirectBlock := u.root.indirectBlock }
  size : u.root.size.toNat = blocks.length * kBlockSize
  decodes : ∀ b ∈ blocks, recordsDecode (d b)
  keys : ∃ pre post, (root.entries r.image).map DirectoryEntry.key = pre ++ post ∧
    (blocks.flatMap fun b => activeEntries (d b)).map DirectoryEntry.key = pre ++ entry.key :: post

theorem flatMap_insert {α : Type} {f g : ℕ → List α} {x : α} {p : ℕ} {bs : List ℕ}
    (hn : bs.Nodup) (hp : p ∈ bs)
    (hins : ∃ pre post, f p = pre ++ post ∧ g p = pre ++ x :: post) (hother : ∀ b ∈ bs, b ≠ p → g b = f b) :
    ∃ pre post, bs.flatMap f = pre ++ post ∧ bs.flatMap g = pre ++ x :: post := by
  obtain ⟨s, t, rfl⟩ := List.append_of_mem hp
  obtain ⟨pre, post, hf, hg⟩ := hins
  obtain ⟨-, hpt, hdis⟩ := List.nodup_append.mp hn
  obtain ⟨hpnot, -⟩ := List.nodup_cons.mp hpt
  have hs : s.flatMap g = s.flatMap f := List.flatMap_congr fun b hb =>
    hother b (List.mem_append_left _ hb) (hdis b hb p List.mem_cons_self)
  have ht : t.flatMap g = t.flatMap f := List.flatMap_congr fun b hb =>
    hother b (List.mem_append_right _ (List.mem_cons_of_mem _ hb)) fun hc => hpnot (hc ▸ hb)
  refine ⟨s.flatMap f ++ pre, post ++ t.flatMap f, ?_, ?_⟩
  · simp only [List.flatMap_append, List.flatMap_cons, hf, List.append_assoc]
  · simp only [List.flatMap_append, List.flatMap_cons, hs, ht, hg, List.append_assoc, List.cons_append]

theorem rootPlaced_inside (hr : r.superblock.Regions) (hs : r.superblock.Sound r.image)
    (hv : Readable r.superblock r.image n root) (hdir : S_ISDIR root.mode) (hnew : entry.New) {l : ℕ}
    (hl : l < root.requiredBlocks) {b' : Block} (hi : Inserted entry (r.image (root.pointer r.image l)) b' 0) :
    RootPlaced r root entry
      { allocator := r.blockAllocator, root, directoryBlock := root.pointer r.image l, directoryGrew := false
        rootIndirectBlock := 0
        images := setMetadata {} (root.pointer r.image l) (r.image (root.pointer r.image l)) b' }
      0 [root.pointer r.image l] [] (root.blocks r.image) root.indirect
      (update r.image (root.pointer r.image l) b') := by
  have hvalid := (decodeInode_valid (inodeAt_eq_some.mp hv.record)).1
  have hmaps := hv.mapped.maps hvalid
  have hnodup := hs.owned_nodup hv.allocated hv.record
  have hok := hs.directory n hv.allocated root hv.record hdir
  obtain ⟨e1, e2, e3, e4, h5, h6, h7, h8⟩ := hr.chain
  have hlen := root.length_blocks r.image
  have hmem : root.pointer r.image l ∈ root.blocks r.image := List.mem_map_of_mem (List.mem_range.mpr hl)
  have howned : root.owned r.image = ownedOf (root.blocks r.image) root.indirect :=
    hmaps.owned_eq (by omega) hv.mapped.dataIn
  refine ⟨rfl, Nat.zero_le _, ?_, fun b hb _ => ?_, fun b hb => ?_, hmaps.congr fun h12 => ?_, hv.mapped.dataIn, ?_,
    fun b => ?_, rfl, rfl, ?_, fun b hb => ?_, ?_⟩
  · refine ((builds_empty r.image).setMetadata (Set.notMem_empty _) rfl).mono subset_rfl ?_
    rintro b (rfl | hb)
    · exact .inl (List.mem_singleton_self _)
    · exact absurd hb (Set.notMem_empty b)
  · exact update_of_ne (by simpa using hb) _ _
  · rw [List.mem_singleton.mp hb]
    exact hmem
  · -- the edited block holds entries, not pointers
    refine update_of_ne (fun hc => ?_) _ _
    rw [howned, ownedOf, if_pos h12] at hnodup
    exact (List.nodup_append.mp hnodup).2.2 _ hmem _ (List.mem_singleton_self _) hc.symm
  · rwa [← howned]
  · rw [← howned]
    simp
  · have hw : root.size.toNat % 4096 = 0 := hok.size
    rw [hlen]
    show root.size.toNat = (root.size.toNat + 4096 - 1) / 4096 * 4096
    omega
  · by_cases hc : b = root.pointer r.image l
    · rw [hc, update_self]
      exact hi.decodes
    · rw [update_of_ne hc]
      exact hok.decodes b hb
  · rw [entries, List.map_flatMap, List.map_flatMap]
    refine flatMap_insert (List.nodup_append.mp hnodup).1 hmem ?_ fun b _ hne => by rw [update_of_ne hne]
    rw [update_self]
    exact hi.keys hnew

/-! ## A new block -/

/-- What a plan holds for a block that is not ordered data. -/
theorem mutableMetadataBlock_eq {O M : Set ℕ} (h : p.Builds r.image d O M) (hb : b ∉ O)
    (hlt : b < r.superblock.totalBlocks.toNat) : mutableMetadataBlock r b p = .ok (d b) := by
  unfold mutableMetadataBlock
  rw [← h.after]
  cases hm : p.metadataAfterImages[b]? with
  | some x => simp [after, hm]
  | none =>
    have hnot : b ∉ p.orderedDataAfterImages := fun hc => hb (h.ordered b hc)
    rw [readBlock_eq_ok.mpr ⟨hlt, rfl⟩]
    simp [after, hm, Std.ExtTreeMap.getElem?_eq_none hnot]

theorem editMetadataBlock_ok {O M : Set ℕ} {f : Block → Except Failure Block} {y : Block}
    (h : p.Builds r.image d O M) (hb : b ∉ O) (hlt : b < r.superblock.totalBlocks.toNat) (hf : f (d b) = .ok y) :
    ∃ p', editMetadataBlock r b f p = .ok p' ∧
      p'.Builds r.image (update d b y) O (insert b M) := by
  refine ⟨p.editMetadata r.image b fun _ => y, ?_, h.editMetadata hb fun _ => y⟩
  rw [editMetadataBlock, mutableMetadataBlock_eq h hb hlt, ok_bind, hf]
  rfl

theorem indirectPointer_putLe32 {b : Block} {j k : ℕ} {x : UInt32} (hj : j < kIndirectEntries) :
    indirectPointer (b.putLe32 (j * 4) x) k = if k = j then x.toNat else indirectPointer b k := by
  have hj : j < 1024 := hj
  unfold indirectPointer
  split_ifs with h
  · subst h
    rw [Bytes.getLe32_putLe32 (by show k * 4 + 4 ≤ 4096; omega)]
  · rw [Bytes.getLe32, Bytes.putLe32, Bytes.read_write_of_disjoint (by rw [length_le]; omega)]
    rfl

theorem indirectPointer_zero (k : ℕ) : indirectPointer (Bytes.zero kBlockSize) k = 0 := by
  have h := @indirectPointer_fill (fun _ => 0) 0 k (Nat.zero_le _)
  simpa using h

/-- The setting of a root that has to grow: an image, its root, and a new entry. -/
structure RootGrows (r : ImageReader) (n : ℕ) (root : InodeRecord) (entry : DirectoryEntry) : Prop where
  regions : r.superblock.Regions
  sound : r.superblock.Sound r.image
  readable : Readable r.superblock r.image n root
  directory : S_ISDIR root.mode
  entry : entry.New
  limit : root.requiredBlocks < kDirectBlockCount + kIndirectEntries

namespace RootGrows

variable (h : RootGrows r n root entry)

include h

theorem maps : root.Maps r.image (root.blocks r.image) root.indirect :=
  h.readable.mapped.maps (decodeInode_valid (inodeAt_eq_some.mp h.readable.record)).1

theorem owned_eq : root.owned r.image = ownedOf (root.blocks r.image) root.indirect :=
  h.maps.owned_eq h.regions.data_pos h.readable.mapped.dataIn

theorem owned_nodup : (ownedOf (root.blocks r.image) root.indirect).Nodup := by
  rw [← h.owned_eq]
  exact h.sound.owned_nodup h.readable.allocated h.readable.record

theorem size_eq : root.size.toNat = root.requiredBlocks * kBlockSize := by
  have hw : root.size.toNat % 4096 = 0 := h.readable.whole h.directory
  show root.size.toNat = (root.size.toNat + 4096 - 1) / 4096 * 4096
  omega

/-- A free block lies in the data region and is not one of the root's. -/
theorem free_spec (hb : b ∈ r.blockAllocator.free) :
    (r.superblock.data.start ≤ b ∧ b < r.superblock.totalBlocks.toNat) ∧
    b ∉ ownedOf (root.blocks r.image) root.indirect := by
  obtain ⟨hrange, hbit⟩ := (mem_free (blockAllocator_fits h.regions)).mp hb
  refine ⟨hrange, fun hc => ?_⟩
  rw [← h.owned_eq] at hc
  have hset := h.readable.blocks b hc
  rw [show r.superblock.blockBit r.image b = false from hbit] at hset
  cases hset

theorem toNat_free (hb : b ∈ r.blockAllocator.free) : (UInt32.ofNat b).toNat = b := by
  have h1 := (h.free_spec hb).1.2
  have h2 := r.superblock.totalBlocks.toNat_lt
  exact UInt32.toNat_ofNat_of_lt' (by show _ < 2 ^ 32; omega)

theorem grown_size : (root.size + UInt64.ofNat kBlockSize).toNat = (root.requiredBlocks + 1) * kBlockSize := by
  have hsize := h.size_eq
  have hlimit : root.requiredBlocks < 1036 := h.limit
  have hsize : root.size.toNat = root.requiredBlocks * 4096 := hsize
  rw [UInt64.toNat_add]
  show (root.size.toNat + 4096) % 2 ^ 64 = (root.requiredBlocks + 1) * 4096
  omega

omit h in
theorem getD_grown (b k : ℕ) : (root.blocks r.image ++ [b]).getD k 0 =
    if k = root.requiredBlocks then b else (root.blocks r.image).getD k 0 := by
  have hlen := root.length_blocks r.image
  rw [List.getD_eq_getElem?_getD, List.getElem?_append, hlen, List.getD_eq_getElem?_getD]
  rcases lt_trichotomy k root.requiredBlocks with hk | hk | hk
  · rw [if_pos hk, if_neg (by omega)]
  · rw [if_neg (by omega), if_pos hk, hk, Nat.sub_self]
    rfl
  · rw [if_neg (by omega), if_neg (by omega), List.getElem?_eq_none (by simp; omega), List.getElem?_eq_none (by omega)]

/-- What holds in every image with the new block in place. -/
theorem placed {u : RootUpdate} {taken : ℕ} {released : List ℕ} (hfirst : b ∈ r.blockAllocator.free)
    (hallocator : u.allocator = r.blockAllocator.taking (r.blockAllocator.free.take taken))
    (hspace : taken ≤ r.blockAllocator.free.length)
    (himages : u.images.Builds r.image d ∅ {b | b ∈ r.blockAllocator.free.take taken})
    (hframe : ∀ c, c ∉ r.blockAllocator.free.take taken → d c = r.image c)
    (hblock : d b = oneEntryBlock entry) (hmaps : u.root.Maps d (root.blocks r.image ++ [b]) table)
    (htable : kDirectBlockCount ≤ root.requiredBlocks → table ∈ r.blockAllocator.free)
    (hnodup : (ownedOf (root.blocks r.image ++ [b]) table).Nodup)
    (howned : ∀ c, c ∈ ownedOf (root.blocks r.image ++ [b]) table ↔
      c ∈ r.blockAllocator.free.take taken ∨ c ∈ ownedOf (root.blocks r.image) root.indirect ∧ c ∉ released)
    (hreleases : released = if u.rootIndirectBlock ≠ 0 ∧ root.indirect ≠ 0 then [root.indirect] else [])
    (hrecord : u.root = { root with
      size := u.root.size, directBlocks := u.root.directBlocks, indirectBlock := u.root.indirectBlock })
    (hsize : u.root.size = root.size + UInt64.ofNat kBlockSize) :
    RootPlaced r root entry u taken [] released (root.blocks r.image ++ [b]) table d := by
  have hlen := root.length_blocks r.image
  have hkeep : ∀ c ∈ root.blocks r.image, d c = r.image c := fun c hc => hframe c fun hmem =>
    (h.free_spec (List.mem_of_mem_take hmem)).2 (List.mem_append_left _ hc)
  refine ⟨hallocator, hspace, himages.mono subset_rfl fun c hc => .inr hc, fun c _ hc => hframe c hc,
    fun c hc => absurd hc List.not_mem_nil, hmaps, ⟨fun c hc => ?_, fun h12 => ?_⟩, hnodup, fun c =>
    ?_, hreleases, hrecord, ?_, fun c hc => ?_, ?_⟩
  · rcases List.mem_append.mp hc with hc | hc
    · exact h.readable.mapped.inData c (List.mem_append_left _ hc)
    · rw [List.mem_singleton.mp hc]
      exact (h.free_spec hfirst).1
  · rw [List.length_append, hlen] at h12
    exact (h.free_spec (htable (Nat.le_of_lt_succ h12))).1
  · rw [h.owned_eq]
    exact howned c
  · rw [hsize, h.grown_size, List.length_append, hlen]
    rfl
  · rcases List.mem_append.mp hc with hc | hc
    · rw [hkeep c hc]
      exact (h.sound.directory n h.readable.allocated root h.readable.record h.directory).decodes c hc
    · rw [List.mem_singleton.mp hc, hblock]
      exact recordsDecode_oneEntryBlock h.entry
  · refine ⟨(root.entries r.image).map DirectoryEntry.key, [], (List.append_nil _).symm, ?_⟩
    have hold : ((root.blocks r.image).flatMap fun c => activeEntries (d c)) = root.entries r.image :=
      List.flatMap_congr fun c hc => by rw [hkeep c hc]
    rw [List.flatMap_append, List.flatMap_singleton, hblock, List.map_append, keys_oneEntryBlock h.entry, hold]

theorem not_limit : ¬ root.requiredBlocks ≥ kMaxFileSize / kBlockSize := not_le.mpr h.limit

theorem encode_entry : encodeDirectoryEntry entry (UInt16.ofNat kBlockSize) (Bytes.zero kBlockSize) 0 =
    .ok (oneEntryBlock entry) := encodeDirectoryEntry_of_fits (fits_oneEntryBlock h.entry) _

omit h in
theorem length_grown (b : ℕ) : (root.blocks r.image ++ [b]).length = root.requiredBlocks + 1 := by
  simp [blocks]

theorem grown_requiredBlocks {v : InodeRecord} (hv : v.size = root.size + UInt64.ofNat kBlockSize) :
    v.requiredBlocks = root.requiredBlocks + 1 := by
  have hsize : v.size.toNat = (root.requiredBlocks + 1) * 4096 := by
    rw [hv]
    exact h.grown_size
  show (v.size.toNat + 4096 - 1) / 4096 = _
  omega

/-- The root with a pointer of its own to the new block. -/
def directRoot (root : InodeRecord) (b : ℕ) : InodeRecord :=
  { root with
    size := root.size + UInt64.ofNat kBlockSize
    directBlocks := root.directBlocks.setIfInBounds root.requiredBlocks (UInt32.ofNat b) }

/-- The root with a new indirect block. -/
def indirectRoot (root : InodeRecord) (table : ℕ) : InodeRecord :=
  { root with size := root.size + UInt64.ofNat kBlockSize, indirectBlock := UInt32.ofNat table }

omit h in
theorem directRoot_size (root : InodeRecord) (b : ℕ) :
    (directRoot root b).size = root.size + UInt64.ofNat kBlockSize := by
  unfold directRoot
  rfl

omit h in
theorem directRoot_indirect (root : InodeRecord) (b : ℕ) : (directRoot root b).indirect = root.indirect := by
  simp only [indirect, directRoot]

omit h in
theorem indirectRoot_size (root : InodeRecord) (b : ℕ) :
    (indirectRoot root b).size = root.size + UInt64.ofNat kBlockSize := by
  unfold indirectRoot
  rfl

theorem maps_directRoot (h12 : root.requiredBlocks < kDirectBlockCount) (hb : b ∈ r.blockAllocator.free)
    (d : Image) : (directRoot root b).Maps d (root.blocks r.image ++ [b]) 0 := by
  have hlimit := h.limit
  have hlen := @length_grown r root b
  refine ⟨?_, by omega, fun k hk => ?_, ?_, fun hc => absurd hc (by omega)⟩
  · rw [hlen, h.grown_requiredBlocks (directRoot_size root b)]
  · rw [getD_grown, ← h.maps.direct k hk]
    have hk' : k < 12 := hk
    by_cases hkc : k = root.requiredBlocks
    · rw [if_pos hkc, ← h.toNat_free hb]
      simp [directBlock, directRoot, ← hkc, hk']
    · rw [if_neg hkc]
      simp [directBlock, directRoot, Ne.symm hkc]
  · have h0 : root.indirect = 0 := not_not.mp fun hc => absurd (h.readable.mapped.indirect.mp hc) (by omega)
    rw [if_neg (by omega), directRoot_indirect, h0]

/-- The image with the entry in a new block, which the root points to itself. -/
theorem placed_direct (h12 : root.requiredBlocks < kDirectBlockCount) (hfree : r.blockAllocator.free = b :: rest)
    (hp : p.Builds r.image (update r.image b (oneEntryBlock entry)) ∅ {b}) :
    RootPlaced r root entry ⟨r.blockAllocator.taking [b], p, directRoot root b, b, true, 0⟩ 1 [] []
      (root.blocks r.image ++ [b]) 0 (update r.image b (oneEntryBlock entry)) := by
  have hb : b ∈ r.blockAllocator.free := hfree ▸ List.mem_cons_self
  have htake : r.blockAllocator.free.take 1 = [b] := by rw [hfree, List.take_succ_cons, List.take_zero]
  have hlen := root.length_blocks r.image
  have hlen' := @length_grown r root b
  have hnodup := h.owned_nodup
  have hnot := (h.free_spec hb).2
  have hold : ownedOf (root.blocks r.image) root.indirect = root.blocks r.image := by
    rw [ownedOf, if_neg (by omega), List.append_nil]
  have hnew : ownedOf (root.blocks r.image ++ [b]) 0 = root.blocks r.image ++ [b] := by
    rw [ownedOf, if_neg (by omega), List.append_nil]
  rw [hold] at hnodup hnot
  refine h.placed hb (by rw [htake]) (by rw [hfree, List.length_cons]; omega) (hp.mono subset_rfl ?_) (fun c hc => ?_)
    (update_self _ _ _) (h.maps_directRoot h12 hb _) (fun hc => absurd hc (by omega)) ?_ (fun c => ?_)
    (by simp) (by unfold directRoot; rfl) (directRoot_size root b)
  · rintro c rfl
    rw [Set.mem_ofPred_eq, htake]
    exact List.mem_singleton_self _
  · rw [htake, List.mem_singleton] at hc
    exact update_of_ne hc _ _
  · rw [hnew]
    exact List.nodup_append.mpr ⟨hnodup, List.nodup_singleton b, fun c hc c' hc' heq =>
      hnot (by rwa [← List.mem_singleton.mp hc', ← heq])⟩
  · rw [htake, hnew, hold]
    simp [or_comm]

/-- The pointer to the new block is one of the root's own. -/
theorem growRoot_direct (h12 : root.requiredBlocks < kDirectBlockCount) (hfree : r.blockAllocator.free = b :: rest) :
    ∃ u d, growRoot r root root.requiredBlocks entry = .ok u ∧
      RootPlaced r root entry u 1 [] [] (root.blocks r.image ++ [b]) 0 d := by
  have hb : b ∈ r.blockAllocator.free := hfree ▸ List.mem_cons_self
  obtain ⟨p, hp, hbuilds⟩ := editMetadataBlock_ok (r := r)
    (f := fun _ => orFail .EINVAL (encodeDirectoryEntry entry (UInt16.ofNat kBlockSize) (Bytes.zero kBlockSize) 0))
    (builds_empty r.image) (Set.notMem_empty b) (h.free_spec hb).1.2 (orFail_eq_ok.mpr h.encode_entry)
  refine ⟨⟨r.blockAllocator.taking [b], p, directRoot root b, b, true, 0⟩, _, ?_,
    h.placed_direct h12 hfree (hbuilds.mono subset_rfl (Set.insert_subset rfl (Set.empty_subset _)))⟩
  rw [growRoot, reject_bind_of_not h.not_limit,
    reserve_eq (blockAllocator_fits h.regions), hfree]
  simp only [ok_bind]
  refine bind_eq_ok.mpr ⟨p, hp, ?_⟩
  simp only [if_pos h12]
  rfl

section

variable (h12 : kDirectBlockCount ≤ root.requiredBlocks) (hb : b ∈ r.blockAllocator.free)

include h12 hb

/-- The new indirect block points to the old blocks and the new one. -/
theorem indirectPointer_grown {k : ℕ} {old : Block}
    (hold : old = if root.indirect ≠ 0 then r.image root.indirect else Bytes.zero kBlockSize)
    (hk : k < kIndirectEntries) :
    indirectPointer (old.putLe32 ((root.requiredBlocks - kDirectBlockCount) * 4) (UInt32.ofNat b)) k =
      (root.blocks r.image ++ [b]).getD (kDirectBlockCount + k) 0 := by
  have hlimit := h.limit
  rw [indirectPointer_putLe32 (by omega), getD_grown, h.toNat_free hb]
  refine if_ctx_congr (by omega) (fun _ => rfl) fun hne => ?_
  rw [hold]
  by_cases h0 : root.indirect = 0
  · -- no block beyond the twelfth yet
    have hreq : root.requiredBlocks = kDirectBlockCount := by
      have := mt h.readable.mapped.indirect.mpr (not_not.mpr h0)
      omega
    rw [if_neg (not_not.mpr h0), indirectPointer_zero, List.getD_eq_getElem?_getD,
      List.getElem?_eq_none (by rw [length_blocks]; omega)]
    rfl
  · rw [if_pos h0, h.maps.entries (by rw [length_blocks]; exact h.readable.mapped.indirect.mp h0) k hk]

theorem maps_indirectRoot (ht : table ∈ r.blockAllocator.free) {old : Block}
    (hold : old = if root.indirect ≠ 0 then r.image root.indirect else Bytes.zero kBlockSize)
    (hd : d table = old.putLe32 ((root.requiredBlocks - kDirectBlockCount) * 4) (UInt32.ofNat b)) :
    (indirectRoot root table).Maps d (root.blocks r.image ++ [b]) table := by
  have hlimit := h.limit
  have hlen := @length_grown r root b
  refine ⟨?_, by omega, fun k hk => ?_, ?_, fun _ k hk => ?_⟩
  · rw [hlen, h.grown_requiredBlocks (indirectRoot_size root table)]
  · rw [getD_grown, if_neg (by omega), ← h.maps.direct k hk]
    simp only [directBlock, indirectRoot]
  · rw [if_pos (by omega)]
    simp only [indirect, indirectRoot]
    exact h.toNat_free ht
  · rw [hd, h.indirectPointer_grown h12 hb hold hk]

/-- The root gives its old indirect block for the new one. -/
theorem owned_indirectRoot (ht : table ∈ r.blockAllocator.free) (hne : b ≠ table) :
    (ownedOf (root.blocks r.image ++ [b]) table).Nodup ∧
      ∀ c, c ∈ ownedOf (root.blocks r.image ++ [b]) table ↔ c ∈ [b, table] ∨
        c ∈ ownedOf (root.blocks r.image) root.indirect ∧
        c ∉ if root.indirect ≠ 0 then [root.indirect] else [] := by
  have hlen := @length_grown r root b
  have hnodup := h.owned_nodup
  have hnotb := (h.free_spec hb).2
  have hnott := (h.free_spec ht).2
  have hkept : ∀ c, c ∈ root.blocks r.image ↔ c ∈ ownedOf (root.blocks r.image) root.indirect ∧
      c ∉ if root.indirect ≠ 0 then [root.indirect] else [] := by
    intro c
    have hiff := h.readable.mapped.indirect
    rw [← root.length_blocks r.image] at hiff
    by_cases h0 : root.indirect = 0
    · rw [ownedOf, if_neg (mt hiff.mpr (not_not.mpr h0)), if_neg (not_not.mpr h0)]
      simp
    · rw [ownedOf, if_pos (hiff.mp h0)] at hnodup
      have hind := (List.nodup_append.mp hnodup).2.2
      rw [ownedOf, if_pos (hiff.mp h0), if_pos h0, List.mem_append, List.mem_singleton]
      constructor
      · exact fun hc => ⟨.inl hc, hind c hc _ (List.mem_singleton_self _)⟩
      · exact fun hc => hc.1.resolve_right hc.2
  have hblocks : (root.blocks r.image).Nodup := (List.nodup_append.mp hnodup).1
  have hb' : b ∉ root.blocks r.image := fun hc => hnotb (List.mem_append_left _ hc)
  have ht' : table ∉ root.blocks r.image := fun hc => hnott (List.mem_append_left _ hc)
  rw [ownedOf, if_pos (by omega)]
  refine ⟨?_, fun c => ?_⟩
  · rw [List.append_assoc]
    refine List.nodup_append.mpr ⟨hblocks, by simp [hne], fun c hc c' hc' heq => ?_⟩
    subst heq
    rcases List.mem_append.mp hc' with hc' | hc'
    · exact hb' (List.mem_singleton.mp hc' ▸ hc)
    · exact ht' (List.mem_singleton.mp hc' ▸ hc)
  · rw [← hkept c]
    simp only [List.mem_append, List.mem_cons, List.not_mem_nil, or_false]
    tauto

end

/-- The pointer to the new block is in a new indirect block. -/
theorem growRoot_indirect (h12 : kDirectBlockCount ≤ root.requiredBlocks)
    (hfree : r.blockAllocator.free = b :: table :: rest) :
    ∃ u d, growRoot r root root.requiredBlocks entry = .ok u ∧
      RootPlaced r root entry u 2 [] (if root.indirect ≠ 0 then [root.indirect] else [])
        (root.blocks r.image ++ [b]) table d := by
  have hb : b ∈ r.blockAllocator.free := hfree ▸ List.mem_cons_self
  have ht : table ∈ r.blockAllocator.free := hfree ▸ List.mem_cons_of_mem _ List.mem_cons_self
  have hbt : b ≠ table := by
    have hn := nodup_free r.blockAllocator
    rw [hfree] at hn
    exact fun hc => (List.nodup_cons.mp hn).1 (hc ▸ List.mem_cons_self)
  have hfits := blockAllocator_fits h.regions
  have htake : r.blockAllocator.free.take 2 = [b, table] := by
    rw [hfree, List.take_succ_cons, List.take_succ_cons, List.take_zero]
  have ht0 : table ≠ 0 := by
    have := (h.free_spec ht).1.1
    have := h.regions.data_pos
    omega
  generalize hold : (if root.indirect ≠ 0 then r.image root.indirect else Bytes.zero kBlockSize) = old
  have hafter : rootIndirectAfter r root root.requiredBlocks b =
      .ok (old.putLe32 ((root.requiredBlocks - kDirectBlockCount) * 4) (UInt32.ofNat b)) := by
    unfold rootIndirectAfter
    by_cases h0 : root.indirect = 0
    · rw [if_neg (not_not.mpr h0)] at hold ⊢
      rw [ok_bind, ← hold]
      rfl
    · have hread : r.readBlock root.indirect = .ok (r.image root.indirect) :=
        readBlock_eq_ok.mpr ⟨(h.readable.mapped.inData _ (indirect_mem_owned h0)).2, rfl⟩
      rw [if_pos h0] at hold ⊢
      rw [hread, ok_bind, ← hold]
      rfl
  obtain ⟨p, hp, hbuilds⟩ := editMetadataBlock_ok (r := r)
    (f := fun _ => orFail .EINVAL (encodeDirectoryEntry entry (UInt16.ofNat kBlockSize) (Bytes.zero kBlockSize) 0))
    (builds_empty r.image) (Set.notMem_empty b) (h.free_spec hb).1.2 (orFail_eq_ok.mpr h.encode_entry)
  obtain ⟨p', hp', hbuilds'⟩ := editMetadataBlock_ok (r := r)
    (f := fun _ => rootIndirectAfter r root root.requiredBlocks b) hbuilds (Set.notMem_empty table)
    (h.free_spec ht).1.2 hafter
  obtain ⟨hnodup, howned⟩ := h.owned_indirectRoot h12 hb ht hbt
  refine ⟨⟨r.blockAllocator.taking [b, table], p', indirectRoot root table, b, true, table⟩, _, ?_,
    h.placed hb (by rw [htake]) (by rw [hfree, List.length_cons, List.length_cons]; omega)
      (hbuilds'.mono subset_rfl ?_) (fun c hc => ?_) ?_
      (h.maps_indirectRoot h12 hb ht hold.symm (update_self _ _ _)) (fun _ => ht) hnodup (by rwa [htake])
      (by simp [ht0]) (by unfold indirectRoot; rfl) (indirectRoot_size root table)⟩
  · rw [growRoot, reject_bind_of_not h.not_limit, reserve_eq hfits, hfree]
    simp only [ok_bind]
    refine bind_eq_ok.mpr ⟨p, hp, ?_⟩
    simp only [if_neg (not_lt.mpr h12)]
    rw [reserve_eq (hfits.taking [b]), @BitmapAllocator.free_taking _ [b] _ hfree]
    simp only [ok_bind]
    refine bind_eq_ok.mpr ⟨p', hp', ?_⟩
    rw [taking_taking]
    rfl
  · rintro c (rfl | rfl | hc)
    · rw [Set.mem_ofPred_eq, htake]
      exact List.mem_cons_of_mem _ (List.mem_singleton_self _)
    · rw [Set.mem_ofPred_eq, htake]
      exact List.mem_cons_self
    · exact absurd hc (Set.notMem_empty c)
  · rw [htake, List.mem_cons, List.mem_singleton, not_or] at hc
    rw [update_of_ne hc.2, update_of_ne hc.1]
  · rw [update_of_ne hbt, update_self]

/-- Growing takes one free block, or two when the pointer to it is in the indirect block. -/
theorem growRoot_spec :
    ((if root.requiredBlocks < kDirectBlockCount then 1 else 2) ≤ r.blockAllocator.free.length ∧
      ∃ u released blocks table d, growRoot r root root.requiredBlocks entry = .ok u ∧
        RootPlaced r root entry u (if root.requiredBlocks < kDirectBlockCount then 1 else 2) [] released
          blocks table d) ∨
    (¬ (if root.requiredBlocks < kDirectBlockCount then 1 else 2) ≤ r.blockAllocator.free.length ∧
      growRoot r root root.requiredBlocks entry = .error noSpace) := by
  have hfits := blockAllocator_fits h.regions
  cases hfree : r.blockAllocator.free with
  | nil =>
    refine .inr ⟨by rw [List.length_nil]; split_ifs <;> omega, ?_⟩
    rw [growRoot, reject_bind_of_not h.not_limit, reserve_eq hfits, hfree]
    rfl
  | cons b rest =>
    by_cases h12 : root.requiredBlocks < kDirectBlockCount
    · obtain ⟨u, d, hu, hp⟩ := h.growRoot_direct h12 hfree
      rw [if_pos h12]
      exact .inl ⟨by rw [List.length_cons]; omega, u, _, _, _, d, hu, hp⟩
    · rw [if_neg h12]
      cases hrest : rest with
      | nil =>
        refine .inr ⟨by simp, ?_⟩
        obtain ⟨p, hp, -⟩ := editMetadataBlock_ok (r := r)
          (f := fun _ => orFail .EINVAL
            (encodeDirectoryEntry entry (UInt16.ofNat kBlockSize) (Bytes.zero kBlockSize) 0))
          (builds_empty r.image) (Set.notMem_empty b) (h.free_spec (hfree ▸ List.mem_cons_self)).1.2
          (orFail_eq_ok.mpr h.encode_entry)
        rw [growRoot, reject_bind_of_not h.not_limit, reserve_eq hfits, hfree]
        simp only [ok_bind]
        rw [hp, ok_bind]
        simp only [if_neg h12]
        rw [reserve_eq (hfits.taking [b]), @BitmapAllocator.free_taking _ [b] _ hfree, hrest]
        rfl
      | cons table rest =>
        rw [hrest] at hfree
        obtain ⟨u, d, hu, hp⟩ := h.growRoot_indirect (not_lt.mp h12) hfree
        exact .inl ⟨by rw [List.length_cons, List.length_cons]; omega, u, _, _, _, d, hu, hp⟩

end RootGrows

/-- The entry finds a place unless the root is full or free blocks are missing. -/
theorem placeEntry_spec (hr : r.superblock.Regions) (hs : r.superblock.Sound r.image)
    (hv : Readable r.superblock r.image n root) (hdir : S_ISDIR root.mode) (hnew : entry.New) :
    ((RootHasRoom r root entry ∨ root.requiredBlocks < kDirectBlockCount + kIndirectEntries) ∧
      rootDemand r root entry ≤ r.blockAllocator.free.length ∧
      ∃ u edited released blocks table d, placeEntry r root entry = .ok u ∧
        RootPlaced r root entry u (rootDemand r root entry) edited released blocks table d) ∨
    (¬ ((RootHasRoom r root entry ∨ root.requiredBlocks < kDirectBlockCount + kIndirectEntries) ∧
      rootDemand r root entry ≤ r.blockAllocator.free.length) ∧
      ∃ detail, placeEntry r root entry = .error ⟨.ENOSPC, detail⟩) := by
  have hw : root.size.toNat % 4096 = 0 := hv.whole hdir
  have hcount : root.size.toNat / kBlockSize = root.requiredBlocks := by
    show root.size.toNat / 4096 = (root.size.toNat + 4096 - 1) / 4096
    omega
  have hdec := (hs.directory n hv.allocated root hv.record hdir).decodes
  have hls : ∀ l ∈ List.range root.requiredBlocks, l < root.requiredBlocks ∧
      recordsDecode (r.image (root.pointer r.image l)) := fun l hl =>
    ⟨List.mem_range.mp hl, hdec _ (List.mem_map_of_mem hl)⟩
  unfold placeEntry
  simp only [hcount]
  rcases insertIntoRoot_spec hv hnew hls with ⟨l, hl, b', hok, hi⟩ | ⟨hok, hall⟩
  · have hroom : RootHasRoom r root entry := by
      obtain ⟨pre, x, post, hrec, -, hx, -⟩ := hi.records
      exact ⟨_, List.mem_map_of_mem hl, x, hrec ▸ List.mem_append_right _ List.mem_cons_self, hx⟩
    have hdemand : rootDemand r root entry = 0 := if_pos hroom
    rw [hok, hdemand]
    exact .inl ⟨.inl hroom, Nat.zero_le _, _, _, _, _, _, _, rfl,
      rootPlaced_inside hr hs hv hdir hnew (List.mem_range.mp hl) hi⟩
  · have hroom : ¬ RootHasRoom r root entry := by
      rintro ⟨b, hb, x, hx, hfit⟩
      obtain ⟨l, hl, rfl⟩ := List.mem_map.mp hb
      exact hall l hl x hx hfit
    have hdemand : rootDemand r root entry = if root.requiredBlocks < kDirectBlockCount then 1 else 2 := if_neg hroom
    rw [hok, ok_bind, hdemand]
    by_cases hlimit : root.requiredBlocks < kDirectBlockCount + kIndirectEntries
    · have hg : RootGrows r n root entry := ⟨hr, hs, hv, hdir, hnew, hlimit⟩
      rcases hg.growRoot_spec with ⟨hspace, u, released, blocks, table, d, hu, hp⟩ | ⟨hspace, herr⟩
      · exact .inl ⟨.inr hlimit, hspace, u, [], released, blocks, table, d, hu, hp⟩
      · exact .inr ⟨fun hc => hspace hc.2, _, herr⟩
    · refine .inr ⟨fun hc => hc.1.elim hroom hlimit, "root directory reached the v1 mapping limit", ?_⟩
      have hge : root.requiredBlocks ≥ kMaxFileSize / kBlockSize := not_lt.mp hlimit
      rw [growRoot, reject, if_pos hge]
      rfl

end Place

end Eufs
