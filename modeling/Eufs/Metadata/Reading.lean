import Eufs.Base.Folds
import Eufs.Journal.Resolve
import Eufs.Metadata.Consistent

/-!
# Eufs.Metadata.Reading — the reader on a well-formed image

The methods of `ImageReader` in terms of the tree of an image: an inode is read exactly when it is `Readable`, a file
gives its content, a directory its entries, and a path leads along the entries.
-/

namespace Eufs

open ImageReader Superblock InodeRecord

/-- What `readInode` checks. -/
structure Readable (sb : Superblock) (d : Image) (n : ℕ) (v : InodeRecord) : Prop where
  allocated : n ∈ sb.inodes d
  record : sb.inodeAt d n = some v
  mapped : v.Mapped sb d
  blocks : ∀ b ∈ v.owned d, sb.blockBit d b = true
  whole : S_ISDIR v.mode → v.size.toNat % kBlockSize = 0

namespace ImageReader

variable {r : ImageReader} {n b : ℕ} {v : InodeRecord}

theorem isInodeAllocated_iff : r.isInodeAllocated n = true ↔ n ∈ r.superblock.inodes r.image := by
  rw [mem_inodes, isInodeAllocated, Bool.and_eq_true, decide_eq_true_eq, and_assoc]
  rfl

theorem readBlock_eq_ok {x : Block} : r.readBlock b = .ok x ↔
    b < r.superblock.totalBlocks.toNat ∧ r.image b = x := by
  unfold readBlock
  rw [reject_bind_eq_ok, not_le]
  exact and_congr_right fun _ => ⟨fun h => Except.ok.inj h, fun h => congrArg Except.ok h⟩

theorem validateAllocatedDataBlock_eq_ok {u : Unit} : r.validateAllocatedDataBlock b = .ok u ↔
    (r.superblock.data.start ≤ b ∧ b < r.superblock.totalBlocks.toNat) ∧
    r.superblock.blockBit r.image b = true := by
  rw [validateAllocatedDataBlock, reject_eq_ok, isBlockAllocated, Bool.and_eq_true, decide_eq_true_eq]
  constructor
  · intro h
    rw [not_or, not_or, not_not] at h
    exact ⟨⟨by omega, by omega⟩, h.2.2.2⟩
  · rintro ⟨⟨h1, h2⟩, h3⟩ (h | h | h)
    · omega
    · omega
    · exact h ⟨h2, h3⟩

theorem checkPointer_eq_ok {sparse beyond : String} {required : Prop} [Decidable required] {u : Unit} :
    r.checkPointer sparse beyond required b = .ok u ↔ (b ≠ 0 ↔ required) ∧
      (required → (r.superblock.data.start ≤ b ∧ b < r.superblock.totalBlocks.toNat) ∧
        r.superblock.blockBit r.image b = true) := by
  unfold checkPointer
  by_cases hr : required
  · rw [if_pos hr, reject_bind_eq_ok, validateAllocatedDataBlock_eq_ok]
    simp [hr]
  · rw [if_neg hr, reject_eq_ok]
    simp [hr]

theorem checkIndirectBlock_eq_ok {u : Unit} : r.checkIndirectBlock v = .ok u ↔
    (v.indirect ≠ 0 ↔ kDirectBlockCount < v.requiredBlocks) ∧ (v.indirect ≠ 0 →
      ((r.superblock.data.start ≤ v.indirect ∧ v.indirect < r.superblock.totalBlocks.toNat) ∧
        r.superblock.blockBit r.image v.indirect = true) ∧
      ∀ k < kIndirectEntries,
      (indirectPointer (r.image v.indirect) k ≠ 0 ↔ k < v.requiredBlocks - kDirectBlockCount) ∧
        (k < v.requiredBlocks - kDirectBlockCount →
          (r.superblock.data.start ≤ indirectPointer (r.image v.indirect) k ∧
            indirectPointer (r.image v.indirect) k < r.superblock.totalBlocks.toNat) ∧
          r.superblock.blockBit r.image (indirectPointer (r.image v.indirect) k) = true)) := by
  unfold checkIndirectBlock
  by_cases hr : v.requiredBlocks ≤ kDirectBlockCount
  · rw [if_pos hr, reject_eq_ok, not_not]
    constructor
    · intro h
      exact ⟨⟨fun hc => absurd h hc, fun hc => absurd hr (not_le.mpr hc)⟩, fun hc => absurd h hc⟩
    · rintro ⟨h, -⟩
      by_contra hc
      exact absurd (h.mp hc) (not_lt.mpr hr)
  · have hlt := not_le.mp hr
    rw [if_neg hr, reject_bind_eq_ok]
    have hloop : ((List.range kIndirectEntries).forM (r.checkIndirect v) = .ok u) ↔
        ∀ k < kIndirectEntries, r.checkIndirect v k = .ok () := by
      rw [forM_eq_ok]
      simp only [List.mem_range]
    have hbind : ((do r.validateAllocatedDataBlock v.indirect; (List.range kIndirectEntries).forM (r.checkIndirect v)) =
        Except.ok u) ↔ r.validateAllocatedDataBlock v.indirect = .ok () ∧
          ((List.range kIndirectEntries).forM (r.checkIndirect v) = .ok u) := by
      rw [bind_eq_ok]
      exact ⟨fun ⟨_, h1, h2⟩ => ⟨h1, h2⟩, fun ⟨h1, h2⟩ => ⟨(), h1, h2⟩⟩
    rw [hbind, hloop, validateAllocatedDataBlock_eq_ok]
    simp only [checkIndirect, checkPointer_eq_ok]
    constructor
    · rintro ⟨h0, h1, h2⟩
      exact ⟨⟨fun _ => hlt, fun _ => h0⟩, fun _ => ⟨h1, h2⟩⟩
    · rintro ⟨h0, h⟩
      exact ⟨h0.mpr hlt, h (h0.mpr hlt)⟩

theorem readInode_eq_ok : r.readInode n = .ok v ↔ Readable r.superblock r.image n v := by
  simp only [readInode, reject_bind_eq_ok]
  constructor
  · rintro ⟨hn, ha, h⟩
    rw [not_not, isInodeAllocated_iff] at ha
    obtain ⟨w, hw, h⟩ := bind_eq_ok.mp h
    rw [orFail_eq_ok] at hw
    rw [reject_bind_eq_ok] at h
    obtain ⟨hdir, h⟩ := h
    obtain ⟨_, hd, h⟩ := bind_eq_ok.mp h
    obtain ⟨_, hi, h⟩ := bind_eq_ok.mp h
    obtain rfl : w = v := Except.ok.inj h
    have hv := (decodeInode_valid hw).1.requiredBlocks_le
    have hd : ∀ k < kDirectBlockCount, r.checkDirect w k = .ok () := by
      simpa only [List.mem_range] using forM_eq_ok.mp hd
    simp only [checkDirect, checkPointer_eq_ok] at hd
    obtain ⟨hi, hind⟩ := checkIndirectBlock_eq_ok.mp hi
    have howned : ∀ b ∈ w.owned r.image, (r.superblock.data.start ≤ b ∧ b < r.superblock.totalBlocks.toNat) ∧
        r.superblock.blockBit r.image b = true := by
      refine forall_mem_owned.mpr ⟨fun k hk => ?_, fun h0 => (hind h0).1⟩
      by_cases h12 : k < kDirectBlockCount
      · rw [pointer_of_lt h12]
        exact (hd k h12).2 hk
      · rw [pointer_of_ge (not_lt.mp h12)]
        exact ((hind (hi.mpr (by omega))).2 _ (by omega)).2 (by omega)
    refine ⟨ha, inodeAt_eq_some.mpr hw, ⟨fun k hk => (hd k hk).1, hi, fun h0 k hk => ((hind h0).2 k hk).1,
      fun b hb => (howned b hb).1⟩, fun b hb => (howned b hb).2, fun hm => ?_⟩
    by_contra hc
    exact hdir ⟨hm, hc⟩
  · intro h
    obtain ⟨h1, h2, -⟩ := mem_inodes.mp h.allocated
    have hdec := inodeAt_eq_some.mp h.record
    obtain ⟨hptr, hind⟩ := forall_mem_owned.mp fun b hb => And.intro (h.mapped.inData b hb) (h.blocks b hb)
    refine ⟨by omega, by rw [not_not]; exact isInodeAllocated_iff.mpr h.allocated, ?_⟩
    refine bind_eq_ok.mpr ⟨v, orFail_eq_ok.mpr hdec, reject_bind_eq_ok.mpr ⟨fun hc => hc.2 (h.whole hc.1), ?_⟩⟩
    refine bind_eq_ok.mpr ⟨(), forM_eq_ok.mpr fun k hk => ?_,
      bind_eq_ok.mpr ⟨(), checkIndirectBlock_eq_ok.mpr ?_, rfl⟩⟩
    · have hk := List.mem_range.mp hk
      refine checkPointer_eq_ok.mpr ⟨h.mapped.direct k hk, fun hreq => ?_⟩
      rw [← pointer_of_lt (d := r.image) hk]
      exact hptr k hreq
    · refine ⟨h.mapped.indirect,
        fun h0 => ⟨hind h0, fun k hk => ⟨h.mapped.indirectEntries h0 k hk, fun hreq => ?_⟩⟩⟩
      have := hptr (kDirectBlockCount + k) (by omega)
      rwa [pointer_of_ge (by omega), Nat.add_sub_cancel_left] at this

theorem readInode_of_not_mem (h : n ∉ r.superblock.inodes r.image) : r.readInode n =
    .error (if n = 0 ∨ n > r.superblock.totalInodes.toNat then ⟨.EINVAL, ""⟩ else ⟨.ENOENT, ""⟩) := by
  have hnot : ¬ r.isInodeAllocated n := mt isInodeAllocated_iff.mp h
  unfold readInode
  split_ifs with hrange
  · rw [reject, if_pos hrange]
    rfl
  · rw [reject_bind_of_not hrange, reject, if_pos hnot]
    rfl

/-! ## Files -/

theorem mapLogicalBlock_of_readable (h : Readable r.superblock r.image n v) {k : ℕ} (hk : k < v.requiredBlocks) :
    r.mapLogicalBlock v k = .ok (v.pointer r.image k) := by
  have hv := (decodeInode_valid (inodeAt_eq_some.mp h.record)).1.requiredBlocks_le
  obtain ⟨hptr, hind⟩ := forall_mem_owned.mp fun b hb => And.intro (h.mapped.inData b hb) (h.blocks b hb)
  have hpointer : r.logicalPointer v k = .ok (v.pointer r.image k) := by
    unfold logicalPointer
    by_cases h12 : k < kDirectBlockCount
    · rw [if_pos h12, pointer_of_lt h12]
    · have h0 := h.mapped.indirect.mpr (by omega)
      rw [if_neg h12, pointer_of_ge (not_lt.mp h12)]
      refine reject_bind_eq_ok.mpr
        ⟨?_, bind_eq_ok.mpr ⟨(), validateAllocatedDataBlock_eq_ok.mpr (hind h0), rfl⟩⟩
      rw [not_or]
      exact ⟨by omega, h0⟩
  have hne : v.pointer r.image k ≠ 0 := by
    by_cases h12 : k < kDirectBlockCount
    · rw [pointer_of_lt h12]
      exact (h.mapped.direct k h12).mpr hk
    · have h0 := h.mapped.indirect.mpr (by omega)
      rw [pointer_of_ge (not_lt.mp h12)]
      exact (h.mapped.indirectEntries h0 _ (by omega)).mpr (by omega)
  unfold mapLogicalBlock
  refine bind_eq_ok.mpr ⟨_, hpointer, reject_bind_eq_ok.mpr ⟨hne, bind_eq_ok.mpr ⟨(), ?_, rfl⟩⟩⟩
  exact validateAllocatedDataBlock_eq_ok.mpr (hptr k hk)

theorem map_range_add {α : Type} (f : ℕ → α) (a b : ℕ) :
    (List.range (a + b)).map f = (List.range a).map f ++ (List.range b).map fun k => f (a + k) := by
  rw [List.range_add, List.map_append, List.map_map]
  rfl

theorem readBytes_of_readable (h : Readable r.superblock r.image n v) (total : ℕ) : ∀ offset : ℕ,
    offset + total ≤ v.requiredBlocks * kBlockSize →
      r.readBytes v offset total = .ok ((List.range total).map fun k => v.byteAt r.image (offset + k)) := by
  induction total using Nat.strongRecOn with
  | ind total ih =>
    intro offset hle
    rw [readBytes]
    by_cases h0 : total = 0
    · rw [dif_pos h0, h0]
      rfl
    · have hb : kBlockSize = 4096 := rfl
      have hmod : offset % kBlockSize < kBlockSize := Nat.mod_lt _ (by decide)
      have hblock : offset / kBlockSize < v.requiredBlocks := by
        rw [Nat.div_lt_iff_lt_mul (by decide)]
        omega
      rw [dif_neg h0]
      generalize hchunk : min total (kBlockSize - offset % kBlockSize) = chunk
      have hsplit : total = chunk + (total - chunk) := by omega
      refine bind_eq_ok.mpr ⟨_, mapLogicalBlock_of_readable h hblock, ?_⟩
      simp only [hchunk]
      refine bind_eq_ok.mpr ⟨_, ih (total - chunk) (by omega) (offset + chunk) (by omega), ?_⟩
      conv_rhs => rw [hsplit, map_range_add]
      refine congrArg Except.ok
        (congrArg₂ (· ++ ·) (List.map_congr_left fun k hk => ?_) (List.map_congr_left fun k _ => ?_))
      · -- the chunk stays within one block
        have hk := List.mem_range.mp hk
        rw [hb] at hmod hchunk
        have hq : (offset + k) / kBlockSize = offset / kBlockSize := by
          rw [hb]
          omega
        have hr : (offset + k) % kBlockSize = offset % kBlockSize + k := by
          rw [hb]
          omega
        rw [byteAt, hq, hr]
      · rw [Nat.add_assoc]

theorem drop_take_map_range {α : Type} (f : ℕ → α) (size offset count : ℕ) :
    (((List.range size).map f).drop offset).take count =
      (List.range (min count (size - offset))).map fun k => f (offset + k) := by
  refine List.ext_getElem? fun i => ?_
  rw [List.getElem?_take, List.getElem?_drop, List.getElem?_map, List.getElem?_map]
  by_cases hi : i < count
  · by_cases hs : offset + i < size
    · rw [if_pos hi, List.getElem?_range hs, List.getElem?_range (by omega)]
      rfl
    · rw [if_pos hi, List.getElem?_eq_none (by simp; omega), List.getElem?_eq_none (by simp; omega)]
      rfl
  · rw [if_neg hi, List.getElem?_eq_none (by simp; omega)]
    rfl

/-- Reading a file gives the bytes of its content from the offset on, as many as there are. -/
theorem readFile_of_readable (h : Readable r.superblock r.image n v) (hreg : S_ISREG v.mode) (offset requested : ℕ) :
    r.readFile n offset requested = .ok (((v.content r.image).drop offset).take requested) := by
  unfold readFile
  refine bind_eq_ok.mpr ⟨v, readInode_eq_ok.mpr h, reject_bind_eq_ok.mpr ⟨not_not.mpr hreg, ?_⟩⟩
  rw [content, drop_take_map_range]
  by_cases hend : offset ≥ v.size.toNat ∨ requested = 0
  · rw [if_pos hend, show min requested (v.size.toNat - offset) = 0 by omega]
    rfl
  · rw [if_neg hend]
    refine readBytes_of_readable h _ _ ?_
    show offset + min requested (v.size.toNat - offset) ≤ (v.size.toNat + 4096 - 1) / 4096 * 4096
    omega

theorem readFile_of_error {e : Failure} (h : r.readInode n = .error e) (offset requested : ℕ) :
    r.readFile n offset requested = .error e := by
  rw [readFile, h]
  rfl

theorem readFile_of_not_reg (h : r.readInode n = .ok v) (hreg : ¬ S_ISREG v.mode) (offset requested : ℕ) :
    r.readFile n offset requested = .error ⟨.EISDIR, ""⟩ := by
  rw [readFile, h, ok_bind, reject, if_pos hreg]
  rfl

theorem listDirectory_of_error {e : Failure} (h : r.readInode n = .error e) : r.listDirectory n = .error e := by
  rw [listDirectory, h]
  rfl

theorem listDirectory_of_not_dir (h : r.readInode n = .ok v) (hdir : ¬ S_ISDIR v.mode) :
    r.listDirectory n = .error ⟨.ENOTDIR, ""⟩ := by
  rw [listDirectory, h, ok_bind, reject, if_pos hdir]
  rfl

/-! ## Directories -/

/-- The target of an entry can be read and has the stated type. -/
def TargetOk (sb : Superblock) (d : Image) (e : DirectoryEntry) : Prop :=
  ∃ w, Readable sb d e.inode.toNat w ∧ isDirectoryType e.fileType w.mode

theorem visitEntries_of_ok : ∀ {es entries : List DirectoryEntry},
    ((entries ++ activeRecords es).map DirectoryEntry.name).Nodup →
    (∀ e ∈ activeRecords es, TargetOk r.superblock r.image e) →
      es.foldlM r.visitEntry entries = .ok (entries ++ activeRecords es)
  | [], entries, _, _ => by
    rw [activeRecords, List.filter_nil, List.append_nil]
    rfl
  | e :: es, entries, hn, ht => by
    rw [List.foldlM_cons]
    by_cases h0 : e.inode = 0
    · rw [activeRecords_cons_of_free h0] at hn ht ⊢
      have hstep : r.visitEntry entries e = .ok entries := if_pos h0
      rw [hstep, ok_bind, visitEntries_of_ok hn ht]
    · rw [activeRecords_cons_of_ne h0] at hn ht ⊢
      obtain ⟨⟨w, hw, hty⟩, ht⟩ := List.forall_mem_cons.mp ht
      have hname : e.name ∉ entries.map DirectoryEntry.name := by
        rw [List.map_append, List.map_cons] at hn
        exact fun hc => (List.nodup_append.mp hn).2.2 _ hc _ List.mem_cons_self rfl
      have hchild : r.readChild e.inode.toNat = .ok w := by
        rw [readChild, readInode_eq_ok.mpr hw]
      have hstep : r.visitEntry entries e = .ok (entries ++ [e]) := by
        unfold visitEntry
        rw [if_neg h0]
        exact reject_bind_eq_ok.mpr
          ⟨hname, bind_eq_ok.mpr ⟨w, hchild, reject_bind_eq_ok.mpr ⟨not_not.mpr hty, rfl⟩⟩⟩
      rw [hstep, ok_bind, visitEntries_of_ok (by rwa [List.append_assoc]) ht, List.append_assoc]
      rfl

/-- A directory that can be listed. -/
structure Listable (sb : Superblock) (d : Image) (v : InodeRecord) : Prop where
  decodes : ∀ b ∈ v.blocks d, recordsDecode (d b)
  names : ((v.entries d).map DirectoryEntry.name).Nodup
  targets : ∀ e ∈ v.entries d, TargetOk sb d e

theorem visitBlocks_of_ok (h : Readable r.superblock r.image n v) : ∀ {l : List ℕ} {entries : List DirectoryEntry},
    (∀ k ∈ l, k < v.requiredBlocks ∧ recordsDecode (r.image (v.pointer r.image k))) →
    ((entries ++ l.flatMap fun k => activeEntries (r.image (v.pointer r.image k))).map DirectoryEntry.name).Nodup →
    (∀ e ∈ l.flatMap fun k => activeEntries (r.image (v.pointer r.image k)), TargetOk r.superblock r.image e) →
      l.foldlM (r.visitBlock v) entries =
        .ok (entries ++ l.flatMap fun k => activeEntries (r.image (v.pointer r.image k)))
  | [], entries, _, _, _ => by
    rw [List.flatMap_nil, List.append_nil]
    rfl
  | k :: l, entries, hl, hn, ht => by
    obtain ⟨⟨hk, hdec⟩, hl⟩ := List.forall_mem_cons.mp hl
    rw [List.flatMap_cons] at hn ht ⊢
    obtain ⟨ht1, ht2⟩ := List.forall_mem_append.mp ht
    rw [← List.append_assoc] at hn ⊢
    have hn1 : ((entries ++ activeEntries (r.image (v.pointer r.image k))).map DirectoryEntry.name).Nodup := by
      rw [List.map_append] at hn
      exact (List.nodup_append.mp hn).1
    have hstep : r.visitBlock v entries k = .ok (entries ++ activeEntries (r.image (v.pointer r.image k))) := by
      unfold visitBlock visitRecords
      refine bind_eq_ok.mpr ⟨_, mapLogicalBlock_of_readable h hk, ?_⟩
      rw [blockRecords_text _ ""]
      refine bind_eq_ok.mpr ⟨entries ++ activeEntries (r.image (v.pointer r.image k)), ?_, ?_⟩
      · rw [← List.foldlM_map]
        exact visitEntries_of_ok hn1 ht1
      · rw [show (blockRecords "" (r.image (v.pointer r.image k)) 0).2 = none from hdec]
        rfl
    rw [List.foldlM_cons, hstep, ok_bind, visitBlocks_of_ok h hl hn ht2]

theorem listDirectory_of_listable (h : Readable r.superblock r.image n v) (hdir : S_ISDIR v.mode)
    (hl : Listable r.superblock r.image v) : r.listDirectory n = .ok (v.entries r.image) := by
  have hblocks : v.size.toNat / kBlockSize = v.requiredBlocks := by
    have hw : v.size.toNat % 4096 = 0 := h.whole hdir
    show v.size.toNat / 4096 = (v.size.toNat + 4096 - 1) / 4096
    omega
  have hentries : v.entries r.image = (List.range v.requiredBlocks).flatMap fun k =>
      activeEntries (r.image (v.pointer r.image k)) := by
    rw [entries, blocks, List.flatMap_map]
  unfold listDirectory
  refine bind_eq_ok.mpr ⟨v, readInode_eq_ok.mpr h, reject_bind_eq_ok.mpr ⟨not_not.mpr hdir, ?_⟩⟩
  rw [hblocks, hentries]
  refine (visitBlocks_of_ok h (fun k hk => ⟨List.mem_range.mp hk, hl.decodes _ ?_⟩) ?_ ?_)
  · exact List.mem_map_of_mem hk
  · rw [List.nil_append, ← hentries]
    exact hl.names
  · rw [← hentries]
    exact hl.targets

/-! ## Paths -/

/-- The bytes of an absolute path with these components. -/
def pathOf (names : List Name) : List UInt8 := 47 :: [47].intercalate names

theorem pathOf_singleton (name : Name) : pathOf [name] = 47 :: name := by
  rw [pathOf, List.intercalate_singleton]

theorem valid_of_mem_entries {e : DirectoryEntry} {d : Image} (h : e ∈ v.entries d) : isValidName e.name := by
  obtain ⟨b, -, he⟩ := List.mem_flatMap.mp h
  exact (valid_of_mem_activeEntries he).2.2

theorem resolveComponent_of_mem (h : Readable r.superblock r.image n v) (hdir : S_ISDIR v.mode)
    (hl : Listable r.superblock r.image v) {e : DirectoryEntry} (he : e ∈ v.entries r.image) :
    r.resolveComponent n e.name = .ok e.inode.toNat := by
  obtain ⟨h1, h2, h3, -⟩ := valid_of_mem_entries he
  have hfind : (v.entries r.image).find? (fun x => x.name = e.name) = some e := by
    obtain ⟨x, hx⟩ : ∃ x, (v.entries r.image).find? (fun x => x.name = e.name) = some x :=
      Option.isSome_iff_exists.mp (List.find?_isSome.mpr ⟨e, he, by simp⟩)
    have hname : x.name = e.name := by simpa using List.find?_some hx
    rw [hx, List.inj_on_of_nodup_map hl.names (List.mem_of_find?_eq_some hx) he hname]
  unfold resolveComponent
  refine reject_bind_eq_ok.mpr
    ⟨by simp [h1, h2, h3], bind_eq_ok.mpr ⟨_, listDirectory_of_listable h hdir hl, ?_⟩⟩
  rw [hfind]
  rfl

/-- Names along a way down the tree. -/
inductive Leads (sb : Superblock) (d : Image) : ℕ → List Name → ℕ → Prop
  | here (n : ℕ) : Leads sb d n [] n
  | down {n m k : ℕ} {v : InodeRecord} {e : DirectoryEntry} {names : List Name} (hr : Readable sb d n v)
      (hdir : S_ISDIR v.mode) (hl : Listable sb d v) (he : e ∈ v.entries d) (hm : e.inode.toNat = m)
      (h : Leads sb d m names k) : Leads sb d n (e.name :: names) k

theorem resolve_of_leads {names : List Name} {m : ℕ} (h : Leads r.superblock r.image n names m) :
    names.foldlM r.resolveComponent n = .ok m ∧ ∀ name ∈ names, isValidName name := by
  induction h with
  | here n => exact ⟨rfl, fun _ h => absurd h List.not_mem_nil⟩
  | down hr hdir hl he hm _ ih =>
    subst hm
    rw [List.foldlM_cons, resolveComponent_of_mem hr hdir hl he, ok_bind]
    exact ⟨ih.1, List.forall_mem_cons.mpr ⟨valid_of_mem_entries he, ih.2⟩⟩

theorem intercalate_getLast : ∀ {names : List Name}, names ≠ [] → (∀ name ∈ names, isValidName name) →
    ∃ c, c ≠ 47 ∧ ([47].intercalate names).getLast? = some c
  | [], h, _ => absurd rfl h
  | [name], _, hv => by
    obtain ⟨h0, -, -, -, h47, -⟩ := hv name (List.mem_singleton_self name)
    refine ⟨name.getLast h0, fun hc => h47 (hc ▸ List.getLast_mem h0), ?_⟩
    rw [List.intercalate_singleton]
    exact List.getLast?_eq_some_getLast h0
  | name :: next :: rest, _, hv => by
    obtain ⟨c, hc, hlast⟩ := intercalate_getLast (List.cons_ne_nil next rest)
      fun x hx => hv x (List.mem_cons_of_mem _ hx)
    refine ⟨c, hc, ?_⟩
    rw [List.intercalate_cons_cons, List.getLast?_append, hlast]
    rfl

theorem resolvePath_pathOf {names : List Name} (hne : names ≠ [])
    (h : Leads r.superblock r.image r.superblock.rootInode.toNat names n) (hr : Readable r.superblock r.image n v) :
    r.resolvePath (pathOf names) = .ok (n, v) := by
  obtain ⟨hfold, hvalid⟩ := resolve_of_leads h
  obtain ⟨c, hc, hlast⟩ := intercalate_getLast hne hvalid
  have hbody : [47].intercalate names ≠ [] := fun h0 => by simp [h0] at hlast
  have hsplit : (pathOf names).tail.splitOn 47 = names :=
    List.splitOn_intercalate 47 (fun name hn => (hvalid name hn).2.2.2.2.1) hne
  have hend : (pathOf names).getLast? = some c := by
    rw [pathOf, List.getLast?_cons, hlast]
    rfl
  unfold resolvePath
  refine reject_bind_eq_ok.mpr ⟨by simp [pathOf], ?_⟩
  rw [if_neg (by simpa [pathOf] using hbody), reject_bind_eq_ok, hend, hsplit]
  refine ⟨by simpa using hc, bind_eq_ok.mpr ⟨n, hfold, bind_eq_ok.mpr ⟨v, readInode_eq_ok.mpr hr, rfl⟩⟩⟩

theorem resolvePath_root (hr : Readable r.superblock r.image r.superblock.rootInode.toNat v) :
    r.resolvePath [47] = .ok (r.superblock.rootInode.toNat, v) := by
  unfold resolvePath
  refine reject_bind_eq_ok.mpr ⟨by simp, ?_⟩
  rw [if_pos rfl]
  exact bind_eq_ok.mpr ⟨v, readInode_eq_ok.mpr hr, rfl⟩

theorem readable_of_resolvePath {path : List UInt8} (h : r.resolvePath path = .ok (n, v)) :
    Readable r.superblock r.image n v := by
  unfold resolvePath at h
  obtain ⟨-, h⟩ := reject_bind_eq_ok.mp h
  dsimp only at h
  split_ifs at h
  · obtain ⟨w, hw, h⟩ := bind_eq_ok.mp h
    cases h
    exact readInode_eq_ok.mp hw
  · obtain ⟨-, h⟩ := reject_bind_eq_ok.mp h
    obtain ⟨m, -, h⟩ := bind_eq_ok.mp h
    obtain ⟨w, hw, h⟩ := bind_eq_ok.mp h
    cases h
    exact readInode_eq_ok.mp hw

end ImageReader

/-! ## Opening -/

/-- What `adoptLockedFd` checks beyond the superblock and the journal. -/
structure Superblock.Adoptable (sb : Superblock) (d : Image) : Prop extends sb.Reserved d where
  root : ∃ v, Readable sb d sb.rootInode.toNat v ∧ S_ISDIR v.mode

namespace ImageReader

variable {r : ImageReader} {d : Image} {blocks : ℕ}

theorem checkBitmaps_eq_ok {u : Unit} : r.checkBitmaps = .ok u ↔
    r.superblock.inodeBit r.image r.superblock.rootInode.toNat ∧ r.superblock.Reserved r.image := by
  simp only [checkBitmaps, reject_bind_eq_ok, reject_eq_ok, not_not, reserved_iff]
  rfl

theorem checkRoot_eq_ok {u : Unit} : r.checkRoot = .ok u ↔
    ∃ v, Readable r.superblock r.image r.superblock.rootInode.toNat v ∧ S_ISDIR v.mode := by
  unfold checkRoot
  constructor
  · intro h
    dsimp only at h
    split at h
    · cases h
    · obtain ⟨v, hv, h⟩ := bind_eq_ok.mp h
      exact ⟨v, readInode_eq_ok.mp hv, not_not.mp (reject_eq_ok.mp h)⟩
  · rintro ⟨v, hv, hdir⟩
    rw [readInode_eq_ok.mpr hv]
    exact bind_eq_ok.mpr ⟨v, rfl, reject_eq_ok.mpr (not_not.mpr hdir)⟩

/-- An image is accepted for reading exactly when its journal opens, its bitmaps mark what they must and its root is a
directory that can be read. -/
theorem adoptLockedFd_eq_ok : adoptLockedFd blocks d = .ok r ↔
    r.image = d ∧ Opens blocks d r.superblock r.journalControl r.journalControlCopy ∧ r.superblock.Adoptable d := by
  unfold adoptLockedFd
  constructor
  · intro h
    obtain ⟨-, h⟩ := reject_bind_eq_ok.mp h
    obtain ⟨sb, hsb, h⟩ := bind_eq_ok.mp h
    obtain ⟨hfeat, h⟩ := reject_bind_eq_ok.mp h
    obtain ⟨hsize, h⟩ := reject_bind_eq_ok.mp h
    obtain ⟨selected, hsel, h⟩ := bind_eq_ok.mp h
    obtain ⟨_, hbits, h⟩ := bind_eq_ok.mp h
    obtain ⟨_, hroot, h⟩ := bind_eq_ok.mp h
    cases h
    exact ⟨rfl, ⟨orFail_eq_ok.mp hsb, not_not.mp hfeat, (not_not.mp hsize).symm, orFail_eq_ok.mp hsel⟩,
      ⟨(checkBitmaps_eq_ok.mp hbits).2, checkRoot_eq_ok.mp hroot⟩⟩
  · rintro ⟨rfl, ho, ha⟩
    have hpos : blocks ≠ 0 := by
      have := ho.regions.total
      have := ho.size
      omega
    obtain ⟨v, hv, hdir⟩ := ha.root
    have hbit : r.superblock.inodeBit r.image r.superblock.rootInode.toNat := (mem_inodes.mp hv.allocated).2.2
    refine reject_bind_eq_ok.mpr ⟨hpos, bind_eq_ok.mpr ⟨_, orFail_eq_ok.mpr ho.superblock, ?_⟩⟩
    refine reject_bind_eq_ok.mpr ⟨not_not.mpr ho.features, reject_bind_eq_ok.mpr ⟨not_not.mpr ho.size.symm, ?_⟩⟩
    refine bind_eq_ok.mpr ⟨_, orFail_eq_ok.mpr ho.selected, ?_⟩
    refine bind_eq_ok.mpr ⟨(), checkBitmaps_eq_ok.mpr ⟨hbit, ha.toReserved⟩, ?_⟩
    exact bind_eq_ok.mpr ⟨(), checkRoot_eq_ok.mpr ⟨v, hv, hdir⟩, rfl⟩

end ImageReader

/-! ## Sound images -/

namespace Superblock.Sound

variable {sb : Superblock} {d : Image} {n : ℕ} {v : InodeRecord}

theorem readable (h : sb.Sound d) (hn : n ∈ sb.inodes d) (hv : sb.inodeAt d n = some v) : Readable sb d n v := by
  obtain ⟨w, hw, hm⟩ := h.inode n hn
  obtain rfl : w = v := Option.some.inj (hw.symm.trans hv)
  refine ⟨hn, hv, hm, fun b hb => ?_, fun hd => (h.directory n hn w hv hd).size⟩
  obtain ⟨h1, h2⟩ := hm.inData b hb
  refine (h.referenced b h1 h2).mpr (List.mem_flatMap.mpr ⟨n, hn, ?_⟩)
  rw [ownedBy, hv]
  exact hb

theorem exists_readable (h : sb.Sound d) (hn : n ∈ sb.inodes d) : ∃ v, Readable sb d n v := by
  obtain ⟨v, hv, -⟩ := h.inode n hn
  exact ⟨v, h.readable hn hv⟩

theorem listable (h : sb.Sound d) (hn : n ∈ sb.inodes d) (hv : sb.inodeAt d n = some v) (hd : S_ISDIR v.mode) :
    ImageReader.Listable sb d v := by
  have hdir := h.directory n hn v hv hd
  refine ⟨hdir.decodes, hdir.names, fun e he => ?_⟩
  obtain ⟨hm, w, hw, hty⟩ := hdir.targets e he
  exact ⟨w, h.readable hm hw, hty⟩

theorem exists_leads (h : sb.Sound d) (hn : Relation.ReflTransGen (sb.Contains d) sb.rootInode.toNat n) :
    ∃ names, ImageReader.Leads sb d sb.rootInode.toNat names n := by
  refine Relation.ReflTransGen.head_induction_on hn ⟨[], .here n⟩ fun {a b} hab _ ih => ?_
  obtain ⟨names, ih⟩ := ih
  obtain ⟨ha, e, he, hb⟩ := hab
  obtain ⟨v, hv⟩ := h.exists_readable ha
  rw [entriesOf, hv.record] at he
  by_cases hd : S_ISDIR v.mode
  · rw [Option.map_some, Option.getD_some, if_pos hd] at he
    exact ⟨_, .down hv hd (h.listable ha hv.record hd) he hb ih⟩
  · rw [Option.map_some, Option.getD_some, if_neg hd] at he
    exact absurd he List.not_mem_nil

theorem exists_path (h : sb.Sound d) (c : JournalControl) (copy : ControlCopy) (hr : Readable sb d n v) :
    ∃ path, (⟨d, sb, c, copy⟩ : ImageReader).resolvePath path = .ok (n, v) := by
  by_cases hroot : n = sb.rootInode.toNat
  · subst hroot
    exact ⟨_, resolvePath_root hr⟩
  · obtain ⟨names, hl⟩ := h.exists_leads (h.named n hr.allocated hroot).2
    refine ⟨_, resolvePath_pathOf ?_ hl hr⟩
    rintro rfl
    cases hl
    exact hroot rfl

theorem adoptable (h : sb.Sound d) : sb.Adoptable d := by
  obtain ⟨v, hv⟩ := h.exists_readable h.root.1
  have hdir : S_ISDIR v.mode := by
    have := h.root.2
    rw [isDirectory, hv.record] at this
    simpa using this
  exact ⟨h.toReserved, v, hv, hdir⟩

theorem adoptLockedFd {blocks : ℕ} {c : JournalControl} {copy : ControlCopy} (h : sb.Sound d)
    (ho : Opens blocks d sb c copy) : ImageReader.adoptLockedFd blocks d = .ok ⟨d, sb, c, copy⟩ :=
  adoptLockedFd_eq_ok.mpr ⟨rfl, ho, h.adoptable⟩

end Superblock.Sound

end Eufs
