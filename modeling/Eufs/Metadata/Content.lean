import Eufs.Metadata.Frame

/-!
# Eufs.Metadata.Content — new contents in the same tree

Two images have the same tree when they have the same inodes with the same types and link counts and the same
directories (`Superblock.SameTree`).  The clauses of soundness about the tree then go over from one image to the
other; what is left are those about the bitmaps and the blocks.

An image that agrees with a sound one on its bitmaps, its inode table, its indirect blocks and its directories is sound,
whatever its files hold (`Superblock.KeepsTree`).
-/

namespace Eufs

open Function InodeRecord

namespace Superblock

theorem Sound.entry_target {sb : Superblock} {d : Image} (hs : sb.Sound d) {n : ℕ} {e : DirectoryEntry}
    (hn : n ∈ sb.inodes d) (he : e ∈ sb.entriesOf d n) : e.inode.toNat ∈ sb.inodes d ∧
      ∃ w, sb.inodeAt d e.inode.toNat = some w ∧ isDirectoryType e.fileType w.mode := by
  obtain ⟨v, hv, -⟩ := hs.inode n hn
  rw [entriesOf_of_record hv] at he
  split_ifs at he with hdir
  · exact (hs.directory n hn v hv hdir).targets e he
  · exact absurd he List.not_mem_nil

/-- The same inodes, types and directories; the blocks and contents of files may differ. -/
structure SameTree (sb : Superblock) (d d' : Image) : Prop where
  inodes : sb.inodes d' = sb.inodes d
  record : ∀ n ∈ sb.inodes d, ∀ v, sb.inodeAt d n = some v →
    ∃ w, sb.inodeAt d' n = some w ∧ w.Mapped sb d' ∧ w.mode = v.mode ∧ w.linkCount = v.linkCount
  directory : ∀ n ∈ sb.inodes d, ∀ v, sb.inodeAt d n = some v → S_ISDIR v.mode →
    sb.inodeAt d' n = some v ∧ v.blocks d' = v.blocks d ∧ ∀ b ∈ v.blocks d, d' b = d b

namespace SameTree

variable {sb : Superblock} {d d' : Image} {n : ℕ} {v : InodeRecord} (h : sb.SameTree d d') (hs : sb.Sound d)

include h

theorem entries_eq (hn : n ∈ sb.inodes d) (hv : sb.inodeAt d n = some v) (hdir : S_ISDIR v.mode) :
    v.entries d' = v.entries d := by
  obtain ⟨-, hblocks, hd⟩ := h.directory n hn v hv hdir
  rw [entries, entries, hblocks]
  exact List.flatMap_congr fun b hb => by rw [hd b hb]

include hs

theorem isDirectory_eq (hn : n ∈ sb.inodes d) : sb.isDirectory d' n = sb.isDirectory d n := by
  obtain ⟨v, hv, -⟩ := hs.inode n hn
  obtain ⟨w, hw, -, hmode, -⟩ := h.record n hn v hv
  rw [isDirectory_of_record hv, isDirectory_of_record hw, hmode]

theorem entriesOf_eq (hn : n ∈ sb.inodes d) : sb.entriesOf d' n = sb.entriesOf d n := by
  obtain ⟨v, hv, -⟩ := hs.inode n hn
  obtain ⟨w, hw, -, hmode, -⟩ := h.record n hn v hv
  rw [entriesOf_of_record hw, entriesOf_of_record hv, hmode]
  split_ifs with hdir
  · obtain rfl : v = w := Option.some.inj ((h.directory n hn v hv hdir).1.symm.trans hw)
    exact h.entries_eq hn hv hdir
  · rfl

theorem allEntries_eq : sb.allEntries d' = sb.allEntries d := by
  rw [allEntries, allEntries, h.inodes]
  exact List.flatMap_congr fun m hm => h.entriesOf_eq hs hm

theorem entriesTo_eq (m : ℕ) : sb.entriesTo d' m = sb.entriesTo d m := by
  rw [entriesTo, entriesTo, h.allEntries_eq hs]

theorem contains_eq : sb.Contains d' = sb.Contains d := by
  funext a b
  refine propext ?_
  rw [Contains, Contains, h.inodes]
  exact and_congr_right fun ha => by rw [h.entriesOf_eq hs ha]

theorem childDirectories_eq (hn : n ∈ sb.inodes d) : sb.childDirectories d' n = sb.childDirectories d n := by
  rw [childDirectories, childDirectories, h.entriesOf_eq hs hn]
  refine List.countP_congr fun e he => ?_
  rw [h.isDirectory_eq hs (hs.entry_target hn he).1]

theorem directoryOk (hn : n ∈ sb.inodes d) (hv : sb.inodeAt d n = some v) (hdir : S_ISDIR v.mode) :
    sb.DirectoryOk d' v := by
  obtain ⟨-, hblocks, hd⟩ := h.directory n hn v hv hdir
  have hok := hs.directory n hn v hv hdir
  have hentries := h.entries_eq hn hv hdir
  refine ⟨hok.size, fun b hb => ?_, by rw [hentries]; exact hok.names, fun e he => ?_⟩
  · rw [hblocks] at hb
    rw [hd b hb]
    exact hok.decodes b hb
  · rw [hentries] at he
    obtain ⟨hmem, w, hw, htype⟩ := hok.targets e he
    obtain ⟨w', hw', -, hmode, -⟩ := h.record _ hmem w hw
    rw [h.inodes]
    exact ⟨hmem, w', hw', by rw [hmode]; exact htype⟩

/-- An image with the same tree is sound when its bitmaps agree with its blocks. -/
theorem sound (hreserved : sb.Reserved d')
    (hreferenced : ∀ b, sb.data.start ≤ b → b < sb.totalBlocks.toNat →
      (sb.blockBit d' b ↔ b ∈ sb.references d'))
    (honce : (sb.references d').Nodup) : sb.Sound d' := by
  refine ⟨hreserved, fun n hn => ?_, hreferenced, honce, fun n hn w hw hdir => ?_, ?_, ?_,
    fun n hn hroot => ?_, fun n hn w hw => ?_⟩
  · rw [h.inodes] at hn
    obtain ⟨v, hv, -⟩ := hs.inode n hn
    obtain ⟨w, hw, hm, -⟩ := h.record n hn v hv
    exact ⟨w, hw, hm⟩
  · rw [h.inodes] at hn
    obtain ⟨v, hv, -⟩ := hs.inode n hn
    obtain ⟨w', hw', -, hmode, -⟩ := h.record n hn v hv
    obtain rfl : w' = w := Option.some.inj (hw'.symm.trans hw)
    rw [hmode] at hdir
    obtain rfl : v = w' := Option.some.inj ((h.directory n hn v hv hdir).1.symm.trans hw)
    exact h.directoryOk hs hn hv hdir
  · rw [h.inodes, h.isDirectory_eq hs hs.root.1]
    exact hs.root
  · rw [h.allEntries_eq hs]
    exact hs.rootTop
  · rw [h.inodes] at hn
    rw [h.entriesTo_eq hs, h.contains_eq hs]
    exact hs.named n hn hroot
  · rw [h.inodes] at hn
    obtain ⟨v, hv, -⟩ := hs.inode n hn
    obtain ⟨w', hw', -, hmode, hlinks⟩ := h.record n hn v hv
    obtain rfl : w' = w := Option.some.inj (hw'.symm.trans hw)
    rw [h.entriesTo_eq hs, h.childDirectories_eq hs hn, hlinks, hmode]
    exact hs.links n hn v hv

end SameTree

/-- The images differ in the superblock, in the journal and in the contents of files at most. -/
structure KeepsTree (sb : Superblock) (d d' : Image) : Prop where
  metadata : ∀ b, 0 < b → b < sb.data.start → ¬ blockIsInRegion b sb.journal → d' b = d b
  indirect : ∀ n ∈ sb.inodes d, ∀ v, sb.inodeAt d n = some v → v.indirect ≠ 0 → d' v.indirect = d v.indirect
  directories : ∀ n ∈ sb.inodes d, ∀ v, sb.inodeAt d n = some v → S_ISDIR v.mode →
    ∀ b ∈ v.blocks d, d' b = d b

namespace KeepsTree

variable {sb : Superblock} {d d' : Image} {n : ℕ} {v : InodeRecord} (h : sb.KeepsTree d d') (hr : sb.Regions)

include h hr

/-! ## Bitmaps and records -/

theorem control_eq {b : ℕ} (h1 : sb.inodeBitmap.start ≤ b) (h2 : b < sb.journal.start) : d' b = d b := by
  obtain ⟨e1, e2, e3, e4, h5, h6, h7, h8⟩ := hr.chain
  refine h.metadata b (by omega) (by omega) fun hc => ?_
  have := hc.1
  omega

theorem inodeBits_eq {k : ℕ} (hk : k < sb.inodeBitmap.count * kBlockSize * 8) :
    (loadBitmap d' sb.inodeBitmap.start).testBit k = (loadBitmap d sb.inodeBitmap.start).testBit k := by
  obtain ⟨h1, h2, h3, h4, h5, h6, h7, h8⟩ := hr.chain
  exact testBit_loadBitmap_congr (fun j hj => h.control_eq hr (by omega) (by omega)) hk

theorem blockBit_eq {b : ℕ} (hb : b < sb.blockBitmap.count * kBlockSize * 8) :
    sb.blockBit d' b = sb.blockBit d b := by
  obtain ⟨h1, h2, h3, h4, h5, h6, h7, h8⟩ := hr.chain
  exact testBit_loadBitmap_congr (fun j hj => h.control_eq hr (by omega) (by omega)) hb

theorem inodes_eq : sb.inodes d' = sb.inodes d := by
  refine List.filter_congr fun m hm => ?_
  obtain ⟨k, hk, rfl⟩ := List.mem_map.mp hm
  have := List.mem_range.mp hk
  exact h.inodeBits_eq hr (lt_of_lt_of_le (by omega) hr.inodes_le)

theorem slot_eq (hn : n ∈ sb.inodes d) : inodeSlot sb d' n = inodeSlot sb d n := by
  obtain ⟨e1, e2, e3, -, h5, h6, -, -⟩ := hr.chain
  obtain ⟨h1, h2, -⟩ := mem_inodes.mp hn
  obtain ⟨⟨hge, hlt⟩, -⟩ := hr.offsetsInside.inode n h1 h2
  rw [inodeSlot, inodeSlot, h.control_eq hr (by omega) (by omega)]

theorem inodeAt_eq (hn : n ∈ sb.inodes d) : sb.inodeAt d' n = sb.inodeAt d n := inodeAt_of_slot (h.slot_eq hr hn)

omit hr

/-! ## Blocks and entries -/

section

variable (hn : n ∈ sb.inodes d) (hv : sb.inodeAt d n = some v) (hm : v.Mapped sb d)

include hn hv hm

theorem pointer_eq {k : ℕ} (hk : k < v.requiredBlocks) : v.pointer d' k = v.pointer d k := by
  by_cases h12 : k < kDirectBlockCount
  · rw [pointer_of_lt h12, pointer_of_lt h12]
  · have h12 := not_lt.mp h12
    rw [pointer_of_ge h12, pointer_of_ge h12, h.indirect n hn v hv (hm.indirect_mem h12 hk).1]

theorem blocks_eq : v.blocks d' = v.blocks d :=
  List.map_congr_left fun _ hk => h.pointer_eq hn hv hm (List.mem_range.mp hk)

theorem owned_eq : v.owned d' = v.owned d := by
  rw [owned, owned, h.blocks_eq hn hv hm]

theorem mapped : v.Mapped sb d' := by
  refine ⟨hm.direct, hm.indirect, fun h0 k hk => ?_, fun b hb => ?_⟩
  · rw [h.indirect n hn v hv h0]
    exact hm.indirectEntries h0 k hk
  · rw [h.owned_eq hn hv hm] at hb
    exact hm.inData b hb

end

variable (hs : sb.Sound d)

include hr hs

theorem sameTree : sb.SameTree d d' := by
  refine ⟨h.inodes_eq hr, fun n hn v hv => ?_, fun n hn v hv hdir => ?_⟩
  · obtain ⟨w, hw, hm⟩ := hs.inode n hn
    obtain rfl : w = v := Option.some.inj (hw.symm.trans hv)
    exact ⟨w, (h.inodeAt_eq hr hn).trans hv, h.mapped hn hv hm, rfl, rfl⟩
  · obtain ⟨w, hw, hm⟩ := hs.inode n hn
    obtain rfl : w = v := Option.some.inj (hw.symm.trans hv)
    exact ⟨(h.inodeAt_eq hr hn).trans hv, h.blocks_eq hn hv hm, h.directories n hn w hv hdir⟩

theorem entriesOf_eq (hn : n ∈ sb.inodes d) : sb.entriesOf d' n = sb.entriesOf d n :=
  (h.sameTree hr hs).entriesOf_eq hs hn

theorem references_eq : sb.references d' = sb.references d := by
  rw [references, references, h.inodes_eq hr]
  refine List.flatMap_congr fun n hn => ?_
  obtain ⟨v, hv, hm⟩ := hs.inode n hn
  rw [ownedBy_of_record ((h.inodeAt_eq hr hn).trans hv), ownedBy_of_record hv, h.owned_eq hn hv hm]

theorem sound : sb.Sound d' := by
  obtain ⟨-, -, -, -, -, -, -, h8⟩ := hr.chain
  have hle := hr.blocks_le
  refine (h.sameTree hr hs).sound hs ⟨fun b hb => ?_, fun k hk hge => ?_, fun k hk hge => ?_⟩ (fun b h1 h2 => ?_) ?_
  · rw [h.blockBit_eq hr (by omega)]
    exact hs.metadata b hb
  · rw [h.inodeBits_eq hr hk]
    exact hs.inodeTail k hk hge
  · rw [h.blockBit_eq hr hk]
    exact hs.blockTail k hk hge
  · rw [h.blockBit_eq hr (by omega), h.references_eq hr hs]
    exact hs.referenced b h1 h2
  · rw [h.references_eq hr hs]
    exact hs.once

end KeepsTree

theorem Sound.keepsTree_update {sb : Superblock} {d : Image} {n b : ℕ} {v : InodeRecord} (hs : sb.Sound d)
    (hn : n ∈ sb.inodes d) (hv : sb.inodeAt d n = some v) (hdir : ¬ S_ISDIR v.mode)
    (hb : b ∈ v.blocks d) (x : Block) : sb.KeepsTree d (update d b x) := by
  have howned : b ∈ sb.ownedBy d n := by
    rw [ownedBy_of_record hv]
    exact List.mem_append_left _ hb
  -- a block another inode uses is not the one written
  have hother : ∀ m ∈ sb.inodes d, ∀ w, sb.inodeAt d m = some w → m ≠ n → ∀ a ∈ w.owned d, a ≠ b := by
    intro m hm w hw hne a ha hab
    rw [← ownedBy_of_record hw, hab] at ha
    exact hs.owned_disjoint hne hm hn b ha howned
  refine ⟨fun a _ ha _ => ?_, fun m hm w hw h0 => ?_, fun m hm w hw hwdir a ha => ?_⟩
  · obtain ⟨w, hw, hmap⟩ := hs.inode n hn
    obtain rfl := Option.some.inj (hw.symm.trans hv)
    have hge := (hmap.inData b (List.mem_append_left _ hb)).1
    exact update_of_ne (by omega) _ _
  · have hmem : w.indirect ∈ w.owned d := indirect_mem_owned h0
    refine update_of_ne ?_ _ _
    by_cases hne : m = n
    · subst hne
      obtain rfl := Option.some.inj (hw.symm.trans hv)
      have hnodup := hs.owned_nodup hm hw
      rw [owned, if_neg h0] at hnodup
      exact fun hc => (List.nodup_append.mp hnodup).2.2 b hb _ (List.mem_singleton_self _) hc.symm
    · exact hother m hm w hw hne _ hmem
  · refine update_of_ne (hother m hm w hw (fun hne => hdir ?_) a (List.mem_append_left _ ha)) _ _
    subst hne
    obtain rfl := Option.some.inj (hw.symm.trans hv)
    exact hwdir

/-! ## The ledger -/

section Ledger

variable {sb : Superblock} {d d' : Image}

/-- The ledger is an inode of the image, and not the root. -/
theorem LedgerOk.mem_inodes (hl : sb.LedgerOk d) (hs : sb.Sound d) :
    kRequestLedgerInodeNumber ∈ sb.inodes d ∧ kRequestLedgerInodeNumber ≠ sb.rootInode.toNat := by
  obtain ⟨e, he, hinode, -⟩ := hl.entry
  have hin : e ∈ sb.entriesOf d sb.rootInode.toNat := List.mem_of_mem_filter (he ▸ List.mem_singleton_self e)
  rw [← hinode]
  refine ⟨(hs.entry_target hs.root.1 hin).1, fun hc => ?_⟩
  exact hs.rootTop e (List.mem_flatMap.mpr ⟨_, hs.root.1, hin⟩) (UInt32.toNat_inj.mp hc)

/-- A ledger whose inode is kept and which the root names stays in order. -/
theorem LedgerOk.of_keeps (hl : sb.LedgerOk d) (hs : sb.Sound d) (hk : sb.Keeps d d' kRequestLedgerInodeNumber)
    (hentry : ∃ e, (sb.entriesOf d' sb.rootInode.toNat).filter (fun e => e.name = kRequestLedgerName) = [e] ∧
      e.inode.toNat = kRequestLedgerInodeNumber ∧ e.fileType = .kRegular) : sb.LedgerOk d' := by
  have hat := inodeAt_of_slot hk.slot
  obtain ⟨v, hv, hm⟩ := hs.inode _ (hl.mem_inodes hs).1
  refine ⟨hentry, fun w hw => hl.size w (hat.symm.trans hw), fun w hw => ?_⟩
  obtain rfl := Option.some.inj ((hat.trans hv).symm.trans hw)
  obtain ⟨records, hh⟩ := hl.slots v hv
  exact ⟨records, ledgerHolds_frame hm (hk.owned hv) hh⟩

end Ledger

/-! ## Images that differ in free blocks -/

/-- The images agree on the bitmaps, the inode table and every block that is in use. -/
structure KeepsUsed (sb : Superblock) (d d' : Image) : Prop where
  metadata : ∀ b, 0 < b → b < sb.data.start → ¬ blockIsInRegion b sb.journal → d' b = d b
  used : ∀ b ∈ sb.references d, d' b = d b

namespace KeepsUsed

variable {sb : Superblock} {d d' : Image} {n : ℕ} {v : InodeRecord} (h : sb.KeepsUsed d d') (hr : sb.Regions)

include h

theorem owned (hn : n ∈ sb.inodes d) : ∀ b ∈ sb.ownedBy d n, d' b = d b :=
  fun b hb => h.used b (List.mem_flatMap.mpr ⟨n, hn, hb⟩)

theorem keepsTree : sb.KeepsTree d d' := by
  refine ⟨h.metadata, fun n hn v hv h0 => ?_, fun n hn v hv _ b hb => ?_⟩
  · refine h.owned hn _ ?_
    rw [ownedBy_of_record hv]
    exact indirect_mem_owned h0
  · refine h.owned hn _ ?_
    rw [ownedBy_of_record hv]
    exact List.mem_append_left _ hb

include hr

theorem keeps (hn : n ∈ sb.inodes d) : sb.Keeps d d' n := ⟨h.keepsTree.slot_eq hr hn, h.owned hn⟩

/-- Free blocks do not matter for the agreement of the metadata. -/
theorem consistent (hc : sb.Consistent d) : sb.Consistent d' := by
  refine ⟨h.keepsTree.sound hr hc.toSound, fun hf => ?_⟩
  have hl := hc.ledger hf
  refine hl.of_keeps hc.toSound (h.keeps hr (hl.mem_inodes hc.toSound).1) ?_
  rw [h.keepsTree.entriesOf_eq hr hc.toSound hc.root.1]
  exact hl.entry

end KeepsUsed

theorem KeepsUsed.seesAlike {r : ImageReader} {d' : Image} (h : r.superblock.KeepsUsed r.image d')
    (hr : r.superblock.Regions) (hs : r.superblock.Sound r.image) (m : ℕ) : r.SeesAlike d' m := by
  have heq := h.keepsTree.inodes_eq hr
  by_cases hm : m ∈ r.superblock.inodes r.image
  · exact (h.keeps hr hm).seesAlike hs (h.keepsTree.sound hr hs) hm (by rwa [heq])
  · exact ImageReader.seesAlike_of_not_mem hm (by rwa [heq])

end Superblock

end Eufs
