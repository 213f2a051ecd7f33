import Eufs.Format.Insert
import Eufs.Metadata.Content

/-!
# Eufs.Metadata.Grown — one more file in the tree

`Superblock.GrownTree` says that an image has the tree of another one and one more file, named by one more entry of the
root.  Entries are compared by what they say, since an insertion may change the length of the record before it.  The
clauses of soundness about the tree go over; what is left are those about the bitmaps and the blocks.
-/

namespace Eufs

namespace Superblock

/-- `d'` has the tree of `d` and one more file: inode `n`, with `entry` in the root. -/
structure GrownTree (sb : Superblock) (d d' : Image) (n : ℕ) (file : InodeRecord)
    (entry : DirectoryEntry) : Prop where
  inodes : ∀ m, m ∈ sb.inodes d' ↔ m = n ∨ m ∈ sb.inodes d
  fresh : n ∉ sb.inodes d
  inodeAt : sb.inodeAt d' n = some file
  mapped : file.Mapped sb d'
  regular : S_ISREG file.mode
  linked : file.linkCount = 1
  record : ∀ m ∈ sb.inodes d, ∀ v, sb.inodeAt d m = some v →
    ∃ w, sb.inodeAt d' m = some w ∧ w.Mapped sb d' ∧ w.mode = v.mode ∧ w.linkCount = v.linkCount
  listable : ∀ m ∈ sb.inodes d, ∀ w, sb.inodeAt d' m = some w → S_ISDIR w.mode →
    w.size.toNat % kBlockSize = 0 ∧ ∀ b ∈ w.blocks d', recordsDecode (d' b)
  entries : ∀ m ∈ sb.inodes d, m ≠ sb.rootInode.toNat → sb.entriesOf d' m = sb.entriesOf d m
  rootEntries : ∃ pre post, (sb.entriesOf d sb.rootInode.toNat).map DirectoryEntry.key = pre ++ post ∧
    (sb.entriesOf d' sb.rootInode.toNat).map DirectoryEntry.key = pre ++ entry.key :: post
  target : entry.inode.toNat = n
  type : entry.fileType = .kRegular
  name : entry.name ∉ (sb.entriesOf d sb.rootInode.toNat).map DirectoryEntry.name

namespace GrownTree

variable {sb : Superblock} {d d' : Image} {n m : ℕ} {file v : InodeRecord} {entry e : DirectoryEntry}
  (h : sb.GrownTree d d' n file entry) (hs : sb.Sound d)

/-- The target of a key. -/
abbrev keyInode (k : UInt32 × DirectoryFileType × Name) : ℕ := k.1.toNat

section

include h

theorem inodes_perm : (sb.inodes d').Perm (n :: sb.inodes d) := by
  refine (List.perm_ext_iff_of_nodup (nodup_inodes sb d') ?_).mpr fun m => ?_
  · exact List.nodup_cons.mpr ⟨h.fresh, nodup_inodes sb d⟩
  · rw [h.inodes, List.mem_cons]

theorem root_entries_perm : ((sb.entriesOf d' sb.rootInode.toNat).map DirectoryEntry.key).Perm
    (entry.key :: (sb.entriesOf d sb.rootInode.toNat).map DirectoryEntry.key) := by
  obtain ⟨pre, post, hold, hnew⟩ := h.rootEntries
  rw [hold, hnew]
  exact List.perm_middle

theorem entriesOf_file : sb.entriesOf d' n = [] := by
  rw [entriesOf_of_record h.inodeAt, if_neg (not_isDir_of_isReg h.regular)]

theorem isDirectory_file : sb.isDirectory d' n = false := by
  rw [isDirectory_of_record h.inodeAt]
  exact decide_eq_false (not_isDir_of_isReg h.regular)

/-- What an entry says was said before, unless it is the new entry. -/
theorem key_of_entry (hm : m ∈ sb.inodes d) (he : e ∈ sb.entriesOf d' m) :
    (∃ e' ∈ sb.entriesOf d m, e'.key = e.key) ∨ m = sb.rootInode.toNat ∧ e.key = entry.key := by
  by_cases hroot : m = sb.rootInode.toNat
  · have hkey := h.root_entries_perm.subset (List.mem_map_of_mem (hroot ▸ he))
    rcases List.mem_cons.mp hkey with hkey | hkey
    · exact .inr ⟨hroot, hkey⟩
    · exact .inl (by rw [hroot]; exact List.mem_map.mp hkey)
  · rw [h.entries m hm hroot] at he
    exact .inl ⟨e, he, rfl⟩

theorem contains_mono {a b : ℕ} (hc : sb.Contains d a b) : sb.Contains d' a b := by
  obtain ⟨ha, e, he, rfl⟩ := hc
  refine ⟨(h.inodes a).mpr (.inr ha), ?_⟩
  by_cases hroot : a = sb.rootInode.toNat
  · have hkey : e.key ∈ (sb.entriesOf d' sb.rootInode.toNat).map DirectoryEntry.key :=
      h.root_entries_perm.symm.subset (List.mem_cons_of_mem _ (List.mem_map_of_mem (hroot ▸ he)))
    obtain ⟨e', he', hkey⟩ := List.mem_map.mp hkey
    exact ⟨e', by rwa [hroot], congrArg keyInode hkey⟩
  · exact ⟨e, by rwa [h.entries a ha hroot], rfl⟩

include hs

theorem root_ne : sb.rootInode.toNat ≠ n := fun hc => h.fresh (hc ▸ hs.root.1)

theorem allEntries_perm : ((sb.allEntries d').map DirectoryEntry.key).Perm
    (entry.key :: (sb.allEntries d).map DirectoryEntry.key) := by
  have hroot := List.perm_cons_erase hs.root.1
  have hrest : ((sb.inodes d).erase sb.rootInode.toNat).flatMap (fun m => (sb.entriesOf d' m).map DirectoryEntry.key) =
      ((sb.inodes d).erase sb.rootInode.toNat).flatMap fun m => (sb.entriesOf d m).map DirectoryEntry.key := by
    refine List.flatMap_congr fun m hm => ?_
    obtain ⟨hne, hm⟩ := ((nodup_inodes sb d).mem_erase_iff).mp hm
    rw [h.entries m hm hne]
  rw [allEntries, allEntries, List.map_flatMap, List.map_flatMap]
  have hnew := (h.inodes_perm.trans (hroot.cons n)).flatMap_right fun m => (sb.entriesOf d' m).map DirectoryEntry.key
  have hold := hroot.flatMap_right fun m => (sb.entriesOf d m).map DirectoryEntry.key
  rw [List.flatMap_cons, List.flatMap_cons, h.entriesOf_file, List.map_nil, List.nil_append, hrest] at hnew
  rw [List.flatMap_cons] at hold
  exact hnew.trans ((h.root_entries_perm.append_right _).trans (hold.symm.cons _))

theorem entriesTo_eq (m : ℕ) : sb.entriesTo d' m = sb.entriesTo d m + if n = m then 1 else 0 := by
  have hcount : ∀ es : List DirectoryEntry, es.countP (fun e => e.inode.toNat = m) =
      (es.map DirectoryEntry.key).countP fun k => keyInode k = m := fun es => by
    rw [List.countP_map]
    rfl
  rw [entriesTo, entriesTo, hcount, hcount, (h.allEntries_perm hs).countP_eq, List.countP_cons]
  simp only [keyInode, DirectoryEntry.key, h.target, decide_eq_true_eq]


theorem entriesTo_fresh : sb.entriesTo d n = 0 := by
  rw [entriesTo, List.countP_eq_zero]
  intro e he hc
  obtain ⟨m, hm, he⟩ := List.mem_flatMap.mp he
  exact h.fresh (of_decide_eq_true hc ▸ (hs.entry_target hm he).1)

theorem isDirectory_eq (hm : m ∈ sb.inodes d) : sb.isDirectory d' m = sb.isDirectory d m := by
  obtain ⟨v, hv, -⟩ := hs.inode m hm
  obtain ⟨w, hw, -, hmode, -⟩ := h.record m hm v hv
  rw [isDirectory_of_record hv, isDirectory_of_record hw, hmode]

theorem childDirectories_eq (hm : m ∈ sb.inodes d) : sb.childDirectories d' m = sb.childDirectories d m := by
  have hcount : ∀ es : List DirectoryEntry, es.countP (fun e => sb.isDirectory d' e.inode.toNat) =
      (es.map DirectoryEntry.key).countP fun k => sb.isDirectory d' (keyInode k) := fun es => by
    rw [List.countP_map]
    rfl
  have hold : (sb.entriesOf d m).countP (fun e => sb.isDirectory d' e.inode.toNat) = sb.childDirectories d m :=
    List.countP_congr fun e he => by rw [h.isDirectory_eq hs (hs.entry_target hm he).1]
  rw [← hold, childDirectories]
  by_cases hroot : m = sb.rootInode.toNat
  · rw [hroot, hcount, hcount, h.root_entries_perm.countP_eq, List.countP_cons]
    simp [keyInode, DirectoryEntry.key, h.target, h.isDirectory_file]
  · rw [h.entries m hm hroot]

theorem contains_file : sb.Contains d' sb.rootInode.toNat n := by
  have hkey : entry.key ∈ (sb.entriesOf d' sb.rootInode.toNat).map DirectoryEntry.key :=
    h.root_entries_perm.symm.subset List.mem_cons_self
  obtain ⟨e, he, hkey⟩ := List.mem_map.mp hkey
  exact ⟨(h.inodes _).mpr (.inr hs.root.1), e, he, (congrArg keyInode hkey).trans h.target⟩

theorem names_nodup {w : InodeRecord} (hm : m ∈ sb.inodes d) (hw : sb.inodeAt d' m = some w) (hdir : S_ISDIR w.mode) :
    ((w.entries d').map DirectoryEntry.name).Nodup := by
  obtain ⟨v, hv, -⟩ := hs.inode m hm
  obtain ⟨w', hw', -, hmode, -⟩ := h.record m hm v hv
  obtain rfl : w' = w := Option.some.inj (hw'.symm.trans hw)
  have hold := (hs.directory m hm v hv (hmode ▸ hdir)).names
  have hentries : sb.entriesOf d' m = w'.entries d' := by rw [entriesOf_of_record hw, if_pos hdir]
  have hentries0 : sb.entriesOf d m = v.entries d := by rw [entriesOf_of_record hv, if_pos (hmode ▸ hdir)]
  rw [← hentries]
  rw [← hentries0] at hold
  by_cases hroot : m = sb.rootInode.toNat
  · have hnames : ∀ es : List DirectoryEntry,
      es.map DirectoryEntry.name = (es.map DirectoryEntry.key).map fun k => k.2.2 :=
      fun es => by rw [List.map_map]; rfl
    rw [hroot] at hold ⊢
    rw [hnames, (h.root_entries_perm.map _).nodup_iff, List.map_cons, ← hnames]
    exact List.nodup_cons.mpr ⟨h.name, hold⟩
  · rw [h.entries m hm hroot]
    exact hold

theorem directoryOk {w : InodeRecord} (hm : m ∈ sb.inodes d) (hw : sb.inodeAt d' m = some w) (hdir : S_ISDIR w.mode) :
    sb.DirectoryOk d' w := by
  obtain ⟨hsize, hdec⟩ := h.listable m hm w hw hdir
  refine ⟨hsize, hdec, h.names_nodup hs hm hw hdir, fun e he => ?_⟩
  have he : e ∈ sb.entriesOf d' m := by rwa [entriesOf_of_record hw, if_pos hdir]
  rcases h.key_of_entry hm he with ⟨e', he', hkey⟩ | ⟨-, hkey⟩
  · obtain ⟨hmem, v, hv, htype⟩ := hs.entry_target hm he'
    obtain ⟨w', hw', -, hmode, -⟩ := h.record _ hmem v hv
    have hinode : e'.inode = e.inode := congrArg Prod.fst hkey
    have hft : e'.fileType = e.fileType := congrArg (fun k => k.2.1) hkey
    rw [← hinode, ← hft, h.inodes]
    exact ⟨.inr hmem, w', hw', hmode ▸ htype⟩
  · have hinode : e.inode.toNat = n := (congrArg keyInode hkey).trans h.target
    have hft : e.fileType = .kRegular := (congrArg (fun k => k.2.1) hkey).trans h.type
    rw [hinode, hft, h.inodes]
    exact ⟨.inl rfl, file, h.inodeAt, h.regular⟩

theorem rootTop : ∀ e ∈ sb.allEntries d', e.inode ≠ sb.rootInode := by
  intro e he hc
  have hkey := (h.allEntries_perm hs).subset (List.mem_map_of_mem he)
  rcases List.mem_cons.mp hkey with hkey | hkey
  · refine h.root_ne hs ?_
    rw [← h.target, ← hc]
    exact congrArg keyInode hkey
  · obtain ⟨e', he', hkey⟩ := List.mem_map.mp hkey
    exact hs.rootTop e' he' ((congrArg Prod.fst hkey).trans hc)

/-- An image with one more file is sound when its bitmaps agree with its blocks. -/
theorem sound (hreserved : sb.Reserved d')
    (hreferenced : ∀ b, sb.data.start ≤ b → b < sb.totalBlocks.toNat →
      (sb.blockBit d' b ↔ b ∈ sb.references d'))
    (honce : (sb.references d').Nodup) : sb.Sound d' := by
  refine ⟨hreserved, fun m hm => ?_, hreferenced, honce, fun m hm w hw hdir => ?_, ?_,
    h.rootTop hs, fun m hm hroot => ?_, fun m hm w hw => ?_⟩
  · rcases (h.inodes m).mp hm with rfl | hm
    · exact ⟨file, h.inodeAt, h.mapped⟩
    · obtain ⟨v, hv, -⟩ := hs.inode m hm
      obtain ⟨w, hw, hmap, -⟩ := h.record m hm v hv
      exact ⟨w, hw, hmap⟩
  · rcases (h.inodes m).mp hm with rfl | hm
    · obtain rfl : file = w := Option.some.inj (h.inodeAt.symm.trans hw)
      exact absurd hdir (not_isDir_of_isReg h.regular)
    · exact h.directoryOk hs hm hw hdir
  · exact ⟨(h.inodes _).mpr (.inr hs.root.1), by rw [h.isDirectory_eq hs hs.root.1]; exact hs.root.2⟩
  · rw [h.entriesTo_eq hs]
    rcases (h.inodes m).mp hm with rfl | hm
    · rw [h.entriesTo_fresh hs, if_pos rfl]
      exact ⟨rfl, .single (h.contains_file hs)⟩
    · obtain ⟨hone, hpath⟩ := hs.named m hm hroot
      rw [if_neg fun hc : n = m => h.fresh (hc ▸ hm), hone]
      exact ⟨rfl, hpath.lift id fun a b hc => h.contains_mono hc⟩
  · rcases (h.inodes m).mp hm with rfl | hm
    · obtain rfl : file = w := Option.some.inj (h.inodeAt.symm.trans hw)
      rw [if_pos h.regular, h.linked]
      rfl
    · obtain ⟨v, hv, -⟩ := hs.inode m hm
      obtain ⟨w', hw', -, hmode, hlinks⟩ := h.record m hm v hv
      obtain rfl : w' = w := Option.some.inj (hw'.symm.trans hw)
      rw [h.entriesTo_eq hs, if_neg fun hc : n = m => h.fresh (hc ▸ hm), h.childDirectories_eq hs hm, hlinks, hmode]
      exact hs.links m hm v hv

end

end GrownTree

end Superblock

end Eufs
