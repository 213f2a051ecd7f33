import Eufs.Metadata.Frame
import Eufs.Metadata.Fresh

/-!
# Eufs.Metadata.Damage — path resolution on a damaged image

On an image that `adoptLockedFd` accepts, directories and inodes below the root may hold any bytes.  This module says
which error `resolvePath` gives for which damage.  A directory is scanned record by record and the first defect ends
the scan.  Every defect gives `EUCLEAN`, except a record whose inode number lies above the inode table: `ReadInode`
takes that for a wrong argument.
-/

namespace Eufs

open Function InodeRecord Formatted

variable {es : List DirectoryEntry}

namespace ImageReader

variable {r : ImageReader} {n : ℕ} {v : InodeRecord}

/-! ## Reading an inode -/

theorem throws_reject {ε : Type} {P : ε → Prop} {c : Prop} [Decidable c] {e : ε} (h : c → P e) :
    Throws P (reject c e) := by
  by_cases hc : c
  · rw [reject, if_pos hc]
    exact throws_error (h hc)
  · rw [reject, if_neg hc]
    exact throws_ok ()

theorem throws_reject_bind {ε α : Type} {P : ε → Prop} {c : Prop} [Decidable c] {e : ε}
    {f : Unit → Except ε α} (h : c → P e)
    (hf : Throws P (f ())) : Throws P (reject c e >>= f) := (throws_reject h).bind fun _ _ => hf

/-- The failures that stand for damage. -/
def IsDamage (f : Failure) : Prop := f.errno = .EUCLEAN

theorem throws_checkPointer {sparse beyond : String} {required : Prop} [Decidable required] (b : ℕ) :
    Throws IsDamage (r.checkPointer sparse beyond required b) := by
  unfold checkPointer
  split
  · exact throws_reject_bind (fun _ => rfl) (throws_reject fun _ => rfl)
  · exact throws_reject fun _ => rfl

theorem throws_checkIndirectBlock : Throws IsDamage (r.checkIndirectBlock v) := by
  unfold checkIndirectBlock
  split
  · exact throws_reject fun _ => rfl
  · exact throws_reject_bind (fun _ => rfl)
      (throws_reject_bind (fun _ => rfl) (throws_forM fun k _ => throws_checkPointer _))

/-- An inode number within the table fails with `ENOENT` or as damage. -/
theorem throws_readInode (h1 : n ≠ 0) (h2 : n ≤ r.superblock.totalInodes.toNat) :
    Throws (fun f => f.errno = .ENOENT ∨ IsDamage f) (r.readInode n) := by
  unfold readInode
  refine throws_reject_bind (fun h => ?_) (throws_reject_bind (fun _ => Or.inl rfl) fun f hf => Or.inr ?_)
  · omega
  · revert f
    refine Throws.bind ?_ fun w _ => throws_reject_bind (fun _ => rfl) ?_
    · cases decodeInode (inodeSlot r.superblock r.image n) n with
      | ok w => exact throws_ok w
      | error detail => exact throws_error rfl
    · refine (throws_forM fun k _ => throws_checkPointer _).bind fun _ _ => ?_
      exact throws_checkIndirectBlock.bind fun _ _ => throws_ok w

theorem readInode_of_gt (h : r.superblock.totalInodes.toNat < n) : r.readInode n = .error ⟨.EINVAL, ""⟩ := by
  unfold readInode
  rw [reject, if_pos (Or.inr h)]
  rfl

theorem throws_readChild (h1 : n ≠ 0) (h2 : n ≤ r.superblock.totalInodes.toNat) :
    Throws IsDamage (r.readChild n) := by
  intro f hf
  unfold readChild at hf
  split at hf
  · cases hf
    rfl
  · rename_i hno
    rcases throws_readInode h1 h2 f hf with h | h
    · obtain ⟨errno, detail⟩ := f
      obtain rfl : errno = .ENOENT := h
      exact absurd hf (hno detail)
    · exact h

theorem readChild_of_gt (h : r.superblock.totalInodes.toNat < n) : r.readChild n = .error ⟨.EINVAL, ""⟩ := by
  rw [readChild, readInode_of_gt h]

theorem readChild_eq_ok : r.readChild n = .ok v ↔ Readable r.superblock r.image n v := by
  rw [← readInode_eq_ok, readChild]
  split
  · rename_i h
    rw [h]
    simp
  · rfl

/-! ## Scanning a directory -/

/-- The records of a block in the order of the scan, and the text of the one that does not decode. -/
def blockItems (b : Block) : List (Except String DirectoryEntry) :=
  ((blockRecords "" b 0).1.map fun x => .ok x.2) ++ ((blockRecords "" b 0).2.map Except.error).toList

/-- The records of a directory in the order of the scan. -/
def items (v : InodeRecord) (d : Image) : List (Except String DirectoryEntry) :=
  (v.blocks d).flatMap fun b => blockItems (d b)

def visitItem (r : ImageReader) (entries : List DirectoryEntry) :
    Except String DirectoryEntry → Except Failure (List DirectoryEntry)
  | .ok e => r.visitEntry entries e
  | .error detail => .error (unclean detail)

theorem visitBlock_eq_items (h : Readable r.superblock r.image n v) {k : ℕ} (hk : k < v.requiredBlocks)
    (entries : List DirectoryEntry) :
    r.visitBlock v entries k = (blockItems (r.image (v.pointer r.image k))).foldlM r.visitItem entries := by
  unfold visitBlock
  rw [mapLogicalBlock_of_readable h hk, ok_bind, blockRecords_text _ "", visitRecords, blockItems, List.foldlM_append,
    List.foldlM_map]
  refine congrArg _ (funext fun entries' => ?_)
  cases (blockRecords "" (r.image (v.pointer r.image k)) 0).2 <;> rfl

theorem listDirectory_eq_items (h : Readable r.superblock r.image n v) (hdir : S_ISDIR v.mode) :
    r.listDirectory n = (items v r.image).foldlM r.visitItem [] := by
  have hblocks : v.size.toNat / kBlockSize = v.requiredBlocks := by
    have hw : v.size.toNat % 4096 = 0 := h.whole hdir
    show v.size.toNat / 4096 = (v.size.toNat + 4096 - 1) / 4096
    omega
  have hloop : ∀ (l : List ℕ) (entries : List DirectoryEntry), (∀ k ∈ l, k < v.requiredBlocks) →
      l.foldlM (r.visitBlock v) entries =
        (l.flatMap fun k => blockItems (r.image (v.pointer r.image k))).foldlM r.visitItem entries := by
    intro l
    induction l with
    | nil => exact fun _ _ => rfl
    | cons k l ih =>
      intro entries hl
      obtain ⟨hk, hl⟩ := List.forall_mem_cons.mp hl
      rw [List.foldlM_cons, visitBlock_eq_items h hk, List.flatMap_cons, List.foldlM_append]
      exact congrArg _ (funext fun entries' => ih entries' hl)
  unfold listDirectory
  rw [readInode_eq_ok.mpr h, ok_bind, reject, if_neg (not_not.mpr hdir), ok_bind, hblocks, items, blocks,
    List.flatMap_map]
  exact hloop _ _ fun k hk => List.mem_range.mp hk

/-- The scan meets a record whose inode number lies above the table before any other defect; `entries` are the active
records before. -/
def StrayFirst (r : ImageReader) (entries : List DirectoryEntry) (l : List (Except String DirectoryEntry)) : Prop :=
  ∃ pre e post, l = pre.map Except.ok ++ .ok e :: post ∧ e.inode ≠ 0 ∧
    r.superblock.totalInodes.toNat < e.inode.toNat ∧
    ((entries ++ activeRecords pre ++ [e]).map DirectoryEntry.name).Nodup ∧
    ∀ x ∈ activeRecords pre, TargetOk r.superblock r.image x

/-- The ways a scan ends. -/
inductive Scanned (r : ImageReader) (entries : List DirectoryEntry) (l : List (Except String DirectoryEntry)) :
    Except Failure (List DirectoryEntry) → Prop
  | listed (es : List DirectoryEntry) (hl : l = es.map Except.ok)
      (hn : ((entries ++ activeRecords es).map DirectoryEntry.name).Nodup)
      (ht : ∀ e ∈ activeRecords es, TargetOk r.superblock r.image e) :
      Scanned r entries l (.ok (entries ++ activeRecords es))
  | damaged (detail : String) : Scanned r entries l (.error (unclean detail))
  | stray (h : r.StrayFirst entries l) : Scanned r entries l (.error ⟨.EINVAL, ""⟩)

theorem Scanned.cons {entries : List DirectoryEntry} {e : DirectoryEntry} {l : List (Except String DirectoryEntry)}
    {x : Except Failure (List DirectoryEntry)} (hok : e.inode ≠ 0 → TargetOk r.superblock r.image e)
    (h : Scanned r (entries ++ activeRecords [e]) l x) : Scanned r entries (.ok e :: l) x := by
  have hactive : ∀ es, activeRecords (e :: es) = activeRecords [e] ++ activeRecords es := fun es => by
    rw [activeRecords, activeRecords, activeRecords, ← List.filter_append]
    rfl
  have htarget : ∀ y ∈ activeRecords [e], TargetOk r.superblock r.image y := by
    intro y hy
    obtain ⟨hm, h0⟩ := List.mem_filter.mp hy
    obtain rfl := List.mem_singleton.mp hm
    exact hok (by simpa using h0)
  cases h with
  | listed es hl hn ht =>
    have := @Scanned.listed r entries (.ok e :: l) (e :: es) (by rw [hl]; rfl)
      (by rwa [hactive, ← List.append_assoc]) (by rw [hactive]; exact List.forall_mem_append.mpr ⟨htarget, ht⟩)
    rwa [hactive, ← List.append_assoc] at this
  | damaged detail => exact .damaged detail
  | stray h =>
    obtain ⟨pre, y, post, hl, h0, hgt, hn, ht⟩ := h
    refine .stray ⟨e :: pre, y, post, by rw [hl]; rfl, h0, hgt, ?_, ?_⟩
    · rwa [hactive, ← List.append_assoc]
    · rw [hactive]
      exact List.forall_mem_append.mpr ⟨htarget, ht⟩

theorem scanned_items : ∀ (l : List (Except String DirectoryEntry)) (entries : List DirectoryEntry),
    (entries.map DirectoryEntry.name).Nodup → Scanned r entries l (l.foldlM r.visitItem entries)
  | [], entries, hn => by
    have := @Scanned.listed r entries [] [] rfl (by rwa [activeRecords, List.filter_nil, List.append_nil])
      fun e he => absurd he List.not_mem_nil
    rwa [activeRecords, List.filter_nil, List.append_nil] at this
  | .error detail :: l, entries, _ => .damaged detail
  | .ok e :: l, entries, hn => by
    rw [List.foldlM_cons]
    show Scanned r entries (.ok e :: l) (r.visitEntry entries e >>= _)
    unfold visitEntry
    by_cases h0 : e.inode = 0
    · have hfree : activeRecords [e] = [] := activeRecords_cons_of_free h0
      rw [if_pos h0, ok_bind]
      refine Scanned.cons (fun hc => absurd h0 hc) ?_
      rw [hfree, List.append_nil]
      exact scanned_items l entries hn
    · have hkeep : activeRecords [e] = [e] := activeRecords_cons_of_ne h0
      rw [if_neg h0]
      by_cases hname : e.name ∈ entries.map DirectoryEntry.name
      · rw [reject, if_pos hname]
        exact .damaged _
      · have hn' : ((entries ++ [e]).map DirectoryEntry.name).Nodup := by
          rw [List.map_append]
          exact List.nodup_append.mpr ⟨hn, List.nodup_singleton _, fun x hx y hy => by
            rw [List.map_singleton, List.mem_singleton] at hy
            rintro rfl
            exact hname (hy ▸ hx)⟩
        rw [reject, if_neg hname, ok_bind]
        by_cases hgt : r.superblock.totalInodes.toNat < e.inode.toNat
        · rw [readChild_of_gt hgt]
          refine .stray ⟨[], e, l, rfl, h0, hgt, ?_, fun x hx => absurd hx List.not_mem_nil⟩
          rwa [activeRecords, List.filter_nil, List.append_nil]
        · have hne : e.inode.toNat ≠ 0 := fun hc => h0 (UInt32.toNat_inj.mp hc)
          cases hchild : r.readChild e.inode.toNat with
          | error f =>
            have hf : f = unclean f.detail := by
              have := throws_readChild hne (not_lt.mp hgt) f hchild
              cases f
              cases this
              rfl
            rw [hf]
            exact .damaged _
          | ok w =>
            rw [ok_bind]
            by_cases hty : isDirectoryType e.fileType w.mode
            · rw [reject, if_neg (not_not.mpr hty), ok_bind]
              refine Scanned.cons (fun _ => ⟨w, readChild_eq_ok.mp hchild, hty⟩) ?_
              rw [hkeep]
              exact scanned_items l (entries ++ [e]) hn'
            · rw [reject, if_pos hty]
              exact .damaged _

/-- What can be wrong with a directory: a record that does not decode, two active records of one name, or a record
whose target is out of range or not allocated, does not decode, has pointers that do not fit its size or its blocks, or
is of another type. -/
inductive Damage (sb : Superblock) (d : Image) (v : InodeRecord) : Prop
  | record {b : ℕ} (hb : b ∈ v.blocks d) (h : ¬ recordsDecode (d b))
  | name (h : ¬ ((v.entries d).map DirectoryEntry.name).Nodup)
  | unallocated {e : DirectoryEntry} (he : e ∈ v.entries d) (h : e.inode.toNat ∉ sb.inodes d)
  | undecodable {e : DirectoryEntry} (he : e ∈ v.entries d) (h : sb.inodeAt d e.inode.toNat = none)
  | pointer {e : DirectoryEntry} {w : InodeRecord} (he : e ∈ v.entries d) (hw : sb.inodeAt d e.inode.toNat = some w)
      (h : ¬ w.Mapped sb d ∨ ∃ b ∈ w.owned d, sb.blockBit d b = false)
  | size {e : DirectoryEntry} {w : InodeRecord} (he : e ∈ v.entries d) (hw : sb.inodeAt d e.inode.toNat = some w)
      (h : S_ISDIR w.mode ∧ w.size.toNat % kBlockSize ≠ 0)
  | type {e : DirectoryEntry} {w : InodeRecord} (he : e ∈ v.entries d) (hw : sb.inodeAt d e.inode.toNat = some w)
      (h : ¬ isDirectoryType e.fileType w.mode)

/-- A directory is damaged exactly when it cannot be listed. -/
theorem damage_iff {sb : Superblock} {d : Image} : Damage sb d v ↔ ¬ Listable sb d v := by
  constructor
  · intro h hl
    have htarget : ∀ {e w}, e ∈ v.entries d → sb.inodeAt d e.inode.toNat = some w →
        Readable sb d e.inode.toNat w ∧ isDirectoryType e.fileType w.mode := by
      intro e w he hw
      obtain ⟨w', hr, hty⟩ := hl.targets e he
      obtain rfl := Option.some.inj (hr.record.symm.trans hw)
      exact ⟨hr, hty⟩
    cases h with
    | record hb h => exact h (hl.decodes _ hb)
    | name h => exact h hl.names
    | unallocated he h =>
      obtain ⟨w, hr, -⟩ := hl.targets _ he
      exact h hr.allocated
    | undecodable he h =>
      obtain ⟨w, hr, -⟩ := hl.targets _ he
      cases h.symm.trans hr.record
    | pointer he hw h =>
      rcases h with h | ⟨b, hb, h⟩
      · exact h (htarget he hw).1.mapped
      · exact absurd ((htarget he hw).1.blocks b hb) (by rw [h]; decide)
    | size he hw h => exact h.2 ((htarget he hw).1.whole h.1)
    | type he hw h => exact h (htarget he hw).2
  · intro hl
    by_contra hd
    refine hl ⟨fun b hb => ?_, ?_, fun e he => ?_⟩
    · by_contra h
      exact hd (.record hb h)
    · by_contra h
      exact hd (.name h)
    · have halloc : e.inode.toNat ∈ sb.inodes d := by
        by_contra h
        exact hd (.unallocated he h)
      cases hw : sb.inodeAt d e.inode.toNat with
      | none => exact absurd (.undecodable he hw) hd
      | some w =>
        refine ⟨w, ⟨halloc, hw, ?_, fun b hb => ?_, fun hdir => ?_⟩, ?_⟩
        · by_contra h
          exact hd (.pointer he hw (.inl h))
        · by_contra h
          exact hd (.pointer he hw (.inr ⟨b, hb, by simpa using h⟩))
        · by_contra h
          exact hd (.size he hw ⟨hdir, h⟩)
        · by_contra h
          exact hd (.type he hw h)

theorem listable_of_items {sb : Superblock} {d : Image} (hl : items v d = es.map Except.ok)
    (hn : ((activeRecords es).map DirectoryEntry.name).Nodup) (ht : ∀ e ∈ activeRecords es, TargetOk sb d e) :
    Listable sb d v := by
  have hdec : ∀ b ∈ v.blocks d, recordsDecode (d b) := by
    intro b hb
    unfold recordsDecode
    cases hf : (blockRecords "" (d b) 0).2 with
    | none => rfl
    | some detail =>
      have hmem : Except.error detail ∈ items v d := by
        refine List.mem_flatMap.mpr ⟨b, hb, List.mem_append_right _ ?_⟩
        rw [hf]
        exact List.mem_singleton_self _
      rw [hl] at hmem
      obtain ⟨e, -, he⟩ := List.mem_map.mp hmem
      cases he
  have hitems : items v d = ((v.blocks d).flatMap fun b => (blockRecords "" (d b) 0).1.map Prod.snd).map Except.ok := by
    rw [items, List.map_flatMap]
    refine List.flatMap_congr fun b hb => ?_
    rw [blockItems, show (blockRecords "" (d b) 0).2 = none from hdec b hb, List.map_map]
    exact List.append_nil _
  have hes : es = (v.blocks d).flatMap fun b => (blockRecords "" (d b) 0).1.map Prod.snd :=
    List.map_injective_iff.mpr (fun _ _ h => Except.ok.inj h) (hl.symm.trans hitems)
  have hentries : activeRecords es = v.entries d := by
    rw [hes, activeRecords, List.filter_flatMap]
    rfl
  rw [hentries] at hn ht
  exact ⟨hdec, hn, ht⟩

/-- What listing a directory gives: its entries if it is in order, `EINVAL` if the first defect is a record whose inode
number lies above the table, `EUCLEAN` for every other first defect. -/
theorem listDirectory_cases (h : Readable r.superblock r.image n v) (hdir : S_ISDIR v.mode) :
    (Listable r.superblock r.image v ∧ r.listDirectory n = .ok (v.entries r.image)) ∨
      (¬ Listable r.superblock r.image v ∧ ∃ detail, r.listDirectory n = .error (unclean detail)) ∨
      (¬ Listable r.superblock r.image v ∧ r.listDirectory n = .error ⟨.EINVAL, ""⟩ ∧
        r.StrayFirst [] (items v r.image)) := by
  by_cases hl : Listable r.superblock r.image v
  · exact .inl ⟨hl, listDirectory_of_listable h hdir hl⟩
  · have hscan := @scanned_items r (items v r.image) [] List.nodup_nil
    rw [← listDirectory_eq_items h hdir] at hscan
    generalize r.listDirectory n = x at hscan ⊢
    cases hscan with
    | listed es he hn ht => exact absurd (listable_of_items he hn ht) hl
    | damaged detail => exact .inr (.inl ⟨hl, detail, rfl⟩)
    | stray hs => exact .inr (.inr ⟨hl, rfl, hs⟩)

theorem listDirectory_of_stray (h : Readable r.superblock r.image n v) (hdir : S_ISDIR v.mode)
    (hs : r.StrayFirst [] (items v r.image)) : r.listDirectory n = .error ⟨.EINVAL, ""⟩ := by
  obtain ⟨pre, e, post, hl, h0, hgt, hn, ht⟩ := hs
  have hpre : pre.foldlM r.visitEntry [] = .ok ([] ++ activeRecords pre) := by
    refine visitEntries_of_ok ?_ ht
    rw [List.map_append] at hn
    exact (List.nodup_append.mp hn).1
  have hname : e.name ∉ (activeRecords pre).map DirectoryEntry.name := by
    rw [List.map_append] at hn
    exact fun hc => (List.nodup_append.mp hn).2.2 _ hc _ List.mem_cons_self rfl
  have hstep : r.visitEntry (activeRecords pre) e = .error ⟨.EINVAL, ""⟩ := by
    unfold visitEntry
    rw [if_neg h0, reject, if_neg hname, ok_bind, readChild_of_gt hgt]
    rfl
  rw [listDirectory_eq_items h hdir, hl, List.foldlM_append, List.foldlM_map]
  show (pre.foldlM r.visitEntry [] >>= _) = _
  rw [hpre, ok_bind, List.nil_append, List.foldlM_cons]
  show (r.visitEntry (activeRecords pre) e >>= _) = _
  rw [hstep]
  rfl

/-! ## Paths -/

/-- The directories that are listed for a path, each with the name that is looked up in it. -/
def onTheWay (r : ImageReader) : ℕ → List Name → List (ℕ × Name)
  | _, [] => []
  | n, c :: cs => (n, c) ::
    match r.listDirectory n with
    | .error _ => []
    | .ok entries =>
      match entries.find? (fun e => e.name = c) with
      | none => []
      | some e => r.onTheWay e.inode.toNat cs

/-- How a walk along a path ends: every directory is listed and the last name found or not, or listing one fails. -/
inductive Walked (r : ImageReader) (way : List (ℕ × Name)) : Except Failure ℕ → Prop
  | found {m : ℕ} (hm : ∃ v, Readable r.superblock r.image m v)
    (hall : ∀ x ∈ way, ∃ es, r.listDirectory x.1 = .ok es) :
      Walked r way (.ok m)
  | absent (hall : ∀ x ∈ way, ∃ es, r.listDirectory x.1 = .ok es)
      (hx : ∃ x ∈ way, ∃ es, r.listDirectory x.1 = .ok es ∧ ∀ e ∈ es, e.name ≠ x.2) :
      Walked r way (.error ⟨.ENOENT, ""⟩)
  | stopped {f : Failure} (hx : ∃ x ∈ way, r.listDirectory x.1 = .error f)
      (hall : ∀ x ∈ way, r.listDirectory x.1 = .error f ∨ ∃ es, r.listDirectory x.1 = .ok es) :
      Walked r way (.error f)

theorem Walked.cons {way : List (ℕ × Name)} {x : ℕ × Name} {y : Except Failure ℕ}
    (hx : r.listDirectory x.1 = .ok es) (h : Walked r way y) : Walked r (x :: way) y := by
  cases h with
  | found hm hall => exact .found hm (List.forall_mem_cons.mpr ⟨⟨es, hx⟩, hall⟩)
  | absent hall ha =>
    obtain ⟨z, hz, ha⟩ := ha
    exact .absent (List.forall_mem_cons.mpr ⟨⟨es, hx⟩, hall⟩) ⟨z, List.mem_cons_of_mem _ hz, ha⟩
  | stopped hs hall =>
    obtain ⟨z, hz, hs⟩ := hs
    exact .stopped ⟨z, List.mem_cons_of_mem _ hz, hs⟩ (List.forall_mem_cons.mpr ⟨.inr ⟨es, hx⟩, hall⟩)

theorem Walked.error_of_mem {way : List (ℕ × Name)} {x : ℕ × Name} {f : Failure} {y : Except Failure ℕ}
    (h : Walked r way y) (hx : x ∈ way) (hl : r.listDirectory x.1 = .error f) : y = .error f := by
  cases h with
  | found _ hall =>
    obtain ⟨es, hes⟩ := hall x hx
    cases hes.symm.trans hl
  | absent hall _ =>
    obtain ⟨es, hes⟩ := hall x hx
    cases hes.symm.trans hl
  | stopped _ hall =>
    rcases hall x hx with he | ⟨es, hes⟩
    · rw [Except.error.inj (he.symm.trans hl)]
    · cases hes.symm.trans hl

theorem listDirectory_of_file (h : Readable r.superblock r.image n v) (hdir : ¬ S_ISDIR v.mode) :
    r.listDirectory n = .error ⟨.ENOTDIR, ""⟩ := by
  unfold listDirectory
  rw [readInode_eq_ok.mpr h, ok_bind, reject, if_pos hdir]
  rfl

/-- What listing an inode that can be read may fail with. -/
theorem throws_listDirectory (h : Readable r.superblock r.image n v) :
    Throws (fun f => f.errno = .ENOTDIR ∨ f.errno = .EUCLEAN ∨
      f.errno = .EINVAL ∧ S_ISDIR v.mode ∧ r.StrayFirst [] (items v r.image)) (r.listDirectory n) := by
  by_cases hdir : S_ISDIR v.mode
  · rcases listDirectory_cases h hdir with ⟨-, hr⟩ | ⟨-, detail, hr⟩ | ⟨-, hr, hs⟩ <;> rw [hr]
    · exact throws_ok _
    · exact throws_error (.inr (.inl rfl))
    · exact throws_error (.inr (.inr ⟨rfl, hdir, hs⟩))
  · rw [listDirectory_of_file h hdir]
    exact throws_error (.inl rfl)

theorem listDirectory_of_damage (h : Readable r.superblock r.image n v) (hdir : S_ISDIR v.mode)
    (hd : Damage r.superblock r.image v) (hs : ¬ r.StrayFirst [] (items v r.image)) :
    ∃ detail, r.listDirectory n = .error ⟨.EUCLEAN, detail⟩ := by
  rcases listDirectory_cases h hdir with ⟨hl, -⟩ | ⟨-, hr⟩ | ⟨-, -, hs'⟩
  · exact absurd hl (damage_iff.mp hd)
  · exact hr
  · exact absurd hs' hs

/-- The targets of a directory that is listed can be read. -/
theorem readable_of_listed (h : Readable r.superblock r.image n v) (hl : r.listDirectory n = .ok es)
    {e : DirectoryEntry} (he : e ∈ es) : ∃ w, Readable r.superblock r.image e.inode.toNat w := by
  by_cases hdir : S_ISDIR v.mode
  · rcases listDirectory_cases h hdir with ⟨hok, hr⟩ | ⟨-, detail, hr⟩ | ⟨-, hr, -⟩
    · obtain rfl := Except.ok.inj (hr.symm.trans hl)
      obtain ⟨w, hw, -⟩ := hok.targets e he
      exact ⟨w, hw⟩
    · cases hr.symm.trans hl
    · cases hr.symm.trans hl
  · cases (listDirectory_of_file h hdir).symm.trans hl

/-- Neither empty nor one of the two names with a meaning of their own. -/
def PlainName (c : Name) : Prop := c ≠ [] ∧ c ≠ [46] ∧ c ≠ [46, 46]

instance (c : Name) : Decidable (PlainName c) := by unfold PlainName; infer_instance

theorem resolveComponent_of_plain {c : Name} (hc : PlainName c) : r.resolveComponent n c =
    r.listDirectory n >>= fun es => match es.find? (fun e => e.name = c) with
      | none => .error ⟨.ENOENT, ""⟩
      | some e => .ok e.inode.toNat := by
  unfold resolveComponent
  rw [reject, if_neg (by rintro (h | h | h); exacts [hc.1 h, hc.2.1 h, hc.2.2 h]), ok_bind]
  refine congrArg _ (funext fun es => ?_)
  cases es.find? (fun e => e.name = c) <;> rfl

theorem walked : ∀ {cs : List Name} {n : ℕ}, (∃ v, Readable r.superblock r.image n v) →
    (∀ c ∈ cs, PlainName c) →
    Walked r (r.onTheWay n cs) (cs.foldlM r.resolveComponent n) ∧
      ∀ x ∈ r.onTheWay n cs, ∃ v, Readable r.superblock r.image x.1 v
  | [], n, hr, _ => ⟨.found hr fun _ hx => absurd hx List.not_mem_nil, fun _ hx => absurd hx List.not_mem_nil⟩
  | c :: cs, n, hr, hcs => by
    obtain ⟨hc, hcs⟩ := List.forall_mem_cons.mp hcs
    rw [List.foldlM_cons, resolveComponent_of_plain hc, onTheWay]
    cases hl : r.listDirectory n with
    | error f =>
      refine ⟨.stopped ⟨(n, c), List.mem_singleton_self _, hl⟩ fun x hx => ?_, fun x hx => ?_⟩
      · obtain rfl := List.mem_singleton.mp hx
        exact .inl hl
      · obtain rfl := List.mem_singleton.mp hx
        exact hr
    | ok es =>
      rw [ok_bind]
      dsimp only
      cases hf : es.find? (fun e => e.name = c) with
      | none =>
        have hno : ∀ e ∈ es, e.name ≠ c := fun e he => by simpa using List.find?_eq_none.mp hf e he
        refine ⟨.absent (fun x hx => ?_) ⟨(n, c), List.mem_singleton_self _, es, hl, hno⟩, fun x hx => ?_⟩
        · obtain rfl := List.mem_singleton.mp hx
          exact ⟨es, hl⟩
        · obtain rfl := List.mem_singleton.mp hx
          exact hr
      | some e =>
        obtain ⟨v, hv⟩ := hr
        have he := readable_of_listed hv hl (List.mem_of_find?_eq_some hf)
        obtain ⟨ih1, ih2⟩ := walked he hcs
        exact ⟨.cons hl ih1, List.forall_mem_cons.mpr ⟨⟨v, hv⟩, ih2⟩⟩

/-- A path that starts with a slash and has plain components only. -/
def PlainPath (path : List UInt8) : Prop :=
  path = [47] ∨ ∃ rest, path = 47 :: rest ∧ ∀ c ∈ rest.splitOn 47, PlainName c

/-- The names of a path; the root has none. -/
def components (path : List UInt8) : List Name := if path = [47] then [] else path.tail.splitOn 47

/-- Damage on the way of a path is reported as damage, and nothing else is. -/
structure Classified (r : ImageReader) (path : List UInt8) : Prop where
  codes : ∀ f, r.resolvePath path = .error f → f.errno = .ENOENT ∨ f.errno = .ENOTDIR ∨ f.errno = .EUCLEAN
  absent : ∀ f, r.resolvePath path = .error f → f.errno = .ENOENT →
    (∀ x ∈ r.onTheWay r.superblock.rootInode.toNat (components path), ∃ es, r.listDirectory x.1 = .ok es) ∧
    ∃ x ∈ r.onTheWay r.superblock.rootInode.toNat (components path),
      ∃ es, r.listDirectory x.1 = .ok es ∧ ∀ e ∈ es, e.name ≠ x.2
  damage : ∀ x ∈ r.onTheWay r.superblock.rootInode.toNat (components path), ∀ v, r.readInode x.1 = .ok v →
    S_ISDIR v.mode → Damage r.superblock r.image v → ∃ detail, r.resolvePath path = .error ⟨.EUCLEAN, detail⟩

theorem getLast_of_plain {rest : List UInt8} (h : ∀ c ∈ rest.splitOn 47, PlainName c) :
    rest.getLast? ≠ some 47 := by
  intro hlast
  obtain ⟨l, rfl⟩ := List.getLast?_eq_some_iff.mp hlast
  have hsplit : (l ++ [47]).splitOn 47 = l.splitOn 47 ++ [[]] := List.splitOnP_append_cons l [] (by decide)
  rw [hsplit] at h
  exact (h [] (List.mem_append_right _ (List.mem_singleton_self _))).1 rfl

theorem resolvePath_eq_walk {path : List UInt8} (hp : PlainPath path) :
    r.resolvePath path = ((components path).foldlM r.resolveComponent r.superblock.rootInode.toNat >>= fun m =>
      r.readInode m >>= fun v => .ok (m, v)) ∧ ∀ c ∈ components path, PlainName c := by
  unfold resolvePath components
  by_cases hslash : path = [47]
  · rw [if_pos hslash, hslash]
    exact ⟨rfl, fun c hc => absurd hc List.not_mem_nil⟩
  · obtain ⟨rest, rfl, hrest⟩ := hp.resolve_left hslash
    have hne : rest ≠ [] := fun h => hslash (by rw [h])
    have hlast : (47 :: rest).getLast? ≠ some 47 := by
      rw [List.getLast?_cons_of_ne_nil hne]
      exact getLast_of_plain hrest
    rw [if_neg hslash, if_neg hslash, reject, if_neg (by simp), ok_bind, reject, if_neg hlast, ok_bind]
    exact ⟨rfl, hrest⟩

/-- Damage is reported as damage exactly when no directory on the way has, as its first defect in the order of the
scan, a record whose inode number lies above the inode table. -/
theorem classified_iff {blocks : ℕ} {d : Image} {r : ImageReader} {path : List UInt8}
    (hopen : adoptLockedFd blocks d = .ok r) (hp : PlainPath path) :
    Classified r path ↔ ∀ x ∈ r.onTheWay r.superblock.rootInode.toNat (components path), ∀ v,
    r.readInode x.1 = .ok v →
      S_ISDIR v.mode → ¬ r.StrayFirst [] (items v r.image) := by
  obtain ⟨rfl, -, hadopt⟩ := adoptLockedFd_eq_ok.mp hopen
  obtain ⟨root, hroot, -⟩ := hadopt.root
  obtain ⟨hres, hplain⟩ := @resolvePath_eq_walk r path hp
  obtain ⟨hwalk, hread⟩ := walked ⟨root, hroot⟩ hplain
  generalize hway : r.onTheWay r.superblock.rootInode.toNat (components path) = way at *
  constructor
  · intro h x hx v hv hdir hs
    rw [hwalk.error_of_mem hx (listDirectory_of_stray (readInode_eq_ok.mp hv) hdir hs)] at hres
    rcases h.codes _ hres with h | h | h <;> cases h
  · intro hstray
    have hdamage : ∀ x ∈ way, ∀ v, r.readInode x.1 = .ok v → S_ISDIR v.mode →
      Damage r.superblock r.image v →
        ∃ detail, r.resolvePath path = .error ⟨.EUCLEAN, detail⟩ := by
      intro x hx v hv hdir hd
      obtain ⟨detail, hl⟩ := listDirectory_of_damage (readInode_eq_ok.mp hv) hdir hd (hstray x hx v hv hdir)
      exact ⟨detail, by rw [hres, hwalk.error_of_mem hx hl]; rfl⟩
    have hend : ∀ f, r.resolvePath path = .error f →
        (f.errno = .ENOTDIR ∨ f.errno = .EUCLEAN) ∨ f.errno = .ENOENT ∧
          (∀ x ∈ way, ∃ es, r.listDirectory x.1 = .ok es) ∧
          ∃ x ∈ way, ∃ es, r.listDirectory x.1 = .ok es ∧ ∀ e ∈ es, e.name ≠ x.2 := by
      intro f hf
      generalize (components path).foldlM r.resolveComponent r.superblock.rootInode.toNat = y at hres hwalk
      cases hwalk with
      | found hm _ =>
        obtain ⟨v, hv⟩ := hm
        rw [ok_bind, readInode_eq_ok.mpr hv] at hres
        cases hres.symm.trans hf
      | absent hall hx =>
        obtain rfl := Except.error.inj (hres.symm.trans hf)
        exact .inr ⟨rfl, hall, hx⟩
      | stopped hx _ =>
        obtain ⟨x, hx, he⟩ := hx
        obtain rfl := Except.error.inj (hres.symm.trans hf)
        obtain ⟨v, hv⟩ := hread x hx
        rcases throws_listDirectory hv _ he with h | h | ⟨-, hdir, hs⟩
        · exact .inl (.inl h)
        · exact .inl (.inr h)
        · exact absurd hs (hstray x hx v (readInode_eq_ok.mpr hv) hdir)
    refine ⟨fun f hf => ?_, fun f hf hno => ?_, by rw [hway]; exact hdamage⟩
    · rcases hend f hf with (h | h) | ⟨h, -⟩
      exacts [.inr (.inl h), .inr (.inr h), .inl h]
    · rcases hend f hf with (h | h) | ⟨-, h⟩
      · cases h.symm.trans hno
      · cases h.symm.trans hno
      · rw [hway]
        exact h

theorem not_strayFirst_of_sound (hs : r.superblock.Sound r.image) (hv : r.readInode n = .ok v) (hdir : S_ISDIR v.mode) :
    ¬ r.StrayFirst [] (items v r.image) := by
  intro hstray
  have hr := readInode_eq_ok.mp hv
  have hlist := listDirectory_of_listable hr hdir (hs.listable hr.allocated hr.record hdir)
  cases hlist.symm.trans (listDirectory_of_stray hr hdir hstray)

theorem plainPath_a : PlainPath [47, 97] := Or.inr ⟨[97], rfl, by decide⟩

/-- The path `/a` on the small image. -/
theorem classified_iff_ledgerImage : adoptLockedFd 32 ledgerImage = .ok ledgerReader ∧ PlainPath [47, 97] ∧
    Classified ledgerReader [47, 97] :=
  ⟨adoptLockedFd_ledgerImage, plainPath_a,
    (classified_iff adoptLockedFd_ledgerImage plainPath_a).mpr fun _ _ _ hv hdir =>
    not_strayFirst_of_sound (ledgerImage_formatted.sound ledgerLayout) hv hdir⟩

/-- The same image with one entry in its root, for an inode number one above the table. -/
def strayImage : Image := update ledgerImage 16 (oneEntryBlock ⟨33, .kRegular, [97], 0⟩)

def strayReader : ImageReader := ⟨strayImage, ledgerSuperblock, formattedControl ledgerSuperblock, .kA⟩

theorem keepsMetadata_strayImage : ledgerSuperblock.KeepsMetadata ledgerImage strayImage := by
  refine .of_eq ledgerLayout.regions fun b hb => ?_
  have hb : b < 16 := hb
  exact update_of_ne (by omega) _ _

theorem ledgerImage_root : Readable ledgerSuperblock ledgerImage 1
    (formattedRoot ledgerSuperblock ledgerGeometry sampleHost) :=
  (ledgerImage_formatted.sound ledgerLayout).readable
    ((ledgerImage_formatted.mem_inodes_iff ledgerLayout).mpr (Or.inl rfl)) (ledgerImage_formatted.rootAt ledgerLayout)

theorem adoptLockedFd_strayImage : adoptLockedFd 32 strayImage = .ok strayReader := by
  have hregions := ledgerLayout.regions
  refine adoptLockedFd_eq_ok.mpr ⟨rfl,
    (ledgerImage_formatted.opens ledgerLayout).keep (keepsMetadata_strayImage.keepsControls hregions),
    keepsMetadata_strayImage.adoptable hregions (ledgerImage_formatted.sound ledgerLayout).adoptable fun v hv => ?_⟩
  obtain rfl := Option.some.inj (ledgerImage_root.record.symm.trans hv.record)
  rfl

/-- The reader takes the entry for a wrong argument: `/a` fails with `EINVAL`. -/
theorem stray_entry_is_einval : adoptLockedFd 32 strayImage = .ok strayReader ∧ PlainPath [47, 97] ∧
    strayReader.resolvePath [47, 97] = .error ⟨.EINVAL, ""⟩ ∧ ¬ Classified strayReader [47, 97] := by
  have hroot : Readable strayReader.superblock strayReader.image 1
    (formattedRoot ledgerSuperblock ledgerGeometry sampleHost) :=
    keepsMetadata_strayImage.readable ledgerLayout.regions ledgerImage_root rfl
  have hitems : items (formattedRoot ledgerSuperblock ledgerGeometry sampleHost) strayImage =
      [.ok ⟨33, .kRegular, [97], UInt16.ofNat kBlockSize⟩] := by
    have hblock : strayImage 16 = oneEntryBlock ⟨33, .kRegular, [97], 0⟩ := by rw [strayImage, update_self]
    have hblocks : (formattedRoot ledgerSuperblock ledgerGeometry sampleHost).blocks strayImage = [16] := by
      rw [blocks, root_requiredBlocks, if_pos (by decide), List.range_one, List.map_singleton,
        pointer_of_lt (by decide), root_directBlock ledgerLayout (by decide)]
      rfl
    rw [items, hblocks, List.flatMap_singleton, blockItems, hblock,
      blockRecords_oneEntryBlock ⟨by decide, Or.inl rfl, by decide⟩]
    rfl
  have hstray : strayReader.StrayFirst []
    (items (formattedRoot ledgerSuperblock ledgerGeometry sampleHost) strayImage) :=
    ⟨[], _, [], hitems, by decide, by decide, by decide, fun x hx => absurd hx List.not_mem_nil⟩
  have hlist := listDirectory_of_stray hroot root_isDir hstray
  have hres : strayReader.resolvePath [47, 97] = .error ⟨.EINVAL, ""⟩ := by
    rw [(resolvePath_eq_walk plainPath_a).1]
    show ([[97]].foldlM strayReader.resolveComponent 1 >>= _) = _
    rw [List.foldlM_cons, resolveComponent_of_plain (by decide), hlist]
    rfl
  refine ⟨adoptLockedFd_strayImage, plainPath_a, hres, fun h => ?_⟩
  rcases h.codes _ hres with h | h | h <;> cases h

end ImageReader

end Eufs
