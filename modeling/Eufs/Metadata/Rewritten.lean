import Eufs.Metadata.Content
import Eufs.Metadata.Mapping
import Eufs.Metadata.Rewrite

/-!
# Eufs.Metadata.Rewritten — the image after the change of a file

The image with the after-images of a file mutation in place: the rewritten blocks stand at their new places, the
record has the new mapping, and the rest of the tree is as it was.  The bytes of the file are those of a byte string
after the write (`FileMutationRequest.newContent`).
-/

namespace Eufs

open Superblock BitmapAllocator PlanImages Function InodeRecord

variable {i m : ℕ}

/-! ## Byte strings -/

/-- The byte string `content` with `data` written at `offset`; a gap behind its end is filled with zeros. -/
def overwrite (content : List UInt8) (offset : ℕ) (data : List UInt8) : List UInt8 :=
  let base := content ++ List.replicate (offset - content.length) 0
  base.take offset ++ data ++ base.drop (offset + data.length)

theorem length_overwrite (content : List UInt8) (offset : ℕ) (data : List UInt8) :
    (overwrite content offset data).length = max content.length (offset + data.length) := by
  simp only [overwrite, List.length_append, List.length_take, List.length_drop, List.length_replicate]
  omega

theorem getD_overwrite (content : List UInt8) (offset : ℕ) (data : List UInt8) (i : ℕ) :
    (overwrite content offset data).getD i 0 =
      if offset ≤ i ∧ i < offset + data.length then data.getD (i - offset) 0 else content.getD i 0 := by
  have hbase : ∀ j, (content ++ List.replicate (offset - content.length) (0 : UInt8)).getD j 0 =
    content.getD j 0 := by
    intro j
    simp only [List.getD_eq_getElem?_getD, List.getElem?_append, List.getElem?_replicate]
    by_cases hj : j < content.length
    · rw [if_pos hj]
    · rw [if_neg hj, List.getElem?_eq_none (not_lt.mp hj)]
      split_ifs <;> rfl
  have hlength : ((content ++ List.replicate (offset - content.length) (0 : UInt8)).take offset).length = offset := by
    simp only [List.length_take, List.length_append, List.length_replicate]
    omega
  unfold overwrite
  simp only [List.append_assoc]
  rw [List.getD_eq_getElem?_getD, List.getElem?_append, hlength]
  by_cases h1 : i < offset
  · rw [if_pos h1, if_neg (by omega), List.getElem?_take, if_pos h1, ← List.getD_eq_getElem?_getD, hbase]
  · rw [if_neg h1, List.getElem?_append]
    by_cases h2 : i < offset + data.length
    · rw [if_pos (by omega), if_pos ⟨by omega, h2⟩, ← List.getD_eq_getElem?_getD]
    · rw [if_neg (by omega), if_neg (by omega), List.getElem?_drop, ← List.getD_eq_getElem?_getD, hbase]
      congr 1
      omega

namespace FileMutationRequest

/-- The content of a file after the request, as a byte string. -/
def newContent (request : FileMutationRequest) (content : List UInt8) : List UInt8 :=
  match request.mode with
  | .kReplaceAll => request.data
  | .kWriteRange => overwrite content request.offset.toNat request.data

variable {request : FileMutationRequest} {r : ImageReader} {n l b : ℕ} {v : InodeRecord}

/-- A request that is planned for inode `n` of a sound image. -/
structure Planned (request : FileMutationRequest) (r : ImageReader) (n : ℕ) (v : InodeRecord) : Prop where
  regions : r.superblock.Regions
  sound : r.superblock.Sound r.image
  readable : Readable r.superblock r.image n v
  accepts : request.Accepts v
  space : request.neededBlocks v ≤ r.blockAllocator.free.length

/-- The image with the change in place. -/
abbrev afterImage (request : FileMutationRequest) (r : ImageReader) (n : ℕ) (v : InodeRecord) : Image :=
  (request.planImages r n v).after r.image

/-! ## Block by block -/

theorem Planned.rewritten_le (h : request.Planned r n v) : request.rewrittenCount v ≤ r.blockAllocator.free.length :=
  (Nat.le_add_right _ _).trans h.space

/-- The place of the rewritten block `i`, counted from the first. -/
def place (r : ImageReader) (i : ℕ) : ℕ := r.blockAllocator.free.getD i 0

theorem Planned.place_mem (h : request.Planned r n v) (hi : i < request.neededBlocks v) :
    place r i ∈ request.reserved r v := by
  have := h.space
  rw [place, List.getD_eq_getElem?_getD, List.getElem?_eq_getElem (by omega), Option.getD_some]
  exact List.mem_take_iff_getElem.mpr ⟨i, by omega, rfl⟩

theorem Planned.mem_reserved (h : request.Planned r n v) :
    b ∈ request.reserved r v ↔ ∃ i < request.neededBlocks v, place r i = b := by
  constructor
  · intro hb
    obtain ⟨i, hi, rfl⟩ := List.mem_take_iff_getElem.mp hb
    refine ⟨i, by omega, ?_⟩
    rw [place, List.getD_eq_getElem?_getD, List.getElem?_eq_getElem (by omega), Option.getD_some]
  · rintro ⟨i, hi, rfl⟩
    exact h.place_mem hi

theorem Planned.place_inj (h : request.Planned r n v) {j : ℕ} (hi : i < request.neededBlocks v)
    (hj : j < request.neededBlocks v) (heq : place r i = place r j) : i = j := by
  have := h.space
  rw [place, place, List.getD_eq_getElem?_getD, List.getD_eq_getElem?_getD, List.getElem?_eq_getElem (by omega),
    List.getElem?_eq_getElem (by omega), Option.getD_some, Option.getD_some] at heq
  exact (nodup_free r.blockAllocator).getElem_inj_iff.mp heq

theorem Planned.place_range (h : request.Planned r n v) (hi : i < request.neededBlocks v) :
    r.superblock.data.start ≤ place r i ∧ place r i < r.superblock.totalBlocks.toNat :=
  (mem_reserved_lt h.regions (h.place_mem hi)).1

theorem orderedBlocks_eq (hc : request.rewrittenCount v ≤ r.blockAllocator.free.length) : request.orderedBlocks r v =
    (List.range (request.rewrittenCount v)).map fun i =>
      (place r i, request.contentAt r.image v (request.firstRewritten v + i)) := by
  refine List.ext_getElem? fun i => ?_
  rw [orderedBlocks, List.getElem?_map, List.getElem?_map]
  by_cases hi : i < request.rewrittenCount v
  · rw [List.getElem?_range hi]
    have hzip : ((List.range' (request.firstRewritten v) (request.rewrittenCount v)).zip r.blockAllocator.free)[i]? =
        some (request.firstRewritten v + i, place r i) := by
      refine List.getElem?_zip_eq_some.mpr ⟨?_, ?_⟩
      · rw [List.getElem?_range' hi, Nat.one_mul]
      · rw [place, List.getD_eq_getElem?_getD, List.getElem?_eq_getElem (by omega)]
        rfl
    rw [hzip]
    rfl
  · rw [List.getElem?_eq_none (by simp; omega), List.getElem?_eq_none (by simp; omega)]
    rfl

theorem newIndirect_eq_place (hi : request.RewritesIndirect v) :
    request.newIndirect r v = place r (request.rewrittenCount v) := by
  rw [newIndirect, if_pos hi, place]

theorem neededBlocks_of_rewrites (hi : request.RewritesIndirect v) :
    request.neededBlocks v = request.rewrittenCount v + 1 := by
  rw [neededBlocks, if_pos hi]

theorem Planned.table_range (h : request.Planned r n v) :
    r.superblock.blockBitmap.start + r.superblock.blockBitmap.count ≤ inodeTableBlock r.superblock n ∧
      inodeTableBlock r.superblock n < r.superblock.data.start := by
  obtain ⟨h1, h2, -⟩ := mem_inodes.mp h.readable.allocated
  exact h.regions.table_range h1 h2

theorem Planned.bitmap_stop (h : request.Planned r n v) :
    r.superblock.blockBitmap.start + r.superblock.blockBitmap.count ≤ r.superblock.data.start :=
  h.table_range.1.trans h.table_range.2.le

theorem Planned.after_ordered (h : request.Planned r n v) :
    (∀ i < request.rewrittenCount v, (request.endState r v).images.after r.image (place r i) =
      request.contentAt r.image v (request.firstRewritten v + i)) ∧
    ∀ c, (∀ i < request.rewrittenCount v, c ≠ place r i) →
    (request.endState r v).images.after r.image c = r.image c := by
  have hne : request.rewrittenCount v ≤ request.neededBlocks v := Nat.le_add_right _ _
  have hfst : (request.orderedBlocks r v).map Prod.fst = (List.range (request.rewrittenCount v)).map (place r) := by
    rw [orderedBlocks_eq h.rewritten_le, List.map_map]
    rfl
  have hnodup : ((request.orderedBlocks r v).map Prod.fst).Nodup := by
    rw [hfst]
    refine List.Nodup.map_on (fun i hi j hj heq => ?_) List.nodup_range
    exact h.place_inj ((List.mem_range.mp hi).trans_le hne) ((List.mem_range.mp hj).trans_le hne) heq
  obtain ⟨h1, h2⟩ := after_addOrderedAll (p := {}) (d := r.image) hnodup fun x _ => by simp
  refine ⟨fun i hi => h1 (place r i, _) ?_, fun c hc => ?_⟩
  · rw [orderedBlocks_eq h.rewritten_le]
    exact List.mem_map.mpr ⟨i, List.mem_range.mpr hi, rfl⟩
  · have hc : c ∉ (request.orderedBlocks r v).map Prod.fst := by
      rw [hfst]
      intro hmem
      obtain ⟨i, hi, rfl⟩ := List.mem_map.mp hmem
      exact hc i (List.mem_range.mp hi) rfl
    exact (h2 c hc).trans (congrFun (after_empty r.image) c)

/-- The image before the record is replaced. -/
abbrev beforeRecord (request : FileMutationRequest) (r : ImageReader) (v : InodeRecord) : Image :=
  (request.withIndirect r v ((request.endState r v).images.addBitmap r.superblock.blockBitmap r.blockBitmap
    (request.newBitmap r v))).after r.image

theorem after_withIndirect (p : PlanImages) : (request.withIndirect r v p).after r.image =
    if request.RewritesIndirect v then update (p.after r.image) (request.newIndirect r v)
      (indirectBlockOf (request.newMapping r.image v r.blockAllocator.free))
    else p.after r.image := by
  unfold withIndirect
  split_ifs with hi
  · exact after_setMetadata
  · rfl

/-- The image before the record is replaced, block by block. -/
structure Planned.Spec (request : FileMutationRequest) (r : ImageReader) (v : InodeRecord) (d : Image) : Prop where
  content : ∀ i < request.rewrittenCount v, d (place r i) = request.contentAt r.image v (request.firstRewritten v + i)
  indirect : request.RewritesIndirect v → d (request.newIndirect r v) =
    indirectBlockOf (request.newMapping r.image v r.blockAllocator.free)
  bitmap : ∀ k < r.superblock.blockBitmap.count,
    d (r.superblock.blockBitmap.start + k) = bitmapBlock (request.newBitmap r v) k
  other : ∀ b, b ∉ request.reserved r v → (b < r.superblock.blockBitmap.start ∨
    r.superblock.blockBitmap.start + r.superblock.blockBitmap.count ≤ b) → d b = r.image b

section

variable (h : request.Planned r n v)

include h

theorem Planned.spec_beforeRecord : Planned.Spec request r v (request.beforeRecord r v) := by
  obtain ⟨ho1, ho2⟩ := h.after_ordered
  have hneed : request.rewrittenCount v ≤ request.neededBlocks v := Nat.le_add_right _ _
  have hstop := h.bitmap_stop
  obtain ⟨hb1, hb2⟩ := @PlanImages.after_addBitmap (request.endState r v).images r.image
    r.superblock.blockBitmap r.blockBitmap (request.newBitmap r v) fun k hk => by
      rw [ho2 _ fun i hi => by have := (h.place_range (hi.trans_le hneed)).1; omega]
      exact (bitmapBlock_loadBitmap _ _ _).symm
  unfold beforeRecord
  rw [after_withIndirect]
  by_cases hi : request.RewritesIndirect v
  · have hlast : request.rewrittenCount v < request.neededBlocks v := by
      rw [neededBlocks_of_rewrites hi]
      omega
    have hrange := h.place_range hlast
    rw [if_pos hi, newIndirect_eq_place hi]
    refine ⟨fun i hlt => ?_, fun _ => ?_, fun k hk => ?_, fun b hb hout => ?_⟩
    · have := h.place_range (hlt.trans_le hneed)
      have hne : place r i ≠ place r (request.rewrittenCount v) := fun hc => by
        have := h.place_inj (hlt.trans_le hneed) hlast hc
        omega
      rw [update_of_ne hne, hb2 _ (by omega), ho1 i hlt]
    · rw [newIndirect_eq_place hi, update_self]
    · rw [update_of_ne (by omega), hb1 k hk]
    · have hne : b ≠ place r (request.rewrittenCount v) := fun hc => hb (hc ▸ h.place_mem hlast)
      rw [update_of_ne hne, hb2 b hout, ho2 b fun i hlt hc => hb (hc ▸ h.place_mem (hlt.trans_le hneed))]
  · rw [if_neg hi]
    refine ⟨fun i hlt => ?_, fun hc => absurd hc hi, hb1, fun b hb hout => ?_⟩
    · have := h.place_range (hlt.trans_le hneed)
      rw [hb2 _ (by omega), ho1 i hlt]
    · rw [hb2 b hout, ho2 b fun i hlt hc => hb (hc ▸ h.place_mem (hlt.trans_le hneed))]

theorem Planned.table_eq :
    request.beforeRecord r v (inodeTableBlock r.superblock n) = r.image (inodeTableBlock r.superblock n) := by
  obtain ⟨h1, h2⟩ := h.table_range
  refine h.spec_beforeRecord.other _ (fun hc => ?_) (.inr h1)
  have := (mem_reserved_lt h.regions hc).1
  omega

theorem Planned.afterImage_eq : request.afterImage r n v =
    update (request.beforeRecord r v) (inodeTableBlock r.superblock n)
      (putInode n (inodeBytes (request.newRecord r v))
        (request.beforeRecord r v (inodeTableBlock r.superblock n))) := by
  rw [h.table_eq]
  exact after_setMetadata

theorem Planned.afterImage_of_ne (hb : b ≠ inodeTableBlock r.superblock n) :
    request.afterImage r n v b = request.beforeRecord r v b := by
  rw [h.afterImage_eq, update_of_ne hb]

/-! ## The tree -/

/-- A block before the data region that is not of the block bitmap. -/
theorem Planned.beforeRecord_of_lt (hb : b < r.superblock.data.start)
    (hout : b < r.superblock.blockBitmap.start ∨
      r.superblock.blockBitmap.start + r.superblock.blockBitmap.count ≤ b) :
    request.beforeRecord r v b = r.image b := by
  refine h.spec_beforeRecord.other b (fun hc => ?_) hout
  have := (mem_reserved_lt h.regions hc).1
  omega

theorem Planned.afterImage_of_lt (hb : b < r.superblock.data.start) (hout : b < r.superblock.blockBitmap.start ∨
      r.superblock.blockBitmap.start + r.superblock.blockBitmap.count ≤ b)
    (hne : b ≠ inodeTableBlock r.superblock n) : request.afterImage r n v b = r.image b := by
  rw [h.afterImage_of_ne hne, h.beforeRecord_of_lt hb hout]

theorem Planned.blockBit_after (hb : b < r.superblock.blockBitmap.count * kBlockSize * 8) :
    r.superblock.blockBit (request.afterImage r n v) b =
      (!decide (b ∈ (request.released r v).sort (· ≤ ·)) &&
        (decide (b ∈ request.reserved r v) || r.superblock.blockBit r.image b)) := by
  have htable := h.table_range
  have hblocks : ∀ k < r.superblock.blockBitmap.count, request.afterImage r n v (r.superblock.blockBitmap.start + k) =
      bitmapBlock (request.newBitmap r v) k := fun k hk => by
    rw [h.afterImage_of_ne (by omega), h.spec_beforeRecord.bitmap k hk]
  have hbit : r.superblock.blockBit (request.afterImage r n v) b = (request.newBitmap r v).testBit b :=
    testBit_loadBitmap_of_blocks hblocks hb
  rw [hbit]
  show (List.foldl Bitmap.clearBit (List.foldl Bitmap.setBit r.blockBitmap _) _).testBit b = _
  rw [testBit_foldl_clearBit, testBit_foldl_setBit]
  rfl

theorem Planned.not_reserved (hb : b ∈ v.owned r.image) : b ∉ request.reserved r v := by
  intro hc
  have hbit := h.readable.blocks b hb
  rw [(mem_reserved_lt h.regions hc).2] at hbit
  cases hbit

theorem Planned.changed : r.superblock.Changed r.image (request.afterImage r n v)
    [(n, request.newRecord r v)] [] (request.reserved r v) ((request.released r v).sort (· ≤ ·)) [] := by
  obtain ⟨hn1, hn2, -⟩ := mem_inodes.mp h.readable.allocated
  obtain ⟨hvalid, hnumber⟩ := decodeInode_valid (inodeAt_eq_some.mp h.readable.record)
  obtain ⟨e1, e2, e3, e4, h5, h6, h7, h8⟩ := h.regions.chain
  have htable := h.table_range
  refine ⟨fun m h1 h2 hm => ?_, ?_, ?_, fun k hk => ?_, fun m hm => absurd hm List.not_mem_nil,
    fun b hb => h.blockBit_after hb,
    fun b hb => mem_reserved_lt h.regions hb, fun b hb => ?_, fun b hb hnot _ => ?_⟩
  · have hm : ¬ m = n := by simpa using hm
    have := h.regions.table_range h1 h2
    rw [h.afterImage_eq, inodeSlot_putInode hn1 h1, if_neg hm, inodeSlot, inodeSlot,
      h.beforeRecord_of_lt this.2 (.inr this.1)]
  · simp only [List.mem_singleton, forall_eq]
    rw [h.afterImage_eq, inodeSlot_putInode hn1 hn1, if_pos rfl]
  · simp only [List.mem_singleton, forall_eq]
    exact ⟨h.accepts.newRecord_valid hvalid, hnumber⟩
  · simp only [List.not_mem_nil, decide_false, Bool.false_or]
    refine testBit_loadBitmap_congr (fun j hj => ?_) hk
    exact h.afterImage_of_lt (by omega) (.inl (by omega)) (by omega)
  · have hb := mem_owned_of_released ((Finset.mem_sort _).mp hb)
    exact ⟨h.readable.mapped.inData b hb, h.not_reserved hb⟩
  · rw [h.afterImage_of_ne (by omega), h.spec_beforeRecord.other b hnot (.inr (by omega))]

end

/-! ## The new record -/

/-- The place of logical block `l` after the change. -/
def newPointer (request : FileMutationRequest) (r : ImageReader) (v : InodeRecord) (l : ℕ) : ℕ :=
  if request.Rewrites v l then place r (l - request.firstRewritten v) else v.pointer r.image l

theorem newMapping_eq : request.newMapping r.image v r.blockAllocator.free =
    (List.range (request.newCount v)).map (request.newPointer r v) := rfl

theorem getD_newMapping (k : ℕ) : (request.newMapping r.image v r.blockAllocator.free).getD k 0 =
    if k < request.newCount v then request.newPointer r v k else 0 := by
  rw [newMapping_eq, List.getD_eq_getElem?_getD, List.getElem?_map]
  by_cases hk : k < request.newCount v
  · rw [List.getElem?_range hk, if_pos hk]
    rfl
  · rw [List.getElem?_eq_none (by simpa using hk), if_neg hk]
    rfl

theorem newPointer_of_rewrites (hl : request.Rewrites v l) :
    request.newPointer r v l = place r (l - request.firstRewritten v) := if_pos hl

theorem newPointer_of_kept (hl : ¬ request.Rewrites v l) : request.newPointer r v l = v.pointer r.image l := if_neg hl

theorem Rewrites.sub_lt (hl : request.Rewrites v l) : l - request.firstRewritten v < request.rewrittenCount v := by
  obtain ⟨h1, h2⟩ := hl
  omega

theorem Rewrites.needed (hl : request.Rewrites v l) : l - request.firstRewritten v < request.neededBlocks v :=
  hl.sub_lt.trans_le (Nat.le_add_right _ _)

theorem byte_writtenBlock {size k : ℕ} {old : Block} (hk : k < kBlockSize) :
    (request.writtenBlock size l old).byte k =
      if request.offset.toNat ≤ l * kBlockSize + k ∧ l * kBlockSize + k < request.writeEnd then
        request.data.getD (l * kBlockSize + k - request.offset.toNat) 0
      else if size ≤ l * kBlockSize + k ∧ l * kBlockSize + k < request.offset.toNat then 0 else old.byte k := by
  unfold writtenBlock
  simp only [writeEnd]
  rw [byte_overlayData hk]
  refine if_ctx_congr Iff.rfl (fun _ => rfl) fun _ => ?_
  by_cases hgap : request.offset.toNat > size
  · rw [if_pos hgap, byte_zeroRange hk]
  · rw [if_neg hgap, if_neg (by omega)]

theorem getD_content (v : InodeRecord) (d : Image) (i : ℕ) :
    (v.content d).getD i 0 = if i < v.size.toNat then v.byteAt d i else 0 := by
  rw [content, List.getD_eq_getElem?_getD, List.getElem?_map]
  by_cases hi : i < v.size.toNat
  · rw [List.getElem?_range hi, if_pos hi]
    rfl
  · rw [List.getElem?_eq_none (by simpa using hi), if_neg hi]
    rfl

theorem length_newContent : (request.newContent (v.content r.image)).length = request.newSize v.size.toNat := by
  cases hm : request.mode with
  | kReplaceAll => simp only [newContent, newSize, hm]
  | kWriteRange => simp only [newContent, newSize, hm, length_overwrite, writeEnd, content, List.length_map,
      List.length_range]

namespace Planned

variable (h : request.Planned r n v)

include h

theorem newPointer_range (hl : l < request.newCount v) : r.superblock.data.start ≤ request.newPointer r v l ∧
    request.newPointer r v l < r.superblock.totalBlocks.toNat := by
  by_cases hw : request.Rewrites v l
  · rw [newPointer_of_rewrites hw]
    exact h.place_range hw.needed
  · rw [newPointer_of_kept hw]
    exact h.readable.mapped.inData _ (pointer_mem_owned (h.accepts.kept hl hw).2)

theorem valid : v.Valid := (decodeInode_valid (inodeAt_eq_some.mp h.readable.record)).1

theorem newRecord_size : (request.newRecord r v).size.toNat = request.newSize v.size.toNat :=
  h.accepts.newRecord_size h.valid

theorem newRecord_requiredBlocks : (request.newRecord r v).requiredBlocks = request.newCount v := by
  rw [InodeRecord.requiredBlocks_eq, h.newRecord_size, newCount]

theorem newCount_le : request.newCount v ≤ 1036 := by
  have := h.accepts.newSize_le h.valid
  rw [newCount, requiredBlocks_eq]
  omega

/-- The indirect block that stays keeps all its pointers. -/
theorem kept_indirect (h12 : kDirectBlockCount < request.newCount v) (hi : ¬ request.RewritesIndirect v) :
    request.mode = .kWriteRange ∧ v.indirect ≠ 0 ∧ request.newCount v = v.requiredBlocks ∧
      ∀ l, kDirectBlockCount ≤ l → ¬ request.Rewrites v l := by
  have hnot : ¬ (request.mode = .kReplaceAll ∨ v.indirect = 0 ∨
    request.lastChanged (request.newCount v) ≥ kDirectBlockCount) :=
    fun hc => hi ⟨h12, hc⟩
  obtain ⟨hmode, h0, hlast⟩ : request.mode ≠ .kReplaceAll ∧ v.indirect ≠ 0 ∧
      ¬ request.lastChanged (request.newCount v) ≥ kDirectBlockCount := by
    rw [not_or, not_or] at hnot
    exact hnot
  have hm := FileMutationMode.eq_writeRange hmode
  have hlast : ¬ (request.writeEnd - 1) / 4096 ≥ 12 := by
    rw [lastChanged, hm] at hlast
    exact hlast
  have hreq : 12 < (v.size.toNat + 4096 - 1) / 4096 := h.readable.mapped.indirect.mp h0
  refine ⟨hm, h0, ?_, fun l hl hw => ?_⟩
  · rw [newCount_eq hm]
    show _ = (v.size.toNat + 4096 - 1) / 4096
    omega
  · have hl : 12 ≤ l := hl
    have := (rewrites_iff hm).mp hw
    omega

theorem newIndirect_range (h12 : kDirectBlockCount < request.newCount v) :
    r.superblock.data.start ≤ request.newIndirect r v ∧
    request.newIndirect r v < r.superblock.totalBlocks.toNat := by
  by_cases hi : request.RewritesIndirect v
  · exact (mem_reserved_lt h.regions (newIndirect_mem hi h.space)).1
  · obtain ⟨hm, h0, -⟩ := h.kept_indirect h12 hi
    rw [newIndirect, if_neg hi, hm, if_neg (by decide)]
    exact h.readable.mapped.inData _ (indirect_mem_owned h0)

theorem inData : r.superblock.InData (request.newMapping r.image v r.blockAllocator.free)
    (request.newIndirect r v) := by
  refine ⟨fun b hb => ?_, fun h12 => h.newIndirect_range (by rwa [length_newMapping] at h12)⟩
  rw [newMapping_eq] at hb
  obtain ⟨l, hl, rfl⟩ := List.mem_map.mp hb
  exact h.newPointer_range (List.mem_range.mp hl)

theorem indirectPointer_after (h12 : kDirectBlockCount < request.newCount v) {k : ℕ} (hk : k < kIndirectEntries) :
    indirectPointer (request.afterImage r n v (request.newIndirect r v)) k =
      (request.newMapping r.image v r.blockAllocator.free).getD (kDirectBlockCount + k) 0 := by
  have htable := h.table_range
  have hrange := h.newIndirect_range h12
  rw [h.afterImage_of_ne (by omega)]
  by_cases hi : request.RewritesIndirect v
  · rw [h.spec_beforeRecord.indirect hi, InodeRecord.Maps.indirectPointer_of h.inData]
    rw [length_newMapping]
    exact h.newCount_le
  · obtain ⟨hm, h0, hreq, hkept⟩ := h.kept_indirect h12 hi
    have hsame : request.newIndirect r v = v.indirect := by rw [newIndirect, if_neg hi, hm, if_neg (by decide)]
    rw [hsame] at hrange ⊢
    rw [h.spec_beforeRecord.other _ (h.not_reserved (indirect_mem_owned h0)) (.inr (by omega)),
      (h.readable.mapped.maps h.valid).entries (by simpa [blocks, ← hreq] using h12) k hk, getD_newMapping,
      List.getD_eq_getElem?_getD, getElem?_blocks, ← hreq, newPointer_of_kept (hkept _ (by omega))]
    split_ifs <;> rfl

theorem newRecord_maps : (request.newRecord r v).Maps (request.afterImage r n v)
    (request.newMapping r.image v r.blockAllocator.free) (request.newIndirect r v) := by
  refine ⟨h.newRecord_requiredBlocks.trans length_newMapping.symm, length_newMapping.trans_le h.newCount_le,
    fun k hk => InodeRecord.Maps.directBlock_of h.inData rfl hk, ?_, fun h12 k hk => ?_⟩
  · have hindirect : (request.newRecord r v).indirect =
        (if kDirectBlockCount < (request.newMapping r.image v r.blockAllocator.free).length then
          UInt32.ofNat (request.newIndirect r v) else 0).toNat := rfl
    rw [hindirect]
    split_ifs with h12
    · have h1 := (h.inData.indirect h12).2
      have h2 := r.superblock.totalBlocks.toNat_lt
      exact UInt32.toNat_ofNat_of_lt' (by show _ < 2 ^ 32; omega)
    · rfl
  · rw [length_newMapping] at h12
    exact h.indirectPointer_after h12 hk

theorem newRecord_mapped : (request.newRecord r v).Mapped r.superblock (request.afterImage r n v) :=
  h.newRecord_maps.mapped h.regions.data_pos h.inData

theorem newRecord_pointer (hl : l < request.newCount v) :
    (request.newRecord r v).pointer (request.afterImage r n v) l = request.newPointer r v l := by
  rw [h.newRecord_maps.pointer_eq (by rwa [length_newMapping]), getD_newMapping, if_pos hl]

theorem newRecord_owned : (request.newRecord r v).owned (request.afterImage r n v) =
    (List.range (request.newCount v)).map (request.newPointer r v) ++
      if kDirectBlockCount < request.newCount v then [request.newIndirect r v] else [] := by
  rw [h.newRecord_maps.owned_eq h.regions.data_pos h.inData, length_newMapping, newMapping_eq]

/-! ## The blocks of the file -/

theorem owned_nodup : (v.owned r.image).Nodup := h.sound.owned_nodup h.readable.allocated h.readable.record

theorem pointer_inj {l l' : ℕ} (hl : l < v.requiredBlocks) (hl' : l' < v.requiredBlocks)
    (heq : v.pointer r.image l = v.pointer r.image l') : l = l' :=
  List.inj_on_of_nodup_map (List.nodup_append.mp h.owned_nodup).1 (List.mem_range.mpr hl) (List.mem_range.mpr hl') heq

theorem pointer_ne_indirect (hl : l < v.requiredBlocks) (h0 : v.indirect ≠ 0) :
    v.pointer r.image l ≠ v.indirect := by
  refine (List.nodup_append.mp h.owned_nodup).2.2 _ (List.mem_map_of_mem (List.mem_range.mpr hl)) _ ?_
  rw [if_neg h0]
  exact List.mem_singleton_self _

theorem newPointer_mem (hl : l < request.newCount v) :
    (request.Rewrites v l ∧ request.newPointer r v l ∈ request.reserved r v) ∨
      (¬ request.Rewrites v l ∧ request.newPointer r v l ∈ v.owned r.image) := by
  by_cases hw : request.Rewrites v l
  · refine .inl ⟨hw, ?_⟩
    rw [newPointer_of_rewrites hw]
    exact h.place_mem hw.needed
  · refine .inr ⟨hw, ?_⟩
    rw [newPointer_of_kept hw]
    exact pointer_mem_owned (h.accepts.kept hl hw).2

theorem newPointer_inj {l l' : ℕ} (hl : l < request.newCount v) (hl' : l' < request.newCount v)
    (heq : request.newPointer r v l = request.newPointer r v l') : l = l' := by
  rcases h.newPointer_mem hl with ⟨hw, hm⟩ | ⟨hw, hm⟩ <;>
    rcases h.newPointer_mem hl' with ⟨hw', hm'⟩ | ⟨hw', hm'⟩
  · rw [newPointer_of_rewrites hw, newPointer_of_rewrites hw'] at heq
    have := h.place_inj hw.needed hw'.needed heq
    have := hw.1
    have := hw'.1
    omega
  · exact absurd (heq ▸ hm) (h.not_reserved hm')
  · exact absurd (heq ▸ hm') (h.not_reserved hm)
  · rw [newPointer_of_kept hw, newPointer_of_kept hw'] at heq
    exact h.pointer_inj (h.accepts.kept hl hw).2 (h.accepts.kept hl' hw').2 heq

theorem newPointer_ne_newIndirect (hl : l < request.newCount v) (h12 : kDirectBlockCount < request.newCount v) :
    request.newPointer r v l ≠ request.newIndirect r v := by
  intro heq
  by_cases hi : request.RewritesIndirect v
  · rcases h.newPointer_mem hl with ⟨hw, -⟩ | ⟨hw, hm⟩
    · rw [newPointer_of_rewrites hw, newIndirect_eq_place hi] at heq
      have hneed := neededBlocks_of_rewrites hi
      have := h.place_inj hw.needed (by omega) heq
      have := hw.sub_lt
      omega
    · exact h.not_reserved hm (heq ▸ newIndirect_mem hi h.space)
  · obtain ⟨hm, h0, -⟩ := h.kept_indirect h12 hi
    rw [newIndirect, if_neg hi, hm, if_neg (by decide)] at heq
    rcases h.newPointer_mem hl with ⟨hw, hres⟩ | ⟨hw, -⟩
    · exact h.not_reserved (indirect_mem_owned h0) (heq ▸ hres)
    · rw [newPointer_of_kept hw] at heq
      exact h.pointer_ne_indirect (h.accepts.kept hl hw).2 h0 heq

theorem newRecord_owned_nodup : ((request.newRecord r v).owned (request.afterImage r n v)).Nodup := by
  rw [h.newRecord_owned]
  refine List.nodup_append.mpr ⟨List.Nodup.map_on (fun l hl l' hl' heq =>
    h.newPointer_inj (List.mem_range.mp hl) (List.mem_range.mp hl') heq) List.nodup_range, ?_, ?_⟩
  · split_ifs <;> simp
  · intro b hb c hc
    obtain ⟨l, hl, rfl⟩ := List.mem_map.mp hb
    split_ifs at hc with h12
    · rw [List.mem_singleton.mp hc]
      exact h.newPointer_ne_newIndirect (List.mem_range.mp hl) h12
    · exact absurd hc List.not_mem_nil

/-- A data block of the file is released unless it stays. -/
theorem pointer_released_iff (hl : l < v.requiredBlocks) :
    v.pointer r.image l ∈ request.released r v ↔ request.mode = .kReplaceAll ∨ request.Rewrites v l := by
  rw [mem_released, mem_releasedData]
  constructor
  · rintro (⟨l', hl', hc, heq⟩ | ⟨⟨h0, -⟩, heq⟩)
    · rwa [h.pointer_inj hl' hl heq] at hc
    · exact absurd heq (h.pointer_ne_indirect hl h0)
  · exact fun hc => .inl ⟨l, hl, hc, rfl⟩

theorem indirect_released_iff (h0 : v.indirect ≠ 0) :
    v.indirect ∈ request.released r v ↔ request.mode = .kReplaceAll ∨ request.RewritesIndirect v := by
  rw [mem_released, mem_releasedData]
  constructor
  · rintro (⟨l, hl, -, heq⟩ | ⟨⟨-, hc⟩, -⟩)
    · exact absurd heq (h.pointer_ne_indirect hl h0)
    · exact hc
  · exact fun hc => .inr ⟨⟨h0, hc⟩, rfl⟩

/-- The file owns the reserved blocks and those of its old blocks that are not released. -/
theorem mem_newRecord_owned : b ∈ (request.newRecord r v).owned (request.afterImage r n v) ↔
    b ∈ request.reserved r v ∨ b ∈ v.owned r.image ∧ b ∉ request.released r v := by
  rw [h.newRecord_owned, List.mem_append, List.mem_map]
  constructor
  · rintro (⟨l, hl, rfl⟩ | hb)
    · have hl := List.mem_range.mp hl
      rcases h.newPointer_mem hl with ⟨-, hm⟩ | ⟨hw, hm⟩
      · exact .inl hm
      · refine .inr ⟨hm, ?_⟩
        obtain ⟨hmode, hlt⟩ := h.accepts.kept hl hw
        rw [newPointer_of_kept hw, h.pointer_released_iff hlt, hmode]
        simpa using hw
    · split_ifs at hb with h12
      · obtain rfl := List.mem_singleton.mp hb
        by_cases hi : request.RewritesIndirect v
        · exact .inl (newIndirect_mem hi h.space)
        · obtain ⟨hm, h0, -⟩ := h.kept_indirect h12 hi
          rw [newIndirect, if_neg hi, hm, if_neg (by decide)]
          refine .inr ⟨indirect_mem_owned h0, ?_⟩
          rw [h.indirect_released_iff h0, hm]
          simpa using hi
      · exact absurd hb List.not_mem_nil
  · rintro (hb | ⟨hb, hnot⟩)
    · obtain ⟨i, hi, rfl⟩ := h.mem_reserved.mp hb
      by_cases hlt : i < request.rewrittenCount v
      · have hw : request.Rewrites v (request.firstRewritten v + i) := ⟨Nat.le_add_right _ _, by omega⟩
        refine .inl ⟨_, List.mem_range.mpr (h.accepts.lt_newCount hw), ?_⟩
        rw [newPointer_of_rewrites hw, Nat.add_sub_cancel_left]
      · have hri : request.RewritesIndirect v := by
          by_contra hc
          rw [neededBlocks, if_neg hc] at hi
          omega
        rw [neededBlocks_of_rewrites hri] at hi
        obtain rfl : i = request.rewrittenCount v := by omega
        refine .inr ?_
        rw [if_pos hri.1, newIndirect_eq_place hri]
        exact List.mem_singleton_self _
    · rcases mem_owned.mp hb with ⟨l, hl, rfl⟩ | ⟨h0, rfl⟩
      · rw [h.pointer_released_iff hl, not_or] at hnot
        have hm := FileMutationMode.eq_writeRange hnot.1
        exact .inl ⟨l, List.mem_range.mpr (hl.trans_le (requiredBlocks_le_newCount hm)), newPointer_of_kept hnot.2⟩
      · rw [h.indirect_released_iff h0, not_or] at hnot
        have hm := FileMutationMode.eq_writeRange hnot.1
        have h12 := (h.readable.mapped.indirect.mp h0).trans_le (requiredBlocks_le_newCount hm)
        refine .inr ?_
        rw [if_pos h12, newIndirect, if_neg hnot.2, hm, if_neg (by decide)]
        exact List.mem_singleton_self _

/-! ## The other inodes -/

theorem inodes_eq : r.superblock.inodes (request.afterImage r n v) = r.superblock.inodes r.image := by
  have hle := h.regions.inodes_le
  refine List.filter_congr fun m hm => ?_
  obtain ⟨k, hk, rfl⟩ := List.mem_map.mp hm
  have hk := List.mem_range.mp hk
  rw [inodeBit, h.changed.inodeBits _ (by omega)]
  simp only [List.not_mem_nil, decide_false, Bool.false_or]
  rfl

theorem inodeAt_self : r.superblock.inodeAt (request.afterImage r n v) n = some (request.newRecord r v) :=
  h.changed.inodeAt_record (x := (n, request.newRecord r v)) (List.mem_singleton_self _)

theorem keeps (hm : m ∈ r.superblock.inodes r.image) (hne : m ≠ n) :
    r.superblock.Keeps r.image (request.afterImage r n v) m :=
  h.changed.keeps h.sound hm (by simpa using hne) fun b _ => List.not_mem_nil

theorem inodeAt_other (hm : m ∈ r.superblock.inodes r.image) (hne : m ≠ n) :
    r.superblock.inodeAt (request.afterImage r n v) m = r.superblock.inodeAt r.image m :=
  inodeAt_of_slot (h.keeps hm hne).slot

theorem sameTree : r.superblock.SameTree r.image (request.afterImage r n v) := by
  refine ⟨h.inodes_eq, fun m hm w hw => ?_, fun m hm w hw hdir => ?_⟩
  · by_cases hne : m = n
    · subst hne
      obtain rfl : v = w := Option.some.inj (h.readable.record.symm.trans hw)
      exact ⟨_, h.inodeAt_self, h.newRecord_mapped, rfl, rfl⟩
    · obtain ⟨w', hw', hmap⟩ := h.sound.inode m hm
      obtain rfl : w' = w := Option.some.inj (hw'.symm.trans hw)
      exact ⟨w', (h.inodeAt_other hm hne).trans hw, mapped_frame hmap ((h.keeps hm hne).owned hw), rfl, rfl⟩
  · have hne : m ≠ n := by
      rintro rfl
      obtain rfl : v = w := Option.some.inj (h.readable.record.symm.trans hw)
      exact not_isDir_of_isReg h.accepts.regular hdir
    obtain ⟨w', hw', hmap⟩ := h.sound.inode m hm
    obtain rfl : w' = w := Option.some.inj (hw'.symm.trans hw)
    have howned := (h.keeps hm hne).owned hw
    exact ⟨(h.inodeAt_other hm hne).trans hw, blocks_frame hmap howned,
      fun b hb => howned b (List.mem_append_left _ hb)⟩

theorem ownedBy_self : r.superblock.ownedBy (request.afterImage r n v) n =
    (request.newRecord r v).owned (request.afterImage r n v) := ownedBy_of_record h.inodeAt_self

theorem ownedBy_other (hm : m ∈ r.superblock.inodes r.image) (hne : m ≠ n) :
    r.superblock.ownedBy (request.afterImage r n v) m = r.superblock.ownedBy r.image m := by
  obtain ⟨w, hw, hmap⟩ := h.sound.inode m hm
  exact (h.keeps hm hne).ownedBy hw hmap

theorem mem_references : b ∈ r.superblock.references (request.afterImage r n v) ↔
    b ∉ (request.released r v).sort (· ≤ ·) ∧
    (b ∈ request.reserved r v ∨ b ∈ r.superblock.references r.image) := by
  have hn := h.readable.allocated
  have hself : r.superblock.ownedBy r.image n = v.owned r.image := ownedBy_of_record h.readable.record
  rw [Finset.mem_sort, references, references, h.inodes_eq]
  simp only [List.mem_flatMap]
  constructor
  · rintro ⟨m, hm, hb⟩
    by_cases hne : m = n
    · rw [hne, h.ownedBy_self, h.mem_newRecord_owned] at hb
      rcases hb with hb | ⟨hb, hnot⟩
      · exact ⟨fun hc => h.not_reserved (mem_owned_of_released hc) hb, .inl hb⟩
      · exact ⟨hnot, .inr ⟨n, hn, hself ▸ hb⟩⟩
    · rw [h.ownedBy_other hm hne] at hb
      refine ⟨fun hc => ?_, .inr ⟨m, hm, hb⟩⟩
      exact h.sound.owned_disjoint hne hm hn b hb (hself ▸ mem_owned_of_released hc)
  · rintro ⟨hnot, hb | ⟨m, hm, hb⟩⟩
    · refine ⟨n, hn, ?_⟩
      rw [h.ownedBy_self, h.mem_newRecord_owned]
      exact .inl hb
    · refine ⟨m, hm, ?_⟩
      by_cases hne : m = n
      · rw [hne, hself] at hb
        rw [hne, h.ownedBy_self, h.mem_newRecord_owned]
        exact .inr ⟨hb, hnot⟩
      · rwa [h.ownedBy_other hm hne]

theorem sound_after : r.superblock.Sound (request.afterImage r n v) := by
  refine h.sameTree.sound h.sound (h.changed.reserved_bits h.regions h.sound)
    (h.changed.referenced h.regions h.sound fun b => h.mem_references) ?_
  refine h.sound.once_of_shares (R := fun m => if m = n then request.reserved r v else []) (fun m hm => ?_)
    (fun m b hb => ?_) fun m m' hne b hb hb' => ?_
  · rw [h.inodes_eq] at hm
    by_cases hne : m = n
    · rw [hne, h.ownedBy_self, if_pos rfl]
      refine ⟨h.newRecord_owned_nodup, fun b hb => ?_⟩
      rcases h.mem_newRecord_owned.mp hb with hb | ⟨hb, -⟩
      · exact .inr hb
      · exact .inl ⟨h.readable.allocated, by rwa [ownedBy_of_record h.readable.record]⟩
    · rw [h.ownedBy_other hm hne]
      obtain ⟨w, hw, -⟩ := h.sound.inode m hm
      refine ⟨?_, fun b hb => .inl ⟨hm, hb⟩⟩
      rw [ownedBy_of_record hw]
      exact h.sound.owned_nodup hm hw
  · split_ifs at hb
    · exact (mem_reserved_lt h.regions hb).2
    · exact absurd hb List.not_mem_nil
  · split_ifs at hb hb' with h1 h2
    · exact hne (h1.trans h2.symm)
    · exact List.not_mem_nil hb'
    · exact List.not_mem_nil hb
    · exact List.not_mem_nil hb

/-! ## The content -/

theorem block_after (hl : l < request.newCount v) : request.afterImage r n v (request.newPointer r v l) =
    if request.Rewrites v l then request.contentAt r.image v l else r.image (v.pointer r.image l) := by
  have htable := h.table_range
  have hrange := h.newPointer_range hl
  rw [h.afterImage_of_ne (by omega)]
  split_ifs with hw
  · rw [newPointer_of_rewrites hw, h.spec_beforeRecord.content _ hw.sub_lt, Nat.add_sub_cancel' hw.1]
  · have hmem := pointer_mem_owned (d := r.image) (h.accepts.kept hl hw).2
    rw [newPointer_of_kept hw] at hrange ⊢
    exact h.spec_beforeRecord.other _ (h.not_reserved hmem) (.inr (by omega))

theorem byteAt_after (hi : i < request.newSize v.size.toNat) :
    (request.newRecord r v).byteAt (request.afterImage r n v) i =
      (if request.Rewrites v (i / kBlockSize) then request.contentAt r.image v (i / kBlockSize)
        else r.image (v.pointer r.image (i / kBlockSize))).byte (i % kBlockSize) := by
  have hl : i / kBlockSize < request.newCount v := by
    rw [newCount, requiredBlocks_eq]
    show i / 4096 < _
    omega
  rw [byteAt, h.newRecord_pointer hl, h.block_after hl]

theorem byteAt_newContent (hi : i < request.newSize v.size.toNat) :
    (request.newRecord r v).byteAt (request.afterImage r n v) i =
    (request.newContent (v.content r.image)).getD i 0 := by
  have hmod : i % kBlockSize < kBlockSize := Nat.mod_lt _ (by decide)
  have hdiv : i / kBlockSize * kBlockSize + i % kBlockSize = i := Nat.div_add_mod' i kBlockSize
  rw [h.byteAt_after hi]
  cases hm : request.mode with
  | kReplaceAll =>
    have hw : request.Rewrites v (i / kBlockSize) := by
      rw [rewrites_all hm, newCount, requiredBlocks_eq]
      show i / 4096 < _
      omega
    simp only [if_pos hw, contentAt, newContent, hm]
    rw [byte_dataBlock hmod, hdiv]
  | kWriteRange =>
    have hend : i < max v.size.toNat request.writeEnd := by
      rw [newSize, hm] at hi
      exact hi
    have hstart := h.accepts.writeEnd_pos hm
    simp only [contentAt, newContent, hm]
    rw [getD_overwrite, getD_content, ← writeEnd]
    by_cases hin : request.offset.toNat ≤ i ∧ i < request.writeEnd
    · -- a written byte
      have hw : request.Rewrites v (i / kBlockSize) := by
        rw [rewrites_iff hm]
        show _ ≤ i / 4096 ∧ i / 4096 < _
        omega
      rw [if_pos hw, byte_writtenBlock hmod, hdiv, if_pos hin, if_pos hin]
    · rw [if_neg hin]
      by_cases hsize : i < v.size.toNat
      · -- an old byte, in a block that stays or in a written one
        have hreq : i / kBlockSize < v.requiredBlocks := by
          show i / 4096 < (v.size.toNat + 4096 - 1) / 4096
          omega
        have hcover : ¬ request.coversWhole (i / kBlockSize) := by
          rintro ⟨h1, h2⟩
          have h1 : request.offset.toNat ≤ i / 4096 * 4096 := h1
          have h2 : request.writeEnd ≥ i / 4096 * 4096 + 4096 := h2
          omega
        rw [if_pos hsize]
        split_ifs with hw hcond
        · rw [byte_writtenBlock hmod, hdiv, if_neg hin, if_neg (by omega)]
          rfl
        · exact absurd ⟨hreq, hcover⟩ hcond
        · rfl
      · -- a byte of the gap
        have hw : request.Rewrites v (i / kBlockSize) := by
          rw [rewrites_iff hm]
          show _ ≤ i / 4096 ∧ i / 4096 < _
          omega
        rw [if_neg hsize, if_pos hw, byte_writtenBlock hmod, hdiv, if_neg hin, if_pos (by omega)]

theorem newRecord_content : (request.newRecord r v).content (request.afterImage r n v) =
    request.newContent (v.content r.image) := by
  refine content_eq (by rw [length_newContent, h.newRecord_size]) fun i hi => ?_
  rw [length_newContent] at hi
  exact h.byteAt_newContent hi

end Planned

end FileMutationRequest

end Eufs
