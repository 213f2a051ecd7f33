import Eufs.Metadata.Change
import Eufs.Metadata.FileMutation

/-!
# Eufs.Metadata.Rewrite — what a plan for a file says

On a sound image the planner fails for lack of space only, and otherwise gives one definite plan: the blocks that
change go to the first free blocks, in order (`mutationPlan`).  The image after the plan has the new record, and the
bytes of the file are those of a byte string after the write.
-/

namespace Eufs

open ImageReader Superblock BitmapAllocator PlanImages InodeRecord

/-! ## Bytes of the new blocks -/

theorem byte_zeroRange {first stop blockBegin i : ℕ} {block : Block} (hi : i < kBlockSize) :
    (zeroRange first stop blockBegin block).byte i =
      if first ≤ blockBegin + i ∧ blockBegin + i < stop then 0 else block.byte i := by
  unfold zeroRange
  simp only
  split_ifs with h1 h2 h2
  · rw [Bytes.byte_write_in (by omega) (by rw [List.length_replicate]; omega) hi, List.getD_eq_getElem?_getD,
      List.getElem?_replicate]
    split_ifs <;> rfl
  · rw [Bytes.byte_write, if_neg]
    rw [List.length_replicate]
    omega
  · omega
  · rfl

theorem byte_overlayData {writeBegin blockBegin i : ℕ} {data : List UInt8} {block : Block} (hi : i < kBlockSize) :
    (overlayData writeBegin (writeBegin + data.length) blockBegin data block).byte i =
      if writeBegin ≤ blockBegin + i ∧ blockBegin + i < writeBegin + data.length then
        data.getD (blockBegin + i - writeBegin) 0
      else block.byte i := by
  unfold overlayData
  simp only
  split_ifs with h1 h2 h2
  · omega
  · rfl
  · rw [Bytes.byte_write_in (by omega) (by rw [List.length_take, List.length_drop]; omega) hi,
      List.getD_eq_getElem?_getD, List.getD_eq_getElem?_getD, List.getElem?_take, if_pos (by omega),
      List.getElem?_drop]
    congr 2
    omega
  · rw [Bytes.byte_write, if_neg]
    rw [List.length_take, List.length_drop]
    omega

theorem byte_dataBlock {data : List UInt8} {logical i : ℕ} (hi : i < kBlockSize) :
    (dataBlock data logical).byte i = data.getD (logical * kBlockSize + i) 0 := by
  have hb : kBlockSize = 4096 := rfl
  unfold dataBlock
  rw [Bytes.byte_write, List.length_take, List.length_drop, List.getD_eq_getElem?_getD, List.getD_eq_getElem?_getD]
  by_cases h : logical * kBlockSize + i < data.length
  · rw [if_pos (by omega), List.getElem?_take, if_pos (by omega), List.getElem?_drop, Nat.sub_zero]
  · rw [if_neg (by omega), Bytes.byte_zero, List.getElem?_eq_none (by omega)]
    rfl

theorem requiredBlocks_eq (size : ℕ) : requiredBlocks size = (size + 4096 - 1) / 4096 := by
  unfold requiredBlocks
  split_ifs with h
  · omega
  · show (size - 1) / 4096 + 1 = _
    omega

theorem InodeRecord.requiredBlocks_eq (v : InodeRecord) : v.requiredBlocks = Eufs.requiredBlocks v.size.toNat := by
  rw [Eufs.requiredBlocks_eq]
  rfl

theorem FileMutationMode.eq_writeRange {mode : FileMutationMode} (h : mode ≠ .kReplaceAll) : mode = .kWriteRange := by
  cases mode with
  | kReplaceAll => exact absurd rfl h
  | kWriteRange => rfl

/-! ## The loop -/

abbrev noSpace : Failure := ⟨.ENOSPC, "bitmap has no free allocatable bit"⟩

/-- The state after the contents `content` of the blocks `ls` went to the first free blocks. -/
def Rewriting.rewritten (d : Image) (content : ℕ → Block)
    (release : Finset ℕ → ℕ → Finset ℕ) (ls : List ℕ) (s : Rewriting) : Rewriting where
  allocator := s.allocator.taking (s.allocator.free.take ls.length)
  images := s.images.addOrderedAll d ((ls.zip s.allocator.free).map fun x => (x.2, content x.1))
  mapping := (ls.zip s.allocator.free).foldl (fun m x => m.set x.1 x.2) s.mapping
  released := ls.foldl release s.released

theorem foldlM_addOrderedBlock {r : ImageReader} {content : ℕ → Block} {release : Finset ℕ → ℕ → Finset ℕ}
    {f : Rewriting → ℕ → Except Failure Rewriting} {ls : List ℕ} {s : Rewriting} (hf : s.allocator.Fits)
    (hvalid : s.allocator.validBits ≤ r.superblock.totalBlocks.toNat)
    (hstep : ∀ l ∈ ls, ∀ s, f s l = addOrderedBlock r (content l) l { s with released := release s.released l }) :
    ls.foldlM f s = if ls.length ≤ s.allocator.free.length then .ok (s.rewritten r.image content release ls)
      else .error noSpace := by
  induction ls generalizing s with
  | nil => rfl
  | cons l ls ih =>
    obtain ⟨hl, hstep⟩ := List.forall_mem_cons.mp hstep
    rw [List.foldlM_cons, hl s, addOrderedBlock, reserve_eq hf]
    cases hfree : s.allocator.free with
    | nil => rfl
    | cons b rest =>
      have hb : b < r.superblock.totalBlocks.toNat := by
        have := ((mem_free hf).mp (hfree ▸ List.mem_cons_self)).1.2
        omega
      have hread : r.readBlock b = .ok (r.image b) := readBlock_eq_ok.mpr ⟨hb, rfl⟩
      have hrest : (s.allocator.taking [b]).free = rest := free_taking hfree
      simp only [ok_bind, hread]
      show ls.foldlM f _ = _
      have hrec := ih (s := ⟨s.allocator.taking [b], s.images.addOrdered b (r.image b) (content l), s.mapping.set l b,
        release s.released l⟩) (hf.taking [b]) hvalid hstep
      rw [hrec]
      rw [hrest, List.length_cons, List.length_cons]
      refine if_congr (by omega) (congrArg Except.ok ?_) rfl
      unfold Rewriting.rewritten
      simp only [hrest, hfree, List.length_cons, List.take_succ_cons, List.zip_cons_cons, List.map_cons,
        List.foldl_cons, taking_taking, List.singleton_append, addOrderedAll_cons]

theorem getElem?_foldl_set {xs : List (ℕ × ℕ)} {m : List ℕ} (hn : (xs.map Prod.fst).Nodup) :
    (xs.foldl (fun m x => m.set x.1 x.2) m).length = m.length ∧
    (∀ x ∈ xs, x.1 < m.length → (xs.foldl (fun m x => m.set x.1 x.2) m)[x.1]? = some x.2) ∧
    ∀ k, k ∉ xs.map Prod.fst → (xs.foldl (fun m x => m.set x.1 x.2) m)[k]? = m[k]? := by
  induction xs generalizing m with
  | nil => exact ⟨rfl, fun x hx => absurd hx List.not_mem_nil, fun k _ => rfl⟩
  | cons x xs ih =>
    obtain ⟨hnot, hn⟩ := List.nodup_cons.mp hn
    obtain ⟨h1, h2, h3⟩ := ih (m := m.set x.1 x.2) hn
    rw [List.foldl_cons]
    rw [List.length_set] at h1 h2
    refine ⟨h1, List.forall_mem_cons.mpr ⟨fun hx => ?_, h2⟩, fun k hk => ?_⟩
    · rw [h3 _ hnot, List.getElem?_set_self hx]
    · rw [List.map_cons, List.mem_cons, not_or] at hk
      rw [h3 k hk.2, List.getElem?_set_ne (Ne.symm hk.1)]

/-! ## What is rewritten -/

namespace FileMutationRequest

section Definitions

variable (request : FileMutationRequest)

/-- The number of blocks of the file after the change. -/
def newCount (v : InodeRecord) : ℕ := Eufs.requiredBlocks (request.newSize v.size.toNat)

/-- The first logical block that is rewritten. -/
def firstRewritten (v : InodeRecord) : ℕ :=
  match request.mode with
  | .kReplaceAll => 0
  | .kWriteRange => request.firstChanged v.size.toNat

/-- The number of logical blocks that are rewritten. -/
def rewrittenCount (v : InodeRecord) : ℕ :=
  match request.mode with
  | .kReplaceAll => request.newCount v
  | .kWriteRange => request.lastChanged (request.newCount v) + 1 - request.firstChanged v.size.toNat

/-- Logical block `l` is rewritten. -/
def Rewrites (v : InodeRecord) (l : ℕ) : Prop :=
  request.firstRewritten v ≤ l ∧ l < request.firstRewritten v + request.rewrittenCount v

instance (v : InodeRecord) (l : ℕ) : Decidable (request.Rewrites v l) := by unfold Rewrites; infer_instance

/-- The new content of a rewritten block. -/
def contentAt (d : Image) (v : InodeRecord) (l : ℕ) : Block :=
  match request.mode with
  | .kReplaceAll => dataBlock request.data l
  | .kWriteRange => request.writtenBlock v.size.toNat l
      (if l < v.requiredBlocks ∧ ¬ request.coversWhole l then d (v.pointer d l) else Bytes.zero kBlockSize)

/-- The new mapping: rewritten blocks go to the first free ones. -/
def newMapping (d : Image) (v : InodeRecord) (free : List ℕ) : List ℕ :=
  (List.range (request.newCount v)).map fun l =>
    if request.Rewrites v l then free.getD (l - request.firstRewritten v) 0 else v.pointer d l

/-- The old data blocks that are released. -/
def releasedData (d : Image) (v : InodeRecord) : Finset ℕ :=
  (((List.range v.requiredBlocks).filter fun l => request.mode = .kReplaceAll ∨ request.Rewrites v l).map
    (v.pointer d)).toFinset

/-- The checks a request passes for the inode `v`. -/
structure Accepts (v : InodeRecord) : Prop where
  data : request.mode = .kWriteRange → request.data ≠ []
  limit : request.writeEnd ≤ kMaxFileSize
  regular : S_ISREG v.mode
  current : request.mode = .kReplaceAll → v.generation = request.expectedGeneration
  wraps : v.generation.toNat ≠ 2 ^ 64 - 1

end Definitions

variable {request : FileMutationRequest} {r : ImageReader} {n l : ℕ} {v : InodeRecord} {d : Image}

theorem Accepts.writeEnd_pos (h : request.Accepts v) (hm : request.mode = .kWriteRange) :
    request.offset.toNat < request.writeEnd := by
  have := List.length_pos_of_ne_nil (h.data hm)
  rw [writeEnd]
  omega

theorem newCount_eq (hm : request.mode = .kWriteRange) :
    request.newCount v = (max v.size.toNat request.writeEnd + 4096 - 1) / 4096 := by
  rw [newCount, requiredBlocks_eq, newSize, hm]

theorem rewrites_iff (hm : request.mode = .kWriteRange) :
    request.Rewrites v l ↔ min v.size.toNat request.offset.toNat / 4096 ≤ l ∧
      l < min v.size.toNat request.offset.toNat / 4096 +
        ((request.writeEnd - 1) / 4096 + 1 - min v.size.toNat request.offset.toNat / 4096) := by
  rw [Rewrites, firstRewritten, rewrittenCount, hm, lastChanged, hm]
  rfl

theorem rewrites_all (hm : request.mode = .kReplaceAll) : request.Rewrites v l ↔ l < request.newCount v := by
  simp [Rewrites, firstRewritten, rewrittenCount, hm]

theorem Accepts.lt_newCount (h : request.Accepts v) (hl : request.Rewrites v l) : l < request.newCount v := by
  cases hm : request.mode with
  | kReplaceAll => exact (rewrites_all hm).mp hl
  | kWriteRange =>
    have := h.writeEnd_pos hm
    have := (rewrites_iff hm).mp hl
    rw [newCount_eq hm]
    omega

theorem Accepts.kept (h : request.Accepts v) (hl : l < request.newCount v) (hn : ¬ request.Rewrites v l) :
    request.mode = .kWriteRange ∧ l < v.requiredBlocks := by
  cases hm : request.mode with
  | kReplaceAll => exact absurd ((rewrites_all hm).mpr hl) hn
  | kWriteRange =>
    have := h.writeEnd_pos hm
    rw [rewrites_iff hm] at hn
    rw [newCount_eq hm] at hl
    refine ⟨rfl, ?_⟩
    show l < (v.size.toNat + 4096 - 1) / 4096
    omega

theorem requiredBlocks_le_newCount (hm : request.mode = .kWriteRange) : v.requiredBlocks ≤ request.newCount v := by
  rw [newCount_eq hm]
  show (v.size.toNat + 4096 - 1) / 4096 ≤ _
  omega

theorem mem_foldl_releaseOld {mapping : List ℕ} {b : ℕ} {ls : List ℕ} {s : Finset ℕ} :
    b ∈ ls.foldl (releaseOld mapping) s ↔ b ∈ s ∨ ∃ l ∈ ls, mapping[l]? = some b := by
  induction ls generalizing s with
  | nil => simp
  | cons l ls ih =>
    have hstep : b ∈ releaseOld mapping s l ↔ b ∈ s ∨ mapping[l]? = some b := by
      unfold releaseOld
      cases hl : mapping[l]? with
      | none => simp
      | some c => simp [or_comm, eq_comm]
    simp only [List.foldl_cons, ih, hstep, List.mem_cons, exists_eq_or_imp, or_assoc]

theorem mem_releasedData {b : ℕ} : b ∈ request.releasedData d v ↔
    ∃ l < v.requiredBlocks, (request.mode = .kReplaceAll ∨ request.Rewrites v l) ∧ v.pointer d l = b := by
  simp [releasedData, and_assoc]

/-! ## The loop over the rewritten blocks -/

section

variable (request : FileMutationRequest) (r : ImageReader) (v : InodeRecord)

/-- The state before the loop. -/
def startState : Rewriting where
  allocator := r.blockAllocator
  images := {}
  released := ∅
  mapping := match request.mode with
    | .kReplaceAll => List.replicate (request.newCount v) 0
    | .kWriteRange => v.blocks r.image ++ List.replicate (request.newCount v - (v.blocks r.image).length) 0

/-- The rewritten blocks with their new places and contents. -/
def orderedBlocks : List (ℕ × Block) :=
  ((List.range' (request.firstRewritten v) (request.rewrittenCount v)).zip r.blockAllocator.free).map fun x =>
    (x.2, request.contentAt r.image v x.1)

/-- The state after the loop. -/
def endState : Rewriting where
  allocator := r.blockAllocator.taking (r.blockAllocator.free.take (request.rewrittenCount v))
  images := addOrderedAll {} r.image (request.orderedBlocks r v)
  mapping := request.newMapping r.image v r.blockAllocator.free
  released := request.releasedData r.image v

end

theorem length_startState : (request.startState r v).mapping.length = request.newCount v := by
  unfold startState
  cases hm : request.mode with
  | kReplaceAll => exact List.length_replicate
  | kWriteRange =>
    have := requiredBlocks_le_newCount (v := v) hm
    simp only [List.length_append, List.length_replicate, blocks, List.length_map, List.length_range]
    omega

theorem Accepts.startState_kept (h : request.Accepts v) (hl : l < request.newCount v) (hn : ¬ request.Rewrites v l) :
    (request.startState r v).mapping[l]? = some (v.pointer r.image l) := by
  obtain ⟨hm, hlt⟩ := h.kept hl hn
  simp only [startState, hm]
  rw [List.getElem?_append_left (by simpa [blocks] using hlt), getElem?_blocks, if_pos hlt]

theorem Accepts.mapping_eq (h : request.Accepts v) (hfree : request.rewrittenCount v ≤ r.blockAllocator.free.length) :
    ((List.range' (request.firstRewritten v) (request.rewrittenCount v)).zip r.blockAllocator.free).foldl
      (fun m x => m.set x.1 x.2) (request.startState r v).mapping =
        request.newMapping r.image v r.blockAllocator.free := by
  generalize hxs : (List.range' (request.firstRewritten v) (request.rewrittenCount v)).zip r.blockAllocator.free = xs
  have hfst : xs.map Prod.fst = List.range' (request.firstRewritten v) (request.rewrittenCount v) := by
    rw [← hxs, List.map_fst_zip (by rwa [List.length_range'])]
  obtain ⟨h1, h2, h3⟩ :=
    @getElem?_foldl_set xs (request.startState r v).mapping (by rw [hfst]; exact List.nodup_range')
  refine List.ext_getElem? fun l => ?_
  by_cases hl : l < request.newCount v
  · rw [newMapping, List.getElem?_map, List.getElem?_range hl, Option.map_some]
    by_cases hw : request.Rewrites v l
    · obtain ⟨hge, hlt⟩ := hw
      rw [if_pos ⟨hge, hlt⟩]
      have hi : l - request.firstRewritten v < r.blockAllocator.free.length := by omega
      have hmem : (l, r.blockAllocator.free.getD (l - request.firstRewritten v) 0) ∈ xs := by
        refine List.mem_iff_getElem?.mpr ⟨l - request.firstRewritten v, ?_⟩
        rw [← hxs, List.getElem?_zip_eq_some]
        refine ⟨?_, ?_⟩
        · rw [List.getElem?_range' (by omega)]
          congr 1
          omega
        · rw [List.getD_eq_getElem?_getD, List.getElem?_eq_getElem hi]
          rfl
      exact h2 _ hmem (by rwa [length_startState])
    · rw [if_neg hw, h3 l, h.startState_kept hl hw]
      rw [hfst, List.mem_range'_1]
      exact hw
  · rw [List.getElem?_eq_none (by rw [h1, length_startState]; omega),
      List.getElem?_eq_none (by simpa [newMapping] using hl)]

theorem oldBlock_eq (hv : Readable r.superblock r.image n v) : request.oldBlock r (v.blocks r.image) l =
    .ok (if l < v.requiredBlocks ∧ ¬ request.coversWhole l then r.image (v.pointer r.image l)
      else Bytes.zero kBlockSize) := by
  unfold oldBlock
  rw [getElem?_blocks]
  by_cases hl : l < v.requiredBlocks
  · by_cases hc : request.coversWhole l
    · simp [hl, hc]
    · simp only [hl, hc, if_true, if_false, not_false_eq_true, and_self]
      exact readBlock_eq_ok.mpr ⟨(hv.mapped.inData _ (pointer_mem_owned hl)).2, rfl⟩
  · simp [hl]

theorem Accepts.rewriteBlocks_eq (h : request.Accepts v) (hr : r.superblock.Regions)
    (hv : Readable r.superblock r.image n v) :
    request.rewriteBlocks r v.size.toNat (request.newCount v) (v.blocks r.image) (request.startState r v) =
      if request.rewrittenCount v ≤ r.blockAllocator.free.length then .ok (request.endState r v)
      else .error noSpace := by
  have hfits : (request.startState r v).allocator.Fits := blockAllocator_fits hr
  have hmapping := h.mapping_eq (r := r)
  unfold rewriteBlocks
  cases hm : request.mode with
  | kReplaceAll =>
    have hloop := @foldlM_addOrderedBlock r (dataBlock request.data) (fun s _ => s) (request.replaceBlock r)
      (List.range (request.newCount v)) _ hfits le_rfl fun l _ s => rfl
    have hcount : request.rewrittenCount v = request.newCount v := by simp [rewrittenCount, hm]
    have hfirst : request.firstRewritten v = 0 := by simp [firstRewritten, hm]
    rw [hcount, hfirst, ← List.range_eq_range'] at hmapping
    rw [hloop, List.length_range, hcount]
    by_cases hle : request.newCount v ≤ r.blockAllocator.free.length
    · rw [if_pos (show _ ≤ (request.startState r v).allocator.free.length from hle), if_pos hle, ok_bind]
      refine congrArg Except.ok ?_
      have hconst : (List.range (request.newCount v)).foldl (fun (s : Finset ℕ) (_ : ℕ) => s) ∅ = ∅ :=
        foldl_observe (fun s => s) (fun _ _ => rfl) _ _
      have hreleased : (List.range (request.newCount v)).foldl (fun (s : Finset ℕ) (_ : ℕ) => s) ∅ ∪
          (v.blocks r.image).toFinset = request.releasedData r.image v := by
        rw [hconst, Finset.empty_union, releasedData, List.filter_eq_self.mpr (by simp [hm]), blocks]
      simp only [Rewriting.rewritten, endState, orderedBlocks, hcount, hfirst, ← List.range_eq_range',
        List.length_range, contentAt, hm, Rewriting.mk.injEq]
      exact ⟨rfl, rfl, hmapping hle, hreleased⟩
    · rw [if_neg (show ¬ _ ≤ (request.startState r v).allocator.free.length from hle), if_neg hle]
      rfl
  | kWriteRange =>
    have hstep : ∀ l ∈ List.range' (request.firstRewritten v) (request.rewrittenCount v), ∀ s,
        request.writeBlock r v.size.toNat (v.blocks r.image) s l = addOrderedBlock r (request.contentAt r.image v l) l
          { s with released := releaseOld (v.blocks r.image) s.released l } := by
      intro l _ s
      rw [writeBlock, oldBlock_eq hv, ok_bind, contentAt, hm]
    have hloop := foldlM_addOrderedBlock hfits le_rfl hstep
    have hfirst : request.firstRewritten v = request.firstChanged v.size.toNat := by simp [firstRewritten, hm]
    have hcount : request.rewrittenCount v =
        request.lastChanged (request.newCount v) + 1 - request.firstChanged v.size.toNat := by simp [rewrittenCount, hm]
    simp only
    rw [← hcount, ← hfirst, hloop, List.length_range']
    refine if_ctx_congr Iff.rfl (fun hle => congrArg Except.ok ?_) fun _ => rfl
    simp only [Rewriting.rewritten, endState, orderedBlocks, List.length_range', Rewriting.mk.injEq]
    refine ⟨rfl, rfl, hmapping hle, ?_⟩
    ext b
    rw [mem_foldl_releaseOld, mem_releasedData]
    simp only [getElem?_blocks, Rewrites, List.mem_range'_1, hm, reduceCtorEq, false_or, startState,
      Finset.notMem_empty]
    refine exists_congr fun l => ?_
    split_ifs with hl <;> simp [hl]

/-! ## Bitmap, indirect block and record -/

section Definitions

variable (request : FileMutationRequest) (r : ImageReader) (n : ℕ) (v : InodeRecord)

/-- The indirect block is rewritten. -/
abbrev RewritesIndirect : Prop := request.changesIndirect v.indirect (request.newCount v)

/-- The free blocks the change takes. -/
def neededBlocks : ℕ := request.rewrittenCount v + if request.RewritesIndirect v then 1 else 0

/-- The blocks that are reserved. -/
def reserved : List ℕ := r.blockAllocator.free.take (request.neededBlocks v)

/-- The blocks that are released. -/
def released : Finset ℕ := request.releaseIndirect v.indirect (request.newCount v) (request.releasedData r.image v)

/-- The indirect block after the change. -/
def newIndirect : ℕ :=
  if request.RewritesIndirect v then r.blockAllocator.free.getD (request.rewrittenCount v) 0
  else if request.mode = .kReplaceAll then 0 else v.indirect

/-- The block bitmap after the change. -/
def newBitmap : Bitmap :=
  ((r.blockAllocator.taking (request.reserved r v)).dropping ((request.released r v).sort (· ≤ ·))).bitmap

/-- The record after the change. -/
def newRecord : InodeRecord :=
  request.newInode v (request.newMapping r.image v r.blockAllocator.free) (request.newIndirect r v)

/-- The images with the new indirect block, if there is one. -/
def withIndirect (p : PlanImages) : PlanImages :=
  if request.RewritesIndirect v then
    p.setMetadata (request.newIndirect r v) (r.image (request.newIndirect r v))
      (indirectBlockOf (request.newMapping r.image v r.blockAllocator.free))
  else p

/-- The images of the plan. -/
def planImages : PlanImages :=
  (request.withIndirect r v ((request.endState r v).images.addBitmap r.superblock.blockBitmap r.blockBitmap
      (request.newBitmap r v))).setMetadata (inodeTableBlock r.superblock n) (r.image (inodeTableBlock r.superblock n))
    (putInode n (inodeBytes (request.newRecord r v)) (r.image (inodeTableBlock r.superblock n)))

end Definitions

theorem length_newMapping {free : List ℕ} : (request.newMapping d v free).length = request.newCount v := by
  simp [newMapping]

theorem reserveIndirect_eq (hr : r.superblock.Regions)
    (hc : request.rewrittenCount v ≤ r.blockAllocator.free.length) :
    request.reserveIndirect v.indirect (request.newCount v) (request.endState r v).allocator =
      if request.neededBlocks v ≤ r.blockAllocator.free.length then
        .ok (request.newIndirect r v, r.blockAllocator.taking (request.reserved r v))
      else .error noSpace := by
  have hfits := blockAllocator_fits hr
  unfold reserveIndirect newIndirect reserved neededBlocks
  by_cases hi : request.RewritesIndirect v
  · rw [if_pos hi, if_pos hi, if_pos hi]
    have hsplit := (List.take_append_drop (request.rewrittenCount v) r.blockAllocator.free).symm
    rw [show (request.endState r v).allocator = r.blockAllocator.taking (r.blockAllocator.free.take _) from rfl,
      reserve_eq (hfits.taking _), free_taking hsplit]
    cases hdrop : r.blockAllocator.free.drop (request.rewrittenCount v) with
    | nil =>
      have := List.drop_eq_nil_iff.mp hdrop
      rw [if_neg (by omega)]
    | cons b rest =>
      have hlt : request.rewrittenCount v < r.blockAllocator.free.length := by
        by_contra hge
        rw [List.drop_eq_nil_of_le (not_lt.mp hge)] at hdrop
        cases hdrop
      have hb : r.blockAllocator.free[request.rewrittenCount v]? = some b := by
        rw [← List.head?_drop, hdrop]
        rfl
      rw [if_pos (by omega), List.take_add_one, hb, List.getD_eq_getElem?_getD, hb]
      simp only [taking_taking, Option.toList_some, Option.getD_some]
  · rw [if_neg hi, if_neg hi, if_neg hi, Nat.add_zero, if_pos hc]
    rfl

theorem mem_released {b : ℕ} : b ∈ request.released r v ↔ b ∈ request.releasedData r.image v ∨
    (v.indirect ≠ 0 ∧ (request.mode = .kReplaceAll ∨ request.RewritesIndirect v)) ∧ b = v.indirect := by
  unfold released releaseIndirect
  split_ifs with h
  · rw [Finset.mem_insert, or_comm]
    exact or_congr_right ⟨fun hb => ⟨h, hb⟩, And.right⟩
  · exact ⟨.inl, fun hb => hb.resolve_right fun hc => h hc.1⟩

theorem mem_owned_of_released {b : ℕ} (h : b ∈ request.released r v) : b ∈ v.owned r.image := by
  rcases mem_released.mp h with h | ⟨⟨h0, -⟩, rfl⟩
  · obtain ⟨l, hl, -, rfl⟩ := mem_releasedData.mp h
    exact pointer_mem_owned hl
  · exact indirect_mem_owned h0

/-- The blocks to release are in use, also after the reservations. -/
theorem releaseAll_eq (hr : r.superblock.Regions) (hv : Readable r.superblock r.image n v) :
    ((request.released r v).sort (· ≤ ·)).foldlM releaseAllocated
      (r.blockAllocator.taking (request.reserved r v)) =
        .ok ((r.blockAllocator.taking (request.reserved r v)).dropping ((request.released r v).sort (· ≤ ·))) := by
  refine foldlM_releaseAllocated ((blockAllocator_fits hr).taking _)
    (Finset.sort_nodup _ _) fun b hb => ?_
  have hb := mem_owned_of_released ((Finset.mem_sort _).mp hb)
  refine ⟨hv.mapped.inData b hb, ?_⟩
  show (List.foldl Bitmap.setBit r.blockBitmap _).testBit b = true
  rw [testBit_foldl_setBit, Bool.or_eq_true]
  exact .inr (hv.blocks b hb)

theorem Accepts.newSize_le (h : request.Accepts v) (hv : v.Valid) : request.newSize v.size.toNat ≤ 1036 * 4096 := by
  have hlimit : request.writeEnd ≤ 1036 * 4096 := h.limit
  have hsize : v.size.toNat ≤ 1036 * 4096 := hv.size
  rw [writeEnd] at hlimit
  unfold newSize writeEnd
  split <;> omega

theorem Accepts.newRecord_size (h : request.Accepts v) (hv : v.Valid) :
    (request.newRecord r v).size.toNat = request.newSize v.size.toNat :=
  UInt64.toNat_ofNat_of_lt' (by have := h.newSize_le hv; show _ < 2 ^ 64; omega)

theorem Accepts.newRecord_valid (h : request.Accepts v) (hv : v.Valid) : (request.newRecord r v).Valid := by
  refine ⟨hv.number, hv.mode, ?_⟩
  rw [h.newRecord_size hv]
  exact h.newSize_le hv

theorem mem_reserved_lt (hr : r.superblock.Regions) {b : ℕ} (hb : b ∈ request.reserved r v) :
    (r.superblock.data.start ≤ b ∧ b < r.superblock.totalBlocks.toNat) ∧
      r.superblock.blockBit r.image b = false :=
  (mem_free (blockAllocator_fits hr)).mp (List.mem_of_mem_take hb)

/-- A new indirect block is the last of the reserved blocks. -/
theorem newIndirect_mem (hi : request.RewritesIndirect v)
    (hc : request.neededBlocks v ≤ r.blockAllocator.free.length) :
    request.newIndirect r v ∈ request.reserved r v := by
  rw [neededBlocks, if_pos hi] at hc
  rw [newIndirect, reserved, neededBlocks, if_pos hi, if_pos hi, List.getD_eq_getElem?_getD,
    List.getElem?_eq_getElem (by omega), Option.getD_some]
  exact List.mem_take_iff_getElem.mpr ⟨request.rewrittenCount v, by omega, rfl⟩

theorem Accepts.publishMutation_eq (h : request.Accepts v) (hr : r.superblock.Regions)
    (hv : Readable r.superblock r.image n v) (hc : request.rewrittenCount v ≤ r.blockAllocator.free.length) :
    publishMutation r n request v (request.endState r v) =
      if request.neededBlocks v ≤ r.blockAllocator.free.length then
        .ok (request.newRecord r v, request.planImages r n v)
      else .error noSpace := by
  have hlength : (request.endState r v).mapping.length = request.newCount v := length_newMapping
  unfold publishMutation
  rw [hlength, reserveIndirect_eq hr hc]
  by_cases hfree : request.neededBlocks v ≤ r.blockAllocator.free.length
  · rw [if_pos hfree, if_pos hfree]
    obtain ⟨h1, h2, -⟩ := mem_inodes.mp hv.allocated
    have htable : r.readBlock (inodeTableBlock r.superblock n) = .ok (r.image (inodeTableBlock r.superblock n)) := by
      refine readBlock_eq_ok.mpr ⟨?_, rfl⟩
      obtain ⟨⟨-, hlt⟩, -⟩ := hr.offsetsInside.inode n h1 h2
      obtain ⟨-, -, -, -, h5, h6, h7, h8⟩ := hr.chain
      omega
    have hencode : orFail .EUCLEAN (encodeInode (request.newRecord r v)) =
      .ok (inodeBytes (request.newRecord r v)) := by
      have hvalid := (decodeInode_valid (inodeAt_eq_some.mp hv.record)).1
      rw [orFail_eq_ok]
      exact encodeInode_eq_ok.mpr ⟨h.newRecord_valid hvalid, rfl⟩
    have hindirect : ∀ p, request.addIndirect r v.indirect (request.newIndirect r v)
        (request.newMapping r.image v r.blockAllocator.free) p = .ok (request.withIndirect r v p) := by
      intro p
      rw [addIndirect, length_newMapping, withIndirect]
      by_cases hi : request.RewritesIndirect v
      · have hread : r.readBlock (request.newIndirect r v) = .ok (r.image (request.newIndirect r v)) :=
          readBlock_eq_ok.mpr ⟨(mem_reserved_lt hr (newIndirect_mem hi hfree)).1.2, rfl⟩
        rw [if_pos hi, if_pos hi, hread]
        rfl
      · rw [if_neg hi, if_neg hi]
    simp only [ok_bind]
    refine bind_eq_ok.mpr ⟨_, releaseAll_eq hr hv,
      bind_eq_ok.mpr ⟨_, hindirect _, bind_eq_ok.mpr ⟨_, htable, ?_⟩⟩⟩
    exact bind_eq_ok.mpr ⟨_, hencode, rfl⟩
  · rw [if_neg hfree, if_neg hfree]
    rfl

/-! ## The planner -/

/-- The plan for a request on a sound image. -/
def mutationPlan (request : FileMutationRequest) (r : ImageReader) (n : ℕ) (v : InodeRecord) : FileMutationPlan where
  inodeNumber := n
  oldGeneration := v.generation
  newGeneration := v.generation + 1
  oldSize := v.size
  newSize := (request.newRecord r v).size
  oldDataBlocks := v.blocks r.image
  newDataBlocks := request.newMapping r.image v r.blockAllocator.free
  oldIndirectBlock := v.indirect
  newIndirectBlock := (request.newRecord r v).indirect
  totalBlocks := r.superblock.totalBlocks
  filesystemUuid := r.superblock.filesystemUuid
  images := request.planImages r n v

theorem loadMapping_eq (hv : Readable r.superblock r.image n v) : loadMapping r v = .ok (v.blocks r.image) := by
  unfold loadMapping
  rw [← InodeRecord.requiredBlocks_eq]
  have hmap : ∀ ls : List ℕ, (∀ l ∈ ls, l < v.requiredBlocks) →
      ls.mapM (r.mapLogicalBlock v) = .ok (ls.map (v.pointer r.image)) := by
    intro ls
    induction ls with
    | nil => exact fun _ => rfl
    | cons l ls ih =>
      intro hls
      obtain ⟨hl, hls⟩ := List.forall_mem_cons.mp hls
      rw [List.mapM_cons, mapLogicalBlock_of_readable hv hl, ok_bind, ih hls, ok_bind, List.map_cons]
      rfl
  exact hmap _ fun l hl => List.mem_range.mp hl

/-- The planner on a sound image: it fails only for lack of free blocks. -/
theorem Accepts.prepareFileMutation_eq (h : request.Accepts v) (hr : r.superblock.Regions)
    (hs : r.superblock.Sound r.image) (hv : Readable r.superblock r.image n v) :
    prepareFileMutation r n request =
      if request.neededBlocks v ≤ r.blockAllocator.free.length then .ok (request.mutationPlan r n v)
      else .error noSpace := by
  have hn : n ≠ 0 := by
    have := (mem_inodes.mp hv.allocated).1
    omega
  have hlimit := h.limit
  rw [writeEnd] at hlimit
  have howned := List.nodup_append.mp (hs.owned_nodup hv.allocated hv.record)
  have hmapping : ¬ (¬ (v.blocks r.image).Nodup ∨ v.indirect ≠ 0 ∧ v.indirect ∈ v.blocks r.image) := by
    rintro (hc | ⟨h0, hc⟩)
    · exact hc howned.1
    · exact howned.2.2 _ hc _ (by rw [if_neg h0]; exact List.mem_singleton_self _) rfl
  unfold prepareFileMutation
  rw [reject_bind_of_not hn, reject_bind_of_not fun hc => h.data hc.1 hc.2, reject_bind_of_not (by omega),
    readInode_eq_ok.mpr hv, ok_bind, reject_bind_of_not (not_not.mpr h.regular),
    reject_bind_of_not fun hc => hc.2 (h.current hc.1), reject_bind_of_not h.wraps, loadMapping_eq hv, ok_bind,
    reject_bind_of_not hmapping, blockAllocator_validate hr hs.adoptable]
  simp only [orFail]
  show (request.rewriteBlocks r v.size.toNat (request.newCount v) (v.blocks r.image) (request.startState r v) >>= _) = _
  rw [h.rewriteBlocks_eq hr hv]
  by_cases hc : request.rewrittenCount v ≤ r.blockAllocator.free.length
  · rw [if_pos hc, ok_bind, h.publishMutation_eq hr hv hc]
    by_cases hfree : request.neededBlocks v ≤ r.blockAllocator.free.length
    · rw [if_pos hfree, if_pos hfree]
      rfl
    · rw [if_neg hfree, if_neg hfree]
      rfl
  · have : request.rewrittenCount v ≤ request.neededBlocks v := Nat.le_add_right _ _
    rw [if_neg hc, if_neg (by omega)]
    rfl

theorem accepts_of_prepare {plan : FileMutationPlan} (h : prepareFileMutation r n request = .ok plan) :
    ∃ v, r.readInode n = .ok v ∧ request.Accepts v := by
  unfold prepareFileMutation at h
  obtain ⟨-, h⟩ := reject_bind_eq_ok.mp h
  obtain ⟨hdata, h⟩ := reject_bind_eq_ok.mp h
  obtain ⟨hlimit, h⟩ := reject_bind_eq_ok.mp h
  obtain ⟨v, hv, h⟩ := bind_eq_ok.mp h
  obtain ⟨hreg, h⟩ := reject_bind_eq_ok.mp h
  obtain ⟨hcurrent, h⟩ := reject_bind_eq_ok.mp h
  obtain ⟨hwraps, -⟩ := reject_bind_eq_ok.mp h
  refine ⟨v, hv, fun hm hd => hdata ⟨hm, hd⟩, ?_, not_not.mp hreg, fun hm => ?_, hwraps⟩
  · rw [writeEnd]
    omega
  · exact not_not.mp fun hc => hcurrent ⟨hm, hc⟩

end FileMutationRequest

end Eufs
