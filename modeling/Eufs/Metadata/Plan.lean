import Eufs.Base.Folds
import Eufs.Metadata.Consistent
import Eufs.Storage.Allocator

/-!
# Eufs.Metadata.Plan — the images of a plan

A planner does not write: it collects the blocks a transaction will write, in ordered data and metadata, and for each
of them what the image holds before.  `PlanImages.after` is the image with all of them written; every step of a
planner is an update of that image in one block.
-/

namespace Eufs

open Std.ExtTreeMap Function

variable {blocks : List (ℕ × Block)} {start k : ℕ} {old new : Bitmap}

/-- The block images of a plan. -/
structure PlanImages where
  beforeImages : BlockMap := ∅
  orderedDataAfterImages : BlockMap := ∅
  metadataAfterImages : BlockMap := ∅

namespace PlanImages

/-- A block of ordered data. -/
def addOrdered (p : PlanImages) (b : ℕ) (before after : Block) : PlanImages :=
  { p with
    beforeImages := p.beforeImages.insert b before
    orderedDataAfterImages := p.orderedDataAfterImages.insert b after }

/-- A block of metadata. -/
def setMetadata (p : PlanImages) (b : ℕ) (before after : Block) : PlanImages :=
  { p with
    beforeImages := p.beforeImages.insert b before
    metadataAfterImages := p.metadataAfterImages.insert b after }

/-- Edit a block of metadata; a block that was not edited before is taken from the image. -/
def editMetadata (p : PlanImages) (d : Image) (b : ℕ) (f : Block → Block) : PlanImages :=
  match p.metadataAfterImages[b]? with
  | some x => { p with metadataAfterImages := p.metadataAfterImages.insert b (f x) }
  | none => p.setMetadata b (d b) (f (d b))

/-- One block of a bitmap, if it differs. -/
def addBitmapBlock (start : ℕ) (before after : Bitmap) (p : PlanImages) (k : ℕ) : PlanImages :=
  if bitmapBlock before k = bitmapBlock after k then p
  else p.setMetadata (start + k) (bitmapBlock before k) (bitmapBlock after k)

def addBitmap (p : PlanImages) (region : Region) (before after : Bitmap) : PlanImages :=
  (List.range region.count).foldl (addBitmapBlock region.start before after) p

/-- Blocks of ordered data, one after the other. -/
def addOrderedAll (p : PlanImages) (d : Image) (blocks : List (ℕ × Block)) : PlanImages :=
  blocks.foldl (fun p x => p.addOrdered x.1 (d x.1) x.2) p

/-- The image with the after-images in place. -/
def after (p : PlanImages) (d : Image) : Image := fun b =>
  p.metadataAfterImages[b]?.getD (p.orderedDataAfterImages[b]?.getD (d b))

variable {p : PlanImages} {d : Image} {b : ℕ} {x y : Block}

/-! ## The image after each step -/

theorem after_empty (d : Image) : (⟨∅, ∅, ∅⟩ : PlanImages).after d = d := by
  funext b
  simp [after]

theorem after_addOrdered (h : b ∉ p.metadataAfterImages) :
    (p.addOrdered b x y).after d = update (p.after d) b y := by
  funext c
  by_cases hc : c = b
  · subst hc
    have hnone : p.metadataAfterImages[c]? = none := getElem?_eq_none h
    simp [after, addOrdered, hnone]
  · simp [after, addOrdered, getElem?_insert, update_of_ne hc, Ne.symm hc]

theorem addOrderedAll_cons (p : PlanImages) (d : Image) (x : ℕ × Block) (blocks : List (ℕ × Block)) :
    p.addOrderedAll d (x :: blocks) = (p.addOrdered x.1 (d x.1) x.2).addOrderedAll d blocks := rfl

/-- Each of the blocks holds its content, the others are as before. -/
theorem after_addOrderedAll (hn : (blocks.map Prod.fst).Nodup)
    (hm : ∀ x ∈ blocks, x.1 ∉ p.metadataAfterImages) :
    (∀ x ∈ blocks, (p.addOrderedAll d blocks).after d x.1 = x.2) ∧
      ∀ c, c ∉ blocks.map Prod.fst → (p.addOrderedAll d blocks).after d c = p.after d c := by
  induction blocks generalizing p with
  | nil => exact ⟨fun x hx => absurd hx List.not_mem_nil, fun c _ => rfl⟩
  | cons x blocks ih =>
    obtain ⟨hx, hm⟩ := List.forall_mem_cons.mp hm
    obtain ⟨hnot, hn⟩ := List.nodup_cons.mp hn
    obtain ⟨ih1, ih2⟩ := ih (p := p.addOrdered x.1 (d x.1) x.2) hn hm
    rw [addOrderedAll_cons]
    refine ⟨List.forall_mem_cons.mpr ⟨?_, ih1⟩, fun c hc => ?_⟩
    · rw [ih2 _ hnot, after_addOrdered hx, update_self]
    · rw [List.map_cons, List.mem_cons, not_or] at hc
      rw [ih2 c hc.2, after_addOrdered hx, update_of_ne hc.1]

theorem after_setMetadata : (p.setMetadata b x y).after d = update (p.after d) b y := by
  funext c
  by_cases hc : c = b
  · subst hc
    simp [after, setMetadata]
  · simp [after, setMetadata, getElem?_insert, update_of_ne hc, Ne.symm hc]

theorem after_editMetadata {f : Block → Block} (h : b ∉ p.orderedDataAfterImages) :
    (p.editMetadata d b f).after d = update (p.after d) b (f (p.after d b)) := by
  unfold editMetadata
  cases hm : p.metadataAfterImages[b]? with
  | none =>
    have hb : p.after d b = d b := by simp [after, hm, getElem?_eq_none h]
    rw [after_setMetadata, hb]
  | some z =>
    have hb : p.after d b = z := by simp [after, hm]
    rw [hb]
    funext c
    by_cases hc : c = b
    · subst hc
      simp [after]
    · simp [after, getElem?_insert, update_of_ne hc, Ne.symm hc]

theorem after_addBitmapBlock (h : p.after d (start + k) = bitmapBlock old k) :
    (addBitmapBlock start old new p k).after d = update (p.after d) (start + k) (bitmapBlock new k) := by
  unfold addBitmapBlock
  by_cases heq : bitmapBlock old k = bitmapBlock new k
  · rw [if_pos heq, ← heq, ← h, update_eq_self]
  · rw [if_neg heq, after_setMetadata]

/-- Inside the bitmap's region the new bitmap stands; outside it nothing changes. -/
theorem after_addBitmap {region : Region} {old new : Bitmap}
    (h : ∀ k < region.count, p.after d (region.start + k) = bitmapBlock old k) :
    (∀ k < region.count, (p.addBitmap region old new).after d (region.start + k) = bitmapBlock new k) ∧
      ∀ c, (c < region.start ∨ region.start + region.count ≤ c) →
      (p.addBitmap region old new).after d c = p.after d c := by
  refine foldl_range_induction
    (fun n (q : PlanImages) => (∀ k < n, q.after d (region.start + k) = bitmapBlock new k) ∧
    ∀ c, (c < region.start ∨ region.start + n ≤ c) → q.after d c = p.after d c)
    ⟨fun k hk => absurd hk (Nat.not_lt_zero k), fun c _ => rfl⟩ fun n hn q ⟨ih1, ih2⟩ => ?_
  rw [after_addBitmapBlock ((ih2 _ (.inr le_rfl)).trans (h n hn))]
  refine ⟨fun k hk => ?_, fun c hc => ?_⟩
  · by_cases hkn : k = n
    · rw [hkn, update_self]
    · rw [update_of_ne (by omega), ih1 k (by omega)]
  · rw [update_of_ne (by omega), ih2 c (by omega)]

/-! ## What a transaction asks of a plan -/

/-- The before-images are those of the image and belong to the blocks that change. -/
structure Ok (p : PlanImages) (d : Image) : Prop where
  unchanged : ∀ b x, p.beforeImages[b]? = some x → d b = x
  covered : ∀ b, b ∈ p.beforeImages ↔ b ∈ p.orderedDataAfterImages ∨ b ∈ p.metadataAfterImages
  disjoint : ∀ b ∈ p.orderedDataAfterImages, b ∉ p.metadataAfterImages

theorem ok_empty (d : Image) : (⟨∅, ∅, ∅⟩ : PlanImages).Ok d := ⟨by simp, by simp, by simp⟩

theorem Ok.addOrdered (h : p.Ok d) (hm : b ∉ p.metadataAfterImages) (y : Block) : (p.addOrdered b (d b) y).Ok d := by
  refine ⟨fun c x hx => ?_, fun c => ?_, fun c hc => ?_⟩
  · by_cases hbc : b = c
    · subst hbc
      simpa [PlanImages.addOrdered] using hx
    · refine h.unchanged c x ?_
      simpa [PlanImages.addOrdered, getElem?_insert, hbc] using hx
  · have := h.covered c
    by_cases hbc : b = c <;> simp [PlanImages.addOrdered, hbc, this]
  · by_cases hbc : b = c
    · exact hbc ▸ hm
    · exact h.disjoint c (by simpa [PlanImages.addOrdered, hbc] using hc)

theorem Ok.setMetadata (h : p.Ok d) (ho : b ∉ p.orderedDataAfterImages) (hx : d b = x) (y : Block) :
    (p.setMetadata b x y).Ok d := by
  refine ⟨fun c z hz => ?_, fun c => ?_, fun c hc => ?_⟩
  · by_cases hbc : b = c
    · subst hbc
      simpa [PlanImages.setMetadata, hx] using hz
    · refine h.unchanged c z ?_
      simpa [PlanImages.setMetadata, getElem?_insert, hbc] using hz
  · have := h.covered c
    by_cases hbc : b = c <;> simp [PlanImages.setMetadata, hbc, this]
  · have hbc : b ≠ c := fun hbc => ho (hbc ▸ hc)
    have := h.disjoint c hc
    simpa [PlanImages.setMetadata, hbc] using this

theorem Ok.editMetadata (h : p.Ok d) (ho : b ∉ p.orderedDataAfterImages) (f : Block → Block) :
    (p.editMetadata d b f).Ok d := by
  unfold PlanImages.editMetadata
  cases hm : p.metadataAfterImages[b]? with
  | none => exact h.setMetadata ho rfl _
  | some z =>
    have hmem : b ∈ p.metadataAfterImages := by
      rw [mem_iff_isSome_getElem?, hm]
      rfl
    refine ⟨h.unchanged, fun c => ?_, fun c hc => ?_⟩
    · by_cases hbc : b = c
      · subst hbc
        simp [h.covered, hmem]
      · simp [h.covered, hbc]
    · have hbc : b ≠ c := fun hbc => ho (hbc ▸ hc)
      have := h.disjoint c hc
      simpa [hbc] using this

theorem Ok.addBitmapBlock (h : p.Ok d) (ho : start + k ∉ p.orderedDataAfterImages)
    (hd : d (start + k) = bitmapBlock old k) : (PlanImages.addBitmapBlock start old new p k).Ok d := by
  unfold PlanImages.addBitmapBlock
  split_ifs
  · exact h
  · exact h.setMetadata ho hd _

theorem addBitmapBlock_ordered (start : ℕ) (old new : Bitmap) (p : PlanImages) (k : ℕ) :
    (addBitmapBlock start old new p k).orderedDataAfterImages = p.orderedDataAfterImages := by
  unfold addBitmapBlock
  split_ifs <;> rfl

theorem mem_addBitmapBlock (h : b ∈ (addBitmapBlock start old new p k).metadataAfterImages) :
    b ∈ p.metadataAfterImages ∨ b = start + k := by
  by_cases heq : bitmapBlock old k = bitmapBlock new k
  · rw [addBitmapBlock, if_pos heq] at h
    exact .inl h
  · rw [addBitmapBlock, if_neg heq] at h
    rcases mem_insert.mp h with hc | h
    · exact .inr (compare_eq_iff_eq.mp hc).symm
    · exact .inl h

/-- A bitmap adds blocks of its region only, and no ordered data. -/
theorem addBitmap_frame (p : PlanImages) (region : Region) (old new : Bitmap) :
    (p.addBitmap region old new).orderedDataAfterImages = p.orderedDataAfterImages ∧
      ∀ b, b ∈ (p.addBitmap region old new).metadataAfterImages →
        b ∈ p.metadataAfterImages ∨ region.start ≤ b ∧ b < region.start + region.count := by
  refine foldl_range_induction (fun _ (q : PlanImages) => q.orderedDataAfterImages = p.orderedDataAfterImages ∧
    ∀ b, b ∈ q.metadataAfterImages → b ∈ p.metadataAfterImages ∨ region.start ≤ b ∧
    b < region.start + region.count)
    ⟨rfl, fun b hb => .inl hb⟩ fun n hn q ⟨ih1, ih2⟩ =>
    ⟨(addBitmapBlock_ordered _ _ _ q n).trans ih1, fun b hb => ?_⟩
  rcases mem_addBitmapBlock hb with hb | rfl
  · exact ih2 b hb
  · exact .inr (by omega)

theorem Ok.addBitmap {region : Region} {old new : Bitmap} (h : p.Ok d)
    (ho : ∀ k < region.count, region.start + k ∉ p.orderedDataAfterImages)
    (hd : ∀ k < region.count, d (region.start + k) = bitmapBlock old k) : (p.addBitmap region old new).Ok d := by
  refine (foldl_range_induction (fun _ (q : PlanImages) => q.Ok d ∧
    q.orderedDataAfterImages = p.orderedDataAfterImages) ⟨h, rfl⟩
    fun n hn q ⟨ih1, ih2⟩ => ⟨?_, (addBitmapBlock_ordered _ _ _ q n).trans ih2⟩).1
  exact ih1.addBitmapBlock (by rw [ih2]; exact ho n hn) (hd n hn)

/-! ## A plan as an image -/

/-- The image with these blocks written. -/
def putAll (d : Image) (blocks : List (ℕ × Block)) : Image := blocks.foldl (fun d x => update d x.1 x.2) d

/-- The image with a bitmap written to its region. -/
def putBitmap (d : Image) (region : Region) (bm : Bitmap) : Image := fun b =>
  if region.start ≤ b ∧ b < region.start + region.count then bitmapBlock bm (b - region.start) else d b

theorem putAll_of_not_mem (h : b ∉ blocks.map Prod.fst) : putAll d blocks b = d b := by
  induction blocks generalizing d with
  | nil => rfl
  | cons x blocks ih =>
    rw [List.map_cons, List.mem_cons, not_or] at h
    exact (ih h.2).trans (update_of_ne h.1 _ _)

theorem putAll_of_mem (hn : (blocks.map Prod.fst).Nodup) (h : (b, x) ∈ blocks) : putAll d blocks b = x := by
  induction blocks generalizing d with
  | nil => exact absurd h List.not_mem_nil
  | cons z blocks ih =>
    obtain ⟨hnot, hn⟩ := List.nodup_cons.mp hn
    rcases List.mem_cons.mp h with rfl | h
    · exact (putAll_of_not_mem hnot).trans (update_self _ _ _)
    · exact ih hn h

theorem putBitmap_of_out {region : Region} {bm : Bitmap} (h : b < region.start ∨ region.start + region.count ≤ b) :
    putBitmap d region bm b = d b := if_neg (by omega)

theorem putBitmap_of_in {region : Region} {bm : Bitmap} (h : k < region.count) :
    putBitmap d region bm (region.start + k) = bitmapBlock bm k := by
  rw [putBitmap, if_pos (by omega), Nat.add_sub_cancel_left]

/-- The plan makes `d'` of `d`; its ordered data lie in `O` and its metadata in `M`. -/
structure Builds (p : PlanImages) (d d' : Image) (O M : Set ℕ) : Prop where
  ok : p.Ok d
  after : p.after d = d'
  ordered : ∀ b ∈ p.orderedDataAfterImages, b ∈ O
  metadata : ∀ b ∈ p.metadataAfterImages, b ∈ M

theorem builds_empty (d : Image) : (⟨∅, ∅, ∅⟩ : PlanImages).Builds d d ∅ ∅ :=
  ⟨ok_empty d, after_empty d, by simp, by simp⟩

namespace Builds

variable {d' : Image} {O M : Set ℕ} (h : p.Builds d d' O M)

include h

theorem mono {O' M' : Set ℕ} (hO : O ⊆ O') (hM : M ⊆ M') : p.Builds d d' O' M' :=
  ⟨h.ok, h.after, fun b hb => hO (h.ordered b hb), fun b hb => hM (h.metadata b hb)⟩

theorem frame (hO : b ∉ O) (hM : b ∉ M) : d' b = d b := by
  have hmetadata : p.metadataAfterImages[b]? = none := getElem?_eq_none fun hc => hM (h.metadata b hc)
  have hordered : p.orderedDataAfterImages[b]? = none := getElem?_eq_none fun hc => hO (h.ordered b hc)
  rw [← h.after]
  simp [PlanImages.after, hmetadata, hordered]

theorem setMetadata (hb : b ∉ O) (hx : d b = x) : (p.setMetadata b x y).Builds d (update d' b y) O (insert b M) := by
  refine ⟨h.ok.setMetadata (fun hc => hb (h.ordered b hc)) hx
    y, by rw [after_setMetadata, h.after], h.ordered, fun c hc => ?_⟩
  rcases mem_insert.mp hc with hc | hc
  · exact .inl (compare_eq_iff_eq.mp hc).symm
  · exact .inr (h.metadata c hc)

theorem editMetadata (hb : b ∉ O) (f : Block → Block) :
    (p.editMetadata d b f).Builds d (update d' b (f (d' b))) O (insert b M) := by
  have hnot : b ∉ p.orderedDataAfterImages := fun hc => hb (h.ordered b hc)
  refine ⟨h.ok.editMetadata hnot f, by rw [after_editMetadata hnot,
    h.after], fun c hc => h.ordered c ?_, fun c hc => ?_⟩
  · unfold PlanImages.editMetadata at hc
    split at hc <;> exact hc
  · have hmem : compare b c = .eq ∨ c ∈ p.metadataAfterImages := by
      unfold PlanImages.editMetadata at hc
      split at hc <;> exact mem_insert.mp hc
    rcases hmem with hc | hc
    · exact .inl (compare_eq_iff_eq.mp hc).symm
    · exact .inr (h.metadata c hc)

theorem addOrdered (hb : b ∉ M) (y : Block) :
    (p.addOrdered b (d b) y).Builds d (update d' b y) (insert b O) M := by
  have hnot : b ∉ p.metadataAfterImages := fun hc => hb (h.metadata b hc)
  refine ⟨h.ok.addOrdered hnot y, by rw [after_addOrdered hnot, h.after], fun c hc => ?_, h.metadata⟩
  rcases mem_insert.mp hc with hc | hc
  · exact .inl (compare_eq_iff_eq.mp hc).symm
  · exact .inr (h.ordered c hc)

theorem addOrderedAll {blocks : List (ℕ × Block)} (hm : ∀ x ∈ blocks, x.1 ∉ M) :
    (p.addOrderedAll d blocks).Builds d (putAll d' blocks) (O ∪ {b | b ∈ blocks.map Prod.fst}) M := by
  induction blocks generalizing p d' O with
  | nil => exact h.mono Set.subset_union_left subset_rfl
  | cons x blocks ih =>
    obtain ⟨hx, hm⟩ := List.forall_mem_cons.mp hm
    refine (ih (h.addOrdered hx x.2) hm).mono ?_ subset_rfl
    rintro b ((rfl | hb) | hb)
    · exact .inr List.mem_cons_self
    · exact .inl hb
    · exact .inr (List.mem_cons_of_mem _ hb)

theorem addBitmap {region : Region} {old new : Bitmap} (hO : ∀ k < region.count, region.start + k ∉ O)
    (hd : ∀ k < region.count, d (region.start + k) = bitmapBlock old k)
    (hd' : ∀ k < region.count, d' (region.start + k) = bitmapBlock old k) :
    (p.addBitmap region old new).Builds d (putBitmap d' region new) O
      (M ∪ {b | region.start ≤ b ∧ b < region.start + region.count}) := by
  obtain ⟨hordered, hmetadata⟩ := addBitmap_frame p region old new
  obtain ⟨hin, hout⟩ := @after_addBitmap p d region old new fun k hk => by rw [h.after, hd' k hk]
  refine ⟨h.ok.addBitmap (fun k hk hc => hO k hk (h.ordered _ hc)) hd, ?_,
    fun b hb => h.ordered b (hordered ▸ hb), fun b hb => ?_⟩
  · funext c
    by_cases hc : region.start ≤ c ∧ c < region.start + region.count
    · obtain ⟨k, rfl⟩ := Nat.exists_eq_add_of_le hc.1
      rw [hin k (by omega), putBitmap_of_in (by omega)]
    · rw [hout c (by omega), putBitmap_of_out (by omega), h.after]
  · rcases hmetadata b hb with hb | hb
    · exact .inl (h.metadata b hb)
    · exact .inr hb

end Builds

end PlanImages

end Eufs
