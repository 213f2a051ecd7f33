import Eufs.Checker.Scan
import Eufs.Metadata.Consistent

/-!
# Eufs.Checker.Clean — scans without findings

A scan is clean while nothing was recorded and nothing was skipped.  For each part of the scan this module says when
it leaves a clean scan clean, and what it then enters in the tables: findings never go away, so a clean result shows
that every part before it was clean.
-/

namespace Eufs

open InodeRecord

variable {s : Scan} {inode b : ℕ} {p : Slot}

namespace Scan

/-- Nothing was found and nothing was skipped. -/
structure Clean (s : Scan) : Prop where
  issues : s.report.issues = []
  status : s.report.status = .kComplete
  blocks : s.blockReferenceScanComplete = true
  inodes : s.inodeReferenceScanComplete = true

theorem not_clean_addIssue {code : IssueCode} {block related : ℕ} {detail : String} :
    ¬ (s.addIssue code inode block related detail).Clean := by
  intro h
  have := h.issues
  simp [addIssue, ConsistencyReport.addIssue] at this

theorem not_clean_markPartial : ¬ s.markPartial.Clean := by
  intro h
  exact absurd h.status (by simp [markPartial])

theorem Clean.congr {t : Scan} (h : s.Clean) (hi : t.report.issues = s.report.issues)
    (hs : t.report.status = s.report.status) (hb : t.blockReferenceScanComplete = s.blockReferenceScanComplete)
    (hn : t.inodeReferenceScanComplete = s.inodeReferenceScanComplete) : t.Clean :=
  ⟨hi.trans h.issues, hs.trans h.status, hb.trans h.blocks, hn.trans h.inodes⟩

variable (sb : Superblock) (d : Image)

/-! ## Block references -/

/-- A new reference to a block that is allocated and not referenced yet. -/
def addReference (s : Scan) (x : BlockReference) : Scan :=
  { s with
    report := { s.report with blockReferences := s.report.blockReferences ++ [x] }
    firstBlockReferences := emplace s.firstBlockReferences x.blockNumber x }

/-- The block may be referenced once more. -/
structure Good (s : Scan) (b : ℕ) : Prop where
  inData : sb.data.start ≤ b ∧ b < sb.totalBlocks.toNat
  allocated : sb.blockBit d b = true
  first : s.firstBlockReferences b = none

theorem registerBlockReference_of_good {logical : ℕ} {kind : BlockReferenceKind} {dir : Bool} (h : Good sb d s b) :
    registerBlockReference sb d s b inode logical kind dir =
      (s.addReference ⟨b, inode, logical, kind⟩, true) := by
  have hr : ¬ (b < sb.data.start ∨ b ≥ sb.totalBlocks.toNat) := by
    have := h.inData
    omega
  unfold registerBlockReference
  simp only [hr, if_false, h.allocated, if_true, h.first]
  rfl

theorem good_of_clean {logical : ℕ} {kind : BlockReferenceKind} {dir : Bool}
    (h : (registerBlockReference sb d s b inode logical kind dir).1.Clean) : s.Clean ∧ Good sb d s b := by
  unfold registerBlockReference at h
  by_cases hr : b < sb.data.start ∨ b ≥ sb.totalBlocks.toNat
  · simp only [hr, if_true] at h
    exact absurd h not_clean_addIssue
  · simp only [hr, if_false] at h
    by_cases hb : sb.blockBit d b = true
    · simp only [hb, if_true] at h
      cases hf : s.firstBlockReferences b with
      | some first =>
        simp only [hf] at h
        exact absurd h not_clean_addIssue
      | none =>
        simp only [hf] at h
        exact ⟨h.congr rfl rfl rfl rfl, by omega, hb, hf⟩
    · simp only [hb] at h
      exfalso
      split at h
      · exact not_clean_addIssue h
      · exact absurd h.issues (by simp [addIssue, ConsistencyReport.addIssue])

/-- The blocks may be referenced, one after the other. -/
structure Fresh (s : Scan) (bs : List ℕ) : Prop where
  good : ∀ b ∈ bs, Good sb d s b
  nodup : bs.Nodup

theorem firstBlockReferences_addReference {x : BlockReference} :
    (s.addReference x).firstBlockReferences b = none ↔ s.firstBlockReferences b = none ∧ b ≠ x.blockNumber := by
  unfold addReference emplace
  cases hx : s.firstBlockReferences x.blockNumber with
  | some y =>
    refine ⟨fun h => ⟨h, fun hc => ?_⟩, fun h => h.1⟩
    rw [hc] at h
    exact absurd (h.symm.trans hx) (by simp)
  | none =>
    by_cases hb : b = x.blockNumber
    · simp [hb]
    · simp [hb]

theorem fresh_cons {x : BlockReference} {bs : List ℕ} :
    Fresh sb d s (x.blockNumber :: bs) ↔ Good sb d s x.blockNumber ∧ Fresh sb d (s.addReference x) bs := by
  constructor
  · rintro ⟨hg, hn⟩
    obtain ⟨hx, hn⟩ := List.nodup_cons.mp hn
    refine ⟨hg _ List.mem_cons_self, fun b hb => ?_, hn⟩
    have h := hg b (List.mem_cons_of_mem _ hb)
    exact ⟨h.inData, h.allocated,
      firstBlockReferences_addReference.mpr ⟨h.first, fun hc => hx (hc ▸ hb)⟩⟩
  · rintro ⟨hx, hg, hn⟩
    refine ⟨fun b hb => ?_, List.nodup_cons.mpr ⟨fun hc => ?_, hn⟩⟩
    · rcases List.mem_cons.mp hb with rfl | hb
      · exact hx
      · have h := hg b hb
        exact ⟨h.inData, h.allocated, (firstBlockReferences_addReference.mp h.first).1⟩
    · exact (firstBlockReferences_addReference.mp (hg _ hc).first).2 rfl

/-- References entered one after the other. -/
def addReferences (s : Scan) (xs : List BlockReference) : Scan := xs.foldl addReference s

theorem firstBlockReferences_addReferences {b : ℕ} : ∀ {xs : List BlockReference} {s : Scan},
    (s.addReferences xs).firstBlockReferences b = none ↔
      s.firstBlockReferences b = none ∧ b ∉ xs.map BlockReference.blockNumber
  | [], s => by simp [addReferences]
  | x :: xs, s => by
    have ih : ((s.addReference x).addReferences xs).firstBlockReferences b = none ↔ _ ∧ _ :=
      firstBlockReferences_addReferences
    rw [firstBlockReferences_addReference] at ih
    rw [List.map_cons, List.mem_cons, not_or, ← and_assoc]
    exact ih

theorem fresh_append {bs : List ℕ} : ∀ {xs : List BlockReference} {s : Scan},
    Fresh sb d s (xs.map BlockReference.blockNumber ++ bs) ↔
      Fresh sb d s (xs.map BlockReference.blockNumber) ∧ Fresh sb d (s.addReferences xs) bs
  | [], s => by
    simp only [List.map_nil, List.nil_append, addReferences, List.foldl_nil]
    exact ⟨fun h => ⟨⟨fun b hb => absurd hb List.not_mem_nil, List.nodup_nil⟩, h⟩, fun h => h.2⟩
  | x :: xs, s => by
    rw [List.map_cons, List.cons_append, fresh_cons, fresh_append, fresh_cons, and_assoc]
    rfl

theorem addReferences_cons (s : Scan) (x : BlockReference) (xs : List BlockReference) :
    s.addReferences (x :: xs) = (s.addReference x).addReferences xs := rfl

theorem addReferences_append (s : Scan) (xs ys : List BlockReference) :
    s.addReferences (xs ++ ys) = (s.addReferences xs).addReferences ys := List.foldl_append

/-! ## Pointers -/

/-- A place for a pointer: the logical block it maps, its value, and whether the size requires it. -/
structure Slot where
  logical : ℕ
  block : ℕ
  required : Bool

/-- The value is there exactly when it is required. -/
def Slot.Exact (p : Slot) : Prop := p.block ≠ 0 ↔ p.required = true

def Slot.reference (n : ℕ) (p : Slot) : BlockReference := ⟨p.block, n, p.logical, .kData⟩

theorem map_reference (n : ℕ) (ps : List Slot) :
    (ps.map (Slot.reference n)).map BlockReference.blockNumber = ps.map Slot.block := by
  rw [List.map_map]
  rfl

/-- The required places of a list. -/
def needed (ps : List Slot) : List Slot := ps.filter Slot.required

def scanSlot (n : ℕ) (dir : Bool) (missing beyond : String) (s : Scan × List (Option ℕ)) (p : Slot) :
    Scan × List (Option ℕ) := scanPointer sb d n dir missing beyond p.required p.logical p.block s

/-- The mapping after the required places were entered. -/
def mapSlots (ps : List Slot) (l : List (Option ℕ)) : List (Option ℕ) :=
  (needed ps).foldl (fun l p => l.set p.logical (some p.block)) l

section Pointers

variable {n : ℕ} {dir : Bool} {missing beyond : String}

theorem scanSlot_of_required {s : Scan × List (Option ℕ)} (hr : p.required = true) (h0 : p.block ≠ 0)
    (hg : Good sb d s.1 p.block) : scanSlot sb d n dir missing beyond s p =
      (s.1.addReference (p.reference n), s.2.set p.logical (some p.block)) := by
  unfold scanSlot scanPointer
  rw [if_neg h0]
  simp only [hr, if_true, registerBlockReference_of_good sb d hg, Bool.and_self]
  rfl

theorem scanSlot_of_not_required {s : Scan × List (Option ℕ)} (hr : p.required = false) (h0 : p.block = 0) :
    scanSlot sb d n dir missing beyond s p = s := by
  unfold scanSlot scanPointer
  rw [if_pos h0, hr]
  rfl

theorem of_clean_scanSlot {s : Scan × List (Option ℕ)} (h : (scanSlot sb d n dir missing beyond s p).1.Clean) :
    s.1.Clean ∧ p.Exact ∧ (p.required = true → Good sb d s.1 p.block) := by
  unfold scanSlot scanPointer at h
  unfold Slot.Exact
  by_cases h0 : p.block = 0
  · rw [if_pos h0] at h
    by_cases hr : p.required = true
    · simp only [hr, if_true] at h
      exact absurd h not_clean_addIssue
    · simp only [hr] at h
      exact ⟨h, by simp [h0, hr], fun hc => absurd hc hr⟩
  · rw [if_neg h0] at h
    by_cases hr : p.required = true
    · simp only [hr, if_true] at h
      obtain ⟨hc, hg⟩ := good_of_clean sb d h
      exact ⟨hc, by simp [h0, hr], fun _ => hg⟩
    · simp only [hr] at h
      exact absurd (good_of_clean sb d h).1 not_clean_addIssue

theorem scanSlots_of_fresh : ∀ {ps : List Slot} {s : Scan × List (Option ℕ)}, (∀ p ∈ ps, p.Exact) →
    Fresh sb d s.1 ((needed ps).map Slot.block) → ps.foldl (scanSlot sb d n dir missing beyond) s =
      (s.1.addReferences ((needed ps).map (Slot.reference n)), mapSlots ps s.2)
  | [], s, _, _ => rfl
  | p :: ps, s, he, hf => by
    obtain ⟨hp, he⟩ := List.forall_mem_cons.mp he
    rw [List.foldl_cons]
    by_cases hr : p.required = true
    · have hn : needed (p :: ps) = p :: needed ps := List.filter_cons_of_pos hr
      rw [hn, List.map_cons] at hf
      obtain ⟨hg, hf⟩ := (fresh_cons sb d (x := p.reference n)).mp hf
      rw [scanSlot_of_required sb d hr (hp.mpr hr) hg, scanSlots_of_fresh he hf]
      unfold mapSlots
      rw [hn]
      rfl
    · have hn : needed (p :: ps) = needed ps := List.filter_cons_of_neg hr
      rw [hn] at hf
      rw [scanSlot_of_not_required sb d (Bool.eq_false_iff.mpr hr) (not_not.mp (mt hp.mp hr)), scanSlots_of_fresh he hf]
      unfold mapSlots
      rw [hn]

theorem of_clean_scanSlots : ∀ {ps : List Slot} {s : Scan × List (Option ℕ)},
    (ps.foldl (scanSlot sb d n dir missing beyond) s).1.Clean →
      s.1.Clean ∧ (∀ p ∈ ps, p.Exact) ∧ Fresh sb d s.1 ((needed ps).map Slot.block)
  | [], s, h => ⟨h, fun p hp => absurd hp List.not_mem_nil, fun b hb => absurd hb List.not_mem_nil, List.nodup_nil⟩
  | p :: ps, s, h => by
    rw [List.foldl_cons] at h
    obtain ⟨hc, he, hf⟩ := of_clean_scanSlots h
    obtain ⟨hc, hp, hg⟩ := of_clean_scanSlot sb d hc
    refine ⟨hc, List.forall_mem_cons.mpr ⟨hp, he⟩, ?_⟩
    by_cases hr : p.required = true
    · have hn : needed (p :: ps) = p :: needed ps := List.filter_cons_of_pos hr
      rw [scanSlot_of_required sb d hr (hp.mpr hr) (hg hr)] at hf
      rw [hn, List.map_cons]
      exact (fresh_cons sb d (x := p.reference n)).mpr ⟨hg hr, hf⟩
    · have hn : needed (p :: ps) = needed ps := List.filter_cons_of_neg hr
      rw [scanSlot_of_not_required sb d (Bool.eq_false_iff.mpr hr) (not_not.mp (mt hp.mp hr))] at hf
      rwa [hn]

end Pointers

/-! ## The pointers of an inode -/

/-- The places in the record. -/
def directSlots (v : InodeRecord) : List Slot :=
  (List.range kDirectBlockCount).map fun k =>
    ⟨k, v.directBlock k, decide (k < min v.requiredBlocks kDirectBlockCount)⟩

/-- The places in the indirect block. -/
def indirectSlots (v : InodeRecord) : List Slot :=
  (List.range kIndirectEntries).map fun k =>
    ⟨kDirectBlockCount + k, indirectPointer (d v.indirect) k, decide (k < v.requiredBlocks - kDirectBlockCount)⟩

theorem needed_range {f g : ℕ → ℕ} {m count : ℕ} (h : m ≤ count) :
    needed ((List.range count).map fun k => ⟨f k, g k, decide (k < m)⟩) = (List.range m).map fun k =>
    ⟨f k, g k, true⟩ := by
  obtain ⟨c, rfl⟩ := Nat.exists_eq_add_of_le h
  rw [needed, List.filter_map, List.range_add, List.filter_append, List.map_append]
  have h1 : (List.range m).filter (Slot.required ∘ fun k => Slot.mk (f k) (g k) (decide (k < m))) = List.range m :=
    List.filter_eq_self.mpr fun k hk => by simpa using hk
  have h2 : ((List.range c).map (m + ·)).filter
    (Slot.required ∘ fun k => Slot.mk (f k) (g k) (decide (k < m))) = [] :=
    List.filter_eq_nil_iff.mpr fun k hk => by
      obtain ⟨j, -, rfl⟩ := List.mem_map.mp hk
      simp
  rw [h1, h2, List.map_nil, List.append_nil]
  refine List.map_congr_left fun k hk => ?_
  simp [List.mem_range.mp hk]

variable {v : InodeRecord}

theorem needed_directSlots : needed (directSlots v) =
    (List.range (min v.requiredBlocks kDirectBlockCount)).map fun k => ⟨k, v.directBlock k, true⟩ :=
  needed_range (f := id) (Nat.min_le_right _ _)

theorem needed_indirectSlots (hv : v.requiredBlocks ≤ kDirectBlockCount + kIndirectEntries) :
    needed (indirectSlots d v) = (List.range (v.requiredBlocks - kDirectBlockCount)).map fun k =>
      ⟨kDirectBlockCount + k, indirectPointer (d v.indirect) k, true⟩ :=
  needed_range (f := fun k => kDirectBlockCount + k) (by omega)

theorem getElem_fill (a : ℕ) (g : ℕ → ℕ) (l : List (Option ℕ)) (i : ℕ) : ∀ m : ℕ,
    (((List.range m).map fun k => Slot.mk (a + k) (g k) true).foldl (fun l p => l.set p.logical (some p.block)) l)[i]? =
      if a ≤ i ∧ i < a + m ∧ i < l.length then some (some (g (i - a))) else l[i]?
  | 0 => by
    rw [if_neg (by omega)]
    rfl
  | m + 1 => by
    have hlen : ∀ (ps : List Slot) (l : List (Option ℕ)),
        (ps.foldl (fun l p => l.set p.logical (some p.block)) l).length = l.length := fun ps =>
      foldl_observe List.length (fun l p => List.length_set) ps
    rw [List.range_succ, List.map_append, List.foldl_append, List.map_singleton, List.foldl_cons, List.foldl_nil,
      List.getElem?_set, hlen, getElem_fill a g l i m]
    dsimp only
    by_cases hi : a + m = i
    · subst hi
      by_cases hl : a + m < l.length
      · simp [hl]
      · simp [hl]
    · rw [if_neg hi]
      by_cases h : a ≤ i ∧ i < a + m ∧ i < l.length
      · rw [if_pos h, if_pos (by omega)]
      · rw [if_neg h, if_neg (by omega)]

theorem mapSlots_eq (hv : v.requiredBlocks ≤ kDirectBlockCount + kIndirectEntries) :
    mapSlots (indirectSlots d v) (mapSlots (directSlots v) (List.replicate v.requiredBlocks none)) =
      (v.blocks d).map some := by
  have hdirect : mapSlots (directSlots v) (List.replicate v.requiredBlocks none) =
      ((List.range (min v.requiredBlocks kDirectBlockCount)).map fun k => Slot.mk (0 + k) (v.directBlock k) true).foldl
        (fun l p => l.set p.logical (some p.block)) (List.replicate v.requiredBlocks none) := by
    rw [mapSlots, needed_directSlots]
    simp only [Nat.zero_add]
  have hlen : (mapSlots (directSlots v) (List.replicate v.requiredBlocks none)).length = v.requiredBlocks := by
    rw [mapSlots, foldl_observe List.length (fun l p => List.length_set), List.length_replicate]
  rw [mapSlots, needed_indirectSlots d hv]
  refine List.ext_getElem? fun i => ?_
  rw [getElem_fill, hlen, hdirect, getElem_fill, List.length_replicate]
  unfold blocks pointer
  by_cases hi : i < v.requiredBlocks
  · by_cases h12 : i < kDirectBlockCount
    · rw [if_neg (by omega), if_pos (by omega)]
      simp [hi, h12]
    · rw [if_pos (by omega)]
      simp [hi, h12]
  · rw [if_neg (by omega), if_neg (by omega)]
    simp [hi]

/-- The references behind the direct ones. -/
def indirectReferences (n : ℕ) (v : InodeRecord) : List BlockReference :=
  if v.indirect = 0 then []
  else ⟨v.indirect, n, 0, .kIndirect⟩ :: (needed (indirectSlots d v)).map (Slot.reference n)

/-- The references of an inode in the order of the scan. -/
def inodeReferences (n : ℕ) (v : InodeRecord) : List BlockReference :=
  (needed (directSlots v)).map (Slot.reference n) ++ indirectReferences d n v

theorem inodeReferences_perm {n : ℕ} (hv : v.requiredBlocks ≤ kDirectBlockCount + kIndirectEntries)
    (hi : v.indirect ≠ 0 ↔ kDirectBlockCount < v.requiredBlocks) :
    ((inodeReferences d n v).map BlockReference.blockNumber).Perm (v.owned d) := by
  have hsplit : List.range v.requiredBlocks = List.range (min v.requiredBlocks kDirectBlockCount) ++
      (List.range (v.requiredBlocks - kDirectBlockCount)).map (min v.requiredBlocks kDirectBlockCount + ·) := by
    rw [← List.range_add]
    congr 1
    omega
  have hdirect : (List.range (min v.requiredBlocks kDirectBlockCount)).map (v.pointer d) =
      (List.range (min v.requiredBlocks kDirectBlockCount)).map v.directBlock := by
    refine List.map_congr_left fun k hk => ?_
    have := List.mem_range.mp hk
    rw [pointer, if_pos (by omega)]
  rw [inodeReferences, indirectReferences, owned, blocks, hsplit, List.map_append, List.map_append, hdirect,
    needed_directSlots, needed_indirectSlots d hv]
  by_cases h0 : v.indirect = 0
  · have hr : v.requiredBlocks - kDirectBlockCount = 0 := by
      have := mt hi.mpr (not_not.mpr h0)
      omega
    simp only [h0, if_true, hr, List.range_zero, List.map_nil, List.append_nil, List.map_map]
    exact .refl _
  · have hr : kDirectBlockCount < v.requiredBlocks := hi.mp h0
    have hindirect : ((List.range (v.requiredBlocks - kDirectBlockCount)).map
        (min v.requiredBlocks kDirectBlockCount + ·)).map (v.pointer d) =
        (List.range (v.requiredBlocks - kDirectBlockCount)).map (indirectPointer (d v.indirect)) := by
      rw [List.map_map]
      refine List.map_congr_left fun k _ => ?_
      rw [Function.comp, pointer, if_neg (by omega)]
      congr 1
      omega
    simp only [h0, if_false, List.map_map, List.map_cons] at hindirect ⊢
    rw [hindirect, List.append_assoc]
    refine List.Perm.append (.refl _) ?_
    exact (List.perm_append_singleton v.indirect _).symm

theorem Fresh.perm {a b : List ℕ} (h : Fresh sb d s a) (hp : a.Perm b) : Fresh sb d s b :=
  ⟨fun x hx => h.good x (hp.mem_iff.mpr hx), hp.nodup_iff.mp h.nodup⟩

variable {n : ℕ}

theorem scanDirect_eq (s : Scan × List (Option ℕ)) : scanDirect sb d n v s =
    (directSlots v).foldl (scanSlot sb d n (S_ISDIR v.mode) "inode 缺少文件大小要求的直接数据块"
      "inode 在文件结尾之后仍有直接块指针") s := by
  rw [directSlots, List.foldl_map]
  rfl

theorem scanIndirect_eq (s : Scan × List (Option ℕ)) : scanIndirect sb d n v s =
    (indirectSlots d v).foldl (scanSlot sb d n (S_ISDIR v.mode) "inode 缺少文件大小要求的间接数据块"
      "间接索引块在文件结尾之后仍有数据块指针") s := by
  rw [indirectSlots, List.foldl_map]
  rfl

theorem scanIndirectBlock_of_fresh {s : Scan × List (Option ℕ)}
    (hi : v.indirect ≠ 0 ↔ kDirectBlockCount < v.requiredBlocks)
    (he : v.indirect ≠ 0 → ∀ p ∈ indirectSlots d v, p.Exact)
    (hf : Fresh sb d s.1 ((indirectReferences d n v).map BlockReference.blockNumber)) :
    scanIndirectBlock sb d n v s = (s.1.addReferences (indirectReferences d n v),
      if v.indirect = 0 then s.2 else mapSlots (indirectSlots d v) s.2) := by
  unfold scanIndirectBlock
  by_cases h0 : v.indirect = 0
  · have hr : v.requiredBlocks - kDirectBlockCount = 0 := by
      have := mt hi.mpr (not_not.mpr h0)
      omega
    simp only [h0, hr, indirectReferences, if_true, ne_eq, not_true_eq_false, if_false]
    rfl
  · have hr : ¬ v.requiredBlocks - kDirectBlockCount = 0 := by
      have := hi.mp h0
      omega
    simp only [indirectReferences, h0, if_false] at hf ⊢
    obtain ⟨hg, hf⟩ := (fresh_cons sb d (x := ⟨v.indirect, n, 0, .kIndirect⟩)).mp hf
    simp only [hr, if_false, registerBlockReference_of_good sb d hg]
    rw [map_reference] at hf
    rw [scanIndirect_eq, scanSlots_of_fresh sb d (he h0) hf, addReferences_cons]

theorem of_clean_scanIndirectBlock {s : Scan × List (Option ℕ)} (h : (scanIndirectBlock sb d n v s).1.Clean) :
    s.1.Clean ∧ (v.indirect ≠ 0 ↔ kDirectBlockCount < v.requiredBlocks) ∧
      (v.indirect ≠ 0 → ∀ p ∈ indirectSlots d v, p.Exact) ∧
      Fresh sb d s.1 ((indirectReferences d n v).map BlockReference.blockNumber) := by
  unfold scanIndirectBlock at h
  unfold indirectReferences
  by_cases h0 : v.indirect = 0
  · rw [if_pos h0] at h
    by_cases hr : v.requiredBlocks - kDirectBlockCount ≠ 0
    · rw [if_pos hr] at h
      exact absurd h not_clean_addIssue
    · rw [if_neg hr] at h
      refine ⟨h, ⟨fun hc => absurd h0 hc, fun hc => ?_⟩, fun hc => absurd h0 hc, ?_⟩
      · omega
      · rw [if_pos h0]
        exact ⟨fun b hb => absurd hb List.not_mem_nil, List.nodup_nil⟩
  · rw [if_neg h0] at h
    by_cases hr : v.requiredBlocks - kDirectBlockCount = 0
    · exfalso
      simp only [hr, if_true] at h
      split at h
      · exact absurd h.blocks (by simp)
      · next scan hreg =>
        rw [scanIndirect_eq] at h
        have hc := (of_clean_scanSlots sb d h).1
        dsimp only at hc
        rw [show scan = (registerBlockReference sb d _ v.indirect n 0 .kIndirect false).1 from by rw [hreg]] at hc
        exact not_clean_addIssue (good_of_clean sb d hc).1
    · simp only [hr, if_false] at h
      split at h
      · exact absurd h.blocks (by simp)
      · next scan hreg =>
        rw [scanIndirect_eq] at h
        obtain ⟨hc, he, hf⟩ := of_clean_scanSlots sb d h
        have hscan : scan = (registerBlockReference sb d s.1 v.indirect n 0 .kIndirect false).1 := by rw [hreg]
        dsimp only at hc hf
        rw [hscan] at hc
        obtain ⟨hc, hg⟩ := good_of_clean sb d hc
        rw [hscan, registerBlockReference_of_good sb d hg] at hf
        refine ⟨hc, ⟨fun _ => by omega, fun _ => h0⟩, fun _ => he, ?_⟩
        rw [if_neg h0, List.map_cons, map_reference]
        exact (fresh_cons sb d (x := ⟨v.indirect, n, 0, .kIndirect⟩)).mpr ⟨hg, hf⟩

/-- The mapping of an inode, entered once. -/
def setLogical (s : Scan) (n : ℕ) (l : List (Option ℕ)) : Scan :=
  { s with inodeLogicalBlocks := emplace s.inodeLogicalBlocks n l }

theorem exact_directSlots : (∀ p ∈ directSlots v, p.Exact) ↔
    ∀ k < kDirectBlockCount, v.directBlock k ≠ 0 ↔ k < v.requiredBlocks := by
  simp only [directSlots, List.forall_mem_map, List.mem_range, Slot.Exact, decide_eq_true_eq, lt_min_iff]
  exact forall₂_congr fun k hk => by simp [hk]

theorem exact_indirectSlots : (∀ p ∈ indirectSlots d v, p.Exact) ↔
    ∀ k < kIndirectEntries, indirectPointer (d v.indirect) k ≠ 0 ↔ k < v.requiredBlocks - kDirectBlockCount := by
  simp only [indirectSlots, List.forall_mem_map, List.mem_range, Slot.Exact, decide_eq_true_eq]

theorem scanMapping_of_mapped (hv : v.requiredBlocks ≤ kDirectBlockCount + kIndirectEntries) (hm : v.Mapped sb d)
    (hf : Fresh sb d s (v.owned d)) :
    scanMapping sb d n v s = (s.addReferences (inodeReferences d n v)).setLogical n ((v.blocks d).map some) := by
  have hf := hf.perm sb d (inodeReferences_perm d (n := n) hv hm.indirect).symm
  rw [inodeReferences, List.map_append, fresh_append, map_reference] at hf
  have hlogical : (if v.indirect = 0 then mapSlots (directSlots v) (List.replicate v.requiredBlocks none)
      else mapSlots (indirectSlots d v) (mapSlots (directSlots v) (List.replicate v.requiredBlocks none))) =
      (v.blocks d).map some := by
    rw [← mapSlots_eq d hv]
    by_cases h0 : v.indirect = 0
    · have hr : v.requiredBlocks - kDirectBlockCount = 0 := by
        have := mt hm.indirect.mpr (not_not.mpr h0)
        omega
      rw [if_pos h0, mapSlots.eq_def (indirectSlots d v), needed_indirectSlots d hv, hr]
      rfl
    · rw [if_neg h0]
  unfold scanMapping
  rw [scanDirect_eq, scanSlots_of_fresh sb d (exact_directSlots.mpr hm.direct) hf.1,
    scanIndirectBlock_of_fresh sb d hm.indirect (fun h => (exact_indirectSlots d).mpr (hm.indirectEntries h)) hf.2]
  dsimp only
  rw [hlogical, inodeReferences, addReferences_append]
  rfl

theorem of_clean_scanMapping (hv : v.requiredBlocks ≤ kDirectBlockCount + kIndirectEntries)
    (h : (scanMapping sb d n v s).Clean) : s.Clean ∧ v.Mapped sb d ∧ Fresh sb d s (v.owned d) := by
  have h : (scanIndirectBlock sb d n v (scanDirect sb d n v (s, List.replicate v.requiredBlocks none))).1.Clean :=
    h.congr rfl rfl rfl rfl
  obtain ⟨h, hi, he, hf2⟩ := of_clean_scanIndirectBlock sb d h
  rw [scanDirect_eq] at h hf2
  obtain ⟨hc, hd, hf1⟩ := of_clean_scanSlots sb d h
  rw [scanSlots_of_fresh sb d hd hf1] at hf2
  have hf : Fresh sb d s (v.owned d) := by
    refine Fresh.perm sb d ?_ (inodeReferences_perm d (n := n) hv hi)
    rw [inodeReferences, List.map_append, fresh_append, map_reference]
    exact ⟨hf1, hf2⟩
  exact ⟨hc, ⟨exact_directSlots.mp hd, hi, fun h => (exact_indirectSlots d).mp (he h),
    fun b hb => (hf.good b hb).inData⟩, hf⟩

end Scan

end Eufs
