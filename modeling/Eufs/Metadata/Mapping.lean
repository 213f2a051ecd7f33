import Eufs.Metadata.FileMutation

/-!
# Eufs.Metadata.Mapping — records with a given mapping

The planners build a record from the list of its blocks: twelve pointers in the record, the others in an indirect block.
`InodeRecord.Maps` says that a record does this in an image; its blocks, and that they are mapped as the reader and the
checker ask, follow.
-/

namespace Eufs

variable {v : InodeRecord} {d : Image}

theorem InodeRecord.content_eq {content : List UInt8} (hsize : content.length = v.size.toNat)
    (h : ∀ i < content.length, v.byteAt d i = content.getD i 0) : v.content d = content := by
  refine List.ext_getElem (by simp [InodeRecord.content, hsize]) fun i h1 h2 => ?_
  simp only [InodeRecord.content, List.getElem_map, List.getElem_range]
  rw [h i h2, List.getD_eq_getElem?_getD, List.getElem?_eq_getElem h2, Option.getD_some]

/-- The record has its logical blocks at `blocks`, with pointers in block `table` where it needs more than its own. -/
structure InodeRecord.Maps (v : InodeRecord) (d : Image) (blocks : List ℕ) (table : ℕ) : Prop where
  count : v.requiredBlocks = blocks.length
  limit : blocks.length ≤ kDirectBlockCount + kIndirectEntries
  direct : ∀ k < kDirectBlockCount, v.directBlock k = blocks.getD k 0
  indirect : v.indirect = if kDirectBlockCount < blocks.length then table else 0
  entries : kDirectBlockCount < blocks.length → ∀ k < kIndirectEntries,
    indirectPointer (d table) k = blocks.getD (kDirectBlockCount + k) 0

/-- The blocks lie in the data region. -/
structure Superblock.InData (sb : Superblock) (blocks : List ℕ) (table : ℕ) : Prop where
  data : ∀ b ∈ blocks, sb.data.start ≤ b ∧ b < sb.totalBlocks.toNat
  indirect : kDirectBlockCount < blocks.length → sb.data.start ≤ table ∧ table < sb.totalBlocks.toNat

namespace InodeRecord.Maps

variable {sb : Superblock} {v : InodeRecord} {d : Image} {blocks : List ℕ} {table k : ℕ}

section

variable (h : v.Maps d blocks table)

include h

theorem pointer_eq (hk : k < blocks.length) : v.pointer d k = blocks.getD k 0 := by
  have hlimit := h.limit
  by_cases h12 : k < kDirectBlockCount
  · rw [InodeRecord.pointer_of_lt h12, h.direct k h12]
  · have h12 := not_lt.mp h12
    have hsum : kDirectBlockCount + (k - kDirectBlockCount) = k := by omega
    rw [InodeRecord.pointer_of_ge h12, h.indirect, if_pos (by omega), h.entries (by omega) _ (by omega), hsum]

theorem blocks_eq : v.blocks d = blocks := by
  refine List.ext_getElem (by simp [InodeRecord.blocks, h.count]) fun k h1 h2 => ?_
  simp only [InodeRecord.blocks, List.getElem_map, List.getElem_range]
  rw [h.pointer_eq h2, List.getD_eq_getElem?_getD, List.getElem?_eq_getElem h2, Option.getD_some]

variable (hpos : 0 < sb.data.start) (hin : sb.InData blocks table)

include hpos hin

theorem indirect_ne_zero : v.indirect ≠ 0 ↔ kDirectBlockCount < blocks.length := by
  rw [h.indirect]
  split_ifs with h12
  · have := hin.indirect h12
    exact ⟨fun _ => h12, fun _ => by omega⟩
  · exact ⟨fun hc => absurd rfl hc, fun hc => absurd hc h12⟩

theorem owned_eq : v.owned d = blocks ++ if kDirectBlockCount < blocks.length then [table] else [] := by
  rw [InodeRecord.owned, h.blocks_eq]
  congr 1
  by_cases h12 : kDirectBlockCount < blocks.length
  · rw [if_neg ((h.indirect_ne_zero hpos hin).mpr h12), if_pos h12, h.indirect, if_pos h12]
  · rw [if_pos (not_not.mp (mt (h.indirect_ne_zero hpos hin).mp h12)), if_neg h12]

omit h in
theorem getD_ne_zero : blocks.getD k 0 ≠ 0 ↔ k < blocks.length := by
  rw [List.getD_eq_getElem?_getD]
  by_cases hk : k < blocks.length
  · have := hin.data _ (List.getElem_mem hk)
    rw [List.getElem?_eq_getElem hk, Option.getD_some]
    exact ⟨fun _ => hk, fun _ => by omega⟩
  · rw [List.getElem?_eq_none (not_lt.mp hk)]
    exact ⟨fun hc => absurd rfl hc, fun hc => absurd hc hk⟩

theorem mapped : v.Mapped sb d := by
  refine ⟨fun k hk => ?_, ?_, fun h0 k hk => ?_, fun b hb => ?_⟩
  · rw [h.direct k hk, h.count, getD_ne_zero hpos hin]
  · rw [h.indirect_ne_zero hpos hin, h.count]
  · have h12 := (h.indirect_ne_zero hpos hin).mp h0
    rw [h.indirect, if_pos h12, h.entries h12 k hk, getD_ne_zero hpos hin, h.count]
    omega
  · rw [h.owned_eq hpos hin] at hb
    rcases List.mem_append.mp hb with hb | hb
    · exact hin.data b hb
    · split_ifs at hb with h12
      · rw [List.mem_singleton.mp hb]
        exact hin.indirect h12
      · exact absurd hb List.not_mem_nil

end

/-- A pointer into the data region fits the field that holds it. -/
theorem toNat_getD (hin : sb.InData blocks table) (k : ℕ) :
    (UInt32.ofNat (blocks.getD k 0)).toNat = blocks.getD k 0 := by
  refine UInt32.toNat_ofNat_of_lt' ?_
  show _ < 2 ^ 32
  rw [List.getD_eq_getElem?_getD]
  by_cases hk : k < blocks.length
  · have h1 := (hin.data _ (List.getElem_mem hk)).2
    have h2 := sb.totalBlocks.toNat_lt
    rw [List.getElem?_eq_getElem hk, Option.getD_some]
    omega
  · rw [List.getElem?_eq_none (not_lt.mp hk)]
    exact Nat.two_pow_pos 32

theorem directBlock_of (hin : sb.InData blocks table) (hd : v.directBlocks = directBlocksOf blocks)
    (hk : k < kDirectBlockCount) : v.directBlock k = blocks.getD k 0 := by
  have hk' : k < 12 := hk
  have hdirect : v.directBlock k = (UInt32.ofNat (blocks.getD k 0)).toNat := by
    simp [InodeRecord.directBlock, hd, directBlocksOf, hk']
  rw [hdirect, toNat_getD hin]

theorem indirectPointer_of (hin : sb.InData blocks table)
    (hlimit : blocks.length ≤ kDirectBlockCount + kIndirectEntries) :
    indirectPointer (indirectBlockOf blocks) k = blocks.getD (kDirectBlockCount + k) 0 := by
  rw [indirectBlockOf, indirectPointer_fill (f := fun i => UInt32.ofNat (blocks.getD (kDirectBlockCount + i) 0))
    (by omega)]
  split_ifs with hk
  · exact toNat_getD hin _
  · rw [List.getD_eq_getElem?_getD, List.getElem?_eq_none (by omega)]
    rfl

theorem congr {d' : Image} (h : v.Maps d blocks table) (hd : kDirectBlockCount < blocks.length → d' table = d table) :
    v.Maps d' blocks table :=
  ⟨h.count, h.limit, h.direct, h.indirect, fun h12 k hk => by rw [hd h12, h.entries h12 k hk]⟩

end InodeRecord.Maps

theorem InodeRecord.Mapped.maps {sb : Superblock} (h : v.Mapped sb d) (hv : v.Valid) :
    v.Maps d (v.blocks d) v.indirect := by
  have hlen := v.length_blocks d
  have hget : ∀ k, (v.blocks d).getD k 0 = if k < v.requiredBlocks then v.pointer d k else 0 := by
    intro k
    rw [List.getD_eq_getElem?_getD, InodeRecord.getElem?_blocks]
    split_ifs <;> rfl
  refine ⟨hlen.symm, hlen ▸ hv.requiredBlocks_le, fun k hk => ?_, ?_, fun h12 k hk => ?_⟩
  · rw [hget]
    split_ifs with hlt
    · rw [InodeRecord.pointer_of_lt hk]
    · exact not_not.mp (mt (h.direct k hk).mp hlt)
  · rw [hlen]
    split_ifs with h12
    · rfl
    · exact not_not.mp (mt h.indirect.mp h12)
  · rw [hlen] at h12
    have h0 := h.indirect.mpr h12
    rw [hget]
    split_ifs with hlt
    · rw [InodeRecord.pointer_of_ge (by omega), Nat.add_sub_cancel_left]
    · exact not_not.mp (mt (h.indirectEntries h0 k hk).mp (by omega))

theorem InodeRecord.Mapped.dataIn {sb : Superblock} (h : v.Mapped sb d) : sb.InData (v.blocks d) v.indirect := by
  refine ⟨fun b hb => h.inData b (List.mem_append_left _ hb), fun h12 => h.inData _ (indirect_mem_owned ?_)⟩
  exact h.indirect.mpr (by simpa [InodeRecord.blocks] using h12)

end Eufs
