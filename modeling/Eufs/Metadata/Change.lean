import Eufs.Metadata.Frame
import Eufs.Metadata.Plan

/-!
# Eufs.Metadata.Change — images that differ by a plan

A plan gives some inodes new records, allocates inodes, reserves and releases data blocks, and may edit data blocks in
place.  `Superblock.Changed` says this of two images; the tree of the second one follows, and with it the clauses of
soundness that do not depend on what exactly changed.
-/

namespace Eufs

namespace Superblock

/-- `d'` differs from `d` by these records, inodes and blocks. -/
structure Changed (sb : Superblock) (d d' : Image) (records : List (ℕ × InodeRecord))
    (inodes reserved released edited : List ℕ) : Prop where
  slot : ∀ m, 1 ≤ m → m ≤ sb.totalInodes.toNat → m ∉ records.map Prod.fst →
    inodeSlot sb d' m = inodeSlot sb d m
  record : ∀ x ∈ records, inodeSlot sb d' x.1 = inodeBytes x.2
  valid : ∀ x ∈ records, x.2.Valid ∧ x.2.inodeNumber.toNat = x.1
  inodeBits : ∀ k < sb.inodeBitmap.count * kBlockSize * 8, (loadBitmap d' sb.inodeBitmap.start).testBit k =
    (decide (k + 1 ∈ inodes) || (loadBitmap d sb.inodeBitmap.start).testBit k)
  inodeRange : ∀ m ∈ inodes, 1 ≤ m ∧ m ≤ sb.totalInodes.toNat
  blockBits : ∀ b < sb.blockBitmap.count * kBlockSize * 8,
    sb.blockBit d' b = (!decide (b ∈ released) && (decide (b ∈ reserved) || sb.blockBit d b))
  free : ∀ b ∈ reserved, (sb.data.start ≤ b ∧ b < sb.totalBlocks.toNat) ∧ sb.blockBit d b = false
  taken : ∀ b ∈ released, (sb.data.start ≤ b ∧ b < sb.totalBlocks.toNat) ∧ b ∉ reserved
  data : ∀ b, sb.data.start ≤ b → b ∉ reserved → b ∉ edited → d' b = d b

variable {sb : Superblock} {d d' : Image} {records : List (ℕ × InodeRecord)}
  {inodes reserved released edited : List ℕ} {m : ℕ} {v : InodeRecord}

theorem Sound.blockBit_of_mem (hs : sb.Sound d) (hm : m ∈ sb.inodes d) {b : ℕ} (hb : b ∈ sb.ownedBy d m) :
    (sb.data.start ≤ b ∧ b < sb.totalBlocks.toNat) ∧ sb.blockBit d b = true := by
  obtain ⟨v, hv, hmap⟩ := hs.inode m hm
  have hd := hmap.inData b (by rwa [ownedBy_of_record hv] at hb)
  exact ⟨hd, (hs.referenced b hd.1 hd.2).mpr (List.mem_flatMap.mpr ⟨m, hm, hb⟩)⟩

namespace Changed

variable (h : sb.Changed d d' records inodes reserved released edited)

include h

theorem mem_inodes_iff (hr : sb.Regions) : m ∈ sb.inodes d' ↔ m ∈ sb.inodes d ∨ m ∈ inodes := by
  have hcap := hr.inodes_le
  rw [mem_inodes, mem_inodes]
  constructor
  · rintro ⟨h1, h2, hb⟩
    rw [inodeBit, h.inodeBits _ (by omega), show m - 1 + 1 = m by omega, Bool.or_eq_true, decide_eq_true_eq] at hb
    rcases hb with hb | hb
    · exact .inr hb
    · exact .inl ⟨h1, h2, hb⟩
  · intro hm
    have hle : 1 ≤ m ∧ m ≤ sb.totalInodes.toNat := by
      rcases hm with hm | hm
      · exact ⟨hm.1, hm.2.1⟩
      · exact h.inodeRange m hm
    refine ⟨hle.1, hle.2, ?_⟩
    rw [inodeBit, h.inodeBits _ (by omega), show m - 1 + 1 = m by omega, Bool.or_eq_true, decide_eq_true_eq]
    rcases hm with hm | hm
    · exact .inr hm.2.2
    · exact .inl hm

theorem inodeAt_record {x : ℕ × InodeRecord} (hx : x ∈ records) : sb.inodeAt d' x.1 = some x.2 := by
  obtain ⟨hv, hn⟩ := h.valid x hx
  rw [inodeAt_eq_some, h.record x hx, ← hn]
  exact decodeInode_inodeBytes hv

/-- An inode without a new record and without edited blocks stays as it is. -/
theorem keeps (hs : sb.Sound d) (hm : m ∈ sb.inodes d) (hn : m ∉ records.map Prod.fst)
    (he : ∀ b ∈ sb.ownedBy d m, b ∉ edited) : sb.Keeps d d' m := by
  obtain ⟨h1, h2, -⟩ := mem_inodes.mp hm
  refine ⟨h.slot m h1 h2 hn, fun b hb => ?_⟩
  obtain ⟨⟨hd, -⟩, hbit⟩ := hs.blockBit_of_mem hm hb
  refine h.data b hd (fun hc => ?_) (he b hb)
  rw [(h.free b hc).2] at hbit
  exact absurd hbit (by simp)

theorem blockBit_iff (hr : sb.Regions) {b : ℕ} (hb : b < sb.totalBlocks.toNat) :
    sb.blockBit d' b = true ↔ b ∉ released ∧ (b ∈ reserved ∨ sb.blockBit d b = true) := by
  have hcap := hr.blocks_le
  rw [h.blockBits b (by omega)]
  simp

/-! ## Soundness -/

theorem reserved_bits (hr : sb.Regions) (hs : sb.Sound d) : sb.Reserved d' := by
  refine ⟨fun b hb => ?_, fun k hk hle => ?_, fun k hk hle => ?_⟩
  · have hstop := hr.data_stop
    rw [Region.stop] at hstop
    refine (h.blockBit_iff hr (by omega)).mpr ⟨fun hc => ?_, .inr (hs.metadata b hb)⟩
    have := (h.taken b hc).1
    omega
  · rw [h.inodeBits k hk, hs.inodeTail k hk hle, Bool.or_true]
  · have hk' : k ∉ released := fun hc => by
      have := (h.taken k hc).1
      omega
    rw [h.blockBits k hk, hs.blockTail k hk hle]
    simp [hk']

/-- Blocks in use stay bits of the bitmap when the references change as the plan says. -/
theorem referenced (hr : sb.Regions) (hs : sb.Sound d)
    (hrefs : ∀ b, b ∈ sb.references d' ↔ b ∉ released ∧ (b ∈ reserved ∨ b ∈ sb.references d)) :
    ∀ b, sb.data.start ≤ b → b < sb.totalBlocks.toNat → (sb.blockBit d' b ↔ b ∈ sb.references d') := by
  intro b h1 h2
  rw [h.blockBit_iff hr h2, hrefs, hs.referenced b h1 h2]

end Changed

/-- Blocks stay owned once: each inode owns old blocks of its own and new blocks of its share `R`. -/
theorem Sound.once_of_shares (hs : sb.Sound d) {R : ℕ → List ℕ}
    (howned : ∀ m ∈ sb.inodes d', (sb.ownedBy d' m).Nodup ∧
      ∀ b ∈ sb.ownedBy d' m, (m ∈ sb.inodes d ∧ b ∈ sb.ownedBy d m) ∨ b ∈ R m)
    (hnew : ∀ m, ∀ b ∈ R m, sb.blockBit d b = false) (hdis : ∀ m m', m ≠ m' → ∀ b ∈ R m, b ∉ R m') :
    (sb.references d').Nodup := by
  have hused : ∀ m ∈ sb.inodes d, ∀ b ∈ sb.ownedBy d m, ∀ m', b ∉ R m' := by
    intro m hm b hb m' hc
    have := (hs.blockBit_of_mem hm hb).2
    rw [hnew m' b hc] at this
    exact absurd this (by simp)
  refine List.nodup_flatMap.mpr ⟨fun m hm => (howned m hm).1, ?_⟩
  refine (nodup_inodes sb d').pairwise_of_forall_ne fun m hm m' hm' hne => ?_
  intro b hb hb'
  rcases (howned m hm).2 b hb with ⟨h1, h2⟩ | h1
  · rcases (howned m' hm').2 b hb' with ⟨h3, h4⟩ | h3
    · exact hs.owned_disjoint hne h1 h3 b h2 h4
    · exact hused m h1 b h2 m' h3
  · rcases (howned m' hm').2 b hb' with ⟨h3, h4⟩ | h3
    · exact hused m' h3 b h4 m h1
    · exact hdis m m' hne b h1 h3

end Superblock

end Eufs
