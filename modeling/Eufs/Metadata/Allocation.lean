import Eufs.Metadata.Frame
import Eufs.Metadata.Fresh
import Eufs.Storage.Allocator

/-!
# Eufs.Metadata.Allocation — the allocators of an image

The planners work on copies of the two bitmaps.  On an image that `adoptLockedFd` accepts both copies pass the check of
the allocator, and what they can hand out are the inodes and data blocks that the image does not mark in use.
-/

namespace Eufs

open ImageReader BitmapAllocator

namespace ImageReader

variable {r : ImageReader}

/-- The allocator of the inodes, on a copy of the bitmap. -/
def inodeAllocator (r : ImageReader) : BitmapAllocator :=
  ⟨r.inodeBitmap, r.superblock.inodeBitmap.count * kBlockSize, r.superblock.totalInodes.toNat, 0⟩

/-- The allocator of the data blocks, on a copy of the bitmap. -/
def blockAllocator (r : ImageReader) : BitmapAllocator :=
  ⟨r.blockBitmap, r.superblock.blockBitmap.count * kBlockSize, r.superblock.totalBlocks.toNat,
    r.superblock.data.start⟩

theorem inodeAllocator_fits (hr : r.superblock.Regions) : r.inodeAllocator.Fits := ⟨hr.inodes_le, Nat.zero_le _⟩

theorem blockAllocator_fits (hr : r.superblock.Regions) : r.blockAllocator.Fits := by
  obtain ⟨-, -, -, -, -, -, -, h8⟩ := hr.chain
  refine ⟨hr.blocks_le, ?_⟩
  show r.superblock.data.start ≤ r.superblock.totalBlocks.toNat
  omega

/-- A bitmap for a 32-bit number of bits has at most `2 ^ 32` of them. -/
theorem bitmap_bits_le (x : UInt32) : ceilDivide x.toNat (kBlockSize * 8) * kBlockSize * 8 ≤ 2 ^ 32 := by
  have hx := x.toNat_lt
  show (x.toNat + 32768 - 1) / 32768 * 4096 * 8 ≤ 2 ^ 32
  omega

theorem inodeAllocator_validate (hr : r.superblock.Regions) (ha : r.superblock.Adoptable r.image) :
    r.inodeAllocator.validate = .ok () := by
  refine (inodeAllocator_fits hr).validate hr.inodes.ne' ?_
    (fun bit hbit => absurd hbit (Nat.not_lt_zero _)) ha.inodeTail
  show r.superblock.inodeBitmap.count * kBlockSize * 8 ≤ 2 ^ 32
  rw [hr.inodeBitmap_count]
  exact bitmap_bits_le _

theorem blockAllocator_validate (hr : r.superblock.Regions) (ha : r.superblock.Adoptable r.image) :
    r.blockAllocator.validate = .ok () := by
  have htotal : r.superblock.totalBlocks.toNat ≠ 0 := by
    have := hr.total
    omega
  refine (blockAllocator_fits hr).validate htotal ?_ ha.metadata ha.blockTail
  show r.superblock.blockBitmap.count * kBlockSize * 8 ≤ 2 ^ 32
  rw [hr.blockBitmap_count]
  exact bitmap_bits_le _

end ImageReader

/-! ## Formatted images -/

namespace Formatted

variable {options : MkfsOptions} {g : RequestLedgerGeometry} {host : MkfsHost} {base : Image} {r : ImageReader}
  (h : Formatted r.superblock g host base r.image) (hl : Layout options r.superblock g)

include h hl

theorem mem_freeBlocks {b : ℕ} (h1 : r.superblock.data.start + g.occupied ≤ b)
    (h2 : b < r.superblock.totalBlocks.toNat) :
    b ∈ r.blockAllocator.free := by
  have hle := hl.regions.blocks_le
  refine (mem_free (blockAllocator_fits hl.regions)).mpr
    ⟨⟨(Nat.le_add_right _ _).trans h1, h2⟩, (h.blockBit_eq hl (by omega)).trans ?_⟩
  rw [Bool.or_eq_false_iff, decide_eq_false_iff_not, decide_eq_false_iff_not]
  omega

theorem le_freeBlocks {k : ℕ} (hk : r.superblock.data.start + g.occupied + k ≤ r.superblock.totalBlocks.toNat) :
    k ≤ r.blockAllocator.free.length := by
  have hsub : List.range' (r.superblock.data.start + g.occupied) k ⊆ r.blockAllocator.free := by
    intro b hb
    obtain ⟨h1, h2⟩ := List.mem_range'_1.mp hb
    exact h.mem_freeBlocks hl h1 (h2.trans_le hk)
  exact (List.length_range' ..).symm.trans_le (List.subperm_of_subset List.nodup_range' hsub).length_le

theorem mem_freeInodes {k : ℕ} (h1 : 2 ≤ k) (h2 : k < r.superblock.totalInodes.toNat) :
    k ∈ r.inodeAllocator.free := by
  have hle := hl.regions.inodes_le
  refine (mem_free (inodeAllocator_fits hl.regions)).mpr
    ⟨⟨Nat.zero_le _, h2⟩, (h.inodeBit_eq hl (by omega)).trans ?_⟩
  simp only [Bool.or_eq_false_iff, Bool.and_eq_false_iff, decide_eq_false_iff_not]
  omega

/-- The first inode that is handed out is the one behind the ledger's. -/
theorem head?_freeInodes (he : g.enabled) (hk : 2 < r.superblock.totalInodes.toNat) :
    r.inodeAllocator.free.head? = some 2 := by
  have hle := hl.regions.inodes_le
  rw [free, List.head?_filter, allocatable, List.find?_range'_eq_some]
  have hmem := h.mem_freeInodes hl le_rfl hk
  rw [free, List.mem_filter] at hmem
  refine ⟨hmem.2, hmem.1, fun j _ hj => ?_⟩
  have hbit : r.inodeAllocator.bitmap.testBit j = true := (h.inodeBit_eq hl (by omega)).trans (by
    simp only [he, decide_true, Bool.true_and, Bool.or_eq_true, decide_eq_true_eq]
    omega)
  simp [hbit]

end Formatted

end Eufs
