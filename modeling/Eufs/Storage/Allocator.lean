import Eufs.Journal.Store
import Eufs.Storage.Bitmap

/-!
# Eufs.Storage.Allocator — handing out bits of a bitmap

`BitmapAllocator` works on a copy of a bitmap in memory: `reserve` hands out the lowest free bit of the allocatable
range, `releaseAllocated` takes back a bit that is set.  A plan that fails is dropped with its copy, so the roll-back
of single reservations leaves no trace here.

Reserving one bit after the other runs through the list of free bits: `a.free` says what the next reservations give,
and how many of them can succeed.
-/

namespace Eufs

open Bitmap

structure BitmapAllocator where
  bitmap : Bitmap
  /-- the bytes of the bitmap -/
  size : ℕ
  validBits : ℕ
  firstAllocatableBit : ℕ

namespace BitmapAllocator

/-- The reserved bits before and after the allocatable range are set.  The bits of the tail are counted in 64 bits and
tested as 32-bit numbers. -/
def validate (a : BitmapAllocator) : Except String Unit := do
  reject (a.validBits = 0 ∨ a.firstAllocatableBit > a.validBits) "bitmap allocator geometry is invalid"
  reject (a.size * 8 < a.validBits) "bitmap storage is smaller than its valid range"
  reject (¬ ∀ bit < a.firstAllocatableBit, a.bitmap.testBit bit) "reserved bitmap prefix contains a free bit"
  reject (¬ ∀ bit < a.size * 8, a.validBits ≤ bit → a.bitmap.testBit (bit % 2 ^ 32))
    "bitmap tail contains an allocatable bit"

/-- The bits that can be handed out, in order. -/
def allocatable (a : BitmapAllocator) : List ℕ :=
  List.range' a.firstAllocatableBit (a.validBits - a.firstAllocatableBit)

/-- The first free bit. -/
def reserve (a : BitmapAllocator) : Except Failure (ℕ × BitmapAllocator) := do
  reject (a.size * 8 < a.validBits ∨ a.firstAllocatableBit > a.validBits)
    ⟨.EINVAL, "bitmap allocator geometry is invalid"⟩
  match a.allocatable.find? fun bit => !a.bitmap.testBit bit with
  | none => throw ⟨.ENOSPC, "bitmap has no free allocatable bit"⟩
  | some bit => return (bit, { a with bitmap := a.bitmap.setBit bit })

def releaseAllocated (a : BitmapAllocator) (bit : ℕ) : Except Failure BitmapAllocator := do
  reject (a.size * 8 < a.validBits ∨ a.firstAllocatableBit > a.validBits ∨ bit < a.firstAllocatableBit ∨
      bit ≥ a.validBits) ⟨.EINVAL, "released bitmap bit is outside the allocatable range"⟩
  reject (¬ a.bitmap.testBit bit) ⟨.EUCLEAN, "released bitmap bit is already free"⟩
  return { a with bitmap := a.bitmap.clearBit bit }

/-! ## Reserving -/

/-- The free bits, in the order in which they are handed out. -/
def free (a : BitmapAllocator) : List ℕ := a.allocatable.filter fun bit => !a.bitmap.testBit bit

/-- The range lies in the bitmap. -/
structure Fits (a : BitmapAllocator) : Prop where
  size : a.validBits ≤ a.size * 8
  first : a.firstAllocatableBit ≤ a.validBits

/-- The allocator after `bits` were handed out. -/
def taking (a : BitmapAllocator) (bits : List ℕ) : BitmapAllocator :=
  { a with bitmap := bits.foldl setBit a.bitmap }

/-- The allocator after `bits` were taken back. -/
def dropping (a : BitmapAllocator) (bits : List ℕ) : BitmapAllocator :=
  { a with bitmap := bits.foldl clearBit a.bitmap }

variable {a : BitmapAllocator} {bit : ℕ} {bits : List ℕ}

/-- A bitmap of at most `2 ^ 32` bits with its reserved bits set. -/
theorem Fits.validate (h : a.Fits) (hvalid : a.validBits ≠ 0) (hsmall : a.size * 8 ≤ 2 ^ 32)
    (hreserved : ∀ bit < a.firstAllocatableBit, a.bitmap.testBit bit)
    (htail : ∀ bit < a.size * 8, a.validBits ≤ bit → a.bitmap.testBit bit) : a.validate = .ok () := by
  have hfirst := h.first
  refine reject_bind_eq_ok.mpr ⟨by omega, reject_bind_eq_ok.mpr ⟨not_lt.mpr h.size, reject_bind_eq_ok.mpr
    ⟨not_not.mpr hreserved, reject_eq_ok.mpr (not_not.mpr fun bit hbit hle => ?_)⟩⟩⟩
  rw [Nat.mod_eq_of_lt (by omega)]
  exact htail bit hbit hle

theorem fits_of_validate (h : a.validate = .ok ()) : a.Fits := by
  simp only [BitmapAllocator.validate, reject_bind_eq_ok, not_or, not_lt] at h
  exact ⟨h.2.1, h.1.2⟩

theorem Fits.taking (h : a.Fits) (bits : List ℕ) : (a.taking bits).Fits := ⟨h.size, h.first⟩

theorem mem_allocatable (h : a.Fits) : bit ∈ a.allocatable ↔
    a.firstAllocatableBit ≤ bit ∧ bit < a.validBits := by
  have := h.first
  rw [allocatable, List.mem_range'_1]
  omega

theorem mem_free (h : a.Fits) :
    bit ∈ a.free ↔ (a.firstAllocatableBit ≤ bit ∧ bit < a.validBits) ∧ a.bitmap.testBit bit = false := by
  rw [free, List.mem_filter, mem_allocatable h, Bool.not_eq_true']

theorem nodup_free (a : BitmapAllocator) : a.free.Nodup := List.Nodup.filter _ List.nodup_range'

theorem testBit_foldl_setBit (bm : Bitmap) (bits : List ℕ) (j : ℕ) :
    (bits.foldl setBit bm).testBit j = (decide (j ∈ bits) || bm.testBit j) := by
  induction bits generalizing bm with
  | nil => simp
  | cons b bits ih =>
    rw [List.foldl_cons, ih, testBit_setBit]
    by_cases h1 : j = b <;> by_cases h2 : j ∈ bits <;> simp [h1, h2]

theorem testBit_foldl_clearBit (bm : Bitmap) (bits : List ℕ) (j : ℕ) :
    (bits.foldl clearBit bm).testBit j = (!decide (j ∈ bits) && bm.testBit j) := by
  induction bits generalizing bm with
  | nil => simp
  | cons b bits ih =>
    rw [List.foldl_cons, ih, testBit_clearBit]
    by_cases h1 : j = b <;> by_cases h2 : j ∈ bits <;> simp [h1, h2]

/-- A reservation takes the head of the list of free bits. -/
theorem reserve_eq (h : a.Fits) : a.reserve = match a.free with
    | [] => .error ⟨.ENOSPC, "bitmap has no free allocatable bit"⟩
    | bit :: _ => .ok (bit, a.taking [bit]) := by
  have hok : ¬ (a.size * 8 < a.validBits ∨ a.firstAllocatableBit > a.validBits) := by
    have h1 := h.size
    have h2 := h.first
    omega
  have hfind : (a.allocatable.find? fun bit => !a.bitmap.testBit bit) = a.free.head? := by
    rw [free, List.head?_filter]
  unfold reserve
  rw [hfind]
  simp only [hok, reject_false, ok_bind]
  cases a.free with
  | nil => rfl
  | cons b l => rfl

theorem reserve_cons {a' : BitmapAllocator} (h : a.Fits) (hr : a.reserve = .ok (bit, a')) :
    (∃ rest, a.free = bit :: rest) ∧ a' = a.taking [bit] := by
  rw [reserve_eq h] at hr
  cases hfree : a.free with
  | nil =>
    rw [hfree] at hr
    cases hr
  | cons first rest =>
    rw [hfree] at hr
    obtain ⟨rfl, rfl⟩ := Prod.mk.inj (Except.ok.inj hr)
    exact ⟨⟨rest, rfl⟩, rfl⟩

theorem reserve_range {a' : BitmapAllocator} (h : a.reserve = .ok (bit, a')) :
    a.firstAllocatableBit ≤ bit ∧ bit < a.validBits := by
  obtain ⟨hok, h⟩ := reject_bind_eq_ok.mp h
  split at h
  · cases h
  · rename_i b hfind
    obtain rfl : b = bit := congrArg Prod.fst (Except.ok.inj h)
    have hmem := List.mem_range'_1.mp (List.mem_of_find?_eq_some hfind)
    omega

theorem free_taking {rest : List ℕ} (h : a.free = bits ++ rest) : (a.taking bits).free = rest := by
  have hfree : (a.taking bits).free = a.free.filter fun b => !decide (b ∈ bits) := by
    unfold free
    rw [List.filter_filter]
    refine List.filter_congr fun b _ => ?_
    show (!(bits.foldl setBit a.bitmap).testBit b) = _
    rw [testBit_foldl_setBit, Bool.not_or]
  have hnodup := nodup_free a
  rw [h, List.nodup_append] at hnodup
  rw [hfree, h, List.filter_append]
  have h1 : (bits.filter fun b => !decide (b ∈ bits)) = [] := by
    refine List.filter_eq_nil_iff.mpr fun b hb => ?_
    simp [hb]
  have h2 : (rest.filter fun b => !decide (b ∈ bits)) = rest := by
    refine List.filter_eq_self.mpr fun b hb => ?_
    have hne : b ∉ bits := fun hc => hnodup.2.2 b hc b hb rfl
    simp [hne]
  rw [h1, h2, List.nil_append]

theorem taking_taking (bits bits' : List ℕ) : (a.taking bits).taking bits' = a.taking (bits ++ bits') := by
  simp [taking, List.foldl_append]

/-! ## Releasing -/

theorem foldlM_releaseAllocated (h : a.Fits) (hn : bits.Nodup)
    (hb : ∀ b ∈ bits, (a.firstAllocatableBit ≤ b ∧ b < a.validBits) ∧ a.bitmap.testBit b = true) :
    bits.foldlM releaseAllocated a = .ok (a.dropping bits) := by
  induction bits generalizing a with
  | nil => rfl
  | cons b bits ih =>
    obtain ⟨⟨⟨h1, h2⟩, h3⟩, hrest⟩ := List.forall_mem_cons.mp hb
    obtain ⟨hnot, hn⟩ := List.nodup_cons.mp hn
    have hstep : a.releaseAllocated b = .ok (a.dropping [b]) := by
      have hs := h.size
      have hf := h.first
      exact reject_bind_eq_ok.mpr ⟨by omega, reject_bind_eq_ok.mpr ⟨not_not.mpr h3, rfl⟩⟩
    rw [List.foldlM_cons, hstep, ok_bind]
    refine ih ⟨h.size, h.first⟩ hn fun c hc => ⟨(hrest c hc).1, ?_⟩
    have hne : c ≠ b := fun hcb => hnot (hcb ▸ hc)
    show (a.bitmap.clearBit b).testBit c = true
    rw [testBit_clearBit, (hrest c hc).2]
    simp [hne]

end BitmapAllocator

end Eufs
