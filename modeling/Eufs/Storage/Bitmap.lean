import Eufs.Format.Ondisk

/-!
# Eufs.Storage.Bitmap — allocation bitmaps

A bitmap is a string of bytes; bit `i` is bit `i % 8` of byte `i / 8`.  The setters of the formatter and of the
allocator are described by their effect on single bits.
-/

namespace Eufs

open Function

/-- The bytes of a bitmap. -/
abbrev Bitmap := ℕ → UInt8

namespace Bitmap

def testBit (bm : Bitmap) (bit : ℕ) : Bool := (bm (bit / 8)).toBitVec.getLsbD (bit % 8)

def setBit (bm : Bitmap) (bit : ℕ) : Bitmap :=
  update bm (bit / 8) (bm (bit / 8) ||| UInt8.ofBitVec (BitVec.twoPow 8 (bit % 8)))

def clearBit (bm : Bitmap) (bit : ℕ) : Bitmap :=
  update bm (bit / 8) (bm (bit / 8) &&& ~~~ UInt8.ofBitVec (BitVec.twoPow 8 (bit % 8)))

/-- Set the bits below `usedBits`; the byte with the last of them is overwritten. -/
def setBitmapPrefix (bm : Bitmap) (usedBits : ℕ) : Bitmap := fun k =>
  if k < usedBits / 8 then 0xFF
  else if k = usedBits / 8 ∧ usedBits % 8 ≠ 0 then UInt8.ofBitVec (BitVec.twoPow 8 (usedBits % 8) - 1)
  else bm k

/-- Set the bits from `validBits` to the end of the bitmap. -/
def reserveBitmapTail (bm : Bitmap) (validBits : ℕ) : Bitmap := fun k =>
  if validBits % 8 ≠ 0 then
    if k = validBits / 8 then bm k ||| UInt8.ofBitVec (0xFF#8 <<< (validBits % 8))
    else if validBits / 8 < k then 0xFF else bm k
  else if validBits / 8 ≤ k then 0xFF else bm k

variable {bm : Bitmap} {i j : ℕ}

theorem testBit_congr {a b : Bitmap} (h : a (i / 8) = b (i / 8)) : a.testBit i = b.testBit i := by
  simp only [testBit, h]

theorem testBit_setBit : (bm.setBit i).testBit j = (decide (j = i) || bm.testBit j) := by
  by_cases h : j / 8 = i / 8
  · have hi : i % 8 < 8 := Nat.mod_lt _ (by omega)
    have heq : i % 8 = j % 8 ↔ j = i := by omega
    simp only [testBit, setBit, h, update_self, UInt8.toBitVec_or, BitVec.getLsbD_or,
      BitVec.getLsbD_twoPow, hi, heq, decide_true, Bool.true_and]
    exact Bool.or_comm _ _
  · have hne : j ≠ i := fun hc => h (hc ▸ rfl)
    rw [testBit_congr (b := bm) (by simp only [setBit, update_of_ne h])]
    simp [hne]

theorem testBit_clearBit : (bm.clearBit i).testBit j = (!decide (j = i) && bm.testBit j) := by
  by_cases h : j / 8 = i / 8
  · have hi : i % 8 < 8 := Nat.mod_lt _ (by omega)
    have hj : j % 8 < 8 := Nat.mod_lt _ (by omega)
    have heq : i % 8 = j % 8 ↔ j = i := by omega
    simp only [testBit, clearBit, h, update_self, UInt8.toBitVec_and, UInt8.toBitVec_not,
      BitVec.getLsbD_and, BitVec.getLsbD_not, BitVec.getLsbD_twoPow, hi, hj, heq, decide_true, Bool.true_and]
    exact Bool.and_comm _ _
  · have hne : j ≠ i := fun hc => h (hc ▸ rfl)
    rw [testBit_congr (b := bm) (by simp only [clearBit, update_of_ne h])]
    simp [hne]

private theorem getLsbD_allOnes {k : ℕ} (h : k < 8) : (0xFF : UInt8).toBitVec.getLsbD k = true := by
  interval_cases k <;> rfl

private theorem getLsbD_lowOnes {x y : ℕ} (hx : x < 8) (hy : y < 8) :
    (UInt8.ofBitVec (BitVec.twoPow 8 y - 1)).toBitVec.getLsbD x =
      (decide (x < y) || (0 : UInt8).toBitVec.getLsbD x) := by
  interval_cases x <;> interval_cases y <;> rfl

private theorem getLsbD_highOnes {x y : ℕ} (hx : x < 8) (hy : y < 8) :
    (0xFF#8 <<< y).getLsbD x = decide (y ≤ x) := by
  interval_cases x <;> interval_cases y <;> rfl

theorem testBit_setBitmapPrefix {n : ℕ} (hz : bm (n / 8) = 0) :
    (bm.setBitmapPrefix n).testBit j = (decide (j < n) || bm.testBit j) := by
  have hj : j % 8 < 8 := Nat.mod_lt _ (by omega)
  unfold testBit setBitmapPrefix
  by_cases h1 : j / 8 < n / 8
  · have hlt : j < n := by omega
    rw [if_pos h1, getLsbD_allOnes hj]
    simp [hlt]
  · rw [if_neg h1]
    by_cases h2 : j / 8 = n / 8 ∧ n % 8 ≠ 0
    · have hlt : j < n ↔ j % 8 < n % 8 := by omega
      have hn : n % 8 < 8 := Nat.mod_lt _ (by omega)
      rw [if_pos h2, h2.1, hz, decide_eq_decide.mpr hlt]
      exact getLsbD_lowOnes hj hn
    · have hlt : ¬ j < n := by omega
      simp [if_neg h2, hlt]

theorem testBit_reserveBitmapTail {n : ℕ} :
    (bm.reserveBitmapTail n).testBit j = (decide (n ≤ j) || bm.testBit j) := by
  have hj : j % 8 < 8 := Nat.mod_lt _ (by omega)
  unfold testBit reserveBitmapTail
  by_cases h0 : n % 8 = 0
  · rw [if_neg (by simpa using h0)]
    by_cases h1 : n / 8 ≤ j / 8
    · have hle : n ≤ j := by omega
      rw [if_pos h1, getLsbD_allOnes hj]
      simp [hle]
    · have hle : ¬ n ≤ j := by omega
      simp [if_neg h1, hle]
  · rw [if_pos h0]
    by_cases h1 : j / 8 = n / 8
    · have hle : n ≤ j ↔ n % 8 ≤ j % 8 := by omega
      have hn : n % 8 < 8 := Nat.mod_lt _ (by omega)
      simp only [if_pos h1, UInt8.toBitVec_or, BitVec.getLsbD_or, getLsbD_highOnes hj hn, decide_eq_decide.mpr hle]
      exact Bool.or_comm _ _
    · rw [if_neg h1]
      by_cases h2 : n / 8 < j / 8
      · have hle : n ≤ j := by omega
        rw [if_pos h2, getLsbD_allOnes hj]
        simp [hle]
      · have hle : ¬ n ≤ j := by omega
        simp [if_neg h2, hle]

end Bitmap

/-! ## Bitmaps on disk -/

/-- Block `k` of a bitmap. -/
def bitmapBlock (bm : Bitmap) (k : ℕ) : Block := Vector.ofFn fun i => bm (k * kBlockSize + i.val)

/-- The bitmap stored in the blocks from `start` on. -/
def loadBitmap (d : ℕ → Block) (start : ℕ) : Bitmap := fun k =>
  (d (start + k / kBlockSize)).byte (k % kBlockSize)

theorem block_div_mod {k i : ℕ} (h : i < kBlockSize) :
    (k * kBlockSize + i) / kBlockSize = k ∧ (k * kBlockSize + i) % kBlockSize = i := by
  unfold kBlockSize at *
  omega

theorem byte_bitmapBlock {bm : Bitmap} {k i : ℕ} (h : i < kBlockSize) :
    (bitmapBlock bm k).byte i = bm (k * kBlockSize + i) := by
  rw [Bytes.byte_eq h]
  simp [bitmapBlock]

theorem loadBitmap_of_blocks {d : ℕ → Block} {start count : ℕ} {bm : Bitmap}
    (h : ∀ k < count, d (start + k) = bitmapBlock bm k) {k : ℕ} (hk : k < count * kBlockSize) :
    loadBitmap d start k = bm k := by
  have hq : k / kBlockSize < count := Nat.div_lt_of_lt_mul (by rwa [Nat.mul_comm])
  rw [loadBitmap, h _ hq, byte_bitmapBlock (Nat.mod_lt _ (by decide)), Nat.div_add_mod']

/-- A stored bitmap whose first `used` bits and whose bits from `total` on are set. -/
theorem testBit_loadBitmap_reserved {d : ℕ → Block} {start used total k : ℕ} (hk : k < kBlockSize * 8)
    (h : d start = bitmapBlock ((Bitmap.setBitmapPrefix (fun _ => 0) used).reserveBitmapTail total) 0) :
    (loadBitmap d start).testBit k = (decide (total ≤ k) || decide (k < used)) := by
  have hblocks : ∀ j < 1, d (start + j) = bitmapBlock _ j := fun j hj => by rwa [Nat.lt_one_iff.mp hj]
  have hzero : Bitmap.testBit (fun _ => 0) k = false := by simp [Bitmap.testBit]
  rw [Bitmap.testBit_congr (loadBitmap_of_blocks hblocks (by rw [one_mul]; omega)), Bitmap.testBit_reserveBitmapTail,
    Bitmap.testBit_setBitmapPrefix rfl, hzero, Bool.or_false]

theorem bitmapBlock_loadBitmap (d : ℕ → Block) (start k : ℕ) :
    bitmapBlock (loadBitmap d start) k = d (start + k) := by
  refine Bytes.ext_byte fun i hi => ?_
  rw [byte_bitmapBlock hi, loadBitmap, (block_div_mod hi).1, (block_div_mod hi).2]

theorem bitmapBlock_congr {a b : Bitmap} {k : ℕ} (h : ∀ i, i / kBlockSize = k → a i = b i) :
    bitmapBlock a k = bitmapBlock b k := by
  refine Bytes.ext_byte fun i hi => ?_
  rw [byte_bitmapBlock hi, byte_bitmapBlock hi, h _ (block_div_mod hi).1]

end Eufs
