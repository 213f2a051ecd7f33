import Eufs.Metadata.Fresh
import Eufs.Metadata.Reading

/-!
# Eufs.Metadata.Slices — file reads in machine integers

`ReadFile` counts in 64-bit integers and casts block numbers to 32 bits.  `readFile64` is the method with the
integers of the source.  None of its sums and casts loses anything on an inode that `readInode` accepts, so a read
is a slice of the content and consecutive reads are one read.
-/

namespace Eufs

theorem toNat_min64 (a b : UInt64) : (min a b).toNat = min a.toNat b.toNat := by
  have hmin : min a b = if a ≤ b then a else b := rfl
  rw [hmin, Nat.min_def]
  simp only [UInt64.le_iff_toNat_le]
  split <;> rfl

/-- The part of a request that lies in the block of `offset`. -/
def chunkSize (offset left : UInt64) : UInt64 := min left (UInt64.ofNat kBlockSize - offset % UInt64.ofNat kBlockSize)

theorem toNat_chunkSize (offset left : UInt64) :
    (chunkSize offset left).toNat = min left.toNat (kBlockSize - offset.toNat % kBlockSize) := by
  have hk : (UInt64.ofNat kBlockSize).toNat = kBlockSize := rfl
  have hm : offset.toNat % kBlockSize < kBlockSize := Nat.mod_lt _ (by decide)
  rw [chunkSize, toNat_min64, UInt64.toNat_sub_of_le, UInt64.toNat_mod, hk]
  rw [UInt64.le_iff_toNat_le, UInt64.toNat_mod, hk]
  exact hm.le

/-- One more chunk stays within the request and is not empty. -/
theorem toNat_add_chunkSize {offset total bytesRead : UInt64} (h : bytesRead < total) :
    (bytesRead + chunkSize offset (total - bytesRead)).toNat =
        bytesRead.toNat + (chunkSize offset (total - bytesRead)).toNat ∧
      bytesRead.toNat + (chunkSize offset (total - bytesRead)).toNat ≤ total.toNat ∧
      0 < (chunkSize offset (total - bytesRead)).toNat := by
  rw [UInt64.lt_iff_toNat_lt] at h
  have hsub : (total - bytesRead).toNat = total.toNat - bytesRead.toNat :=
    UInt64.toNat_sub_of_le _ _ (UInt64.le_iff_toNat_le.mpr h.le)
  have hm : offset.toNat % kBlockSize < kBlockSize := Nat.mod_lt _ (by decide)
  have hc := toNat_chunkSize offset (total - bytesRead)
  have ht := total.toNat_lt
  rw [hsub] at hc
  refine ⟨?_, by omega, by omega⟩
  rw [UInt64.toNat_add, Nat.mod_eq_of_lt]
  omega

namespace ImageReader

/-- The loop of `readFile64`; `output` are the bytes read before. -/
def readLoop (r : ImageReader) (v : InodeRecord) (offset total bytesRead : UInt64) (output : List UInt8) :
    Except Failure (List UInt8) :=
  if _h : bytesRead < total then do
    let currentOffset := offset + bytesRead
    let logical : UInt32 := (currentOffset / UInt64.ofNat kBlockSize).toUInt32
    let inside := currentOffset % UInt64.ofNat kBlockSize
    let physical ← r.mapLogicalBlock v logical.toNat
    let chunk := chunkSize currentOffset (total - bytesRead)
    r.readLoop v offset total (bytesRead + chunk)
      (output ++ (r.image physical).read inside.toNat chunk.toNat)
  else .ok output
termination_by total.toNat - bytesRead.toNat
decreasing_by
  have := @toNat_add_chunkSize (offset + bytesRead) _ _ _h
  omega

def readFile64 (r : ImageReader) (n : ℕ) (offset requested : UInt64) : Except Failure (List UInt8) := do
  let v ← r.readInode n
  reject (¬ S_ISREG v.mode) ⟨.EISDIR, ""⟩
  if offset ≥ v.size ∨ requested = 0 then return []
  else r.readLoop v offset (min requested (v.size - offset)) 0 []

/-- Reads of these lengths one after the other. -/
def consecutiveReads (r : ImageReader) (n : ℕ) : UInt64 → List UInt64 → Except Failure (List UInt8)
  | _, [] => .ok []
  | offset, requested :: rest => do
    let bytes ← r.readFile64 n offset requested
    let others ← r.consecutiveReads n (offset + requested) rest
    return bytes ++ others

variable {r : ImageReader} {n : ℕ} {v : InodeRecord}

/-- The loop reads what the loop over unbounded integers reads. -/
theorem readLoop_eq_readBytes {offset total : UInt64} (hend : offset.toNat + total.toNat < 2 ^ 32 * kBlockSize)
    (bytesRead : UInt64) (output : List UInt8) :
    r.readLoop v offset total bytesRead output =
      (r.readBytes v (offset.toNat + bytesRead.toNat) (total.toNat - bytesRead.toNat)).map (output ++ ·) := by
  have hk : kBlockSize = 4096 := rfl
  fun_induction r.readLoop v offset total bytesRead output with
  | case1 bytesRead output hlt currentOffset logical inside ih =>
    obtain ⟨hnext, hwithin, hpos⟩ := @toNat_add_chunkSize currentOffset _ _ hlt
    have hlt' := UInt64.lt_iff_toNat_lt.mp hlt
    have hsub : (total - bytesRead).toNat = total.toNat - bytesRead.toNat :=
      UInt64.toNat_sub_of_le _ _ (UInt64.le_iff_toNat_le.mpr hlt'.le)
    have hcur : currentOffset.toNat = offset.toNat + bytesRead.toNat := by
      rw [UInt64.toNat_add, Nat.mod_eq_of_lt]
      omega
    have hinside : inside.toNat = currentOffset.toNat % kBlockSize := UInt64.toNat_mod _ _
    -- the block number fits 32 bits
    have hlogical : logical.toNat = currentOffset.toNat / kBlockSize := by
      have hdiv : (currentOffset / UInt64.ofNat kBlockSize).toNat = currentOffset.toNat / kBlockSize :=
        UInt64.toNat_div _ _
      rw [UInt64.toNat_toUInt32, hdiv, Nat.mod_eq_of_lt]
      rw [Nat.div_lt_iff_lt_mul (by decide)]
      omega
    have hchunk := toNat_chunkSize currentOffset (total - bytesRead)
    rw [readBytes, dif_neg (by omega), hlogical, hcur]
    cases hmap : r.mapLogicalBlock v ((offset.toNat + bytesRead.toNat) / kBlockSize) with
    | error e => rfl
    | ok physical =>
      rw [hsub, hcur] at hchunk
      rw [ok_bind, ok_bind, ih, hnext, hinside, hcur, hchunk, ← Nat.add_assoc, Nat.sub_add_eq]
      generalize min (total.toNat - bytesRead.toNat)
        (kBlockSize - (offset.toNat + bytesRead.toNat) % kBlockSize) = chunk
      dsimp only
      cases r.readBytes v (offset.toNat + bytesRead.toNat + chunk) (total.toNat - bytesRead.toNat - chunk) with
      | error e => rfl
      | ok rest => exact congrArg Except.ok (List.append_assoc _ _ _)
  | case2 bytesRead output hnlt =>
    have hdone : total.toNat - bytesRead.toNat = 0 := by
      rw [UInt64.lt_iff_toNat_lt] at hnlt
      omega
    rw [hdone, readBytes, dif_pos rfl]
    simp [Except.map]

/-- On an inode that is read, the integers of the source lose nothing. -/
theorem readFile64_eq_readFile (hv : r.readInode n = .ok v) (offset requested : UInt64) :
    r.readFile64 n offset requested = r.readFile n offset.toNat requested.toNat := by
  have hk : kBlockSize = 4096 := rfl
  have hsize : v.size.toNat ≤ 1036 * 4096 :=
    (decodeInode_valid (Superblock.inodeAt_eq_some.mp (readInode_eq_ok.mp hv).record)).1.size
  unfold readFile64 readFile
  rw [hv, ok_bind, ok_bind]
  refine congrArg (Bind.bind _) (funext fun _ => ?_)
  by_cases hend : offset ≥ v.size ∨ requested = 0
  · have hend' : offset.toNat ≥ v.size.toNat ∨ requested.toNat = 0 :=
      hend.imp UInt64.le_iff_toNat_le.mp fun h0 => by rw [h0]; rfl
    rw [if_pos hend, if_pos hend']
  · have hend' : ¬ (offset.toNat ≥ v.size.toNat ∨ requested.toNat = 0) := fun hc =>
      hend (hc.imp UInt64.le_iff_toNat_le.mpr fun h0 => UInt64.toNat_inj.mp h0)
    rw [not_or, not_le] at hend'
    have htotal : (min requested (v.size - offset)).toNat = min requested.toNat (v.size.toNat - offset.toNat) := by
      rw [toNat_min64, UInt64.toNat_sub_of_le _ _ (UInt64.le_iff_toNat_le.mpr hend'.1.le)]
    have hzero : (0 : UInt64).toNat = 0 := rfl
    rw [if_neg hend, if_neg (by rw [not_or, not_le]; exact hend'), readLoop_eq_readBytes (by omega), htotal, hzero,
      Nat.add_zero, Nat.sub_zero]
    cases r.readBytes v offset.toNat _ <;> rfl

end ImageReader

/-! ## Content -/

theorem read_all {n : ℕ} (b : Bytes n) : b.read 0 n = b.toList := by
  refine List.ext_getElem (by simp [Bytes.read]) fun i h _ => ?_
  have hi : i < n := by simpa using h
  simp [Bytes.read, Bytes.byte, hi]

namespace InodeRecord

/-- The bytes of the blocks of an inode, one block after the other. -/
def blockData (v : InodeRecord) (d : Image) : List UInt8 := (v.blocks d).flatMap fun b => (d b).toList

theorem blockData_eq (v : InodeRecord) (d : Image) :
    v.blockData d = (List.range (v.requiredBlocks * kBlockSize)).map (v.byteAt d) := by
  rw [blockData, blocks, List.flatMap_map]
  generalize v.requiredBlocks = m
  induction m with
  | zero => simp
  | succ m ih =>
    rw [List.range_succ, List.flatMap_append, ih, Nat.succ_mul, ImageReader.map_range_add]
    rw [List.flatMap_singleton, ← read_all]
    refine congrArg _ (List.map_congr_left fun j hj => ?_)
    have hj : j < 4096 := List.mem_range.mp hj
    have hq : (m * kBlockSize + j) / kBlockSize = m := by
      show (m * 4096 + j) / 4096 = m
      omega
    have hr : (m * kBlockSize + j) % kBlockSize = j := by
      show (m * 4096 + j) % 4096 = j
      omega
    rw [byteAt, hq, hr, Nat.zero_add]

/-- The content of a file is what its blocks hold, cut to its size. -/
theorem content_eq_take (v : InodeRecord) (d : Image) : v.content d = (v.blockData d).take v.size.toNat := by
  have hle : v.size.toNat ≤ v.requiredBlocks * kBlockSize := by
    show v.size.toNat ≤ (v.size.toNat + 4096 - 1) / 4096 * 4096
    omega
  rw [blockData_eq, ← List.map_take, List.take_range, Nat.min_eq_left hle, content]

end InodeRecord

/-! ## Slices -/

theorem extract_min_eq {α : Type} (l : List α) (a k : ℕ) :
    l.extract a (min (a + k) l.length) = (l.drop a).take k := by
  rw [List.extract_eq_take_drop, List.take_eq_take_iff, List.length_drop]
  omega

namespace ImageReader

variable {r : ImageReader} {n : ℕ} {v : InodeRecord}

theorem readFile64_eq_take (hv : r.readInode n = .ok v) (hreg : S_ISREG v.mode) (offset requested : UInt64) :
    r.readFile64 n offset requested = .ok (((v.content r.image).drop offset.toNat).take requested.toNat) := by
  rw [readFile64_eq_readFile hv, readFile_of_readable (readInode_eq_ok.mp hv) hreg]

theorem take_append_take {α : Type} (l : List α) (a x y : ℕ) :
    (l.drop a).take x ++ (l.drop (a + x)).take y = (l.drop a).take (x + y) := by
  rw [List.take_add, List.drop_drop]

theorem consecutiveReads_eq (hv : r.readInode n = .ok v) (hreg : S_ISREG v.mode) : ∀ (lens : List UInt64)
    (offset : UInt64), offset.toNat + (lens.map UInt64.toNat).sum < 2 ^ 64 →
      r.consecutiveReads n offset lens = r.readFile64 n offset (UInt64.ofNat (lens.map UInt64.toNat).sum)
  | [], offset, _ => by
    rw [readFile64_eq_take hv hreg]
    rfl
  | requested :: rest, offset, h => by
    rw [List.map_cons, List.sum_cons] at h ⊢
    have hsum : (UInt64.ofNat (rest.map UInt64.toNat).sum).toNat = (rest.map UInt64.toNat).sum :=
      UInt64.toNat_ofNat_of_lt' (by simp only [UInt64.size]; omega)
    have hall : (UInt64.ofNat (requested.toNat + (rest.map UInt64.toNat).sum)).toNat =
        requested.toNat + (rest.map UInt64.toNat).sum := UInt64.toNat_ofNat_of_lt' (by simp only [UInt64.size]; omega)
    have hnext : (offset + requested).toNat = offset.toNat + requested.toNat := by
      rw [UInt64.toNat_add, Nat.mod_eq_of_lt]
      omega
    have ih := consecutiveReads_eq hv hreg rest (offset + requested) (by omega)
    rw [consecutiveReads, ih, readFile64_eq_take hv hreg, readFile64_eq_take hv hreg, readFile64_eq_take hv hreg, hnext,
      hsum, hall, ← take_append_take]
    rfl

/-- A read of a regular file gives the bytes of its blocks, cut to its size, from the offset on and as many as there
are; the integers of the source do not overflow; consecutive reads give what one read gives. -/
theorem reads_are_slices {r : ImageReader} {n : ℕ} {v : InodeRecord} (hv : r.readInode n = .ok v)
    (hreg : S_ISREG v.mode) :
    v.content r.image = (v.blockData r.image).take v.size.toNat ∧ (v.content r.image).length = v.size.toNat ∧
    (∀ offset requested : UInt64,
      r.readFile64 n offset requested =
        .ok ((v.content r.image).extract offset.toNat (min (offset.toNat + requested.toNat) v.size.toNat)) ∧
      (v.size ≤ offset → r.readFile64 n offset requested = .ok []) ∧
      r.readFile64 n offset requested = r.readFile n offset.toNat requested.toNat) ∧
    ∀ (offset : UInt64) (lens : List UInt64), offset.toNat + (lens.map UInt64.toNat).sum < 2 ^ 64 →
      r.consecutiveReads n offset lens = r.readFile64 n offset (UInt64.ofNat (lens.map UInt64.toNat).sum) := by
  have hlen : (v.content r.image).length = v.size.toNat := by
    rw [InodeRecord.content, List.length_map, List.length_range]
  refine ⟨v.content_eq_take r.image, hlen, fun offset requested => ⟨?_, fun hend => ?_,
    readFile64_eq_readFile hv offset requested⟩,
    fun offset lens hsum => consecutiveReads_eq hv hreg lens offset hsum⟩
  · rw [readFile64_eq_take hv hreg, ← hlen, extract_min_eq]
  · rw [readFile64_eq_take hv hreg, List.drop_eq_nil_of_le (hlen.trans_le (UInt64.le_iff_toNat_le.mp hend)),
      List.take_nil]

/-- Thirteen bytes at the end of the ledger's file, read in two parts. -/
theorem reads_are_slices_ledger :
    ledgerReader.readInode 2 = .ok (formattedLedger ledgerSuperblock ledgerGeometry sampleHost) ∧
    ledgerReader.consecutiveReads 2 4090 [3, 10] = ledgerReader.readFile64 2 4090 13 :=
  ⟨ledgerFile_readable, (reads_are_slices ledgerFile_readable Formatted.ledger_isReg).2.2.2 4090 [3, 10]
    (by decide)⟩

end ImageReader

end Eufs
