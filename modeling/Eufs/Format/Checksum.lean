import Eufs.Base.Crc
import Eufs.Base.Codec
import Eufs.Format.Ondisk

/-!
# Eufs.Format.Checksum — what CRC32C detects

`crc32c` is the code of the library with the Castagnoli polynomial, started from all ones and inverted at the end.  A
buffer that stores its own checksum, taken with the field zero, no longer matches it after a burst of 32 bits outside
the field or after any change of the field itself.
-/

namespace Eufs

open Function

/-- The Castagnoli polynomial, reflected. -/
def kCastagnoli : BitVec 32 := 0x82F63B78#32

theorem toBitVec_shift (c : UInt32) :
    ((c >>> 1) ^^^ (0x82F63B78 &&& (0 - (c &&& 1)))).toBitVec = Crc.shift kCastagnoli c.toBitVec := by
  have hlow : c.toBitVec &&& 1#32 = (BitVec.ofBool (c.toBitVec.getLsbD 0)).setWidth 32 :=
    BitVec.and_one_eq_setWidth_ofBool_getLsbD
  have hmask : kCastagnoli &&& (0#32 - (c.toBitVec &&& 1#32)) =
      if c.toBitVec.getLsbD 0 then kCastagnoli else 0#32 := by
    rw [hlow]
    cases c.toBitVec.getLsbD 0 <;> rfl
  calc ((c >>> 1) ^^^ (0x82F63B78 &&& (0 - (c &&& 1)))).toBitVec
      = (c.toBitVec >>> 1) ^^^ (kCastagnoli &&& (0#32 - (c.toBitVec &&& 1#32))) := rfl
    _ = _ := by rw [hmask]; rfl

theorem toBitVec_iterate (k : ℕ) (c : UInt32) :
    ((fun c : UInt32 => (c >>> 1) ^^^ (0x82F63B78 &&& (0 - (c &&& 1))))^[k] c).toBitVec =
      (Crc.shift kCastagnoli)^[k] c.toBitVec := by
  induction k generalizing c with
  | zero => rfl
  | succ k ih =>
    rw [iterate_succ_apply, iterate_succ_apply, ih, toBitVec_shift]

theorem word_byteBits (x : UInt8) : Crc.word 32 (Crc.byteBits x) = x.toUInt32.toBitVec := by
  refine BitVec.eq_of_getLsbD_eq fun i hi => ?_
  rw [Crc.getLsbD_word hi]
  rcases Nat.lt_or_ge i 8 with h | h
  · rw [Crc.getD_byteBits h, UInt8.toBitVec_toUInt32, BitVec.getLsbD_setWidth]
    simp [hi, BitVec.getLsbD]
  · rw [List.getD_eq_default _ _ (by simpa using h), UInt8.toBitVec_toUInt32, BitVec.getLsbD_setWidth,
      BitVec.getLsbD_of_ge _ _ h, Bool.and_false]

/-- One byte of the program is eight bits of the library's register. -/
theorem toBitVec_crc32cStep (c : UInt32) (x : UInt8) :
    (crc32cStep c x).toBitVec = Crc.run kCastagnoli c.toBitVec (Crc.byteBits x) := by
  rw [crc32cStep, toBitVec_iterate, UInt32.toBitVec_xor, Crc.run_eq (by simp), word_byteBits, Crc.length_byteBits]

theorem toBitVec_foldl (l : List UInt8) (c : UInt32) :
    (l.foldl crc32cStep c).toBitVec = Crc.run kCastagnoli c.toBitVec (Crc.bits l) := by
  induction l generalizing c with
  | nil => rfl
  | cons x l ih =>
    rw [List.foldl_cons, ih, toBitVec_crc32cStep, ← Crc.run_append]
    rfl

theorem crc32c_ne_of_burst {l l' : List UInt8} (hlen : l.length = l'.length) (hne : l ≠ l')
    (hburst : Crc.DifferWithin 32 l l') : crc32c l ≠ crc32c l' := by
  intro h
  have hreg : l.foldl crc32cStep 0xFFFFFFFF = l'.foldl crc32cStep 0xFFFFFFFF := UInt32.not_inj.mp h
  have hrun : Crc.run kCastagnoli (0xFFFFFFFF : UInt32).toBitVec (Crc.bits l) =
      Crc.run kCastagnoli (0xFFFFFFFF : UInt32).toBitVec (Crc.bits l') := by
    rw [← toBitVec_foldl, hreg, toBitVec_foldl]
  exact Crc.run_bits_ne (by decide) hlen hne hburst hrun

/-! ## Buffers that store their checksum -/

section Stored

variable {n : ℕ} {b b' : Bytes n} {off : ℕ}

/-- The buffer stores its own checksum at `off`. -/
def StoresChecksum (b : Bytes n) (off : ℕ) : Prop := b.getLe32 off = crc32c (b.putLe32 off 0).toList

/-- `b'` is `b` after a burst of at most 32 bits outside the field at `off`. -/
structure BurstOutside (b b' : Bytes n) (off : ℕ) : Prop where
  ne : b ≠ b'
  burst : Crc.DifferWithin 32 b.toList b'.toList
  field : ∀ i, off ≤ i → i < off + 4 → b.byte i = b'.byte i

/-- `b'` is `b` with another value in the field at `off`. -/
structure FieldChanged (b b' : Bytes n) (off : ℕ) : Prop where
  ne : b ≠ b'
  rest : ∀ i, i < off ∨ off + 4 ≤ i → b.byte i = b'.byte i

/-- A short burst that spares the checksum, or damage to the checksum alone. -/
def Corrupted (b b' : Bytes n) (off : ℕ) : Prop := BurstOutside b b' off ∨ FieldChanged b b' off

theorem getD_toList (b : Bytes n) (i : ℕ) : b.toList.getD i 0 = b.byte i := by
  simp [Bytes.byte]

theorem byte_cleared (b : Bytes n) (off i : ℕ) :
    (b.putLe32 off 0).byte i = if off ≤ i ∧ i < off + 4 then 0 else b.byte i := by
  have hzero : ∀ k, (le 4 (0 : UInt32).toNat).getD k 0 = 0 := fun k => by
    rcases Nat.lt_or_ge k 4 with hk | hk
    · interval_cases k <;> rfl
    · exact List.getD_eq_default _ _ (by simpa using hk)
  rw [Bytes.putLe32, Bytes.byte_write, length_le, hzero]
  split_ifs with h1 h2 h2
  · rfl
  · omega
  · exact Bytes.byte_ge (by omega)
  · rfl

theorem getLe32_congr (h : ∀ i, off ≤ i → i < off + 4 → b.byte i = b'.byte i) :
    b.getLe32 off = b'.getLe32 off := by
  unfold Bytes.getLe32
  rw [Bytes.read_congr fun k hk => h (off + k) (by omega) (by omega)]

/-- Outside the field the sum changes and the stored value does not. -/
theorem BurstOutside.not_stores (h : BurstOutside b b' off) (hb : StoresChecksum b off) : ¬ StoresChecksum b' off := by
  have hcleared : b.putLe32 off 0 ≠ b'.putLe32 off 0 := fun hc => h.ne <| Bytes.ext_byte fun i _ => by
    by_cases hi : off ≤ i ∧ i < off + 4
    · exact h.field i hi.1 hi.2
    · have hbyte := congrArg (Bytes.byte · i) hc
      simpa only [byte_cleared, if_neg hi] using hbyte
  have hburst : Crc.DifferWithin 32 (b.putLe32 off 0).toList (b'.putLe32 off 0).toList := by
    obtain ⟨k, hk⟩ := h.burst
    refine ⟨k, fun i hi => ?_⟩
    have hbit := hk i hi
    simp only [Crc.bitAt, getD_toList, byte_cleared] at hbit ⊢
    split_ifs
    · rfl
    · exact hbit
  have hsum := crc32c_ne_of_burst (by simp) (fun hc => hcleared (Vector.toList_inj.mp hc)) hburst
  intro hb'
  refine hsum ?_
  rw [← hb, ← hb', getLe32_congr h.field]

/-- Inside the field the stored value changes and the sum does not. -/
theorem FieldChanged.not_stores (h : FieldChanged b b' off) (hb : StoresChecksum b off) : ¬ StoresChecksum b' off := by
  have hcleared : b.putLe32 off 0 = b'.putLe32 off 0 := Bytes.ext_byte fun i _ => by
    rw [byte_cleared, byte_cleared]
    split_ifs with hi
    · rfl
    · exact h.rest i (by omega)
  intro hb'
  have hstored : b.getLe32 off = b'.getLe32 off := by
    rw [hb, hb', hcleared]
  refine h.ne ?_
  have hread : b.read off 4 = b'.read off 4 := by
    rw [← Bytes.le_getLe32, hstored, Bytes.le_getLe32]
  rw [← Bytes.write_read b off 4, hread]
  refine Bytes.ext_byte fun i hi => ?_
  rw [Bytes.byte_write, Bytes.length_read]
  split_ifs with hin
  · rw [Bytes.getD_read _ _ (by omega), show off + (i - off) = i by omega]
  · exact h.rest i (by omega)

theorem Corrupted.not_stores (h : Corrupted b b' off) (hb : StoresChecksum b off) : ¬ StoresChecksum b' off :=
  h.elim (fun h => h.not_stores hb) fun h => h.not_stores hb

theorem burstOutside_write {i : ℕ} {x : UInt8} (hi : i < n) (hx : b.byte i ≠ x) (hout : i < off ∨ off + 4 ≤ i) :
    BurstOutside b (b.write i [x]) off := by
  have hother : ∀ j, j ≠ i → (b.write i [x]).byte j = b.byte j := fun j hj => by
    rw [Bytes.byte_write, if_neg (by simp only [List.length_singleton]; omega)]
  refine ⟨fun h => hx ?_, ⟨8 * i, fun j hj => ?_⟩, fun j h1 h2 => (hother j (by omega)).symm⟩
  · rw [h]
    exact Bytes.byte_put8 hi
  · rw [Crc.bitAt, Crc.bitAt, getD_toList, getD_toList, hother _ (by omega)]

end Stored

end Eufs
