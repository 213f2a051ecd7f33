import Mathlib.Tactic
import Mathlib.Data.List.Basic

/-!
# Eufs.Base.Bytes — fixed-size byte buffers and little-endian integers

A `Bytes n` is `n` bytes.  `b.byte i` is the total byte read, `b.write off l` overwrites `l.length` bytes from
`off` (clipped at the end of the buffer) and `b.read off len` reads `len` bytes.  The lemmas say how a read sees
the writes before it: the same range gives back what was written, a disjoint range is untouched.  `le w v` are
the `w` low bytes of `v`, least significant first, and `ofLe` reads them back.

Nothing here knows what the buffers mean; every on-disk codec below is a sequence of such writes and reads.
-/

namespace Eufs

variable {i off len m o : ℕ} {l : List UInt8}

/-- A buffer of `n` bytes. -/
abbrev Bytes (n : ℕ) := Vector UInt8 n

namespace Bytes

variable {n : ℕ}

/-- The all-zero buffer. -/
def zero (n : ℕ) : Bytes n := Vector.replicate n 0

/-- Byte `i`, zero past the end. -/
def byte (b : Bytes n) (i : ℕ) : UInt8 := b[i]?.getD 0

/-- Overwrite the bytes from `off` on with `l`; what would pass the end is dropped. -/
def write (b : Bytes n) (off : ℕ) (l : List UInt8) : Bytes n :=
  Vector.ofFn fun i : Fin n => if off ≤ i.val ∧ i.val < off + l.length then l.getD (i.val - off) 0 else b[i]

/-- `len` bytes from `off` on. -/
def read (b : Bytes n) (off len : ℕ) : List UInt8 := (List.range len).map fun k => b.byte (off + k)

/-- The bytes of the range `[off, off + len)` are all zero. -/
def zeroRange (b : Bytes n) (off len : ℕ) : Bool := (b.read off len).all (· == 0)

theorem byte_eq {b : Bytes n} (h : i < n) : b.byte i = b[i] := by
  simp [byte, h]

theorem byte_ge {b : Bytes n} (h : n ≤ i) : b.byte i = 0 := by
  simp [byte, h]

@[simp] theorem byte_zero (i : ℕ) : (zero n).byte i = 0 := by
  by_cases h : i < n
  · simp [byte_eq h, zero]
  · exact byte_ge (by omega)

theorem ext_byte {a b : Bytes n} (h : ∀ i < n, a.byte i = b.byte i) : a = b := by
  refine Vector.ext fun i hi => ?_
  have := h i hi
  rwa [byte_eq hi, byte_eq hi] at this

theorem byte_write (b : Bytes n) (off : ℕ) (l : List UInt8) (i : ℕ) :
    (b.write off l).byte i =
      if off ≤ i ∧ i < off + l.length ∧ i < n then l.getD (i - off) 0 else b.byte i := by
  by_cases hi : i < n
  · rw [byte_eq hi, byte_eq hi]
    simp [write, hi]
  · have h1 : ¬ (off ≤ i ∧ i < off + l.length ∧ i < n) := fun h => hi h.2.2
    rw [if_neg h1, byte_ge (by omega), byte_ge (by omega)]

theorem byte_write_of_lt {b : Bytes n} (h : i < off) : (b.write off l).byte i = b.byte i := by
  rw [byte_write, if_neg (by omega)]

theorem byte_write_of_ge {b : Bytes n} (h : off + l.length ≤ i) : (b.write off l).byte i = b.byte i := by
  rw [byte_write, if_neg (by omega)]

theorem byte_write_in {b : Bytes n} (h1 : off ≤ i) (h2 : i < off + l.length) (h3 : i < n) :
    (b.write off l).byte i = l.getD (i - off) 0 := by
  rw [byte_write, if_pos ⟨h1, h2, h3⟩]

@[simp] theorem length_read (b : Bytes n) (off len : ℕ) : (b.read off len).length = len := by
  simp [read]

theorem getD_read (b : Bytes n) (off : ℕ) {k : ℕ} (h : k < len) :
    (b.read off len).getD k 0 = b.byte (off + k) := by
  simp [read, h]

theorem read_congr {a b : Bytes n} (h : ∀ k < len, a.byte (off + k) = b.byte (off + k)) :
    a.read off len = b.read off len := by
  unfold read
  exact List.map_congr_left fun k hk => h k (List.mem_range.mp hk)

theorem read_add (b : Bytes n) (off k l : ℕ) : b.read off (k + l) = b.read off k ++ b.read (off + k) l := by
  simp only [read, List.range_add, List.map_append, List.map_map, Function.comp_def, Nat.add_assoc]

/-- A read of exactly the written range gives back what was written. -/
theorem read_write_self {b : Bytes n} (hlen : l.length = len) (h : off + len ≤ n) :
    (b.write off l).read off len = l := by
  subst hlen
  refine List.ext_getElem (by simp) fun k h1 h2 => ?_
  have h3 : (b.write off l).byte (off + k) = l.getD (off + k - off) 0 :=
    byte_write_in (by omega) (by omega) (by omega)
  simp only [read, List.getElem_map, List.getElem_range, h3]
  simp [h2]

/-- A read before or after the written range does not see the write. -/
theorem read_write_of_disjoint {b : Bytes n} {off' : ℕ} (h : off' + len ≤ off ∨ off + l.length ≤ off') :
    (b.write off l).read off' len = b.read off' len := by
  refine read_congr fun k hk => ?_
  rcases h with h | h
  · exact byte_write_of_lt (by omega)
  · exact byte_write_of_ge (by omega)

theorem read_write_within {b : Bytes n} (h : i + len ≤ l.length) (hn : off + l.length ≤ n) :
    (b.write off l).read (off + i) len = (l.drop i).take len := by
  refine List.ext_getElem (by simp; omega) fun k hk _ => ?_
  have hk' : k < len := by simpa using hk
  simp only [read, List.getElem_map, List.getElem_range, List.getElem_take, List.getElem_drop]
  rw [byte_write_in (by omega) (by omega) (by omega), show off + i + k - off = i + k by omega,
    List.getD_eq_getElem?_getD, List.getElem?_eq_getElem (by omega), Option.getD_some]

theorem write_write_self {b : Bytes n} {l' : List UInt8} (h : l.length = l'.length) :
    (b.write off l).write off l' = b.write off l' := by
  refine ext_byte fun i _ => ?_
  simp only [byte_write, h]
  split_ifs <;> rfl

theorem write_read (b : Bytes n) (off len : ℕ) : b.write off (b.read off len) = b := by
  refine ext_byte fun i hi => ?_
  rw [byte_write]
  split_ifs with h
  · simp only [length_read] at h
    rw [getD_read b off (by omega)]
    congr 1; omega
  · rfl

theorem zeroRange_iff {b : Bytes n} : b.zeroRange off len = true ↔ ∀ k < len, b.byte (off + k) = 0 := by
  simp [zeroRange, read]

end Bytes

/-! ### Little-endian integers -/

/-- The `w` low bytes of `v`, least significant first. -/
def le : ℕ → ℕ → List UInt8
  | 0, _ => []
  | w + 1, v => UInt8.ofNat v :: le w (v / 256)

/-- The number whose bytes are `l`, least significant first. -/
def ofLe : List UInt8 → ℕ
  | [] => 0
  | x :: l => x.toNat + 256 * ofLe l

@[simp] theorem length_le (w v : ℕ) : (le w v).length = w := by
  induction w generalizing v with
  | zero => rfl
  | succ w ih => simp [le, ih]

theorem ofLe_le (w v : ℕ) : ofLe (le w v) = v % 256 ^ w := by
  induction w generalizing v with
  | zero => simp [le, ofLe, Nat.mod_one]
  | succ w ih =>
    have hmod : v % (256 * 256 ^ w) = v % 256 + 256 * (v / 256 % 256 ^ w) := Nat.mod_mul
    have hbyte : (UInt8.ofNat v).toNat = v % 256 := by simp
    rw [le, ofLe, ih, hbyte, Nat.pow_succ', hmod]

theorem ofLe_lt (l : List UInt8) : ofLe l < 256 ^ l.length := by
  induction l with
  | nil => simp [ofLe]
  | cons x l ih =>
    have hx : x.toNat < 256 := x.toNat_lt
    simp only [ofLe, List.length_cons, Nat.pow_succ']
    omega

theorem le_ofLe (l : List UInt8) : le l.length (ofLe l) = l := by
  induction l with
  | nil => rfl
  | cons x l ih =>
    have hx : x.toNat < 256 := x.toNat_lt
    have hd : (x.toNat + 256 * ofLe l) / 256 = ofLe l := by omega
    have hm : UInt8.ofNat (x.toNat + 256 * ofLe l) = x := by
      apply UInt8.toNat_inj.mp
      simp only [UInt8.toNat_ofNat']
      omega
    simp only [List.length_cons, ofLe, le, hd, hm, ih]

namespace Bytes

variable {n : ℕ}

section

variable (b : Bytes n) (off : ℕ)

/-- Store a 32-bit integer at `off`, little-endian. -/
def putLe32 (v : UInt32) : Bytes n := b.write off (le 4 v.toNat)

/-- Store a single byte at `off`. -/
def put8 (v : UInt8) : Bytes n := b.write off [v]

/-- Store a whole buffer at `off`. -/
def putBytes (v : Bytes m) : Bytes n := b.write off v.toList

/-- The 16-bit integer at `off`. -/
def getLe16 : UInt16 := UInt16.ofNat (ofLe (b.read off 2))

/-- The 32-bit integer at `off`. -/
def getLe32 : UInt32 := UInt32.ofNat (ofLe (b.read off 4))

/-- The 64-bit integer at `off`. -/
def getLe64 : UInt64 := UInt64.ofNat (ofLe (b.read off 8))

end

/-- The `m` bytes at `off` as a buffer. -/
def getBytes (b : Bytes n) (off m : ℕ) : Bytes m := Vector.ofFn fun i => b.byte (off + i.val)

theorem ofLe_le_of_lt {w v : ℕ} (h : v < 256 ^ w) : ofLe (le w v) = v := by
  rw [ofLe_le, Nat.mod_eq_of_lt h]

theorem getLe32_putLe32 {b : Bytes n} {v : UInt32} (h : off + 4 ≤ n) : (b.putLe32 off v).getLe32 off = v := by
  unfold getLe32 putLe32
  rw [read_write_self (length_le 4 _) h, ofLe_le_of_lt (by simpa using v.toNat_lt), UInt32.ofNat_toNat]

theorem byte_put8 {b : Bytes n} {v : UInt8} (h : off < n) : (b.put8 off v).byte off = v := by
  unfold put8
  rw [byte_write_in (by omega) (by simp) h]
  simp

theorem byte_getBytes {b : Bytes n} (h : i < m) : (b.getBytes off m).byte i = b.byte (off + i) := by
  rw [byte_eq h]
  simp [getBytes]

theorem getBytes_eq_of_read {a : Bytes n} {v : Bytes m} (h : a.read off m = v.toList) : a.getBytes off m = v := by
  refine ext_byte fun i hi => ?_
  rw [byte_getBytes hi, ← getD_read a off hi, h, byte_eq hi]
  simp [hi]

theorem getBytes_putBytes {b : Bytes n} {v : Bytes m} (h : off + m ≤ n) :
    (b.putBytes off v).getBytes off m = v := by
  unfold putBytes
  exact getBytes_eq_of_read (read_write_self (by simp) h)

theorem getBytes_congr {a b : Bytes n} (h : a.read off m = b.read off m) :
    a.getBytes off m = b.getBytes off m := by
  refine ext_byte fun i hi => ?_
  rw [byte_getBytes hi, byte_getBytes hi, ← getD_read a off hi, h, getD_read b off hi]

theorem write_zeros {b : Bytes n} {k : ℕ} (h : b.zeroRange off k = true) :
    b.write off (List.replicate k 0) = b := by
  rw [zeroRange_iff] at h
  refine ext_byte fun i _ => ?_
  rw [byte_write]
  split_ifs with hc
  · simp only [List.length_replicate] at hc
    have hi := h (i - off) (by omega)
    rw [show off + (i - off) = i by omega] at hi
    rw [hi, List.getD_eq_getElem?_getD, List.getElem?_replicate]
    split_ifs <;> rfl
  · rfl

/-! ### Records

A record is built from its fields, each an offset with the bytes that go there.  When no two fields overlap, which
is a check on numbers only, every field can be read back and what no field covers is zero. -/

/-- An offset and the bytes that go there. -/
structure Field where
  off : ℕ
  bytes : List UInt8

/-- A 16-bit field. -/
def Field.le16 (off : ℕ) (v : UInt16) : Field := ⟨off, le 2 v.toNat⟩

/-- A 32-bit field. -/
def Field.le32 (off : ℕ) (v : UInt32) : Field := ⟨off, le 4 v.toNat⟩

/-- A 64-bit field. -/
def Field.le64 (off : ℕ) (v : UInt64) : Field := ⟨off, le 8 v.toNat⟩

/-- A field of given bytes. -/
def Field.raw (off : ℕ) (l : List UInt8) : Field := ⟨off, l⟩

/-- Write the fields one after the other. -/
def fill (b : Bytes n) (fs : List Field) : Bytes n := fs.foldl (fun b f => b.write f.off f.bytes) b

/-- Where a field starts and how long it is. -/
def Field.shape (f : Field) : ℕ × ℕ := (f.off, f.bytes.length)

/-- The shapes lie inside `n` bytes and do not overlap. -/
def Fits (n : ℕ) (shapes : List (ℕ × ℕ)) : Prop :=
  (∀ s ∈ shapes, s.1 + s.2 ≤ n) ∧ shapes.Pairwise fun s s' => s.1 + s.2 ≤ s'.1 ∨ s'.1 + s'.2 ≤ s.1

instance (n : ℕ) (shapes : List (ℕ × ℕ)) : Decidable (Fits n shapes) := by unfold Fits; infer_instance

@[simp] theorem shape_le16 (off : ℕ) (v : UInt16) : Field.shape (.le16 off v) = (off, 2) := by
  simp [Field.shape, Field.le16]

@[simp] theorem shape_le32 (off : ℕ) (v : UInt32) : Field.shape (.le32 off v) = (off, 4) := by
  simp [Field.shape, Field.le32]

@[simp] theorem shape_le64 (off : ℕ) (v : UInt64) : Field.shape (.le64 off v) = (off, 8) := by
  simp [Field.shape, Field.le64]

@[simp] theorem shape_raw (off : ℕ) (l : List UInt8) : Field.shape (.raw off l) = (off, l.length) := rfl

@[simp] theorem fill_nil (b : Bytes n) : b.fill [] = b := rfl

theorem fill_append (b : Bytes n) (fs gs : List Field) : b.fill (fs ++ gs) = (b.fill fs).fill gs := by
  simp [fill, List.foldl_append]

theorem read_fill_of_disjoint {off len : ℕ} : ∀ (fs : List Field) (b : Bytes n),
    (∀ f ∈ fs, f.off + f.bytes.length ≤ off ∨ off + len ≤ f.off) → (b.fill fs).read off len = b.read off len
  | [], _, _ => rfl
  | f :: fs, b, h => by
    have hf := h f List.mem_cons_self
    show ((b.write f.off f.bytes).fill fs).read off len = _
    rw [read_fill_of_disjoint fs _ fun g hg => h g (List.mem_cons_of_mem _ hg),
      read_write_of_disjoint (by omega)]

theorem read_fill : ∀ (fs : List Field) (b : Bytes n), Fits n (fs.map Field.shape) →
    ∀ f ∈ fs, (b.fill fs).read f.off f.bytes.length = f.bytes
  | [], _, _, _, h => by simp at h
  | g :: fs, b, hd, f, hf => by
    obtain ⟨h1, h2⟩ := hd
    simp only [List.map_cons, List.mem_cons, forall_eq_or_imp, List.pairwise_cons, List.mem_map,
      forall_exists_index, and_imp, forall_apply_eq_imp_iff₂] at h1 h2
    show ((b.write g.off g.bytes).fill fs).read f.off f.bytes.length = f.bytes
    rcases List.mem_cons.mp hf with rfl | hf
    · have hfs : ∀ f' ∈ fs, f'.off + f'.bytes.length ≤ f.off ∨ f.off + f.bytes.length ≤ f'.off :=
        fun f' hf' => (h2.1 f' hf').symm
      rw [read_fill_of_disjoint fs _ hfs]
      exact read_write_self rfl h1.1
    · refine read_fill fs _ ⟨?_, h2.2⟩ f hf
      rintro s hs
      obtain ⟨f', hf', rfl⟩ := List.mem_map.mp hs
      exact h1.2 f' hf'

section Fields

variable {b : Bytes n} {fs : List Field} (hd : Fits n (fs.map Field.shape))

include hd

theorem getLe16_fill {v : UInt16} (h : .le16 off v ∈ fs) : (b.fill fs).getLe16 off = v := by
  have hr := read_fill fs b hd _ h
  simp only [Field.le16, length_le] at hr
  rw [getLe16, hr, ofLe_le_of_lt (by simpa using v.toNat_lt), UInt16.ofNat_toNat]

theorem getLe32_fill {v : UInt32} (h : .le32 off v ∈ fs) : (b.fill fs).getLe32 off = v := by
  have hr := read_fill fs b hd _ h
  simp only [Field.le32, length_le] at hr
  rw [getLe32, hr, ofLe_le_of_lt (by simpa using v.toNat_lt), UInt32.ofNat_toNat]

theorem getLe64_fill {v : UInt64} (h : .le64 off v ∈ fs) : (b.fill fs).getLe64 off = v := by
  have hr := read_fill fs b hd _ h
  simp only [Field.le64, length_le] at hr
  rw [getLe64, hr, ofLe_le_of_lt (by simpa using v.toNat_lt), UInt64.ofNat_toNat]

theorem getBytes_fill {v : Bytes m} (h : .raw off v.toList ∈ fs) : (b.fill fs).getBytes off m = v := by
  have hr := read_fill fs b hd _ h
  refine getBytes_eq_of_read ?_
  simpa [Field.raw] using hr

end Fields

theorem zeroRange_fill {fs : List Field}
    (h : ∀ s ∈ fs.map Field.shape, s.1 + s.2 ≤ off ∨ off + len ≤ s.1) :
    ((zero n).fill fs).zeroRange off len = true := by
  unfold zeroRange
  rw [read_fill_of_disjoint fs _ fun f hf => h _ (List.mem_map_of_mem hf)]
  exact zeroRange_iff.mpr fun _ _ => byte_zero _

/-- A zero buffer with the fields `fs` and the checksum `c` at `off`. -/
structure Sealed (b : Bytes n) (fs : List Field) (off : ℕ) (c : UInt32) : Prop where
  eq : b = ((zero n).fill fs).putLe32 off c
  fits : Fits n ((fs ++ [Field.le32 off c]).map Field.shape)

namespace Sealed

variable {b : Bytes n} {fs : List Field} {off : ℕ} {c : UInt32} (h : b.Sealed fs off c)

include h

theorem eq_fill : b = (zero n).fill (fs ++ [Field.le32 off c]) := by
  rw [fill_append]
  exact h.eq

theorem getLe16 {x : UInt16} (hm : .le16 o x ∈ fs) : b.getLe16 o = x := by
  rw [h.eq_fill]
  exact getLe16_fill h.fits (List.mem_append_left _ hm)

theorem getLe32 {x : UInt32} (hm : .le32 o x ∈ fs) : b.getLe32 o = x := by
  rw [h.eq_fill]
  exact getLe32_fill h.fits (List.mem_append_left _ hm)

theorem getLe64 {x : UInt64} (hm : .le64 o x ∈ fs) : b.getLe64 o = x := by
  rw [h.eq_fill]
  exact getLe64_fill h.fits (List.mem_append_left _ hm)

theorem getBytes {x : Bytes m} (hm : .raw o x.toList ∈ fs) : b.getBytes o m = x := by
  rw [h.eq_fill]
  exact getBytes_fill h.fits (List.mem_append_left _ hm)

theorem read (hm : .raw o l ∈ fs) (hl : l.length = len) : b.read o len = l := by
  subst hl
  rw [h.eq_fill]
  exact read_fill _ _ h.fits (.raw o l) (List.mem_append_left _ hm)

theorem zeroRange (hz : ∀ s ∈ (fs ++ [Field.le32 off c]).map Field.shape, s.1 + s.2 ≤ o ∨ o + len ≤ s.1) :
    b.zeroRange o len = true := by
  rw [h.eq_fill]
  exact zeroRange_fill hz

theorem stored : b.getLe32 off = c := by
  rw [h.eq_fill]
  exact getLe32_fill h.fits (by simp)

/-- With the checksum field cleared only the fields are left. -/
theorem cleared : b.putLe32 off 0 = ((zero n).fill fs).putLe32 off 0 := by
  rw [h.eq]
  exact write_write_self (by simp)

/-- Clearing the checksum field where no field lies changes nothing. -/
theorem cleared_fields : ((zero n).fill fs).putLe32 off 0 = (zero n).fill fs := by
  have hp := (List.map_append ▸ h.fits.2 : List.Pairwise _ _)
  rw [List.pairwise_append] at hp
  show ((zero n).fill fs).write off (List.replicate 4 0) = (zero n).fill fs
  refine write_zeros (zeroRange_fill fun s hs => ?_)
  simpa using hp.2.2 s hs (off, 4) (by simp)

end Sealed

end Bytes

end Eufs
