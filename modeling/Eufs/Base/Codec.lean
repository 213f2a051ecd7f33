import Eufs.Base.Bytes

/-!
# Eufs.Base.Codec — buffers that are determined by their fields

The counterpart of `Bytes.fill`: a buffer that holds the fields `fs` and is zero wherever no field lies is the zero
buffer filled with `fs`.  A decoder that checks the constant fields and the reserved bytes therefore accepts only
what its encoder writes.

`Canonical` is what such a pair of functions satisfies when the value carries the checksum of its encoding.
-/

namespace Eufs

/-! ## Codecs with a checksum -/

/-- Encoder and decoder undo each other.  A decoded value is stamped with the checksum of the buffer, which the
encoder does not look at. -/
structure Canonical {α β γ ε : Type} (encode : α → Except ε β) (decode : β → Except ε α) (sum : β → γ)
    (stamp : α → γ → α) : Prop where
  encode_stamp : ∀ v c, encode (stamp v c) = encode v
  decode_encode : ∀ v b, encode v = .ok b → decode b = .ok (stamp v (sum b))
  encode_decode : ∀ b v, decode b = .ok v → encode v = .ok b ∧ v = stamp v (sum b)

namespace Canonical

variable {α β γ ε : Type} {encode : α → Except ε β} {decode : β → Except ε α} {sum : β → γ}
  {stamp : α → γ → α} (h : Canonical encode decode sum stamp)

include h

theorem accepted_iff (v : α) : (∃ b, encode v = .ok b) ↔ ∃ b c, decode b = .ok (stamp v c) := by
  constructor
  · rintro ⟨b, hb⟩
    exact ⟨b, sum b, h.decode_encode v b hb⟩
  · rintro ⟨b, c, hb⟩
    have := (h.encode_decode b _ hb).1
    exact ⟨b, h.encode_stamp v c ▸ this⟩

end Canonical

namespace Bytes

variable {n : ℕ} {b : Bytes n} {fs gs : List Field} {off : ℕ} {c : UInt32}

/-! ## Integers and the bytes they stand for -/

theorem le_getLe16 (b : Bytes n) (o : ℕ) : le 2 (b.getLe16 o).toNat = b.read o 2 := by
  have hlt := ofLe_lt (b.read o 2)
  have hle := le_ofLe (b.read o 2)
  rw [length_read] at hlt hle
  rw [getLe16, UInt16.toNat_ofNat', Nat.mod_eq_of_lt (by simpa using hlt), hle]

theorem le_getLe32 (b : Bytes n) (o : ℕ) : le 4 (b.getLe32 o).toNat = b.read o 4 := by
  have hlt := ofLe_lt (b.read o 4)
  have hle := le_ofLe (b.read o 4)
  rw [length_read] at hlt hle
  rw [getLe32, UInt32.toNat_ofNat', Nat.mod_eq_of_lt (by simpa using hlt), hle]

theorem le_getLe64 (b : Bytes n) (o : ℕ) : le 8 (b.getLe64 o).toNat = b.read o 8 := by
  have hlt := ofLe_lt (b.read o 8)
  have hle := le_ofLe (b.read o 8)
  rw [length_read] at hlt hle
  rw [getLe64, UInt64.toNat_ofNat', Nat.mod_eq_of_lt (by simpa using hlt), hle]

theorem toList_getBytes (b : Bytes n) (o m : ℕ) : (b.getBytes o m).toList = b.read o m := by
  refine List.ext_getElem (by simp) fun k hk _ => ?_
  have hk' : k < m := by simpa using hk
  simp [getBytes, read]

/-! ## Holding fields -/

/-- The fields stand in the buffer. -/
def Holds (b : Bytes n) (fs : List Field) : Prop := ∀ f ∈ fs, b.read f.off f.bytes.length = f.bytes

@[simp] theorem holds_nil : b.Holds [] := fun _ h => absurd h List.not_mem_nil

theorem holds_append : b.Holds (fs ++ gs) ↔ b.Holds fs ∧ b.Holds gs := List.forall_mem_append

@[simp] theorem holds_cons_le16 {o : ℕ} {x : UInt16} : b.Holds (.le16 o x :: fs) ↔
    b.getLe16 o = x ∧ b.Holds fs := by
  refine List.forall_mem_cons.trans (and_congr_left fun _ => ?_)
  simp only [Field.le16, length_le, ← le_getLe16]
  constructor
  · intro h
    have := congrArg ofLe h
    rw [ofLe_le_of_lt (by simpa using UInt16.toNat_lt _), ofLe_le_of_lt (by simpa using UInt16.toNat_lt _)] at this
    exact UInt16.toNat_inj.mp this
  · rintro rfl
    rfl

@[simp] theorem holds_cons_le32 {o : ℕ} {x : UInt32} : b.Holds (.le32 o x :: fs) ↔
    b.getLe32 o = x ∧ b.Holds fs := by
  refine List.forall_mem_cons.trans (and_congr_left fun _ => ?_)
  simp only [Field.le32, length_le, ← le_getLe32]
  constructor
  · intro h
    have := congrArg ofLe h
    rw [ofLe_le_of_lt (by simpa using UInt32.toNat_lt _), ofLe_le_of_lt (by simpa using UInt32.toNat_lt _)] at this
    exact UInt32.toNat_inj.mp this
  · rintro rfl
    rfl

@[simp] theorem holds_cons_le64 {o : ℕ} {x : UInt64} : b.Holds (.le64 o x :: fs) ↔
    b.getLe64 o = x ∧ b.Holds fs := by
  refine List.forall_mem_cons.trans (and_congr_left fun _ => ?_)
  simp only [Field.le64, length_le, ← le_getLe64]
  constructor
  · intro h
    have := congrArg ofLe h
    rw [ofLe_le_of_lt (by simpa using UInt64.toNat_lt _), ofLe_le_of_lt (by simpa using UInt64.toNat_lt _)] at this
    exact UInt64.toNat_inj.mp this
  · rintro rfl
    rfl

@[simp] theorem holds_cons_raw {o : ℕ} {l : List UInt8} :
    b.Holds (.raw o l :: fs) ↔ b.read o l.length = l ∧ b.Holds fs := List.forall_mem_cons

theorem Holds.byte (h : b.Holds fs) {f : Field} (hf : f ∈ fs) {i : ℕ} (h1 : f.off ≤ i)
    (h2 : i < f.off + f.bytes.length) : b.byte i = f.bytes.getD (i - f.off) 0 := by
  have hk : i - f.off < f.bytes.length := by omega
  rw [← h f hf, getD_read b f.off (by simpa using hk), Nat.add_sub_cancel' h1]

theorem Holds.eq_fill (h : b.Holds fs) (hfit : Fits n (fs.map Field.shape))
    (hrest : ∀ i < n, (∀ s ∈ fs.map Field.shape, i < s.1 ∨ s.1 + s.2 ≤ i) → b.byte i = 0) :
    b = (zero n).fill fs := by
  have hfill : ((zero n).fill fs).Holds fs := read_fill fs _ hfit
  refine ext_byte fun i hi => ?_
  by_cases hc : ∃ f ∈ fs, f.off ≤ i ∧ i < f.off + f.bytes.length
  · obtain ⟨f, hf, h1, h2⟩ := hc
    rw [h.byte hf h1 h2, hfill.byte hf h1 h2]
  · have hout : ∀ s ∈ fs.map Field.shape, i < s.1 ∨ s.1 + s.2 ≤ i := by
      intro s hs
      obtain ⟨f, hf, rfl⟩ := List.mem_map.mp hs
      have : ¬ (f.off ≤ i ∧ i < f.off + f.bytes.length) := fun hin => hc ⟨f, hf, hin⟩
      simp only [Field.shape]
      omega
    have hzero : ((zero n).fill fs).zeroRange i 1 = true := zeroRange_fill fun s hs => by
      have := hout s hs
      omega
    rw [hrest i hi hout]
    exact (zeroRange_iff.mp hzero 0 Nat.one_pos).symm

theorem Holds.sealed (h : b.Holds fs) (hc : b.getLe32 off = c)
    (hfit : Fits n ((fs ++ [Field.le32 off c]).map Field.shape))
    (hrest : ∀ i < n, (∀ s ∈ (fs ++ [Field.le32 off c]).map Field.shape, i < s.1 ∨ s.1 + s.2 ≤ i) →
      b.byte i = 0) :
    b.Sealed fs off c := by
  have hall : b.Holds (fs ++ [Field.le32 off c]) := holds_append.mpr ⟨h, by simpa using hc⟩
  refine ⟨?_, hfit⟩
  have heq := hall.eq_fill hfit hrest
  rwa [fill_append] at heq

theorem byte_of_zeroRange {o len i : ℕ} (h : b.zeroRange o len = true) (h1 : o ≤ i) (h2 : i < o + len) :
    b.byte i = 0 := by
  have := zeroRange_iff.mp h (i - o) (by omega)
  rwa [Nat.add_sub_cancel' h1] at this

end Bytes

end Eufs
