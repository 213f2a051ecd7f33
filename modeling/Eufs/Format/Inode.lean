import Eufs.Format.Ondisk

/-!
# Eufs.Format.Inode — inode records

A record of the inode table is 128 bytes: the attributes, twelve direct block numbers, the number of the indirect
block and a checksum over the whole record.  `inodeBytes` is the encoding without its checks; a decoded record is
valid (`InodeRecord.Valid`) and every valid record decodes to itself.
-/

namespace Eufs

structure InodeRecord where
  inodeNumber : UInt32
  mode : UInt32
  uid : UInt32
  gid : UInt32
  linkCount : UInt32
  size : UInt64
  atimeNs : UInt64
  mtimeNs : UInt64
  ctimeNs : UInt64
  flags : UInt32
  generation : UInt64
  directBlocks : Vector UInt32 12
  indirectBlock : UInt32
  deriving DecidableEq

/-- The bytes of one record. -/
abbrev InodeBytes := Bytes kInodeRecordSize

/-! ## File types -/

abbrev S_IFMT : UInt32 := 0xF000
abbrev S_IFREG : UInt32 := 0x8000
abbrev S_IFDIR : UInt32 := 0x4000

def S_ISREG (mode : UInt32) : Prop := mode &&& S_IFMT = S_IFREG

def S_ISDIR (mode : UInt32) : Prop := mode &&& S_IFMT = S_IFDIR

instance (mode : UInt32) : Decidable (S_ISREG mode) := by unfold S_ISREG; infer_instance

instance (mode : UInt32) : Decidable (S_ISDIR mode) := by unfold S_ISDIR; infer_instance

def isKnownMode (mode : UInt32) : Prop := S_ISREG mode ∨ S_ISDIR mode

instance (mode : UInt32) : Decidable (isKnownMode mode) := by unfold isKnownMode; infer_instance

theorem not_isDir_of_isReg {mode : UInt32} (h : S_ISREG mode) : ¬ S_ISDIR mode := by
  unfold S_ISREG at h
  unfold S_ISDIR
  rw [h]
  decide

theorem isReg_or_permissions (p : UInt32) : S_ISREG (S_IFREG ||| (p &&& 0o777)) := by
  unfold S_ISREG
  apply UInt32.toBitVec_inj.mp
  ext i hi
  simp only [UInt32.toBitVec_and, UInt32.toBitVec_or, BitVec.getElem_and, BitVec.getElem_or]
  have h : ∀ i (hi : i < 32), ((0o777 : UInt32).toBitVec[i] && S_IFMT.toBitVec[i]) = false ∧
      (S_IFREG.toBitVec[i] && S_IFMT.toBitVec[i]) = S_IFREG.toBitVec[i] := by decide
  obtain ⟨h1, h2⟩ := h i hi
  rw [Bool.and_or_distrib_right, Bool.and_assoc, h1, h2]
  simp

/-! ## The record's bytes -/

def kInodeChecksumOffset : ℕ := 124

/-- What both directions check. -/
structure InodeRecord.Valid (v : InodeRecord) : Prop where
  number : v.inodeNumber ≠ 0
  mode : isKnownMode v.mode
  size : v.size.toNat ≤ kMaxFileSize

/-- The twelve direct blocks. -/
def directFields (v : InodeRecord) : List Bytes.Field :=
  [ .le32 64 v.directBlocks[0], .le32 68 v.directBlocks[1], .le32 72 v.directBlocks[2], .le32 76 v.directBlocks[3],
    .le32 80 v.directBlocks[4], .le32 84 v.directBlocks[5], .le32 88 v.directBlocks[6], .le32 92 v.directBlocks[7],
    .le32 96 v.directBlocks[8], .le32 100 v.directBlocks[9], .le32 104 v.directBlocks[10],
    .le32 108 v.directBlocks[11] ]

/-- The encoded fields, without the checksum. -/
def inodeFields (v : InodeRecord) : List Bytes.Field :=
  [ .le32 0 v.mode, .le32 4 v.uid, .le32 8 v.gid, .le32 12 v.linkCount, .le64 16 v.size, .le64 24 v.atimeNs,
    .le64 32 v.mtimeNs, .le64 40 v.ctimeNs, .le32 48 v.flags, .le32 52 v.inodeNumber, .le64 56 v.generation ] ++
  directFields v ++ [ Bytes.Field.le32 112 v.indirectBlock ]

/-- The checksum of a record, taken with the checksum field zero. -/
def inodeChecksum (b : InodeBytes) : UInt32 := crc32c (b.putLe32 kInodeChecksumOffset 0).toList

/-- The encoded record. -/
def inodeBytes (v : InodeRecord) : InodeBytes :=
  let b := (Bytes.zero kInodeRecordSize).fill (inodeFields v)
  b.putLe32 kInodeChecksumOffset (crc32c b.toList)

def encodeInode (v : InodeRecord) : Except String InodeBytes := do
  reject (v.inodeNumber = 0 ∨ ¬ isKnownMode v.mode) "inode mode has an unsupported file type"
  reject (v.size.toNat > kMaxFileSize) "inode size exceeds the v1 direct/indirect limit"
  return inodeBytes v

/-- The fields as they stand in the record. -/
def readInodeRecord (b : InodeBytes) : InodeRecord where
  inodeNumber := b.getLe32 52
  mode := b.getLe32 0
  uid := b.getLe32 4
  gid := b.getLe32 8
  linkCount := b.getLe32 12
  size := b.getLe64 16
  atimeNs := b.getLe64 24
  mtimeNs := b.getLe64 32
  ctimeNs := b.getLe64 40
  flags := b.getLe32 48
  generation := b.getLe64 56
  directBlocks := Vector.ofFn fun i => b.getLe32 (64 + i.val * 4)
  indirectBlock := b.getLe32 112

def decodeInode (b : InodeBytes) (expectedInodeNumber : ℕ) : Except String InodeRecord := do
  reject (inodeChecksum b ≠ b.getLe32 kInodeChecksumOffset) "inode checksum mismatch"
  reject (¬ b.zeroRange 116 8) "inode reserved bytes are not zero"
  let value := readInodeRecord b
  reject (expectedInodeNumber = 0 ∨ value.inodeNumber.toNat ≠ expectedInodeNumber)
    "inode number does not match its table slot"
  reject (¬ isKnownMode value.mode) "inode mode has an unsupported file type"
  reject (value.size.toNat > kMaxFileSize) "inode size exceeds the v1 direct/indirect limit"
  return value

theorem encodeInode_eq_ok {v : InodeRecord} {b : InodeBytes} :
    encodeInode v = .ok b ↔ v.Valid ∧ b = inodeBytes v := by
  simp only [encodeInode, reject_bind_eq_ok, not_or, not_not, not_lt]
  constructor
  · rintro ⟨⟨h1, h2⟩, h3, h⟩
    exact ⟨⟨h1, h2, h3⟩, (Except.ok.inj h).symm⟩
  · rintro ⟨h, rfl⟩
    exact ⟨⟨h.number, h.mode⟩, h.size, rfl⟩

theorem decodeInode_valid {b : InodeBytes} {n : ℕ} {v : InodeRecord} (h : decodeInode b n = .ok v) :
    v.Valid ∧ v.inodeNumber.toNat = n := by
  simp only [decodeInode, reject_bind_eq_ok, not_or, not_not, not_lt, ne_eq] at h
  obtain ⟨-, -, ⟨h1, h2⟩, h3, h4, h⟩ := h
  cases h
  refine ⟨⟨fun h0 => h1 ?_, h3, h4⟩, h2⟩
  rw [← h2, h0]
  rfl

theorem inodeBytes_sealed (v : InodeRecord) :
    (inodeBytes v).Sealed (inodeFields v) kInodeChecksumOffset (inodeChecksum (inodeBytes v)) := by
  have hfit : ∀ c, Bytes.Fits kInodeRecordSize
      ((inodeFields v ++ [Bytes.Field.le32 kInodeChecksumOffset c]).map Bytes.Field.shape) := fun c => by
    simp only [inodeFields, directFields, List.map_cons, List.map_append, List.map_nil, Bytes.shape_le32,
      Bytes.shape_le64]
    decide
  have hs : (inodeBytes v).Sealed (inodeFields v) kInodeChecksumOffset
      (crc32c ((Bytes.zero kInodeRecordSize).fill (inodeFields v)).toList) := ⟨rfl, hfit _⟩
  have hsum : inodeChecksum (inodeBytes v) =
      crc32c ((Bytes.zero kInodeRecordSize).fill (inodeFields v)).toList := by
    rw [inodeChecksum, hs.cleared, hs.cleared_fields]
  rw [hsum]
  exact hs

theorem readInodeRecord_inodeBytes (v : InodeRecord) : readInodeRecord (inodeBytes v) = v := by
  have hs := inodeBytes_sealed v
  generalize inodeBytes v = b at hs
  have h32 : ∀ o x, .le32 o x ∈ inodeFields v → b.getLe32 o = x := fun _ _ => hs.getLe32
  have h64 : ∀ o x, .le64 o x ∈ inodeFields v → b.getLe64 o = x := fun _ _ => hs.getLe64
  simp only [inodeFields, directFields, List.cons_append, List.nil_append, List.mem_cons] at h32 h64
  have hdirect : (Vector.ofFn fun i : Fin 12 => b.getLe32 (64 + i.val * 4)) = v.directBlocks := by
    refine Vector.ext fun i hi => ?_
    rw [Vector.getElem_ofFn]
    interval_cases i <;> exact h32 _ _ (by simp)
  simp only [readInodeRecord, hdirect, h32 52 v.inodeNumber (by simp), h32 0 v.mode (by simp), h32 4 v.uid (by simp),
    h32 8 v.gid (by simp), h32 12 v.linkCount (by simp), h64 16 v.size (by simp), h64 24 v.atimeNs (by simp),
    h64 32 v.mtimeNs (by simp), h64 40 v.ctimeNs (by simp), h32 48 v.flags (by simp), h64 56 v.generation (by simp),
    h32 112 v.indirectBlock (by simp)]

theorem decodeInode_inodeBytes {v : InodeRecord} (hv : v.Valid) :
    decodeInode (inodeBytes v) v.inodeNumber.toNat = .ok v := by
  have hs := inodeBytes_sealed v
  have hread := readInodeRecord_inodeBytes v
  generalize inodeBytes v = b at hs hread
  have hzero : b.zeroRange 116 8 := by
    refine hs.zeroRange ?_
    simp only [inodeFields, directFields, List.map_cons, List.map_append, List.map_nil, Bytes.shape_le32,
      Bytes.shape_le64]
    decide
  have hnum : v.inodeNumber.toNat ≠ 0 := fun h => hv.number (UInt32.toNat_inj.mp h)
  simp only [decodeInode, hread, hs.stored, hzero, ne_eq, not_true_eq_false, reject_false, ok_bind, hnum, or_false,
    hv.mode, not_lt.mpr hv.size]
  rfl

end Eufs
