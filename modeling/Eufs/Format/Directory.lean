import Eufs.Format.Inode

/-!
# Eufs.Format.Directory — directory blocks

A directory block is a chain of records; each says how long it is, and the chain fills the block.  A record with
inode 0 is free space.  `tryInsertDirectoryEntry` puts a new entry into the first record with room for it, by taking
over a free record or by splitting the slack off a used one.

Decoding a record looks at the bytes of that record only, so a block is the list of its records (`blockRecords`), and
an insertion changes that list in one place.
-/

namespace Eufs

variable {b : Block} {off : ℕ} {e : DirectoryEntry} {stuck : String}

inductive DirectoryFileType where
  | kUnknown | kRegular | kDirectory
  deriving DecidableEq

def DirectoryFileType.toByte : DirectoryFileType → UInt8
  | .kUnknown => 0
  | .kRegular => 1
  | .kDirectory => 2

/-- The type a byte stands for; other bytes stand for none. -/
def DirectoryFileType.ofByte (x : UInt8) : Option DirectoryFileType :=
  if x = 0 then some .kUnknown else if x = 1 then some .kRegular else if x = 2 then some .kDirectory else none

theorem DirectoryFileType.ofByte_toByte (t : DirectoryFileType) : ofByte t.toByte = some t := by
  cases t <;> rfl

/-- Names are byte strings. -/
abbrev Name := List UInt8

structure DirectoryEntry where
  inode : UInt32
  fileType : DirectoryFileType
  name : Name
  recordLength : UInt16
  deriving DecidableEq

def isKnownDirectoryFileType (t : DirectoryFileType) : Prop := t = .kRegular ∨ t = .kDirectory

instance (t : DirectoryFileType) : Decidable (isKnownDirectoryFileType t) := by
  unfold isKnownDirectoryFileType; infer_instance

/-- Not empty, not `.` or `..`, not too long, without `/` and NUL. -/
def isValidName (name : Name) : Prop :=
  name ≠ [] ∧ name ≠ [46] ∧ name ≠ [46, 46] ∧ name.length ≤ kMaxNameLength ∧ (47 : UInt8) ∉ name ∧
    (0 : UInt8) ∉ name

instance (name : Name) : Decidable (isValidName name) := by unfold isValidName; infer_instance

/-- Header and name, rounded up to a multiple of four. -/
def minimumDirectoryRecordLength (nameLength : ℕ) : ℕ := (kDirectoryEntryHeaderSize + nameLength + 3) / 4 * 4

/-! ## One record -/

/-- The bytes of a record: inode, length, length of the name, type, name, zeros. -/
def recordBytes (v : DirectoryEntry) (recordLength : UInt16) : List UInt8 :=
  le 4 v.inode.toNat ++ le 2 recordLength.toNat ++ [UInt8.ofNat v.name.length, v.fileType.toByte] ++ v.name ++
    List.replicate (recordLength.toNat - kDirectoryEntryHeaderSize - v.name.length) 0

/-- Encode a record into the bytes of `b` from `off` on; the output is the rest of the buffer. -/
def encodeDirectoryEntry {n : ℕ} (v : DirectoryEntry) (recordLength : UInt16) (b : Bytes n) (off : ℕ) :
    Except String (Bytes n) := do
  reject (v.inode = 0 ∨ ¬ isKnownDirectoryFileType v.fileType ∨ ¬ isValidName v.name)
    "directory entry fields are invalid"
  reject (recordLength.toNat < minimumDirectoryRecordLength v.name.length ∨ recordLength.toNat > n - off ∨
      recordLength.toNat > kBlockSize ∨ recordLength.toNat % 4 ≠ 0)
    "directory record length is invalid"
  return b.write off (recordBytes v recordLength)

/-- Decode the record at `off`; the input is the rest of the buffer. -/
def decodeDirectoryEntry {n : ℕ} (b : Bytes n) (off : ℕ) : Except String DirectoryEntry := do
  let inputSize := n - off
  reject (inputSize < kDirectoryEntryHeaderSize) "directory entry input is too small"
  let recordLength := b.getLe16 (off + 4)
  let nameLength := (b.byte (off + 6)).toNat
  let fileType := DirectoryFileType.ofByte (b.byte (off + 7))
  reject (recordLength.toNat < kDirectoryEntryHeaderSize ∨ recordLength.toNat > inputSize ∨
      recordLength.toNat > kBlockSize ∨ recordLength.toNat % 4 ≠ 0 ∨
      nameLength > recordLength.toNat - kDirectoryEntryHeaderSize)
    "directory record boundaries are invalid"
  let inode := b.getLe32 off
  if inode = 0 then
    reject (nameLength ≠ 0 ∨ fileType ≠ some .kUnknown) "free directory record contains active fields"
    reject (¬ b.zeroRange (off + kDirectoryEntryHeaderSize) (recordLength.toNat - kDirectoryEntryHeaderSize))
      "free directory record contains non-zero payload"
    return ⟨0, .kUnknown, [], recordLength⟩
  else
    let name := b.read (off + 8) nameLength
    match fileType with
    | none => throw "active directory record contains invalid fields"
    | some t => do
      reject (¬ isKnownDirectoryFileType t ∨ ¬ isValidName name) "active directory record contains invalid fields"
      let nameEnd := kDirectoryEntryHeaderSize + nameLength
      reject (¬ b.zeroRange (off + nameEnd) (recordLength.toNat - nameEnd)) "directory record padding is not zero"
      return ⟨inode, t, name, recordLength⟩

/-- What every decoded record satisfies. -/
structure DirectoryEntry.Valid (e : DirectoryEntry) (off : ℕ) : Prop where
  length : 8 ≤ e.recordLength.toNat
  fits : off + e.recordLength.toNat ≤ 4096
  aligned : e.recordLength.toNat % 4 = 0
  name : e.name.length + 8 ≤ e.recordLength.toNat
  active : e.inode ≠ 0 → isKnownDirectoryFileType e.fileType ∧ isValidName e.name
  free : e.inode = 0 → e.fileType = .kUnknown ∧ e.name = []

theorem decodeDirectoryEntry_valid (h : decodeDirectoryEntry b off = .ok e) : e.Valid off := by
  simp only [decodeDirectoryEntry, reject_bind_eq_ok, not_or, not_lt, not_not, ne_eq] at h
  obtain ⟨h1, ⟨h2, h3, h4, h5, h6⟩, h⟩ := h
  have hb : kBlockSize = 4096 := rfl
  have hh : kDirectoryEntryHeaderSize = 8 := rfl
  split_ifs at h with h0
  · simp only [reject_bind_eq_ok] at h
    obtain ⟨-, -, h⟩ := h
    cases h
    refine ⟨h2, ?_, h5, by simpa using h2, fun hc => absurd rfl hc, fun _ => ⟨rfl, rfl⟩⟩
    simp only
    omega
  · split at h
    · cases h
    · simp only [reject_bind_eq_ok, not_or, not_not] at h
      obtain ⟨h7, -, h⟩ := h
      cases h
      refine ⟨h2, ?_, h5, ?_, fun _ => h7, fun hc => absurd hc h0⟩
      · simp only
        omega
      · simp only [Bytes.length_read]
        omega

/-! ## The records of a block -/

/-- Walk the chain from `off` on: the records that decode, and why the walk ended before the end of the block.
`stuck` is the text for a record of length 0. -/
def blockRecords (stuck : String) (b : Block) (off : ℕ) : List (ℕ × DirectoryEntry) × Option String :=
  if _h : off < kBlockSize then
    match decodeDirectoryEntry b off with
    | .error detail => ([], some detail)
    | .ok entry =>
      if _hz : entry.recordLength.toNat = 0 then ([], some stuck)
      else
        let (rest, failure) := blockRecords stuck b (off + entry.recordLength.toNat)
        ((off, entry) :: rest, failure)
  else ([], none)
termination_by kBlockSize - off

theorem blockRecords_of_ge (h : kBlockSize ≤ off) : blockRecords stuck b off = ([], none) := by
  rw [blockRecords, dif_neg (not_lt.mpr h)]

theorem blockRecords_of_error {detail : String} (h : off < kBlockSize)
    (hd : decodeDirectoryEntry b off = .error detail) : blockRecords stuck b off = ([], some detail) := by
  rw [blockRecords, dif_pos h, hd]

theorem blockRecords_of_ok (h : off < kBlockSize) (hd : decodeDirectoryEntry b off = .ok e) :
    blockRecords stuck b off =
      ((off, e) :: (blockRecords stuck b (off + e.recordLength.toNat)).1,
        (blockRecords stuck b (off + e.recordLength.toNat)).2) := by
  have hz : ¬ e.recordLength.toNat = 0 := by
    have := (decodeDirectoryEntry_valid hd).length
    omega
  rw [blockRecords, dif_pos h, hd]
  simp only [hz, dite_false]

/-- No record has length 0, so the text for one does not matter. -/
theorem blockRecords_text (stuck stuck' : String) (b : Block) (off : ℕ) :
    blockRecords stuck b off = blockRecords stuck' b off := by
  by_cases h : off < kBlockSize
  · cases hd : decodeDirectoryEntry b off with
    | error detail => rw [blockRecords_of_error h hd, blockRecords_of_error h hd]
    | ok e =>
      have := (decodeDirectoryEntry_valid hd).length
      rw [blockRecords_of_ok h hd, blockRecords_of_ok h hd, blockRecords_text stuck stuck']
  · rw [blockRecords_of_ge (not_lt.mp h), blockRecords_of_ge (not_lt.mp h)]
termination_by kBlockSize - off

theorem decode_of_mem_blockRecords {stuck : String} {b : Block} {off : ℕ} {x : ℕ × DirectoryEntry}
    (hx : x ∈ (blockRecords stuck b off).1) : decodeDirectoryEntry b x.1 = .ok x.2 := by
  by_cases h : off < kBlockSize
  · cases hd : decodeDirectoryEntry b off with
    | error detail =>
      rw [blockRecords_of_error h hd] at hx
      exact absurd hx List.not_mem_nil
    | ok e =>
      have := (decodeDirectoryEntry_valid hd).length
      rw [blockRecords_of_ok h hd] at hx
      rcases List.mem_cons.mp hx with rfl | hx
      · exact hd
      · exact decode_of_mem_blockRecords hx
  · rw [blockRecords_of_ge (not_lt.mp h)] at hx
    exact absurd hx List.not_mem_nil
termination_by kBlockSize - off

/-- The records that name an inode. -/
def activeRecords (es : List DirectoryEntry) : List DirectoryEntry := es.filter fun e => e.inode ≠ 0

theorem activeRecords_cons_of_free {es : List DirectoryEntry} (h : e.inode = 0) :
    activeRecords (e :: es) = activeRecords es := by
  simp [activeRecords, h]

theorem activeRecords_cons_of_ne {es : List DirectoryEntry} (h : e.inode ≠ 0) :
    activeRecords (e :: es) = e :: activeRecords es := by
  simp [activeRecords, h]

/-- The active records of a block. -/
def activeEntries (b : Block) : List DirectoryEntry := activeRecords ((blockRecords "" b 0).1.map Prod.snd)

theorem valid_of_mem_activeEntries (h : e ∈ activeEntries b) :
    e.inode ≠ 0 ∧ isKnownDirectoryFileType e.fileType ∧ isValidName e.name := by
  obtain ⟨hm, h0⟩ := List.mem_filter.mp h
  obtain ⟨x, hx, rfl⟩ := List.mem_map.mp hm
  have h0 : x.2.inode ≠ 0 := by simpa using h0
  exact ⟨h0, (decodeDirectoryEntry_valid (decode_of_mem_blockRecords hx)).active h0⟩

/-- The chain of records ends with the block. -/
def recordsDecode (b : Block) : Prop := (blockRecords "" b 0).2 = none

end Eufs
