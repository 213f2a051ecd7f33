import Eufs.Format.Directory

/-!
# Eufs.Format.Insert — putting an entry into a directory block

`tryInsertDirectoryEntry` puts a new entry into the first record with room for it: it takes over a free record or
splits the slack off a used one.  Decoding a record looks at the bytes of that record only, so the other records of
the block stay as they are, and the insertion changes the list of active records in one place.
-/

namespace Eufs

variable {len : UInt16} {b : Block} {off : ℕ} {e v : DirectoryEntry}

/-! ## Decoding is local -/

theorem reject_bind_congr {ε α : Type} {c : Prop} [Decidable c] {e : ε} {f g : Unit → Except ε α}
    (h : ¬ c → f () = g ()) : (reject c e >>= f) = (reject c e >>= g) := by
  by_cases hc : c
  · simp [reject, hc, bind, Except.bind]
  · simpa [reject, hc, bind, Except.bind] using h hc

namespace Bytes

variable {n : ℕ} {a b : Bytes n} {off lo hi : ℕ}

/-- The same bytes from `lo` to `hi`. -/
def AgreeOn (a b : Bytes n) (lo hi : ℕ) : Prop := ∀ i, lo ≤ i → i < hi → a.byte i = b.byte i

theorem AgreeOn.read (h : a.AgreeOn b lo hi) {len : ℕ} (h1 : lo ≤ off) (h2 : off + len ≤ hi) :
    a.read off len = b.read off len := read_congr fun k hk => h _ (by omega) (by omega)

theorem AgreeOn.zeroRange (h : a.AgreeOn b lo hi) {len : ℕ} (h1 : lo ≤ off) (h2 : off + len ≤ hi) :
    a.zeroRange off len = b.zeroRange off len := by
  rw [Bytes.zeroRange, Bytes.zeroRange, h.read h1 h2]

theorem AgreeOn.mono (h : a.AgreeOn b lo hi) {lo' hi' : ℕ} (h1 : lo ≤ lo') (h2 : hi' ≤ hi) :
    a.AgreeOn b lo' hi' :=
  fun i hi1 hi2 => h i (by omega) (by omega)

theorem AgreeOn.of_end (h : a.AgreeOn b lo n) : a.AgreeOn b lo hi := by
  intro i h1 _
  by_cases hi : i < n
  · exact h i h1 hi
  · rw [byte_ge (not_lt.mp hi), byte_ge (not_lt.mp hi)]

theorem agreeOn_write {l : List UInt8} (h : hi ≤ off ∨ off + l.length ≤ lo) :
    (b.write off l).AgreeOn b lo hi := by
  intro i h1 h2
  rcases h with h | h
  · exact byte_write_of_lt (by omega)
  · exact byte_write_of_ge (by omega)

theorem AgreeOn.trans {c : Bytes n} (h : a.AgreeOn b lo hi) (h' : b.AgreeOn c lo hi) : a.AgreeOn c lo hi :=
  fun i h1 h2 => (h i h1 h2).trans (h' i h1 h2)

end Bytes

/-- A record is decoded from the bytes of its header and those up to its length. -/
theorem decodeDirectoryEntry_congr {a : Block} (h : a.AgreeOn b off (off + max 8 (b.getLe16 (off + 4)).toNat)) :
    decodeDirectoryEntry a off = decodeDirectoryEntry b off := by
  have hh : kDirectoryEntryHeaderSize = 8 := rfl
  have h16 : a.getLe16 (off + 4) = b.getLe16 (off + 4) := by
    rw [Bytes.getLe16, h.read (by omega) (by omega), ← Bytes.getLe16]
  have h32 : a.getLe32 off = b.getLe32 off := by
    rw [Bytes.getLe32, h.read (by omega) (by omega), ← Bytes.getLe32]
  have h6 := h (off + 6) (by omega) (by omega)
  have h7 := h (off + 7) (by omega) (by omega)
  simp only [decodeDirectoryEntry, h16, h32, h6, h7]
  refine reject_bind_congr fun _ => reject_bind_congr fun hlen => ?_
  rw [not_or, not_or, not_or, not_or] at hlen
  have hread : a.read (off + 8) (b.byte (off + 6)).toNat = b.read (off + 8) (b.byte (off + 6)).toNat :=
    h.read (by omega) (by omega)
  have hz1 : a.zeroRange (off + kDirectoryEntryHeaderSize) ((b.getLe16 (off + 4)).toNat - kDirectoryEntryHeaderSize) =
      b.zeroRange (off + kDirectoryEntryHeaderSize) ((b.getLe16 (off + 4)).toNat - kDirectoryEntryHeaderSize) :=
    h.zeroRange (by omega) (by omega)
  have hz2 : a.zeroRange (off + (kDirectoryEntryHeaderSize + (b.byte (off + 6)).toNat))
        ((b.getLe16 (off + 4)).toNat - (kDirectoryEntryHeaderSize + (b.byte (off + 6)).toNat)) =
      b.zeroRange (off + (kDirectoryEntryHeaderSize + (b.byte (off + 6)).toNat))
        ((b.getLe16 (off + 4)).toNat - (kDirectoryEntryHeaderSize + (b.byte (off + 6)).toNat)) :=
    h.zeroRange (by omega) (by omega)
  rw [hread, hz1, hz2]

theorem recordLength_of_decode (h : decodeDirectoryEntry b off = .ok e) :
    e.recordLength = b.getLe16 (off + 4) := by
  simp only [decodeDirectoryEntry, reject_bind_eq_ok] at h
  obtain ⟨-, -, h⟩ := h
  split_ifs at h with h0
  · simp only [reject_bind_eq_ok] at h
    obtain ⟨-, -, h⟩ := h
    cases h
    rfl
  · split at h
    · cases h
    · simp only [reject_bind_eq_ok] at h
      obtain ⟨-, -, h⟩ := h
      cases h
      rfl

theorem decode_of_agree {a : Block} (hd : decodeDirectoryEntry b off = .ok e)
    (h : a.AgreeOn b off (off + e.recordLength.toNat)) : decodeDirectoryEntry a off = .ok e := by
  have hlen := (decodeDirectoryEntry_valid hd).length
  rw [← hd]
  refine decodeDirectoryEntry_congr ?_
  rw [← recordLength_of_decode hd, max_eq_right hlen]
  exact h

/-- The rest of the chain depends on the rest of the block. -/
theorem blockRecords_congr {stuck : String} {a b : Block} {off : ℕ} (h : a.AgreeOn b off kBlockSize) :
    blockRecords stuck a off = blockRecords stuck b off := by
  by_cases hoff : off < kBlockSize
  · have hdec : decodeDirectoryEntry a off = decodeDirectoryEntry b off := decodeDirectoryEntry_congr h.of_end
    cases hd : decodeDirectoryEntry b off with
    | error detail => rw [blockRecords_of_error hoff hd, blockRecords_of_error hoff (hdec.trans hd)]
    | ok e =>
      have := (decodeDirectoryEntry_valid hd).length
      have ih : blockRecords stuck a (off + e.recordLength.toNat) = blockRecords stuck b (off + e.recordLength.toNat) :=
        blockRecords_congr (h.mono (by omega) le_rfl)
      rw [blockRecords_of_ok hoff hd, blockRecords_of_ok hoff (hdec.trans hd), ih]
  · rw [blockRecords_of_ge (not_lt.mp hoff), blockRecords_of_ge (not_lt.mp hoff)]
termination_by kBlockSize - off

/-! ## Writing a record -/

/-- What the encoder accepts in a buffer of `n` bytes. -/
structure DirectoryEntry.FitsIn (v : DirectoryEntry) (recordLength : UInt16) (n off : ℕ) : Prop where
  inode : v.inode ≠ 0
  type : isKnownDirectoryFileType v.fileType
  name : isValidName v.name
  minimum : minimumDirectoryRecordLength v.name.length ≤ recordLength.toNat
  space : recordLength.toNat ≤ n - off
  limit : recordLength.toNat ≤ kBlockSize
  aligned : recordLength.toNat % 4 = 0

theorem encodeDirectoryEntry_eq_ok {n : ℕ} {b b' : Bytes n} :
    encodeDirectoryEntry v len b off = .ok b' ↔ v.FitsIn len n off ∧ b' = b.write off (recordBytes v len) := by
  simp only [encodeDirectoryEntry, reject_bind_eq_ok, not_or, not_not, not_lt, ne_eq]
  constructor
  · rintro ⟨⟨h1, h2, h3⟩, ⟨h4, h5, h6, h7⟩, h⟩
    exact ⟨⟨h1, h2, h3, h4, h5, h6, h7⟩, (Except.ok.inj h).symm⟩
  · rintro ⟨h, rfl⟩
    exact ⟨⟨h.inode, h.type, h.name⟩, ⟨h.minimum, h.space, h.limit, h.aligned⟩, rfl⟩

theorem length_recordBytes (h : 8 + v.name.length ≤ len.toNat) : (recordBytes v len).length = len.toNat := by
  have hh : kDirectoryEntryHeaderSize = 8 := rfl
  simp only [recordBytes, List.length_append, length_le, List.length_cons, List.length_nil, List.length_replicate]
  omega

theorem drop_recordBytes (v : DirectoryEntry) (len : UInt16) : (recordBytes v len).drop 8 =
    v.name ++ List.replicate (len.toNat - kDirectoryEntryHeaderSize - v.name.length) 0 := by
  rw [recordBytes, List.append_assoc _ v.name]
  exact List.drop_left' (by simp)

namespace DirectoryEntry.FitsIn

variable {v : DirectoryEntry} {len : UInt16} {n off : ℕ} (h : v.FitsIn len n off)

include h

theorem name_le : 8 + v.name.length ≤ len.toNat := by
  have hm : (8 + v.name.length + 3) / 4 * 4 ≤ len.toNat := h.minimum
  omega

theorem stop_le : off + len.toNat ≤ n := by
  have h1 := h.name_le
  have h2 := h.space
  omega

theorem decode_write (b : Bytes n) :
    decodeDirectoryEntry (b.write off (recordBytes v len)) off = .ok { v with recordLength := len } := by
  have hh : kDirectoryEntryHeaderSize = 8 := rfl
  have hname := h.name_le
  have hlen := length_recordBytes hname
  have hblock := h.stop_le
  have hshort : v.name.length < 256 := by
    have := h.name.2.2.2.1
    exact Nat.lt_of_le_of_lt this (by decide)
  -- the parts of the record
  have hin : ∀ i k, i + k ≤ len.toNat → (b.write off (recordBytes v len)).read (off + i) k =
      ((recordBytes v len).drop i).take k := fun i k hik => Bytes.read_write_within (by omega) (by omega)
  generalize hw : b.write off (recordBytes v len) = w at hin ⊢
  have hbyte : ∀ i, i < len.toNat → w.byte (off + i) = (recordBytes v len).getD i 0 := by
    intro i hi
    rw [← hw, Bytes.byte_write_in (by omega) (by omega) (by omega), Nat.add_sub_cancel_left]
  have h16 : w.getLe16 (off + 4) = len := by
    rw [Bytes.getLe16, hin 4 2 (by omega), show ((recordBytes v len).drop 4).take 2 = le 2 len.toNat by
      simp [recordBytes], Bytes.ofLe_le_of_lt (by simpa using len.toNat_lt),
      UInt16.ofNat_toNat]
  have h32 : w.getLe32 off = v.inode := by
    have h0 := hin 0 4 (by omega)
    rw [Nat.add_zero] at h0
    rw [Bytes.getLe32, h0, show ((recordBytes v len).drop 0).take 4 = le 4 v.inode.toNat by
      simp [recordBytes], Bytes.ofLe_le_of_lt (by simpa using v.inode.toNat_lt), UInt32.ofNat_toNat]
  have h6 : (w.byte (off + 6)).toNat = v.name.length := by
    rw [hbyte 6 (by omega), show (recordBytes v len).getD 6 0 = UInt8.ofNat v.name.length by
      simp [recordBytes, List.getElem?_append]]
    exact Nat.mod_eq_of_lt hshort
  have h7 : DirectoryFileType.ofByte (w.byte (off + 7)) = some v.fileType := by
    rw [hbyte 7 (by omega), show (recordBytes v len).getD 7 0 = v.fileType.toByte by
      simp [recordBytes, List.getElem?_append], DirectoryFileType.ofByte_toByte]
  have hn : w.read (off + 8) v.name.length = v.name := by
    rw [hin 8 _ (by omega), drop_recordBytes, List.take_left]
  have hz : w.zeroRange (off + (kDirectoryEntryHeaderSize + v.name.length))
      (len.toNat - (kDirectoryEntryHeaderSize + v.name.length)) = true := by
    rw [Bytes.zeroRange, hin _ _ (by omega), ← List.drop_drop, hh, drop_recordBytes, List.drop_left,
      List.take_replicate]
    simp
  unfold decodeDirectoryEntry
  refine reject_bind_eq_ok.mpr ⟨by omega, ?_⟩
  simp only [h16, h32, h6, h7, hn]
  refine reject_bind_eq_ok.mpr ⟨?_, ?_⟩
  · have h1 := h.aligned
    have h2 := h.limit
    omega
  · rw [if_neg h.inode]
    refine reject_bind_eq_ok.mpr ⟨by simp [h.type, h.name], reject_bind_eq_ok.mpr ⟨by simpa using hz, rfl⟩⟩

end DirectoryEntry.FitsIn

/-- What the encoder accepts in a block. -/
structure DirectoryEntry.Fits (v : DirectoryEntry) (recordLength : UInt16) (off : ℕ) : Prop where
  inode : v.inode ≠ 0
  type : isKnownDirectoryFileType v.fileType
  name : isValidName v.name
  minimum : minimumDirectoryRecordLength v.name.length ≤ recordLength.toNat
  block : off + recordLength.toNat ≤ kBlockSize
  aligned : recordLength.toNat % 4 = 0

theorem DirectoryEntry.Fits.fitsIn (h : v.Fits len off) : v.FitsIn len kBlockSize off := by
  have := h.block
  exact ⟨h.inode, h.type, h.name, h.minimum, by omega, by omega, h.aligned⟩

theorem encodeDirectoryEntry_of_fits (h : v.Fits len off) (b : Block) :
    encodeDirectoryEntry v len b off = .ok (b.write off (recordBytes v len)) :=
  encodeDirectoryEntry_eq_ok.mpr ⟨h.fitsIn, rfl⟩

theorem fits_of_encodeDirectoryEntry {b' : Block} (h : encodeDirectoryEntry v len b off = .ok b') :
    v.Fits len off := by
  have hf := (encodeDirectoryEntry_eq_ok.mp h).1
  exact ⟨hf.inode, hf.type, hf.name, hf.minimum, hf.stop_le, hf.aligned⟩

theorem DirectoryEntry.Fits.name_le (h : v.Fits len off) :
    8 + v.name.length ≤ len.toNat := h.fitsIn.name_le

theorem decode_write (h : v.Fits len off) (b : Block) :
    decodeDirectoryEntry (b.write off (recordBytes v len)) off = .ok { v with recordLength := len } :=
  h.fitsIn.decode_write b

/-! ## The insertion -/

/-- A record has room for an entry that needs so many bytes: a free record as a whole, a used one after its name. -/
def DirectoryEntry.hasRoom (needed : ℕ) (e : DirectoryEntry) : Prop :=
  if e.inode = 0 then needed ≤ e.recordLength.toNat
  else needed ≤ e.recordLength.toNat - minimumDirectoryRecordLength e.name.length

instance (needed : ℕ) (e : DirectoryEntry) : Decidable (e.hasRoom needed) := by
  unfold DirectoryEntry.hasRoom; infer_instance

/-- Take over a free record. -/
def takeRecord (new : DirectoryEntry) (b : Block) (off : ℕ) (current : DirectoryEntry) :
    Except String (Option Block) := do
  let b ← encodeDirectoryEntry new current.recordLength b off
  return some b

/-- Shorten a used record and put the entry behind it. -/
def splitRecord (new : DirectoryEntry) (b : Block) (off : ℕ) (current : DirectoryEntry) :
    Except String (Option Block) := do
  let currentMinimum := minimumDirectoryRecordLength current.name.length
  let b ← encodeDirectoryEntry current (UInt16.ofNat currentMinimum) b off
  let b ← encodeDirectoryEntry new (UInt16.ofNat (current.recordLength.toNat - currentMinimum)) b
    (off + currentMinimum)
  return some b

/-- Insert into the records from `off` on; `none` when none of them has room. -/
def tryInsertFrom (new : DirectoryEntry) (b : Block) (off : ℕ) : Except String (Option Block) :=
  if _h : off < kBlockSize then
    match decodeDirectoryEntry b off with
    | .error detail => .error detail
    | .ok current =>
      if _hz : current.recordLength.toNat = 0 then .ok none
      else if current.hasRoom (minimumDirectoryRecordLength new.name.length) then
        if current.inode = 0 then takeRecord new b off current else splitRecord new b off current
      else tryInsertFrom new b (off + current.recordLength.toNat)
  else .ok none
termination_by kBlockSize - off

def tryInsertDirectoryEntry (new : DirectoryEntry) (b : Block) : Except String (Option Block) := tryInsertFrom new b 0

/-- What an entry says, without the length of its record. -/
def DirectoryEntry.key (e : DirectoryEntry) : UInt32 × DirectoryFileType × Name := (e.inode, e.fileType, e.name)

/-- The active ones of these records. -/
def activeKeys (records : List (ℕ × DirectoryEntry)) : List (UInt32 × DirectoryFileType × Name) :=
  (activeRecords (records.map Prod.snd)).map DirectoryEntry.key

theorem activeKeys_append (l₁ l₂ : List (ℕ × DirectoryEntry)) :
    activeKeys (l₁ ++ l₂) = activeKeys l₁ ++ activeKeys l₂ := by
  rw [activeKeys, activeRecords, List.map_append, List.filter_append, List.map_append]
  rfl

theorem activeKeys_cons (x : ℕ × DirectoryEntry) (l : List (ℕ × DirectoryEntry)) :
    activeKeys (x :: l) = (if x.2.inode = 0 then [] else [x.2.key]) ++ activeKeys l := by
  by_cases h0 : x.2.inode = 0
  · rw [activeKeys, List.map_cons, activeRecords_cons_of_free h0, if_pos h0, List.nil_append]
    rfl
  · rw [activeKeys, List.map_cons, activeRecords_cons_of_ne h0, if_neg h0]
    rfl

/-- What the entry makes of the record it goes into: it takes over a free one, and it follows the name of a used
one. -/
def placed (new : DirectoryEntry) (x : ℕ × DirectoryEntry) : List (ℕ × DirectoryEntry) :=
  if x.2.inode = 0 then [(x.1, { new with recordLength := x.2.recordLength })]
  else
    let m := minimumDirectoryRecordLength x.2.name.length
    [(x.1, { x.2 with recordLength := UInt16.ofNat m }),
      (x.1 + m, { new with recordLength := UInt16.ofNat (x.2.recordLength.toNat - m) })]

/-- `b'` is `b` with one more entry, in the first record at or after `off` that has room. -/
structure Inserted (new : DirectoryEntry) (b b' : Block) (off : ℕ) : Prop where
  before : b'.AgreeOn b 0 off
  decodes : (blockRecords "" b' off).2 = none
  records : ∃ pre x post, (blockRecords "" b off).1 = pre ++ x :: post ∧
    (∀ y ∈ pre, ¬ y.2.hasRoom (minimumDirectoryRecordLength new.name.length)) ∧
    x.2.hasRoom (minimumDirectoryRecordLength new.name.length) ∧
    (blockRecords "" b' off).1 = pre ++ placed new x ++ post

/-- What a new entry must satisfy. -/
structure DirectoryEntry.New (v : DirectoryEntry) : Prop where
  inode : v.inode ≠ 0
  type : isKnownDirectoryFileType v.fileType
  name : isValidName v.name

section Insert

variable {new e : DirectoryEntry} {b : Block} {off : ℕ}

theorem takeRecord_spec (hnew : new.New) (hoff : off < kBlockSize) (hd : decodeDirectoryEntry b off = .ok e)
    (hrest : (blockRecords "" b (off + e.recordLength.toNat)).2 = none) (h0 : e.inode = 0)
    (hroom : minimumDirectoryRecordLength new.name.length ≤ e.recordLength.toNat) :
    ∃ b', takeRecord new b off e = .ok (some b') ∧ Inserted new b b' off := by
  have hv := decodeDirectoryEntry_valid hd
  have hfits : new.Fits e.recordLength off := ⟨hnew.inode, hnew.type, hnew.name, hroom, hv.fits, hv.aligned⟩
  have hlen := length_recordBytes hfits.name_le
  have hdec := decode_write hfits b
  refine ⟨b.write off (recordBytes new e.recordLength), ?_, ?_⟩
  · rw [takeRecord, encodeDirectoryEntry_of_fits hfits]
    rfl
  · have hafter : blockRecords "" (b.write off (recordBytes new e.recordLength)) (off + e.recordLength.toNat) =
        blockRecords "" b (off + e.recordLength.toNat) :=
      blockRecords_congr (Bytes.agreeOn_write (.inr (by omega)))
    refine ⟨Bytes.agreeOn_write (.inl le_rfl), ?_, [], (off, e), (blockRecords "" b (off + e.recordLength.toNat)).1,
      ?_, fun _ hy => absurd hy List.not_mem_nil, ?_, ?_⟩
    · rw [blockRecords_of_ok hoff hdec, hafter]
      exact hrest
    · rw [blockRecords_of_ok hoff hd, List.nil_append]
    · rw [DirectoryEntry.hasRoom, if_pos h0]
      exact hroom
    · rw [blockRecords_of_ok hoff hdec, hafter, placed, if_pos h0]
      rfl

theorem minimumDirectoryRecordLength_le (hv : e.Valid off) :
    minimumDirectoryRecordLength e.name.length ≤ e.recordLength.toNat := by
  have h1 := hv.name
  have h2 := hv.aligned
  show (8 + e.name.length + 3) / 4 * 4 ≤ e.recordLength.toNat
  omega

theorem splitRecord_spec (hnew : new.New) (hoff : off < kBlockSize) (hd : decodeDirectoryEntry b off = .ok e)
    (hrest : (blockRecords "" b (off + e.recordLength.toNat)).2 = none) (h0 : e.inode ≠ 0)
    (hroom : minimumDirectoryRecordLength new.name.length ≤
      e.recordLength.toNat - minimumDirectoryRecordLength e.name.length) :
    ∃ b', splitRecord new b off e = .ok (some b') ∧ Inserted new b b' off := by
  have hv := decodeDirectoryEntry_valid hd
  have hblock : off + e.recordLength.toNat ≤ 4096 := hv.fits
  have hmin := minimumDirectoryRecordLength_le hv
  have hpos : 8 ≤ minimumDirectoryRecordLength new.name.length := by
    show 8 ≤ (8 + new.name.length + 3) / 4 * 4
    omega
  have hal : minimumDirectoryRecordLength e.name.length % 4 = 0 := Nat.mul_mod_left _ 4
  have haligned := hv.aligned
  unfold splitRecord
  generalize hm : minimumDirectoryRecordLength e.name.length = m at *
  have h1 : (UInt16.ofNat m).toNat = m := UInt16.toNat_ofNat_of_lt' (by show m < 65536; omega)
  have h2 : (UInt16.ofNat (e.recordLength.toNat - m)).toNat = e.recordLength.toNat - m :=
    UInt16.toNat_ofNat_of_lt' (by show _ < 65536; omega)
  have hcur : e.Fits (UInt16.ofNat m) off :=
    ⟨h0, (hv.active h0).1,
      (hv.active h0).2, by rw [h1, hm], by rw [h1]; show _ ≤ 4096; omega, by rw [h1]; exact hal⟩
  have hfits : new.Fits (UInt16.ofNat (e.recordLength.toNat - m)) (off + m) :=
    ⟨hnew.inode, hnew.type,
      hnew.name, by rw [h2]; exact hroom, by rw [h2]; show _ ≤ 4096; omega, by rw [h2]; omega⟩
  have hlen1 := length_recordBytes hcur.name_le
  have hlen2 := length_recordBytes hfits.name_le
  rw [h1] at hlen1
  rw [h2] at hlen2
  simp only [encodeDirectoryEntry_of_fits hcur, encodeDirectoryEntry_of_fits hfits, ok_bind]
  refine ⟨_, rfl, ?_⟩
  generalize hb1 : b.write off (recordBytes e (UInt16.ofNat m)) = b₁
  have hdec1 : decodeDirectoryEntry b₁ off = .ok { e with recordLength := UInt16.ofNat m } :=
    hb1 ▸ decode_write hcur b
  have hdec2 := decode_write hfits b₁
  generalize hb2 : b₁.write (off + m) (recordBytes new (UInt16.ofNat (e.recordLength.toNat - m))) = b₂ at hdec2 ⊢
  -- the shortened record is not touched by the second write, the rest of the block by neither
  have hdec1' : decodeDirectoryEntry b₂ off = .ok { e with recordLength := UInt16.ofNat m } := by
    refine decode_of_agree hdec1 ?_
    rw [← hb2]
    exact Bytes.agreeOn_write (.inl (by rw [h1]))
  have hafter : blockRecords "" b₂ (off + e.recordLength.toNat) = blockRecords "" b (off + e.recordLength.toNat) := by
    refine blockRecords_congr (Bytes.AgreeOn.trans (b := b₁) ?_ ?_)
    · rw [← hb2]
      exact Bytes.agreeOn_write (.inr (by omega))
    · rw [← hb1]
      exact Bytes.agreeOn_write (.inr (by omega))
  have hnext : off + m < kBlockSize := by
    show off + m < 4096
    omega
  have hend : off + m + (UInt16.ofNat (e.recordLength.toNat - m)).toNat = off + e.recordLength.toNat := by omega
  have hstep : off + (UInt16.ofNat m).toNat = off + m := by rw [h1]
  have hrecords : blockRecords "" b₂ off = ((off, { e with recordLength := UInt16.ofNat m }) ::
      (off + m, { new with recordLength := UInt16.ofNat (e.recordLength.toNat - m) }) ::
        (blockRecords "" b (off + e.recordLength.toNat)).1, none) := by
    rw [blockRecords_of_ok hoff hdec1']
    simp only [hstep, blockRecords_of_ok hnext hdec2, hend, hafter, hrest]
  refine ⟨?_, by rw [hrecords], [], (off, e), (blockRecords "" b (off + e.recordLength.toNat)).1, ?_,
    fun _ hy => absurd hy List.not_mem_nil, ?_, ?_⟩
  · refine Bytes.AgreeOn.trans (b := b₁) ?_ ?_
    · rw [← hb2]
      exact Bytes.agreeOn_write (.inl (by omega))
    · rw [← hb1]
      exact Bytes.agreeOn_write (.inl le_rfl)
  · rw [blockRecords_of_ok hoff hd, List.nil_append]
  · rw [DirectoryEntry.hasRoom, if_neg h0, hm]
    exact hroom
  · rw [hrecords, placed, if_neg h0]
    simp only [hm]
    rfl

theorem Inserted.cons {b' : Block} (hoff : off < kBlockSize) (hd : decodeDirectoryEntry b off = .ok e)
    (hroom : ¬ e.hasRoom (minimumDirectoryRecordLength new.name.length))
    (h : Inserted new b b' (off + e.recordLength.toNat)) : Inserted new b b' off := by
  have hd' : decodeDirectoryEntry b' off = .ok e := decode_of_agree hd (h.before.mono (by omega) le_rfl)
  obtain ⟨pre, x, post, h1, h2, h3, h4⟩ := h.records
  refine ⟨h.before.mono le_rfl (by omega), ?_, (off, e) :: pre, x, post, ?_,
    List.forall_mem_cons.mpr ⟨hroom, h2⟩, h3, ?_⟩
  · rw [blockRecords_of_ok hoff hd']
    exact h.decodes
  · rw [blockRecords_of_ok hoff hd, h1, List.cons_append]
  · rw [blockRecords_of_ok hoff hd', h4, List.cons_append, List.cons_append]

theorem tryInsertFrom_of_ok (hoff : off < kBlockSize) (hd : decodeDirectoryEntry b off = .ok e) :
    tryInsertFrom new b off =
      if e.hasRoom (minimumDirectoryRecordLength new.name.length) then
        if e.inode = 0 then takeRecord new b off e else splitRecord new b off e
      else tryInsertFrom new b (off + e.recordLength.toNat) := by
  have hpos := (decodeDirectoryEntry_valid hd).length
  rw [tryInsertFrom, dif_pos hoff, hd]
  exact dif_neg (by omega)

/-- The insertion finds the first record with room, if there is one. -/
theorem tryInsertFrom_spec (hnew : new.New) {off : ℕ} (hdec : (blockRecords "" b off).2 = none) :
    (∃ b', tryInsertFrom new b off = .ok (some b') ∧ Inserted new b b' off) ∨
      (tryInsertFrom new b off = .ok none ∧
        ∀ x ∈ (blockRecords "" b off).1, ¬ x.2.hasRoom (minimumDirectoryRecordLength new.name.length)) := by
  by_cases hoff : off < kBlockSize
  · cases hd : decodeDirectoryEntry b off with
    | error detail =>
      rw [blockRecords_of_error hoff hd] at hdec
      cases hdec
    | ok e =>
      have hpos := (decodeDirectoryEntry_valid hd).length
      rw [blockRecords_of_ok hoff hd] at hdec ⊢
      rw [tryInsertFrom_of_ok hoff hd]
      by_cases hroom : e.hasRoom (minimumDirectoryRecordLength new.name.length)
      · left
        rw [if_pos hroom]
        unfold DirectoryEntry.hasRoom at hroom
        by_cases h0 : e.inode = 0
        · rw [if_pos h0] at hroom ⊢
          exact takeRecord_spec hnew hoff hd hdec h0 hroom
        · rw [if_neg h0] at hroom ⊢
          exact splitRecord_spec hnew hoff hd hdec h0 hroom
      · rw [if_neg hroom]
        have hrest : (blockRecords "" b (off + e.recordLength.toNat)).2 = none := hdec
        rcases tryInsertFrom_spec hnew hrest with ⟨b', h, hi⟩ | ⟨h, hall⟩
        · exact .inl ⟨b', h, hi.cons hoff hd hroom⟩
        · exact .inr ⟨h, List.forall_mem_cons.mpr ⟨hroom, hall⟩⟩
  · rw [tryInsertFrom, dif_neg hoff, blockRecords_of_ge (not_lt.mp hoff)]
    exact .inr ⟨rfl, fun _ hx => absurd hx List.not_mem_nil⟩
termination_by kBlockSize - off

theorem activeKeys_placed (hnew : new.New) (x : ℕ × DirectoryEntry) :
    activeKeys (placed new x) = activeKeys [x] ++ [new.key] := by
  unfold placed
  by_cases h0 : x.2.inode = 0
  · rw [if_pos h0, activeKeys_cons, activeKeys_cons, if_neg hnew.inode, if_pos h0]
    rfl
  · simp only [if_neg h0, activeKeys_cons, hnew.inode, if_false]
    rfl

end Insert

/-! ## The block after an insertion -/

/-- Records that follow each other from `off` to the end of the block, none of them empty. -/
inductive Tiles : ℕ → List (ℕ × DirectoryEntry) → Prop
  | nil : Tiles kBlockSize []
  | cons {off : ℕ} {e : DirectoryEntry} {rest : List (ℕ × DirectoryEntry)} (hpos : 0 < e.recordLength.toNat)
      (h : Tiles (off + e.recordLength.toNat) rest) : Tiles off ((off, e) :: rest)

theorem blockRecords_tiles {b : Block} {off : ℕ} (hle : off ≤ kBlockSize) (h : (blockRecords "" b off).2 = none) :
    Tiles off (blockRecords "" b off).1 := by
  by_cases hoff : off < kBlockSize
  · cases hd : decodeDirectoryEntry b off with
    | error detail =>
      rw [blockRecords_of_error hoff hd] at h
      cases h
    | ok e =>
      have hv := decodeDirectoryEntry_valid hd
      have hpos := hv.length
      rw [blockRecords_of_ok hoff hd] at h ⊢
      exact .cons (by omega) (blockRecords_tiles hv.fits h)
  · obtain rfl : off = kBlockSize := by omega
    rw [blockRecords_of_ge le_rfl]
    exact .nil
termination_by kBlockSize - off

/-- An entry goes into a block of records exactly when one of them has room.  Then the first one with room takes it:
the records before and after it stay, and the active entries are the old ones with the new one in that place. -/
theorem tryInsertDirectoryEntry_exact {new : DirectoryEntry} {b : Block} (hb : recordsDecode b) (hnew : new.New) :
    let records := (blockRecords "" b 0).1
    let hasRoom := fun x : ℕ × DirectoryEntry => x.2.hasRoom (minimumDirectoryRecordLength new.name.length)
    ((∃ b', tryInsertDirectoryEntry new b = .ok (some b')) ↔ ∃ x ∈ records, hasRoom x) ∧
    ((¬ ∃ x ∈ records, hasRoom x) → tryInsertDirectoryEntry new b = .ok none) ∧
    ∀ b', tryInsertDirectoryEntry new b = .ok (some b') →
      recordsDecode b' ∧ Tiles 0 (blockRecords "" b' 0).1 ∧
      ∃ pre x post, records = pre ++ x :: post ∧ (∀ y ∈ pre, ¬ hasRoom y) ∧ hasRoom x ∧
        (blockRecords "" b' 0).1 = pre ++ placed new x ++ post ∧
        (activeEntries b).map DirectoryEntry.key = activeKeys (pre ++ [x]) ++ activeKeys post ∧
        (activeEntries b').map DirectoryEntry.key = activeKeys (pre ++ [x]) ++ new.key :: activeKeys post := by
  intro records hasRoom
  rcases tryInsertFrom_spec hnew hb with ⟨b₁, h₁, hi⟩ | ⟨h₁, hall⟩
  · obtain ⟨pre, x, post, hr, hpre, hx, hr'⟩ := hi.records
    have hmem : x ∈ records := by
      show x ∈ (blockRecords "" b 0).1
      rw [hr]
      exact List.mem_append_right _ List.mem_cons_self
    refine ⟨⟨fun _ => ⟨x, hmem, hx⟩, fun _ => ⟨b₁, h₁⟩⟩, fun hno => absurd ⟨x, hmem, hx⟩ hno,
      fun b' hb' => ?_⟩
    obtain rfl : b₁ = b' := Option.some.inj (Except.ok.inj (h₁.symm.trans hb'))
    refine ⟨hi.decodes, blockRecords_tiles (Nat.zero_le _) hi.decodes, pre, x, post, hr, hpre, hx, hr', ?_, ?_⟩
    · show activeKeys (blockRecords "" b 0).1 = _
      rw [hr, ← activeKeys_append, List.append_assoc, List.singleton_append]
    · show activeKeys (blockRecords "" b₁ 0).1 = _
      rw [hr', activeKeys_append, activeKeys_append, activeKeys_placed hnew, activeKeys_append]
      simp only [List.append_assoc, List.singleton_append]
  · have hno : ¬ ∃ x ∈ records, hasRoom x := fun ⟨x, hx, hroom⟩ => hall x hx hroom
    have hnot : ∀ b', tryInsertDirectoryEntry new b ≠ .ok (some b') := fun b' hb' => by cases h₁.symm.trans hb'
    exact ⟨⟨fun ⟨b', hb'⟩ => absurd hb' (hnot b'), fun h => absurd h hno⟩, fun _ => h₁,
      fun b' hb' => absurd hb' (hnot b')⟩

/-- A block with one entry, which fills it. -/
def oneEntryBlock (e : DirectoryEntry) : Block :=
  (Bytes.zero kBlockSize).write 0 (recordBytes e (UInt16.ofNat kBlockSize))

theorem fits_oneEntryBlock (h : e.New) : e.Fits (UInt16.ofNat kBlockSize) 0 := by
  have hname : e.name.length ≤ 255 := h.name.2.2.2.1
  refine ⟨h.inode, h.type, h.name, ?_, by decide, by decide⟩
  show (8 + e.name.length + 3) / 4 * 4 ≤ 4096
  omega

theorem blockRecords_oneEntryBlock (h : e.New) :
    blockRecords "" (oneEntryBlock e) 0 = ([(0, { e with recordLength := UInt16.ofNat kBlockSize })], none) := by
  have hlen : (UInt16.ofNat kBlockSize).toNat = kBlockSize := rfl
  rw [oneEntryBlock, blockRecords_of_ok (by decide) (decode_write (fits_oneEntryBlock h) _)]
  simp only [hlen, Nat.zero_add, blockRecords_of_ge le_rfl]

theorem recordsDecode_oneEntryBlock (h : e.New) : recordsDecode (oneEntryBlock e) := by
  rw [recordsDecode, blockRecords_oneEntryBlock h]

theorem activeEntries_oneEntryBlock (h : e.New) :
    activeEntries (oneEntryBlock e) = [{ e with recordLength := UInt16.ofNat kBlockSize }] := by
  rw [activeEntries, blockRecords_oneEntryBlock h]
  exact List.filter_eq_self.mpr fun x hx => by simpa [List.mem_singleton.mp hx] using h.inode

/-- A second entry next to one that fills the block. -/
theorem tryInsertDirectoryEntry_exact_second :
    recordsDecode (oneEntryBlock ⟨5, .kRegular, [97], 0⟩) ∧
    ∃ b', tryInsertDirectoryEntry ⟨6, .kDirectory, [98, 99], 0⟩ (oneEntryBlock ⟨5, .kRegular, [97], 0⟩) =
      .ok (some b') := by
  have hold : DirectoryEntry.New ⟨5, .kRegular, [97], 0⟩ := ⟨by decide, Or.inl rfl, by decide⟩
  have hnew : DirectoryEntry.New ⟨6, .kDirectory, [98, 99], 0⟩ := ⟨by decide, Or.inr rfl, by decide⟩
  have hrecords := blockRecords_oneEntryBlock hold
  have hdec : recordsDecode (oneEntryBlock ⟨5, .kRegular, [97], 0⟩) := by rw [recordsDecode, hrecords]
  refine ⟨hdec, (tryInsertDirectoryEntry_exact hdec hnew).1.mpr ?_⟩
  rw [hrecords]
  exact ⟨_, List.mem_singleton_self _, by decide⟩

end Eufs
