import Eufs.Base.Codec
import Eufs.Format.Insert

/-!
# Eufs.Format.Exact — the codecs of the metadata are exact

Every byte of an accepted superblock or inode record is a field, the checksum, or checked to be zero, so the decoders
accept only what the encoders write.  The same holds of the bytes of one active directory record, wherever it stands in
a buffer; the bytes around it are not touched.
-/

namespace Eufs

variable {b : Block} {v : Superblock}

/-! ## The superblock -/

theorem decodeSuperblock_inv (h : decodeSuperblock b = .ok v) :
    v.Regions ∧ b.Holds (superblockFields v) ∧ b.getLe32 kSuperblockChecksumOffset = superblockChecksum b ∧
      b.zeroRange 36 4 = true ∧ b.zeroRange 144 112 = true ∧ b.zeroRange 256 3840 = true := by
  have hv := decodeSuperblock_valid h
  simp only [decodeSuperblock, reject_bind_eq_ok, not_or, not_not] at h
  obtain ⟨hmagic, ⟨h8, h12, h16, h20, h132, h136, h140⟩, ⟨hz1, hz2, hz3⟩, hsum, h⟩ := h
  obtain ⟨-, -, h⟩ := bind_eq_ok.mp h
  have hread : readSuperblock b = v := Except.ok.inj h
  refine ⟨hv, ?_, hsum.symm, hz1, hz2, hz3⟩
  rw [← hread]
  simp [superblockFields, readSuperblock, hmagic, h8, h12, h16, h20, h132, h136, h140, kMagic, Bytes.toList_getBytes]

theorem decodeSuperblock_sealed (h : decodeSuperblock b = .ok v) :
    b.Sealed (superblockFields v) kSuperblockChecksumOffset (superblockChecksum b) := by
  obtain ⟨-, hholds, hsum, hz1, hz2, hz3⟩ := decodeSuperblock_inv h
  have hfit : Bytes.Fits kBlockSize
      ((superblockFields v ++ [Bytes.Field.le32 kSuperblockChecksumOffset (superblockChecksum b)]).map
        Bytes.Field.shape) := by
    simp only [superblockFields, List.map_cons, List.map_append, List.map_nil, Bytes.shape_le32,
      Bytes.shape_le64, Bytes.shape_raw, Vector.length_toList]
    decide
  refine hholds.sealed hsum hfit fun i hi hout => ?_
  -- three reserved ranges are left
  simp only [superblockFields, List.map_cons, List.map_nil, Bytes.shape_le32, Bytes.shape_le64,
    Bytes.shape_raw, Vector.length_toList, List.cons_append, List.nil_append, List.forall_mem_cons, kMagic,
    List.length_cons, List.length_nil, kSuperblockChecksumOffset] at hout
  have hi : i < 4096 := hi
  by_cases h1 : i < 40
  · exact Bytes.byte_of_zeroRange hz1 (by omega) (by omega)
  · by_cases h2 : i < 256
    · exact Bytes.byte_of_zeroRange hz2 (by omega) (by omega)
    · exact Bytes.byte_of_zeroRange hz3 (by omega) (by omega)

theorem encodeSuperblock_of_decode (h : decodeSuperblock b = .ok v) : encodeSuperblock v = .ok b := by
  have hs := decodeSuperblock_sealed h
  have hsum : superblockChecksum b =
      crc32c (((Bytes.zero kBlockSize).fill (superblockFields v)).read 0 kSuperblockHeaderSize) := by
    rw [superblockChecksum, hs.cleared, hs.cleared_fields]
  have hb := hs.eq
  rw [hsum] at hb
  unfold encodeSuperblock
  rw [validateSuperblock_eq_ok.mpr (decodeSuperblock_valid h), ok_bind]
  exact congrArg Except.ok hb.symm

/-! ## Inode records -/

theorem inodeBytes_of_decode {b : InodeBytes} {n : ℕ} {v : InodeRecord} (h : decodeInode b n = .ok v) :
    b = inodeBytes v := by
  simp only [decodeInode, reject_bind_eq_ok, not_not] at h
  obtain ⟨hsum, hz, -, -, -, h⟩ := h
  have hread : readInodeRecord b = v := Except.ok.inj h
  have hholds : b.Holds (inodeFields v) := by
    rw [← hread]
    simp [inodeFields, directFields, readInodeRecord]
  have hfit : Bytes.Fits kInodeRecordSize
      ((inodeFields v ++ [Bytes.Field.le32 kInodeChecksumOffset (inodeChecksum b)]).map Bytes.Field.shape) := by
    simpa [inodeFields, directFields] using (inodeBytes_sealed v).fits
  have hs : b.Sealed (inodeFields v) kInodeChecksumOffset (inodeChecksum b) := by
    refine hholds.sealed hsum.symm hfit fun i hi hout => ?_
    simp only [inodeFields, directFields, List.map_cons, List.map_nil, Bytes.shape_le32, Bytes.shape_le64,
      List.cons_append, List.nil_append, List.forall_mem_cons, kInodeChecksumOffset] at hout
    have hi : i < 128 := hi
    exact Bytes.byte_of_zeroRange hz (by omega) (by omega)
  have hfill : inodeChecksum b = crc32c ((Bytes.zero kInodeRecordSize).fill (inodeFields v)).toList := by
    rw [inodeChecksum, hs.cleared, hs.cleared_fields]
  have hb := hs.eq
  rw [hfill] at hb
  exact hb

theorem encodeInode_of_decode {b : InodeBytes} {n : ℕ} {v : InodeRecord} (h : decodeInode b n = .ok v) :
    encodeInode v = .ok b :=
  encodeInode_eq_ok.mpr ⟨(decodeInode_valid h).1, inodeBytes_of_decode h⟩

/-! ## Directory records -/

section Directory

variable {n off : ℕ} {b : Bytes n} {e : DirectoryEntry}

theorem decodeDirectoryEntry_inv (h : decodeDirectoryEntry b off = .ok e) (h0 : e.inode ≠ 0) :
    e.FitsIn e.recordLength n off ∧ b.getLe32 off = e.inode ∧ b.getLe16 (off + 4) = e.recordLength ∧
      (b.byte (off + 6)).toNat = e.name.length ∧ DirectoryFileType.ofByte (b.byte (off + 7)) = some e.fileType ∧
      b.read (off + 8) e.name.length = e.name ∧
      b.zeroRange (off + (8 + e.name.length)) (e.recordLength.toNat - (8 + e.name.length)) = true := by
  simp only [decodeDirectoryEntry, reject_bind_eq_ok, not_or, not_lt, not_not, ne_eq] at h
  obtain ⟨-, ⟨h2, h3, h4, h5, h6⟩, h⟩ := h
  have hh : kDirectoryEntryHeaderSize = 8 := rfl
  split_ifs at h with hz
  · simp only [reject_bind_eq_ok] at h
    obtain ⟨-, -, h⟩ := h
    cases h
    exact absurd rfl h0
  · split at h
    · cases h
    · rename_i t ht
      simp only [reject_bind_eq_ok, not_or, not_not] at h
      obtain ⟨⟨hknown, hname⟩, hpad, h⟩ := h
      cases h
      have hmin : minimumDirectoryRecordLength (b.byte (off + 6)).toNat ≤ (b.getLe16 (off + 4)).toNat := by
        show (8 + (b.byte (off + 6)).toNat + 3) / 4 * 4 ≤ _
        omega
      refine ⟨⟨h0, hknown, hname, ?_, h3, h4, h5⟩, rfl, rfl, ?_, ht, ?_, ?_⟩
      · simpa using hmin
      · simp
      · simp
      · simpa [hh] using hpad

theorem DirectoryFileType.toByte_of_ofByte {x : UInt8} {t : DirectoryFileType} (h : ofByte x = some t) :
    t.toByte = x := by
  unfold ofByte at h
  split_ifs at h with h0 h1 h2 <;> cases h <;> simp [toByte, *]

theorem read_of_decodeDirectoryEntry (h : decodeDirectoryEntry b off = .ok e) (h0 : e.inode ≠ 0) :
    b.read off e.recordLength.toNat = recordBytes e e.recordLength := by
  obtain ⟨hfits, h32, h16, h6, h7, hname, hpad⟩ := decodeDirectoryEntry_inv h h0
  have hle := hfits.name_le
  have hzeros : b.read (off + (8 + e.name.length)) (e.recordLength.toNat - (8 + e.name.length)) =
      List.replicate (e.recordLength.toNat - 8 - e.name.length) 0 := by
    rw [Nat.sub_sub]
    refine List.eq_replicate_iff.mpr ⟨by simp, fun x hx => ?_⟩
    simpa using List.all_eq_true.mp hpad x hx
  have htwo : b.read (off + 6) 2 = [UInt8.ofNat e.name.length, e.fileType.toByte] := by
    rw [DirectoryFileType.toByte_of_ofByte h7, ← h6, UInt8.ofNat_toNat]
    rfl
  have hlen : e.recordLength.toNat =
    4 + (2 + (2 + (e.name.length + (e.recordLength.toNat - (8 + e.name.length))))) := by
    omega
  rw [hlen, Bytes.read_add, Bytes.read_add, Bytes.read_add, Bytes.read_add, Nat.add_assoc off 4 2,
    Nat.add_assoc off 6 2, htwo, hname,
    Nat.add_assoc off 8, hzeros, ← Bytes.le_getLe32, h32, ← Bytes.le_getLe16, h16]
  simp only [recordBytes, List.append_assoc]

end Directory

/-! ## All three -/

/-- The codecs of superblocks, inode records and directory records are exact inverses. -/
theorem metadata_codecs_exact :
    ((∀ v b, encodeSuperblock v = .ok b → decodeSuperblock b = .ok v) ∧
      ∀ b v, decodeSuperblock b = .ok v → encodeSuperblock v = .ok b) ∧
    ((∀ v b, encodeInode v = .ok b → decodeInode b v.inodeNumber.toNat = .ok v) ∧
      ∀ b n v, decodeInode b n = .ok v → encodeInode v = .ok b) ∧
    (∀ (n : ℕ) (b b' : Bytes n) (off : ℕ) (v : DirectoryEntry) (len : UInt16),
      encodeDirectoryEntry v len b off = .ok b' →
        decodeDirectoryEntry b' off = .ok { v with recordLength := len } ∧
          ∀ i, (i < off ∨ off + len.toNat ≤ i) → b'.byte i = b.byte i) ∧
    ∀ (n : ℕ) (b : Bytes n) (off : ℕ) (e : DirectoryEntry), decodeDirectoryEntry b off = .ok e →
    e.inode ≠ 0 →
      encodeDirectoryEntry e e.recordLength b off = .ok b ∧
        ∀ (m : ℕ) (c : Bytes m) (off' : ℕ), e.recordLength.toNat ≤ m - off' →
          ∃ c', encodeDirectoryEntry e e.recordLength c off' = .ok c' ∧
            c'.read off' e.recordLength.toNat = b.read off e.recordLength.toNat := by
  refine ⟨⟨fun v b h => decodeSuperblock_encodeSuperblock h, fun b v h => encodeSuperblock_of_decode h⟩,
    ⟨fun v b h => ?_, fun b n v h => encodeInode_of_decode h⟩, fun n b b' off v len h =>
    ?_, fun n b off e h h0 => ?_⟩
  · obtain ⟨hv, rfl⟩ := encodeInode_eq_ok.mp h
    exact decodeInode_inodeBytes hv
  · obtain ⟨hfits, rfl⟩ := encodeDirectoryEntry_eq_ok.mp h
    have hlen := length_recordBytes hfits.name_le
    refine ⟨hfits.decode_write b, fun i hi => ?_⟩
    rcases hi with hi | hi
    · exact Bytes.byte_write_of_lt hi
    · exact Bytes.byte_write_of_ge (by omega)
  · have hfits := (decodeDirectoryEntry_inv h h0).1
    have hread := read_of_decodeDirectoryEntry h h0
    refine ⟨encodeDirectoryEntry_eq_ok.mpr ⟨hfits, ?_⟩, fun m c off' hm => ?_⟩
    · rw [← hread, Bytes.write_read]
    · have hfits' : e.FitsIn e.recordLength m off' := { hfits with space := hm }
      refine ⟨_, encodeDirectoryEntry_eq_ok.mpr ⟨hfits', rfl⟩, ?_⟩
      rw [hread, Bytes.read_write_self (length_recordBytes hfits.name_le) hfits'.stop_le]

/-- Sixteen blocks with eight inodes. -/
def smallSuperblock : Superblock :=
  ⟨16, 8, 1, ⟨1, 1⟩, ⟨2, 1⟩, ⟨3, 1⟩, ⟨4, 5⟩, ⟨9, 7⟩, 0, 0, 0, Bytes.zero 16, 0⟩

theorem smallSuperblock_encodes : ∃ b, encodeSuperblock smallSuperblock = .ok b := by
  have hregions : smallSuperblock.Regions := by
    refine ⟨?_, ?_, ?_, ?_, ?_, ?_, ?_, ?_, ?_, ?_, ?_, ?_, ?_, ?_⟩ <;> decide
  unfold encodeSuperblock
  rw [validateSuperblock_eq_ok.mpr hregions, ok_bind]
  exact ⟨_, rfl⟩

/-- An empty file with inode number 7. -/
def smallInode : InodeRecord := ⟨7, S_IFREG, 0, 0, 1, 0, 0, 0, 0, 0, 1, Vector.replicate 12 0, 0⟩

theorem smallInode_valid : smallInode.Valid := ⟨by decide, by decide, by decide⟩

theorem smallInode_encodes : ∃ b, encodeInode smallInode = .ok b :=
  ⟨_, encodeInode_eq_ok.mpr ⟨smallInode_valid, rfl⟩⟩

theorem smallInode_decodes : ∃ b, decodeInode b 7 = .ok smallInode := by
  have hnumber : smallInode.inodeNumber.toNat = 7 := rfl
  rw [← hnumber]
  exact ⟨_, decodeInode_inodeBytes smallInode_valid⟩

/-- An entry in a record of twelve bytes, in the middle of a buffer that is no block. -/
theorem smallEntry_encodes : ∃ b, encodeDirectoryEntry ⟨5, .kRegular, [97], 0⟩ 12 (Bytes.zero 20) 4 = .ok b :=
  ⟨_, encodeDirectoryEntry_eq_ok.mpr
    ⟨⟨by decide, .inl rfl, by decide, by decide, by decide, by decide, by decide⟩, rfl⟩⟩

theorem metadata_codecs_exact_small :
    (∃ b, encodeSuperblock smallSuperblock = .ok b ∧ decodeSuperblock b = .ok smallSuperblock) ∧
    (∃ b, encodeInode smallInode = .ok b ∧ decodeInode b 7 = .ok smallInode) ∧
    ∃ b : Bytes 20, encodeDirectoryEntry ⟨5, .kRegular, [97], 0⟩ 12 (Bytes.zero 20) 4 = .ok b ∧
      decodeDirectoryEntry b 4 = .ok ⟨5, .kRegular, [97], 12⟩ ∧
      encodeDirectoryEntry ⟨5, .kRegular, [97], 12⟩ 12 b 4 = .ok b := by
  obtain ⟨⟨hsuper, -⟩, ⟨hinode, -⟩, hdir, hback⟩ := metadata_codecs_exact
  obtain ⟨a, ha⟩ := smallSuperblock_encodes
  obtain ⟨b, hb⟩ := smallInode_encodes
  obtain ⟨c, hc⟩ := smallEntry_encodes
  have hi := hinode _ b hb
  have hd := (hdir 20 _ c 4 _ 12 hc).1
  exact ⟨⟨a, ha, hsuper _ a ha⟩, ⟨b, hb, hi⟩, c, hc, hd, (hback 20 c 4 _ hd (by decide)).1⟩

end Eufs
