import Eufs.Metadata.Reading

/-!
# Eufs.Object.LedgerIndex — the index of the request ledger

The service scans the ledger file once when it opens an image and keeps the records in memory.  The scan accepts only
records with different request ids followed by empty slots; after a commit the index grows by the committed record.
-/

namespace Eufs

open ImageReader Superblock InodeRecord RequestLedgerRecord

variable {n logical : ℕ}

/-- The records of the ledger, in the order of their slots. -/
structure RequestLedgerIndex where
  capacity : ℕ
  nextSequence : UInt64 := 1
  records : List RequestLedgerRecord := []

namespace RequestLedgerIndex

def size (x : RequestLedgerIndex) : ℕ := x.records.length

def full (x : RequestLedgerIndex) : Prop := x.size = x.capacity

instance (x : RequestLedgerIndex) : Decidable x.full := by unfold full; infer_instance

def find (x : RequestLedgerIndex) (id : RequestId) : Option RequestLedgerRecord :=
  x.records.find? fun r => r.requestId = id

theorem not_mem_of_find {x : RequestLedgerIndex} {id : RequestId} (h : x.find id = none) :
    id ∉ x.records.map requestId := by
  intro hmem
  obtain ⟨record, hrecord, rfl⟩ := List.mem_map.mp hmem
  have := List.find?_eq_none.mp h record hrecord
  simp at this

/-- Called only when the record is durable. -/
def appendCommitted (x : RequestLedgerIndex) (record : RequestLedgerRecord) : Except Failure RequestLedgerIndex := do
  reject x.full ⟨.ENOSPC, "request ledger index has no empty slots"⟩
  reject (record.sequence ≠ x.nextSequence) ⟨.EUCLEAN, "committed ledger sequence does not match the index"⟩
  let _ ← orFail .EUCLEAN (encodeRequestLedgerRecord record)
  reject (x.find record.requestId ≠ none) ⟨.EEXIST, "committed request id already exists in the index"⟩
  return { x with records := x.records ++ [record], nextSequence := x.nextSequence + 1 }

end RequestLedgerIndex

/-! ## The scan -/

def slotDetail (sequence : ℕ) (reason : String) : String :=
  "request ledger slot " ++ toString sequence ++ ": " ++ reason

/-- One slot; the state says whether an empty slot was seen and holds the records so far. -/
def scanLedgerSlot (st : Bool × List RequestLedgerRecord) (sequence : ℕ) (bytes : RequestLedgerBytes) :
    Except Failure (Bool × List RequestLedgerRecord) :=
  match decodeRequestLedgerRecord bytes (UInt64.ofNat sequence) with
  | .error reason => .error ⟨.EUCLEAN, slotDetail sequence reason⟩
  | .ok none => .ok (true, st.2)
  | .ok (some record) => do
    reject (st.1 = true) ⟨.EUCLEAN, slotDetail sequence "record appears after the first empty slot"⟩
    reject (∃ x ∈ st.2, x.requestId = record.requestId)
      ⟨.EUCLEAN, slotDetail sequence "duplicate request id"⟩
    return (st.1, st.2 ++ [record])

/-- The slots of one logical block. -/
def scanLedgerBlock (r : ImageReader) (v : InodeRecord) (st : Bool × List RequestLedgerRecord) (logical : ℕ) :
    Except Failure (Bool × List RequestLedgerRecord) := do
  let physical ← r.mapLogicalBlock v logical
  let block ← r.readBlock physical
  (List.range kLedgerEntriesPerBlock).foldlM (fun st k =>
    scanLedgerSlot st (logical * kLedgerEntriesPerBlock + k + 1)
      (block.getBytes (k * kRequestLedgerRecordSize) kRequestLedgerRecordSize)) st

/-- The ledger's path must resolve. -/
def resolveLedger (r : ImageReader) : Except Failure (ℕ × InodeRecord) :=
  match r.resolvePath (47 :: kRequestLedgerName) with
  | .error ⟨.ENOENT, _⟩ => .error ⟨.EUCLEAN, "required request ledger path is missing"⟩
  | x => x

def scanRequestLedger (r : ImageReader) : Except Failure RequestLedgerIndex := do
  reject (r.superblock.featureIncompat &&& kFeatureIncompatRequestLedger = 0)
    ⟨.EOPNOTSUPP, "image does not declare the request ledger feature"⟩
  reject (r.superblock.featureIncompat &&& ~~~ kSupportedFeatureIncompat ≠ 0)
    ⟨.EOPNOTSUPP, "image declares unsupported incompatible features"⟩
  let (n, v) ← resolveLedger r
  reject (n ≠ kRequestLedgerInodeNumber ∨ ¬ S_ISREG v.mode ∨ v.linkCount ≠ 1 ∨ v.size.toNat = 0 ∨
      v.size.toNat % kBlockSize ≠ 0 ∨ v.size.toNat % kRequestLedgerRecordSize ≠ 0)
    ⟨.EUCLEAN, "request ledger identity or inode geometry is invalid"⟩
  -- the host's size type holds every capacity
  let st ← (List.range (v.size.toNat / kBlockSize)).foldlM (scanLedgerBlock r v) (false, [])
  return ⟨v.size.toNat / kRequestLedgerRecordSize, UInt64.ofNat (st.2.length + 1), st.2⟩

/-! ## The scan of a well-formed ledger -/

section Scan

variable {r : ImageReader} {v : InodeRecord} {records : List RequestLedgerRecord}

/-- The state of the scan before slot `k`. -/
def scannedSlots (records : List RequestLedgerRecord) (k : ℕ) : Bool × List RequestLedgerRecord :=
  (decide (records.length < k), records.take k)

theorem scanLedgerSlot_of_holds (h : v.LedgerHolds r.image records) {k : ℕ}
    (hk : k < v.size.toNat / kRequestLedgerRecordSize) :
    scanLedgerSlot (scannedSlots records k) (k + 1) (v.ledgerSlot r.image k) = .ok (scannedSlots records (k + 1)) := by
  unfold scanLedgerSlot scannedSlots
  rw [h.slots k hk]
  by_cases hlt : k < records.length
  · have hfresh : (records[k]).requestId ∉ (records.take k).map requestId := by
      have hids := h.ids
      rw [← List.take_append_drop k records, List.drop_eq_getElem_cons hlt, List.map_append, List.map_cons] at hids
      exact fun hc => (List.nodup_append.mp hids).2.2 _ hc _ List.mem_cons_self rfl
    have h1 : ¬ records.length < k := by omega
    have h2 : ¬ records.length < k + 1 := by omega
    rw [List.getElem?_eq_getElem hlt, ← List.take_append_getElem hlt]
    refine reject_bind_eq_ok.mpr ⟨by simpa using h1, reject_bind_eq_ok.mpr ⟨hfresh ∘ List.mem_map.mpr, ?_⟩⟩
    simp only [h1, h2, decide_false]
    rfl
  · have h1 : records.length < k + 1 := by omega
    rw [List.getElem?_eq_none (by omega), List.take_of_length_le (by omega), List.take_of_length_le (by omega)]
    simp only [h1, decide_true]

theorem ledgerSlot_eq (v : InodeRecord) (d : Image) (logical : ℕ) {k : ℕ} (hk : k < kLedgerEntriesPerBlock) :
    v.ledgerSlot d (logical * kLedgerEntriesPerBlock + k) =
      (d (v.pointer d logical)).getBytes (k * kRequestLedgerRecordSize) kRequestLedgerRecordSize := by
  have hk : k < 32 := hk
  have hq : (logical * kLedgerEntriesPerBlock + k) * kRequestLedgerRecordSize / kBlockSize = logical := by
    show (logical * 32 + k) * 128 / 4096 = logical
    omega
  have hm : (logical * kLedgerEntriesPerBlock + k) * kRequestLedgerRecordSize % kBlockSize =
      k * kRequestLedgerRecordSize := by
    show (logical * 32 + k) * 128 % 4096 = k * 128
    omega
  rw [ledgerSlot, hq, hm]

theorem scanLedgerBlock_eq (hr : Readable r.superblock r.image n v) (hl : logical < v.size.toNat / kBlockSize)
    (st : Bool × List RequestLedgerRecord) :
    scanLedgerBlock r v st logical = (List.range kLedgerEntriesPerBlock).foldlM (fun st k =>
      scanLedgerSlot st (logical * kLedgerEntriesPerBlock + k + 1)
        ((r.image (v.pointer r.image logical)).getBytes (k * kRequestLedgerRecordSize)
          kRequestLedgerRecordSize)) st := by
  have hreq : logical < v.requiredBlocks := by
    have hl : logical < v.size.toNat / 4096 := hl
    show logical < (v.size.toNat + 4096 - 1) / 4096
    omega
  have hin := hr.mapped.inData _ (pointer_mem_owned hreq)
  have hread : r.readBlock (v.pointer r.image logical) = .ok (r.image (v.pointer r.image logical)) :=
    reject_bind_eq_ok.mpr ⟨not_le.mpr hin.2, rfl⟩
  rw [scanLedgerBlock, mapLogicalBlock_of_readable hr hreq, ok_bind, hread, ok_bind]

theorem scanLedgerBlock_of_holds (hr : Readable r.superblock r.image n v) (hw : v.size.toNat % kBlockSize = 0)
    (h : v.LedgerHolds r.image records) (hl : logical < v.size.toNat / kBlockSize) :
    scanLedgerBlock r v (scannedSlots records (logical * kLedgerEntriesPerBlock)) logical =
      .ok (scannedSlots records ((logical + 1) * kLedgerEntriesPerBlock)) := by
  rw [scanLedgerBlock_eq hr hl, show (logical + 1) * kLedgerEntriesPerBlock =
    logical * kLedgerEntriesPerBlock + kLedgerEntriesPerBlock by ring]
  refine foldlM_range_eq_ok (fun k => scannedSlots records (logical * kLedgerEntriesPerBlock + k)) fun k hk => ?_
  rw [← ledgerSlot_eq v r.image logical hk]
  refine scanLedgerSlot_of_holds h ?_
  have hk : k < 32 := hk
  have hl : logical < v.size.toNat / 4096 := hl
  have hw : v.size.toNat % 4096 = 0 := hw
  show logical * 32 + k < v.size.toNat / 128
  omega

/-- What a scan that has passed the first `k` slots has seen. -/
structure ScannedTo (v : InodeRecord) (d : Image) (k : ℕ) (st : Bool × List RequestLedgerRecord) : Prop where
  fits : st.2.length ≤ k
  full : st.1 = false → st.2.length = k
  ids : (st.2.map requestId).Nodup
  slots : ∀ j < k, decodeRequestLedgerRecord (v.ledgerSlot d j) (UInt64.ofNat (j + 1)) = .ok st.2[j]?

theorem ScannedTo.slot {d : Image} {k : ℕ} {st st' : Bool × List RequestLedgerRecord} (h : ScannedTo v d k st)
    (hs : scanLedgerSlot st (k + 1) (v.ledgerSlot d k) = .ok st') : ScannedTo v d (k + 1) st' := by
  have hfits := h.fits
  unfold scanLedgerSlot at hs
  split at hs
  · cases hs
  · -- an empty slot
    rename_i hdec
    cases hs
    refine ⟨Nat.le_succ_of_le hfits, fun hc => (nomatch hc), h.ids, fun j hj => ?_⟩
    obtain hj | rfl := Nat.lt_succ_iff_lt_or_eq.mp hj
    · exact h.slots j hj
    · rw [hdec, List.getElem?_eq_none hfits]
  · -- a record, which no empty slot precedes
    rename_i record hdec
    obtain ⟨hseen, hs⟩ := reject_bind_eq_ok.mp hs
    obtain ⟨hid, hs⟩ := reject_bind_eq_ok.mp hs
    cases hs
    have hlen := h.full (Bool.eq_false_iff.mpr hseen)
    refine ⟨by simp [hlen], fun _ => by simp [hlen], ?_, fun j hj => ?_⟩
    · rw [List.map_append, List.map_singleton]
      exact h.ids.append (List.nodup_singleton _) fun x hx hx' =>
        hid (List.mem_map.mp (List.mem_singleton.mp hx' ▸ hx))
    · obtain hj | rfl := Nat.lt_succ_iff_lt_or_eq.mp hj
      · rw [List.getElem?_append_left (by omega)]
        exact h.slots j hj
      · rw [hdec, ← hlen, List.getElem?_concat_length]

theorem ScannedTo.block (hr : Readable r.superblock r.image n v) (hl : logical < v.size.toNat / kBlockSize)
    {st st' : Bool × List RequestLedgerRecord} (h : ScannedTo v r.image (logical * kLedgerEntriesPerBlock) st)
    (hs : scanLedgerBlock r v st logical = .ok st') :
    ScannedTo v r.image ((logical + 1) * kLedgerEntriesPerBlock) st' := by
  rw [scanLedgerBlock_eq hr hl] at hs
  rw [show (logical + 1) * kLedgerEntriesPerBlock = logical * kLedgerEntriesPerBlock + kLedgerEntriesPerBlock by ring]
  refine foldlM_range_induction (fun k => ScannedTo v r.image (logical * kLedgerEntriesPerBlock + k)) h
    (fun k hk t t' ht hstep => ?_) hs
  rw [← ledgerSlot_eq v r.image logical hk] at hstep
  exact ht.slot hstep

/-- What the scan asks of the ledger's inode. -/
structure LedgerInode (r : ImageReader) (v : InodeRecord) : Prop where
  resolves : r.resolvePath (47 :: kRequestLedgerName) = .ok (kRequestLedgerInodeNumber, v)
  regular : S_ISREG v.mode
  links : v.linkCount = 1
  nonempty : v.size.toNat ≠ 0
  whole : v.size.toNat % kBlockSize = 0

theorem LedgerInode.capacity (h : LedgerInode r v) :
    v.size.toNat / kBlockSize * kLedgerEntriesPerBlock = v.size.toNat / kRequestLedgerRecordSize := by
  have hw : v.size.toNat % 4096 = 0 := h.whole
  show v.size.toNat / 4096 * 32 = v.size.toNat / 128
  omega

theorem LedgerInode.wholeRecords (h : LedgerInode r v) : v.size.toNat % kRequestLedgerRecordSize = 0 := by
  have hw : v.size.toNat % 4096 = 0 := h.whole
  show v.size.toNat % 128 = 0
  omega

theorem LedgerInode.resolveLedger_eq (h : LedgerInode r v) : resolveLedger r = .ok (kRequestLedgerInodeNumber, v) := by
  rw [resolveLedger, h.resolves]

/-- The scan accepts a ledger exactly when its slots hold records and then nothing. -/
theorem scanRequestLedger_eq_ok {x : RequestLedgerIndex} (h : LedgerInode r v)
    (hf : r.superblock.HasLedger)
    (hs : r.superblock.featureIncompat &&& ~~~ kSupportedFeatureIncompat = 0) :
    scanRequestLedger r = .ok x ↔ v.LedgerHolds r.image x.records ∧
      x = ⟨v.size.toNat / kRequestLedgerRecordSize, UInt64.ofNat (x.records.length + 1), x.records⟩ := by
  have hr := readable_of_resolvePath h.resolves
  have hscan : scanRequestLedger r =
    ((List.range (v.size.toNat / kBlockSize)).foldlM (scanLedgerBlock r v) (false, []) >>=
      fun st => .ok ⟨v.size.toNat / kRequestLedgerRecordSize, UInt64.ofNat (st.2.length + 1), st.2⟩) := by
    simp only [scanRequestLedger, hf, hs, reject_false, ok_bind, ne_eq, not_true_eq_false,
      h.resolveLedger_eq, h.regular, h.links, h.nonempty, h.whole, h.wholeRecords, or_false]
    rfl
  rw [hscan, bind_eq_ok]
  constructor
  · rintro ⟨st, hst, hx⟩
    cases hx
    have hstart : ScannedTo v r.image (0 * kLedgerEntriesPerBlock) (false, []) :=
      ⟨Nat.zero_le _, fun _ => (Nat.zero_mul _).symm, List.nodup_nil, fun j hj => by simp at hj⟩
    have hto := foldlM_range_induction (fun k => ScannedTo v r.image (k * kLedgerEntriesPerBlock)) hstart
      (fun k hk t t' ht hstep => ht.block hr hk hstep) hst
    rw [h.capacity] at hto
    exact ⟨⟨hto.fits, hto.ids, hto.slots⟩, rfl⟩
  · rintro ⟨hh, hx⟩
    have hst := foldlM_range_eq_ok (f := scanLedgerBlock r v)
      (fun k => scannedSlots x.records (k * kLedgerEntriesPerBlock)) fun k hk =>
      scanLedgerBlock_of_holds hr h.whole hh hk
    rw [h.capacity, scannedSlots, Nat.zero_mul, List.take_zero, scannedSlots, List.take_of_length_le hh.fits] at hst
    exact ⟨_, hst, congrArg Except.ok hx.symm⟩

theorem exists_ledgerInode (h : r.superblock.Sound r.image) (hl : r.superblock.LedgerOk r.image) :
    ∃ v, LedgerInode r v ∧ kRequestLedgerInodeNumber ∈ r.superblock.inodes r.image ∧
      r.superblock.inodeAt r.image kRequestLedgerInodeNumber = some v := by
  obtain ⟨⟨e, he, hino, hty⟩, hsize, -⟩ := hl
  have hmem : e ∈ r.superblock.entriesOf r.image r.superblock.rootInode.toNat ∧ e.name = kRequestLedgerName := by
    have hm : e ∈ [e] := List.mem_singleton_self e
    rw [← he] at hm
    simpa using List.mem_filter.mp hm
  obtain ⟨w, hw⟩ := h.exists_readable h.root.1
  have hdir : S_ISDIR w.mode := by
    have := h.root.2
    rw [isDirectory, hw.record] at this
    simpa using this
  have hentry : e ∈ w.entries r.image := by
    have := hmem.1
    rwa [entriesOf, hw.record, Option.map_some, Option.getD_some, if_pos hdir] at this
  have hlist := h.listable h.root.1 hw.record hdir
  obtain ⟨halloc, v, hv, htype⟩ := (h.directory _ h.root.1 w hw.record hdir).targets e hentry
  rw [hino] at halloc hv
  have hreg : S_ISREG v.mode := by simpa [isDirectoryType, hty] using htype
  have hlinks := h.links _ halloc v hv
  rw [if_pos hreg] at hlinks
  have hr := h.readable halloc hv
  have hpath : r.resolvePath (47 :: kRequestLedgerName) = .ok (kRequestLedgerInodeNumber, v) := by
    rw [← hmem.2, ← pathOf_singleton]
    exact resolvePath_pathOf (List.cons_ne_nil _ _) (.down hw hdir hlist hentry hino (.here _)) hr
  obtain ⟨hne, hwhole⟩ := hsize v hv
  exact ⟨v, ⟨hpath, hreg, UInt32.toNat_inj.mp hlinks, hne, hwhole⟩, halloc, hv⟩

/-- The scan of a consistent image finds the records of the slots. -/
theorem scanRequestLedger_of_consistent (h : r.superblock.Consistent r.image)
    (hf : r.superblock.HasLedger)
    (hs : r.superblock.featureIncompat &&& ~~~ kSupportedFeatureIncompat = 0)
    (hv : r.superblock.inodeAt r.image kRequestLedgerInodeNumber = some v) (hh : v.LedgerHolds r.image records) :
    scanRequestLedger r =
      .ok ⟨v.size.toNat / kRequestLedgerRecordSize, UInt64.ofNat (records.length + 1), records⟩ := by
  obtain ⟨w, hl, -, hw⟩ := exists_ledgerInode h.toSound (h.ledger hf)
  obtain rfl := Option.some.inj (hw.symm.trans hv)
  exact (scanRequestLedger_eq_ok hl hf hs).mpr ⟨hh, rfl⟩

end Scan

end Eufs
