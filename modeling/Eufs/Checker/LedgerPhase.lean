import Eufs.Checker.Phases

/-!
# Eufs.Checker.LedgerPhase — the ledger's slots

The last phase walks the slots of the request ledger.  It has no finding exactly when the slots are valid records with
different request ids, followed by empty slots.
-/

namespace Eufs

open InodeRecord RequestLedgerRecord

variable {x : LedgerSlot} {l : LedgerScan} {records : List RequestLedgerRecord} {s : Scan} {r : ConsistencyReport}

namespace Scan

variable (sb : Superblock) (d : Image)

/-! ## The walk over the slots -/

/-- What stands in a slot. -/
abbrev SlotResult := Except String (Option RequestLedgerRecord)

/-- Records first, then empty slots. -/
def Prefixed (results : List SlotResult) (records : List RequestLedgerRecord) : Prop :=
  ∃ empty, results = (records.map fun r => .ok (some r)) ++ List.replicate empty (.ok none)

/-- A slot: its block, its number and its bytes. -/
abbrev LedgerSlot := ℕ × ℕ × RequestLedgerBytes

def slotResult (x : LedgerSlot) : SlotResult := decodeRequestLedgerRecord x.2.2 (UInt64.ofNat x.2.1)

/-- One slot after the other. -/
def walkSlots (xs : List LedgerSlot) (l : LedgerScan) : LedgerScan :=
  xs.foldl (fun l x => checkLedgerSlot x.1 x.2.1 x.2.2 l) l

theorem walkSlots_cons (x : LedgerSlot) (xs : List LedgerSlot) (l : LedgerScan) :
    walkSlots (x :: xs) l = walkSlots xs (checkLedgerSlot x.1 x.2.1 x.2.2 l) := rfl

/-- The counters after some slots without findings. -/
def counted (l : LedgerScan) (slots valid empty : ℕ) (saw : Bool) (ids : List RequestId) : LedgerScan :=
  { l with
    report := { l.report with
      requestLedgerSlotsScanned := l.report.requestLedgerSlotsScanned + slots
      requestLedgerValidRecords := l.report.requestLedgerValidRecords + valid
      requestLedgerEmptySlots := l.report.requestLedgerEmptySlots + empty }
    sawEmpty := saw
    requestIds := ids }

theorem counted_counted (l : LedgerScan) (a b c a' b' c' : ℕ) (saw saw' : Bool) (ids ids' : List RequestId) :
    counted (counted l a b c saw ids) a' b' c' saw' ids' = counted l (a + a') (b + b') (c + c') saw' ids' := by
  simp [counted, Nat.add_assoc]

theorem checkLedgerSlot_of_record {record : RequestLedgerRecord} (h : slotResult x = .ok (some record))
    (he : l.sawEmpty = false) (hn : record.requestId ∉ l.requestIds) :
    checkLedgerSlot x.1 x.2.1 x.2.2 l = counted l 1 1 0 false (l.requestIds ++ [record.requestId]) := by
  unfold slotResult at h
  unfold checkLedgerSlot counted
  simp only [h, he, Bool.false_eq_true, if_false, hn, Nat.add_zero]

theorem checkLedgerSlot_of_empty (h : slotResult x = .ok none) :
    checkLedgerSlot x.1 x.2.1 x.2.2 l = counted l 1 0 1 true l.requestIds := by
  unfold slotResult at h
  unfold checkLedgerSlot counted
  simp only [h, Nat.add_zero]

theorem of_quiet_checkLedgerSlot (h : (checkLedgerSlot x.1 x.2.1 x.2.2 l).report.issues = []) :
    l.report.issues = [] ∧
      (slotResult x = .ok none ∨
        ∃ record, slotResult x = .ok (some record) ∧ l.sawEmpty = false ∧ record.requestId ∉ l.requestIds) := by
  unfold slotResult
  unfold checkLedgerSlot at h
  cases hd : decodeRequestLedgerRecord x.2.2 (UInt64.ofNat x.2.1) with
  | error detail =>
    simp only [hd, LedgerScan.addLedgerIssue] at h
    exact absurd h (by simp)
  | ok o =>
    cases o with
    | none =>
      simp only [hd] at h
      exact ⟨h, .inl rfl⟩
    | some record =>
      simp only [hd, LedgerScan.addLedgerIssue] at h
      split_ifs at h with he hn hn
      · exact absurd h (by simp)
      · exact absurd h (by simp)
      · exact absurd h (by simp)
      · exact ⟨h, .inr ⟨record, rfl, Bool.eq_false_iff.mpr he, hn⟩⟩

theorem quiet_of_walkSlots (xs : List LedgerSlot) (l : LedgerScan) (h : (walkSlots xs l).report.issues = []) :
    l.report.issues = [] :=
  foldl_reflects (fun l : LedgerScan => l.report.issues = []) (fun _ _ h => (of_quiet_checkLedgerSlot h).1) xs l h

theorem walkSlots_of_prefixed : ∀ {xs : List LedgerSlot} {l : LedgerScan} {records : List RequestLedgerRecord},
    Prefixed (xs.map slotResult) records → (l.requestIds ++ records.map requestId).Nodup →
    (l.sawEmpty = true → records = []) →
      ∃ empty saw ids, walkSlots xs l = counted l xs.length records.length empty saw ids
  | [], l, records, hp, _, _ => by
    obtain ⟨empty, hp⟩ := hp
    have hrec : records = [] := by
      have := congrArg List.length hp
      simp only [List.map_nil, List.length_nil, List.length_append, List.length_map] at this
      exact List.length_eq_zero_iff.mp (by omega)
    subst hrec
    exact ⟨0, l.sawEmpty, l.requestIds, rfl⟩
  | x :: xs, l, records, hp, hn, he => by
    obtain ⟨empty, hp⟩ := hp
    rw [walkSlots_cons]
    cases records with
    | nil =>
      cases empty with
      | zero => simp at hp
      | succ empty =>
        obtain ⟨hx, hxs⟩ := List.cons.inj (by simpa [List.replicate_succ] using hp)
        obtain ⟨e, saw, ids, h⟩ := walkSlots_of_prefixed (l := counted l 1 0 1 true l.requestIds)
          (show Prefixed (xs.map slotResult) [] from ⟨empty, by simpa using hxs⟩) hn fun _ => rfl
        rw [checkLedgerSlot_of_empty hx, h, counted_counted, Nat.add_comm 1, Nat.zero_add]
        exact ⟨_, _, _, rfl⟩
    | cons record records =>
      obtain ⟨hx, hxs⟩ := List.cons.inj (by simpa using hp)
      have hsaw : l.sawEmpty = false := Bool.eq_false_iff.mpr fun hc => absurd (he hc) (List.cons_ne_nil _ _)
      have hfresh : record.requestId ∉ l.requestIds := fun hc =>
        (List.nodup_append.mp hn).2.2 _ hc _ List.mem_cons_self rfl
      obtain ⟨e, saw, ids, h⟩ := walkSlots_of_prefixed
        (l := counted l 1 1 0 false (l.requestIds ++ [record.requestId]))
        (show Prefixed (xs.map slotResult) records from ⟨empty, hxs⟩) (by simpa [counted] using hn) fun hc =>
        absurd hc (by simp [counted])
      rw [checkLedgerSlot_of_record hx hsaw hfresh, h, counted_counted, Nat.add_comm 1, Nat.add_comm 1]
      exact ⟨_, _, _, rfl⟩

/-- A walk without findings went over records and empty slots. -/
theorem prefixed_of_walkSlots : ∀ {xs : List LedgerSlot} {l : LedgerScan}, l.requestIds.Nodup →
    (walkSlots xs l).report.issues = [] → ∃ records, Prefixed (xs.map slotResult) records ∧
      (l.requestIds ++ records.map requestId).Nodup ∧ (l.sawEmpty = true → records = [])
  | [], l, hn, _ => ⟨[], ⟨0, rfl⟩, by simpa using hn, fun _ => rfl⟩
  | x :: xs, l, hn, h => by
    rw [walkSlots_cons] at h
    obtain ⟨-, hx | ⟨record, hx, hsaw, hfresh⟩⟩ := of_quiet_checkLedgerSlot (quiet_of_walkSlots xs _ h)
    · rw [checkLedgerSlot_of_empty hx] at h
      obtain ⟨records, ⟨empty, hp⟩, -, hnil⟩ := prefixed_of_walkSlots (by exact hn) h
      obtain rfl : records = [] := hnil rfl
      refine ⟨[], ⟨empty + 1, ?_⟩, by simpa using hn, fun _ => rfl⟩
      rw [List.map_cons, hx, hp]
      simp [List.replicate_succ]
    · rw [checkLedgerSlot_of_record hx hsaw hfresh] at h
      have hn' : (l.requestIds ++ [record.requestId]).Nodup :=
        List.nodup_append.mpr ⟨hn, List.nodup_singleton _, fun a ha b hb hc =>
          hfresh (List.mem_singleton.mp hb ▸ hc ▸ ha)⟩
      obtain ⟨records, ⟨empty, hp⟩, hnodup, -⟩ := prefixed_of_walkSlots (by exact hn') h
      refine ⟨record :: records,
        ⟨empty, ?_⟩, by simpa [counted] using hnodup, fun hc => absurd (hsaw.symm.trans hc) (by simp)⟩
      rw [List.map_cons, hx, hp]
      rfl

/-! ## The slots of a file -/

/-- The slots of some blocks. -/
def slotsOf (xs : List (ℕ × ℕ)) : List LedgerSlot :=
  xs.flatMap fun x => (List.range kLedgerEntriesPerBlock).map fun k =>
    (x.1, x.2 * kLedgerEntriesPerBlock + k + 1,
      (d x.1).getBytes (k * kRequestLedgerRecordSize) kRequestLedgerRecordSize)

theorem checkLedgerBlocks_eq (bs : List ℕ) (l : LedgerScan) :
    (bs.map some).zipIdx.foldl (checkLedgerBlock d) l = walkSlots (slotsOf d bs.zipIdx) l := by
  rw [List.zipIdx_map, List.foldl_map, walkSlots, slotsOf, List.foldl_flatMap]
  refine List.foldl_ext _ _ _ fun l x _ => ?_
  rw [List.foldl_map]
  rfl

variable {v : InodeRecord}

theorem range_rows (w : ℕ) : ∀ m : ℕ, List.range (m * w) = (List.range m).flatMap fun i =>
    (List.range w).map fun k => i * w + k
  | 0 => by simp
  | m + 1 => by
    rw [Nat.succ_mul, List.range_add, range_rows w m, List.range_succ, List.flatMap_append, List.flatMap_singleton]

theorem slotResult_slotsOf : (slotsOf d (v.blocks d).zipIdx).map slotResult =
    (List.range (v.requiredBlocks * kLedgerEntriesPerBlock)).map fun k =>
      decodeRequestLedgerRecord (v.ledgerSlot d k) (UInt64.ofNat (k + 1)) := by
  have hzip : (v.blocks d).zipIdx = (List.range v.requiredBlocks).map fun i => (v.pointer d i, i) := by
    refine List.ext_getElem? fun i => ?_
    rw [List.getElem?_zipIdx, blocks]
    by_cases h : i < v.requiredBlocks <;> simp [h]
  rw [hzip, slotsOf, List.flatMap_map, range_rows, List.map_flatMap, List.map_flatMap]
  refine List.flatMap_congr fun i _ => ?_
  rw [List.map_map, List.map_map]
  refine List.map_congr_left fun k hk => ?_
  have hk : k < 32 := List.mem_range.mp hk
  have hq : (i * kLedgerEntriesPerBlock + k) * kRequestLedgerRecordSize / kBlockSize = i := by
    show (i * 32 + k) * 128 / 4096 = i
    omega
  have hr : (i * kLedgerEntriesPerBlock + k) * kRequestLedgerRecordSize % kBlockSize =
    k * kRequestLedgerRecordSize := by
    show (i * 32 + k) * 128 % 4096 = k * 128
    omega
  simp only [Function.comp, slotResult, ledgerSlot, hq, hr]

theorem prefixed_range_iff {count : ℕ} {g : ℕ → SlotResult} :
    Prefixed ((List.range count).map g) records ↔
    records.length ≤ count ∧ ∀ k < count, g k = .ok records[k]? := by
  constructor
  · rintro ⟨empty, h⟩
    have hlen := congrArg List.length h
    simp only [List.length_map, List.length_range, List.length_append, List.length_replicate] at hlen
    refine ⟨by omega, fun k hk => ?_⟩
    have hget := congrArg (fun l => l[k]?) h
    simp only [List.getElem?_map, List.getElem?_range hk, Option.map_some] at hget
    by_cases hr : k < records.length
    · rw [List.getElem?_append_left (by simpa using hr)] at hget
      simpa [hr] using hget
    · rw [List.getElem?_append_right (by simpa using not_lt.mp hr), List.getElem?_replicate] at hget
      simp only [List.length_map] at hget
      rw [if_pos (by omega)] at hget
      rw [List.getElem?_eq_none (by omega)]
      exact Option.some.inj hget
  · rintro ⟨hle, h⟩
    refine ⟨count - records.length, List.ext_getElem? fun k => ?_⟩
    by_cases hk : k < count
    · simp only [List.getElem?_map, List.getElem?_range hk, Option.map_some, h k hk]
      by_cases hr : k < records.length
      · rw [List.getElem?_append_left (by simpa using hr)]
        simp [hr]
      · rw [List.getElem?_append_right (by simpa using not_lt.mp hr), List.getElem?_replicate, List.length_map,
          if_pos (by omega), List.getElem?_eq_none (by omega)]
    · rw [List.getElem?_eq_none (by simpa using not_lt.mp hk), List.getElem?_eq_none]
      simp
      omega

/-! ## The phase -/

/-- The entry of the root is found and right. -/
structure EntryOk (s : Scan) (rootEntries : List DirectoryEntry) : Prop where
  root : s.directoryScanComplete[sb.rootInode.toNat]? = some true
  entry : ∃ e, rootEntries.filter (fun e => e.name = kRequestLedgerName) = [e] ∧
    e.inode.toNat = kRequestLedgerInodeNumber ∧ e.fileType = .kRegular

theorem checkLedgerEntry_of_ok (h : EntryOk sb s l.report.rootEntries) : checkLedgerEntry sb s l = l := by
  obtain ⟨e, he, h1, h2⟩ := h.entry
  unfold checkLedgerEntry
  simp [h.root, he, h1, h2]

theorem entryOk_of_quiet (h : (checkLedgerEntry sb s l).report.issues = []) :
    EntryOk sb s l.report.rootEntries := by
  unfold checkLedgerEntry at h
  by_cases hc : s.directoryScanComplete[sb.rootInode.toNat]? = some true
  · simp only [hc, ne_eq, not_true_eq_false, if_false] at h
    split at h
    · next e he =>
      split_ifs at h with hbad
      · exact absurd h (by simp [LedgerScan.addLedgerIssue])
      · rw [not_or, not_not, not_not] at hbad
        exact ⟨hc, e, he, hbad⟩
    · exact absurd h (by simp [LedgerScan.addLedgerIssue])
  · simp only [hc, ne_eq, not_false_eq_true, if_true] at h
    exact absurd h (by simp [LedgerScan.addLedgerIssue])

/-- The inode of the ledger is right. -/
structure LedgerInodeOk (s : Scan) (v : InodeRecord) : Prop where
  decoded : s.decodedInodes[kRequestLedgerInodeNumber]? = some v
  allocated : sb.inodeBit d kRequestLedgerInodeNumber = true
  regular : S_ISREG v.mode
  links : v.linkCount = 1
  size : v.size.toNat ≠ 0
  whole : v.size.toNat % kBlockSize = 0

/-- The mapping of the ledger's inode is its blocks. -/
def LedgerMapped (s : Scan) : Prop :=
  ∀ v, s.decodedInodes[kRequestLedgerInodeNumber]? = some v → v.size.toNat ≤ kMaxFileSize ∧
    s.inodeLogicalBlocks kRequestLedgerInodeNumber = some ((v.blocks d).map some)

theorem record_dvd_of_whole {n : ℕ} (h : n % kBlockSize = 0) : n % kRequestLedgerRecordSize = 0 := by
  have h : n % 4096 = 0 := h
  show n % 128 = 0
  omega

/-- The capacity is noted before the slots are walked. -/
def withCapacity (l : LedgerScan) (v : InodeRecord) : LedgerScan :=
  { l with report := { l.report with requestLedgerCapacity := v.size.toNat / kRequestLedgerRecordSize } }

theorem checkLedgerSlots_eq (hwhole : v.size.toNat % kBlockSize = 0)
    (hlogical : s.inodeLogicalBlocks kRequestLedgerInodeNumber = some ((v.blocks d).map some)) :
    checkLedgerSlots d s v l = walkSlots (slotsOf d (v.blocks d).zipIdx) (withCapacity l v) := by
  have hlen := length_blocks_of_whole d hwhole
  unfold checkLedgerSlots
  simp only [hlogical, Option.getD_some, hlen, reduceCtorEq, ne_eq, not_true_eq_false, or_self, if_false]
  rw [checkLedgerBlocks_eq]
  rfl

theorem checkLedgerInode_of_ok (hm : LedgerMapped d s) (h : LedgerInodeOk sb d s v) :
    checkLedgerInode sb d s l = walkSlots (slotsOf d (v.blocks d).zipIdx) (withCapacity l v) := by
  obtain ⟨hmax, hlogical⟩ := hm v h.decoded
  have hgeometry : v.size.toNat ≠ 0 ∧ v.size.toNat ≤ kMaxFileSize ∧ v.size.toNat % kBlockSize = 0 ∧
      v.size.toNat % kRequestLedgerRecordSize = 0 := ⟨h.size, hmax, h.whole, record_dvd_of_whole h.whole⟩
  unfold checkLedgerInode
  simp only [h.decoded, h.allocated, if_true, h.regular, h.links, not_true_eq_false, ne_eq, or_self, if_false]
  rw [if_pos hgeometry, checkLedgerSlots_eq d h.whole hlogical]

theorem ledgerInodeOk_of_quiet (hm : LedgerMapped d s) (h : (checkLedgerInode sb d s l).report.issues = []) :
    ∃ v, LedgerInodeOk sb d s v := by
  unfold checkLedgerInode at h
  cases hdec : s.decodedInodes[kRequestLedgerInodeNumber]? with
  | none =>
    simp only [hdec] at h
    exact absurd h (by simp [LedgerScan.addLedgerIssue])
  | some v =>
    simp only [hdec] at h
    by_cases hgeometry : v.size.toNat ≠ 0 ∧ v.size.toNat ≤ kMaxFileSize ∧ v.size.toNat % kBlockSize = 0 ∧
        v.size.toNat % kRequestLedgerRecordSize = 0
    · rw [if_pos hgeometry, checkLedgerSlots_eq d hgeometry.2.2.1 (hm v hdec).2] at h
      have h := quiet_of_walkSlots _ _ h
      by_cases hb : sb.inodeBit d kRequestLedgerInodeNumber = true
      · by_cases hg : ¬ S_ISREG v.mode ∨ v.linkCount ≠ 1
        · rw [if_pos hg] at h
          exact absurd h (by simp [withCapacity, LedgerScan.addLedgerIssue])
        · rw [not_or, not_not, not_not] at hg
          exact ⟨v, hdec, hb, hg.1, hg.2, hgeometry.1, hgeometry.2.2.1⟩
      · rw [if_neg hb] at h
        split_ifs at h <;> exact absurd h (by simp [withCapacity, LedgerScan.addLedgerIssue])
    · rw [if_neg hgeometry] at h
      exact absurd h (by simp [LedgerScan.addLedgerIssue])

theorem quiet_of_checkLedgerBlock {x : Option ℕ × ℕ} (h : (checkLedgerBlock d l x).report.issues = []) :
    l.report.issues = [] := by
  obtain ⟨mapped, logical⟩ := x
  cases mapped with
  | none => exact absurd h (by simp [checkLedgerBlock, LedgerScan.addLedgerIssue])
  | some physical =>
    unfold checkLedgerBlock at h
    exact foldl_reflects (f := fun l k => checkLedgerSlot physical (logical * kLedgerEntriesPerBlock + k + 1)
        ((d physical).getBytes (k * kRequestLedgerRecordSize) kRequestLedgerRecordSize) l)
      (fun l : LedgerScan => l.report.issues = [])
      (fun l k h => (of_quiet_checkLedgerSlot (x := (physical, logical * kLedgerEntriesPerBlock + k + 1,
        (d physical).getBytes (k * kRequestLedgerRecordSize) kRequestLedgerRecordSize)) h).1) _ l h

theorem quiet_of_checkLedgerSlots (h : (checkLedgerSlots d s v l).report.issues = []) : l.report.issues = [] := by
  unfold checkLedgerSlots at h
  dsimp only at h
  split_ifs at h
  · exact absurd h (by simp [LedgerScan.addLedgerIssue])
  · exact foldl_reflects (f := checkLedgerBlock d) (fun l : LedgerScan => l.report.issues = [])
      (fun _ _ h => quiet_of_checkLedgerBlock d h) _ (withCapacity l v) h

theorem quiet_of_checkLedgerInode (h : (checkLedgerInode sb d s l).report.issues = []) : l.report.issues = [] := by
  unfold checkLedgerInode at h
  split at h
  · exact absurd h (by simp [LedgerScan.addLedgerIssue])
  · next v _ =>
    dsimp only at h
    by_cases hgeometry : v.size.toNat ≠ 0 ∧ v.size.toNat ≤ kMaxFileSize ∧ v.size.toNat % kBlockSize = 0 ∧
        v.size.toNat % kRequestLedgerRecordSize = 0
    · rw [if_pos hgeometry] at h
      have h := quiet_of_checkLedgerSlots d h
      split_ifs at h
      · exact absurd h (by simp [LedgerScan.addLedgerIssue])
      · exact absurd h (by simp [LedgerScan.addLedgerIssue])
      · exact h
      · exact absurd h (by simp [LedgerScan.addLedgerIssue])
    · rw [if_neg hgeometry] at h
      exact absurd h (by simp [LedgerScan.addLedgerIssue])

theorem quiet_of_checkLedger (h : (checkLedger sb d s r).issues = []) : r.issues = [] := by
  unfold checkLedger at h
  split_ifs at h
  · have hentry := quiet_of_checkLedgerInode sb d h
    have hok : EntryOk sb s r.rootEntries := entryOk_of_quiet sb (l := { report := r }) hentry
    rw [checkLedgerEntry_of_ok sb (l := { report := r }) hok] at hentry
    exact hentry
  · exact h

/-- Entries and inode checks do not touch the evidence of other phases. -/
def otherEvidence (r : ConsistencyReport) : Bool × Bool × Bool × Bool × Bool × ScanStatus :=
  (r.bitmapGeometryScanComplete, r.rootInodeDecoded, r.rootReachabilityComplete, r.blockReferenceScanComplete,
    r.inodeReferenceScanComplete, r.status)

theorem otherEvidence_checkLedgerSlot (physical slot : ℕ) (bytes : RequestLedgerBytes) (l : LedgerScan) :
    otherEvidence (checkLedgerSlot physical slot bytes l).report = otherEvidence l.report := by
  unfold checkLedgerSlot
  dsimp only
  split
  · rfl
  · rfl
  · split_ifs <;> rfl

theorem otherEvidence_checkLedgerBlock (l : LedgerScan) (x : Option ℕ × ℕ) :
    otherEvidence (checkLedgerBlock d l x).report = otherEvidence l.report := by
  obtain ⟨mapped, logical⟩ := x
  cases mapped with
  | none => rfl
  | some physical =>
    unfold checkLedgerBlock
    exact foldl_observe (f := fun l k => checkLedgerSlot physical (logical * kLedgerEntriesPerBlock + k + 1)
        ((d physical).getBytes (k * kRequestLedgerRecordSize) kRequestLedgerRecordSize) l)
      (fun l : LedgerScan => otherEvidence l.report) (fun l k => otherEvidence_checkLedgerSlot _ _ _ l) _ l

theorem otherEvidence_checkLedgerInode (s : Scan) (l : LedgerScan) :
    otherEvidence (checkLedgerInode sb d s l).report = otherEvidence l.report := by
  have hslots : ∀ (v : InodeRecord) (l : LedgerScan),
      otherEvidence (checkLedgerSlots d s v l).report = otherEvidence l.report := by
    intro v l
    unfold checkLedgerSlots
    dsimp only
    split_ifs
    · rfl
    · exact foldl_observe (fun l : LedgerScan => otherEvidence l.report) (otherEvidence_checkLedgerBlock d) _ _
  unfold checkLedgerInode
  split
  · rfl
  · dsimp only
    split_ifs <;> first | rfl | exact hslots _ _

theorem otherEvidence_checkLedgerEntry (s : Scan) (l : LedgerScan) :
    otherEvidence (checkLedgerEntry sb s l).report = otherEvidence l.report := by
  unfold checkLedgerEntry
  split_ifs
  · rfl
  · split
    · split_ifs <;> rfl
    · rfl

/-- The slots are records with different ids, then empty. -/
def SlotsOk (v : InodeRecord) (records : List RequestLedgerRecord) : Prop :=
  Prefixed ((slotsOf d (v.blocks d).zipIdx).map slotResult) records ∧
    (records.map requestId).Nodup

theorem capacity_of_whole (hwhole : v.size.toNat % kBlockSize = 0) :
    v.requiredBlocks * kLedgerEntriesPerBlock = v.size.toNat / kRequestLedgerRecordSize := by
  have hwhole : v.size.toNat % 4096 = 0 := hwhole
  show (v.size.toNat + 4096 - 1) / 4096 * 32 = v.size.toNat / 128
  omega

theorem length_slotsOf (hwhole : v.size.toNat % kBlockSize = 0) :
    (slotsOf d (v.blocks d).zipIdx).length = v.size.toNat / kRequestLedgerRecordSize := by
  have h := congrArg List.length (slotResult_slotsOf d (v := v))
  rw [List.length_map, List.length_map, List.length_range, capacity_of_whole hwhole] at h
  exact h

theorem slotsOk_iff (hwhole : v.size.toNat % kBlockSize = 0) :
    SlotsOk d v records ↔ v.LedgerHolds d records := by
  rw [SlotsOk, slotResult_slotsOf, prefixed_range_iff, capacity_of_whole hwhole]
  exact ⟨fun h => ⟨h.1.1, h.2, h.1.2⟩, fun h => ⟨⟨h.fits, h.slots⟩, h.ids⟩⟩

theorem checkLedger_of_ok (henabled : r.requestLedgerFeatureEnabled = true)
    (hcount : r.requestLedgerSlotsScanned = 0) (hm : LedgerMapped d s) (he : EntryOk sb s r.rootEntries)
    (hi : LedgerInodeOk sb d s v) (hs : SlotsOk d v records) :
    (checkLedger sb d s r).issues = r.issues ∧ (checkLedger sb d s r).requestLedgerScanComplete = true ∧
      (checkLedger sb d s r).status = r.status ∧
      (checkLedger sb d s r).requestLedgerCapacity = v.size.toNat / kRequestLedgerRecordSize ∧
      (checkLedger sb d s r).requestLedgerValidRecords = r.requestLedgerValidRecords + records.length := by
  obtain ⟨empty, saw, ids, hwalk⟩ := walkSlots_of_prefixed (l := withCapacity { report := r } v) hs.1
    (by simpa [withCapacity] using hs.2) (by simp [withCapacity])
  have hl : checkLedgerInode sb d s (checkLedgerEntry sb s { report := r }) =
      counted (withCapacity { report := r } v)
        (v.size.toNat / kRequestLedgerRecordSize) records.length empty saw ids := by
    rw [checkLedgerEntry_of_ok sb he, checkLedgerInode_of_ok sb d hm hi, hwalk, length_slotsOf d hi.whole]
  have hcomplete : ((counted (withCapacity { report := r } v) (v.size.toNat / kRequestLedgerRecordSize) records.length
      empty saw ids).evidenceComplete && (counted (withCapacity { report := r } v)
        (v.size.toNat / kRequestLedgerRecordSize) records.length empty saw ids).report.requestLedgerSlotsScanned ==
      (counted (withCapacity { report := r } v) (v.size.toNat / kRequestLedgerRecordSize) records.length
        empty saw ids).report.requestLedgerCapacity) = true := by
    simp [counted, withCapacity, hcount]
  unfold checkLedger
  simp only [henabled, if_true, hl, hcomplete]
  exact ⟨rfl, trivial, rfl, rfl, rfl⟩

theorem of_checkLedger (henabled : r.requestLedgerFeatureEnabled = true) (hm : LedgerMapped d s)
    (h : (checkLedger sb d s r).issues = []) :
    EntryOk sb s r.rootEntries ∧ ∃ v records, LedgerInodeOk sb d s v ∧ SlotsOk d v records := by
  unfold checkLedger at h
  simp only [henabled, if_true] at h
  obtain ⟨v, hi⟩ := ledgerInodeOk_of_quiet sb d hm h
  rw [checkLedgerInode_of_ok sb d hm hi] at h
  have hq := quiet_of_walkSlots _ (withCapacity (checkLedgerEntry sb s { report := r }) v) h
  have he : EntryOk sb s r.rootEntries := entryOk_of_quiet sb (l := { report := r }) hq
  rw [checkLedgerEntry_of_ok sb he] at h
  obtain ⟨records, hp, hn, -⟩ := prefixed_of_walkSlots (by simp [withCapacity]) h
  exact ⟨he, v, records, hi, hp, by simpa [withCapacity] using hn⟩

end Scan

end Eufs
