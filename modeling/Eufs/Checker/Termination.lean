import Eufs.Base.Loops
import Eufs.Checker.Graph
import Eufs.Metadata.Fresh

/-!
# Eufs.Checker.Termination — the loops of a check

The check once more, with every loop whose end depends on the image written as a loop with a bound on its passes and
with the counters the source uses.  The work queue, the records of a directory block, both searches and the loops below
a bound end on every image, with the results of `checkImage`.  The two loops over the inode numbers run up to
`total_inodes` inclusive with a counter of 32 bits: with the largest value of that type the first of them never ends.
-/

namespace Eufs

open Function Search

variable {n : ℕ} {d : Image}

namespace Scan

variable (sb : Superblock) (d : Image) (fuel : ℕ)

/-! ## The loops -/

/-- `BitmapBit(inode_bitmap, inode_number - 1U)`; the subtraction wraps. -/
def inodeBitRun (n : ℕ) : Bool := (loadBitmap d sb.inodeBitmap.start).testBit ((n + (2 ^ 32 - 1)) % 2 ^ 32)

/-- `SummarizeClearBits`: the first clear bit and their number. -/
def summarizeClearBitsRun (bm : Bitmap) (first stop : ℕ) : Option (Option (ℕ × ℕ)) :=
  (forBelow 64 (fun (x : ℕ × ℕ) bit => if bm.testBit (bit % 2 ^ 32) then x
    else (if x.2 = 0 then bit else x.1, x.2 + 1))
    stop fuel first (0, 0)).map fun x => if x.2 = 0 then none else some x

def checkBitmapGeometryRun (r : ConsistencyReport) : Option ConsistencyReport := do
  let inodeBitmap := loadBitmap d sb.inodeBitmap.start
  let blockBitmap := loadBitmap d sb.blockBitmap.start
  let missing ← summarizeClearBitsRun fuel blockBitmap 0 sb.data.start
  let inodeTail ← summarizeClearBitsRun fuel inodeBitmap sb.totalInodes.toNat (sb.inodeBitmap.count * kBlockSize * 8)
  let blockTail ← summarizeClearBitsRun fuel blockBitmap sb.totalBlocks.toNat (sb.blockBitmap.count * kBlockSize * 8)
  return reportBitmaps sb d r missing inodeTail blockTail

/-- The enumeration of the allocated inodes. -/
def startRun (report : ConsistencyReport) : Option Scan :=
  forUpTo 32 (fun s n => if inodeBitRun sb d n then s.enqueuePhysicalScan n else s) sb.totalInodes.toNat fuel 1
    ((blank report).enqueuePhysicalScan sb.rootInode.toNat)

/-- The walk through the records of a directory block; `stopped` after the `break`. -/
structure RecordWalk where
  offset : ℕ
  scan : Scan
  complete : Bool
  stopped : Bool

def recordStep (n physical : ℕ) (w : RecordWalk) : RecordWalk :=
  let failed (detail : String) : RecordWalk :=
    { w with scan := (w.scan.addIssue .kDirectoryRecordUndecodable n physical 0 detail).markPartial
             complete := false, stopped := true }
  match decodeDirectoryEntry (d physical) w.offset with
  | .error detail => failed detail
  | .ok entry =>
    if entry.recordLength.toNat = 0 then failed ""
    else { w with offset := w.offset + entry.recordLength.toNat, scan := scanEntry sb d n physical w.scan entry }

def scanBlockRun (n : ℕ) (s : Scan × Bool) (mapped : Option ℕ) : Option (Scan × Bool) :=
  match mapped with
  | none => some (s.1.markPartial, false)
  | some physical =>
    (whileLoop (fun w : RecordWalk => decide (w.offset < kBlockSize) && !w.stopped)
      (fun w => some (recordStep sb d n physical w)) fuel ⟨0, s.1, s.2, false⟩).map fun w => (w.scan, w.complete)

def scanDirectoryRun (n : ℕ) (v : InodeRecord) (s : Scan) : Option Scan :=
  if v.size.toNat % kBlockSize ≠ 0 then
    some ((s.addIssue .kDirectoryRecordUndecodable n 0 0
      "目录大小不是完整块大小的整数倍").markPartial.setComplete n false)
  else
    let mapping := (s.inodeLogicalBlocks n).getD []
    if s.inodeLogicalBlocks n = none ∨ mapping.length ≠ v.size.toNat / kBlockSize then
      some ((s.addIssue .kDirectoryRecordUndecodable n 0 0
        "无法取得完整的目录逻辑块映射证据").markPartial.setComplete n false)
    else (mapping.foldlM (scanBlockRun sb d fuel n) (s, true)).map fun x => x.1.setComplete n x.2

def scanInodeRun (n : ℕ) (s : Scan) : Option Scan :=
  match decodeInode (inodeSlot sb d n) n with
  | .error detail => some (scanUndecodable sb n detail s)
  | .ok v =>
    let s := scanMapping sb d n v (recordInode sb d n v s)
    if S_ISDIR v.mode then scanDirectoryRun sb d fuel n v s else some s

/-- One inode from the queue. -/
def scanQueueStep (s : Scan) : Option Scan :=
  match s.physicalScanQueue with
  | [] => some s
  | n :: rest =>
    let s' := { s with physicalScanQueue := rest }
    if n ∈ s.attemptedInodes then some s'
    else scanInodeRun sb d fuel n { s' with attemptedInodes := insert n s.attemptedInodes }

def scanQueueRun (s : Scan) : Option Scan :=
  whileLoop (fun s : Scan => !s.physicalScanQueue.isEmpty) (scanQueueStep sb d fuel) fuel s

/-- The allocated data blocks without a reference. -/
def unreferencedBlocksRun (s : Scan) : Option (List ℕ) :=
  forBelow 32 (fun l b => if sb.blockBit d b && (s.firstBlockReferences b).isNone then l ++ [b] else l)
    sb.totalBlocks.toNat fuel sb.data.start []

def checkBlocksRun (s : Scan) (r : ConsistencyReport) : Option ConsistencyReport :=
  let r := { r with blockReferenceScanComplete := s.blockReferenceScanComplete }
  if r.blockReferenceScanComplete then (unreferencedBlocksRun sb d fuel s).map (reportUnreferenced · r) else some r

/-- The search for cycles from one directory. -/
def exploreRun (edges : List (ℕ × ℕ)) (node : ℕ → Bool)
    (s : (ℕ → Search.Colour) × List (ℕ × ℕ)) (a : ℕ) :
    Option ((ℕ → Search.Colour) × List (ℕ × ℕ)) :=
  if s.1 a = .unseen then
    (whileLoop (fun x : (ℕ → Search.Colour) × List (ℕ × ℕ) × List (ℕ × ℕ) => !x.2.1.isEmpty)
      (fun x => some (exploreStep edges node x)) fuel (update s.1 a .active, [(a, 0)], s.2)).map
        fun x => (x.1, x.2.2)
  else some s

def checkCyclesRun (s : Scan) (r : ConsistencyReport) : Option ConsistencyReport :=
  ((starts s).foldlM (exploreRun fuel (edges r) (isDecodedDirectory s)) (fun _ => .unseen, [])).map fun x =>
    { r with issues := r.issues ++ x.2.map cycleIssue }

/-- The walk from the root. -/
def rootReachableRun (s : Scan) (r : ConsistencyReport) : Option (List ℕ) :=
  (whileLoop (fun x : Finset ℕ × List ℕ × List ℕ => !x.2.1.isEmpty)
    (fun x => some (reachStep ((edges r).filter fun e => isDecodedDirectory s e.1) x)) fuel
    ({sb.rootInode.toNat}, [sb.rootInode.toNat], [])).map fun x => x.2.2

/-- The enumeration of the unreachable inodes. -/
def checkReachabilityRun (s : Scan) (r : ConsistencyReport) (reached : List ℕ) : Option ConsistencyReport :=
  let r := { r with rootReachabilityComplete := decodedOnTheWay sb s reached }
  if r.rootReachabilityComplete then
    (forUpTo 32 (fun (issues : List CheckIssue) n =>
        if n ≠ sb.rootInode.toNat ∧ inodeBitRun sb d n ∧ n ∉ reached then issues ++ [unreachableIssue n]
        else issues) sb.totalInodes.toNat fuel 1 r.issues).map fun issues => { r with issues := issues }
  else some r

def finishRun (s : Scan) : Option ConsistencyReport := do
  let r ← checkBlocksRun sb d fuel s s.report
  let r := checkTypes s (checkLinkCounts sb s (checkRootReferences sb s r))
  let r ← checkCyclesRun fuel s r
  let r := checkHardLinks s r
  let reached ← rootReachableRun sb fuel s r
  let r ← checkReachabilityRun sb d fuel s r reached
  return withTables s reached (checkLedger sb d s r)

def checkCleanRun (r : ConsistencyReport) : Option ConsistencyReport := do
  let r ← checkBitmapGeometryRun sb d fuel r
  let s ← startRun sb d fuel r
  let s ← scanQueueRun sb d fuel s
  finishRun sb d fuel s

/-! ## Loops that end -/

variable {sb d fuel}

theorem foldl_clearBits (bm : Bitmap) : ∀ (l : List ℕ) (x : ℕ × ℕ), (∀ k ∈ l, k < 2 ^ 32) →
    l.foldl (fun (x : ℕ × ℕ) bit => if bm.testBit (bit % 2 ^ 32) then x
    else (if x.2 = 0 then bit else x.1, x.2 + 1)) x = match l.filter fun k => !bm.testBit k with
      | [] => x
      | k :: rest => (if x.2 = 0 then k else x.1, x.2 + (rest.length + 1))
  | [], x, _ => rfl
  | k :: l, x, hl => by
    have hk : k % 2 ^ 32 = k := Nat.mod_eq_of_lt (hl k List.mem_cons_self)
    rw [List.foldl_cons, hk, foldl_clearBits bm l _ fun j hj => hl j (List.mem_cons_of_mem _ hj)]
    by_cases hb : bm.testBit k = true
    · rw [if_pos hb, List.filter_cons_of_neg (by simp [hb])]
    · rw [if_neg hb, List.filter_cons_of_pos (by simp [hb])]
      cases l.filter fun k => !bm.testBit k with
      | nil => simp
      | cons j rest =>
        simp only [Nat.succ_ne_zero, if_false, List.length_cons, Prod.mk.injEq, true_and]
        omega

theorem summarizeClearBitsRun_eq (bm : Bitmap) {first stop : ℕ} (hstop : stop ≤ 2 ^ 32) (hfuel : stop ≤ fuel) :
    summarizeClearBitsRun fuel bm first stop = some (summarizeClearBits bm first stop) := by
  rw [summarizeClearBitsRun, forBelow_eq (hstop.trans_lt (by decide)) (by omega), Option.map_some,
    foldl_clearBits bm _ _ fun k hk => ?_, summarizeClearBits, filter_range_ge]
  · cases (List.range' first (stop - first)).filter fun k => !bm.testBit k with
    | nil => rfl
    | cons k rest => simp
  · have := List.mem_range'_1.mp hk
    omega

theorem bitmapBits_le (hr : sb.Regions) :
    sb.inodeBitmap.count * kBlockSize * 8 ≤ 2 ^ 32 ∧ sb.blockBitmap.count * kBlockSize * 8 ≤ 2 ^ 32 := by
  have h1 := sb.totalInodes.toNat_lt
  have h2 := sb.totalBlocks.toNat_lt
  rw [hr.inodeBitmap_count, hr.blockBitmap_count]
  show (sb.totalInodes.toNat + 4096 * 8 - 1) / (4096 * 8) * 4096 * 8 ≤ 2 ^ 32 ∧
    (sb.totalBlocks.toNat + 4096 * 8 - 1) / (4096 * 8) * 4096 * 8 ≤ 2 ^ 32
  omega

theorem halts_checkBitmapGeometryRun (hr : sb.Regions) (r : ConsistencyReport) :
    Halts (fun fuel => checkBitmapGeometryRun sb d fuel r) (checkBitmapGeometry sb d r) := by
  obtain ⟨h1, h2⟩ := bitmapBits_le hr
  obtain ⟨-, -, -, -, -, -, -, h8⟩ := hr.chain
  have htotal := sb.totalBlocks.toNat_lt
  refine halts_of_le fun fuel (hfuel : 2 ^ 32 ≤ fuel) => ?_
  unfold checkBitmapGeometryRun checkBitmapGeometry
  dsimp only
  rw [summarizeClearBitsRun_eq _ (by omega) (by omega), summarizeClearBitsRun_eq _ h1 (h1.trans hfuel),
    summarizeClearBitsRun_eq _ h2 (h2.trans hfuel)]
  rfl

theorem inodeBitRun_eq (h1 : 1 ≤ n) (h2 : n < 2 ^ 32) : inodeBitRun sb d n = sb.inodeBit d n := by
  have hbit : (n + (2 ^ 32 - 1)) % 2 ^ 32 = n - 1 := by omega
  rw [inodeBitRun, hbit]
  rfl

/-- A fold of the enumeration over the numbers of the inodes. -/
theorem range'_one (n : ℕ) : List.range' 1 n = (List.range n).map (· + 1) := by
  rw [List.range'_eq_map_range]
  exact List.map_congr_left fun k _ => Nat.add_comm 1 k

theorem halts_startRun (h : sb.totalInodes.toNat + 1 < 2 ^ 32) (r : ConsistencyReport) :
    Halts (fun fuel => startRun sb d fuel r) (start sb d r) := by
  refine halts_of_le fun fuel (hfuel : sb.totalInodes.toNat ≤ fuel) => ?_
  rw [startRun, forUpTo_eq h (by omega), Nat.add_sub_cancel, range'_one]
  refine congrArg some (List.foldl_ext _ _ _ fun s n hn => ?_)
  obtain ⟨k, hk, rfl⟩ := List.mem_map.mp hn
  rw [inodeBitRun_eq (by omega) (by have := List.mem_range.mp hk; omega)]

/-- With the largest number of inodes the enumeration does not end. -/
theorem startRun_eq_none (h : sb.totalInodes.toNat + 1 = 2 ^ 32) (r : ConsistencyReport) :
    startRun sb d fuel r = none :=
  forUpTo_eq_none h (by omega)

/-- The rest of a directory block. -/
def scanRest (sb : Superblock) (d : Image) (n physical : ℕ) (w : RecordWalk) : Scan × Bool :=
  if w.stopped then (w.scan, w.complete)
  else
    let records := blockRecords "" (d physical) w.offset
    let scan := (records.1.map Prod.snd).foldl (scanEntry sb d n physical) w.scan
    match records.2 with
    | some detail => ((scan.addIssue .kDirectoryRecordUndecodable n physical 0 detail).markPartial, false)
    | none => (scan, w.complete)

/-- Each record takes the walk on, and a record that does not decode ends it. -/
theorem recordStep_spec {physical : ℕ} {w : RecordWalk} (hoff : w.offset < kBlockSize) (hs : w.stopped = false) :
    (if (recordStep sb d n physical w).stopped then 0 else kBlockSize - (recordStep sb d n physical w).offset) <
      (if w.stopped then 0 else kBlockSize - w.offset) ∧
    scanRest sb d n physical (recordStep sb d n physical w) = scanRest sb d n physical w := by
  have hpos : 0 < kBlockSize - w.offset := Nat.sub_pos_of_lt hoff
  cases hd : decodeDirectoryEntry (d physical) w.offset with
  | error detail =>
    refine ⟨by simpa [recordStep, hd, hs] using hoff, ?_⟩
    simp only [scanRest, recordStep, hd, hs, blockRecords_of_error hoff hd]
    rfl
  | ok e =>
    have hlen : e.recordLength.toNat ≠ 0 := by
      have := (decodeDirectoryEntry_valid hd).length
      omega
    refine ⟨?_, ?_⟩
    · simp only [recordStep, hd, if_neg hlen, hs]
      show kBlockSize - (w.offset + e.recordLength.toNat) < kBlockSize - w.offset
      omega
    · simp only [scanRest, recordStep, hd, if_neg hlen, hs, blockRecords_of_ok hoff hd, List.map_cons, List.foldl_cons,
        Bool.false_eq_true, if_false]

theorem scanBlockRun_eq (hfuel : kBlockSize ≤ fuel) (n : ℕ) (s : Scan × Bool) (mapped : Option ℕ) :
    scanBlockRun sb d fuel n s mapped = some (scanBlock sb d n s mapped) := by
  cases mapped with
  | none => rfl
  | some physical =>
    refine map_whileLoop (fun w => if w.stopped then 0 else kBlockSize - w.offset) (fun w => (w.scan, w.complete))
      (scanRest sb d n physical) (fun w hw => ?_) (fun w hw => ?_) fuel ⟨0, s.1, s.2, false⟩ hfuel
    · cases hs : w.stopped with
      | true => simp [scanRest, hs]
      | false =>
        have hoff : kBlockSize ≤ w.offset := by simpa [hs] using hw
        simp [scanRest, hs, blockRecords_of_ge hoff]
    · rw [Bool.and_eq_true, decide_eq_true_eq, Bool.not_eq_true'] at hw
      exact ⟨_, rfl, recordStep_spec hw.1 hw.2⟩

theorem scanDirectoryRun_eq (hfuel : kBlockSize ≤ fuel) (n : ℕ) (v : InodeRecord) (s : Scan) :
    scanDirectoryRun sb d fuel n v s = some (scanDirectory sb d n v s) := by
  have hfold : ∀ (l : List (Option ℕ)) (s : Scan × Bool),
      l.foldlM (scanBlockRun sb d fuel n) s = some (l.foldl (scanBlock sb d n) s) := by
    intro l
    induction l with
    | nil => exact fun s => rfl
    | cons x l ih =>
      intro s
      rw [List.foldlM_cons, scanBlockRun_eq hfuel, List.foldl_cons]
      exact ih _
  unfold scanDirectoryRun scanDirectory
  dsimp only
  split_ifs
  · rfl
  · rfl
  · rw [hfold, Option.map_some]

theorem scanInodeRun_eq (hfuel : kBlockSize ≤ fuel) (n : ℕ) (s : Scan) :
    scanInodeRun sb d fuel n s = some (scanInode sb d n s) := by
  unfold scanInodeRun scanInode
  cases decodeInode (inodeSlot sb d n) n with
  | error detail => rfl
  | ok v =>
    dsimp only
    split_ifs
    · exact scanDirectoryRun_eq hfuel n v _
    · rfl

theorem halts_scanQueueRun (s : Scan) : Halts (fun fuel => scanQueueRun sb d fuel s) (scanQueue sb d s) := by
  refine halts_of_le fun fuel (hfuel : max kBlockSize (s.pending sb) ≤ fuel) => ?_
  have hblock : kBlockSize ≤ fuel := (le_max_left _ _).trans hfuel
  have h : (scanQueueRun sb d fuel s).map id = some (scanQueue sb d s) := map_whileLoop (pending sb) id (scanQueue sb d)
    (fun s hs => ?_) (fun s hs => ?_) fuel s ((le_max_right _ _).trans hfuel)
  · rwa [Option.map_id] at h
  · exact (scanQueue_nil sb d (by simpa using hs)).symm
  · cases hq : s.physicalScanQueue with
    | nil => simp [hq] at hs
    | cons n rest =>
      by_cases hn : n ∈ s.attemptedInodes
      · refine ⟨{ s with physicalScanQueue := rest }, by simp [scanQueueStep, hq,
          hn], ?_, (scanQueue_seen sb d hq hn).symm⟩
        simp only [pending, hq, List.length_cons]
        omega
      · refine ⟨_, ?_, ?_, (scanQueue_cons sb d hq hn).symm⟩
        · simp only [scanQueueStep, hq, if_neg hn]
          exact scanInodeRun_eq hblock n _
        · rw [pending_scanInode]
          simp only [pending, hq, List.length_cons]
          omega

theorem foldl_collect (p : ℕ → Bool) : ∀ (l acc : List ℕ),
    l.foldl (fun acc b => if p b then acc ++ [b] else acc) acc = acc ++ l.filter p
  | [], acc => (List.append_nil acc).symm
  | b :: l, acc => by
    rw [List.foldl_cons, foldl_collect p l]
    by_cases hb : p b = true
    · rw [if_pos hb, List.filter_cons_of_pos hb, List.append_assoc, List.singleton_append]
    · rw [if_neg hb, List.filter_cons_of_neg hb]

theorem halts_checkBlocksRun (s : Scan) (r : ConsistencyReport) :
    Halts (fun fuel => checkBlocksRun sb d fuel s r) (checkBlocks sb d s r) := by
  refine halts_of_le fun fuel (hfuel : sb.totalBlocks.toNat ≤ fuel) => ?_
  have hrun : unreferencedBlocksRun sb d fuel s = some (unreferencedBlocks sb d s) := by
    have hlist := filter_range_ge (fun b => sb.blockBit d b && (s.firstBlockReferences b).isNone) sb.data.start
      sb.totalBlocks.toNat
    rw [unreferencedBlocksRun, forBelow_eq sb.totalBlocks.toNat_lt (by omega), foldl_collect,
      List.nil_append, ← hlist, unreferencedBlocks]
    simp only [Bool.and_assoc]
  unfold checkBlocksRun checkBlocks
  dsimp only
  split_ifs
  · rw [hrun, Option.map_some]
  · rfl

theorem halts_checkCyclesRun (s : Scan) (r : ConsistencyReport) :
    Halts (fun fuel => checkCyclesRun fuel s r) (checkCycles s r) := by
  have hone : ∀ (x : (ℕ → Search.Colour) × List (ℕ × ℕ)) (a : ℕ),
      Halts (fun fuel => exploreRun fuel (edges r) (isDecodedDirectory s) x a) (if x.1 a = .unseen then
        explore (edges r) (isDecodedDirectory s) (update x.1 a .active) [(a, 0)] x.2 else x) := by
    intro x a
    unfold exploreRun
    split_ifs
    · refine halts_whileLoop (fun y => work (edges r) y.1 y.2.1) (fun y => (y.1, y.2.2))
        (fun y => explore (edges r) (isDecodedDirectory s) y.1 y.2.1 y.2.2) (fun y hy => ?_) (fun y hy => ?_)
        (update x.1 a .active, [(a, 0)], x.2)
      · obtain ⟨colour, frames, back⟩ := y
        obtain rfl : frames = [] := by simpa using hy
        exact (explore_nil _ _ _).symm
      · obtain ⟨colour, frames, back⟩ := y
        cases frames with
        | nil => simp at hy
        | cons f rest => exact ⟨_, rfl, exploreStep_spec (isDecodedDirectory s) colour f rest back⟩
    · exact halts_some x
  exact (halts_foldlM hone (starts s) (fun _ => .unseen, [])).map _

theorem halts_rootReachableRun (s : Scan) (r : ConsistencyReport) :
    Halts (fun fuel => rootReachableRun sb fuel s r) (rootReachable sb s r) := by
  refine halts_whileLoop (fun x => (targets ((edges r).filter fun e => isDecodedDirectory s e.1) \ x.1).card +
    x.2.1.length) (fun x => x.2.2)
    (fun x => x.2.2 ++ reach ((edges r).filter fun e => isDecodedDirectory s e.1) x.1 x.2.1) (fun x hx => ?_)
    (fun x hx => ?_) ({sb.rootInode.toNat}, [sb.rootInode.toNat], [])
  · obtain ⟨reached, queue, visited⟩ := x
    obtain rfl : queue = [] := by simpa using hx
    simp [reach_nil]
  · obtain ⟨reached, queue, visited⟩ := x
    cases queue with
    | nil => simp at hx
    | cons a rest => exact ⟨_, rfl, reachStep_spec reached a rest visited⟩

theorem foldl_report {p : ℕ → Prop} [DecidablePred p] {q : ℕ → Option CheckIssue} {g : ℕ → CheckIssue} :
    ∀ (l : List ℕ) (issues : List CheckIssue), (∀ n ∈ l, q n = if p n then some (g n) else none) →
      l.foldl (fun issues n => if p n then issues ++ [g n] else issues) issues = issues ++ l.filterMap q
  | [], issues, _ => (List.append_nil issues).symm
  | n :: l, issues, h => by
    have hn := h n List.mem_cons_self
    rw [List.foldl_cons, foldl_report l _ fun m hm => h m (List.mem_cons_of_mem _ hm)]
    by_cases hp : p n
    · rw [if_pos hp, List.filterMap_cons_some (hn.trans (if_pos hp)), List.append_assoc, List.singleton_append]
    · rw [if_neg hp, List.filterMap_cons_none (hn.trans (if_neg hp))]

theorem halts_checkReachabilityRun (h : sb.totalInodes.toNat + 1 < 2 ^ 32) (s : Scan) (r : ConsistencyReport) :
    Halts (fun fuel => checkReachabilityRun sb d fuel s r (rootReachable sb s r)) (checkReachability sb d s r) := by
  refine halts_of_le fun fuel (hfuel : sb.totalInodes.toNat ≤ fuel) => ?_
  show (if rootReachabilityComplete sb s r = true then _ else _) = _
  unfold checkReachability
  dsimp only
  split_ifs with hc
  · rw [forUpTo_eq h (by omega), Nat.add_sub_cancel, range'_one, Option.map_some, foldl_report _ _ fun n hn => ?_]
    · rfl
    · obtain ⟨k, hk, rfl⟩ := List.mem_map.mp hn
      rw [inodeBitRun_eq (by omega) (by have := List.mem_range.mp hk; omega)]
      rfl
  · rfl

theorem halts_finishRun (h : sb.totalInodes.toNat + 1 < 2 ^ 32) (s : Scan) :
    Halts (fun fuel => finishRun sb d fuel s) (finish sb d s) := by
  -- the walk from the root sees the entries of the final report
  have hreach : ∀ r, rootReachable sb s (checkLedger sb d s (checkReachability sb d s r)) = rootReachable sb s r :=
    fun r => (rootReachabilityComplete_congr sb s
      (congrArg Prod.fst ((graph_checkLedger sb d s _).trans (graph_checkReachability sb d s r)))).2
  unfold finishRun
  refine (halts_checkBlocksRun s s.report).bind ?_
  refine (halts_checkCyclesRun s _).bind ?_
  refine (halts_rootReachableRun s _).bind ?_
  refine (halts_checkReachabilityRun h s _).bind ?_
  unfold finish
  dsimp only
  rw [hreach]
  exact halts_some _

theorem halts_checkCleanRun (hr : sb.Regions) (h : sb.totalInodes.toNat + 1 < 2 ^ 32) (r : ConsistencyReport) :
    Halts (fun fuel => checkCleanRun sb d fuel r) (checkClean sb d r) := by
  unfold checkCleanRun
  refine (halts_checkBitmapGeometryRun hr r).bind ?_
  refine (halts_startRun h _).bind ?_
  exact (halts_scanQueueRun _).bind (halts_finishRun h _)

theorem checkCleanRun_eq_none (h : sb.totalInodes.toNat + 1 = 2 ^ 32) (r : ConsistencyReport) :
    checkCleanRun sb d fuel r = none := by
  unfold checkCleanRun
  cases checkBitmapGeometryRun sb d fuel r with
  | none => rfl
  | some r' =>
    show (startRun sb d fuel r').bind _ = none
    rw [startRun_eq_none h, Option.bind_none]

end Scan

/-! ## The whole check -/

/-- `checkImage` with a bound on every loop. -/
def checkImageRun (fuel n : ℕ) (d : Image) : Option (Except Failure ConsistencyReport) :=
  match openForCheck n d with
  | .error f => some (.error f)
  | .ok (sb, true) => some (.ok (recoveryRequired sb))
  | .ok (sb, false) => (Scan.checkCleanRun sb d fuel (initialReport sb)).map .ok

/-- The check comes to the enumeration of the inodes, and their number is the largest of its type. -/
def Endless (n : ℕ) (d : Image) : Prop :=
  ∃ sb c copy, Opens n d sb c copy ∧ c.usedBlocks = 0 ∧ sb.totalInodes.toNat = 2 ^ 32 - 1

/-- All loops of the check end, with the report of `checkImage`, unless the number of inodes is the largest there is. -/
theorem halts_checkImageRun (h : ¬ Endless n d) :
    Halts (fun fuel => checkImageRun fuel n d) (checkImage n d) := by
  unfold checkImageRun checkImage
  cases hopen : openForCheck n d with
  | error f => exact halts_some _
  | ok x =>
    obtain ⟨sb, used⟩ := x
    cases used with
    | true => exact halts_some _
    | false =>
      obtain ⟨c, copy, ho, hused⟩ := openForCheck_eq_ok.mp hopen
      have hne : sb.totalInodes.toNat ≠ 2 ^ 32 - 1 := fun hc => h ⟨sb, c, copy, ho, by simpa using hused, hc⟩
      have hlt := sb.totalInodes.toNat_lt
      exact (Scan.halts_checkCleanRun ho.regions (by omega) (initialReport sb)).map Except.ok

theorem checkImageRun_eq_none (h : Endless n d) (fuel : ℕ) : checkImageRun fuel n d = none := by
  obtain ⟨sb, c, copy, ho, hc, hmax⟩ := h
  have hopen : openForCheck n d = .ok (sb, false) := openForCheck_eq_ok.mpr ⟨c, copy, ho, by simp [hc]⟩
  rw [checkImageRun, hopen]
  dsimp only
  rw [Scan.checkCleanRun_eq_none (by omega), Option.map_none]

/-- Below the largest number of inodes the check returns, and it decides whether the metadata of an image agree. -/
theorem checkImage_decides {sb : Superblock} {c : JournalControl} {copy : ControlCopy} (h : Opens n d sb c copy)
    (hclean : c.usedBlocks = 0) (hinodes : sb.totalInodes.toNat < 2 ^ 32 - 1) :
    ∃ report, Halts (fun fuel => checkImageRun fuel n d) (.ok report) ∧ checkImage n d = .ok report ∧
      (classifyReport report = .kHealthy ↔ sb.Consistent d) := by
  have hcheck := checkImage_of_clean h hclean
  refine ⟨_, hcheck ▸ halts_checkImageRun ?_, hcheck, checkClean_healthy_iff h.regions⟩
  rintro ⟨sb', c', copy', h', -, hmax⟩
  obtain rfl := Except.ok.inj (h.superblock.symm.trans h'.superblock)
  omega

theorem checkImage_decides_ledgerImage :
    ∃ report, Halts (fun fuel => checkImageRun fuel 32 ledgerImage) (.ok report) ∧
      classifyReport report = .kHealthy := by
  obtain ⟨report, hrun, -, hiff⟩ := checkImage_decides (ledgerImage_formatted.opens ledgerLayout) rfl (by decide)
  exact ⟨report, hrun, hiff.mpr (ledgerImage_formatted.consistent ledgerLayout)⟩

/-- The check terminates exactly on the images on which it does not enumerate 2^32 - 1 inodes. -/
theorem checkImage_terminates_iff (n : ℕ) (d : Image) : (∃ fuel, (checkImageRun fuel n d).isSome) ↔
    ¬ ∃ sb c copy, Opens n d sb c copy ∧ c.usedBlocks = 0 ∧ sb.totalInodes.toNat = 2 ^ 32 - 1 := by
  constructor
  · rintro ⟨fuel, hrun⟩ hend
    rw [checkImageRun_eq_none hend] at hrun
    cases hrun
  · exact fun h => (halts_checkImageRun h).exists_isSome

/-- 512 GiB with as many inodes as the field holds. -/
def vastOptions : MkfsOptions := ⟨"eufs.img", 550326239232, 4294967295, 6, 0, false⟩

def vastSuperblock : Superblock :=
  formattedSuperblock ⟨134356992, 4294967295, 1, ⟨1, 131072⟩, ⟨131073, 4101⟩, ⟨135174, 134217728⟩,
    ⟨134352902, 6⟩, ⟨134352908, 4084⟩, 0, 0, 0, Bytes.zero 16, 0⟩ sampleHost 0

theorem vastLayout : Layout vastOptions vastSuperblock sampleLedger :=
  (@formatLayout_ok vastOptions _ _ (by rfl)).identity sampleHost 0

/-- The image that formatting gives. -/
def vastImage : Image :=
  formattedImage vastSuperblock sampleLedger (plainBytes vastSuperblock sampleLedger sampleHost)
    ((encodeSuperblock vastSuperblock).toOption.getD (Bytes.zero _)) fun _ => Bytes.zero _

theorem vastImage_formatted : Formatted vastSuperblock sampleLedger sampleHost (fun _ => Bytes.zero _) vastImage :=
  plain_formatted vastLayout (by decide) sampleHost _

/-- The check of a formatted image of that size never returns. -/
theorem checkImage_vast_endless : decodeSuperblock (vastImage 0) = .ok vastSuperblock ∧
    ∀ fuel, checkImageRun fuel 134356992 vastImage = none :=
  have hopen := vastImage_formatted.opens vastLayout
  ⟨hopen.superblock, checkImageRun_eq_none ⟨vastSuperblock, _, _, hopen, rfl, rfl⟩⟩

end Eufs
