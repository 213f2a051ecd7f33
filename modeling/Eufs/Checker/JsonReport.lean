import Eufs.Base.Json
import Eufs.Base.Utf8
import Eufs.Checker.Report

/-!
# Eufs.Checker.JsonReport — the machine-readable report

`formatJsonReport` writes the report byte by byte, without a JSON library.  Strings are escaped byte by byte; bytes from
128 on are copied.  The image path and the names in the details come from outside and can be any bytes, so the output is
a JSON text exactly when they are UTF-8; it then holds the strings of the report (`formatJsonReport_text_iff`).
-/

namespace Eufs

variable {issues : List CheckIssue} {details : List (List Char)} {r : ConsistencyReport}
  {value output : List UInt8}

/-- The bytes of a text in the source. -/
def text (s : String) : List UInt8 := Utf8.encode s.toList

/-- How an output stream writes a number. -/
def decimal (n : ℕ) : List UInt8 := Utf8.encode (Nat.toDigits 10 n)

/-! ## Names and messages -/

def scanStatusName : ScanStatus → String
  | .kComplete => "complete"
  | .kPartial => "partial"
  | .kAborted => "aborted"

def checkVerdictName : CheckVerdict → String
  | .kHealthy => "healthy"
  | .kInconsistent => "inconsistent"
  | .kIncomplete => "incomplete"

def issueCodeName : IssueCode → String
  | .kJournalRecoveryRequired => "JOURNAL_RECOVERY_REQUIRED"
  | .kMetadataBlockMarkedFree => "METADATA_BLOCK_MARKED_FREE"
  | .kInodeBitmapTailNotReserved => "INODE_BITMAP_TAIL_NOT_RESERVED"
  | .kBlockBitmapTailNotReserved => "BLOCK_BITMAP_TAIL_NOT_RESERVED"
  | .kRootInodeMarkedFree => "ROOT_INODE_MARKED_FREE"
  | .kRootInodeUndecodable => "ROOT_INODE_UNDECODABLE"
  | .kRootInodeNotDirectory => "ROOT_INODE_NOT_DIRECTORY"
  | .kDirectoryBlockOutOfRange => "DIRECTORY_BLOCK_OUT_OF_RANGE"
  | .kDirectoryBlockMarkedFree => "DIRECTORY_BLOCK_MARKED_FREE"
  | .kDirectoryRecordUndecodable => "DIRECTORY_RECORD_UNDECODABLE"
  | .kDentryTargetOutOfRange => "DENTRY_TARGET_OUT_OF_RANGE"
  | .kDentryTargetInodeMarkedFree => "DENTRY_TARGET_INODE_MARKED_FREE"
  | .kDentryTargetInodeUndecodable => "DENTRY_TARGET_INODE_UNDECODABLE"
  | .kAllocatedInodeUndecodable => "ALLOCATED_INODE_UNDECODABLE"
  | .kInodeUnreachable => "INODE_UNREACHABLE"
  | .kDirectoryCycle => "DIRECTORY_CYCLE"
  | .kDirectoryHardLink => "DIRECTORY_HARD_LINK"
  | .kDentryTypeMismatch => "DENTRY_TYPE_MISMATCH"
  | .kDuplicateDentryName => "DUPLICATE_DENTRY_NAME"
  | .kReferencedBlockOutOfRange => "REFERENCED_BLOCK_OUT_OF_RANGE"
  | .kReferencedBlockMarkedFree => "REFERENCED_BLOCK_MARKED_FREE"
  | .kMissingRequiredBlock => "MISSING_REQUIRED_BLOCK"
  | .kBlockPointerBeyondEnd => "BLOCK_POINTER_BEYOND_END"
  | .kDuplicateBlockReference => "DUPLICATE_BLOCK_REFERENCE"
  | .kAllocatedDataBlockUnreferenced => "ALLOCATED_DATA_BLOCK_UNREFERENCED"
  | .kInodeLinkCountMismatch => "INODE_LINK_COUNT_MISMATCH"
  | .kRegularFileHardLink => "REGULAR_FILE_HARD_LINK"
  | .kRootDirectoryReferenced => "ROOT_DIRECTORY_REFERENCED"
  | .kRequestLedgerIdentityInvalid => "REQUEST_LEDGER_IDENTITY_INVALID"
  | .kRequestLedgerGeometryInvalid => "REQUEST_LEDGER_GEOMETRY_INVALID"
  | .kRequestLedgerBlockUnavailable => "REQUEST_LEDGER_BLOCK_UNAVAILABLE"
  | .kRequestLedgerSlotCorrupt => "REQUEST_LEDGER_SLOT_CORRUPT"
  | .kRequestLedgerRecordAfterHole => "REQUEST_LEDGER_RECORD_AFTER_HOLE"
  | .kRequestLedgerDuplicateRequestId => "REQUEST_LEDGER_DUPLICATE_REQUEST_ID"

def issueChineseMessage : IssueCode → String
  | .kJournalRecoveryRequired => "日志中存在尚未清理的事务，必须先完成恢复"
  | .kMetadataBlockMarkedFree => "metadata 保留块在 block bitmap 中被标记为空闲"
  | .kInodeBitmapTailNotReserved => "inode bitmap 尾部包含可分配位"
  | .kBlockBitmapTailNotReserved => "block bitmap 尾部包含可分配位"
  | .kRootInodeMarkedFree => "根 inode 在 inode 位图中被标记为空闲"
  | .kRootInodeUndecodable => "根 inode 无法解码"
  | .kRootInodeNotDirectory => "根 inode 的实际类型不是目录"
  | .kDirectoryBlockOutOfRange => "目录数据块指针超出数据区"
  | .kDirectoryBlockMarkedFree => "目录引用的数据块在块位图中被标记为空闲"
  | .kDirectoryRecordUndecodable => "目录记录无法完整解析"
  | .kDentryTargetOutOfRange => "目录项指向 inode 表范围之外"
  | .kDentryTargetInodeMarkedFree => "目录项目标 inode 在位图中被标记为空闲"
  | .kDentryTargetInodeUndecodable => "目录项目标 inode 无法解码"
  | .kAllocatedInodeUndecodable => "位图声明已分配的 inode 无法解码"
  | .kInodeUnreachable => "已分配 inode 无法从根目录到达"
  | .kDirectoryCycle => "目录图中存在环"
  | .kDirectoryHardLink => "目录 inode 存在多个命名空间入口"
  | .kDentryTypeMismatch => "目录项类型与目标 inode 类型不一致"
  | .kDuplicateDentryName => "同一目录中存在重复的有效名称"
  | .kReferencedBlockOutOfRange => "inode 引用的数据块超出数据区"
  | .kReferencedBlockMarkedFree => "inode 引用的数据块在位图中被标记为空闲"
  | .kMissingRequiredBlock => "文件大小要求的数据块指针缺失"
  | .kBlockPointerBeyondEnd => "inode 在文件结尾之后仍保留块指针"
  | .kDuplicateBlockReference => "同一物理块被多个逻辑位置引用"
  | .kAllocatedDataBlockUnreferenced => "数据块已分配但没有任何 inode 引用"
  | .kInodeLinkCountMismatch => "inode 链接计数与命名空间证据不一致"
  | .kRegularFileHardLink => "普通文件存在 v1 不支持的硬链接"
  | .kRootDirectoryReferenced => "磁盘目录项非法指向根 inode"
  | .kRequestLedgerIdentityInvalid => "Request Ledger 的固定名称或 inode 身份不一致"
  | .kRequestLedgerGeometryInvalid => "Request Ledger 的文件类型、链接数或容量不合法"
  | .kRequestLedgerBlockUnavailable => "Request Ledger 的部分逻辑块无法读取"
  | .kRequestLedgerSlotCorrupt => "Request Ledger 槽位不是全零空槽或合法记录"
  | .kRequestLedgerRecordAfterHole => "Request Ledger 在空槽之后又出现合法记录"
  | .kRequestLedgerDuplicateRequestId => "Request Ledger 中出现重复 Request-ID"

/-! ## The formatter -/

/-- The digits of an escape by number. -/
def kHex : List UInt8 := text "0123456789abcdef"

/-- One byte of a string. -/
def appendJsonByte (x : UInt8) : List UInt8 :=
  if x = 34 then [92, 34]
  else if x = 92 then [92, 92]
  else if x = 8 then [92, 98]
  else if x = 12 then [92, 102]
  else if x = 10 then [92, 110]
  else if x = 13 then [92, 114]
  else if x = 9 then [92, 116]
  else if x < 0x20 then [92, 117, 48, 48, kHex.getD (x >>> 4).toNat 0, kHex.getD (x &&& 0x0f).toNat 0]
  else [x]

def appendJsonString (value : List UInt8) : List UInt8 := 34 :: (value.flatMap appendJsonByte ++ [34])

def appendJsonBool (b : Bool) : List UInt8 := text (if b then "true" else "false")

/-- The detail of an issue as it is stored. -/
def CheckIssue.detailBytes (issue : CheckIssue) : List UInt8 := text issue.detail ++ issue.detailName

/-- A name with its colon. -/
def jsonKey (key : String) : List UInt8 := text ("\"" ++ key ++ "\":")

def formatJsonIssue (issue : CheckIssue) : List UInt8 :=
  text "\x7b" ++ jsonKey "code" ++ appendJsonString (text (issueCodeName issue.code)) ++
  text "," ++ jsonKey "message" ++ appendJsonString (text (issueChineseMessage issue.code)) ++
  text "," ++ jsonKey "inode" ++ decimal issue.inodeNumber ++
  text "," ++ jsonKey "block" ++ decimal issue.blockNumber ++
  text "," ++ jsonKey "related_inode" ++ decimal issue.relatedInodeNumber ++
  text "," ++ jsonKey "first_bitmap_bit" ++ decimal issue.firstBitmapBit ++
  text "," ++ jsonKey "occurrences" ++ decimal issue.occurrenceCount ++
  text "," ++ jsonKey "ledger_slot" ++ decimal issue.ledgerSlot ++
  text "," ++ jsonKey "detail" ++ appendJsonString issue.detailBytes ++ text "\x7d"

/-- The loop over the issues from number `index` on. -/
def formatJsonIssues : ℕ → List CheckIssue → List UInt8
  | _, [] => []
  | index, issue :: issues =>
    (if index ≠ 0 then text "," else []) ++ formatJsonIssue issue ++ formatJsonIssues (index + 1) issues

def formatJsonEvidence (report : ConsistencyReport) : List UInt8 :=
  text "\x7b" ++ jsonKey "bitmap_geometry_scan_complete" ++ appendJsonBool report.bitmapGeometryScanComplete ++
  text "," ++ jsonKey "root_inode_decoded" ++ appendJsonBool report.rootInodeDecoded ++
  text "," ++ jsonKey "root_reachability_complete" ++ appendJsonBool report.rootReachabilityComplete ++
  text "," ++ jsonKey "block_reference_scan_complete" ++ appendJsonBool report.blockReferenceScanComplete ++
  text "," ++ jsonKey "inode_reference_scan_complete" ++ appendJsonBool report.inodeReferenceScanComplete ++
  text "," ++ jsonKey "request_ledger_feature_enabled" ++ appendJsonBool report.requestLedgerFeatureEnabled ++
  text "," ++ jsonKey "request_ledger_scan_complete" ++ appendJsonBool report.requestLedgerScanComplete ++ text "\x7d"

def formatJsonCounts (report : ConsistencyReport) : List UInt8 :=
  text "\x7b" ++ jsonKey "physical_scan_inodes" ++ decimal report.physicalScanInodeNumbers.length ++
  text "," ++ jsonKey "root_reachable_inodes" ++ decimal report.rootReachableInodeNumbers.length ++
  text "," ++ jsonKey "block_references" ++ decimal report.blockReferences.length ++
  text "," ++ jsonKey "request_ledger_capacity" ++ decimal report.requestLedgerCapacity ++
  text "," ++ jsonKey "request_ledger_slots_scanned" ++ decimal report.requestLedgerSlotsScanned ++
  text "," ++ jsonKey "request_ledger_valid_records" ++ decimal report.requestLedgerValidRecords ++
  text "," ++ jsonKey "request_ledger_empty_slots" ++ decimal report.requestLedgerEmptySlots ++
  text "," ++ jsonKey "issues" ++ decimal report.issues.length ++ text "\x7d"

/-- One line; the source writes the parts one after the other into a stream. -/
def formatJsonReport (imagePath : List UInt8) (report : ConsistencyReport) : List UInt8 :=
  text "\x7b" ++ jsonKey "schema_version" ++ text "1" ++
  text "," ++ jsonKey "image" ++ appendJsonString imagePath ++
  text "," ++ jsonKey "verdict" ++ appendJsonString (text (checkVerdictName (classifyReport report))) ++
  text "," ++ jsonKey "scan_status" ++ appendJsonString (text (scanStatusName report.status)) ++
  text "," ++ jsonKey "evidence" ++ formatJsonEvidence report ++
  text "," ++ jsonKey "counts" ++ formatJsonCounts report ++
  text "," ++ jsonKey "issues" ++ text "[" ++ formatJsonIssues 0 report.issues ++ text "]\x7d\n"

/-! ## The value that the report stands for -/

namespace ReportValue

def name (s : String) : Json := .string s.toList

def count (n : ℕ) : Json := .number (Nat.toDigits 10 n)

/-- An issue whose detail reads `detail`. -/
def issue (i : CheckIssue) (detail : List Char) : Json :=
  .object
    [("code".toList, name (issueCodeName i.code)), ("message".toList, name (issueChineseMessage i.code)),
      ("inode".toList, count i.inodeNumber), ("block".toList, count i.blockNumber),
      ("related_inode".toList, count i.relatedInodeNumber), ("first_bitmap_bit".toList, count i.firstBitmapBit),
      ("occurrences".toList, count i.occurrenceCount), ("ledger_slot".toList, count i.ledgerSlot),
      ("detail".toList, .string detail)]

def evidence (r : ConsistencyReport) : Json :=
  .object
    [("bitmap_geometry_scan_complete".toList, .bool r.bitmapGeometryScanComplete),
      ("root_inode_decoded".toList, .bool r.rootInodeDecoded),
      ("root_reachability_complete".toList, .bool r.rootReachabilityComplete),
      ("block_reference_scan_complete".toList, .bool r.blockReferenceScanComplete),
      ("inode_reference_scan_complete".toList, .bool r.inodeReferenceScanComplete),
      ("request_ledger_feature_enabled".toList, .bool r.requestLedgerFeatureEnabled),
      ("request_ledger_scan_complete".toList, .bool r.requestLedgerScanComplete)]

def counts (r : ConsistencyReport) : Json :=
  .object
    [("physical_scan_inodes".toList, count r.physicalScanInodeNumbers.length),
      ("root_reachable_inodes".toList, count r.rootReachableInodeNumbers.length),
      ("block_references".toList, count r.blockReferences.length),
      ("request_ledger_capacity".toList, count r.requestLedgerCapacity),
      ("request_ledger_slots_scanned".toList, count r.requestLedgerSlotsScanned),
      ("request_ledger_valid_records".toList, count r.requestLedgerValidRecords),
      ("request_ledger_empty_slots".toList, count r.requestLedgerEmptySlots), ("issues".toList, count r.issues.length)]

/-- The report of the image `path`, with the details of its issues. -/
def report (path : List Char) (r : ConsistencyReport) (details : List (List Char)) : Json :=
  .object
    [("schema_version".toList, count 1), ("image".toList, .string path),
      ("verdict".toList, name (checkVerdictName (classifyReport r))),
      ("scan_status".toList, name (scanStatusName r.status)), ("evidence".toList, evidence r),
      ("counts".toList, counts r), ("issues".toList, .array (r.issues.zipWith issue details))]

end ReportValue

/-! ## Strings -/

theorem appendJsonByte_ascii : ∀ n < 128,
    Utf8.encode (Json.escape (Char.ofNat n)) = appendJsonByte (UInt8.ofNat n) := by
  decide +kernel

theorem appendJsonByte_low : ∀ n < 128, appendJsonByte (UInt8.ofNat n) ≠ [] ∧
    ∀ y ∈ appendJsonByte (UInt8.ofNat n), Utf8.Ascii y := by
  decide +kernel

theorem appendJsonByte_rewriting : Utf8.Rewriting appendJsonByte where
  high x hx := by
    have hne : ∀ y : UInt8, Utf8.Ascii y → x ≠ y := fun y hy hxy => hx (hxy ▸ hy)
    have hlt : ¬ x < 0x20 := fun h => hx (Nat.lt_trans (UInt8.lt_iff_toNat_lt.mp h) (by decide))
    simp only [appendJsonByte, hne 34 (by decide), hne 92 (by decide), hne 8 (by decide), hne 12 (by decide),
      hne 10 (by decide), hne 13 (by decide), hne 9 (by decide), hlt, if_false]
  low x hx := by
    have h := appendJsonByte_low x.toNat hx
    rwa [UInt8.ofNat_toNat] at h

theorem escape_high {c : Char} (hc : 128 ≤ c.toNat) : Json.escape c = [c] := by
  have hne : ∀ d : Char, d.toNat < 128 → c ≠ d := fun d hd hcd => by
    rw [hcd] at hc
    omega
  have hlt : ¬ c.toNat < 0x20 := by omega
  simp only [Json.escape, hne _ (show '"'.toNat < 128 by decide), hne _ (show '\\'.toNat < 128 by decide),
    hne _ (show '\x08'.toNat < 128 by decide), hne _ (show '\x0c'.toNat < 128 by decide),
    hne _ (show '\n'.toNat < 128 by decide), hne _ (show '\r'.toNat < 128 by decide),
    hne _ (show '\t'.toNat < 128 by decide), hlt, if_false]

/-- On UTF-8 the byte-wise escaper is the escaper of JSON. -/
theorem appendJsonString_encode (s : List Char) :
    appendJsonString (Utf8.encode s) = Utf8.encode (Json.printString s) := by
  have hlow : ∀ c : Char, c.toNat < 128 → Utf8.encode (Json.escape c) = appendJsonByte (UInt8.ofNat c.toNat) :=
    fun c hc => by
      have h := appendJsonByte_ascii c.toNat hc
      rwa [Char.ofNat_toNat] at h
  have hbody := appendJsonByte_rewriting.flatMap_encode hlow (fun c hc => escape_high hc) s
  rw [appendJsonString, hbody, Json.printString, Utf8.encode_cons, Utf8.encode_append]
  rfl

/-! ## The output is the printed value -/

theorem jsonKey_eq {key : String} (h : (key.toList.all fun c => Json.escape c = [c]) = true) :
    jsonKey key = Utf8.encode (Json.printString key.toList ++ [':']) := by
  have hplain : ∀ {l : List Char}, (l.all fun c => Json.escape c = [c]) = true → l.flatMap Json.escape = l :=
    fun {l} hl => by
      induction l with
      | nil => rfl
      | cons c l ih =>
        rw [List.all_cons, Bool.and_eq_true, decide_eq_true_eq] at hl
        rw [List.flatMap_cons, hl.1, ih hl.2]
        rfl
  rw [jsonKey, text, String.toList_append, String.toList_append, Json.printString, hplain h]
  simp

theorem appendJsonBool_eq (b : Bool) : appendJsonBool b = Utf8.encode (Json.bool b).print := by
  cases b <;> rfl

theorem text_comma : text "," = Utf8.encode [','] := rfl

theorem text_open : text "\x7b" = Utf8.encode ['{'] := rfl

theorem text_close : text "\x7d" = Utf8.encode ['}'] := rfl

theorem formatJsonIssue_eq {i : CheckIssue} {detail : List Char} (h : Utf8.encode detail = i.detailBytes) :
    formatJsonIssue i = Utf8.encode (ReportValue.issue i detail).print := by
  unfold formatJsonIssue
  rw [← h]
  simp (disch := decide +kernel) only [text_comma, text_open, text_close, jsonKey_eq]
  simp only [text, decimal, appendJsonString_encode, ← Utf8.encode_append]
  unfold ReportValue.issue ReportValue.name ReportValue.count
  simp only [Json.print_object, Json.print_string, Json.print_number, Json.printMembers, List.append_assoc,
    List.cons_append, List.nil_append]

theorem formatJsonEvidence_eq (r : ConsistencyReport) :
    formatJsonEvidence r = Utf8.encode (ReportValue.evidence r).print := by
  unfold formatJsonEvidence
  simp (disch := decide +kernel) only [text_comma, text_open, text_close, jsonKey_eq]
  simp only [appendJsonBool_eq, ← Utf8.encode_append]
  unfold ReportValue.evidence
  simp only [Json.print_object, Json.printMembers, List.append_assoc, List.cons_append, List.nil_append]

theorem formatJsonCounts_eq (r : ConsistencyReport) :
    formatJsonCounts r = Utf8.encode (ReportValue.counts r).print := by
  unfold formatJsonCounts
  simp (disch := decide +kernel) only [text_comma, text_open, text_close, jsonKey_eq]
  simp only [decimal, ← Utf8.encode_append]
  unfold ReportValue.counts ReportValue.count
  simp only [Json.print_object, Json.print_number, Json.printMembers, List.append_assoc, List.cons_append,
    List.nil_append]

/-- The details of the issues in characters. -/
abbrev DetailsRead (issues : List CheckIssue) (details : List (List Char)) : Prop :=
  List.Forall₂ (fun i d => Utf8.encode d = CheckIssue.detailBytes i) issues details

/-- After the first issue every other one follows a comma. -/
theorem formatJsonIssues_rest {index : ℕ} (hindex : index ≠ 0) (h : DetailsRead issues details) :
    formatJsonIssues index issues ++ text "]" =
      Utf8.encode (Json.printRest (issues.zipWith ReportValue.issue details)) := by
  induction h generalizing index with
  | nil => rfl
  | cons hd _ ih =>
    have hrest := ih (Nat.succ_ne_zero index)
    rw [formatJsonIssues, if_pos hindex, List.append_assoc, List.append_assoc, hrest, formatJsonIssue_eq hd, text_comma,
      ← Utf8.encode_append, ← Utf8.encode_append, List.zipWith_cons_cons, Json.printRest, Json.printElements_cons]
    rfl

theorem formatJsonIssues_eq (h : DetailsRead issues details) :
    formatJsonIssues 0 issues ++ text "]" =
      Utf8.encode (Json.printElements (issues.zipWith ReportValue.issue details)) := by
  cases h with
  | nil => rfl
  | cons hd hrest =>
    rw [formatJsonIssues, if_neg (by decide), List.nil_append, List.append_assoc,
      formatJsonIssues_rest (Nat.succ_ne_zero 0) hrest, formatJsonIssue_eq hd, ← Utf8.encode_append,
      List.zipWith_cons_cons, Json.printElements_cons]

theorem formatJsonReport_eq {path : List Char} (h : DetailsRead r.issues details) :
    formatJsonReport (Utf8.encode path) r =
      Utf8.encode ((ReportValue.report path r details).print ++ ['\n']) := by
  have hend : text "]\x7d\n" = text "]" ++ Utf8.encode ['}', '\n'] := rfl
  have hbracket : text "[" = Utf8.encode ['['] := rfl
  have hone : text "1" = Utf8.encode (Nat.toDigits 10 1) := rfl
  unfold formatJsonReport
  rw [hend, ← List.append_assoc, List.append_assoc _ (formatJsonIssues 0 r.issues),
    formatJsonIssues_eq h, hone, hbracket, formatJsonEvidence_eq, formatJsonCounts_eq]
  simp (disch := decide +kernel) only [text_comma, text_open, jsonKey_eq]
  simp only [text, appendJsonString_encode, ← Utf8.encode_append]
  unfold ReportValue.report ReportValue.name ReportValue.count
  simp only [Json.print_object, Json.print_array, Json.print_string, Json.print_number, Json.printMembers,
    List.append_assoc, List.cons_append, List.nil_append]

/-! ## The report is a text exactly when its strings are -/

/-- The bytes are a JSON text in UTF-8 with the value `v`. -/
def JsonText (b : List UInt8) (v : Json) : Prop := ∃ cs, Utf8.encode cs = b ∧ Json.parse cs = some v

theorem count_printable (n : ℕ) : (ReportValue.count n).Printable := Json.numberText_toDigits n

theorem issue_printable (i : CheckIssue) (detail : List Char) : (ReportValue.issue i detail).Printable := by
  simp only [ReportValue.issue, Json.Printable, Json.PrintableMembers, count_printable, ReportValue.name, and_self]

theorem issues_printable (issues : List CheckIssue) (details : List (List Char)) :
    Json.PrintableElements (issues.zipWith ReportValue.issue details) := by
  induction issues generalizing details with
  | nil => trivial
  | cons i issues ih =>
    cases details with
    | nil => trivial
    | cons d details => exact ⟨issue_printable i d, ih details⟩

theorem report_printable (path : List Char) (r : ConsistencyReport) (details : List (List Char)) :
    (ReportValue.report path r details).Printable := by
  simp only [ReportValue.report, ReportValue.evidence, ReportValue.counts, Json.Printable, Json.PrintableMembers,
    count_printable, ReportValue.name, issues_printable, and_self]

theorem formatJsonReport_text {path : List Char} (h : DetailsRead r.issues details) :
    JsonText (formatJsonReport (Utf8.encode path) r) (ReportValue.report path r details) :=
  ⟨_, (formatJsonReport_eq h).symm,
    Json.parse_print (report_printable path r details) (Json.endsNumber_cons (by decide) []) rfl⟩

/-- A string that was written somewhere in the output. -/
def Written (value output : List UInt8) : Prop := ∃ a b, output = a ++ appendJsonString value ++ b

theorem Written.append_left (h : Written value output) (a : List UInt8) : Written value (a ++ output) := by
  obtain ⟨a', b, rfl⟩ := h
  exact ⟨a ++ a', b, by simp⟩

theorem Written.append_right (h : Written value output) (b : List UInt8) : Written value (output ++ b) := by
  obtain ⟨a, b', rfl⟩ := h
  exact ⟨a, b' ++ b, by simp⟩

theorem written_self (value : List UInt8) : Written value (appendJsonString value) := ⟨[], [], by simp⟩

theorem written_issue (i : CheckIssue) : Written i.detailBytes (formatJsonIssue i) :=
  ((written_self _).append_left _).append_right _

theorem written_detail {i : CheckIssue} (h : i ∈ issues) (index : ℕ) :
    Written i.detailBytes (formatJsonIssues index issues) := by
  induction issues generalizing index with
  | nil => cases h
  | cons j issues ih =>
    rw [formatJsonIssues]
    rcases List.mem_cons.mp h with rfl | h
    · exact ((written_issue i).append_left _).append_right _
    · exact (ih h (index + 1)).append_left _

theorem Written.valid (h : Written value output) (hvalid : Utf8.Valid output) : Utf8.Valid value := by
  obtain ⟨a, b, rfl⟩ := h
  rw [appendJsonString, List.append_assoc, List.cons_append, List.append_assoc, List.singleton_append] at hvalid
  exact Utf8.valid_of_flatMap appendJsonByte_rewriting value ((hvalid.split (by decide)).2.split (by decide)).1

theorem written_path (path : List UInt8) (r : ConsistencyReport) : Written path (formatJsonReport path r) := by
  unfold formatJsonReport
  -- take off what is appended after the path
  repeat first | with_reducible exact (written_self path).append_left _ | apply Written.append_right

theorem formatJsonReport_valid {path : List UInt8} (h : Utf8.Valid (formatJsonReport path r)) :
    Utf8.Valid path ∧ ∀ i ∈ r.issues, Utf8.Valid i.detailBytes := by
  refine ⟨(written_path path r).valid h, fun i hi => Written.valid ?_ h⟩
  exact ((written_detail hi 0).append_left _).append_right _

theorem exists_details (h : ∀ i ∈ issues, Utf8.Valid i.detailBytes) :
    ∃ details, DetailsRead issues details := by
  induction issues with
  | nil => exact ⟨[], .nil⟩
  | cons i issues ih =>
    obtain ⟨⟨d, hd⟩, hrest⟩ := List.forall_mem_cons.mp h
    obtain ⟨details, hdetails⟩ := ih hrest
    exact ⟨d :: details, .cons hd hdetails⟩

/-- The output is a JSON text exactly when the image path and the details are UTF-8, and its strings then are those of
the report. -/
theorem formatJsonReport_text_iff (path : List UInt8) (r : ConsistencyReport) :
    ((∃ chars details, Utf8.encode chars = path ∧ DetailsRead r.issues details ∧
        JsonText (formatJsonReport path r) (ReportValue.report chars r details)) ↔
      Utf8.Valid path ∧ ∀ i ∈ r.issues, Utf8.Valid i.detailBytes) ∧
    ((∃ v, JsonText (formatJsonReport path r) v) ↔
      Utf8.Valid path ∧ ∀ i ∈ r.issues, Utf8.Valid i.detailBytes) := by
  have hgood : Utf8.Valid path ∧ (∀ i ∈ r.issues, Utf8.Valid i.detailBytes) →
      ∃ chars details, Utf8.encode chars = path ∧ DetailsRead r.issues details ∧
        JsonText (formatJsonReport path r) (ReportValue.report chars r details) := by
    rintro ⟨⟨chars, rfl⟩, hissues⟩
    obtain ⟨details, hdetails⟩ := exists_details hissues
    exact ⟨chars, details, rfl, hdetails, formatJsonReport_text hdetails⟩
  have hbad : (∃ v, JsonText (formatJsonReport path r) v) →
      Utf8.Valid path ∧ ∀ i ∈ r.issues, Utf8.Valid i.detailBytes := by
    rintro ⟨v, cs, hcs, -⟩
    exact formatJsonReport_valid ⟨cs, hcs⟩
  constructor
  · exact ⟨fun ⟨_, _, _, _, htext⟩ => hbad ⟨_, htext⟩, hgood⟩
  · exact ⟨hbad, fun h => let ⟨_, _, _, _, htext⟩ := hgood h; ⟨_, htext⟩⟩

/-- An image without issues, at a path of plain letters. -/
theorem formatJsonReport_text_iff_clean : ∃ chars details, Utf8.encode chars = text "disk.img" ∧
    DetailsRead [] details ∧ JsonText (formatJsonReport (text "disk.img") {}) (ReportValue.report chars {} details) :=
  (formatJsonReport_text_iff (text "disk.img") {}).1.mpr ⟨⟨_, rfl⟩, fun _ hi => nomatch hi⟩

/-- What the check reports of a root directory with two entries of the name `FF`. -/
def duplicateName : ConsistencyReport :=
  { issues := [⟨.kDuplicateDentryName, 1, 13, 2, "目录中存在重复的有效名称: ", [0xFF], 0, 1, 0⟩] }

/-- The report is no JSON text. -/
theorem duplicateName_not_text : ¬ ∃ v, JsonText (formatJsonReport (text "disk.img") duplicateName) v := by
  rintro ⟨v, cs, hcs, -⟩
  obtain ⟨l, hl⟩ := (formatJsonReport_valid ⟨cs, hcs⟩).2 _ List.mem_cons_self
  have hmem : (0xFF : UInt8) ∈ Utf8.encode l := by
    rw [hl]
    exact List.mem_append_right _ List.mem_cons_self
  exact absurd (Utf8.lt_of_mem_encode hmem) (by decide)

end Eufs
