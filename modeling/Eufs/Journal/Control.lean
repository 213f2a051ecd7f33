import Eufs.Format.Ondisk

/-!
# Eufs.Journal.Control — the journal control block and its two copies

The two control blocks at the head of the journal say which part of the ring holds an exposed transaction.  An
update goes to the copy that is not current; `selectControl` decides between the copies by a generation number that
wraps around.  `Paired` is the relation between the two copies that every update restores: the other copy is
unusable, holds the predecessor, or holds the same control.
-/

namespace Eufs

variable {b : Block} {v : JournalControl}

abbrev kJournalFormatVersion : UInt32 := 1
abbrev kJournalControlHeaderSize : ℕ := 128
abbrev kJournalRecordHeaderSize : ℕ := 64
abbrev kDescriptorEntrySize : ℕ := 16
abbrev kMaxDescriptorEntries : ℕ := (kBlockSize - kJournalRecordHeaderSize) / kDescriptorEntrySize

/-- Which of the two control blocks. -/
inductive ControlCopy where
  | kA | kB
  deriving DecidableEq

/-- The copy an update of this one goes to. -/
def ControlCopy.other : ControlCopy → ControlCopy
  | .kA => .kB
  | .kB => .kA

@[simp] theorem ControlCopy.other_other (c : ControlCopy) : c.other.other = c := by cases c <;> rfl

theorem ControlCopy.other_ne (c : ControlCopy) : c.other ≠ c := by cases c <;> decide

theorem ControlCopy.eq_other_of_ne {a b : ControlCopy} (h : a ≠ b) : a = b.other := by
  cases a <;> cases b <;> first | rfl | exact absurd rfl h

inductive GenerationComparison where
  | kEqual | kFirstNewer | kSecondNewer | kAmbiguous
  deriving DecidableEq

/-- The exposed range of the ring: `usedBlocks` blocks from `tail` to `head`. -/
structure JournalControl where
  ringBlocks : UInt32
  filesystemUuid : Uuid
  generation : UInt64
  head : UInt32
  tail : UInt32
  usedBlocks : UInt32
  stateFlags : UInt32
  nextTransactionId : UInt64
  featureCompat : UInt64
  featureRoCompat : UInt64
  featureIncompat : UInt64
  deriving DecidableEq

/-- CRC of the block with the checksum field cleared. -/
def computeBlockChecksum (b : Block) (checksumOffset : ℕ) : UInt32 :=
  crc32c (b.putLe32 checksumOffset 0).toList

theorem sealed_of_checksum {fs : List Bytes.Field} {off : ℕ}
    (hb : b = ((Bytes.zero kBlockSize).fill fs).putLe32 off
      (computeBlockChecksum ((Bytes.zero kBlockSize).fill fs) off))
    (hfit : ∀ c, Bytes.Fits kBlockSize ((fs ++ [Bytes.Field.le32 off c]).map Bytes.Field.shape)) :
    b.Sealed fs off (computeBlockChecksum b off) := by
  have hs : b.Sealed fs off (computeBlockChecksum ((Bytes.zero kBlockSize).fill fs) off) := ⟨hb, hfit _⟩
  have hsum : computeBlockChecksum b off = computeBlockChecksum ((Bytes.zero kBlockSize).fill fs) off := by
    unfold computeBlockChecksum
    rw [hs.cleared]
  rw [hsum]
  exact hs

/-- Ring geometry, the relation of head, tail and used count, and the reserved flags. -/
def validateControlFields (v : JournalControl) : Except String Unit := do
  reject (v.ringBlocks.toNat < kMinimumJournalRingBlocks ∨ v.head.toNat ≥ v.ringBlocks.toNat ∨
      v.tail.toNat ≥ v.ringBlocks.toNat ∨ v.usedBlocks.toNat > v.ringBlocks.toNat ∨
      (v.usedBlocks.toNat ≠ 0 ∧ v.usedBlocks.toNat < kMinimumJournalRingBlocks) ∨
      v.nextTransactionId.toNat = 0)
    "journal control positions or counters are invalid"
  reject (v.head.toNat ≠ (v.tail.toNat + v.usedBlocks.toNat) % v.ringBlocks.toNat)
    "journal control head, tail, and used count disagree"
  reject (v.stateFlags ≠ 0 ∨ v.featureCompat ≠ 0 ∨ v.featureRoCompat ≠ 0 ∨ v.featureIncompat ≠ 0)
    "journal control requires unsupported v1 flags"

/-- What a valid control says. -/
structure JournalControl.Valid (v : JournalControl) : Prop where
  ring : 3 ≤ v.ringBlocks.toNat
  head_lt : v.head.toNat < v.ringBlocks.toNat
  tail_lt : v.tail.toNat < v.ringBlocks.toNat
  used_le : v.usedBlocks.toNat ≤ v.ringBlocks.toNat
  used : v.usedBlocks.toNat ≠ 0 → 3 ≤ v.usedBlocks.toNat
  next : v.nextTransactionId.toNat ≠ 0
  head_eq : v.head.toNat = (v.tail.toNat + v.usedBlocks.toNat) % v.ringBlocks.toNat
  flags : v.stateFlags = 0 ∧ v.featureCompat = 0 ∧ v.featureRoCompat = 0 ∧ v.featureIncompat = 0

theorem validateControlFields_eq_ok : validateControlFields v = .ok () ↔ v.Valid := by
  simp only [validateControlFields, reject_bind_eq_ok, reject_eq_ok]
  push Not
  constructor
  · rintro ⟨⟨h1, h2, h3, h4, h5, h6⟩, h7, h8⟩
    exact ⟨h1, h2, h3, h4, h5, h6, h7, h8⟩
  · rintro ⟨h1, h2, h3, h4, h5, h6, h7, h8⟩
    exact ⟨⟨h1, h2, h3, h4, h5, h6⟩, h7, h8⟩

/-- The source's comparison of two controls of one generation. -/
def controlsEquivalent (first second : JournalControl) : Prop :=
  first.ringBlocks = second.ringBlocks ∧ first.filesystemUuid = second.filesystemUuid ∧
  first.generation = second.generation ∧ first.head = second.head ∧ first.tail = second.tail ∧
  first.usedBlocks = second.usedBlocks ∧ first.stateFlags = second.stateFlags ∧
  first.nextTransactionId = second.nextTransactionId ∧ first.featureCompat = second.featureCompat ∧
  first.featureRoCompat = second.featureRoCompat ∧ first.featureIncompat = second.featureIncompat

instance (first second : JournalControl) : Decidable (controlsEquivalent first second) := by
  unfold controlsEquivalent; infer_instance

theorem controlsEquivalent_iff {first second : JournalControl} :
    controlsEquivalent first second ↔ first = second := by
  constructor
  · intro h
    cases first; cases second
    simpa [controlsEquivalent, and_assoc] using h
  · rintro rfl
    simp [controlsEquivalent]

/-! ## The control block's bytes -/

/-- `EUFSJCT1`. -/
def kControlMagic : List UInt8 := [69, 85, 70, 83, 74, 67, 84, 49]

def kControlChecksumOffset : ℕ := 124

/-- The encoded fields, without the checksum. -/
def controlFields (v : JournalControl) : List Bytes.Field :=
  [ .raw 0 kControlMagic, .le32 8 kJournalFormatVersion, .le32 12 (UInt32.ofNat kJournalControlHeaderSize),
    .le32 16 (UInt32.ofNat kBlockSize), .le32 20 v.ringBlocks, .raw 24 v.filesystemUuid.toList,
    .le64 40 v.generation, .le32 48 v.head, .le32 52 v.tail, .le32 56 v.usedBlocks, .le32 60 v.stateFlags,
    .le64 64 v.nextTransactionId, .le64 72 v.featureCompat, .le64 80 v.featureRoCompat,
    .le64 88 v.featureIncompat ]

/-- The encoded block. -/
def controlBytes (v : JournalControl) : Block :=
  let b := (Bytes.zero kBlockSize).fill (controlFields v)
  b.putLe32 kControlChecksumOffset (computeBlockChecksum b kControlChecksumOffset)

def encodeControl (v : JournalControl) : Except String Block := do
  validateControlFields v
  return controlBytes v

/-- The fields as they stand in the block. -/
def readControl (b : Block) : JournalControl where
  ringBlocks := b.getLe32 20
  filesystemUuid := b.getBytes 24 16
  generation := b.getLe64 40
  head := b.getLe32 48
  tail := b.getLe32 52
  usedBlocks := b.getLe32 56
  stateFlags := b.getLe32 60
  nextTransactionId := b.getLe64 64
  featureCompat := b.getLe64 72
  featureRoCompat := b.getLe64 80
  featureIncompat := b.getLe64 88

def decodeControl (b : Block) : Except String JournalControl := do
  reject (b.read 0 8 ≠ kControlMagic ∨ b.getLe32 8 ≠ kJournalFormatVersion ∨
      b.getLe32 12 ≠ UInt32.ofNat kJournalControlHeaderSize ∨ b.getLe32 16 ≠ UInt32.ofNat kBlockSize)
    "journal control header does not match the v1 format"
  reject (b.getLe32 kControlChecksumOffset ≠ computeBlockChecksum b kControlChecksumOffset)
    "journal control checksum mismatch"
  reject (¬ b.zeroRange 96 28 ∨
      ¬ b.zeroRange kJournalControlHeaderSize (kBlockSize - kJournalControlHeaderSize))
    "journal control reserved bytes are not zero"
  let decoded := readControl b
  validateControlFields decoded
  return decoded

theorem decodeControl_valid {c : JournalControl} (h : decodeControl b = .ok c) : c.Valid := by
  simp only [decodeControl, reject_bind_eq_ok] at h
  obtain ⟨u, hv, h⟩ := bind_eq_ok.mp h.2.2.2
  cases h
  exact validateControlFields_eq_ok.mp hv

theorem encodeControl_eq_ok : encodeControl v = .ok b ↔ v.Valid ∧ b = controlBytes v := by
  unfold encodeControl
  rw [bind_eq_ok]
  constructor
  · rintro ⟨u, hv, h⟩
    exact ⟨validateControlFields_eq_ok.mp hv, (Except.ok.inj h).symm⟩
  · rintro ⟨hv, rfl⟩
    exact ⟨(), validateControlFields_eq_ok.mpr hv, rfl⟩

theorem controlBytes_sealed (v : JournalControl) : (controlBytes v).Sealed (controlFields v)
    kControlChecksumOffset (computeBlockChecksum (controlBytes v) kControlChecksumOffset) := by
  refine sealed_of_checksum rfl fun c => ?_
  simp only [controlFields, List.map_cons, List.map_append, List.map_nil, Bytes.shape_le32,
    Bytes.shape_le64, Bytes.shape_raw, Vector.length_toList]
  decide

theorem decodeControl_controlBytes (hv : v.Valid) : decodeControl (controlBytes v) = .ok v := by
  have hs := controlBytes_sealed v
  generalize controlBytes v = b at hs
  have hmagic : b.read 0 8 = kControlMagic := hs.read (by simp [controlFields]) rfl
  have hzero : b.zeroRange 96 28 ∧
      b.zeroRange kJournalControlHeaderSize (kBlockSize - kJournalControlHeaderSize) := by
    refine ⟨hs.zeroRange ?_, hs.zeroRange ?_⟩ <;>
      simp only [controlFields, List.map_cons, List.map_append, List.map_nil, Bytes.shape_le32,
        Bytes.shape_le64, Bytes.shape_raw, Vector.length_toList] <;> decide
  have h32 : ∀ o x, .le32 o x ∈ controlFields v → b.getLe32 o = x := fun _ _ => hs.getLe32
  have h64 : ∀ o x, .le64 o x ∈ controlFields v → b.getLe64 o = x := fun _ _ => hs.getLe64
  have huuid : b.getBytes 24 16 = v.filesystemUuid := hs.getBytes (by simp [controlFields])
  simp only [controlFields, List.mem_cons] at h32 h64
  have hvalue : readControl b = v := by
    simp only [readControl, huuid, h32 20 v.ringBlocks (by simp), h64 40 v.generation (by simp),
      h32 48 v.head (by simp), h32 52 v.tail (by simp), h32 56 v.usedBlocks (by simp),
      h32 60 v.stateFlags (by simp), h64 64 v.nextTransactionId (by simp), h64 72 v.featureCompat (by simp),
      h64 80 v.featureRoCompat (by simp), h64 88 v.featureIncompat (by simp)]
  unfold decodeControl
  simp only [hmagic, hzero, hs.stored, hvalue, h32 8 kJournalFormatVersion (by simp),
    h32 12 (UInt32.ofNat kJournalControlHeaderSize) (by simp), h32 16 (UInt32.ofNat kBlockSize) (by simp),
    ne_eq, not_true_eq_false, or_false, reject_false, ok_bind, validateControlFields_eq_ok.mpr hv]
  rfl

/-! ## Choosing between the copies -/

/-- Serial-number comparison modulo 2^64; at a distance of exactly half the range neither is newer. -/
def compareGenerations (first second : UInt64) : GenerationComparison :=
  if first = second then .kEqual
  else if (first - second).toNat = 2 ^ 63 then .kAmbiguous
  else if (first - second).toNat < 2 ^ 63 then .kFirstNewer
  else .kSecondNewer

/-- The control in `b`, when it decodes and belongs to this file system. -/
def usableControl (expectedUuid : Uuid) (expectedRingBlocks : ℕ) (b : Block) : Option JournalControl :=
  match decodeControl b with
  | .ok c => if c.filesystemUuid = expectedUuid ∧ c.ringBlocks.toNat = expectedRingBlocks then some c else none
  | .error _ => none

def selectControl (controlA controlB : Block) (expectedUuid : Uuid) (expectedRingBlocks : ℕ) :
    Except String (JournalControl × ControlCopy) :=
  if expectedRingBlocks < kMinimumJournalRingBlocks then
    .error "journal control selection arguments are invalid"
  else
    match usableControl expectedUuid expectedRingBlocks controlA,
        usableControl expectedUuid expectedRingBlocks controlB with
    | none, none => .error "both journal control copies are invalid"
    | some a, none => .ok (a, .kA)
    | none, some b => .ok (b, .kB)
    | some a, some b =>
      match compareGenerations a.generation b.generation with
      | .kAmbiguous => .error "journal control generations are half-range ambiguous"
      | .kEqual =>
        if controlsEquivalent a b then .ok (a, .kA)
        else .error "equal journal generations contain different states"
      | .kFirstNewer => .ok (a, .kA)
      | .kSecondNewer => .ok (b, .kB)

theorem compareGenerations_self (g : UInt64) : compareGenerations g g = .kEqual := by
  simp [compareGenerations]

theorem compareGenerations_pred (g : UInt64) : compareGenerations g (g - 1) = .kFirstNewer := by
  have hd : g - (g - 1) = 1 := by grind
  have hne : g ≠ g - 1 := fun h => by
    rw [← h, UInt64.sub_self] at hd
    exact absurd hd (by decide)
  rw [compareGenerations, if_neg hne, hd]
  decide

theorem compareGenerations_succ (g : UInt64) : compareGenerations (g - 1) g = .kSecondNewer := by
  have hd : g - 1 - g = -1 := by grind
  have hne : g - 1 ≠ g := fun h => by
    rw [h, UInt64.sub_self] at hd
    exact absurd hd (by decide)
  rw [compareGenerations, if_neg hne, hd]
  decide

theorem usableControl_eq_some {u : Uuid} {n : ℕ} {c : JournalControl} :
    usableControl u n b = some c ↔
      decodeControl b = .ok c ∧ c.filesystemUuid = u ∧ c.ringBlocks.toNat = n := by
  unfold usableControl
  cases decodeControl b with
  | error e => simp
  | ok c' =>
    by_cases h : c'.filesystemUuid = u ∧ c'.ringBlocks.toNat = n
    · simp only [if_pos h, Option.some.injEq, Except.ok.injEq]
      exact ⟨fun he => ⟨he, he ▸ h⟩, fun he => he.1⟩
    · simp only [if_neg h, Except.ok.injEq]
      exact ⟨fun he => absurd he (by simp), fun he => absurd (he.1 ▸ he.2) h⟩

/-- How the copy that is not current stands to the current control. -/
def Paired (current : JournalControl) (other : Option JournalControl) : Prop :=
  ∀ p, other = some p → p.generation = current.generation - 1 ∨ p = current

section Selection

variable {u : Uuid} {n : ℕ} {a b : Block} {c : JournalControl}

theorem selectControl_of_paired_a (hn : 3 ≤ n) (ha : usableControl u n a = some c)
    (hp : Paired c (usableControl u n b)) : selectControl a b u n = .ok (c, .kA) := by
  unfold selectControl
  rw [if_neg (not_lt.mpr hn), ha]
  cases hb : usableControl u n b with
  | none => rfl
  | some p =>
    rcases hp p hb with hg | rfl
    · simp only [hg, compareGenerations_pred]
    · simp only [compareGenerations_self, controlsEquivalent_iff.mpr, if_true]

/-- The current control in the second copy is selected, unless the first copy holds the same. -/
theorem selectControl_of_paired_b (hn : 3 ≤ n) (hb : usableControl u n b = some c)
    (hp : Paired c (usableControl u n a)) :
    selectControl a b u n = .ok (c, .kB) ∨
      (usableControl u n a = some c ∧ selectControl a b u n = .ok (c, .kA)) := by
  unfold selectControl
  rw [if_neg (not_lt.mpr hn), hb]
  cases ha : usableControl u n a with
  | none => exact Or.inl rfl
  | some p =>
    rcases hp p ha with hg | rfl
    · left
      simp only [hg, compareGenerations_succ]
    · right
      simp only [compareGenerations_self, controlsEquivalent_iff.mpr, if_true, and_self]

theorem selectControl_usable {copy : ControlCopy} (h : selectControl a b u n = .ok (c, copy)) :
    3 ≤ n ∧
      usableControl u n (match copy with | .kA => a | .kB => b) = some c := by
  unfold selectControl at h
  split_ifs at h with hn
  refine ⟨not_lt.mp hn, ?_⟩
  cases ha : usableControl u n a <;> cases hb : usableControl u n b <;> rw [ha, hb] at h <;> simp only at h
  · cases h
  · cases h; exact hb
  · cases h; exact ha
  · split at h
    · cases h
    · split_ifs at h
      cases h; exact ha
    · cases h; exact ha
    · cases h; exact hb

end Selection

end Eufs
