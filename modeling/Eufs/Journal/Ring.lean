import Eufs.Base.Phases
import Eufs.Journal.Record

/-!
# Eufs.Journal.Ring — where a transaction lies in the ring

`planRingReservation` derives from a clean control every ring slot of the next transaction and the control that
exposes it.  `reservation` is that plan as a closed formula; `planRingReservation_eq_ok` says when it is returned.
-/

namespace Eufs

variable {start ring : UInt32} {c : JournalControl} {n : ℕ}

/-- Block numbers with contents, in ascending order of the block number. -/
abbrev BlockMap := Std.ExtTreeMap ℕ Block

/-- Everything a transaction of the journal will occupy. -/
structure RingReservationPlan where
  transactionId : UInt64
  descriptorRingIndex : UInt32
  payloadRingIndices : List UInt32
  commitRingIndex : UInt32
  exposedControl : JournalControl
  deriving DecidableEq

/-- Move `distance` slots forward, wrapping at the end of the ring. -/
def advance (start : UInt32) (distance : ℕ) (ringBlocks : UInt32) : UInt32 :=
  UInt32.ofNat ((start.toNat + distance) % ringBlocks.toNat)

/-- The plan for `n` metadata blocks after the clean control `current`. -/
def reservation (current : JournalControl) (n : ℕ) : RingReservationPlan where
  transactionId := current.nextTransactionId
  descriptorRingIndex := current.head
  payloadRingIndices := (List.range n).map fun i => advance current.head (i + 1) current.ringBlocks
  commitRingIndex := advance current.head (n + 1) current.ringBlocks
  exposedControl :=
    { current with
      generation := current.generation + 1
      head := advance current.head (n + 2) current.ringBlocks
      usedBlocks := UInt32.ofNat (n + 2)
      nextTransactionId := current.nextTransactionId + 1 }

def planRingReservation (current : JournalControl) (metadataPayloadCount : ℕ) :
    Except Failure RingReservationPlan := do
  match encodeControl current with
  | .error validationError => .error ⟨.EINVAL, "current journal control is invalid: " ++ validationError⟩
  | .ok _ =>
    reject (current.usedBlocks ≠ 0)
      (Failure.mk .EBUSY "v1 requires recovery or checkpoint before another reservation")
    reject (metadataPayloadCount = 0)
      (Failure.mk .EINVAL "a journal transaction requires at least one metadata payload")
    reject (metadataPayloadCount > kMaxDescriptorEntries)
      (Failure.mk .E2BIG "metadata payload count exceeds the descriptor capacity")
    reject (metadataPayloadCount + 2 > current.ringBlocks.toNat)
      (Failure.mk .ENOSPC "the complete transaction does not fit in the journal ring")
    reject (current.nextTransactionId.toNat = 2 ^ 64 - 1)
      (Failure.mk .EOVERFLOW "v1 transaction identifiers do not wrap through zero")
    let candidate := reservation current metadataPayloadCount
    match encodeControl candidate.exposedControl with
    | .error validationError => .error ⟨.EINVAL, "planned journal control is invalid: " ++ validationError⟩
    | .ok _ => return candidate

theorem advance_toNat {distance : ℕ} (h : 0 < ring.toNat) :
    (advance start distance ring).toNat = (start.toNat + distance) % ring.toNat := by
  have h1 : (start.toNat + distance) % ring.toNat < ring.toNat := Nat.mod_lt _ h
  have h2 := ring.toNat_lt
  rw [advance, UInt32.toNat_ofNat']
  omega

theorem advance_lt {distance : ℕ} (h : 0 < ring.toNat) : (advance start distance ring).toNat < ring.toNat := by
  rw [advance_toNat h]
  exact Nat.mod_lt _ h

theorem advance_zero (h : start.toNat < ring.toNat) : advance start 0 ring = start := by
  rw [advance, Nat.add_zero, Nat.mod_eq_of_lt h, UInt32.ofNat_toNat]

theorem advance_inj {i j : ℕ} (hi : i < ring.toNat) (hj : j < ring.toNat)
    (h : advance start i ring = advance start j ring) : i = j := by
  have h' := congrArg UInt32.toNat h
  rw [advance_toNat (by omega), advance_toNat (by omega)] at h'
  have := Nat.ModEq.add_left_cancel' start.toNat h'
  rwa [Nat.ModEq, Nat.mod_eq_of_lt hi, Nat.mod_eq_of_lt hj] at this

/-- A transaction of `n` metadata blocks fits after the clean control `current`. -/
structure Reservable (current : JournalControl) (n : ℕ) : Prop where
  valid : current.Valid
  clean : current.usedBlocks = 0
  pos : 0 < n
  entries : n ≤ 252
  ring : n + 2 ≤ current.ringBlocks.toNat
  next : current.nextTransactionId.toNat ≠ 2 ^ 64 - 1

theorem Reservable.used_toNat (h : Reservable c n) : (UInt32.ofNat (n + 2)).toNat = n + 2 := by
  have h1 := h.ring
  have h2 := c.ringBlocks.toNat_lt
  rw [UInt32.toNat_ofNat']
  omega

theorem Reservable.next_toNat (h : Reservable c n) :
    (c.nextTransactionId + 1).toNat = c.nextTransactionId.toNat + 1 := by
  have h1 := h.next
  have h2 := c.nextTransactionId.toNat_lt
  have h3 : (1 : UInt64).toNat = 1 := rfl
  rw [UInt64.toNat_add]
  omega

/-- Nothing is exposed, so the transaction starts where the last one ended. -/
theorem Reservable.head_eq_tail (h : Reservable c n) : c.head = c.tail := by
  have h1 := h.valid.head_eq
  rw [h.clean, show (0 : UInt32).toNat = 0 from rfl, Nat.add_zero, Nat.mod_eq_of_lt h.valid.tail_lt] at h1
  exact UInt32.toNat_inj.mp h1

/-- The exposing control is itself valid: nothing the plan does can make it fail. -/
theorem Reservable.exposed_valid (h : Reservable c n) : (reservation c n).exposedControl.Valid := by
  have hr := h.valid.ring
  have hpos : 0 < c.ringBlocks.toNat := by omega
  refine ⟨hr, advance_lt hpos, h.valid.tail_lt, ?_, fun _ => ?_, ?_, ?_, h.valid.flags⟩
  · exact h.used_toNat.trans_le h.ring
  · have h1 := h.pos
    show 3 ≤ (UInt32.ofNat (n + 2)).toNat
    rw [h.used_toNat]
    omega
  · show (c.nextTransactionId + 1).toNat ≠ 0
    rw [h.next_toNat]
    omega
  · show (advance c.head (n + 2) c.ringBlocks).toNat =
      (c.tail.toNat + (UInt32.ofNat (n + 2)).toNat) % c.ringBlocks.toNat
    rw [advance_toNat hpos, h.used_toNat, h.head_eq_tail]

theorem planRingReservation_noRoom (hv : c.Valid) (hu : c.usedBlocks = 0) (h0 : 0 < n)
    (hmax : n ≤ kMaxDescriptorEntries) (hring : c.ringBlocks.toNat < n + 2) : planRingReservation c n =
      .error ⟨.ENOSPC, "the complete transaction does not fit in the journal ring"⟩ := by
  unfold planRingReservation
  rw [encodeControl_eq_ok.mpr ⟨hv, rfl⟩]
  dsimp only
  rw [reject_bind_of_not (not_not.mpr hu), reject_bind_of_not h0.ne', reject_bind_of_not (not_lt.mpr hmax), reject,
    if_pos hring]
  rfl

theorem planRingReservation_eq_ok {r : RingReservationPlan} :
    planRingReservation c n = .ok r ↔ Reservable c n ∧ r = reservation c n := by
  unfold planRingReservation
  constructor
  · intro h
    split at h
    · cases h
    · next b hb =>
      simp only [reject_bind_eq_ok] at h
      obtain ⟨h1, h2, h3, h4, h5, h⟩ := h
      have hres : Reservable c n :=
        ⟨(encodeControl_eq_ok.mp hb).1, not_not.mp h1, by omega, not_lt.mp h3, by omega, h5⟩
      split at h
      · cases h
      · exact ⟨hres, (Except.ok.inj h).symm⟩
  · rintro ⟨h, rfl⟩
    rw [encodeControl_eq_ok.mpr ⟨h.valid, rfl⟩]
    simp only [reject_bind_eq_ok, encodeControl_eq_ok.mpr ⟨h.exposed_valid, rfl⟩]
    exact ⟨not_not.mpr h.clean, h.pos.ne', not_lt.mpr h.entries, not_lt.mpr h.ring, h.next, rfl⟩

end Eufs
