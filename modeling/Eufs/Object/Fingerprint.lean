import Eufs.Object.LedgerCodec
import Eufs.Object.LedgerIndex
import Eufs.Object.Result

/-!
# Eufs.Object.Fingerprint — the identity of a request

A client may send a request twice.  The store tells the second copy from a new request with the same Request-ID by a
fingerprint: the SHA-256 of a canonical byte string of everything the request asks for.  The string determines the
request, so a replay is answered only to the request that was recorded, unless two of the strings that were hashed
collide.
-/

namespace Eufs

open RequestLedgerRecord RequestLedgerIndex

abbrev kFingerprintFormatVersion : UInt8 := 2

abbrev PayloadDigest := Bytes kSha256Size

structure MutationIdentityInput where
  operation : MutationOperation
  key : List UInt8
  payloadSize : UInt64
  payloadSha256 : PayloadDigest
  timestampNs : UInt64
  expectedInode : UInt32
  expectedGeneration : UInt64
  deriving DecidableEq

namespace MutationIdentityInput

variable (input : MutationIdentityInput)

/-- A creation expects no version and a replacement expects one. -/
def versionInconsistent : Prop :=
  (input.operation = .kCreateIfAbsent ∧ (input.expectedInode ≠ 0 ∨ input.expectedGeneration ≠ 0)) ∨
  (input.operation = .kReplaceIfVersion ∧ (input.expectedInode = 0 ∨ input.expectedGeneration = 0))

instance : Decidable input.versionInconsistent := by unfold versionInconsistent; infer_instance

/-- The checks before the encoding. -/
def check : Except Failure Unit := do
  reject (input.key = [] ∨ input.key.length > kMaxNameLength ∨ input.key.length > 65535 ∨
      input.payloadSize.toNat > kMaxFileSize)
    ⟨.EINVAL, "fingerprint output, key, and payload size are invalid"⟩
  reject input.versionInconsistent ⟨.EINVAL, "operation and expected version are inconsistent"⟩

/-- The byte string that is hashed. -/
def canonical : List UInt8 :=
  [kFingerprintFormatVersion, input.operation.toByte] ++ (le 2 input.key.length ++ (input.key ++
    (le 8 input.payloadSize.toNat ++ (input.payloadSha256.toList ++ (le 8 input.timestampNs.toNat ++
      ([if input.operation = .kCreateIfAbsent then 1 else 2] ++ (le 4 input.expectedInode.toNat ++
        le 8 input.expectedGeneration.toNat)))))))

end MutationIdentityInput

/-- OpenSSL's digest is a parameter; it may fail. -/
def buildRequestFingerprint (sha256 : List UInt8 → Option RequestFingerprint) (input : MutationIdentityInput) :
    Except Failure RequestFingerprint := do
  input.check
  match sha256 input.canonical with
  | none => throw ⟨ Errno.EIO, "OpenSSL could not compute request fingerprint"⟩
  | some digest => return digest

theorem buildRequestFingerprint_eq_ok {sha256 : List UInt8 → Option RequestFingerprint}
    {input : MutationIdentityInput}
    {digest : RequestFingerprint} : buildRequestFingerprint sha256 input = .ok digest ↔
      input.check = .ok () ∧ sha256 input.canonical = some digest := by
  rw [buildRequestFingerprint, bind_eq_ok]
  constructor
  · rintro ⟨u, hcheck, h⟩
    refine ⟨hcheck, ?_⟩
    split at h
    · cases h
    · rename_i d hd
      rw [hd, Except.ok.inj h]
  · rintro ⟨hcheck, h⟩
    exact ⟨(), hcheck, by rw [h]; rfl⟩

/-! ## The canonical string determines the request -/

theorem le_inj {w a b : ℕ} (ha : a < 256 ^ w) (hb : b < 256 ^ w) (h : le w a = le w b) : a = b := by
  have hval := congrArg ofLe h
  rwa [Bytes.ofLe_le_of_lt ha, Bytes.ofLe_le_of_lt hb] at hval

theorem MutationOperation.toByte_injective : Function.Injective toByte := by
  intro x y h
  cases x <;> cases y <;> first | rfl | exact absurd h (by decide)

theorem MutationIdentityInput.length_key {input : MutationIdentityInput} (h : input.check = .ok ()) :
    input.key.length < 256 ^ 2 := by
  simp only [check, reject_bind_eq_ok, not_or, not_lt] at h
  exact Nat.lt_of_le_of_lt h.1.2.2.1 (by decide)

/-- Every field stands at a place that the fields before it determine. -/
theorem MutationIdentityInput.canonical_inj {i j : MutationIdentityInput} (hi : i.check = .ok ())
    (hj : j.check = .ok ()) (h : i.canonical = j.canonical) : i = j := by
  obtain ⟨hop, h⟩ := List.append_inj h rfl
  obtain ⟨hlen, h⟩ := List.append_inj h (by simp)
  have hlength := le_inj (length_key hi) (length_key hj) hlen
  obtain ⟨hkey, h⟩ := List.append_inj h hlength
  obtain ⟨hsize, h⟩ := List.append_inj h (by simp)
  obtain ⟨hsha, h⟩ := List.append_inj h (by simp)
  obtain ⟨htime, h⟩ := List.append_inj h (by simp)
  obtain ⟨-, h⟩ := List.append_inj h rfl
  obtain ⟨hinode, hgen⟩ := List.append_inj h (by simp)
  have hop := MutationOperation.toByte_injective (List.cons.inj (List.cons.inj hop).2).1
  have h64 : ∀ x y : UInt64, le 8 x.toNat = le 8 y.toNat → x = y := fun x y hxy =>
    UInt64.toNat_inj.mp (le_inj (by simpa using x.toNat_lt) (by simpa using y.toNat_lt) hxy)
  have h32 : ∀ x y : UInt32, le 4 x.toNat = le 4 y.toNat → x = y := fun x y hxy =>
    UInt32.toNat_inj.mp (le_inj (by simpa using x.toNat_lt) (by simpa using y.toNat_lt) hxy)
  cases i
  cases j
  simp only at hop hkey hsize hsha htime hinode hgen
  rw [hop, hkey, h64 _ _ hsize, Vector.toList_inj.mp hsha, h64 _ _ htime, h32 _ _ hinode, h64 _ _ hgen]

/-! ## The check of a request -/

/-- What the service hands to the store. -/
structure RequestIdentity where
  requestId : RequestId
  fingerprint : RequestFingerprint
  deriving DecidableEq

/-- The answer of the check: `handled` when the request must not be executed. -/
structure RequestCheck where
  result : Except Failure Unit
  output : IdempotentMutationResult := {}
  handled : Bool := true

/-- The recorded outcome, told again. -/
def replayRecord (existing : RequestLedgerRecord) : RequestCheck :=
  match existing.resultKind with
  | .kCommitted =>
    { result := .ok ()
      output :=
        { disposition := .kReplayed
          mutation :=
            { outcome := .kCommitted
              committedVersion := ⟨existing.committedInode, existing.committedGeneration⟩ } } }
  | .kNotApplied =>
    { result := match existing.resultCode with
        | .kAlreadyExists => .error ⟨.EEXIST, ""⟩
        | .kVersionMismatch => .error ⟨.ESTALE, ""⟩
        | .kNotFound => .error ⟨.ENOENT, ""⟩
        | .kOk => .error ⟨.EUCLEAN, "request ledger contains an unsupported replay result"⟩
      output :=
        { disposition := .kReplayed
          mutation :=
            { outcome := .kNotApplied
              currentVersion := ⟨existing.currentInode, existing.currentGeneration⟩ } } }

/-- The ledger is absent on an image without the feature. -/
def checkRequestLocked (ledger : Option RequestLedgerIndex) (identity : RequestIdentity)
    (operation : MutationOperation) : RequestCheck :=
  if identity.requestId = Bytes.zero _ then
    { result := .error ⟨.EINVAL, "nonzero request identity and state outputs are required"⟩, handled := false }
  else
    match ledger with
    | none => { result := .error ⟨.EOPNOTSUPP, "image does not provide a persistent request ledger"⟩ }
    | some ledger =>
      match ledger.find identity.requestId with
      | some existing =>
        if existing.operation ≠ operation ∨ existing.fingerprint ≠ identity.fingerprint then
          { result := .error ⟨.EALREADY, "request id was already used for different semantics"⟩
            output := { disposition := .kRequestIdConflict } }
        else
          replayRecord existing
      | none =>
        if ledger.full then
          { result := .error ⟨.ENOSPC, "request ledger has no capacity for a new request"⟩
            output := { disposition := .kLedgerFull } }
        else
          { result := .ok (), handled := false }

/-- The check answers as a replay. -/
def RequestCheck.replayed (c : RequestCheck) : Prop := c.output.disposition = .kReplayed

instance (c : RequestCheck) : Decidable c.replayed := by unfold RequestCheck.replayed; infer_instance

@[simp] theorem replayRecord_replayed (existing : RequestLedgerRecord) : (replayRecord existing).replayed := by
  unfold replayRecord
  split <;> rfl

/-- A replay is answered when the recorded operation and fingerprint are those of the request. -/
theorem checkRequestLocked_replayed {ledger : Option RequestLedgerIndex} {identity : RequestIdentity}
    {operation : MutationOperation} : (checkRequestLocked ledger identity operation).replayed ↔
      identity.requestId ≠ Bytes.zero _ ∧ ∃ x existing, ledger = some x ∧
      x.find identity.requestId = some existing ∧
        existing.operation = operation ∧ existing.fingerprint = identity.fingerprint := by
  unfold checkRequestLocked
  constructor
  · intro h
    split_ifs at h with hid
    · cases h
    split at h
    · cases h
    · rename_i x
      split at h
      · rename_i existing hfind
        split_ifs at h with hother
        · cases h
        · simp only [not_or, not_not] at hother
          exact ⟨hid, x, existing, rfl, hfind, hother⟩
      · split_ifs at h <;> cases h
  · rintro ⟨hid, x, existing, rfl, hfind, hop, hfp⟩
    rw [if_neg hid]
    simp only [hfind, hop, hfp, ne_eq, not_true_eq_false, or_self, if_false]
    exact replayRecord_replayed existing

/-! ## The requests behind a ledger -/

def makeCommittedRecord (operation : MutationOperation) (identity : RequestIdentity) (version : ObjectVersion) :
    RequestLedgerRecord where
  operation := operation
  resultKind := .kCommitted
  requestId := identity.requestId
  fingerprint := identity.fingerprint
  resultCode := .kOk
  committedInode := version.inodeNumber
  committedGeneration := version.generation
  currentInode := 0
  currentGeneration := 0
  sequence := 0

def makeRejectedRecord (operation : MutationOperation) (identity : RequestIdentity) (code : LedgerResultCode)
    (current : ObjectVersion) : RequestLedgerRecord where
  operation := operation
  resultKind := .kNotApplied
  requestId := identity.requestId
  fingerprint := identity.fingerprint
  resultCode := code
  committedInode := 0
  committedGeneration := 0
  currentInode := current.inodeNumber
  currentGeneration := current.generation
  sequence := 0

section Served

variable (sha256 : List UInt8 → Option RequestFingerprint)

/-- A request as the service admits it. -/
@[ext]
structure ClientRequest where
  requestId : RequestId
  input : MutationIdentityInput
  deriving DecidableEq

/-- The record keeps the request's id, operation and fingerprint. -/
structure RequestLedgerRecord.Of (r : RequestLedgerRecord) (q : ClientRequest) : Prop where
  requestId : r.requestId = q.requestId
  nonzero : q.requestId ≠ Bytes.zero _
  operation : r.operation = q.input.operation
  fingerprint : buildRequestFingerprint sha256 q.input = .ok r.fingerprint

/-- The store executes a request that its index does not know, and appends the record of the outcome. -/
def Recorded (x : RequestLedgerIndex) (q : ClientRequest) (x' : RequestLedgerIndex)
    (record : RequestIdentity → RequestLedgerRecord) : Prop :=
  ∃ fingerprint, buildRequestFingerprint sha256 q.input = .ok fingerprint ∧
    (checkRequestLocked (some x) ⟨q.requestId, fingerprint⟩ q.input.operation).handled = false ∧
    (checkRequestLocked (some x) ⟨q.requestId, fingerprint⟩ q.input.operation).result = .ok () ∧
    x.appendCommitted { record ⟨q.requestId, fingerprint⟩ with sequence := x.nextSequence } = .ok x'

/-- The index after the requests `qs` have left their records.  Requests that failed or were answered from the ledger
leave none; a store that is opened again has the same records. -/
inductive Served : List ClientRequest → RequestLedgerIndex → Prop
  | empty (capacity : ℕ) : Served [] ⟨capacity, 1, []⟩
  | committed {qs x q x'} (version : ObjectVersion) : Served qs x →
      Recorded sha256 x q x' (makeCommittedRecord q.input.operation · version) → Served (qs ++ [q]) x'
  | rejected {qs x q x'} (code : LedgerResultCode) (current : ObjectVersion) : Served qs x →
      Recorded sha256 x q x' (makeRejectedRecord q.input.operation · code current) → Served (qs ++ [q]) x'
  | reopened {qs x x'} : Served qs x → x'.records = x.records → Served qs x'

variable {sha256} {x x' : RequestLedgerIndex} {qs : List ClientRequest}

theorem RequestLedgerIndex.appendCommitted_records {record : RequestLedgerRecord}
    (h : x.appendCommitted record = .ok x') : x'.records = x.records ++ [record] := by
  simp only [appendCommitted, reject_bind_eq_ok] at h
  obtain ⟨-, -, h⟩ := h
  obtain ⟨-, -, h⟩ := bind_eq_ok.mp h
  obtain ⟨-, h⟩ := reject_bind_eq_ok.mp h
  cases h
  rfl

theorem RequestLedgerIndex.appendCommitted_eq {record : RequestLedgerRecord} (hroom : ¬ x.full)
    (hsequence : record.sequence = x.nextSequence) (hlegal : record.Legal) (hnew : x.find record.requestId = none) :
    x.appendCommitted record =
      .ok { x with records := x.records ++ [record], nextSequence := x.nextSequence + 1 } := by
  obtain ⟨b, hb⟩ := encodeRequestLedgerRecord_iff.mpr hlegal
  simp only [appendCommitted, hroom, hsequence, hnew, hb, reject_false, ok_bind, ne_eq, not_true_eq_false]
  rfl

theorem Recorded.forall₂ {q : ClientRequest} {record : RequestIdentity → RequestLedgerRecord}
    (hrecord : ∀ identity, (record identity).requestId = identity.requestId ∧
      (record identity).operation = q.input.operation ∧ (record identity).fingerprint = identity.fingerprint)
    (h : Recorded sha256 x q x' record) (hx : List.Forall₂ (RequestLedgerRecord.Of sha256) x.records qs) :
    List.Forall₂ (RequestLedgerRecord.Of sha256) x'.records (qs ++ [q]) := by
  obtain ⟨fingerprint, hbuild, -, hresult, happend⟩ := h
  obtain ⟨hid, hop, hfp⟩ := hrecord ⟨q.requestId, fingerprint⟩
  have hnonzero : q.requestId ≠ Bytes.zero _ := fun hz => by
    simp [checkRequestLocked, hz] at hresult
  rw [appendCommitted_records happend]
  refine List.rel_append hx (List.Forall₂.cons ⟨hid, hnonzero, hop, ?_⟩ List.Forall₂.nil)
  rw [hbuild]
  exact congrArg Except.ok hfp.symm

theorem Served.forall₂ (h : Served sha256 qs x) : List.Forall₂ (RequestLedgerRecord.Of sha256) x.records qs := by
  induction h with
  | empty capacity => exact List.Forall₂.nil
  | committed version _ hrecorded ih => exact hrecorded.forall₂ (fun _ => ⟨rfl, rfl, rfl⟩) ih
  | rejected code current _ hrecorded ih => exact hrecorded.forall₂ (fun _ => ⟨rfl, rfl, rfl⟩) ih
  | reopened _ hsame ih =>
    rw [hsame]
    exact ih

/-- The fingerprint of an accepted request is that of its canonical string, which no other request has; a store answers
a replay exactly to the request that left the record, unless its canonical string collides with a recorded one. -/
theorem fingerprints_separate_requests (sha256 : List UInt8 → Option RequestFingerprint) :
    (∀ i j f g, buildRequestFingerprint sha256 i = .ok f → buildRequestFingerprint sha256 j = .ok g →
      (i.canonical = j.canonical ↔ i = j)) ∧
    ∀ qs x, Served sha256 qs x → ∀ (q : ClientRequest) f, buildRequestFingerprint sha256 q.input = .ok f →
      (∀ q' ∈ qs, sha256 q'.input.canonical = sha256 q.input.canonical →
        q'.input.canonical = q.input.canonical) →
      ((checkRequestLocked (some x) ⟨q.requestId, f⟩ q.input.operation).replayed ↔
        ∃ r, x.find q.requestId = some r ∧ (r, q) ∈ x.records.zip qs) := by
  have hinj : ∀ i j f g, buildRequestFingerprint sha256 i = .ok f → buildRequestFingerprint sha256 j = .ok g →
      (i.canonical = j.canonical ↔ i = j) := by
    intro i j f g hi hj
    rw [buildRequestFingerprint_eq_ok] at hi hj
    exact ⟨MutationIdentityInput.canonical_inj hi.1 hj.1, fun h => by rw [h]⟩
  refine ⟨hinj, fun qs x hx q f hf hcollision => ?_⟩
  obtain ⟨hlen, hof⟩ := List.forall₂_iff_zip.mp hx.forall₂
  rw [checkRequestLocked_replayed]
  constructor
  · rintro ⟨-, y, r, hy, hfind, -, hfp⟩
    obtain rfl := Option.some.inj hy
    obtain ⟨k, hk, rfl⟩ := List.mem_iff_getElem.mp (List.mem_of_find?_eq_some hfind)
    -- the request that left the record has the same id and the same canonical string
    have hmem : (x.records[k], qs[k]) ∈ x.records.zip qs :=
      List.mem_iff_getElem.mpr ⟨k, by simp [hk, ← hlen], by simp⟩
    have hold := hof hmem
    have hid : qs[k].requestId = q.requestId := by
      rw [← hold.requestId]
      simpa using List.find?_some hfind
    have hsum : sha256 qs[k].input.canonical = sha256 q.input.canonical := by
      rw [(buildRequestFingerprint_eq_ok.mp hold.fingerprint).2, (buildRequestFingerprint_eq_ok.mp hf).2, hfp]
    have hinput := (hinj _ _ _ _ hold.fingerprint hf).mp (hcollision _ (List.getElem_mem _) hsum)
    have hq : qs[k] = q := ClientRequest.ext hid hinput
    exact ⟨x.records[k], hfind, hq ▸ hmem⟩
  · rintro ⟨r, hfind, hmem⟩
    have hr := hof hmem
    exact ⟨hr.nonzero, x, r, rfl, hfind, hr.operation, Except.ok.inj (hr.fingerprint.symm.trans hf)⟩

end Served

/-! ## Two requests with one id -/

theorem kRequestIdSize_pos : 0 < kRequestIdSize := by decide

/-- SHA-256 of the empty string. -/
def emptySha256 : PayloadDigest := #v[227, 176, 196, 66, 152, 252, 28, 20, 154, 251, 244, 200, 153, 111, 185, 36,
  39, 174, 65, 228, 100, 155, 147, 76, 164, 149, 153, 27, 120, 82, 184, 85]

/-- The creation of an empty object. -/
def creation (key : List UInt8) : ClientRequest :=
  ⟨(Bytes.zero _).set 0 1 kRequestIdSize_pos, .kCreateIfAbsent, key, 0, emptySha256, 0, 0, 0⟩

/-- SHA-256 of the canonical string of the creation of `a` or `b`. -/
def creationSha256 (key : List UInt8) : RequestFingerprint :=
  if key = [97] then #v[166, 118, 236, 57, 202, 246, 79, 109, 21, 79, 80, 205, 193, 172, 240, 162,
    102, 14, 62, 59, 66, 141, 23, 255, 135, 113, 189, 246, 21, 229, 129, 85]
  else #v[17, 89, 92, 155, 186, 246, 78, 170, 188, 5, 208, 248, 132, 10, 5, 237,
    24, 10, 99, 220, 74, 43, 100, 109, 102, 80, 58, 244, 5, 209, 235, 144]

/-- SHA-256 on the strings of these two requests. -/
def tabulatedSha256 (l : List UInt8) : Option RequestFingerprint :=
  ([[97], [98]].find? fun key => l = (creation key).input.canonical).map creationSha256

def creationIdentity (key : List UInt8) : RequestIdentity := ⟨(creation key).requestId, creationSha256 key⟩

/-- What the first creation leaves. -/
def creationRecord : RequestLedgerRecord :=
  { makeCommittedRecord .kCreateIfAbsent (creationIdentity [97]) ⟨3, 1⟩ with sequence := 1 }

theorem creationRecord_legal : creationRecord.Legal := by
  refine ⟨by decide, by decide, Or.inl ?_⟩
  simp [creationRecord, makeCommittedRecord, hasCommittedVersion,
    currentVersionEmpty]

theorem creation_fingerprint (key : List UInt8) (hkey : key ∈ [[97], [98]]) :
    buildRequestFingerprint tabulatedSha256 (creation key).input = .ok (creationSha256 key) := by
  rw [buildRequestFingerprint_eq_ok]
  fin_cases hkey <;> exact ⟨rfl, by decide⟩

theorem creationRecord_served : Served tabulatedSha256 [creation [97]] ⟨32, 2, [creationRecord]⟩ := by
  refine Served.committed ⟨3, 1⟩ (Served.empty 32)
    ⟨_, creation_fingerprint [97] (by decide), by decide, rfl, ?_⟩
  exact appendCommitted_eq (by decide) rfl creationRecord_legal rfl

/-- The recorded creation is replayed, and a creation of another object with the same id is not. -/
theorem fingerprints_separate_requests_first :
    (checkRequestLocked (some ⟨32, 2, [creationRecord]⟩) (creationIdentity [97]) .kCreateIfAbsent).replayed ∧
    ¬ (checkRequestLocked (some ⟨32, 2, [creationRecord]⟩) (creationIdentity [98]) .kCreateIfAbsent).replayed := by
  obtain ⟨hinj, hreplay⟩ := fingerprints_separate_requests tabulatedSha256
  have h97 := creation_fingerprint [97] (by decide)
  have h98 := creation_fingerprint [98] (by decide)
  constructor
  · refine (hreplay _ _ creationRecord_served (creation [97]) _ h97 ?_).mpr ⟨creationRecord, rfl, by simp⟩
    intro q hq _
    rw [List.mem_singleton.mp hq]
  · intro h
    have hcollision : ∀ q ∈ [creation [97]], tabulatedSha256 q.input.canonical =
        tabulatedSha256 (creation [98]).input.canonical → q.input.canonical = (creation [98]).input.canonical := by
      intro q hq hsum
      rw [List.mem_singleton.mp hq] at hsum
      exact absurd hsum (by decide)
    obtain ⟨r, -, hmem⟩ := (hreplay _ _ creationRecord_served (creation [98]) _ h98 hcollision).mp h
    have hsame : creation [98] = creation [97] := by simpa using (List.of_mem_zip hmem).2
    exact absurd ((hinj _ _ _ _ h98 h97).mpr (congrArg ClientRequest.input hsame)) (by decide)

end Eufs
