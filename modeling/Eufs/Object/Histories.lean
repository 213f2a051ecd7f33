import Eufs.Object.Evolution
import Eufs.Object.Fingerprint

/-!
# Eufs.Object.Histories — what the callers of the store are told over the life of a file

A history lists the answers of the object store: mutations whose transaction returned success, reads, and requests that
were answered from the ledger.  Between two answers transactions of any planner run, some of which are cut short, and
recoveries, some of which are cut short as well.  Two answers never contradict each other.
-/

namespace Eufs

open ImageReader Superblock InodeRecord

variable {operation : MutationOperation}

/-! ## The operations -/

/-- The version token of an inode. -/
def versionOf (n : ℕ) (v : InodeRecord) : ObjectVersion := ⟨UInt32.ofNat n, v.generation⟩

/-- An object is a regular file of the root directory. -/
def resolveRegularLocked (r : ImageReader) (name : Name) : Except Failure (ℕ × InodeRecord) := do
  reject (¬ isValidRootObjectName name) ⟨.EINVAL, "valid root object name and lookup outputs are required"⟩
  let (n, v) ← r.resolvePath (47 :: name)
  reject (¬ S_ISREG v.mode) ⟨.EISDIR, "object name does not resolve to a regular file"⟩
  return (n, v)

/-- What a caller was told. -/
inductive Reply where
  /-- A mutation was committed; the store knows a request only by its identity. -/
  | committed (name : Name) (version : ObjectVersion) (data : List UInt8)
      (request : Option (RequestIdentity × MutationOperation))
  | read (name : Name) (version : ObjectVersion) (data : List UInt8)
  /-- The ledger knew the request as committed. -/
  | replayed (request : RequestIdentity × MutationOperation) (version : ObjectVersion)

/-- The plans of `PutIfAbsent` and `ReplaceIfVersion`, with the version they make. -/
inductive Mutates (r : ImageReader) (name : Name) (data : List UInt8) :
    MutationOperation → ObjectVersion → PlanImages → Prop
  | put {permissions uid gid timestampNs plan}
      (h : prepareNewRootObject r ⟨name, data, permissions, uid, gid, timestampNs⟩ = .ok plan) :
      Mutates r name data .kCreateIfAbsent ⟨UInt32.ofNat plan.inodeNumber, 1⟩ plan.images
  | replace {expected : ObjectVersion} {n v timestampNs plan} (hresolve : resolveRegularLocked r name = .ok (n, v))
      (hversion : expected = versionOf n v)
      (h : prepareObjectReplace r n expected.generation data timestampNs = .ok plan) :
      Mutates r name data .kReplaceIfVersion ⟨UInt32.ofNat n, plan.newGeneration⟩ plan.images

/-- The transaction of a mutation, alone or with the record of its request, which the ledger does not know. -/
inductive Commits (r : ImageReader) : Reply → PlanImages → Prop
  | plain {name data operation version p} (h : Mutates r name data operation version p) :
      Commits r (.committed name version data none) p
  | recorded {name data operation version p identity index ledger totalBlocks uuid before ordered metadata}
      (h : Mutates r name data operation version p) (hscan : scanRequestLedger r = .ok index)
      (hhandled : (checkRequestLocked (some index) identity operation).handled = false)
      (hresult : (checkRequestLocked (some index) identity operation).result = .ok ())
      (happend : prepareRequestLedgerAppend r index (makeCommittedRecord operation identity version) = .ok ledger)
      (hmerge : ledger.mergeRequestLedgerAppend totalBlocks uuid p.beforeImages p.orderedDataAfterImages
        p.metadataAfterImages = .ok (before, ordered, metadata)) :
      Commits r (.committed name version data (some (identity, operation))) ⟨before, ordered, metadata⟩

/-- A transaction with these images returns success on `d` and leaves `d'`. -/
def PlanImages.Executes (p : PlanImages) (n : ℕ) (d d' : Image) : Prop :=
  ∃ totalBlocks uuid script trace t t' w', executeJournalTransaction p.beforeImages p.orderedDataAfterImages
    p.metadataAfterImages totalBlocks uuid t ⟨n, d, [], script, trace⟩ = .ok () t' w' ∧ w'.durable = d'

/-- A transaction with these images is refused on `d` or cut short and leaves `d'`. -/
def PlanImages.Breaks (p : PlanImages) (n : ℕ) (sb : Superblock) (d d' : Image) : Prop :=
  ∃ totalBlocks uuid script trace t, (executeJournalTransaction p.beforeImages p.orderedDataAfterImages
    p.metadataAfterImages totalBlocks uuid t ⟨n, d, [], script, trace⟩).Crashed (Torn sb) d'

namespace Reply

/-- The object an answer shows. -/
def object : Reply → Option (Name × ObjectVersion × List UInt8)
  | committed name version data _ => some (name, version, data)
  | read name version data => some (name, version, data)
  | replayed _ _ => none

/-- The request an answer confirms. -/
def request : Reply → Option ((RequestIdentity × MutationOperation) × ObjectVersion)
  | committed _ version _ q => q.map fun q => (q, version)
  | read _ _ _ => none
  | replayed q version => some (q, version)

def isCommitted : Reply → Prop
  | committed _ _ _ _ => True
  | _ => False

/-- The file of the ledger is not for objects; the source does not check that. -/
def Unreserved (sb : Superblock) (a : Reply) : Prop := ∀ name version data, a.object = some (name, version, data) →
  sb.HasLedger → version.inodeNumber.toNat ≠ kRequestLedgerInodeNumber

end Reply

/-- The lives of one file with the answers given so far: `d` is durable. -/
inductive Life (n : ℕ) (sb : Superblock) : List Reply → Image → Prop
  | formatted {options host t t'} {w w' : Disk} (hp : w.pending = [])
      (hrun : formatImage options host t w = .ok sb t' w') (hn : n = w'.size) : Life n sb [] w'.durable
  | transaction {hist d d' r p} (h : Life n sb hist d) (hopen : ImageReader.adoptLockedFd n d = .ok r)
      (hplan : PlannedBy FreshRecord r p) (hrun : p.Executes n d d') : Life n sb hist d'
  | interrupted {hist d d' r p} (h : Life n sb hist d) (hopen : ImageReader.adoptLockedFd n d = .ok r)
      (hplan : PlannedBy FreshRecord r p) (hrun : p.Breaks n sb d d') : Life n sb hist d'
  | committed {hist d d' r p a} (h : Life n sb hist d) (hopen : ImageReader.adoptLockedFd n d = .ok r)
      (hplan : Commits r a p) (ha : a.Unreserved sb) (hrun : p.Executes n d d') : Life n sb (hist ++ [a]) d'
  | recovered {hist d script trace x w'} (h : Life n sb hist d)
      (hrun : openAndResolve () ⟨n, d, [], script, trace⟩ = .ok x () w') : Life n sb hist w'.durable
  | recovering {hist d d' script trace} (h : Life n sb hist d)
      (hrun : (openAndResolve () ⟨n, d, [], script, trace⟩).Crashed (Torn sb) d') : Life n sb hist d'
  | read {hist d r name i v data} (h : Life n sb hist d) (hopen : ImageReader.adoptLockedFd n d = .ok r)
      (hclean : r.journalControl.usedBlocks = 0) (hresolve : resolveRegularLocked r name = .ok (i, v))
      (hread : r.readFile i 0 v.size.toNat = .ok data) (ha : (Reply.read name (versionOf i v) data).Unreserved sb) :
      Life n sb (hist ++ [.read name (versionOf i v) data]) d
  | replayed {hist d r index identity operation} (h : Life n sb hist d)
      (hopen : ImageReader.adoptLockedFd n d = .ok r) (hclean : r.journalControl.usedBlocks = 0)
      (hscan : scanRequestLedger r = .ok index)
      (hcheck : (checkRequestLocked (some index) identity operation).output.mutation.outcome = .kCommitted) :
      Life n sb (hist ++ [.replayed (identity, operation)
        (checkRequestLocked (some index) identity operation).output.mutation.committedVersion]) d

/-! ## Lookups and requests -/

/-- What a lookup finds is stored. -/
theorem Superblock.Consistent.stored_of_resolve {r : ImageReader} {name : Name} {n : ℕ} {v : InodeRecord}
    (hc : r.superblock.Consistent r.image)
    (hn : r.superblock.HasLedger → (UInt32.ofNat n).toNat ≠ kRequestLedgerInodeNumber)
    (h : resolveRegularLocked r name = .ok (n, v)) :
    r.superblock.Stored r.image name (versionOf n v) (v.content r.image) ∧ Readable r.superblock r.image n v ∧
      S_ISREG v.mode ∧ (UInt32.ofNat n).toNat = n := by
  obtain ⟨hvalid, h⟩ := reject_bind_eq_ok.mp h
  obtain ⟨⟨m, w⟩, hpath, h⟩ := bind_eq_ok.mp h
  obtain ⟨hreg, h⟩ := reject_bind_eq_ok.mp h
  obtain ⟨rfl, rfl⟩ := Prod.mk.inj (Except.ok.inj h)
  have hread := readable_of_resolvePath hpath
  obtain ⟨h1, -, -, -, h5, -⟩ := not_not.mp hvalid
  have hsplit : ([47].intercalate [name]).splitOn 47 = [name] :=
    List.splitOn_intercalate 47 (by simpa using h5) (List.cons_ne_nil _ _)
  rw [List.intercalate_singleton] at hsplit
  unfold resolvePath at hpath
  obtain ⟨-, hpath⟩ := reject_bind_eq_ok.mp hpath
  rw [if_neg (by simpa using h1)] at hpath
  obtain ⟨-, hpath⟩ := reject_bind_eq_ok.mp hpath
  obtain ⟨k, hfold, hpath⟩ := bind_eq_ok.mp hpath
  obtain ⟨_, -, hpath⟩ := bind_eq_ok.mp hpath
  obtain ⟨rfl, rfl⟩ := Prod.mk.inj (Except.ok.inj hpath)
  rw [List.tail_cons, hsplit, List.foldlM_cons] at hfold
  obtain ⟨k', hk, hfold⟩ := bind_eq_ok.mp hfold
  obtain rfl := Except.ok.inj hfold
  obtain ⟨-, hk⟩ := reject_bind_eq_ok.mp hk
  obtain ⟨entries, hlist, hk⟩ := bind_eq_ok.mp hk
  -- the entries are those of the root
  obtain ⟨u, hu⟩ := hc.exists_readable hc.root.1
  have hdir : S_ISDIR u.mode := by simpa [isDirectory_of_record hu.record] using hc.root.2
  rw [listDirectory_of_listable hu hdir (hc.listable hc.root.1 hu.record hdir)] at hlist
  cases hlist
  split at hk
  · cases hk
  rename_i e he
  obtain rfl := Except.ok.inj hk
  have hb : r.superblock.Binds r.image name e.inode := by
    refine ⟨e, ?_, by simpa using List.find?_some he, rfl⟩
    rw [entriesOf_of_record hu.record, if_pos hdir]
    exact List.mem_of_find?_eq_some he
  have hi : UInt32.ofNat e.inode.toNat = e.inode := UInt32.ofNat_toNat
  rw [hi] at hn
  rw [versionOf, hi]
  have hreg := not_not.mp hreg
  exact ⟨⟨hb, hc.isObject_of_binds hb hn, _, hread.record, hreg, rfl, rfl⟩, hread, hreg, rfl⟩

/-- A mutation stores a version later than the one that was there. -/
theorem Mutates.stored {r : ImageReader} {name : Name} {data : List UInt8} {version : ObjectVersion}
    {p : PlanImages} (h : Mutates r name data operation version p) (hr : r.superblock.Regions)
    (hc : r.superblock.Consistent r.image)
    (hledger : r.superblock.HasLedger → version.inodeNumber.toNat ≠ kRequestLedgerInodeNumber) :
    TreePlan r p ∧ r.superblock.Stored (p.after r.image) name version data ∧
      ∀ version' data', r.superblock.Stored r.image name version' data' →
        version'.Grows data' version data ∧ version'.generation < version.generation := by
  cases h with
  | put h =>
    obtain ⟨root, inodeBit, u, taken, edited, released, blocks, table, d, images, hplaced, hspace, rfl, hbuild⟩ :=
      NewObjectRequest.created_of_prepare hr hc.toSound h
    exact ⟨.create h, hbuild.after ▸ hplaced.stored hc hspace, fun _ _ hs => absurd hs.1 (hplaced.not_binds _)⟩
  | @replace expected n v timestampNs plan hresolve hversion h =>
    subst hversion
    obtain ⟨hs, hread, -, hn⟩ := hc.stored_of_resolve hledger hresolve
    have hobject := hs.2.1
    rw [versionOf, hn] at hobject
    obtain ⟨w, hplanned, rfl⟩ := FileMutationRequest.planned_of_prepare hr hc.toSound h
    obtain rfl := Option.some.inj (hread.record.symm.trans hplanned.readable.record)
    refine ⟨.replace hobject.2.2 h, ⟨?_, ?_, _, (congrArg _ hn).trans hplanned.inodeAt_self,
      hplanned.accepts.regular, rfl, hplanned.newRecord_content⟩,
      fun version' data' hs' => ?_⟩
    · rw [Superblock.Binds]
      exact (hplanned.sameTree.entriesOf_eq hc.toSound hc.root.1).symm ▸ hs.1
    · refine ⟨?_, by rw [hn]; exact hobject.2⟩
      rw [hn]
      exact hplanned.inodes_eq.symm ▸ hobject.1
    · obtain ⟨rfl, -⟩ := hs'.unique hs hc
      exact ⟨⟨rfl, .inl hplanned.generation_lt⟩, hplanned.generation_lt⟩

/-- A request that is executed has no record. -/
theorem find_of_check {index : RequestLedgerIndex} {identity : RequestIdentity}
    (hhandled : (checkRequestLocked (some index) identity operation).handled = false)
    (hresult : (checkRequestLocked (some index) identity operation).result = .ok ()) :
    identity.requestId ≠ Bytes.zero _ ∧ index.find identity.requestId = none := by
  unfold checkRequestLocked at hhandled hresult
  split_ifs at hhandled hresult with hid
  refine ⟨hid, ?_⟩
  cases hfind : index.find identity.requestId with
  | none => rfl
  | some existing =>
    dsimp only at hhandled
    rw [hfind] at hhandled
    dsimp only at hhandled
    split_ifs at hhandled
    unfold replayRecord at hhandled
    split at hhandled <;> cases hhandled

/-- The record tells the outcome of the request. -/
def RequestLedgerRecord.Tells (record : RequestLedgerRecord) (q : RequestIdentity × MutationOperation)
    (version : ObjectVersion) : Prop :=
  record.requestId = q.1.requestId ∧ record.fingerprint = q.1.fingerprint ∧ record.operation = q.2 ∧
    record.resultKind = .kCommitted ∧ version = ⟨record.committedInode, record.committedGeneration⟩

/-- A replay tells what the record tells. -/
theorem find_of_replay {index : RequestLedgerIndex} {identity : RequestIdentity}
    (h : (checkRequestLocked (some index) identity operation).output.mutation.outcome = .kCommitted) :
    identity.requestId ≠ Bytes.zero _ ∧ ∃ record, index.find identity.requestId = some record ∧
    record.Tells (identity, operation)
      (checkRequestLocked (some index) identity operation).output.mutation.committedVersion := by
  unfold checkRequestLocked at h ⊢
  split_ifs at h ⊢ with hid
  refine ⟨hid, ?_⟩
  dsimp only at h ⊢
  cases hfind : index.find identity.requestId with
  | none =>
    rw [hfind] at h
    dsimp only at h
    split_ifs at h
  | some existing =>
    rw [hfind] at h
    dsimp only at h ⊢
    split_ifs at h ⊢ with hsame
    refine ⟨existing, rfl, ?_⟩
    unfold replayRecord at h ⊢
    rw [not_or, not_not, not_not] at hsame
    cases hkind : existing.resultKind with
    | kNotApplied =>
      rw [hkind] at h
      cases h
    | kCommitted =>
      have hsameId : existing.requestId = identity.requestId := by simpa using List.find?_some hfind
      exact ⟨hsameId, hsame.2, hsame.1, hkind, rfl⟩

theorem RequestLedgerRecord.Tells.unique {record : RequestLedgerRecord} {q q' : RequestIdentity × MutationOperation}
    {version version' : ObjectVersion} (h : record.Tells q version) (h' : record.Tells q' version') :
    q = q' ∧ version = version' := by
  obtain ⟨⟨id, fingerprint⟩, operation⟩ := q
  obtain ⟨⟨id', fingerprint'⟩, operation'⟩ := q'
  obtain ⟨rfl, rfl, rfl, -, rfl⟩ := h
  obtain ⟨rfl, rfl, rfl, -, rfl⟩ := h'
  exact ⟨rfl, rfl⟩

/-! ## The invariant -/

section Invariant

variable {n : ℕ} {sb : Superblock} {d₀ d d' : Image} {r : ImageReader} {p : PlanImages}
  {hist : List Reply} {a : Reply}

/-- Whatever recovery makes of `d` agrees and goes on from `d₀`. -/
def Follows (n : ℕ) (sb : Superblock) (d₀ d : Image) : Prop :=
  ∃ t, Pending n sb t d ∧ ∀ img, t.Old sb img ∨ t.New sb img → sb.Consistent img ∧ sb.Evolves d₀ img

/-- The journal does not matter. -/
theorem KeepsOutside.follows (hk : KeepsOutside sb d d') (hr : sb.Regions) (hc : sb.Consistent d)
    (he : sb.Evolves d₀ d) : sb.Consistent d' ∧ sb.Evolves d₀ d' :=
  ⟨hk.consistent hr hc, he.trans ((hk.keepsUsed hr hc.toSound).evolves hr hc)⟩

theorem Idle.follows {c : JournalControl} {copy : ControlCopy} (h : Idle n sb c copy d) (hc : sb.Consistent d)
    (he : sb.Evolves d₀ d) : Follows n sb d₀ d := by
  refine ⟨⟨d, ∅, ∅⟩, .idle h (Or.inl fun _ _ _ => rfl), ?_⟩
  rintro img (hold | hnew)
  · exact KeepsOutside.follows (fun a ha => hold a ha (by simp)) h.mounts.regions hc he
  · refine KeepsOutside.follows (fun a ha => (hnew a ha).trans ?_) h.mounts.regions hc he
    simp [Interrupted.after, Interrupted.prepared]

/-- The reader of a file shows it. -/
theorem Follows.reader (h : Follows n sb d₀ d) (hopen : ImageReader.adoptLockedFd n d = .ok r) :
    r.image = d ∧ r.superblock = sb ∧ Opens n d sb r.journalControl r.journalControlCopy := by
  obtain ⟨t, hpend, -⟩ := h
  obtain ⟨c, copy, ho⟩ := hpend.opens
  obtain ⟨himage, ho', -⟩ := adoptLockedFd_eq_ok.mp hopen
  obtain ⟨hsb, rfl, rfl⟩ := ho.inj ho'
  exact ⟨himage, hsb, ho⟩

/-- With a clean journal nothing is left to recovery. -/
theorem Follows.settled (h : Follows n sb d₀ d) {c : JournalControl} {copy : ControlCopy} (ho : Opens n d sb c copy)
    (hu : c.usedBlocks = 0) : sb.Consistent d ∧ sb.Evolves d₀ d ∧ Follows n sb d d := by
  obtain ⟨t, hpend, ht⟩ := h
  obtain ⟨hidle, hd⟩ := hpend.idle_of_used ho hu
  exact ⟨(ht d hd).1, (ht d hd).2, hidle.follows (ht d hd).1 (.refl sb d)⟩

theorem PlannedBy.evolves (hr : r.superblock.Regions) (hc : r.superblock.Consistent r.image)
    (h : PlannedBy FreshRecord r p) : r.superblock.Evolves r.image (p.after r.image) := by
  cases h with
  | tree h => exact h.evolves hr hc
  | recorded h hscan hfresh happend hmerge =>
    rcases h with rfl | h
    · have hevolves := ((sparesLedger_nothing hc).evolves_recorded hr hc hscan hfresh happend hmerge).1
      rwa [PlanImages.after_empty] at hevolves
    · exact (h.evolves hr hc).trans ((h.sparesLedger hr hc).evolves_recorded hr hc hscan hfresh happend hmerge).1

/-- A transaction that returns success. -/
theorem Follows.transaction (h : Follows n sb d₀ d) (hopen : ImageReader.adoptLockedFd n d = .ok r)
    (hrun : p.Executes n d d') : r.image = d ∧ r.superblock = sb ∧ r.superblock.Regions ∧
      r.superblock.Consistent r.image ∧ r.superblock.Evolves d₀ r.image ∧
      (p.Preserves r → ∀ x, r.superblock.Evolves x (p.after r.image) → Follows n r.superblock x d') := by
  obtain ⟨rfl, rfl, ho⟩ := h.reader hopen
  obtain ⟨u, hpend, hu⟩ := h
  obtain ⟨_, _, _, _, _, _, w', hrun, rfl⟩ := hrun
  obtain ⟨hsettled, ⟨c, copy, hidle⟩, hnew, -⟩ := hpend.transaction hrun
  refine ⟨rfl, rfl, ho.regions, (hu _ hsettled).1, (hu _ hsettled).2, fun hp x hx => ?_⟩
  obtain ⟨hc, he⟩ := KeepsOutside.follows (d := p.after r.image) hnew ho.regions hp.consistent hx
  exact hidle.follows hc he

/-- A transaction that is refused or cut short. -/
theorem Follows.interrupted (h : Follows n sb d₀ d) (hopen : ImageReader.adoptLockedFd n d = .ok r)
    (hplan : PlannedBy FreshRecord r p) (hrun : p.Breaks n sb d d') : Follows n sb d₀ d' := by
  obtain ⟨rfl, rfl, ho⟩ := h.reader hopen
  obtain ⟨u, hpend, hu⟩ := h
  obtain ⟨_, _, _, _, _, hrun⟩ := hrun
  obtain ⟨-, rfl⟩ | ⟨hsettled, hpend', -⟩ := hpend.transaction_crash hrun
  · exact ⟨u, hpend, hu⟩
  obtain ⟨hc, he⟩ := hu _ hsettled
  have hp := preserves_of_plannedBy ho.regions hc hplan
  refine ⟨_, hpend', fun img himg => ⟨hp.safe ho.regions hc img himg, he.trans ?_⟩⟩
  rcases himg with hold | hnew
  · exact (hc.toSound.keepsUsed (O := {b | b ∈ p.orderedDataAfterImages}) ho.regions hp.free hold).evolves
      ho.regions hc
  · exact (KeepsOutside.follows (d := p.after r.image) hnew ho.regions hp.consistent (hplan.evolves ho.regions hc)).2

/-- What an answer has told still counts in `d`. -/
structure Known (n : ℕ) (sb : Superblock) (d : Image) (a : Reply) : Prop where
  object : ∀ name version data, a.object = some (name, version, data) →
    ∃ x, sb.Stored x name version data ∧ Follows n sb x d
  request : ∀ q version, a.request = some (q, version) → q.1.requestId ≠ Bytes.zero _ ∧
    ∃ x record, sb.Recorded x record ∧ record.Tells q version ∧ Follows n sb x d

/-- What an answer tells of an image, compared with what is there before. -/
structure Fits (sb : Superblock) (d : Image) (a : Reply) : Prop where
  object : ∀ name version data, a.object = some (name, version, data) → ∀ version' data',
    sb.Stored d name version' data' →
      version'.Grows data' version data ∧ (a.isCommitted → version'.generation < version.generation)
  request : ∀ q version, a.request = some (q, version) → ∀ record, sb.Recorded d record →
    record.requestId = q.1.requestId → a = .replayed q version ∧ record.Tells q version

/-- Of two answers about one object the later one shows the same version or a later one, and a mutation always makes a
later one. -/
def ObjectsAgree (x y : Reply) : Prop :=
  ∀ name v data v' data', x.object = some (name, v, data) → y.object = some (name, v', data') →
    v.Grows data v' data' ∧ (y.isCommitted → v.generation < v'.generation)

/-- Of two answers to one request id the later one is a replay of the earlier one. -/
def RequestsAgree (x y : Reply) : Prop :=
  ∀ q v q' v', x.request = some (q, v) → y.request = some (q', v') → q'.1.requestId = q.1.requestId →
    y = .replayed q v

theorem Known.mono (h : Known n sb d a) (hstep : ∀ x, Follows n sb x d → Follows n sb x d') : Known n sb d' a := by
  refine ⟨fun name version data ha => ?_, fun q version ha => ?_⟩
  · obtain ⟨x, hs, hx⟩ := h.object name version data ha
    exact ⟨x, hs, hstep x hx⟩
  · obtain ⟨hid, x, record, hrec, htells, hx⟩ := h.request q version ha
    exact ⟨hid, x, record, hrec, htells, hstep x hx⟩

/-- The new answer agrees with what is known. -/
theorem Known.agrees {y : Reply} (h : Known n sb d a) (hy : Fits sb d y)
    (hd : ∀ x, Follows n sb x d → sb.Evolves x d) : ObjectsAgree a y ∧ RequestsAgree a y := by
  refine ⟨fun name v data v' data' ha hb => ?_, fun q v q' v' ha hb hid => ?_⟩
  · obtain ⟨x, hs, hx⟩ := h.object name v data ha
    obtain ⟨u, c, hs', hgrows⟩ := (hd x hx).objects name v data hs
    obtain ⟨hgrows', hlt⟩ := hy.object name v' data' hb u c hs'
    refine ⟨hgrows.trans hgrows', fun hc => ?_⟩
    rcases hgrows.2 with hlt' | ⟨rfl, -⟩
    · exact UInt64.lt_trans hlt' (hlt hc)
    · exact hlt hc
  · obtain ⟨-, x, record, hrec, htells, hx⟩ := h.request q v ha
    obtain ⟨rfl, htells'⟩ := hy.request q' v' hb record ((hd x hx).records _ hrec) (htells.1.trans hid.symm)
    obtain ⟨rfl, rfl⟩ := htells.unique htells'
    rfl

/-- What holds over a life. -/
structure LifeInv (n : ℕ) (sb : Superblock) (hist : List Reply) (d : Image) : Prop where
  follows : ∃ x, Follows n sb x d
  known : ∀ a ∈ hist, Known n sb d a
  agree : hist.Pairwise fun x y => ObjectsAgree x y ∧ RequestsAgree x y

theorem LifeInv.mono (h : LifeInv n sb hist d) (hstep : ∀ x, Follows n sb x d → Follows n sb x d') :
    LifeInv n sb hist d' := by
  obtain ⟨x, hx⟩ := h.follows
  exact ⟨⟨x, hstep x hx⟩, fun a ha => (h.known a ha).mono hstep, h.agree⟩

/-- One answer more. -/
theorem LifeInv.answer (h : LifeInv n sb hist d)
    (hstep : ∀ x, Follows n sb x d → sb.Evolves x d ∧ Follows n sb x d')
    (hfits : Fits sb d a) (hknown : Known n sb d' a) : LifeInv n sb (hist ++ [a]) d' := by
  obtain ⟨x, hx⟩ := h.follows
  refine ⟨⟨x, (hstep x hx).2⟩, fun y hy => ?_, ?_⟩
  · rcases List.mem_append.mp hy with hy | hy
    · exact (h.known y hy).mono fun z hz => (hstep z hz).2
    · rwa [List.mem_singleton.mp hy]
  · refine List.pairwise_append.mpr ⟨h.agree, List.pairwise_singleton _ _, fun y hy z hz => ?_⟩
    rw [List.mem_singleton.mp hz]
    exact (h.known y hy).agrees hfits fun x hx => (hstep x hx).1

/-- A committed mutation agrees with what was there, and leaves what it tells. -/
theorem Commits.spec (h : Commits r a p) (hr : r.superblock.Regions) (hc : r.superblock.Consistent r.image)
    (ha : a.Unreserved r.superblock) : PlannedBy FreshRecord r p ∧ Fits r.superblock r.image a ∧
      ((∀ x, r.superblock.Evolves x (p.after r.image) → Follows n r.superblock x d') →
        Known n r.superblock d' a) := by
  cases h with
  | plain h =>
    obtain ⟨htree, hs, hlater⟩ := h.stored hr hc (ha _ _ _ rfl)
    refine ⟨.tree htree, ⟨?_, fun _ _ hq => by cases hq⟩, fun hd => ⟨?_, fun _ _ hq => by cases hq⟩⟩
    · rintro _ _ _ ⟨⟩ v' data' hs'
      obtain ⟨hgrows, hlt⟩ := hlater v' data' hs'
      exact ⟨hgrows, fun _ => hlt⟩
    · rintro _ _ _ ⟨⟩
      exact ⟨_, hs, hd _ (.refl _ _)⟩
  | @recorded _ _ operation version _ identity index _ _ _ _ _ _ h hscan hhandled hresult happend hmerge =>
    obtain ⟨htree, hs, hlater⟩ := h.stored hr hc (ha _ _ _ rfl)
    obtain ⟨hid, hfind⟩ := find_of_check hhandled hresult
    have hfresh : FreshRecord index (makeCommittedRecord operation identity version) := hfind
    obtain ⟨hevolves, hrecorded, k, hrecord⟩ :=
      (htree.sparesLedger hr hc).evolves_recorded hr hc hscan hfresh happend hmerge
    refine ⟨.recorded (.inr htree) hscan hfresh happend hmerge, ⟨?_, ?_⟩, fun hd => ⟨?_, ?_⟩⟩
    · rintro _ _ _ ⟨⟩ v' data' hs'
      obtain ⟨hgrows, hlt⟩ := hlater v' data' hs'
      exact ⟨hgrows, fun _ => hlt⟩
    · rintro _ _ ⟨⟩ record hrec hsame
      have := (indexes_of_scan hc hscan).find_eq_some.mpr ⟨hrec, hsame⟩
      cases hfind.symm.trans this
    · rintro _ _ _ ⟨⟩
      exact ⟨_, hs, hd _ hevolves⟩
    · rintro _ _ ⟨⟩
      exact ⟨hid, _, _, hrecorded, by rw [hrecord]; exact ⟨rfl, rfl, rfl, rfl, rfl⟩, hd _ (.refl _ _)⟩

/-- The invariant holds over every life. -/
theorem Life.inv (h : Life n sb hist d) : LifeInv n sb hist d := by
  induction h with
  | formatted hp hrun hn =>
    obtain ⟨g, base, hl, hf, -⟩ := formatImage_ok hp hrun
    have hidle := (formatImage_idle ∅ hp hrun).1
    rw [← hn] at hidle
    exact ⟨⟨_, hidle.follows (hf.consistent hl) (.refl _ _)⟩, fun a ha => absurd ha (by simp), .nil⟩
  | transaction _ hopen hplan hrun ih =>
    refine ih.mono fun x hx => ?_
    obtain ⟨rfl, rfl, hr, hc, he, hnext⟩ := hx.transaction hopen hrun
    exact hnext (preserves_of_plannedBy hr hc hplan) x (he.trans (hplan.evolves hr hc))
  | interrupted _ hopen hplan hrun ih => exact ih.mono fun x hx => hx.interrupted hopen hplan hrun
  | committed _ hopen hplan ha hrun ih =>
    obtain ⟨x, hx⟩ := ih.follows
    obtain ⟨rfl, rfl, hr, hc, -, hnext⟩ := hx.transaction hopen hrun
    obtain ⟨hplanned, hfits, hknown⟩ := hplan.spec hr hc ha
    have hnext := hnext (preserves_of_plannedBy hr hc hplanned)
    refine ih.answer (fun y hy => ?_) hfits (hknown hnext)
    obtain ⟨-, -, -, -, he, -⟩ := hy.transaction hopen hrun
    exact ⟨he, hnext y (he.trans (hplanned.evolves hr hc))⟩
  | recovered _ hrun ih =>
    refine ih.mono fun x hx => ?_
    obtain ⟨t, hpend, ht⟩ := hx
    obtain ⟨⟨c, copy, hidle⟩, hd, -⟩ := hpend.recovered hrun
    exact ⟨t, .idle hidle hd, ht⟩
  | recovering _ hrun ih =>
    refine ih.mono fun x hx => ?_
    obtain ⟨t, hpend, ht⟩ := hx
    exact ⟨t, (hpend.recovering hrun).1, ht⟩
  | read _ hopen hclean hresolve hread ha ih =>
    obtain ⟨x, hx⟩ := ih.follows
    obtain ⟨rfl, rfl, ho⟩ := hx.reader hopen
    obtain ⟨hc, -, hself⟩ := hx.settled ho hclean
    obtain ⟨hs, hreadable, hreg, -⟩ := hc.stored_of_resolve (ha _ _ _ rfl) hresolve
    -- the whole file was read
    rw [readFile_of_readable hreadable hreg, List.drop_zero,
      List.take_of_length_le (by simp [content])] at hread
    obtain rfl := Except.ok.inj hread
    refine ih.answer (fun y hy => ⟨(hy.settled ho hclean).2.1, hy⟩) ⟨?_, fun _ _ hq => by cases hq⟩
      ⟨?_, fun _ _ hq => by cases hq⟩
    · rintro _ _ _ ⟨⟩ v' data' hs'
      obtain ⟨rfl, rfl⟩ := hs.unique hs' hc
      exact ⟨⟨rfl, .inr ⟨rfl, rfl⟩⟩, False.elim⟩
    · rintro _ _ _ ⟨⟩
      exact ⟨_, hs, hself⟩
  | replayed _ hopen hclean hscan hcheck ih =>
    obtain ⟨x, hx⟩ := ih.follows
    obtain ⟨rfl, rfl, ho⟩ := hx.reader hopen
    obtain ⟨hc, -, hself⟩ := hx.settled ho hclean
    have hindex := indexes_of_scan hc hscan
    obtain ⟨hid, record, hfind, htells⟩ := find_of_replay hcheck
    refine ih.answer (fun y hy => ⟨(hy.settled ho hclean).2.1, hy⟩) ⟨fun _ _ _ ha => (by cases ha), ?_⟩
      ⟨fun _ _ _ ha => (by cases ha), ?_⟩
    · rintro _ _ ⟨⟩ record' hrec hsame
      obtain rfl := Option.some.inj (hfind.symm.trans (hindex.find_eq_some.mpr ⟨hrec, hsame⟩))
      exact ⟨rfl, htells⟩
    · rintro _ _ ⟨⟩
      exact ⟨hid, _, record, (hindex.find_eq_some.mp hfind).1, htells, hself⟩

section Settled

variable {c : JournalControl} {copy : ControlCopy} {version : ObjectVersion} (h : Known n sb d a)
  (ho : Opens n d sb c copy) (hclean : c.usedBlocks = 0)

include h ho hclean

/-- Once the journal is clean, an object that was shown is there. -/
theorem Known.stored {name : Name} {data : List UInt8} (hobject : a.object = some (name, version, data)) :
    ∃ version' data', sb.Stored d name version' data' ∧ version.Grows data version' data' := by
  obtain ⟨y, hs, hy⟩ := h.object name version data hobject
  exact (hy.settled ho hclean).2.1.objects name version data hs

end Settled

end Invariant

/-! ## What a caller may rely on -/

section Results

variable {n : ℕ} {sb : Superblock} {d : Image} {hist : List Reply}

end Results

/-! ## A life with answers -/

end Eufs
