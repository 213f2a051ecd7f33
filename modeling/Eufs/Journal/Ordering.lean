import Eufs.Journal.Progress
import Eufs.Storage.Formatted

/-!
# Eufs.Journal.Ordering — the write-ordering protocol

Whatever methods are called, in whatever order and with whatever results of the system calls, every write the store
issues obeys `Allowed`: a rule about the write, the call that issues it and the image that was durable at that moment.
What the store found in the file when it was opened has to be durable: `unsynced_commit_replayed` is a recovery that
trusts a COMMIT nobody has synced.

The store is always latched, or in one of five phases (`Phase`): nothing in progress, body durable, body exposed,
COMMIT durable, checkpointed.  Each method is allowed in one phase only and refuses in the others, so the proof is one
lemma a method; `StoreInv` is the invariant that carries it over a run.
-/

namespace Eufs

open Prog Std.ExtTreeMap Function

/-! ## The rule -/

/-- `next` exposes a body that is durable in `d`, and nothing was exposed before. -/
def Exposes (sb : Superblock) (d : Image) (c next : JournalControl) : Prop :=
  c.usedBlocks = 0 ∧ next.usedBlocks ≠ 0 ∧ ∃ body, exposedBody sb next d = .ok body

/-- `next` gives up the exposed range: it is uncommitted, or every after-image is durable at home. -/
def Cleans (sb : Superblock) (d : Image) (c next : JournalControl) : Prop :=
  c.usedBlocks ≠ 0 ∧ next = cleanControl c ∧
    ((∃ v, classify sb c d = .ok (false, v)) ∨
      ∃ v, classify sb c d = .ok (true, v) ∧ ∀ a x, v.metadataAfterImages[a]? = some x → d a = x)

/-- A transaction that fits after `c`. -/
structure Txn (sb : Superblock) (c : JournalControl) (metadata : BlockMap) : Prop where
  plan : Reservable c metadata.size
  targets : ∀ p ∈ metadata.toList, isValidMetadataTarget sb p.1
  ring : c.ringBlocks.toNat = sb.ringBlocks

/-- The public methods that can write or classify, with their arguments. -/
inductive Call where
  | writeOrderedDataAndUnexposedBody (totalBlocks : UInt32) (uuid : Uuid) (before ordered metadata : BlockMap)
  | writeUnexposedBody (reservation : RingReservationPlan) (metadata : BlockMap)
  | exposeDurableBody
  | writeCommit
  | completeCommittedTransaction
  | classifyRecovery
  | resolveRecovery

/-- The data blocks a call is given. -/
def Call.ordered : Call → BlockMap
  | .writeOrderedDataAndUnexposedBody _ _ _ ordered _ => ordered
  | _ => ∅

/-- The after-images a call is given. -/
def Call.metadata : Call → BlockMap
  | .writeOrderedDataAndUnexposedBody _ _ _ _ metadata => metadata
  | .writeUnexposedBody _ metadata => metadata
  | _ => ∅

/-- The rule for the write `p` of a call, issued while `d` was durable.  With a transaction of its own the call writes
data of it to the data region, at no block that has an after-image, and descriptor and after-images to the ring. -/
def Allowed (sb : Superblock) (call : Call) (d : Image) (p : Write Block Op) : Prop :=
  ∃ c copy, selected sb d = .ok (c, copy) ∧
    match p.op with
    | .orderedData => Txn sb c call.metadata ∧ call.ordered[p.addr]? = some p.data ∧
        blockIsInRegion p.addr sb.data ∧ p.addr ∉ call.metadata
    | .descriptor | .payload => Txn sb c call.metadata ∧ p ∈ bodyWrites sb c call.metadata ∧
        ∃ i < sb.ringBlocks, p.addr = sb.ringBlock i
    | .control => p.addr = sb.controlBlock copy.other ∧ ∃ next, p.data = controlBytes next ∧
        next.generation = c.generation + 1 ∧ (Exposes sb d c next ∨ Cleans sb d c next)
    | .commit => c.usedBlocks ≠ 0 ∧ ∃ desc images, exposedBody sb c d = .ok (desc, images) ∧
        p.addr = sb.ringBlock (commitRingIndex c desc).toNat ∧ checkCommit c desc p.data = .ok true
    | .home | .recoveryHome => ∃ v, classify sb c d = .ok (true, v) ∧ v.metadataAfterImages[p.addr]? = some p.data
    | _ => False

/-! ## Runs of the store -/

def Call.run : Call → Io JournalControlStore Unit
  | .writeOrderedDataAndUnexposedBody n u before ordered metadata => do
    let _ ← Eufs.writeOrderedDataAndUnexposedBody n u before ordered metadata
  | .writeUnexposedBody r metadata => do
    let _ ← Eufs.writeUnexposedBody r metadata
  | .exposeDurableBody => Eufs.exposeDurableBody
  | .writeCommit => Eufs.writeCommit
  | .completeCommittedTransaction => Eufs.completeCommittedTransaction
  | .classifyRecovery => do
    let _ ← Eufs.classifyRecovery
  | .resolveRecovery => do
    let _ ← Eufs.resolveRecovery

/-- Calls in sequence; a failed call does not end the run, a stopped machine does. -/
def runCalls : List Call → JournalControlStore → Disk → Option JournalControlStore × Disk
  | [], s, w => (some s, w)
  | call :: calls, s, w =>
    match call.run s w with
    | .ok _ s' w' => runCalls calls s' w'
    | .fail _ s' w' => runCalls calls s' w'
    | .stop w' => (none, w')

variable {s' : JournalControlStore} {w' w : Disk} {sb : Superblock} {call : Call} {d : Image} {c : JournalControl}
  {copy : ControlCopy} {p : Write Block Op} {n a : ℕ} {metadata : BlockMap} {x : Block}

/-! ## Phases -/

/-- Where a store is in its transaction; `d` is what is durable. -/
inductive Phase (s : JournalControlStore) (d : Image) : Prop where
  | idle (body : s.durableBody = none) (commit : s.commitDurable = false) (checkpointed : s.checkpointed = false)
  | body {metadata : BlockMap} (txn : Txn s.superblock s.current metadata)
      (state : InTxn s.superblock s.current metadata s.current s.currentCopy false s)
      (holds : HoldsBody s.superblock s.current metadata d)
  | exposed {c : JournalControl} {metadata : BlockMap} (txn : Txn s.superblock c metadata)
      (state : InTxn s.superblock c metadata (reservation c metadata.size).exposedControl s.currentCopy false s)
      (holds : HoldsBody s.superblock c metadata d)
  | committed {c : JournalControl} {metadata : BlockMap} (txn : Txn s.superblock c metadata)
      (state : InTxn s.superblock c metadata (reservation c metadata.size).exposedControl s.currentCopy true s)
      (holds : HoldsBody s.superblock c metadata d)
      (commit : d (commitSlot s.superblock c metadata) =
        commitBytes (commitRecord s.superblock (txnBody s.superblock c metadata)))
  | done {b : DurableJournalBody} (body : s.durableBody = some b) (commit : s.commitDurable = true)
      (checkpointed : s.checkpointed = true)
      (generation : b.reservation.exposedControl.generation ≠ s.current.generation + 1)

/-- A store whose state is known. -/
structure Live (s : JournalControlStore) (w : Disk) : Prop where
  pending : w.pending = []
  opens : Opens w.size w.durable s.superblock s.current s.currentCopy
  reload : s.reloadRequired = false
  phase : Phase s w.durable

/-- The invariant of a run. -/
def StoreInv (sb : Superblock) (s : JournalControlStore) (w : Disk) : Prop :=
  Latched s ∨ (s.superblock = sb ∧ Live s w)

/-- A call keeps the invariant and writes what is allowed. -/
def Keeps {α : Type} (sb : Superblock) (call : Call) (m : Io JournalControlStore α) (s : JournalControlStore)
    (w : Disk) : Prop :=
  Ends m s w (fun _ s' w' => StoreInv sb s' w' ∧ w.Logged w' (Allowed sb call))
    (fun _ s' w' => StoreInv sb s' w' ∧ w.Logged w' (Allowed sb call)) (fun w' => w.Logged w' (Allowed sb call))

section Rules

variable {α : Type} {sb : Superblock} {call : Call} {m : Io JournalControlStore α}
  {s : JournalControlStore} {w : Disk}

theorem Keeps.of_phased {ps : List (List (Write Block Op))} {Q : α → JournalControlStore → Prop}
    {K : JournalControlStore → Prop} {R : Failure → Prop} (h : Phased Latched m s w ps Q K R)
    (hall : ∀ d p, InBatches w.durable ps d p → Allowed sb call d p)
    (hQ : ∀ a s' w', Q a s' → w.Wrote ps w' → StoreInv sb s' w')
    (hK : ∀ s' w', K s' → w.Same w' → StoreInv sb s' w') : Keeps sb call m s w := by
  refine Ends.mono h ?_ ?_ ?_
  · rintro a s' w' ⟨hq, hw⟩
    exact ⟨hQ a s' w' hq hw, hw.log.mono hall⟩
  · rintro e s' w' (⟨hw, hl, -⟩ | ⟨hw, hk, -⟩)
    · exact ⟨Or.inl hl, hw.log.mono hall⟩
    · exact ⟨hK s' w' hk hw, hw.log.mono fun _ _ h => h.elim⟩
  · intro w' hw
    exact hw.log.mono hall

theorem Keeps.of_refuses (h : ∃ e, m s w = .fail e s w) (hs : StoreInv sb s w) : Keeps sb call m s w := by
  obtain ⟨e, he⟩ := h
  unfold Keeps Ends
  rw [he]
  exact ⟨hs, World.Logged.refl w⟩

theorem Keeps.map_unit (h : Keeps sb call m s w) :
    Keeps sb call (do let _ ← m : Io JournalControlStore Unit) s w := by
  unfold Keeps at *
  rw [ends_bind]
  exact h

theorem Live.same {v : Option ValidatedTransaction} (h : Live s w) (hs : s' = { s with validatedTransaction := v })
    (hw : w.Same w') : Live s' w' := by
  obtain rfl := hs
  refine ⟨hw.pending.trans h.pending, by rw [hw.size, hw.durable]; exact h.opens, h.reload, ?_⟩
  rw [hw.durable]
  have hin : ∀ {c metadata current copy k}, InTxn s.superblock c metadata current copy k s →
      InTxn s.superblock c metadata current copy k { s with validatedTransaction := v } := fun h =>
    ⟨h.superblock, h.current, h.currentCopy, h.body, h.images, h.commit, h.checkpointed, h.reload⟩
  cases h.phase with
  | idle h1 h2 h3 => exact .idle h1 h2 h3
  | body txn state holds => exact .body txn (hin state) holds
  | exposed txn state holds => exact .exposed txn (hin state) holds
  | committed txn state holds commit => exact .committed txn (hin state) holds commit
  | done h1 h2 h3 h4 => exact .done h1 h2 h3 h4

theorem Live.storeOk (h : Live s w) : StoreOk s := ⟨h.opens.regions, h.opens.valid, h.opens.uuid, h.opens.ring⟩

theorem Live.inv_same (h : Live s w) (hsb : s.superblock = sb) (hs : s' = s) (hw : w.Same w') :
    StoreInv sb s' w' :=
  Or.inr ⟨by rw [hs, hsb], h.same (v := s.validatedTransaction) hs hw⟩

end Rules

/-! ## Refusals -/

section Refusals

variable {s : JournalControlStore} {w : Disk}

theorem exposeDurableBody_refuses
    (h : s.reloadRequired = true ∨ s.current.usedBlocks ≠ 0 ∨ s.durableBody = none ∨
      ∃ b, s.durableBody = some b ∧ b.reservation.exposedControl.generation ≠ s.current.generation + 1) :
    ∃ e, exposeDurableBody s w = .fail e s w := by
  simp only [exposeDurableBody, get_bind, failIf_bind]
  split_ifs with h1 h2
  · exact ⟨_, rfl⟩
  · exact ⟨_, rfl⟩
  · cases hb : s.durableBody with
    | none => exact ⟨_, rfl⟩
    | some b =>
      have hg : b.reservation.exposedControl.generation ≠ s.current.generation + 1 := by
        rcases h with h | h | h | ⟨b', hb', hg⟩
        · exact absurd h h1
        · exact absurd h h2
        · exact absurd (hb.symm.trans h) (by simp)
        · rwa [Option.some.inj (hb.symm.trans hb')]
      simp only [persistNext, get_bind, failIf_bind, if_pos hg]
      split_ifs <;> exact ⟨_, rfl⟩

theorem writeCommit_refuses
    (h : s.reloadRequired = true ∨ s.durableBody = none ∨ s.commitDurable = true ∨
      ∃ b, s.durableBody = some b ∧ s.current ≠ b.reservation.exposedControl) :
    ∃ e, writeCommit s w = .fail e s w := by
  simp only [writeCommit, get_bind, failIf_bind]
  split_ifs with h1
  · exact ⟨_, rfl⟩
  · cases hb : s.durableBody with
    | none => exact ⟨_, rfl⟩
    | some b =>
      dsimp only
      rw [failIf_bind]
      split_ifs with h2
      · exact ⟨_, rfl⟩
      · have hx : ¬ sameControlState s.current b.reservation.exposedControl := by
          rw [sameControlState_iff]
          rcases h with h | h | h | ⟨b', hb', hx⟩
          · exact absurd h h1
          · exact absurd (hb.symm.trans h) (by simp)
          · exact absurd h h2
          · rwa [Option.some.inj (hb.symm.trans hb')]
        rw [failIf_bind, if_pos hx]
        exact ⟨_, rfl⟩

theorem completeCommittedTransaction_refuses
    (h : s.reloadRequired = true ∨ s.durableBody = none ∨ s.commitDurable = false ∨ s.checkpointed = true) :
    ∃ e, completeCommittedTransaction s w = .fail e s w := by
  simp only [completeCommittedTransaction, get_bind, failIf_bind]
  split_ifs with h1 h2 h3
  · exact ⟨_, rfl⟩
  · exact ⟨_, rfl⟩
  · exact ⟨_, rfl⟩
  · simp only [not_or, Option.isNone_iff_eq_none] at h2
    rcases h with h | h | h | h
    · exact absurd h h1
    · exact absurd h h2.1
    · exact absurd (by simp [h]) h2.2.1
    · exact absurd h h3

theorem resolveRecovery_refuses (h : s.reloadRequired = true ∨ s.durableBody ≠ none ∨ s.commitDurable = true) :
    ∃ e, resolveRecovery s w = .fail e s w := by
  simp only [resolveRecovery, get_bind, failIf_bind]
  split_ifs with h1 h2
  · exact ⟨_, rfl⟩
  · exact ⟨_, rfl⟩
  · simp only [not_or, Option.not_isSome_iff_eq_none] at h2
    rcases h with h | h | h
    · exact absurd h h1
    · exact absurd h2.1 h
    · exact absurd h h2.2

/-- After a write whose outcome is unknown every method returns an error and touches nothing. -/
theorem Call.run_latched (h : Latched s) (call : Call) (w : Disk) :
    ∃ e s', call.run s w = .fail e s' w ∧ Latched s' := by
  have hl : s.reloadRequired = true := h
  have lift : ∀ {α : Type} {m : Io JournalControlStore α}, (∃ e s', m s w = .fail e s' w ∧ Latched s') →
      ∃ e s', (do let _ ← m : Io JournalControlStore Unit) s w = .fail e s' w ∧ Latched s' := by
    rintro α m ⟨e, s', hm, hs'⟩
    refine ⟨e, s', ?_, hs'⟩
    show Prog.bind _ _ s w = _
    rw [Prog.bind, hm]
  have same : ∀ {α : Type} {m : Io JournalControlStore α}, (∃ e, m s w = .fail e s w) →
      ∃ e s', m s w = .fail e s' w ∧ Latched s' := fun ⟨e, he⟩ => ⟨e, s, he, h⟩
  cases call with
  | writeOrderedDataAndUnexposedBody n u before ordered metadata =>
    refine lift (same ?_)
    rw [Eufs.writeOrderedDataAndUnexposedBody, failIf_bind]
    by_cases hm : metadata.isEmpty = true
    · exact ⟨_, if_pos hm⟩
    · rw [if_neg hm, get_bind, failIf_bind, if_pos hl]
      exact ⟨_, rfl⟩
  | writeUnexposedBody r metadata =>
    refine lift (same ?_)
    rw [Eufs.writeUnexposedBody, get_bind, failIf_bind, if_pos hl]
    exact ⟨_, rfl⟩
  | exposeDurableBody => exact same (exposeDurableBody_refuses (Or.inl hl))
  | writeCommit => exact same (writeCommit_refuses (Or.inl hl))
  | completeCommittedTransaction => exact same (completeCommittedTransaction_refuses (Or.inl hl))
  | classifyRecovery =>
    refine lift ?_
    rw [Eufs.classifyRecovery, modify_bind, get_bind, failIf_bind, if_pos hl]
    exact ⟨_, _, rfl, hl⟩
  | resolveRecovery => exact lift (same (resolveRecovery_refuses (Or.inl hl)))

end Refusals

/-! ## One lemma a method -/

section Methods

variable {s : JournalControlStore} {w : Disk}

theorem allowed_body {d' : Image} (ho : Opens n d sb c copy) (ht : Txn sb c call.metadata)
    (hp : InBatches d [bodyWrites sb c call.metadata] d' p) : Allowed sb call d' p := by
  rcases inBatches_cons.mp hp with ⟨rfl, hbody⟩ | hnil
  · have hring := inRing_bodyWrites ht.plan.valid ht.ring p hbody
    refine ⟨c, copy, ho.selected, ?_⟩
    rcases List.mem_cons.mp hbody with rfl | hmem
    · exact ⟨ht, hbody, hring⟩
    · obtain ⟨q, -, rfl⟩ := List.mem_map.mp hmem
      exact ⟨ht, hbody, hring⟩
  · exact absurd hnil inBatches_nil

theorem BodyAccepted.idle {r : RingReservationPlan} {metadata : BlockMap} (h : BodyAccepted s r metadata)
    (hs : Live s w) : s.commitDurable = false ∧ s.checkpointed = false := by
  cases hs.phase with
  | idle _ h2 h3 => exact ⟨h2, h3⟩
  | body _ state => exact absurd (h.body.symm.trans state.body) (by simp)
  | exposed _ state => exact absurd (h.body.symm.trans state.body) (by simp)
  | committed _ state => exact absurd (h.body.symm.trans state.body) (by simp)
  | done h1 => exact absurd (h.body.symm.trans h1) (by simp)

/-- The state after the body is durable, however it got there. -/
theorem BodyAccepted.live {r : RingReservationPlan} (h : BodyAccepted s r metadata) (hs : Live s w)
    (hsize : w'.size = w.size) (hp : w'.pending = [])
    (hd : w'.durable = applyWrites (bodyWrites s.superblock s.current metadata) d)
    (hk : KeepsControls s.superblock w.durable d) :
    Live { s with
      durableBody := some (txnBody s.superblock s.current metadata), metadataAfterImages := metadata } w' := by
  have hok := hs.storeOk
  have hring : InRing s.superblock (bodyWrites s.superblock s.current metadata) :=
    inRing_bodyWrites hok.valid hok.ring
  obtain ⟨hc, hck⟩ := h.idle hs
  refine ⟨hp, ?_, hs.reload, ?_⟩
  · rw [hsize, hd]
    exact (hs.opens.keep hk).keep (hring.keepsControls hok.regions)
  · refine @Phase.body _ _ metadata ⟨h.plan, h.targets, hok.ring⟩
      ⟨rfl, rfl, rfl, rfl, rfl, hc, hck, hs.reload⟩ ?_
    rw [hd]
    exact holdsBody_applyWrites h.plan

theorem Live.writeUnexposedBody (h : Live s w) (r : RingReservationPlan) (metadata : BlockMap) :
    Keeps s.superblock (.writeUnexposedBody r metadata) (writeUnexposedBody r metadata) s w := by
  have hok := h.storeOk
  by_cases hacc : BodyAccepted s r metadata
  · have ht : Txn s.superblock s.current metadata := ⟨hacc.plan, hacc.targets, hok.ring⟩
    refine Keeps.of_phased (phased_writeUnexposedBody (R := fun _ => True) h.pending hok (fun _ => rfl)
      fun _ _ => trivial) ?_ ?_ ?_
    · intro d p hp
      exact allowed_body h.opens ht hp
    · rintro b s' w' ⟨-, -, rfl⟩ hw
      exact Or.inr ⟨rfl, hacc.live h hw.size hw.pending (by simpa using hw.durable) ⟨rfl, fun _ => rfl⟩⟩
    · rintro s' w' ⟨-, hno⟩
      exact absurd hacc hno
  · refine Keeps.of_phased (phased_writeUnexposedBody (R := fun _ => True) h.pending hok
      (fun ha => absurd ha hacc) fun _ _ => trivial) (fun d p hp => absurd hp inBatches_nil) ?_ ?_
    · rintro b s' w' ⟨ha, -⟩
      exact absurd ha hacc
    · rintro s' w' ⟨hs', -⟩ hw
      exact h.inv_same rfl hs' hw

theorem Live.writeOrderedDataAndUnexposedBody (h : Live s w) (n : UInt32) (u : Uuid)
    (before ordered metadata : BlockMap) :
    Keeps s.superblock (.writeOrderedDataAndUnexposedBody n u before ordered metadata)
      (writeOrderedDataAndUnexposedBody n u before ordered metadata) s w := by
  have hok := h.storeOk
  by_cases hacc : TxnAccepted s w.durable n u before ordered metadata
  · have hout := outside_orderedWrites hok.regions hacc.maps
    have ht : Txn s.superblock s.current metadata := ⟨hacc.plan, hacc.bodyAccepted.targets, hok.ring⟩
    refine Keeps.of_phased (phased_writeOrderedDataAndUnexposedBody (R := fun _ => True) h.pending hok h.opens.size
      (fun _ => rfl) fun _ _ => trivial) ?_ ?_ fun s' w' hs' hw => h.inv_same rfl hs' hw
    · intro d p hp
      unfold orderedBatches at hp
      split_ifs at hp
      · exact allowed_body h.opens ht hp
      · rcases inBatches_cons.mp hp with ⟨rfl, hp'⟩ | hp'
        · obtain ⟨q, hq, rfl⟩ := List.mem_map.mp hp'
          obtain ⟨hdata, -, hnot⟩ := hacc.maps.data q hq
          exact ⟨_, _, h.opens.selected, ht, mem_toList_iff_getElem?_eq_some.mp hq, hdata, hnot⟩
        · exact allowed_body (h.opens.keep (hout.keepsControls hok.regions)) ht hp'
    · rintro b s' w' ⟨-, -, rfl⟩ hw
      have hd := hw.durable
      unfold orderedBatches at hd
      split_ifs at hd
      · exact Or.inr ⟨rfl, hacc.bodyAccepted.live h hw.size hw.pending (by simpa using hd) ⟨rfl, fun _ => rfl⟩⟩
      · exact Or.inr ⟨rfl, hacc.bodyAccepted.live h hw.size hw.pending (by simpa [applyWrites_append] using hd)
          (hout.keepsControls hok.regions)⟩
  · refine Keeps.of_phased (phased_writeOrderedDataAndUnexposedBody (R := fun _ => True) h.pending hok
      h.opens.size (fun ha => absurd ha hacc) fun _ _ => trivial) (fun d p hp => absurd hp inBatches_nil) ?_
      fun s' w' hs' hw => h.inv_same rfl hs' hw
    rintro b s' w' ⟨ha, -⟩
    exact absurd ha hacc

theorem allowed_control {next : JournalControl} (ho : Opens n d sb c copy)
    (hg : next.generation = c.generation + 1) (h : Exposes sb d c next ∨ Cleans sb d c next) :
    Allowed sb call d (controlWrite sb copy.other next) :=
  ⟨c, copy, ho.selected, rfl, next, rfl, hg, h⟩

theorem allowed_home {op : Op} {v : ValidatedTransaction} (ho : Opens n d sb c copy)
    (hv : classify sb c d = .ok (true, v)) (hop : op = .home ∨ op = .recoveryHome)
    (hp : p ∈ homeWrites op v.metadataAfterImages) : Allowed sb call d p := by
  obtain ⟨q, hq, rfl⟩ := List.mem_map.mp hp
  have hx := mem_toList_iff_getElem?_eq_some.mp hq
  refine ⟨c, copy, ho.selected, ?_⟩
  rcases hop with rfl | rfl <;> exact ⟨v, hv, hx⟩

/-- The batches of a replay: home blocks of a committed transaction, then the clean control. -/
theorem allowed_replay {d' : Image} {op : Op} {v : ValidatedTransaction} (ho : Opens n d sb c copy)
    (hu : c.usedBlocks ≠ 0) (hv : classify sb c d = .ok (true, v)) (hop : op = .home ∨ op = .recoveryHome)
    (hp : InBatches d [homeWrites op v.metadataAfterImages, [controlWrite sb copy.other (cleanControl c)]] d' p) :
    Allowed sb call d' p := by
  have hout := outside_homeWrites op (classify_targets hv)
  rcases inBatches_cons.mp hp with ⟨rfl, hp'⟩ | hp'
  · exact allowed_home ho hv hop hp'
  · rcases inBatches_cons.mp hp' with ⟨rfl, hp''⟩ | hp''
    · obtain rfl := List.mem_singleton.mp hp''
      have hd : classify sb c (applyWrites (homeWrites op v.metadataAfterImages) d) = .ok (true, v) := by
        rw [classify_congr ho.valid ho.ring (hout.keepsRing ho.regions)]
        exact hv
      exact allowed_control (ho.keep (hout.keepsControls ho.regions)) rfl
        (Or.inr ⟨hu, rfl, Or.inr ⟨v, hd, fun a x hx => applyWrites_homeWrites hx⟩⟩)
    · exact absurd hp'' inBatches_nil

theorem Reservable.exposed_used (h : Reservable c n) : (reservation c n).exposedControl.usedBlocks ≠ 0 := by
  intro h0
  have h1 := h.used_toNat
  rw [show UInt32.ofNat (n + 2) = 0 from h0] at h1
  have : (0 : UInt32).toNat = 0 := rfl
  omega

/-- A synced exposing control over a durable body. -/
theorem Txn.expose (ht : Txn sb c metadata) (ho : Opens n d sb c copy) (hb : HoldsBody sb c metadata d) :
    let d' := applyWrites [controlWrite sb copy.other (reservation c metadata.size).exposedControl] d
    Opens n d' sb (reservation c metadata.size).exposedControl copy.other ∧ HoldsBody sb c metadata d' :=
  ⟨ho.next ht.plan.exposed_valid (by simp [hasSameIdentity, reservation]) rfl,
    hb.keep ht.plan.valid ht.ring keepsRing_controlWrite⟩

theorem Live.exposeDurableBody (h : Live s w) : Keeps s.superblock .exposeDurableBody exposeDurableBody s w := by
  have hok := h.storeOk
  have hself : StoreInv s.superblock s w := Or.inr ⟨rfl, h⟩
  cases h.phase with
  | idle h1 => exact .of_refuses (exposeDurableBody_refuses (Or.inr (Or.inr (Or.inl h1)))) hself
  | @body metadata txn state holds =>
    refine Keeps.of_phased (state.expose (R := fun _ => True) h.pending hok txn.plan) ?_ ?_ fun _ _ hf => hf.elim
    · intro d p hp
      rcases inBatches_cons.mp hp with ⟨rfl, hp'⟩ | hp'
      · obtain rfl := List.mem_singleton.mp hp'
        exact allowed_control h.opens rfl (Or.inl ⟨txn.plan.clean, txn.plan.exposed_used, _,
          holds.exposedBody txn.plan txn.targets⟩)
      · exact absurd hp' inBatches_nil
    · rintro - s' w' ⟨hin, -⟩ hw
      have hd : w'.durable = applyWrites [controlWrite s.superblock s.currentCopy.other
          (reservation s.current metadata.size).exposedControl] w.durable := by
        simpa using hw.durable
      obtain ⟨ho, hb⟩ := txn.expose h.opens holds
      refine Or.inr ⟨hin.superblock, hw.pending, ?_, hin.reload, ?_⟩
      · rw [hin.superblock, hin.current, hin.currentCopy, hw.size, hd]
        exact ho
      · refine @Phase.exposed _ _ s.current metadata ?_ ?_ ?_ <;> rw [hin.superblock]
        · exact txn
        · rw [hin.currentCopy]
          exact hin
        · rw [hd]
          exact hb
  | exposed txn state =>
    refine .of_refuses (exposeDurableBody_refuses (Or.inr (Or.inl ?_))) hself
    rw [state.current]
    exact txn.plan.exposed_used
  | committed txn state =>
    refine .of_refuses (exposeDurableBody_refuses (Or.inr (Or.inl ?_))) hself
    rw [state.current]
    exact txn.plan.exposed_used
  | done h1 _ _ h4 => exact .of_refuses (exposeDurableBody_refuses (Or.inr (Or.inr (Or.inr ⟨_, h1, h4⟩)))) hself

theorem Txn.commit_lt (h : Txn sb c metadata) :
    (txnBody sb c metadata).reservation.commitRingIndex.toNat < sb.ringBlocks := by
  have := h.plan.valid.ring
  exact (show (advance c.head _ c.ringBlocks).toNat < _ from advance_lt (by omega)).trans_eq h.ring

theorem Txn.body_slot (ht : Txn sb c metadata) :
    applyWrites (bodyWrites sb c metadata) d (commitSlot sb c metadata) = d (commitSlot sb c metadata) := by
  have hslots : commitSlot sb c metadata ∉ (bodyWrites sb c metadata).map Write.addr := (nodup_bodyWrites ht.plan).2
  exact applyWrites_of_not_mem _ _ _ fun p hp he => hslots (List.mem_map.mpr ⟨p, hp, he⟩)

/-- A synced COMMIT over an exposed body. -/
theorem Txn.commit {c' : JournalControl} (ht : Txn sb c metadata) (ho : Opens n d sb c' copy)
    (hb : HoldsBody sb c metadata d) :
    let d' := applyWrites [commitWrite sb (txnBody sb c metadata)] d
    Opens n d' sb c' copy ∧ HoldsBody sb c metadata d' ∧
      d' (commitSlot sb c metadata) = commitBytes (commitRecord sb (txnBody sb c metadata)) := by
  refine ⟨ho.keep ((inRing_commitWrite ht.commit_lt).keepsControls ho.regions), hb.congr fun p hp => ?_,
    update_self _ _ _⟩
  refine update_of_ne (fun he => ?_) _ _
  exact (nodup_bodyWrites ht.plan).2 (List.mem_map.mpr ⟨p, hp, he⟩)

theorem Live.writeCommit (h : Live s w) : Keeps s.superblock .writeCommit writeCommit s w := by
  have hok := h.storeOk
  have hself : StoreInv s.superblock s w := Or.inr ⟨rfl, h⟩
  cases h.phase with
  | idle h1 => exact .of_refuses (writeCommit_refuses (Or.inr (Or.inl h1))) hself
  | body txn state =>
    refine .of_refuses (writeCommit_refuses (Or.inr (Or.inr (Or.inr ⟨_, state.body, fun he => ?_⟩)))) hself
    refine txn.plan.exposed_used (Eq.trans ?_ txn.plan.clean)
    rw [he]
    rfl
  | @exposed c metadata txn state holds =>
    refine Keeps.of_phased (state.commits (R := fun _ => True) h.pending hok txn.plan) ?_ ?_ fun _ _ hf => hf.elim
    · intro d p hp
      rcases inBatches_cons.mp hp with ⟨rfl, hp'⟩ | hp'
      · obtain rfl := List.mem_singleton.mp hp'
        refine ⟨_, _, h.opens.selected, ?_⟩
        rw [state.current]
        refine ⟨txn.plan.exposed_used, _, _, holds.exposedBody txn.plan txn.targets, ?_,
          checkCommit_commitBytes txn.plan⟩
        rw [commitRingIndex_stored txn.plan]
        rfl
      · exact absurd hp' inBatches_nil
    · rintro - s' w' ⟨hin, -⟩ hw
      have hd : w'.durable = applyWrites [commitWrite s.superblock (txnBody s.superblock c metadata)] w.durable := by
        simpa using hw.durable
      obtain ⟨ho, hb, hcommit⟩ := txn.commit h.opens holds
      rw [state.current] at ho
      rw [← hd] at ho hb hcommit
      refine Or.inr ⟨hin.superblock, hw.pending, ?_, hin.reload, ?_⟩
      · rw [hin.superblock, hin.current, hin.currentCopy, hw.size]
        exact ho
      · refine @Phase.committed _ _ c metadata ?_ ?_ ?_ ?_ <;> rw [hin.superblock]
        · exact txn
        · rw [hin.currentCopy]
          exact hin
        · exact hb
        · exact hcommit
  | committed _ state => exact .of_refuses (writeCommit_refuses (Or.inr (Or.inr (Or.inl state.commit)))) hself
  | done _ h2 => exact .of_refuses (writeCommit_refuses (Or.inr (Or.inr (Or.inl h2)))) hself

theorem Live.completeCommittedTransaction (h : Live s w) :
    Keeps s.superblock .completeCommittedTransaction completeCommittedTransaction s w := by
  have hok := h.storeOk
  have hself : StoreInv s.superblock s w := Or.inr ⟨rfl, h⟩
  cases h.phase with
  | idle h1 => exact .of_refuses (completeCommittedTransaction_refuses (Or.inr (Or.inl h1))) hself
  | body _ state =>
    exact .of_refuses (completeCommittedTransaction_refuses (Or.inr (Or.inr (Or.inl state.commit)))) hself
  | exposed _ state =>
    exact .of_refuses (completeCommittedTransaction_refuses (Or.inr (Or.inr (Or.inl state.commit)))) hself
  | @committed c metadata txn state holds commit =>
    have ho := h.opens
    rw [state.current] at ho
    obtain ⟨v, hv, hm⟩ := holds.classify_committed txn.plan txn.targets commit
    refine Keeps.of_phased (state.completes (R := fun _ => True) h.pending hok txn.plan txn.targets) ?_ ?_
      fun _ _ hf => hf.elim
    · intro d p hp
      rw [← hm] at hp
      exact allowed_replay ho txn.plan.exposed_used hv (Or.inl rfl) (by rwa [← hm])
    · rintro - s' w' rfl hw
      have hout := outside_homeWrites .home txn.targets
      refine Or.inr ⟨rfl, hw.pending, ?_, h.reload, .done state.body state.commit rfl ?_⟩
      · rw [hw.size, hw.durable]
        simp only [List.flatten_cons, List.flatten_nil, List.append_nil, applyWrites_append]
        exact (ho.keep (hout.keepsControls hok.regions)).next (cleanControl_valid txn.plan.exposed_valid)
          (by simp [hasSameIdentity, cleanControl]) rfl
      · intro hg
        have hg' : c.generation + 1 = c.generation + 1 + 1 + 1 := hg
        have : (2 : UInt64) = 0 := by grind
        exact absurd this (by decide)
  | done _ _ h3 => exact .of_refuses (completeCommittedTransaction_refuses (Or.inr (Or.inr (Or.inr h3)))) hself

theorem Live.classifyRecovery (h : Live s w) : Keeps s.superblock .classifyRecovery classifyRecovery s w := by
  refine Keeps.of_phased (phased_classifyRecovery (R := fun _ => True) h.pending h.storeOk h.opens.size h.reload
    fun _ _ _ => trivial) (fun d p hp => absurd hp inBatches_nil) ?_ ?_
  · intro st s' w' hst hw
    have hsame := hw.same h.pending
    cases hst with
    | empty => exact Or.inr ⟨rfl, h.same (v := none) rfl hsame⟩
    | uncommitted => exact Or.inr ⟨rfl, h.same (v := none) rfl hsame⟩
    | @committed v => exact Or.inr ⟨rfl, h.same (v := some v) rfl hsame⟩
  · rintro s' w' rfl hw
    exact Or.inr ⟨rfl, h.same (v := none) rfl hw⟩

theorem Live.resolveRecovery (h : Live s w) : Keeps s.superblock .resolveRecovery resolveRecovery s w := by
  have hok := h.storeOk
  have hself : StoreInv s.superblock s w := Or.inr ⟨rfl, h⟩
  have hbusy : s.durableBody ≠ none → Keeps s.superblock .resolveRecovery Eufs.resolveRecovery s w := fun hb =>
    .of_refuses (resolveRecovery_refuses (Or.inr (Or.inl hb))) hself
  cases h.phase with
  | body _ state => exact hbusy (by simp [state.body])
  | exposed _ state => exact hbusy (by simp [state.body])
  | committed _ state => exact hbusy (by simp [state.body])
  | done h1 => exact hbusy (by simp [h1])
  | idle h1 h2 h3 =>
    -- a clean control over an image with the same superblock and controls but for the written one
    have hclean : ∀ (d : Image) (w' : Disk), KeepsControls s.superblock w.durable d → w'.size = w.size →
        w'.pending = [] → w'.durable = applyWrites
          [controlWrite s.superblock s.currentCopy.other (cleanControl s.current)] d →
        StoreInv s.superblock
          { s.forget with current := cleanControl s.current, currentCopy := s.currentCopy.other } w' := by
      intro d w' hd hsize hp hw
      refine Or.inr ⟨rfl, hp, ?_, h.reload, .idle h1 h2 h3⟩
      rw [hsize, hw]
      exact (h.opens.keep hd).next (cleanControl_valid hok.valid) (by simp [hasSameIdentity, cleanControl]) rfl
    refine Keeps.of_phased (phased_resolveRecovery (R := fun _ => True) h.pending hok h.opens.size h.reload h1 h2
      fun _ _ _ => trivial) ?_ ?_ ?_
    · intro d p hp
      unfold recoveryBatches at hp
      split_ifs at hp with hu
      · exact absurd hp inBatches_nil
      split at hp
      · exact absurd hp inBatches_nil
      · next v hv =>
        rcases inBatches_cons.mp hp with ⟨rfl, hp'⟩ | hp'
        · obtain rfl := List.mem_singleton.mp hp'
          exact allowed_control h.opens rfl (Or.inr ⟨hu, rfl, Or.inl ⟨v, hv⟩⟩)
        · exact absurd hp' inBatches_nil
      · next v hv => exact allowed_replay h.opens hu hv (Or.inr rfl) hp
    · intro a s' w' ha hw
      have hd := hw.durable
      cases ha with
      | noAction hu =>
        rw [recoveryBatches, if_pos hu] at hw
        exact Or.inr ⟨rfl, h.same (v := none) rfl (hw.same h.pending)⟩
      | discarded hu hv =>
        rw [recoveryBatches, if_neg hu, hv] at hd
        exact hclean w.durable w' ⟨rfl, fun _ => rfl⟩ hw.size hw.pending (by simpa using hd)
      | @replayed v hu hv =>
        rw [recoveryBatches, if_neg hu, hv] at hd
        have hout := outside_homeWrites .recoveryHome (classify_targets hv)
        exact hclean _ w' (hout.keepsControls hok.regions) hw.size hw.pending (by simpa [applyWrites_append] using hd)
    · rintro s' w' rfl hw
      exact Or.inr ⟨rfl, h.same (v := none) rfl hw⟩

/-- One call keeps the invariant and writes what is allowed. -/
theorem StoreInv.step {sb : Superblock} (h : StoreInv sb s w) (call : Call) : Keeps sb call call.run s w := by
  rcases h with h | ⟨rfl, h⟩
  · obtain ⟨e, s', he, hs'⟩ := Call.run_latched h call w
    unfold Keeps Ends
    rw [he]
    exact ⟨Or.inl hs', World.Logged.refl w⟩
  · cases call with
    | writeOrderedDataAndUnexposedBody n u before ordered metadata =>
      exact (h.writeOrderedDataAndUnexposedBody n u before ordered metadata).map_unit
    | writeUnexposedBody r metadata => exact (h.writeUnexposedBody r metadata).map_unit
    | exposeDurableBody => exact h.exposeDurableBody
    | writeCommit => exact h.writeCommit
    | completeCommittedTransaction => exact h.completeCommittedTransaction
    | classifyRecovery => exact h.classifyRecovery.map_unit
    | resolveRecovery => exact h.resolveRecovery.map_unit

/-- A run keeps the invariant. -/
theorem StoreInv.run : ∀ {s : JournalControlStore} {w : Disk} (_ : StoreInv sb s w)
    (calls : List Call) {s' : JournalControlStore}, (runCalls calls s w).1 = some s' →
      StoreInv sb s' (runCalls calls s w).2
  | s, w, h, [], s', hs' => Option.some.inj hs' ▸ h
  | s, w, h, call :: calls, s', hs' => by
    have hcall := h.step call
    unfold Keeps Ends at hcall
    simp only [runCalls] at hs' ⊢
    cases hr : call.run s w with
    | ok a s₁ w₁ =>
      rw [hr] at hcall hs'
      exact StoreInv.run hcall.1 calls hs'
    | fail e s₁ w₁ =>
      rw [hr] at hcall hs'
      exact StoreInv.run hcall.1 calls hs'
    | stop w₁ =>
      rw [hr] at hs'
      cases hs'

theorem Keeps.logged (h : Keeps sb call call.run s w) : w.Logged (call.run s w).world (Allowed sb call) := by
  unfold Keeps Ends at h
  cases hr : call.run s w with
  | ok a s' w' =>
    rw [hr] at h
    exact h.2
  | fail e s' w' =>
    rw [hr] at h
    exact h.2
  | stop w' =>
    rw [hr] at h
    exact h

end Methods

/-! ## Opening a store -/

/-- A run that opens a store found an image that opens, and wrote nothing. -/
theorem adoptLockedFd_ok {τ : Type} {t t' : τ} {s : JournalControlStore} (hp : w.pending = [])
    (h : adoptLockedFd t w = .ok s t' w') :
    ∃ sb c copy, Opens w.size w.durable sb c copy ∧ s = .fresh sb c copy ∧ w.Same w' := by
  have hrun : Phased (fun _ => True) (adoptLockedFd >>= pure) t w []
      (fun s _ => ∃ sb c copy, Opens w.size w.durable sb c copy ∧ s = .fresh sb c copy) (fun _ => True)
      (fun _ => True) :=
    phased_adoptLockedFd hp trivial (fun _ _ => trivial) fun sb c copy w' hw ho =>
      phased_pure (hw.pending.trans hp) ⟨sb, c, copy, ho, rfl⟩
  rw [bind_pure] at hrun
  obtain ⟨⟨sb, c, copy, ho, hs⟩, hw⟩ := Ends.ok hrun h
  exact ⟨sb, c, copy, ho, hs, hw.same hp⟩

theorem Opens.live (hp : w.pending = []) (h : Opens w.size w.durable sb c copy) : Live (.fresh sb c copy) w :=
  ⟨hp, h, rfl, .idle rfl rfl rfl⟩

/-- A latched store leaves the file alone, whatever is called. -/
theorem runCalls_latched : ∀ {s : JournalControlStore} (_ : Latched s) (calls : List Call) (w : Disk),
    ∃ s', Latched s' ∧ runCalls calls s w = (some s', w)
  | s, h, [], w => ⟨s, h, rfl⟩
  | s, h, call :: calls, w => by
    obtain ⟨e, s', he, hs'⟩ := Call.run_latched h call w
    obtain ⟨s'', h1, h2⟩ := runCalls_latched hs' calls w
    exact ⟨s'', h1, by simp only [runCalls, he, h2]⟩

/-- **The write-ordering protocol.**  Whatever was called on a store of a file without unsynced writes, and whatever the
calls of the host return:

* opening the store writes nothing, and every write of the next call obeys `Allowed`;
* as long as no reload is required, the store's control is the one selected on disk;
* once a reload is required, every later call fails and nothing is read, written or synced. -/
theorem store_writes_in_order {τ : Type} {t t' : τ} {s : JournalControlStore} {w₀ w : Disk} (hp : w₀.pending = [])
    (h : adoptLockedFd t w₀ = .ok s t' w) (calls : List Call) :
    w₀.Logged w (fun _ _ => False) ∧ ∀ s', (runCalls calls s w).1 = some s' →
      (∀ call, (runCalls calls s w).2.Logged (call.run s' (runCalls calls s w).2).world
        (Allowed s.superblock call)) ∧
      (s'.reloadRequired = false →
        selected s.superblock (runCalls calls s w).2.durable = .ok (s'.current, s'.currentCopy)) ∧
      (s'.reloadRequired = true → ∀ (later : List Call) (call : Call), ∃ s₁ e s₂,
        s₁.reloadRequired = true ∧
        runCalls later s' (runCalls calls s w).2 = (some s₁, (runCalls calls s w).2) ∧
        call.run s₁ (runCalls calls s w).2 = .fail e s₂ (runCalls calls s w).2) := by
  obtain ⟨sb, c, copy, ho, rfl, hw⟩ := adoptLockedFd_ok hp h
  have hlive : Live (.fresh sb c copy) w :=
    Opens.live (hw.pending.trans hp) (by rw [hw.size, hw.durable]; exact ho)
  refine ⟨hw.log, fun s' hs' => ?_⟩
  have hinv : StoreInv sb s' _ := StoreInv.run (Or.inr ⟨rfl, hlive⟩) calls hs'
  refine ⟨fun call => (hinv.step call).logged, fun hr => ?_, fun hr later call => ?_⟩
  · rcases hinv with hl | ⟨hsb, hl⟩
    · rw [show s'.reloadRequired = true from hl] at hr
      cases hr
    · have := hl.opens.selected
      rw [hsb] at this
      exact this
  · obtain ⟨s₁, h1, h2⟩ := runCalls_latched hr later (runCalls calls (.fresh sb c copy) w).2
    obtain ⟨e, s₂, h3, -⟩ := Call.run_latched h1 call (runCalls calls (.fresh sb c copy) w).2
    exact ⟨s₁, e, s₂, h1, h2, h3⟩

/-- The results of a host on which opening succeeds. -/
def openScript : List Sys := [⟨0, none⟩, ⟨0, none⟩, ⟨4096, none⟩, ⟨4096, none⟩, ⟨4096, none⟩]

/-- What opening leaves in the trace. -/
def openTrace (sb : Superblock) : List (Event Block Op) :=
  [.pread .readControlB (sb.controlBlock .kB) true, .pread .readControlA (sb.controlBlock .kA) true,
    .pread .readSuperblock 0 true, .syscall .fstatImage true, .syscall .inspectFd true]

theorem adoptLockedFd_run {τ : Type} (t : τ) (ps : List (Write Block Op)) (rest : List Sys)
    (trace : List (Event Block Op)) (h : Opens n (applyWrites ps d) sb c copy) :
    adoptLockedFd t ⟨n, d, ps, openScript ++ rest, trace⟩ =
      .ok (.fresh sb c copy) t ⟨n, d, ps, rest, openTrace sb ++ trace⟩ := by
  have hreg := h.regions
  have hpos : ¬ n < 1 := by
    have := hreg.journal_stop_lt
    have := h.size
    omega
  have hlt : ∀ copy, sb.controlBlock copy < n := fun copy => (hreg.controlBlock_lt_total copy).trans_eq h.size.symm
  have hread : ∀ (op : Op) (a : ℕ) (rest : List Sys) (trace : List (Event Block Op)), a < n →
      readBlock op a t ⟨n, d, ps, ⟨4096, none⟩ :: rest, trace⟩ =
        .ok (applyWrites ps d a) t ⟨n, d, ps, rest, .pread op a true :: trace⟩ :=
    fun op a rest trace ha => by
      have ht : transfer kBlockSize false 0 (⟨4096, none⟩ :: rest) = .complete rest := by
        cases rest <;> simp [transfer]
      simp [readBlock, preadAll, ht, ha, World.visible]
  have hsys : ∀ (op : Op) (rest : List Sys) (trace : List (Event Block Op)),
      syscall Op.text op t (⟨n, d, ps, ⟨0, none⟩ :: rest, trace⟩ : Disk) =
        .ok () t ⟨n, d, ps, rest, .syscall op true :: trace⟩ := fun op rest trace => by simp [syscall]
  refine bind_ok.mpr ⟨(), t, _, hsys _ _ _, ?_⟩
  refine bind_ok.mpr ⟨(sb, c, copy), t, _, ?_, rfl⟩
  unfold loadControlStateFromFd
  refine bind_ok.mpr ⟨(), t, _, hsys _ _ _, bind_ok.mpr ⟨n, t, _, rfl, ?_⟩⟩
  rw [failIf_bind, if_neg hpos]
  refine bind_ok.mpr ⟨applyWrites ps d 0, t, _, hread _ _ _ _ (by omega), ?_⟩
  refine bind_ok.mpr ⟨sb, t, _, ofExcept_ok.mpr ⟨orFail_eq_ok.mpr h.superblock, rfl, rfl⟩, ?_⟩
  rw [failIf_bind, if_neg (not_not.mpr h.features), failIf_bind, if_neg (not_not.mpr h.size.symm)]
  refine bind_ok.mpr ⟨_, t, _, hread _ _ _ _ (hlt .kA), bind_ok.mpr ⟨_, t, _, hread _ _ _ _ (hlt .kB), ?_⟩⟩
  exact bind_ok.mpr ⟨(c, copy), t, _, ofExcept_ok.mpr ⟨orFail_eq_ok.mpr h.selected, rfl, rfl⟩, rfl⟩

/-! ## A transaction on the small image -/

/-- One block, as the map of a transaction. -/
def singleBlock (a : ℕ) (x : Block) : BlockMap := (∅ : BlockMap).insert a x

theorem mem_singleBlock {p : ℕ × Block} : p ∈ (singleBlock a x).toList ↔ p = (a, x) := by
  rw [mem_toList_iff_getElem?_eq_some, singleBlock, getElem?_insert]
  obtain ⟨b, y⟩ := p
  by_cases h : a = b
  · subst h
    simp [eq_comm]
  · simp [h, Ne.symm h]

theorem size_singleBlock : (singleBlock a x).size = 1 := by
  simp [singleBlock, size_insert]

theorem toList_singleBlock : (singleBlock a x).toList = [(a, x)] := by
  obtain ⟨p, hp⟩ := List.length_eq_one_iff.mp (length_toList.trans (size_singleBlock (a := a) (x := x)))
  have hmem : p ∈ (singleBlock a x).toList := by simp [hp]
  rw [hp, mem_singleBlock.mp hmem]

theorem mem_singleBlock_iff {b : ℕ} : b ∈ singleBlock a x ↔ b = a := by
  simp [singleBlock, Std.LawfulEqCmp.compare_eq_iff_eq, @eq_comm ℕ b]

theorem noCommit_zero : NoCommit (Bytes.zero kBlockSize) := by
  intro r hr
  have hmagic : (Bytes.zero kBlockSize).read 0 8 ≠ kCommitMagic := by
    simp only [Bytes.read, Bytes.byte_zero]
    decide
  simp only [decodeCommit, reject_bind_eq_ok, not_or, ne_eq, not_not] at hr
  exact hmagic hr.1.1

theorem sampleReservable : Reservable (formattedControl sampleSuperblock) 1 :=
  ⟨(formattedControl_valid sampleLayout.regions).1, rfl, by decide, by decide, by decide, by decide⟩

/-- A store of the small image takes a transaction that rewrites a bitmap block and data blocks. -/
theorem sampleTxn {before ordered : BlockMap} (hr : Reservable c 1)
    (hkeys : ∀ b, b ∈ before ↔ b ∈ ordered ∨ b ∈ singleBlock 1 x)
    (hdata : ∀ b ∈ ordered, blockIsInRegion b sampleSuperblock.data)
    (hb : ∀ p ∈ before.toList, d p.1 = p.2) :
    TxnAccepted (.fresh sampleSuperblock c copy) d 16 sampleSuperblock.filesystemUuid before ordered
      (singleBlock 1 x) := by
  refine ⟨rfl, rfl, by rw [size_singleBlock]; exact hr, rfl, rfl,
    admissible_of_covered sampleLayout.regions hkeys (fun b hd h1 => ?_) hdata (fun b h1 => ?_), hb⟩
  · have := hdata b hd
    rw [mem_singleBlock_iff.mp h1] at this
    exact absurd this (by decide)
  · rw [mem_singleBlock_iff.mp h1]
    exact (by decide : isValidMetadataTarget sampleSuperblock 1)

theorem runCalls_cons_ok {calls : List Call} {s : JournalControlStore} {a : Unit} (h : call.run s w = .ok a s' w') :
    runCalls (call :: calls) s w = runCalls calls s' w' := by
  simp only [runCalls, h]

/-- The prefixes of a run that returns return. -/
theorem runCalls_take : ∀ {calls : List Call} {s s' : JournalControlStore} {w : Disk}
    (_ : (runCalls calls s w).1 = some s') (k : ℕ), ∃ s₁, (runCalls (calls.take k) s w).1 = some s₁
  | _, s, _, _, _, 0 => ⟨s, rfl⟩
  | [], s, _, _, _, k + 1 => ⟨s, rfl⟩
  | call :: calls, s, s', w, h, k + 1 => by
    simp only [List.take_succ_cons, runCalls] at h ⊢
    cases hr : call.run s w with
    | ok a s₁ w₁ =>
      rw [hr] at h
      exact runCalls_take h k
    | fail e s₁ w₁ =>
      rw [hr] at h
      exact runCalls_take h k
    | stop w₁ =>
      rw [hr] at h
      cases h

/-- One data block and one bitmap block. -/
def samplePrepare : Call :=
  .writeOrderedDataAndUnexposedBody 16 sampleSuperblock.filesystemUuid
    ((singleBlock 1 (sampleImage 1)).insert 12 (sampleImage 12)) (singleBlock 12 (sampleImage 0))
    (singleBlock 1 (Bytes.zero _))

/-- A transaction, method by method. -/
def sampleCalls : List Call := [samplePrepare, .exposeDurableBody, .writeCommit, .completeCommittedTransaction]

theorem samplePrepare_accepted :
    TxnAccepted (.fresh sampleSuperblock (formattedControl sampleSuperblock) .kA) sampleImage 16
      sampleSuperblock.filesystemUuid ((singleBlock 1 (sampleImage 1)).insert 12 (sampleImage 12))
      (singleBlock 12 (sampleImage 0)) (singleBlock 1 (Bytes.zero _)) := by
  refine sampleTxn sampleReservable
    (fun b => by simp [mem_singleBlock_iff, Std.LawfulEqCmp.compare_eq_iff_eq, @eq_comm ℕ b])
    (fun b hb => mem_singleBlock_iff.mp hb ▸ (by decide)) fun p hp => ?_
  obtain ⟨a, x⟩ := p
  rw [mem_toList_iff_getElem?_eq_some, getElem?_insert] at hp
  split_ifs at hp with h12
  · rw [← Std.LawfulEqCmp.compare_eq_iff_eq.mp h12, ← Option.some.inj hp]
  · obtain ⟨rfl, rfl⟩ := Prod.mk.inj (mem_singleBlock.mp (mem_toList_iff_getElem?_eq_some.mpr hp))
    rfl

/-- When no system call fails, the transaction runs to its end. -/
theorem sampleCalls_run : ∃ script s s' w w', s.superblock = sampleSuperblock ∧
    adoptLockedFd () (⟨16, sampleImage, [], script, []⟩ : Disk) = .ok s () w ∧
    runCalls sampleCalls s w = (some s', w') ∧ w'.durable 1 = Bytes.zero _ := by
  have ha := samplePrepare_accepted
  have hopens := sampleImage_formatted.opens sampleLayout
  obtain ⟨c₁, _, s₁, w₁, ⟨hin₁, hs₁, hw₁⟩, hr₁⟩ :=
    hopens.completes_prepare (w := ⟨16, sampleImage, [], [], openTrace sampleSuperblock⟩) rfl ha
  obtain ⟨c₂, _, s₂, w₂, ⟨hin₂, hs₂, hw₂⟩, hr₂⟩ := hin₁.completes_expose hs₁ ha.plan hw₁.pending
  obtain ⟨c₃, _, s₃, w₃, ⟨hin₃, hs₃, hw₃⟩, hr₃⟩ := hin₂.completes_commit hs₂ ha.plan hw₂.pending
  obtain ⟨c₄, _, s₄, w₄, hw₄, hr₄⟩ :=
    hin₃.completes_home hs₃ ha.plan hw₃.pending fun p hp => (ha.maps.targets p hp).1
  have hwrite : samplePrepare.run _ _ = .ok () s₁ _ :=
    bind_ok.mpr ⟨_, s₁, _, hr₁ (c₂ ++ (c₃ ++ (c₄ ++ []))), rfl⟩
  have hexpose : Call.exposeDurableBody.run _ _ = .ok () s₂ _ := hr₂ (c₃ ++ (c₄ ++ []))
  have hcommit : Call.writeCommit.run _ _ = .ok () s₃ _ := hr₃ (c₄ ++ [])
  have hhome : Call.completeCommittedTransaction.run _ _ = .ok () s₄ _ := hr₄ []
  refine ⟨_, _, s₄, _, { w₄ with script := [] }, rfl,
    adoptLockedFd_run () [] (c₁ ++ (c₂ ++ (c₃ ++ (c₄ ++ [])))) [] hopens,
    (runCalls_cons_ok hwrite).trans <| (runCalls_cons_ok hexpose).trans <|
      (runCalls_cons_ok hcommit).trans <| runCalls_cons_ok hhome, ?_⟩
  have hd := congrFun hw₄.durable 1
  rw [List.flatten_cons, applyWrites_append, List.flatten_singleton] at hd
  refine hd.trans ((applyWrites_of_not_mem _ _ _ fun p hp => ?_).trans
    (applyWrites_homeWrites (by simp [singleBlock])))
  rw [List.mem_singleton.mp hp]
  decide

theorem store_writes_in_order_sample : ∃ script s w,
    adoptLockedFd () (⟨16, sampleImage, [], script, []⟩ : Disk) = .ok s () w ∧
    (∀ k < 4, ∃ s' call, (runCalls (sampleCalls.take k) s w).1 = some s' ∧ sampleCalls[k]? = some call ∧
      (runCalls (sampleCalls.take k) s w).2.Logged (call.run s' (runCalls (sampleCalls.take k) s w).2).world
        (Allowed sampleSuperblock call)) ∧
    (runCalls sampleCalls s w).2.durable 1 = Bytes.zero _ := by
  obtain ⟨script, s, s₄, w, w₄, hsb, hopen, hrun, hd⟩ := sampleCalls_run
  refine ⟨script, s, w, hopen, fun k hk => ?_, hrun ▸ hd⟩
  obtain ⟨s', hs'⟩ := runCalls_take (congrArg Prod.fst hrun) k
  exact ⟨s', sampleCalls[k], hs', List.getElem?_eq_getElem _,
    hsb ▸ ((store_writes_in_order rfl hopen _).2 s' hs').1 _⟩

/-- A COMMIT that is not durable.  The process that ran the transaction is killed before it has synced the COMMIT; the
next one reads the COMMIT from the file and writes the after-image home. -/
theorem unsynced_commit_replayed : ∃ script w s w',
    executeJournalTransaction (singleBlock 1 (sampleImage 1)) ∅ (singleBlock 1 (Bytes.zero _)) 16
      sampleSuperblock.filesystemUuid false ⟨16, sampleImage, [], script, []⟩ = .stop w ∧
    (∃ script', adoptLockedFd () (⟨16, w.durable, w.pending, script', []⟩ : Disk) = .ok s () w') ∧
    ¬ w'.Logged (Call.resolveRecovery.run s w').world (Allowed s.superblock .resolveRecovery) := by
  have hopens : Opens 16 sampleImage sampleSuperblock (formattedControl sampleSuperblock) .kA :=
    sampleImage_formatted.opens sampleLayout
  have ha : TxnAccepted (.fresh sampleSuperblock (formattedControl sampleSuperblock) .kA) sampleImage 16
      sampleSuperblock.filesystemUuid (singleBlock 1 (sampleImage 1)) ∅ (singleBlock 1 (Bytes.zero _)) :=
    sampleTxn sampleReservable (fun b => by simp [mem_singleBlock_iff]) (by simp)
    (fun p hp => by rw [mem_singleBlock.mp hp])
  obtain ⟨script, w, ⟨hd, hp⟩, hstop⟩ := stops_executeJournalTransaction (t := false)
    (w := ⟨16, sampleImage, [], [], []⟩) rfl hopens ha
  have ht : Txn sampleSuperblock (formattedControl sampleSuperblock) (singleBlock 1 (Bytes.zero _)) :=
    ⟨ha.plan, fun p hp => (ha.maps.targets p hp).1, hopens.ring⟩
  have hring := @inRing_bodyWrites _ _ (singleBlock 1 (Bytes.zero _)) ht.plan.valid ht.ring
  simp only [show orderedBatches ∅ = [] from rfl, List.nil_append, List.flatten_cons, List.flatten_nil,
    List.append_nil] at hd
  obtain ⟨ho, hb⟩ := ht.expose (hopens.keep (hring.keepsControls hopens.regions)) (holdsBody_applyWrites ht.plan)
  obtain ⟨ho', hb', hcommit⟩ := ht.commit ho hb
  rw [← hd] at ho hb ho' hb' hcommit
  obtain ⟨v, hv, hm⟩ := hb'.classify_committed ht.plan ht.targets hcommit
  have hv' : w.visible = applyWrites [commitWrite sampleSuperblock (txnBody sampleSuperblock
      (formattedControl sampleSuperblock) (singleBlock 1 (Bytes.zero _)))] w.durable := by rw [World.visible, hp]
  rw [← hv'] at ho' hv
  obtain ⟨script', w', hwrite, hrec⟩ : Stops Call.resolveRecovery.run _ _ _ := stops_of_stops (stops_resolveRecovery
    (w := ⟨16, w.durable, w.pending, [], openTrace sampleSuperblock ++ []⟩) ho'.storeOk ho'.size rfl rfl rfl
    ht.plan.exposed_used hv (hm ▸ toList_singleBlock))
  refine ⟨script, w, _, _, hstop, ⟨_, adoptLockedFd_run () w.pending script' [] ho'⟩, fun hlog => ?_⟩
  rw [show Call.resolveRecovery.run _ _ = _ from hrec] at hlog
  rcases hlog _ _ _ hwrite with hold | ⟨c, copy, hsel, v', hv₁, -⟩
  · simp [openTrace] at hold
  · -- the image that is durable holds no COMMIT
    obtain ⟨rfl, rfl⟩ := Prod.mk.inj (Except.ok.inj (hsel.symm.trans ho.selected))
    have hslot : w.durable (commitSlot sampleSuperblock (formattedControl sampleSuperblock)
        (singleBlock 1 (Bytes.zero _))) = Bytes.zero _ := by
      rw [hd]
      exact (keepsRing_controlWrite _ ht.commit_lt).trans
        (ht.body_slot.trans (sampleImage_formatted.keepsRing sampleLayout _ ht.commit_lt))
    obtain ⟨v'', hv₂⟩ := hb.classify_uncommitted ht.plan ht.targets fun r hr =>
      absurd (hslot ▸ hr) (noCommit_zero r)
    cases hv₁.symm.trans hv₂

end Eufs
