import Eufs.Rpc.Service

/-!
# Eufs.Rpc.Ownership — who has a closure, a task or a lease

At every moment a call's closure is with its handler's guard, with a task object, or with a running callback, and a
lease is with a handler or a task object.  `Weight` counts what one likes of these, thread by thread and queue by
queue, and `Move` is everything a step of a thread can do to them: `Thread.Ok.move` translates the steps of the
service into moves once, and the invariants are about moves.
-/

namespace Eufs

open InflightByteLimiter Function Shared

/-- How much each thing that is handed on counts. -/
structure Weight where
  guard : ℕ → ℕ := fun _ => 0
  bytes : UInt64 → ℕ := fun _ => 0
  task : QueuedTask TaskId → ℕ := fun _ => 0
  callback : TaskId → ℕ := fun _ => 0

namespace Weight

/-- A lease object; an empty one counts nothing. -/
def lease (w : Weight) : Lease → ℕ
  | none => 0
  | some bytes => w.bytes bytes

def tasks (w : Weight) (l : List (QueuedTask TaskId)) : ℕ := (l.map w.task).sum

@[simp] theorem tasks_nil (w : Weight) : w.tasks [] = 0 := rfl

@[simp] theorem tasks_cons (w : Weight) (t : QueuedTask TaskId) (l : List (QueuedTask TaskId)) :
    w.tasks (t :: l) = w.task t + w.tasks l := by simp [tasks]

@[simp] theorem tasks_append (w : Weight) (l l' : List (QueuedTask TaskId)) :
    w.tasks (l ++ l') = w.tasks l + w.tasks l' := by simp [tasks]

end Weight

def TaskFinish.weight (w : Weight) : TaskFinish → ℕ
  | .callback task id _ => w.task task + w.callback id
  | .returned task => w.task task

def Handler.weight (w : Weight) (k : ℕ) : Handler → ℕ
  | .entered => w.guard k
  | .admitted _ => w.guard k
  | .building lease => w.guard k + w.lease lease
  | .leaving => w.guard k
  | .offering task => w.task task
  | .refused task => w.task task
  | .finishing f => f.weight w
  | .returned => 0

def Worker.weight (w : Weight) : Worker → ℕ
  | .waiting => 0
  | .holding task => w.task task
  | .finishing f => f.weight w
  | .exited => 0

def Shutdown.weight (w : Weight) : Shutdown → ℕ
  | .tookWrites pending => w.tasks pending
  | .cancelling pending => w.tasks pending
  | .finishing f pending => f.weight w + w.tasks pending
  | _ => 0

def Thread.weight (w : Weight) : Thread → ℕ
  | .handler k _ h => h.weight w k
  | .worker _ x => x.weight w
  | .shutdown x => x.weight w

/-- What the queues hold. -/
def Shared.weight (w : Weight) (s : Shared) : ℕ := w.tasks s.writeQueue.tasks + w.tasks s.readQueue.tasks

/-- What the whole service holds. -/
def Pool.weight (w : Weight) (p : Pool Shared Thread) : ℕ := p.shared.weight w + p.total (Thread.weight w)

variable {x : Response} {id : TaskId} {task : QueuedTask TaskId} {lease : Lease}

/-! ## Tasks in their places -/

/-- A task of a call that has to be completed. -/
def Ready (kind : QueueKind) (t : QueuedTask TaskId) : Prop := t.Ok ∧ ∃ k, t.pending = some ⟨kind, k⟩

def TaskFinish.Ok : TaskFinish → Prop
  | .callback task _ _ => task.pending = none
  | .returned task => task.pending = none

def Handler.Ok (k : ℕ) (r : Request) : Handler → Prop
  | .admitted _ => r.kind = .write
  | .building lease => lease.isSome = (r.kind = .write : Bool)
  | .offering task => task.Ok ∧ task.pending = some ⟨r.kind, k⟩
  | .refused task => task.Ok ∧ task.pending = some ⟨r.kind, k⟩
  | .finishing f => f.Ok
  | _ => True

def Worker.Ok (kind : QueueKind) : Worker → Prop
  | .holding task => Ready kind task
  | .finishing f => f.Ok
  | _ => True

def Shutdown.Ok : Shutdown → Prop
  | .tookWrites pending => ∀ t ∈ pending, ∃ kind, Ready kind t
  | .cancelling pending => ∀ t ∈ pending, ∃ kind, Ready kind t
  | .finishing f pending => f.Ok ∧ ∀ t ∈ pending, ∃ kind, Ready kind t
  | _ => True

def Thread.Ok : Thread → Prop
  | .handler k r h => h.Ok k r
  | .worker kind w => w.Ok kind
  | .shutdown x => x.Ok

def Shared.Ok (s : Shared) : Prop := ∀ kind, ∀ t ∈ (s.queue kind).tasks, Ready kind t

/-! ## Moves -/

/-- The two states agree in everything that is counted. -/
structure Shared.Same (s s' : Shared) : Prop where
  limiter : s'.limiter = s.limiter
  writeQueue : s'.writeQueue = s.writeQueue
  readQueue : s'.readQueue = s.readQueue
  callCount : s'.callCount = s.callCount
  accepted : s'.accepted = s.accepted
  ran : s'.ran = s.ran
  calls : ∀ k, (s'.calls k).released = (s.calls k).released ∧ (s'.calls k).completion = (s.calls k).completion ∧
    (s'.calls k).doneRuns = (s.calls k).doneRuns

/-- The write task the worker of the write queue has taken and not begun. -/
def Thread.held : Thread → List ℕ
  | .worker .write (.holding task) => (task.pending.map TaskId.call).toList
  | _ => []

/-- Whether the thread can still offer the task of call `k`. -/
def Thread.unoffered (k : ℕ) : Thread → ℕ
  | .handler k' _ .entered | .handler k' _ (.admitted _) | .handler k' _ (.building _)
  | .handler k' _ (.offering _) => if k' = k then 1 else 0
  | _ => 0

/-- The thread goes on without a change to what it has to offer or took from the write queue. -/
structure Thread.Goes (t t' : Thread) : Prop where
  held : t'.held = t.held
  unoffered : ∀ k, t'.unoffered k ≤ t.unoffered k

/-- What one step does. -/
inductive Move (s : Shared) (t : Thread) (s' : Shared) (t' : Thread) : Prop
  | quiet (hs : s.Same s') (hg : t.Goes t') (hw : ∀ w, t'.weight w = t.weight w)
  | acquire {bytes : UInt64} {limiter : InflightByteLimiter}
      (ha : s.limiter.tryAcquire bytes = some (some bytes, limiter)) (hs : ({ s with limiter } : Shared).Same s')
      (hg : t.Goes t') (hw : ∀ w, t'.weight w = t.weight w + w.lease (some bytes))
  /-- A handler gives up its lease. -/
  | giveBack {lease : Lease} (hs : (s.release lease).Same s') (hg : t.Goes t')
      (hw : ∀ w, t'.weight w + w.lease lease = t.weight w)
  /-- A completed task gives up its lease and is gone. -/
  | retire {task : QueuedTask TaskId} (hp : task.pending = none) (hs : (s.release task.byteLease).Same s')
    (hg : t.Goes t') (hw : ∀ w, t'.weight w + w.task task = t.weight w)
  /-- A guard runs the closure. -/
  | guard {k : ℕ} (hs : (s.runDone k).Same s') (hg : t.Goes t') (hw : ∀ w, t'.weight w + w.guard k = t.weight w)
  /-- The closure and the lease go from the handler into a task. -/
  | adopt {id : TaskId} {task : QueuedTask TaskId} (hp : task.pending = some id)
      (hs : (s.modifyCall id.call fun c => { c with released := true, completion := true }).Same s') (hg : t.Goes t')
      (hw : ∀ w, t'.weight w + w.guard id.call + w.lease task.byteLease = t.weight w + w.task task)
  | push {id : TaskId} {task : QueuedTask TaskId} (ht : task.Ok) (hp : task.pending = some id)
      (hcap : (s.queue id.kind).tasks.length < (s.queue id.kind).capacity) (hrun : (s.queue id.kind).stopped = false)
      (hs : ({ s.setQueue id.kind { s.queue id.kind with tasks := (s.queue id.kind).tasks ++ [task] } with
        accepted := if id.kind = .write then s.accepted ++ [id.call] else s.accepted } : Shared).Same s')
      (hheld : t'.held = t.held) (hoff : ∀ k, t'.unoffered k + (if id.call = k then 1 else 0) = t.unoffered k)
      (hw : ∀ w, t'.weight w + w.task task = t.weight w)
  /-- A callback is called, except for `execute` of a write task. -/
  | finish {id : TaskId} {task : QueuedTask TaskId} {run : Bool} (hp : task.pending = some id)
      (hs : ({ s with ran := s.ran ++ [(id, run)] } : Shared).Same s') (hg : t.Goes t')
      (hrun : run = true → id.kind = .read)
      (hw : ∀ w, t'.weight w + w.task task =
        t.weight w + w.task ⟨task.byteLease, none, none, false⟩ + w.callback id)
  /-- The worker of the write queue calls `execute` of the task it holds. -/
  | execute {k : ℕ} {task : QueuedTask TaskId} (hp : task.pending = some ⟨.write, k⟩)
      (hs : ({ s with ran := s.ran ++ [(⟨.write, k⟩, true)] } : Shared).Same s')
      (hheld : t.held = [k] ∧ t'.held = []) (hoff : ∀ k, t'.unoffered k = 0)
      (hw : ∀ w, t'.weight w + w.task task =
        t.weight w + w.task ⟨task.byteLease, none, none, false⟩ + w.callback ⟨.write, k⟩)
  | callback {id : TaskId} (hs : (s.complete id.call).Same s') (hg : t.Goes t')
      (hw : ∀ w, t'.weight w + w.callback id = t.weight w)
  | pop {kind : QueueKind} {id : TaskId} {task : QueuedTask TaskId} {rest : List (QueuedTask TaskId)}
      (hq : (s.queue kind).tasks = task :: rest) (hp : task.pending = some id)
      (hs : (s.setQueue kind { s.queue kind with tasks := rest }).Same s')
      (hheld : t.held = [] ∧ t'.held = if kind = .write then [id.call] else []) (hoff : ∀ k, t'.unoffered k = 0)
      (hw : ∀ w, t'.weight w = t.weight w + w.task task)
  | take {kind : QueueKind} (hs : (s.setQueue kind (s.queue kind).stopAndTakePending.2).Same s') (hg : t.Goes t')
      (hw : ∀ w, t'.weight w = t.weight w + w.tasks (s.queue kind).tasks)

section Steps

variable {s s' : Shared} {t : Thread} {k : ℕ} {r : Request} {c : Choice}

theorem Shared.Same.refl (s : Shared) : s.Same s := ⟨rfl, rfl, rfl, rfl, rfl, rfl, fun _ => ⟨rfl, rfl, rfl⟩⟩

theorem Shared.same_modifyCall {f : RpcCall → RpcCall}
    (hf : ∀ c, (f c).released = c.released ∧ (f c).completion = c.completion ∧ (f c).doneRuns = c.doneRuns) :
    s.Same (s.modifyCall k f) := by
  refine ⟨rfl, rfl, rfl, rfl, rfl, rfl, fun j => ?_⟩
  by_cases hj : j = k
  · subst hj
    simp only [modifyCall, update_self]
    exact hf _
  · simp [modifyCall, update_of_ne hj]

theorem Shared.same_respond : s.Same (s.respond k x) := same_modifyCall fun _ => ⟨rfl, rfl, rfl⟩

/-- A callback does to the closure what its completion does. -/
theorem Shared.same_runCallback : (s.complete id.call).Same (runCallback s id x) := by
  have hc : ((s.respond id.call x).calls id.call).completion = (s.calls id.call).completion :=
    (same_respond.calls _).2.1
  unfold runCallback complete
  rw [hc]
  split_ifs with h
  · refine ⟨rfl, rfl, rfl, rfl, rfl, rfl, fun j => ?_⟩
    by_cases hj : j = id.call
    · subst hj
      simp [runDone, respond, modifyCall]
    · simp [runDone, respond, modifyCall, update_of_ne hj]
  · exact same_respond

/-- A ready task is finished by calling one of its callbacks. -/
theorem beginFinish_eq {run : Bool} (ht : task.Ok) (hp : task.pending = some id) : beginFinish s task run =
      ({ s with ran := s.ran ++ [(id, run)] }, .callback ⟨task.byteLease, none, none, false⟩ id run) := by
  have ha : task.active = true := by
    by_contra hn
    rw [QueuedTask.pending, if_neg hn] at hp
    cases hp
  obtain ⟨cb, hcb, hf⟩ := ht.finish run ha
  cases hcb.symm.trans hp
  rw [beginFinish, hf]

theorem QueuedTask.active_of_pending (hp : task.pending = some id) : task.active = true := by
  by_contra hn
  rw [QueuedTask.pending, if_neg hn] at hp
  cases hp

theorem Handler.move_enter (s : Shared) (k : ℕ) (r : Request) :
    Move s (.handler k r .entered) (Handler.enter s k r).1 (.handler k r (Handler.enter s k r).2) ∧
      (Handler.enter s k r).2.Ok k r := by
  have hleave : ∀ x, Move s (.handler k r .entered) (s.respond k x) (.handler k r .leaving) := fun x =>
    .quiet same_respond ⟨rfl, fun j => Nat.zero_le _⟩ fun _ => rfl
  unfold Handler.enter
  split
  · split_ifs
    · exact ⟨hleave _, trivial⟩
    · split
      · exact ⟨hleave _, trivial⟩
      · exact ⟨.quiet (.refl s) ⟨rfl, fun _ => le_rfl⟩ fun _ => rfl, rfl⟩
  · split_ifs
    · exact ⟨hleave _, trivial⟩
    · exact ⟨hleave _, trivial⟩
    · exact ⟨.quiet (.refl s) ⟨rfl, fun _ => le_rfl⟩ fun _ => rfl, rfl⟩
  · split_ifs
    · exact ⟨hleave _, trivial⟩
    · exact ⟨hleave _, trivial⟩
    · exact ⟨.quiet (.refl s) ⟨rfl, fun _ => le_rfl⟩ fun _ => rfl, rfl⟩
  · exact ⟨hleave _, trivial⟩

theorem Handler.move_acquire (request : PutRequest) (hr : r.kind = .write) :
    Move s (.handler k r (.admitted request))
      (Handler.acquire s k request).1 (.handler k r (Handler.acquire s k request).2) ∧
      (Handler.acquire s k request).2.Ok k r := by
  unfold Handler.acquire
  cases ha : s.limiter.tryAcquire request.attachmentSize with
  | none => exact ⟨.quiet same_respond ⟨rfl, fun _ => Nat.zero_le _⟩ fun _ => rfl, trivial⟩
  | some x =>
    obtain ⟨lease, limiter⟩ := x
    have hl : lease = some request.attachmentSize := by
      unfold InflightByteLimiter.tryAcquire at ha
      split_ifs at ha
      cases ha
      rfl
    subst hl
    refine ⟨.acquire ha (.refl _) ⟨rfl, fun _ => le_rfl⟩ fun _ => rfl, ?_⟩
    simp [Handler.Ok, hr]

theorem Handler.move_abandon :
    Move s (.handler k r (.building lease)) (Handler.abandon s k lease x).1
      (.handler k r (Handler.abandon s k lease x).2) := by
  refine @Move.giveBack _ _ _ _ lease ?_ ⟨rfl, fun _ => Nat.zero_le _⟩ fun _ => rfl
  obtain ⟨h1, h2, h3, h4, h5, h6, h7⟩ := same_respond (s := s) (k := k) (x := x)
  exact ⟨congrArg (·.release lease) h1, h2, h3, h4, h5, h6, h7⟩

theorem Handler.task_ok (hl : lease.isSome = (r.kind = .write : Bool)) :
    (Handler.task k r lease).Ok ∧ (Handler.task k r lease).pending = some ⟨r.kind, k⟩ ∧
      (Handler.task k r lease).byteLease = lease := by
  unfold Handler.task
  cases hk : r.kind with
  | write =>
    rw [hk] at hl
    have hsome : lease.isSome = true := by simpa using hl
    refine ⟨QueuedTask.ok_makeLeased, ?_, rfl⟩
    simp [QueuedTask.pending, QueuedTask.makeLeased, hsome]
  | read =>
    rw [hk] at hl
    have hnone : lease = none := by simpa using hl
    exact ⟨QueuedTask.ok_make, rfl, hnone.symm⟩

theorem Handler.move_build {h' : Handler} (hl : lease.isSome = (r.kind = .write : Bool))
    (hs : Handler.build s k r lease c = some (s', h')) :
    Move s (.handler k r (.building lease)) s' (.handler k r h') ∧ h'.Ok k r := by
  have habandon : ∀ x, Handler.abandon s k lease x = (s', h') →
      Move s (.handler k r (.building lease)) s' (.handler k r h') ∧ h'.Ok k r := by
    intro x hx
    cases hx
    exact ⟨Handler.move_abandon, trivial⟩
  obtain ⟨hok, hp, hbytes⟩ := Handler.task_ok (k := k) hl
  cases c with
  | go =>
    cases hs
    refine ⟨.adopt hp ?_ ⟨rfl, fun _ => le_rfl⟩ fun w => ?_, hok, hp⟩
    · refine ⟨rfl, rfl, rfl, rfl, rfl, rfl, fun j => ?_⟩
      by_cases hj : j = k
      · subst hj
        simp [modifyCall]
      · simp [modifyCall, update_of_ne hj]
    · rw [hbytes]
      show w.task _ + w.guard k + w.lease lease = w.guard k + w.lease lease + w.task _
      omega
  | digestFailed =>
    unfold Handler.build at hs
    cases hk : r.kind with
    | write => exact habandon _ (by simpa [hk] using hs)
    | read => simp [hk] at hs
  | digestMismatch =>
    unfold Handler.build at hs
    cases hk : r.kind with
    | write => exact habandon _ (by simpa [hk] using hs)
    | read => simp [hk] at hs
  | fingerprintRejected detail =>
    unfold Handler.build at hs
    cases hk : r.kind with
    | write => exact habandon _ (by simpa [hk] using hs)
    | read => simp [hk] at hs
  | throws what =>
    cases what with
    | none => exact habandon _ (Option.some.inj hs)
    | some what => exact habandon _ (Option.some.inj hs)
  | allocationFailed => cases hs
  | answer a => cases hs

theorem Handler.move_offer (allocates : Bool) (ht : task.Ok) (hp : task.pending = some ⟨r.kind, k⟩) :
    Move s (.handler k r (.offering task)) (Handler.offer s k r task allocates).1
      (.handler k r (Handler.offer s k r task allocates).2) ∧ (Handler.offer s k r task allocates).2.Ok k r := by
  have ha := QueuedTask.active_of_pending hp
  have hrefused : ∀ result, Move s (.handler k r (.offering task))
      (s.modifyCall k fun c => { c with cancelled := refusal r result }) (.handler k r (.refused task)) := fun result =>
    .quiet (same_modifyCall fun _ => ⟨rfl, rfl, rfl⟩) ⟨rfl, fun _ => Nat.zero_le _⟩ fun _ => rfl
  unfold Handler.offer BoundedTaskQueue.tryEnqueue
  rw [if_neg (not_not.mpr ha)]
  by_cases hstopped : (s.queue r.kind).stopped
  · rw [if_pos hstopped]
    exact ⟨hrefused _, ht, hp⟩
  rw [if_neg hstopped]
  by_cases hfull : (s.queue r.kind).tasks.length ≥ (s.queue r.kind).capacity
  · rw [if_pos hfull]
    exact ⟨hrefused _, ht, hp⟩
  rw [if_neg hfull]
  cases allocates with
  | false => exact ⟨hrefused _, ht, hp⟩
  | true =>
    refine ⟨.push ht hp (not_le.mp hfull) (by simpa using hstopped) (.refl _) rfl
      (fun j => ?_) fun w => ?_, trivial⟩
    · exact Nat.zero_add _
    · exact Nat.zero_add _

theorem Handler.move {h h' : Handler} (hok : h.Ok k r) (hs : h.step s k r c = some (s', h')) :
    Move s (.handler k r h) s' (.handler k r h') ∧ h'.Ok k r := by
  cases h with
  | entered =>
    cases c <;> try cases hs
    have hm := Handler.move_enter s k r
    rw [Option.some.inj hs] at hm
    exact hm
  | admitted request =>
    cases c <;> try cases hs
    have hm := Handler.move_acquire (s := s) (k := k) request hok
    rw [Option.some.inj hs] at hm
    exact hm
  | building lease => exact Handler.move_build hok hs
  | leaving =>
    cases c <;> cases hs
    exact ⟨.guard (.refl _) ⟨rfl, fun _ => le_rfl⟩ fun w => Nat.zero_add _, trivial⟩
  | offering task =>
    have hoffer : ∀ allocates, Handler.offer s k r task allocates = (s', h') →
        Move s (.handler k r (.offering task)) s' (.handler k r h') ∧ h'.Ok k r := by
      intro allocates he
      have hm := Handler.move_offer (s := s) allocates hok.1 hok.2
      rw [he] at hm
      exact hm
    cases c <;> try cases hs
    · exact hoffer true (Option.some.inj hs)
    · exact hoffer false (Option.some.inj hs)
  | refused task =>
    cases c <;> simp only [Handler.step, beginFinish_eq hok.1 hok.2, Option.some.injEq, Prod.mk.injEq,
      reduceCtorEq] at hs
    obtain ⟨rfl, rfl⟩ := hs
    refine ⟨.finish hok.2 (.refl _) ⟨rfl, fun _ => le_rfl⟩ (fun hf => by cases hf) fun w => ?_, rfl⟩
    show w.task _ + w.callback _ + w.task task = w.task task + w.task _ + w.callback _
    omega
  | finishing f =>
    cases f with
    | callback task id run =>
      cases c <;> cases hs
      exact ⟨.callback same_runCallback ⟨rfl, fun _ => le_rfl⟩ fun _ => rfl, hok⟩
    | returned task =>
      cases c <;> cases hs
      exact ⟨.retire hok (.refl _) ⟨rfl, fun _ => le_rfl⟩ fun _ => Nat.zero_add _, trivial⟩
  | returned => cases c <;> cases hs

theorem Worker.move {kind : QueueKind} {x x' : Worker} (hq : s.Ok) (hok : x.Ok kind)
    (hs : x.step s kind c = some (s', x')) :
    Move s (.worker kind x) s' (.worker kind x') ∧ x'.Ok kind := by
  have hheld : ∀ {y : Worker}, (∀ t, y ≠ .holding t) → (Thread.worker kind y).held = [] := fun {y} hy => by
    cases y with
    | holding t => exact absurd rfl (hy t)
    | _ => cases kind <;> rfl
  cases x with
  | waiting =>
    cases c <;> simp only [Worker.step] at hs <;> try cases hs
    cases hpop : (s.queue kind).waitPop with
    | none => simp [hpop] at hs
    | some y =>
      obtain ⟨got, q⟩ := y
      cases got with
      | none =>
        simp only [hpop, Option.some.injEq, Prod.mk.injEq] at hs
        obtain ⟨rfl, rfl⟩ := hs
        refine ⟨.quiet ⟨rfl, rfl, rfl, rfl, rfl, rfl, fun _ => ⟨rfl, rfl, rfl⟩⟩ ⟨?_, fun _ => le_rfl⟩
          fun _ => rfl, trivial⟩
        rw [hheld (by simp), hheld (by simp)]
      | some task =>
        simp only [hpop, Option.some.injEq, Prod.mk.injEq] at hs
        obtain ⟨rfl, rfl⟩ := hs
        obtain ⟨rest, htasks, rfl⟩ : ∃ rest, (s.queue kind).tasks = task :: rest ∧
          q = { s.queue kind with tasks := rest } := by
          unfold BoundedTaskQueue.waitPop at hpop
          split at hpop
          · split_ifs at hpop
            cases hpop
          · next t rest hl =>
            cases hpop
            exact ⟨rest, hl, rfl⟩
        have hready := hq kind task (by rw [htasks]; exact List.mem_cons_self)
        obtain ⟨hto, j, hp⟩ := hready
        refine ⟨.pop htasks hp (.refl _) ⟨hheld (by simp), ?_⟩ (fun _ => rfl) fun w => (Nat.zero_add _).symm,
          hto, j, hp⟩
        cases kind with
        | write => simp [Thread.held, hp]
        | read => rfl
  | holding task =>
    obtain ⟨hto, j, hp⟩ := hok
    cases c <;> simp only [Worker.step, beginFinish_eq hto hp, Option.some.injEq, Prod.mk.injEq, reduceCtorEq] at hs
    obtain ⟨rfl, rfl⟩ := hs
    have hw : ∀ w : Weight, w.task ⟨task.byteLease, none, none, false⟩ + w.callback ⟨kind, j⟩ + w.task task =
        w.task task + w.task ⟨task.byteLease, none, none, false⟩ + w.callback ⟨kind, j⟩ := fun w => by omega
    cases kind with
    | write => exact ⟨.execute hp (.refl _) ⟨by simp [Thread.held, hp], rfl⟩ (fun _ => rfl) hw, rfl⟩
    | read => exact ⟨.finish hp (.refl _) ⟨rfl, fun _ => le_rfl⟩ (fun _ => rfl) hw, rfl⟩
  | finishing f =>
    cases f with
    | callback task id run =>
      cases c <;> cases hs
      refine ⟨.callback same_runCallback ⟨?_, fun _ => le_rfl⟩ fun _ => rfl, hok⟩
      rw [hheld (by simp), hheld (by simp)]
    | returned task =>
      cases c <;> cases hs
      refine ⟨.retire hok (.refl _) ⟨?_, fun _ => le_rfl⟩ fun _ => Nat.zero_add _, trivial⟩
      rw [hheld (by simp), hheld (by simp)]
  | exited => cases c <;> cases hs

theorem Shutdown.move {x x' : Shutdown} (hq : s.Ok) (hok : x.Ok) (hs : x.step s c = some (s', x')) :
    Move s (.shutdown x) s' (.shutdown x') ∧ x'.Ok := by
  have hgoes : ∀ {y y' : Shutdown}, (Thread.shutdown y).Goes (.shutdown y') := ⟨rfl, fun _ => le_rfl⟩
  cases x with
  | called =>
    cases c <;> simp only [Shutdown.step] at hs <;> try cases hs
    split_ifs at hs
    · cases hs
      exact ⟨.quiet (.refl _) hgoes fun _ => rfl, trivial⟩
    · cases hs
      exact ⟨.quiet ⟨rfl, rfl, rfl, rfl, rfl, rfl, fun _ => ⟨rfl, rfl, rfl⟩⟩ hgoes fun _ => rfl, trivial⟩
  | marked =>
    cases c <;> cases hs
    exact ⟨@Move.take _ _ _ _ .write (.refl _) hgoes fun w => (Nat.zero_add _).symm,
      fun t ht => ⟨_, hq .write t ht⟩⟩
  | tookWrites writes =>
    cases c <;> cases hs
    refine ⟨@Move.take _ _ _ _ .read (.refl _) hgoes fun w => w.tasks_append _ _, fun t ht => ?_⟩
    rcases List.mem_append.mp ht with ht | ht
    · exact hok t ht
    · exact ⟨_, hq .read t ht⟩
  | cancelling pending =>
    cases pending with
    | nil =>
      cases c <;> cases hs
      exact ⟨.quiet (.refl _) hgoes fun _ => rfl, trivial⟩
    | cons task rest =>
      obtain ⟨⟨kind, hto, j, hp⟩, hrest⟩ := List.forall_mem_cons.mp hok
      cases c <;> simp only [Shutdown.step, beginFinish_eq hto hp, Option.some.injEq, Prod.mk.injEq, reduceCtorEq] at hs
      obtain ⟨rfl, rfl⟩ := hs
      refine ⟨.finish hp (.refl _) hgoes (fun hf => by cases hf) fun w => ?_, rfl, hrest⟩
      show w.task _ + w.callback _ + w.tasks rest + w.task task = w.tasks (task :: rest) + w.task _ + w.callback _
      rw [Weight.tasks_cons]
      omega
  | finishing f rest =>
    cases f with
    | callback task id run =>
      cases c <;> cases hs
      refine ⟨.callback same_runCallback hgoes fun w => ?_, hok⟩
      show w.task task + w.tasks rest + w.callback id = w.task task + w.callback id + w.tasks rest
      omega
    | returned task =>
      cases c <;> cases hs
      refine ⟨.retire hok.1 (.refl _) hgoes fun w => ?_, hok.2⟩
      show w.tasks rest + w.task task = w.task task + w.tasks rest
      omega
  | joining =>
    cases c <;> simp only [Shutdown.step] at hs <;> try cases hs
    split_ifs at hs
    cases hs
    exact ⟨.quiet (.refl _) hgoes fun _ => rfl, trivial⟩
  | returned => cases c <;> cases hs

theorem Thread.Ok.move {t' : Thread} (hq : s.Ok) (ht : t.Ok) (hs : t.step s c = some (s', t')) :
    Move s t s' t' ∧ t'.Ok := by
  cases t with
  | handler k r h =>
    obtain ⟨⟨s₁, h'⟩, hstep, he⟩ := Option.map_eq_some_iff.mp hs
    cases he
    exact Handler.move ht hstep
  | worker kind x =>
    obtain ⟨⟨s₁, x'⟩, hstep, he⟩ := Option.map_eq_some_iff.mp hs
    cases he
    exact Worker.move hq ht hstep
  | shutdown x =>
    obtain ⟨⟨s₁, x'⟩, hstep, he⟩ := Option.map_eq_some_iff.mp hs
    cases he
    exact Shutdown.move hq ht hstep

end Steps

end Eufs
