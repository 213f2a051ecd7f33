import Eufs.Rpc.Accounting

/-!
# Eufs.Rpc.Admission — the order of the write tasks, and what every run of the service keeps

* `InOrder`: the write tasks that execute are a prefix of the accepted ones, in the order of their acceptance.
* `Thread.willStop`: once `stopping_` is set, every queue is stopped or some thread is about to stop it.
* `Serves`: the invariant of the service; `ObjectServiceOptions.Reachable.serves` is its run lemma.
-/

namespace Eufs

open InflightByteLimiter Handler Shared

variable {held : List ℕ}

/-! ## Roles -/

inductive Role where
  | handler
  | worker (kind : QueueKind)
  | shutdown
  deriving DecidableEq

def Thread.role : Thread → Role
  | .handler _ _ _ => .handler
  | .worker kind _ => .worker kind
  | .shutdown _ => .shutdown

section Steps

variable {s s' : Shared} {t t' : Thread} {c : Choice}

theorem Thread.role_step (h : t.step s c = some (s', t')) : t'.role = t.role := by
  cases t <;>
  · obtain ⟨x, -, hx⟩ := Option.map_eq_some_iff.mp h
    cases hx
    rfl

theorem Thread.held_eq_nil (h : t.role ≠ .worker .write) : t.held = [] := by
  cases t with
  | handler k r x => rfl
  | worker kind x =>
    cases kind with
    | write => exact absurd rfl h
    | read => cases x <;> rfl
  | shutdown x => rfl

/-! ## Order -/

/-- Calls whose write task was executed. -/
def Shared.executed (s : Shared) : List ℕ :=
  s.ran.filterMap fun e => if e.1.kind = .write ∧ e.2 = true then some e.1.call else none

/-- Calls whose write task is in the queue. -/
def Shared.queuedWrites (s : Shared) : List ℕ := s.writeQueue.tasks.filterMap fun t => t.pending.map TaskId.call

/-- The write tasks in order, as far as the worker with `held` in hand has not lost them to `Shutdown`. -/
structure InOrder (s : Shared) (held : List ℕ) : Prop where
  before : s.executed ++ held ++ s.queuedWrites <+: s.accepted
  running : s.writeQueue.stopped = false → s.executed ++ held ++ s.queuedWrites = s.accepted
  bounded : s.writeQueue.tasks.length ≤ s.writeQueue.capacity
  drained : ∀ kind, (s.queue kind).stopped = true → (s.queue kind).tasks = []

theorem Shared.executed_append (s : Shared) (id : TaskId) (run : Bool) :
    ({ s with ran := s.ran ++ [(id, run)] } : Shared).executed =
      s.executed ++ if id.kind = .write ∧ run = true then [id.call] else [] := by
  unfold executed
  rw [List.filterMap_append]
  split_ifs with h <;> simp [h]

/-- The order depends on the queues, the accepted tasks and the callbacks alone. -/
theorem InOrder.congr (h : InOrder s held) (hw : s'.writeQueue = s.writeQueue) (hr : s'.readQueue = s.readQueue)
    (ha : s'.accepted = s.accepted) (he : s'.executed = s.executed) : InOrder s' held := by
  have hq : s'.queuedWrites = s.queuedWrites := by
    unfold queuedWrites
    rw [hw]
  refine ⟨?_, ?_, by rw [hw]; exact h.bounded, fun kind => ?_⟩
  · rw [he, hq, ha]
    exact h.before
  · rw [he, hq, ha, hw]
    exact h.running
  · cases kind with
    | write => rw [queue, hw]; exact h.drained .write
    | read => rw [queue, hr]; exact h.drained .read

theorem InOrder.of_same (h : InOrder s held) (hs : s.Same s') : InOrder s' held :=
  h.congr hs.writeQueue hs.readQueue hs.accepted (by unfold executed; rw [hs.ran])

theorem InOrder.via {s₁ : Shared} (h : InOrder s held) (hs : s₁.Same s') (hw : s₁.writeQueue = s.writeQueue)
    (hr : s₁.readQueue = s.readQueue) (ha : s₁.accepted = s.accepted) (he : s₁.executed = s.executed) :
    InOrder s' held := (h.congr hw hr ha he).of_same hs

theorem InOrder.setRead {q : BoundedTaskQueue TaskId} (h : InOrder s held) (hq : q.stopped = true → q.tasks = []) :
    InOrder (s.setQueue .read q) held :=
  ⟨h.before, h.running, h.bounded, fun kind => by
    cases kind with
    | write => exact h.drained .write
    | read => exact hq⟩

theorem InOrder.push {held : List ℕ} {id : TaskId} {task : QueuedTask TaskId} (h : InOrder s held)
    (hp : task.pending = some id) (hcap : (s.queue id.kind).tasks.length < (s.queue id.kind).capacity)
    (hrun : (s.queue id.kind).stopped = false) :
    InOrder ({ s.setQueue id.kind { s.queue id.kind with tasks := (s.queue id.kind).tasks ++ [task] } with
      accepted := if id.kind = .write then s.accepted ++ [id.call] else s.accepted } : Shared) held := by
  obtain ⟨kind, k⟩ := id
  cases kind with
  | read =>
    refine (h.setRead (q := { s.readQueue with tasks := s.readQueue.tasks ++ [task] }) fun hs => ?_).congr
      rfl rfl rfl rfl
    exact absurd (hrun.symm.trans hs) Bool.false_ne_true
  | write =>
    have hids : (s.writeQueue.tasks ++ [task]).filterMap (fun t => t.pending.map TaskId.call) =
      s.queuedWrites ++ [k] := by
      rw [List.filterMap_append]
      simp [queuedWrites, hp]
    have heq : s.executed ++ held ++ (s.queuedWrites ++ [k]) = s.accepted ++ [k] := by
      rw [← h.running hrun, ← List.append_assoc]
    refine ⟨?_, fun _ => ?_, ?_, fun kind hs => ?_⟩
    · show s.executed ++ held ++ (s.writeQueue.tasks ++ [task]).filterMap _ <+: s.accepted ++ [k]
      rw [hids, heq]
    · show s.executed ++ held ++ (s.writeQueue.tasks ++ [task]).filterMap _ = s.accepted ++ [k]
      rw [hids, heq]
    · show (s.writeQueue.tasks ++ [task]).length ≤ s.writeQueue.capacity
      rw [List.length_append]
      exact hcap
    · cases kind with
      | write => exact absurd (hrun.symm.trans hs) Bool.false_ne_true
      | read => exact h.drained .read hs

theorem InOrder.pop {kind : QueueKind} {id : TaskId} {task : QueuedTask TaskId} {rest : List (QueuedTask TaskId)}
    {held : List ℕ} (h : InOrder s held) (hq : (s.queue kind).tasks = task :: rest) (hp : task.pending = some id)
    (hheld : kind = .write → held = []) :
    InOrder (s.setQueue kind { s.queue kind with tasks := rest }) (if kind = .write then [id.call] else held) := by
  have hrunning : (s.queue kind).stopped ≠ true := fun hs => by
    have := h.drained kind hs
    rw [hq] at this
    cases this
  cases kind with
  | read => exact h.setRead fun hs => absurd hs hrunning
  | write =>
    have hids : s.queuedWrites = id.call :: rest.filterMap fun t => t.pending.map TaskId.call := by
      unfold queuedWrites
      rw [show s.writeQueue.tasks = task :: rest from hq]
      simp [hp]
    have hsplit : s.executed ++ [id.call] ++ rest.filterMap (fun t => t.pending.map TaskId.call) =
        s.executed ++ held ++ s.queuedWrites := by
      rw [hids, hheld rfl]
      simp
    refine ⟨?_, fun hs => ?_, ?_, fun kind hs => ?_⟩
    · show s.executed ++ [id.call] ++ rest.filterMap _ <+: s.accepted
      rw [hsplit]
      exact h.before
    · show s.executed ++ [id.call] ++ rest.filterMap _ = s.accepted
      rw [hsplit]
      exact h.running hs
    · have hb := h.bounded
      rw [show s.writeQueue.tasks = task :: rest from hq, List.length_cons] at hb
      exact Nat.le_of_succ_le hb
    · cases kind with
      | write => exact absurd hs hrunning
      | read => exact h.drained .read hs

theorem InOrder.take {kind : QueueKind} {held : List ℕ} (h : InOrder s held) :
    InOrder (s.setQueue kind (s.queue kind).stopAndTakePending.2) held := by
  cases kind with
  | read => exact h.setRead fun _ => rfl
  | write =>
    refine ⟨?_, fun hs => ?_, Nat.zero_le _, fun kind hs => ?_⟩
    · show s.executed ++ held ++ [] <+: s.accepted
      rw [List.append_nil]
      exact (List.prefix_append _ _).trans h.before
    · cases hs
    · cases kind with
      | write => rfl
      | read => exact h.drained .read hs

theorem InOrder.execute {k : ℕ} (h : InOrder s [k]) :
    InOrder { s with ran := s.ran ++ [(⟨.write, k⟩, true)] } [] := by
  have he : ({ s with ran := s.ran ++ [(⟨.write, k⟩, true)] } : Shared).executed = s.executed ++ [k] :=
    s.executed_append ⟨.write, k⟩ true
  refine ⟨?_, fun hs => ?_, h.bounded, h.drained⟩
  · rw [he, List.append_nil]
    exact h.before
  · rw [he, List.append_nil]
    exact h.running hs

/-- What a move makes of the order: the first part is about the write worker, the second about all other threads. -/
theorem InOrder.move (h : InOrder s held) (hm : Move s t s' t') :
    (t.held = held → InOrder s' t'.held) ∧ (t.held = [] → t'.held = [] → InOrder s' held) := by
  have keep : InOrder s' held → t'.held = t.held →
      (t.held = held → InOrder s' t'.held) ∧ (t.held = [] → t'.held = [] → InOrder s' held) :=
    fun h' he => ⟨fun hh => by rw [he, hh]; exact h', fun _ _ => h'⟩
  cases hm with
  | quiet hs hg => exact keep (h.of_same hs) hg.held
  | acquire ha hs hg => exact keep (h.via hs rfl rfl rfl rfl) hg.held
  | giveBack hs hg => exact keep (h.via hs rfl rfl rfl rfl) hg.held
  | retire hp hs hg => exact keep (h.via hs rfl rfl rfl rfl) hg.held
  | guard hs hg => exact keep (h.via hs rfl rfl rfl rfl) hg.held
  | adopt hp hs hg => exact keep (h.via hs rfl rfl rfl rfl) hg.held
  | push hto hp hcap hrun hs hheld => exact keep ((h.push hp hcap hrun).of_same hs) hheld
  | @finish id task run hp hs hg hrun =>
    refine keep (h.via hs rfl rfl rfl ?_) hg.held
    rw [s.executed_append, if_neg, List.append_nil]
    rintro ⟨hk, hr⟩
    rw [hrun hr] at hk
    cases hk
  | @execute k task hp hs hheld =>
    refine ⟨fun hh => ?_, fun hh => ?_⟩
    · rw [hheld.2]
      rw [← hh, hheld.1] at h
      exact h.execute.of_same hs
    · rw [hheld.1] at hh
      cases hh
  | @callback id hs hg =>
    refine keep (InOrder.of_same (s := s.complete id.call) ?_ hs) hg.held
    unfold complete
    split_ifs
    · exact h.congr rfl rfl rfl rfl
    · exact h
  | @pop kind id task rest hq hp hs hheld =>
    refine ⟨fun hh => ?_, fun _ hh => ?_⟩
    · have h' := (h.pop hq hp fun _ => hh.symm.trans hheld.1).of_same hs
      rw [hheld.2]
      rw [← hh, hheld.1] at h'
      exact h'
    · cases kind with
      | write => rw [hheld.2] at hh; cases hh
      | read => exact (h.pop hq hp (fun hk => by cases hk)).of_same hs
  | take hs hg => exact keep (h.take.of_same hs) hg.held

end Steps

/-! ## What was accepted -/

namespace Weight

/-- The task `id` itself. -/
def ofTask (id : TaskId) : Weight where
  task t := if t.pending = some id then 1 else 0

end Weight

/-- A task does not vanish: it stays unfinished until one of its callbacks is called. -/
theorem Flow.keeps {s s' : Shared} {W W' : Weight → ℕ} (hf : Flow s s' W W') (id : TaskId) :
    W (.ofTask id) + s.ran.countP (fun e => e.1 = id) ≤ W' (.ofTask id) + s'.ran.countP (fun e => e.1 = id) := by
  have hlease : ∀ l, (Weight.ofTask id).lease l = 0 := fun l => Weight.lease_eq_zero (fun _ => rfl) l
  cases hf with
  | quiet hs hw => rw [hs.ran, hw]
  | call hs hw =>
    rw [hs.ran, hw]
    exact Nat.le_refl _
  | acquire ha hs hw =>
    rw [hs.ran, hw]
    exact Nat.le_refl _
  | giveBack hs hw =>
    rw [hs.ran, ← hw, hlease]
    exact Nat.le_refl _
  | retire hp hs hw =>
    have h0 : (Weight.ofTask id).task _ = 0 := if_neg (by rw [hp]; exact fun h => by cases h)
    rw [hs.ran, ← hw, h0]
    exact Nat.le_refl _
  | guard hs hw =>
    rw [hs.ran, ← hw]
    exact Nat.le_refl _
  | adopt hp hs hw =>
    have h1 := hw (.ofTask id)
    rw [hlease] at h1
    have h2 : W (.ofTask id) ≤ W' (.ofTask id) := Nat.le.intro h1.symm
    rw [hs.ran]
    exact Nat.add_le_add_right h2 _
  | @finish id₁ task run hp hs hw =>
    have h1 := hw (.ofTask id)
    have h2 : (Weight.ofTask id).task ⟨task.byteLease, none, none, false⟩ = 0 := rfl
    have h3 : (Weight.ofTask id).callback id₁ = 0 := rfl
    have h4 : (Weight.ofTask id).task task = if id₁ = id then 1 else 0 := by simp [Weight.ofTask, hp]
    have h5 : (s.ran ++ [(id₁, run)]).countP (fun e => e.1 = id) =
        s.ran.countP (fun e => e.1 = id) + if id₁ = id then 1 else 0 := by
      simp [List.countP_append, List.countP_cons]
    rw [hs.ran]
    show _ ≤ _ + (s.ran ++ [(id₁, run)]).countP _
    omega
  | callback hs hw =>
    have hr : ∀ j, (s.complete j).ran = s.ran := fun j => by
      unfold complete
      split_ifs <;> rfl
    rw [hs.ran, hr, ← hw]
    exact Nat.le_refl _

/-! ## Stopping -/

section Stopping

variable {s s' : Shared} {t t' : Thread} {c : Choice} {kind : QueueKind}

theorem Move.stopped (hm : Move s t s' t') (h : (s.queue kind).stopped = true) : (s'.queue kind).stopped = true := by
  have via : ∀ {s₁ : Shared}, s₁.Same s' → (s₁.queue kind).stopped = true →
    (s'.queue kind).stopped = true := by
    intro s₁ hs h₁
    cases kind with
    | write => rw [queue, hs.writeQueue]; exact h₁
    | read => rw [queue, hs.readQueue]; exact h₁
  have set : ∀ {k₁ : QueueKind} {q : BoundedTaskQueue TaskId},
    (q.stopped = true ∨ q.stopped = (s.queue k₁).stopped) →
      ((s.setQueue k₁ q).queue kind).stopped = true := by
    intro k₁ q hq
    cases kind <;> cases k₁ <;> first | exact h | exact hq.elim id fun he => he.trans h
  cases hm with
  | quiet hs => exact via hs h
  | acquire ha hs => exact via hs (by cases kind <;> exact h)
  | giveBack hs => exact via hs (by cases kind <;> exact h)
  | retire hp hs => exact via hs (by cases kind <;> exact h)
  | guard hs => exact via hs (by cases kind <;> exact h)
  | adopt hp hs => exact via hs (by cases kind <;> exact h)
  | @push id task hto hp hcap hrun hs =>
    have hset : ((s.setQueue id.kind { s.queue id.kind with tasks := (s.queue id.kind).tasks ++ [task] }).queue
      kind).stopped = true := set (.inr rfl)
    exact via hs (by cases kind <;> exact hset)
  | finish hp hs => exact via hs (by cases kind <;> exact h)
  | execute hp hs => exact via hs (by cases kind <;> exact h)
  | @callback id hs =>
    refine via hs ?_
    unfold complete
    split_ifs <;> cases kind <;> exact h
  | pop hq hp hs => exact via hs (set (.inr rfl))
  | take hs => exact via hs (set (.inl rfl))

/-- The thread is about to stop the queue `kind`. -/
def Thread.willStop (kind : QueueKind) : Thread → Prop
  | .shutdown .marked => True
  | .shutdown (.tookWrites _) => kind = .read
  | _ => False

theorem Shared.stopping_complete (k : ℕ) : (s.complete k).stopping = s.stopping := by
  unfold complete
  split_ifs <;> rfl

theorem stopping_beginFinish (task : QueuedTask TaskId) (run : Bool) :
    (beginFinish s task run).1.stopping = s.stopping := by
  unfold beginFinish
  split <;> rfl

theorem Handler.stopping_step {k : ℕ} {r : Request} {h h' : Handler} (hs : h.step s k r c = some (s', h')) :
    s'.stopping = s.stopping := by
  cases h with
  | entered =>
    cases c <;> try cases hs
    have he : (enter s k r).1 = s' := congrArg Prod.fst (Option.some.inj hs)
    rw [← he]
    unfold enter
    split
    · split_ifs
      · rfl
      · split <;> rfl
    · split_ifs <;> rfl
    · split_ifs <;> rfl
    · rfl
  | admitted request =>
    cases c <;> try cases hs
    have he : (acquire s k request).1 = s' := congrArg Prod.fst (Option.some.inj hs)
    rw [← he]
    unfold acquire
    split <;> rfl
  | building lease =>
    have hbuild : build s k r lease c = some (s', h') := hs
    unfold build at hbuild
    split at hbuild <;> (try split at hbuild) <;> cases hbuild <;> rfl
  | leaving => cases c <;> cases hs; rfl
  | offering task =>
    have hoffer : ∀ allocates, (offer s k r task allocates).1.stopping = s.stopping := by
      intro allocates
      unfold offer
      split
      · cases r.kind <;> rfl
      · rfl
    cases c <;> try cases hs
    · exact (congrArg (fun x => stopping x.1) (Option.some.inj hs)).symm.trans (hoffer true)
    · exact (congrArg (fun x => stopping x.1) (Option.some.inj hs)).symm.trans (hoffer false)
  | refused task =>
    cases c <;> try cases hs
    exact stopping_beginFinish _ _
  | finishing f =>
    cases f <;> cases c <;> cases hs
    · exact stopping_complete _
    · rfl
  | returned => cases c <;> cases hs

theorem Worker.stopping_step {x x' : Worker} (hs : x.step s kind c = some (s', x')) : s'.stopping = s.stopping := by
  cases x with
  | waiting =>
    cases c <;> simp only [Worker.step, reduceCtorEq] at hs
    split at hs
    · cases hs
    · cases hs
      rfl
    · cases hs
      cases kind <;> rfl
  | holding task =>
    cases c <;> try cases hs
    exact stopping_beginFinish _ _
  | finishing f =>
    cases f <;> cases c <;> cases hs
    · exact stopping_complete _
    · rfl
  | exited => cases c <;> cases hs

theorem Worker.exited_step {x : Worker} (hs : x.step s kind c = some (s', .exited)) :
    (s.queue kind).stopped = true := by
  cases x with
  | waiting =>
    cases c <;> simp only [Worker.step, reduceCtorEq] at hs
    cases hq : (s.queue kind).tasks with
    | cons task rest => simp [BoundedTaskQueue.waitPop, hq] at hs
    | nil =>
      by_contra hn
      simp [BoundedTaskQueue.waitPop, hq, hn] at hs
  | holding task =>
    cases c <;> try cases hs
  | finishing f => cases f <;> cases c <;> cases hs
  | exited => cases c <;> cases hs

/-- Once `stopping_` is set every queue is stopped or some thread is about to stop it. -/
theorem Shutdown.stopping_step {x x' : Shutdown} (kind : QueueKind) (hs : x.step s c = some (s', x')) :
    (s'.stopping = s.stopping ∨ x' = .marked) ∧
      ((Thread.shutdown x).willStop kind → (Thread.shutdown x').willStop kind ∨
        (s'.queue kind).stopped = true) := by
  cases x with
  | called =>
    cases c <;> simp only [Shutdown.step, reduceCtorEq] at hs
    split_ifs at hs <;> cases hs
    · exact ⟨.inl rfl, False.elim⟩
    · exact ⟨.inr rfl, False.elim⟩
  | marked =>
    cases c <;> cases hs
    refine ⟨.inl rfl, fun _ => ?_⟩
    cases kind with
    | write => exact .inr rfl
    | read => exact .inl rfl
  | tookWrites writes =>
    cases c <;> cases hs
    refine ⟨.inl rfl, fun h => .inr ?_⟩
    cases (show kind = .read from h)
    rfl
  | cancelling pending =>
    cases pending with
    | nil => cases c <;> cases hs; exact ⟨.inl rfl, False.elim⟩
    | cons task rest =>
      cases c <;> try cases hs
      exact ⟨.inl (stopping_beginFinish _ _), False.elim⟩
  | finishing f rest =>
    cases f <;> cases c <;> cases hs
    · exact ⟨.inl (stopping_complete _), False.elim⟩
    · exact ⟨.inl rfl, False.elim⟩
  | joining =>
    cases c <;> simp only [Shutdown.step, reduceCtorEq] at hs
    split_ifs at hs
    cases hs
    exact ⟨.inl rfl, False.elim⟩
  | returned => cases c <;> cases hs

theorem Thread.stopping_step (kind : QueueKind) (hs : t.step s c = some (s', t')) :
    (s'.stopping = s.stopping ∨ t'.willStop kind) ∧
    (t.willStop kind → t'.willStop kind ∨ (s'.queue kind).stopped = true) := by
  cases t with
  | handler k r h =>
    obtain ⟨⟨s₁, h'⟩, hstep, he⟩ := Option.map_eq_some_iff.mp hs
    cases he
    exact ⟨.inl (stopping_step hstep), False.elim⟩
  | worker k₁ x =>
    obtain ⟨⟨s₁, x'⟩, hstep, he⟩ := Option.map_eq_some_iff.mp hs
    cases he
    exact ⟨.inl (Worker.stopping_step hstep), False.elim⟩
  | shutdown x =>
    obtain ⟨⟨s₁, x'⟩, hstep, he⟩ := Option.map_eq_some_iff.mp hs
    cases he
    have h := Shutdown.stopping_step kind hstep
    refine ⟨h.1.imp_right ?_, h.2⟩
    intro hx
    subst hx
    trivial

end Stopping

/-! ## The invariant -/

/-- The threads of the constructor. -/
def ObjectServiceOptions.roles (o : ObjectServiceOptions) : List Role :=
  .worker .write :: List.replicate o.readWorkerCount (.worker .read)

/-- What the write worker has in hand. -/
def Pool.writing (p : Pool Shared Thread) : List ℕ := (p.threads.head?.map Thread.held).getD []

/-- What every run keeps. -/
structure Serves (o : ObjectServiceOptions) (p : Pool Shared Thread) : Prop where
  shared : p.shared.Ok
  threads : ∀ t ∈ p.threads, t.Ok
  roles : ∃ l, p.threads.map Thread.role = o.roles ++ l ∧ Role.worker .write ∉ l
  owned : Owned p.shared (Pool.weight · p)
  order : InOrder p.shared p.writing
  limit : p.shared.limiter.limitBytes = o.maxInflightBytes
  capacity : p.shared.writeQueue.capacity = o.maxQueuedWriteTasks
  offered : ∀ k, p.total (Thread.unoffered k) + p.shared.accepted.count k ≤ if k < p.shared.callCount then 1 else 0
  kept : ∀ k ∈ p.shared.accepted,
    1 ≤ p.weight (.ofTask ⟨.write, k⟩) + p.shared.ran.countP (fun e => e.1 = ⟨.write, k⟩)
  exited : ∀ kind, .worker kind .exited ∈ p.threads → (p.shared.queue kind).stopped = true
  stopping : p.shared.stopping = true → ∀ kind, (p.shared.queue kind).stopped = true ∨
    ∃ t ∈ p.threads, t.willStop kind

section Invariant

variable {o : ObjectServiceOptions} {p : Pool Shared Thread} {s' : Shared} {t t' : Thread} {i : ℕ} {c : Choice}

theorem serves_service (o : ObjectServiceOptions) : Serves o o.service where
  shared kind t ht := by cases kind <;> cases ht
  threads t ht := by
    rcases List.mem_cons.mp ht with rfl | ht
    · trivial
    · obtain rfl := List.eq_of_mem_replicate ht
      trivial
  roles := ⟨[], by simp [ObjectServiceOptions.service, ObjectServiceOptions.roles, Thread.role], by simp⟩
  owned := by
    have h0 : ∀ w, o.service.weight w = 0 := by
      intro w
      have hw : o.service.total (Thread.weight w) = 0 := Pool.total_eq_zero fun t ht => by
        rcases List.mem_cons.mp ht with rfl | ht
        · rfl
        · obtain rfl := List.eq_of_mem_replicate ht
          rfl
      unfold Pool.weight
      rw [hw]
      rfl
    exact ⟨fun k => by rw [h0, h0]; rfl, fun k => by rw [h0]; rfl, fun k => by rw [h0]; exact Nat.zero_le _,
      fun k => by rw [h0]; rfl, by rw [h0]; exact ⟨rfl, Nat.zero_le _⟩⟩
  order := ⟨List.prefix_rfl, fun _ => rfl, Nat.zero_le _, fun kind h => by cases kind <;> cases h⟩
  limit := rfl
  capacity := rfl
  offered k := by
    have h0 : o.service.total (Thread.unoffered k) = 0 := Pool.total_eq_zero fun t ht => by
      rcases List.mem_cons.mp ht with rfl | ht
      · rfl
      · obtain rfl := List.eq_of_mem_replicate ht
        rfl
    rw [h0]
    exact Nat.zero_le _
  kept k hk := by cases hk
  exited kind h := by
    rcases List.mem_cons.mp h with h | h
    · cases h
    · cases List.eq_of_mem_replicate h
  stopping h := by cases h

/-- The first thread is the write worker, and it is the only one. -/
theorem Serves.writer (h : Serves o p) : ∃ x rest, p.threads = x :: rest ∧ p.writing = x.held ∧
    x.role = .worker .write ∧ ∀ t ∈ rest, t.role ≠ .worker .write := by
  obtain ⟨l, hl, hn⟩ := h.roles
  cases hthreads : p.threads with
  | nil =>
    rw [hthreads] at hl
    cases hl
  | cons x rest =>
    rw [hthreads, List.map_cons, ObjectServiceOptions.roles, List.cons_append, List.cons.injEq] at hl
    refine ⟨x, rest, rfl, by simp [Pool.writing, hthreads], hl.1, fun t ht hr => ?_⟩
    have hmem : Role.worker .write ∈ List.replicate o.readWorkerCount (Role.worker .read) ++ l := by
      rw [← hl.2, ← hr]
      exact List.mem_map_of_mem ht
    rcases List.mem_append.mp hmem with hm | hm
    · cases List.eq_of_mem_replicate hm
    · exact hn hm

theorem Serves.ok_step (h : Serves o p) (hm : Move p.shared t s' t') : s'.Ok := by
  have via : ∀ {s₁ : Shared}, s₁.Same s' → s₁.Ok → s'.Ok := by
    intro s₁ hs h₁ kind
    cases kind with
    | write => rw [queue, hs.writeQueue]; exact h₁ .write
    | read => rw [queue, hs.readQueue]; exact h₁ .read
  have set : ∀ {k₁ : QueueKind} {q : BoundedTaskQueue TaskId}, (∀ t ∈ q.tasks, Ready k₁ t) →
      (p.shared.setQueue k₁ q).Ok := by
    intro k₁ q hq kind
    cases kind <;> cases k₁ <;> first | exact hq | exact h.shared .write | exact h.shared .read
  have same : ∀ {s₁ : Shared}, s₁.Same s' → (∀ kind, s₁.queue kind = p.shared.queue kind) → s'.Ok :=
    fun hs hq => via hs fun kind => by rw [hq]; exact h.shared kind
  cases hm with
  | quiet hs => exact same hs fun _ => rfl
  | acquire ha hs => exact same hs fun kind => by cases kind <;> rfl
  | giveBack hs => exact same hs fun kind => by cases kind <;> rfl
  | retire hp hs => exact same hs fun kind => by cases kind <;> rfl
  | guard hs => exact same hs fun kind => by cases kind <;> rfl
  | adopt hp hs => exact same hs fun kind => by cases kind <;> rfl
  | @push id task hto hp hcap hrun hs =>
    have hset : (p.shared.setQueue id.kind
        { p.shared.queue id.kind with tasks := (p.shared.queue id.kind).tasks ++ [task] }).Ok := by
      refine set fun t ht => ?_
      rcases List.mem_append.mp ht with ht | ht
      · exact h.shared _ t ht
      · obtain rfl := List.mem_singleton.mp ht
        exact ⟨hto, id.call, hp⟩
    exact via hs fun kind => by
      have := hset kind
      cases kind <;> exact this
  | finish hp hs => exact same hs fun kind => by cases kind <;> rfl
  | execute hp hs => exact same hs fun kind => by cases kind <;> rfl
  | callback hs =>
    refine same hs fun kind => ?_
    unfold complete
    split_ifs <;> cases kind <;> rfl
  | @pop kind id task rest hq hp hs =>
    refine via hs (set fun t ht => h.shared kind t ?_)
    rw [hq]
    exact List.mem_cons_of_mem _ ht
  | take hs => exact via hs (set fun t ht => by cases ht)

/-- The bounds of the limiter and of the write queue are constants. -/
theorem Move.bounds (hm : Move p.shared t s' t') : s'.limiter.limitBytes = p.shared.limiter.limitBytes ∧
    s'.writeQueue.capacity = p.shared.writeQueue.capacity ∧ s'.callCount = p.shared.callCount := by
  have via : ∀ {s₁ : Shared}, s₁.Same s' → s₁.limiter.limitBytes = p.shared.limiter.limitBytes →
      s₁.writeQueue.capacity = p.shared.writeQueue.capacity → s₁.callCount = p.shared.callCount →
      s'.limiter.limitBytes = p.shared.limiter.limitBytes ∧
      s'.writeQueue.capacity = p.shared.writeQueue.capacity ∧ s'.callCount = p.shared.callCount :=
    fun hs h1 h2 h3 => ⟨by rw [hs.limiter, h1], by rw [hs.writeQueue, h2], by rw [hs.callCount, h3]⟩
  have hrelease : ∀ l : Lease, (p.shared.limiter.release l).limitBytes = p.shared.limiter.limitBytes := by
    intro l
    cases l <;> rfl
  have hset : ∀ (kind : QueueKind) (q : BoundedTaskQueue TaskId), q.capacity = (p.shared.queue kind).capacity →
      (p.shared.setQueue kind q).limiter.limitBytes = p.shared.limiter.limitBytes ∧
      (p.shared.setQueue kind q).writeQueue.capacity = p.shared.writeQueue.capacity ∧
      (p.shared.setQueue kind q).callCount = p.shared.callCount := by
    intro kind q hq
    cases kind with
    | write => exact ⟨rfl, hq, rfl⟩
    | read => exact ⟨rfl, rfl, rfl⟩
  cases hm with
  | quiet hs => exact via hs rfl rfl rfl
  | acquire ha hs =>
    refine via hs ?_ rfl rfl
    unfold InflightByteLimiter.tryAcquire at ha
    split_ifs at ha
    cases ha
    rfl
  | giveBack hs => exact via hs (hrelease _) rfl rfl
  | retire hp hs => exact via hs (hrelease _) rfl rfl
  | guard hs => exact via hs rfl rfl rfl
  | adopt hp hs => exact via hs rfl rfl rfl
  | @push id task hto hp hcap hrun hs =>
    have hq := hset id.kind { p.shared.queue id.kind with tasks := (p.shared.queue id.kind).tasks ++ [task] } rfl
    exact via hs hq.1 hq.2.1 hq.2.2
  | finish hp hs => exact via hs rfl rfl rfl
  | execute hp hs => exact via hs rfl rfl rfl
  | callback hs =>
    refine via hs ?_ ?_ ?_ <;>
    · unfold complete
      split_ifs <;> rfl
  | @pop kind id task rest hq hp hs =>
    have hq := hset kind { p.shared.queue kind with tasks := rest } rfl
    exact via hs hq.1 hq.2.1 hq.2.2
  | @take kind hs =>
    have hq := hset kind (p.shared.queue kind).stopAndTakePending.2 rfl
    exact via hs hq.1 hq.2.1 hq.2.2

/-- A step accepts one write task, which then is in the queue, or none. -/
theorem Move.accepted (hm : Move p.shared t s' t') :
    (s'.accepted = p.shared.accepted ∧ ∀ k, t'.unoffered k ≤ t.unoffered k) ∨
    ∃ j, s'.accepted = p.shared.accepted ++ [j] ∧ 1 ≤ s'.weight (.ofTask ⟨.write, j⟩) ∧
      ∀ k, t'.unoffered k + (if j = k then 1 else 0) = t.unoffered k := by
  cases hm with
  | quiet hs hg => exact .inl ⟨hs.accepted, hg.unoffered⟩
  | acquire ha hs hg => exact .inl ⟨hs.accepted, hg.unoffered⟩
  | giveBack hs hg => exact .inl ⟨hs.accepted, hg.unoffered⟩
  | retire hp hs hg => exact .inl ⟨hs.accepted, hg.unoffered⟩
  | guard hs hg => exact .inl ⟨hs.accepted, hg.unoffered⟩
  | adopt hp hs hg => exact .inl ⟨hs.accepted, hg.unoffered⟩
  | @push id task hto hp hcap hrun hs hheld hoff =>
    obtain ⟨kind, j⟩ := id
    cases kind with
    | read => exact .inl ⟨hs.accepted, fun k => Nat.le.intro (hoff k)⟩
    | write =>
      refine .inr ⟨j, hs.accepted, ?_, hoff⟩
      rw [hs.weight]
      show 1 ≤ (Weight.ofTask _).tasks (p.shared.writeQueue.tasks ++ [task]) + _
      have h1 : (Weight.ofTask ⟨.write, j⟩).task task = 1 := if_pos hp
      rw [Weight.tasks_append, Weight.tasks_cons, h1]
      omega
  | finish hp hs hg => exact .inl ⟨hs.accepted, hg.unoffered⟩
  | execute hp hs hheld hoff => exact .inl ⟨hs.accepted, fun k => by rw [hoff]; exact Nat.zero_le _⟩
  | callback hs hg =>
    refine .inl ⟨hs.accepted.trans ?_, hg.unoffered⟩
    unfold complete
    split_ifs <;> rfl
  | @pop kind id task rest hq hp hs hheld hoff =>
    refine .inl ⟨hs.accepted.trans ?_, fun k => by rw [hoff]; exact Nat.zero_le _⟩
    cases kind <;> rfl
  | @take kind hs hg =>
    refine .inl ⟨hs.accepted.trans ?_, hg.unoffered⟩
    cases kind <;> rfl

theorem Serves.step (h : Serves o p) (ht : p.threads[i]? = some t) (hs : t.step p.shared c = some (s', t')) :
    Serves o ⟨s', p.threads.set i t'⟩ := by
  have htmem : t ∈ p.threads := List.mem_of_getElem? ht
  obtain ⟨hm, hok'⟩ := (h.threads t htmem).move h.shared hs
  have hflow := hm.flow ht
  obtain ⟨hlimit, hcap, hcount⟩ := hm.bounds
  have hrole := Thread.role_step hs
  refine ⟨h.ok_step hm, Pool.forall_set h.threads hok', ?_, h.owned.flow hflow, ?_, hlimit.trans h.limit,
    hcap.trans h.capacity, fun k => ?_, fun k hk => ?_, fun kind hex => ?_, fun hstop kind => ?_⟩
  · obtain ⟨l, hl, hn⟩ := h.roles
    refine ⟨l, ?_, hn⟩
    rw [← hl, List.map_set, hrole]
    refine List.ext_getElem? fun j => ?_
    by_cases hj : i = j
    · subst hj
      simp [List.getElem?_set, ht]
      exact (List.getElem?_eq_some_iff.mp ht).1
    · rw [List.getElem?_set_ne hj]
  · obtain ⟨x, rest, hthreads, hwriting, hx, hrest⟩ := h.writer
    have hord := h.order.move hm
    rw [hwriting] at hord
    cases i with
    | zero =>
      obtain rfl : x = t := by simpa [hthreads] using ht
      have hnew : Pool.writing ⟨s', p.threads.set 0 t'⟩ = t'.held := by simp [Pool.writing, hthreads]
      rw [hnew]
      exact hord.1 rfl
    | succ i =>
      have hnew : Pool.writing ⟨s', p.threads.set (i + 1) t'⟩ = x.held := by simp [Pool.writing, hthreads]
      have htr : t ∈ rest := by
        rw [hthreads, List.getElem?_cons_succ] at ht
        exact List.mem_of_getElem? ht
      rw [hnew]
      refine hord.2 (Thread.held_eq_nil (hrest t htr)) (Thread.held_eq_nil ?_)
      rw [hrole]
      exact hrest t htr
  · have htot := Pool.total_set (Thread.unoffered k) s' t' ht
    have hold := h.offered k
    show _ + s'.accepted.count k ≤ if k < s'.callCount then 1 else 0
    rw [hcount]
    rcases hm.accepted with ⟨ha, hle⟩ | ⟨j, ha, -, heq⟩
    · have := hle k
      rw [ha]
      omega
    · have := heq k
      have hcnt : (p.shared.accepted ++ [j]).count k = p.shared.accepted.count k + if j = k then 1 else 0 := by
        simp [List.count_append, List.count_cons]
      rw [ha, hcnt]
      omega
  · have hkeep := hflow.keeps ⟨.write, k⟩
    rcases hm.accepted with ⟨ha, -⟩ | ⟨j, ha, hw, -⟩
    · rw [ha] at hk
      exact (h.kept k hk).trans hkeep
    · rw [ha] at hk
      rcases List.mem_append.mp hk with hk | hk
      · exact (h.kept k hk).trans hkeep
      · obtain rfl := List.mem_singleton.mp hk
        exact (hw.trans (Nat.le_add_right _ _)).trans (Nat.le_add_right _ _)
  · rcases List.mem_or_eq_of_mem_set hex with hex | rfl
    · exact hm.stopped (h.exited kind hex)
    · refine hm.stopped ?_
      cases t with
      | handler k r x => cases hrole
      | shutdown x => cases hrole
      | worker k₁ x =>
        obtain ⟨⟨s₁, x'⟩, hstep, he⟩ := Option.map_eq_some_iff.mp hs
        cases he
        exact Worker.exited_step hstep
  · have hset : ∀ u ∈ p.threads, u ≠ t → u ∈ p.threads.set i t' := by
      intro u hu hne
      obtain ⟨j, hj⟩ := List.mem_iff_getElem?.mp hu
      refine List.mem_iff_getElem?.mpr ⟨j, ?_⟩
      rw [List.getElem?_set_ne, hj]
      rintro rfl
      exact hne (Option.some.inj (hj.symm.trans ht))
    have hnew : t' ∈ p.threads.set i t' :=
      List.mem_iff_getElem?.mpr ⟨i, List.getElem?_set_self (List.getElem?_eq_some_iff.mp ht).1⟩
    obtain ⟨h1, h2⟩ := Thread.stopping_step kind hs
    rcases h1 with h1 | h1
    · rcases h.stopping (h1.symm.trans hstop) kind with hq | ⟨u, hu, hwill⟩
      · exact .inl (hm.stopped hq)
      · by_cases hut : u = t
        · subst hut
          rcases h2 hwill with h3 | h3
          · exact .inr ⟨t', hnew, h3⟩
          · exact .inl h3
        · exact .inr ⟨u, hset u hu hut, hwill⟩
    · exact .inr ⟨t', hnew, h1⟩

theorem Serves.start (h : Serves o p) (hs : Starts p.shared s' t) : Serves o ⟨s', p.threads ++ [t]⟩ := by
  obtain ⟨x, rest, hthreads, hwriting, -, -⟩ := h.writer
  have hwriting' : Pool.writing ⟨s', p.threads ++ [t]⟩ = p.writing := by simp [Pool.writing, hthreads]
  have hroles : t.role ≠ .worker .write →
      ∃ l, (p.threads ++ [t]).map Thread.role = o.roles ++ l ∧ Role.worker .write ∉ l := by
    intro hne
    obtain ⟨l, hl, hn⟩ := h.roles
    refine ⟨l ++ [t.role], by simp [hl], ?_⟩
    rw [List.mem_append, List.mem_singleton]
    exact fun hm => hm.elim hn (Ne.symm hne)
  have hthr : t.Ok → ∀ u ∈ p.threads ++ [t], u.Ok := by
    intro ht u hu
    rcases List.mem_append.mp hu with hu | hu
    · exact h.threads u hu
    · rwa [List.mem_singleton.mp hu]
  have hmem : ∀ {u}, u ∈ p.threads ++ [t] → u ≠ t → u ∈ p.threads := by
    intro u hu hne
    rcases List.mem_append.mp hu with hu | hu
    · exact hu
    · exact absurd (List.mem_singleton.mp hu) hne
  have hwill : p.shared.stopping = true → ∀ kind, (p.shared.queue kind).stopped = true ∨
      ∃ u ∈ p.threads ++ [t], u.willStop kind := fun hstop kind =>
    (h.stopping hstop kind).imp_right fun ⟨u, hu, hw⟩ => ⟨u, List.mem_append_left _ hu, hw⟩
  cases hs with
  | shutdown =>
    have hw : ∀ w, Pool.weight w ⟨p.shared, p.threads ++ [.shutdown .called]⟩ = p.weight w := fun w => by
      unfold Pool.weight
      rw [Pool.total_append]
      rfl
    refine ⟨h.shared, hthr trivial, hroles (by simp [Thread.role]), ?_, ?_, h.limit, h.capacity, fun k => ?_,
      fun k hk => ?_, fun kind hex => h.exited kind (hmem hex (by simp)), hwill⟩
    · exact h.owned.congr (fun k => hw _) (fun k => hw _) (fun k => hw _) (hw _)
    · rw [hwriting']
      exact h.order
    · rw [Pool.total_append]
      exact h.offered k
    · rw [hw]
      exact h.kept k hk
  | call r =>
    have hw : ∀ w, Pool.weight w ⟨{ p.shared with
        callCount := p.shared.callCount + 1, calls :=
        Function.update p.shared.calls p.shared.callCount { request := r } },
        p.threads ++ [.handler p.shared.callCount r .entered]⟩ =
          p.weight w + w.guard p.shared.callCount := fun w => by
      unfold Pool.weight
      rw [Pool.total_append]
      exact (Nat.add_assoc _ _ _).symm
    refine ⟨?_, hthr trivial, hroles (by simp [Thread.role]), h.owned.call hw, ?_, h.limit, h.capacity, fun k => ?_,
      fun k hk => ?_, fun kind hex => ?_, fun hstop kind => ?_⟩
    · intro kind
      have := h.shared kind
      cases kind <;> exact this
    · rw [hwriting']
      exact h.order.congr rfl rfl rfl rfl
    · have hold := h.offered k
      rw [Pool.total_append]
      show p.total _ + ((if p.shared.callCount = k then 1 else 0) + 0) + p.shared.accepted.count k ≤
        if k < p.shared.callCount + 1 then 1 else 0
      by_cases hk : p.shared.callCount = k
      · subst hk
        rw [if_neg (lt_irrefl _)] at hold
        rw [if_pos rfl, if_pos (Nat.lt_succ_self _)]
        omega
      · rw [if_neg hk]
        split_ifs at hold ⊢ <;> omega
    · rw [hw]
      exact h.kept k hk
    · have := h.exited kind (hmem hex (by simp))
      cases kind <;> exact this
    · have := hwill hstop kind
      cases kind <;> exact this

theorem ObjectServiceOptions.Reachable.serves (h : o.Reachable p) : Serves o p :=
  Pool.Reachable.induction h (serves_service o) (fun _ _ _ hp hs => hp.start hs) fun _ _ _ _ _ _ hp ht hs =>
    hp.step ht hs

end Invariant

end Eufs
