import Eufs.Rpc.Admission

/-!
# Eufs.Rpc.Completion — calls come to an end

* `Pool.Stuck`: in a state in which no thread can go on, nobody has a closure, a task or a lease any more.
* `Pool.rank`: every step of the threads that are there makes it smaller, so without new calls the service comes to
  such a state.
* `service_contract`: the contract of the service, for any interleaving.
-/

namespace Eufs

open InflightByteLimiter Handler

/-! ## Progress -/

/-- No thread can go on. -/
def Pool.Stuck (p : Pool Shared Thread) : Prop := ∀ t ∈ p.threads, ∀ c, t.step p.shared c = none

/-- The thread is between the return of a callback and the reset of the lease. -/
def Thread.resetting : Thread → Bool
  | .handler _ _ (.finishing (.returned _)) => true
  | .worker _ (.finishing (.returned _)) => true
  | .shutdown (.finishing (.returned _) _) => true
  | _ => false

section Progress

variable {o : ObjectServiceOptions} {p : Pool Shared Thread} {s s' : Shared} {t t' : Thread} {c : Choice}

theorem Handler.eq_returned_of_stuck {k : ℕ} {r : Request} {h : Handler} (hs : ∀ c, h.step s k r c = none) :
    h = .returned := by
  cases h with
  | returned => rfl
  | finishing f => cases f <;> cases hs .go
  | entered => cases hs .go
  | admitted request => cases hs .go
  | building lease => cases hs .go
  | leaving => cases hs .go
  | offering task => cases hs .go
  | refused task => cases hs .go

theorem Worker.of_stuck {x : Worker} (kind : QueueKind) (hs : ∀ c, x.step s kind c = none) :
    x = .exited ∨ x = .waiting ∧ (s.queue kind).tasks = [] := by
  cases x with
  | exited => exact .inl rfl
  | waiting =>
    refine .inr ⟨rfl, ?_⟩
    cases hq : (s.queue kind).tasks with
    | nil => rfl
    | cons task rest =>
      have := hs .go
      simp [Worker.step, BoundedTaskQueue.waitPop, hq] at this
  | holding task => cases hs .go
  | finishing f =>
    cases f with
    | callback task id run => cases hs (.answer .flattenFailed)
    | returned task => cases hs .go

theorem Shutdown.of_stuck {x : Shutdown} (hs : ∀ c, x.step s c = none) : x = .joining ∨ x = .returned := by
  cases x with
  | returned => exact .inr rfl
  | joining => exact .inl rfl
  | called =>
    have := hs .go
    simp only [Shutdown.step] at this
    split_ifs at this
  | marked => cases hs .go
  | tookWrites writes => cases hs .go
  | cancelling pending => cases pending <;> cases hs .go
  | finishing f rest => cases f <;> cases hs .go

theorem Thread.weight_of_stuck (hs : ∀ c, t.step s c = none) (w : Weight) : t.weight w = 0 := by
  cases t with
  | handler k r h =>
    rw [eq_returned_of_stuck (s := s) (k := k) (r := r) (h := h) fun c => Option.map_eq_none_iff.mp (hs c)]
    rfl
  | worker kind x =>
    rcases Worker.of_stuck (s := s) (x := x) kind fun c => Option.map_eq_none_iff.mp (hs c) with rfl | ⟨rfl, -⟩
    · rfl
    · rfl
  | shutdown x =>
    rcases Shutdown.of_stuck (s := s) (x := x) fun c => Option.map_eq_none_iff.mp (hs c) with rfl | rfl
    · rfl
    · rfl

theorem Serves.tasks_eq_nil {kind : QueueKind} {x : Worker} (h : Serves o p) (hs : p.Stuck)
    (hx : .worker kind x ∈ p.threads) : (p.shared.queue kind).tasks = [] := by
  rcases Worker.of_stuck (s := p.shared) (x := x) kind fun c => Option.map_eq_none_iff.mp (hs _ hx c) with
    rfl | ⟨-, hq⟩
  · exact h.order.drained kind (h.exited kind hx)
  · exact hq

/-- When nothing can go on and reads are served, nobody has anything. -/
theorem Serves.weight_of_stuck (h : Serves o p) (hs : p.Stuck)
    (hr : 0 < o.readWorkerCount ∨ p.shared.stopping = true) (w : Weight) : p.weight w = 0 := by
  have hwrite : p.shared.writeQueue.tasks = [] := by
    obtain ⟨x, rest, hthreads, -, hx, -⟩ := h.writer
    have hmem : x ∈ p.threads := by rw [hthreads]; exact List.mem_cons_self
    cases x with
    | handler k r y => cases hx
    | shutdown y => cases hx
    | worker kind y =>
      cases hx
      exact h.tasks_eq_nil hs hmem
  have hread : p.shared.readQueue.tasks = [] := by
    rcases hr with hr | hr
    · obtain ⟨l, hl, -⟩ := h.roles
      have hmem : Role.worker .read ∈ p.threads.map Thread.role := by
        rw [hl]
        exact List.mem_append_left _ (List.mem_cons_of_mem _ (List.mem_replicate.mpr ⟨hr.ne', rfl⟩))
      obtain ⟨x, hx, hrole⟩ := List.mem_map.mp hmem
      cases x with
      | handler k r y => cases hrole
      | shutdown y => cases hrole
      | worker kind y =>
        cases hrole
        exact h.tasks_eq_nil hs hx
    · rcases h.stopping hr .read with hq | ⟨t, ht, hwill⟩
      · exact h.order.drained .read hq
      · cases t with
        | handler k r y => cases hwill
        | worker kind y => cases hwill
        | shutdown y =>
          rcases Shutdown.of_stuck (s := p.shared) (x := y) fun c =>
            Option.map_eq_none_iff.mp (hs _ ht c) with rfl | rfl
          · cases hwill
          · cases hwill
  unfold Pool.weight Shared.weight
  rw [hwrite, hread, Pool.total_eq_zero fun t ht => Thread.weight_of_stuck (hs t ht) w]
  rfl

/-- Without closures and tasks to complete, only a thread in `Finish` can still have a lease. -/
theorem Thread.leased_eq_zero (ht : t.Ok) (hg : ∀ k, t.weight (.guarded k) = 0) (ho : ∀ k, t.weight (.owed k) = 0)
    (hr : t.resetting = false) : t.weight .leased = 0 := by
  have hready : ∀ {kind : QueueKind} {task : QueuedTask TaskId}, Ready kind task →
      ∃ k, (Weight.owed k).task task = 1 := by
    rintro kind task ⟨-, k, hp⟩
    exact ⟨k, by rw [Weight.owed_task hp, if_pos rfl]⟩
  have hlist : ∀ {l : List (QueuedTask TaskId)}, (∀ task ∈ l, ∃ kind, Ready kind task) →
      (∀ k, (Weight.owed k).tasks l = 0) → l = [] := by
    intro l hl h0
    cases l with
    | nil => rfl
    | cons task rest =>
      obtain ⟨kind, hk⟩ := hl task List.mem_cons_self
      obtain ⟨k, hone⟩ := hready hk
      have := h0 k
      rw [Weight.tasks_cons, hone] at this
      omega
  have hcallback : ∀ id : TaskId, (Weight.owed id.call).callback id = 1 := fun id => if_pos rfl
  cases t with
  | handler k r h =>
    cases h with
    | entered => rfl
    | admitted request => rfl
    | leaving => rfl
    | returned => rfl
    | building lease =>
      have h1 : (Weight.guarded k).guard k + (Weight.guarded k).lease lease = 0 := hg k
      have h2 : (Weight.guarded k).guard k = 1 := if_pos rfl
      omega
    | offering task =>
      obtain ⟨j, hone⟩ := hready ⟨ht.1, k, ht.2⟩
      cases (ho j).symm.trans hone
    | refused task =>
      obtain ⟨j, hone⟩ := hready ⟨ht.1, k, ht.2⟩
      cases (ho j).symm.trans hone
    | finishing f =>
      cases f with
      | returned task => cases hr
      | callback task id run =>
        have h1 : (Weight.owed id.call).task task + (Weight.owed id.call).callback id = 0 := ho id.call
        have h2 := hcallback id
        omega
  | worker kind x =>
    cases x with
    | waiting => rfl
    | exited => rfl
    | holding task =>
      obtain ⟨j, hone⟩ := hready ht
      cases (ho j).symm.trans hone
    | finishing f =>
      cases f with
      | returned task => cases hr
      | callback task id run =>
        have h1 : (Weight.owed id.call).task task + (Weight.owed id.call).callback id = 0 := ho id.call
        have h2 := hcallback id
        omega
  | shutdown x =>
    cases x with
    | called => rfl
    | marked => rfl
    | joining => rfl
    | returned => rfl
    | tookWrites pending =>
      rw [hlist ht ho]
      rfl
    | cancelling pending =>
      rw [hlist ht ho]
      rfl
    | finishing f rest =>
      cases f with
      | returned task => cases hr
      | callback task id run =>
        have h1 : (Weight.owed id.call).task task + (Weight.owed id.call).callback id +
          (Weight.owed id.call).tasks rest = 0 := ho id.call
        have h2 := hcallback id
        omega

/-- Once every closure has run and no thread is still inside `Finish`, no byte is charged. -/
theorem Serves.leased_eq_zero (h : Serves o p) (hdone : ∀ k < p.shared.callCount, (p.shared.calls k).doneRuns = 1)
    (hr : ∀ t ∈ p.threads, t.resetting = false) : p.weight .leased = 0 := by
  have hzero : ∀ k, p.weight (.guarded k) = 0 ∧ p.weight (.owed k) = 0 := by
    intro k
    have hc := h.owned.closure k
    by_cases hk : k < p.shared.callCount
    · rw [hdone k hk, if_pos hk] at hc
      omega
    · rw [if_neg hk] at hc
      omega
  have hthread : ∀ t ∈ p.threads, ∀ w, p.weight w = 0 → t.weight w = 0 := fun t ht w h0 =>
    Nat.eq_zero_of_le_zero ((Pool.le_total (g := Thread.weight w) ht).trans
      ((Nat.le_add_left _ _).trans (Nat.le_of_eq h0)))
  have hqueue : ∀ kind, (p.shared.queue kind).tasks = [] := by
    intro kind
    cases hq : (p.shared.queue kind).tasks with
    | nil => rfl
    | cons task rest =>
      obtain ⟨-, k, hp⟩ := h.shared kind task (by rw [hq]; exact List.mem_cons_self)
      have h1 : (Weight.owed k).tasks (p.shared.queue kind).tasks ≤ p.weight (.owed k) := by
        unfold Pool.weight Shared.weight
        cases kind with
        | write => exact (Nat.le_add_right _ _).trans (Nat.le_add_right _ _)
        | read => exact (Nat.le_add_left _ _).trans (Nat.le_add_right _ _)
      rw [hq, Weight.tasks_cons, Weight.owed_task hp, if_pos rfl, (hzero k).2] at h1
      omega
  have hthreads : p.total (Thread.weight .leased) = 0 := Pool.total_eq_zero fun t ht =>
    Thread.leased_eq_zero (h.threads t ht) (fun k => hthread t ht _ (hzero k).1) (fun k => hthread t ht _ (hzero k).2)
      (hr t ht)
  unfold Pool.weight Shared.weight
  rw [show p.shared.writeQueue.tasks = [] from hqueue .write,
    show p.shared.readQueue.tasks = [] from hqueue .read, hthreads]
  rfl

/-! ## Ranks -/

def TaskFinish.rank : TaskFinish → ℕ
  | .callback _ _ _ => 3
  | .returned _ => 2

def Handler.rank : Handler → ℕ
  | .entered => 8
  | .admitted _ => 7
  | .building _ => 6
  | .offering _ => 5
  | .refused _ => 4
  | .finishing f => f.rank
  | .leaving => 1
  | .returned => 0

def Worker.rank : Worker → ℕ
  | .holding _ => 4
  | .finishing f => f.rank
  | .waiting => 1
  | .exited => 0

def Shutdown.rank : Shutdown → ℕ
  | .called => 5
  | .marked => 4
  | .tookWrites l => 3 + 4 * l.length
  | .cancelling l => 2 + 4 * l.length
  | .finishing f l => 2 + f.rank + 4 * l.length
  | .joining => 1
  | .returned => 0

def Thread.rank : Thread → ℕ
  | .handler _ _ h => h.rank
  | .worker _ x => x.rank
  | .shutdown x => x.rank

/-- The tasks in the queues. -/
def Shared.queued (s : Shared) : ℕ := s.writeQueue.tasks.length + s.readQueue.tasks.length

/-- How many steps the threads can still take. -/
def Pool.rank (p : Pool Shared Thread) : ℕ := 4 * p.shared.queued + p.total Thread.rank

theorem Shared.queued_complete (k : ℕ) : (s.complete k).queued = s.queued := by
  unfold Shared.complete
  split_ifs <;> rfl

theorem rank_beginFinish (task : QueuedTask TaskId) (run : Bool) :
    (beginFinish s task run).1.queued = s.queued ∧ (beginFinish s task run).2.rank ≤ 3 := by
  unfold beginFinish
  split
  · exact ⟨rfl, Nat.le_refl _⟩
  · exact ⟨rfl, Nat.le_succ _⟩

theorem Handler.rank_step {k : ℕ} {r : Request} {h h' : Handler} (hs : h.step s k r c = some (s', h')) :
    4 * s'.queued + h'.rank < 4 * s.queued + h.rank := by
  -- a result that leaves the queues alone
  have keep : ∀ {x : Shared × Handler}, x = (s', h') → x.1.queued = s.queued → x.2.rank < h.rank →
      4 * s'.queued + h'.rank < 4 * s.queued + h.rank := by
    rintro x rfl hq hlt
    dsimp only at hq hlt
    omega
  cases h with
  | entered =>
    cases c <;> try cases hs
    have he : (enter s k r).1.queued = s.queued ∧ (enter s k r).2.rank < 8 := by
      unfold enter
      split
      · split_ifs
        · exact ⟨rfl, by simp [rank]⟩
        · split
          · exact ⟨rfl, by simp [rank]⟩
          · exact ⟨rfl, by simp [rank]⟩
      · split_ifs <;> exact ⟨rfl, by simp [rank]⟩
      · split_ifs <;> exact ⟨rfl, by simp [rank]⟩
      · exact ⟨rfl, by simp [rank]⟩
    exact keep (Option.some.inj hs) he.1 he.2
  | admitted request =>
    cases c <;> try cases hs
    have he : (acquire s k request).1.queued = s.queued ∧ (acquire s k request).2.rank < 7 := by
      unfold acquire
      split <;> exact ⟨rfl, by simp [rank]⟩
    exact keep (Option.some.inj hs) he.1 he.2
  | building lease =>
    have hbuild : build s k r lease c = some (s', h') := hs
    unfold build at hbuild
    split at hbuild <;> (try split at hbuild) <;> cases hbuild <;> exact keep rfl rfl (by simp [rank])
  | leaving =>
    cases c <;> cases hs
    exact keep rfl rfl (by simp [rank])
  | offering task =>
    have hoffer : ∀ allocates, offer s k r task allocates = (s', h') →
        4 * s'.queued + h'.rank < 4 * s.queued + 5 := by
      intro allocates he
      unfold offer BoundedTaskQueue.tryEnqueue at he
      split_ifs at he
      all_goals cases he
      all_goals
        first
        | exact keep rfl rfl (by simp [rank])
        | (cases hk : r.kind <;>
            simp only [Shared.queued, Shared.setQueue, Shared.queue, List.length_append, List.length_singleton,
              rank] <;> omega)
    cases c <;> try cases hs
    · exact hoffer true (Option.some.inj hs)
    · exact hoffer false (Option.some.inj hs)
  | refused task =>
    cases c <;> try cases hs
    obtain ⟨hq, hf⟩ := rank_beginFinish (s := s) task false
    exact keep (x := ((beginFinish s task false).1, .finishing (beginFinish s task false).2)) rfl hq
      (Nat.lt_succ_of_le hf)
  | finishing f =>
    cases f <;> cases c <;> cases hs
    · exact keep rfl (Shared.queued_complete _) (by simp [rank, TaskFinish.rank])
    · exact keep rfl rfl (by simp [rank, TaskFinish.rank])
  | returned => cases c <;> cases hs

theorem Worker.rank_step {kind : QueueKind} {x x' : Worker} (hs : x.step s kind c = some (s', x')) :
    4 * s'.queued + x'.rank < 4 * s.queued + x.rank := by
  cases x with
  | waiting =>
    cases c <;> simp only [Worker.step, reduceCtorEq] at hs
    cases hq : (s.queue kind).tasks with
    | nil =>
      by_cases hst : (s.queue kind).stopped = true
      · simp only [BoundedTaskQueue.waitPop, hq, hst, if_true, Option.some.injEq, Prod.mk.injEq] at hs
        obtain ⟨rfl, rfl⟩ := hs
        exact Nat.lt_succ_self _
      · simp [BoundedTaskQueue.waitPop, hq, hst] at hs
    | cons task rest =>
      simp only [BoundedTaskQueue.waitPop, hq, Option.some.injEq, Prod.mk.injEq] at hs
      obtain ⟨rfl, rfl⟩ := hs
      cases kind with
      | write =>
        have hlen : s.writeQueue.tasks.length = rest.length + 1 := congrArg List.length hq
        show 4 * (rest.length + s.readQueue.tasks.length) + 4 <
          4 * (s.writeQueue.tasks.length + s.readQueue.tasks.length) + 1
        omega
      | read =>
        have hlen : s.readQueue.tasks.length = rest.length + 1 := congrArg List.length hq
        show 4 * (s.writeQueue.tasks.length + rest.length) + 4 <
          4 * (s.writeQueue.tasks.length + s.readQueue.tasks.length) + 1
        omega
  | holding task =>
    cases c <;> try cases hs
    obtain ⟨hq, hf⟩ := rank_beginFinish (s := s) task true
    show 4 * (beginFinish s task true).1.queued + (beginFinish s task true).2.rank < 4 * s.queued + 4
    omega
  | finishing f =>
    cases f <;> cases c <;> cases hs
    · show 4 * ((s.respond _ _).complete _).queued + 2 < 4 * s.queued + 3
      rw [Shared.queued_complete]
      exact Nat.lt_succ_self _
    · exact Nat.lt_succ_self _
  | exited => cases c <;> cases hs

theorem Shutdown.rank_step {x x' : Shutdown} (hs : x.step s c = some (s', x')) :
    4 * s'.queued + x'.rank < 4 * s.queued + x.rank := by
  cases x with
  | called =>
    cases c <;> simp only [Shutdown.step, reduceCtorEq] at hs
    split_ifs at hs <;> cases hs
    · exact Nat.add_lt_add_left (by decide) _
    · exact Nat.lt_succ_self _
  | marked =>
    cases c <;> cases hs
    show 4 * (0 + s.readQueue.tasks.length) + (3 + 4 * s.writeQueue.tasks.length) <
      4 * (s.writeQueue.tasks.length + s.readQueue.tasks.length) + 4
    omega
  | tookWrites writes =>
    cases c <;> cases hs
    show 4 * (s.writeQueue.tasks.length + 0) + (2 + 4 * (writes ++ s.readQueue.tasks).length) <
      4 * (s.writeQueue.tasks.length + s.readQueue.tasks.length) + (3 + 4 * writes.length)
    rw [List.length_append]
    omega
  | cancelling pending =>
    cases pending with
    | nil =>
      cases c <;> cases hs
      exact Nat.lt_succ_self _
    | cons task rest =>
      cases c <;> try cases hs
      obtain ⟨hq, hf⟩ := rank_beginFinish (s := s) task false
      show 4 * (beginFinish s task false).1.queued + (2 + (beginFinish s task false).2.rank + 4 * rest.length) <
        4 * s.queued + (2 + 4 * (rest.length + 1))
      omega
  | finishing f rest =>
    cases f <;> cases c <;> cases hs
    · show 4 * ((s.respond _ _).complete _).queued + (2 + 2 + 4 * rest.length) <
        4 * s.queued + (2 + 3 + 4 * rest.length)
      rw [Shared.queued_complete]
      show 4 * s.queued + _ < _
      omega
    · show 4 * s.queued + (2 + 4 * rest.length) < 4 * s.queued + (2 + 2 + 4 * rest.length)
      omega
  | joining =>
    cases c <;> simp only [Shutdown.step, reduceCtorEq] at hs
    split_ifs at hs
    cases hs
    exact Nat.lt_succ_self _
  | returned => cases c <;> cases hs

theorem Thread.rank_step (hs : t.step s c = some (s', t')) : 4 * s'.queued + t'.rank < 4 * s.queued + t.rank := by
  cases t with
  | handler k r h =>
    obtain ⟨⟨s₁, h'⟩, hstep, he⟩ := Option.map_eq_some_iff.mp hs
    cases he
    exact rank_step hstep
  | worker kind x =>
    obtain ⟨⟨s₁, x'⟩, hstep, he⟩ := Option.map_eq_some_iff.mp hs
    cases he
    exact Worker.rank_step hstep
  | shutdown x =>
    obtain ⟨⟨s₁, x'⟩, hstep, he⟩ := Option.map_eq_some_iff.mp hs
    cases he
    exact Shutdown.rank_step hstep

/-- The threads that are there take at most `rank` steps. -/
theorem Pool.Runs.length_le_rank {p' : Pool Shared Thread} {n : ℕ} (h : Pool.Runs Thread.step p n p') :
    n ≤ p.rank := by
  refine Pool.length_le_of_measure Pool.rank (fun p i c p' hs => ?_) h
  obtain ⟨t, s', t', ht, hstep, rfl⟩ := Pool.step_eq_some.mp hs
  have h1 := Thread.rank_step hstep
  have h2 := Pool.total_set Thread.rank s' t' ht
  show 4 * s'.queued + _ < 4 * p.shared.queued + _
  omega

end Progress

/-! ## The contract -/

/-- What callers of the service may rely on in the state `p`. -/
structure Contract (o : ObjectServiceOptions) (p : Pool Shared Thread) : Prop where
  done : ∀ k, (p.shared.calls k).doneRuns ≤ 1
  tasks : ∀ k, p.shared.ran.countP (fun e => e.1.call = k) ≤ 1
  capacity : p.shared.writeQueue.tasks.length ≤ o.maxQueuedWriteTasks
  order : p.shared.executed <+: p.shared.accepted ∧ p.shared.accepted.Nodup
  /-- The counter is the sum of the bytes of the live leases. -/
  used : p.shared.limiter.usedBytes.toNat = p.weight .leased
  limit : p.shared.limiter.usedBytes ≤ o.maxInflightBytes
  /-- Whatever a thread may give back is charged, so that no subtraction wraps. -/
  charged : ∀ t ∈ p.threads, t.weight .leased ≤ p.shared.limiter.usedBytes.toNat
  /-- No byte is charged once every closure has run and the `Finish` calls that ran them have returned. -/
  idle : (∀ k < p.shared.callCount, (p.shared.calls k).doneRuns = 1) →
    (∀ t ∈ p.threads, t.resetting = false) →
    p.shared.limiter.usedBytes = 0
  /-- Without new calls the threads come to a stop. -/
  ends : ∃ bound, ∀ n p', Pool.Runs Thread.step p n p' → n ≤ bound
  /-- There every call is completed, and the accepted write tasks that were not executed are cancelled. -/
  completed : p.Stuck → 0 < o.readWorkerCount ∨ p.shared.stopping = true →
    (∀ k < p.shared.callCount, (p.shared.calls k).doneRuns = 1) ∧
    (∀ k, (p.shared.calls k).released = true → p.shared.ran.countP (fun e => e.1.call = k) = 1) ∧
    p.shared.limiter.usedBytes = 0 ∧
    ∃ rest, p.shared.accepted = p.shared.executed ++ rest ∧
      ∀ k ∈ rest, (⟨.write, k⟩, false) ∈ p.shared.ran ∧ (⟨.write, k⟩, true) ∉ p.shared.ran

section Contracts

variable {o : ObjectServiceOptions} {p : Pool Shared Thread}

theorem Serves.nodup_accepted (h : Serves o p) : p.shared.accepted.Nodup := by
  refine List.nodup_iff_count_le_one.mpr fun k => ?_
  have := h.offered k
  split_ifs at this <;> omega

theorem Serves.used_eq_zero (h : Serves o p) (h0 : p.weight .leased = 0) : p.shared.limiter.usedBytes = 0 := by
  have hu := h.owned.accounts.used
  rw [h0] at hu
  exact UInt64.toNat_inj.mp hu

theorem Shared.mem_executed {s : Shared} {k : ℕ} : k ∈ s.executed ↔ (⟨.write, k⟩, true) ∈ s.ran := by
  unfold Shared.executed
  rw [List.mem_filterMap]
  constructor
  · rintro ⟨⟨⟨kind, j⟩, run⟩, he, hk⟩
    by_cases hc : kind = .write ∧ run = true
    · rw [if_pos hc] at hk
      obtain ⟨rfl, rfl⟩ := hc
      cases hk
      exact he
    · rw [if_neg hc] at hk
      cases hk
  · intro he
    exact ⟨_, he, if_pos ⟨rfl, rfl⟩⟩

theorem Serves.cancelled (h : Serves o p) (h0 : ∀ w, p.weight w = 0) : ∃ rest,
    p.shared.accepted = p.shared.executed ++ rest ∧
      ∀ k ∈ rest, (⟨.write, k⟩, false) ∈ p.shared.ran ∧ (⟨.write, k⟩, true) ∉ p.shared.ran := by
  obtain ⟨l, hl⟩ := h.order.before
  have hrest : p.shared.executed ++ (p.writing ++ p.shared.queuedWrites ++ l) = p.shared.accepted := by
    rw [← hl]
    simp
  refine ⟨_, hrest.symm, fun k hk => ?_⟩
  have hacc : k ∈ p.shared.accepted := by
    rw [← hrest]
    exact List.mem_append_right _ hk
  have hnot : (⟨.write, k⟩, true) ∉ p.shared.ran := by
    intro hm
    have hnodup := h.nodup_accepted
    rw [← hrest, List.nodup_append] at hnodup
    exact hnodup.2.2 k (Shared.mem_executed.mpr hm) k hk rfl
  refine ⟨?_, hnot⟩
  have hkept := h.kept k hacc
  rw [h0, Nat.zero_add] at hkept
  obtain ⟨⟨id, run⟩, he, hid⟩ := List.countP_pos_iff.mp hkept
  obtain rfl : id = ⟨.write, k⟩ := by simpa using hid
  cases run with
  | false => exact he
  | true => exact absurd he hnot

theorem Serves.contract (h : Serves o p) : Contract o p where
  done k := by
    have := h.owned.closure k
    split_ifs at this <;> omega
  tasks k := by
    have h1 := h.owned.tasks k
    have h2 := Bool.toNat_le (p.shared.calls k).released
    omega
  capacity := by
    rw [← h.capacity]
    exact h.order.bounded
  order := ⟨(List.prefix_append _ _).trans ((List.append_assoc _ _ _ ▸ h.order.before)), h.nodup_accepted⟩
  used := h.owned.accounts.used
  limit := by
    rw [← h.limit, UInt64.le_iff_toNat_le, h.owned.accounts.used]
    exact h.owned.accounts.limit
  charged t ht := by
    rw [h.owned.accounts.used]
    exact (Pool.le_total (g := Thread.weight .leased) ht).trans (Nat.le_add_left _ _)
  idle hdone hr := h.used_eq_zero (h.leased_eq_zero hdone hr)
  ends := ⟨p.rank, fun _ _ hruns => hruns.length_le_rank⟩
  completed hs hr := by
    have h0 := h.weight_of_stuck hs hr
    refine ⟨fun k hk => ?_, fun k hk => ?_, h.used_eq_zero (h0 _), h.cancelled h0⟩
    · have hc := h.owned.closure k
      rw [h0, h0, if_pos hk] at hc
      omega
    · have ht := h.owned.tasks k
      rw [h0, hk, Bool.toNat_true] at ht
      omega

end Contracts

/-- What holds of task objects however they are used. -/
structure TaskContract (s : TaskStore) : Prop where
  /-- A task is with one object, or one of its callbacks was called, never both. -/
  once : ∀ k < s.made, (s.objects.map (TaskStore.owes k)).sum + s.ran.countP (fun e => e.1 = k) = 1
  destroyed : (∀ x ∈ s.objects, x = none) → ∀ k < s.made, s.ran.countP (fun e => e.1 = k) = 1
  accounts : s.limiter.Accounts ((s.leases.map leaseBytes).sum + (s.objects.map TaskStore.objectBytes).sum)

theorem TaskStore.Inv.contract {s : TaskStore} (h : s.Inv) : TaskContract s where
  once k hk := (h.once k).trans (if_pos hk)
  destroyed hx k hk := by
    have hc := (h.once k).trans (if_pos hk)
    have h0 : (s.objects.map (TaskStore.owes k)).sum = 0 := by
      refine List.sum_eq_zero fun n hn => ?_
      obtain ⟨x, hx', rfl⟩ := List.mem_map.mp hn
      rw [hx x hx']
      rfl
    omega
  accounts := h.accounts

/-- The service keeps its contract in every interleaving, and its tasks keep theirs under any use. -/
theorem service_contract (o : ObjectServiceOptions) :
    (∀ p, o.Reachable p → Contract o p) ∧
      ∀ limit ops s, (TaskStore.start limit).run ops = some s → TaskContract s :=
  ⟨fun _ h => h.serves.contract, fun limit _ _ hs => (TaskStore.Inv.run (TaskStore.inv_start limit) hs).contract⟩

/-- A put of one byte to a service with one read worker. -/
def onePut : Request := .putObject (some
  { key := [0x6b], payloadSize := 1, attachmentSize := 1, sha256 := List.replicate 32 0,
    requestId := List.replicate 16 1, precondition := some .createIfAbsent })

def onePutOptions : ObjectServiceOptions := { readWorkerCount := 1 }

/-- The call has come in. -/
def onePutService : Pool Shared Thread :=
  ⟨{ onePutOptions.service.shared with
      callCount := 1, calls := Function.update onePutOptions.service.shared.calls 0 { request := onePut } },
    onePutOptions.service.threads ++ [.handler 0 onePut .entered]⟩

/-- Its handler returns, and the write worker calls the callback. -/
def onePutSteps : List (ℕ × Choice) :=
  [(2, .go), (2, .go), (2, .go), (2, .go), (0, .go), (0, .go), (0, .answer .flattenFailed)]

theorem reachable_onePutService : onePutOptions.Reachable onePutService := .spawn .start (.call _ onePut)

/-- Every closure has run while the byte is still charged: `Finish` resets the lease after the callback. -/
theorem done_before_lease_reset : ∃ p, onePutOptions.Reachable p ∧
    (∀ k < p.shared.callCount, (p.shared.calls k).doneRuns = 1) ∧ p.shared.limiter.usedBytes = 1 := by
  obtain ⟨p, hp⟩ : ∃ p, onePutService.steps Thread.step onePutSteps = some p := ⟨_, rfl⟩
  have hcount : (onePutService.steps Thread.step onePutSteps).map (fun p => p.shared.callCount) = some 1 := rfl
  have hdone : (onePutService.steps Thread.step onePutSteps).map (fun p => (p.shared.calls 0).doneRuns) = some 1 := rfl
  have hused : (onePutService.steps Thread.step onePutSteps).map (fun p => p.shared.limiter.usedBytes) = some 1 := rfl
  rw [hp, Option.map_some, Option.some.injEq] at hcount hdone hused
  refine ⟨p, reachable_onePutService.steps hp, fun k hk => ?_, hused⟩
  obtain rfl : k = 0 := by omega
  exact hdone

/-- After the worker's next step the service is at rest and has completed the call. -/
theorem one_put_completes : ∃ p, onePutOptions.Reachable p ∧ p.Stuck ∧ p.shared.callCount = 1 ∧
    (p.shared.calls 0).doneRuns = 1 ∧ p.shared.limiter.usedBytes = 0 := by
  obtain ⟨p, hp⟩ : ∃ p, onePutService.steps Thread.step (onePutSteps ++ [(0, .go)]) = some p := ⟨_, rfl⟩
  have hstate : (onePutService.steps Thread.step (onePutSteps ++ [(0, .go)])).map
    (fun p => (p.threads, p.shared.callCount,
      p.shared.writeQueue.waitPop.isNone, p.shared.readQueue.waitPop.isNone)) =
    some ([.worker .write .waiting, .worker .read .waiting, .handler 0 onePut .returned], 1, true, true) := rfl
  rw [hp, Option.map_some, Option.some.injEq] at hstate
  obtain ⟨hthreads, hcount, hw, hr⟩ : p.threads = [.worker .write .waiting, .worker .read .waiting,
      .handler 0 onePut .returned] ∧ p.shared.callCount = 1 ∧ p.shared.writeQueue.waitPop.isNone = true ∧
      p.shared.readQueue.waitPop.isNone = true := by simpa using hstate
  have hreach := reachable_onePutService.steps hp
  have hstuck : p.Stuck := by
    intro t ht c
    rw [hthreads] at ht
    rcases List.mem_cons.mp ht with rfl | ht
    · cases c <;> simp [Thread.step, Worker.step, Shared.queue, Option.isNone_iff_eq_none.mp hw]
    rcases List.mem_cons.mp ht with rfl | ht
    · cases c <;> simp [Thread.step, Worker.step, Shared.queue, Option.isNone_iff_eq_none.mp hr]
    · obtain rfl := List.mem_singleton.mp ht
      cases c <;> rfl
  obtain ⟨hdone, -, hused, -⟩ := ((service_contract onePutOptions).1 p hreach).completed hstuck (.inl (by decide))
  exact ⟨p, hreach, hstuck, hcount, hdone 0 (by rw [hcount]; exact Nat.one_pos), hused⟩

end Eufs
