import Eufs.Rpc.Ownership

/-!
# Eufs.Rpc.Accounting — every closure once, every task once, every byte counted

Seen from outside, a move inside the service is one of the `Flow`s: a call comes in, a closure, a task or a lease
changes its form, or leaves.  `Owned` says that nothing is lost or doubled; every flow keeps it.
-/

namespace Eufs

open InflightByteLimiter Function Pool

variable {s s' : Shared} {id : TaskId}

/-! ## What the whole service owns -/

/-- The states agree in the calls, the limiter and the callbacks that were called. -/
structure Shared.Counts (s s' : Shared) : Prop where
  limiter : s'.limiter = s.limiter
  callCount : s'.callCount = s.callCount
  ran : s'.ran = s.ran
  calls : ∀ k, (s'.calls k).released = (s.calls k).released ∧ (s'.calls k).completion = (s.calls k).completion ∧
    (s'.calls k).doneRuns = (s.calls k).doneRuns

/-- What one step does when `W` is what the service holds: moves from place to place are no longer seen. -/
inductive Flow (s s' : Shared) (W W' : Weight → ℕ) : Prop
  | quiet (hs : s.Counts s') (hw : ∀ w, W' w = W w)
  | call {r : Request} (hs :
    ({ s with callCount := s.callCount + 1, calls := update s.calls s.callCount { request := r } } : Shared).Counts s')
      (hw : ∀ w, W' w = W w + w.guard s.callCount)
  | acquire {bytes : UInt64} {limiter : InflightByteLimiter}
      (ha : s.limiter.tryAcquire bytes = some (some bytes, limiter)) (hs : ({ s with limiter } : Shared).Counts s')
      (hw : ∀ w, W' w = W w + w.lease (some bytes))
  | giveBack {lease : Lease} (hs : (s.release lease).Counts s') (hw : ∀ w, W' w + w.lease lease = W w)
  | retire {task : QueuedTask TaskId} (hp : task.pending = none) (hs : (s.release task.byteLease).Counts s')
      (hw : ∀ w, W' w + w.task task = W w)
  | guard {k : ℕ} (hs : (s.runDone k).Counts s') (hw : ∀ w, W' w + w.guard k = W w)
  | adopt {id : TaskId} {task : QueuedTask TaskId} (hp : task.pending = some id)
      (hs : (s.modifyCall id.call fun c => { c with released := true, completion := true }).Counts s')
      (hw : ∀ w, W' w + w.guard id.call + w.lease task.byteLease = W w + w.task task)
  | finish {id : TaskId} {task : QueuedTask TaskId} {run : Bool} (hp : task.pending = some id)
      (hs : ({ s with ran := s.ran ++ [(id, run)] } : Shared).Counts s')
      (hw : ∀ w, W' w + w.task task = W w + w.task ⟨task.byteLease, none, none, false⟩ + w.callback id)
  | callback {id : TaskId} (hs : (s.complete id.call).Counts s') (hw : ∀ w, W' w + w.callback id = W w)

theorem Shared.Same.counts (h : s.Same s') : s.Counts s' := ⟨h.limiter, h.callCount, h.ran, h.calls⟩

theorem Shared.counts_setQueue {kind : QueueKind} {q : BoundedTaskQueue TaskId} (h : (s.setQueue kind q).Counts s') :
    s.Counts s' := by
  cases kind with
  | write => exact ⟨h.limiter, h.callCount, h.ran, h.calls⟩
  | read => exact ⟨h.limiter, h.callCount, h.ran, h.calls⟩

theorem Shared.Same.weight (h : s.Same s') (w : Weight) : s'.weight w = s.weight w := by
  unfold Shared.weight
  rw [h.writeQueue, h.readQueue]

theorem Shared.weight_setQueue (s : Shared) (kind : QueueKind) (q : BoundedTaskQueue TaskId) (w : Weight) :
    (s.setQueue kind q).weight w + w.tasks (s.queue kind).tasks = s.weight w + w.tasks q.tasks := by
  cases kind with
  | write =>
    show w.tasks q.tasks + w.tasks s.readQueue.tasks + w.tasks s.writeQueue.tasks =
      w.tasks s.writeQueue.tasks + w.tasks s.readQueue.tasks + w.tasks q.tasks
    omega
  | read =>
    show w.tasks s.writeQueue.tasks + w.tasks q.tasks + w.tasks s.readQueue.tasks =
      w.tasks s.writeQueue.tasks + w.tasks s.readQueue.tasks + w.tasks q.tasks
    omega

section Pools

variable {p : Pool Shared Thread} {s' : Shared} {t t' : Thread} {i : ℕ}

/-- The weight of the service after a step of one thread. -/
theorem Pool.weight_set (s' : Shared) (t' : Thread) (ht : p.threads[i]? = some t) (w : Weight) :
    weight w ⟨s', p.threads.set i t'⟩ + (p.shared.weight w + t.weight w) =
      p.weight w + (s'.weight w + t'.weight w) := by
  have h := total_set (Thread.weight w) s' t' ht
  unfold weight
  show s'.weight w + _ + _ = _
  omega

/-- A move inside the service keeps, seen from outside, only what it changes. -/
theorem Move.flow (ht : p.threads[i]? = some t) (hm : Move p.shared t s' t') :
    Flow p.shared s' (weight · p) (weight · ⟨s', p.threads.set i t'⟩) := by
  have hset := weight_set (p := p) s' t' ht
  cases hm with
  | quiet hs hg hw =>
    refine .quiet hs.counts fun w => ?_
    have := hset w; have := hs.weight w; have := hw w
    omega
  | acquire ha hs hg hw =>
    refine .acquire ha hs.counts fun w => ?_
    have hsw : s'.weight w = p.shared.weight w := hs.weight w
    have := hset w; have := hw w
    omega
  | @giveBack lease hs hg hw =>
    refine .giveBack hs.counts fun w => ?_
    have hsw : s'.weight w = p.shared.weight w := hs.weight w
    have := hset w; have := hw w
    omega
  | retire hp hs hg hw =>
    refine .retire hp hs.counts fun w => ?_
    have hsw : s'.weight w = p.shared.weight w := hs.weight w
    have := hset w; have := hw w
    omega
  | guard hs hg hw =>
    refine .guard hs.counts fun w => ?_
    have hsw : s'.weight w = p.shared.weight w := hs.weight w
    have := hset w; have := hw w
    omega
  | adopt hp hs hg hw =>
    refine .adopt hp hs.counts fun w => ?_
    have hsw : s'.weight w = p.shared.weight w := hs.weight w
    have := hset w; have := hw w
    omega
  | @push id task hto hp hcap hrun hs hheld hoff hw =>
    refine .quiet (Shared.counts_setQueue ⟨hs.limiter, hs.callCount, hs.ran, hs.calls⟩) fun w => ?_
    have hsw : s'.weight w = (p.shared.setQueue id.kind _).weight w := hs.weight w
    have hq := p.shared.weight_setQueue id.kind
      { p.shared.queue id.kind with tasks := (p.shared.queue id.kind).tasks ++ [task] } w
    rw [Weight.tasks_append, Weight.tasks_cons, Weight.tasks_nil] at hq
    have := hset w; have := hw w
    omega
  | finish hp hs hg hrun hw =>
    refine .finish hp hs.counts fun w => ?_
    have hsw : s'.weight w = p.shared.weight w := hs.weight w
    have := hset w; have := hw w
    omega
  | execute hp hs hheld hoff hw =>
    refine .finish hp hs.counts fun w => ?_
    have hsw : s'.weight w = p.shared.weight w := hs.weight w
    have := hset w; have := hw w
    omega
  | @callback id hs hg hw =>
    refine .callback hs.counts fun w => ?_
    have hsw : s'.weight w = p.shared.weight w := by
      rw [hs.weight w]
      unfold Shared.complete
      split_ifs <;> rfl
    have := hset w; have := hw w
    omega
  | @pop kind id task rest hq hp hs hheld hoff hw =>
    refine .quiet (Shared.counts_setQueue hs.counts) fun w => ?_
    have hsw := hs.weight w
    have hqw : (p.shared.setQueue kind { p.shared.queue kind with tasks := rest }).weight w +
        w.tasks (p.shared.queue kind).tasks = p.shared.weight w + w.tasks rest := p.shared.weight_setQueue kind _ w
    rw [hq, Weight.tasks_cons] at hqw
    have := hset w; have := hw w
    omega
  | @take kind hs hg hw =>
    refine .quiet (Shared.counts_setQueue hs.counts) fun w => ?_
    have hsw := hs.weight w
    have hqw : (p.shared.setQueue kind (p.shared.queue kind).stopAndTakePending.2).weight w +
        w.tasks (p.shared.queue kind).tasks = p.shared.weight w + w.tasks [] :=
      p.shared.weight_setQueue kind (p.shared.queue kind).stopAndTakePending.2 w
    rw [Weight.tasks_nil] at hqw
    have := hset w; have := hw w
    omega

end Pools

/-! ## The counts -/

namespace Weight

/-- Closures of call `k` that are with a guard. -/
def guarded (k : ℕ) : Weight where
  guard j := if j = k then 1 else 0

/-- Tasks of call `k` that are not finished. -/
def unfinished (k : ℕ) : Weight where
  task t := if t.pending.map TaskId.call = some k then 1 else 0

/-- Tasks of call `k` that are not finished, and its callbacks that are running. -/
def owed (k : ℕ) : Weight where
  task t := if t.pending.map TaskId.call = some k then 1 else 0
  callback id := if id.call = k then 1 else 0

/-- The bytes of the live leases. -/
def leased : Weight where
  bytes b := b.toNat
  task t := leaseBytes t.byteLease

theorem lease_eq_zero {w : Weight} (h : ∀ b, w.bytes b = 0) (l : Lease) : w.lease l = 0 := by
  cases l with
  | none => rfl
  | some b => exact h b

theorem owed_task {k : ℕ} {t : QueuedTask TaskId} (hp : t.pending = some id) :
    (owed k).task t = if id.call = k then 1 else 0 := by
  simp [owed, hp]

theorem unfinished_task {k : ℕ} {t : QueuedTask TaskId} (hp : t.pending = some id) :
    (unfinished k).task t = if id.call = k then 1 else 0 := by
  simp [unfinished, hp]

theorem lease_leased (l : Lease) : leased.lease l = leaseBytes l := by
  cases l <;> rfl

end Weight

/-- Every call's closure is in one place, or it has run; every task is in one place, or one of its callbacks was
called; and the limiter counts the leases. -/
structure Owned (s : Shared) (W : Weight → ℕ) : Prop where
  closure : ∀ k, W (.guarded k) + W (.owed k) + (s.calls k).doneRuns = if k < s.callCount then 1 else 0
  completion : ∀ k, (s.calls k).completion.toNat = W (.owed k)
  released : ∀ k, W (.guarded k) + (s.calls k).released.toNat ≤ if k < s.callCount then 1 else 0
  tasks : ∀ k, W (.unfinished k) + s.ran.countP (fun e => e.1.call = k) = (s.calls k).released.toNat
  accounts : s.limiter.Accounts (W .leased)

namespace Owned

variable {s s' : Shared} {W W' : Weight → ℕ}

/-- Calls, limiter and callbacks may be read from either state. -/
theorem of_counts (h : Owned s W) (hs : s.Counts s') : Owned s' W where
  closure k := by rw [hs.callCount, (hs.calls k).2.2]; exact h.closure k
  completion k := by rw [(hs.calls k).2.1]; exact h.completion k
  released k := by rw [hs.callCount, (hs.calls k).1]; exact h.released k
  tasks k := by rw [hs.ran, (hs.calls k).1]; exact h.tasks k
  accounts := by rw [hs.limiter]; exact h.accounts

theorem congr (h : Owned s W) (hg : ∀ k, W' (.guarded k) = W (.guarded k)) (ho : ∀ k, W' (.owed k) = W (.owed k))
    (hu : ∀ k, W' (.unfinished k) = W (.unfinished k)) (hl : W' .leased = W .leased) : Owned s W' where
  closure k := by rw [hg, ho]; exact h.closure k
  completion k := by rw [ho]; exact h.completion k
  released k := by rw [hg]; exact h.released k
  tasks k := by rw [hu]; exact h.tasks k
  accounts := by rw [hl]; exact h.accounts

theorem of_limiter {limiter : InflightByteLimiter} (h : Owned s W) (hg : ∀ k, W' (.guarded k) = W (.guarded k))
    (ho : ∀ k, W' (.owed k) = W (.owed k)) (hu : ∀ k, W' (.unfinished k) = W (.unfinished k))
    (ha : limiter.Accounts (W' .leased)) : Owned { s with limiter } W' where
  closure k := by rw [hg, ho]; exact h.closure k
  completion k := by rw [ho]; exact h.completion k
  released k := by rw [hg]; exact h.released k
  tasks k := by rw [hu]; exact h.tasks k
  accounts := ha

theorem call {r : Request} (h : Owned s W) (hw : ∀ w, W' w = W w + w.guard s.callCount) :
    Owned { s with callCount := s.callCount + 1, calls := update s.calls s.callCount { request := r } } W' := by
  have hg : ∀ k, W' (.guarded k) = W (.guarded k) + if s.callCount = k then 1 else 0 := fun k => hw _
  have ho : ∀ k, W' (.owed k) = W (.owed k) := fun k => hw _
  have hu : ∀ k, W' (.unfinished k) = W (.unfinished k) := fun k => hw _
  have hl : W' .leased = W .leased := hw _
  have hnew : ∀ k, s.callCount ≠ k → update s.calls s.callCount ({ request := r } : RpcCall) k = s.calls k :=
    fun k hk => update_of_ne (Ne.symm hk) _ _
  -- nothing was known of the new call before
  have hc := h.closure s.callCount
  have hr := h.released s.callCount
  have ht := h.tasks s.callCount
  rw [if_neg (lt_irrefl _)] at hc hr
  refine ⟨fun k => ?_, fun k => ?_, fun k => ?_, fun k => ?_, by rw [hl]; exact h.accounts⟩
  all_goals
    by_cases hk : s.callCount = k
    · subst hk
      simp only [hg, ho, hu, update_self, if_true, Nat.lt_succ_self, Bool.toNat_false]
      omega
  · have := h.closure k
    simp only [hg, ho, hnew k hk, if_neg hk, Nat.lt_succ_iff_lt_or_eq, Ne.symm hk, or_false]
    exact this
  · simp only [ho, hnew k hk]
    exact h.completion k
  · have := h.released k
    simp only [hg, hnew k hk, if_neg hk, Nat.lt_succ_iff_lt_or_eq, Ne.symm hk, or_false]
    exact this
  · simp only [hu, hnew k hk]
    exact h.tasks k

theorem guard {j : ℕ} (h : Owned s W) (hw : ∀ w, W' w + w.guard j = W w) : Owned (s.runDone j) W' := by
  have hg : ∀ k, W' (.guarded k) + (if j = k then 1 else 0) = W (.guarded k) := fun k => hw _
  have ho : ∀ k, W' (.owed k) = W (.owed k) := fun k => hw (.owed k)
  have hu : ∀ k, W' (.unfinished k) = W (.unfinished k) := fun k => hw (.unfinished k)
  have hl : W' .leased = W .leased := hw .leased
  have hcalls : ∀ k, ((s.runDone j).calls k).completion = (s.calls k).completion ∧
      ((s.runDone j).calls k).released = (s.calls k).released ∧
      ((s.runDone j).calls k).doneRuns = (s.calls k).doneRuns + if j = k then 1 else 0 := by
    intro k
    by_cases hk : j = k
    · subst hk
      simp [Shared.runDone, Shared.modifyCall]
    · simp [Shared.runDone, Shared.modifyCall, update_of_ne (Ne.symm hk), hk]
  refine ⟨fun k => ?_, fun k => ?_, fun k => ?_, fun k => ?_, by rw [hl]; exact h.accounts⟩
  · have := h.closure k
    have := hg k
    rw [(hcalls k).2.2, ho]
    show _ = if k < s.callCount then 1 else 0
    omega
  · rw [(hcalls k).1, ho]
    exact h.completion k
  · have := h.released k
    rw [(hcalls k).2.1]
    have := hg k
    show _ ≤ if k < s.callCount then 1 else 0
    omega
  · rw [(hcalls k).2.1, hu]
    exact h.tasks k

theorem adopt {task : QueuedTask TaskId} (h : Owned s W) (hp : task.pending = some id)
    (hw : ∀ w, W' w + w.guard id.call + w.lease task.byteLease = W w + w.task task) :
    Owned (s.modifyCall id.call fun c => { c with released := true, completion := true }) W' := by
  have hg : ∀ k, W' (.guarded k) + (if id.call = k then 1 else 0) = W (.guarded k) := by
    intro k
    have h1 := hw (.guarded k)
    rw [Weight.lease_eq_zero fun _ => rfl] at h1
    exact h1
  have ho : ∀ k, W' (.owed k) = W (.owed k) + if id.call = k then 1 else 0 := by
    intro k
    have h1 := hw (.owed k)
    rw [Weight.lease_eq_zero fun _ => rfl, Weight.owed_task hp] at h1
    exact h1
  have hu : ∀ k, W' (.unfinished k) = W (.unfinished k) + if id.call = k then 1 else 0 := by
    intro k
    have h1 := hw (.unfinished k)
    rw [Weight.lease_eq_zero fun _ => rfl, Weight.unfinished_task hp] at h1
    exact h1
  have hl : W' .leased = W .leased := by
    have h1 := hw .leased
    rw [Weight.lease_leased] at h1
    have h2 : W' .leased + 0 + leaseBytes task.byteLease = W .leased + leaseBytes task.byteLease := h1
    omega
  have hcalls : ∀ k, id.call ≠ k →
    (s.modifyCall id.call fun c => { c with released := true, completion := true }).calls k =
      s.calls k := fun k hk => update_of_ne (Ne.symm hk) _ _
  have hself : (s.modifyCall id.call fun c => { c with released := true, completion := true }).calls id.call =
      { s.calls id.call with released := true, completion := true } := update_self _ _ _
  have hown := hg id.call
  have hc := h.closure id.call
  have hr := h.released id.call
  rw [if_pos rfl] at hown
  refine ⟨fun k => ?_, fun k => ?_, fun k => ?_, fun k => ?_, by rw [hl]; exact h.accounts⟩
  · have := h.closure k
    have := hg k
    have hd : ((s.modifyCall id.call fun c => { c with released := true, completion := true }).calls k).doneRuns =
        (s.calls k).doneRuns := by
      by_cases hk : id.call = k
      · rw [← hk, hself]
      · rw [hcalls k hk]
    rw [hd, ho]
    show _ = if k < s.callCount then 1 else 0
    omega
  · have := h.completion k
    rw [ho]
    by_cases hk : id.call = k
    · subst hk
      rw [hself, if_pos rfl]
      show 1 = W (.owed id.call) + 1
      split_ifs at hc hr <;> omega
    · rw [hcalls k hk, if_neg hk]
      exact this
  · have := h.released k
    have := hg k
    show _ ≤ if k < s.callCount then 1 else 0
    by_cases hk : id.call = k
    · subst hk
      rw [hself]
      show W' (.guarded id.call) + 1 ≤ _
      omega
    · rw [hcalls k hk]
      omega
  · have := h.tasks k
    rw [hu]
    by_cases hk : id.call = k
    · subst hk
      rw [hself, if_pos rfl]
      show W (.unfinished id.call) + 1 + s.ran.countP _ = 1
      split_ifs at hc hr <;> omega
    · rw [hcalls k hk, if_neg hk]
      exact this

theorem finish {id : TaskId} {task : QueuedTask TaskId} {run : Bool} (h : Owned s W) (hp : task.pending = some id)
    (hw : ∀ w, W' w + w.task task = W w + w.task ⟨task.byteLease, none, none, false⟩ + w.callback id) :
    Owned { s with ran := s.ran ++ [(id, run)] } W' := by
  have hg : ∀ k, W' (.guarded k) = W (.guarded k) := fun k => hw (.guarded k)
  have ho : ∀ k, W' (.owed k) = W (.owed k) := by
    intro k
    have h1 := hw (.owed k)
    rw [Weight.owed_task hp] at h1
    exact Nat.add_right_cancel h1
  have hu : ∀ k, W' (.unfinished k) + (if id.call = k then 1 else 0) = W (.unfinished k) := by
    intro k
    have h1 := hw (.unfinished k)
    rw [Weight.unfinished_task hp] at h1
    exact h1
  have hl : W' .leased = W .leased := by
    have h1 := hw .leased
    have h2 : Weight.leased.task ⟨task.byteLease, none, none, false⟩ = Weight.leased.task task := rfl
    have h3 : Weight.leased.callback id = 0 := rfl
    omega
  refine ⟨fun k => by rw [hg, ho]; exact h.closure k, fun k => by rw [ho]; exact h.completion k,
    fun k => by rw [hg]; exact h.released k, fun k => ?_, by rw [hl]; exact h.accounts⟩
  have hcount : (s.ran ++ [(id, run)]).countP (fun e => e.1.call = k) =
      s.ran.countP (fun e => e.1.call = k) + if id.call = k then 1 else 0 := by
    simp [List.countP_append, List.countP_cons]
  have := h.tasks k
  have := hu k
  show _ + (s.ran ++ [(id, run)]).countP (fun e => e.1.call = k) = (s.calls k).released.toNat
  omega

theorem callback {j : ℕ} (h : Owned s W) (hg : ∀ k, W' (.guarded k) = W (.guarded k))
    (ho : ∀ k, W' (.owed k) + (if j = k then 1 else 0) = W (.owed k))
    (hu : ∀ k, W' (.unfinished k) = W (.unfinished k)) (hl : W' .leased = W .leased) : Owned (s.complete j) W' := by
  -- the completion still has the closure
  have hcomp : (s.calls j).completion = true := by
    have h1 := h.completion j
    have h2 := ho j
    rw [if_pos rfl] at h2
    cases hb : (s.calls j).completion with
    | true => rfl
    | false =>
      rw [hb, Bool.toNat_false] at h1
      omega
  have hother : ∀ k, j ≠ k → (s.complete j).calls k = s.calls k := by
    intro k hk
    simp [Shared.complete, hcomp, Shared.runDone, Shared.modifyCall, update_of_ne (Ne.symm hk)]
  have hself : (s.complete j).calls j =
      { s.calls j with completion := false, doneRuns := (s.calls j).doneRuns + 1 } := by
    simp [Shared.complete, hcomp, Shared.runDone, Shared.modifyCall]
  have hrest : (s.complete j).callCount = s.callCount ∧ (s.complete j).ran = s.ran ∧
    (s.complete j).limiter = s.limiter := by
    unfold Shared.complete
    rw [if_pos hcomp]
    exact ⟨rfl, rfl, rfl⟩
  have hrel : ∀ k, ((s.complete j).calls k).released = (s.calls k).released := by
    intro k
    by_cases hk : j = k
    · rw [← hk, hself]
    · rw [hother k hk]
  refine ⟨fun k => ?_, fun k => ?_, fun k => ?_, fun k => ?_, by rw [hl, hrest.2.2]; exact h.accounts⟩
  · have := h.closure k
    have := ho k
    rw [hrest.1, hg]
    by_cases hk : j = k
    · subst hk
      rw [hself]
      rw [if_pos rfl] at this
      show _ + ((s.calls j).doneRuns + 1) = _
      omega
    · rw [hother k hk]
      rw [if_neg hk] at this
      omega
  · have hck := h.completion k
    have hok := ho k
    by_cases hk : j = k
    · subst hk
      rw [hcomp, Bool.toNat_true] at hck
      rw [if_pos rfl] at hok
      rw [hself]
      show 0 = W' (.owed j)
      omega
    · rw [if_neg hk] at hok
      rw [hother k hk]
      omega
  · rw [hrest.1, hrel, hg]
    exact h.released k
  · rw [hrest.2.1, hrel, hu]
    exact h.tasks k

/-- Whatever happens, nothing is lost and nothing is doubled. -/
theorem flow (h : Owned s W) (hf : Flow s s' W W') : Owned s' W' := by
  cases hf with
  | quiet hs hw => exact (h.congr (fun _ => hw _) (fun _ => hw _) (fun _ => hw _) (hw _)).of_counts hs
  | call hs hw => exact (h.call hw).of_counts hs
  | acquire ha hs hw =>
    refine (h.of_limiter (fun _ => hw _) (fun _ => hw _) (fun _ => hw _) ?_).of_counts hs
    have hl : W' .leased = W .leased + _ := hw .leased
    rw [hl]
    exact (h.accounts.acquire ha).2
  | @giveBack lease hs hw =>
    have hnone : ∀ w : Weight, (∀ b, w.bytes b = 0) → W' w = W w := fun w hb => by
      have h1 := hw w
      rw [Weight.lease_eq_zero hb] at h1
      exact h1
    refine (h.of_limiter (fun _ => hnone _ fun _ => rfl) (fun _ => hnone _ fun _ => rfl)
      (fun _ => hnone _ fun _ => rfl) (InflightByteLimiter.Accounts.release ?_)).of_counts hs
    rw [← Weight.lease_leased, hw]
    exact h.accounts
  | @retire task hp hs hw =>
    have hnone : ∀ w : Weight, w.task task = 0 → W' w = W w := fun w h0 => by
      have := hw w
      omega
    have hzero : ∀ k, (if task.pending.map TaskId.call = some k then 1 else 0) = 0 := fun k => by simp [hp]
    refine (h.of_limiter (fun _ => hnone _ rfl) (fun k => hnone _ (hzero k))
      (fun k => hnone _ (hzero k)) (InflightByteLimiter.Accounts.release ?_)).of_counts hs
    have h1 : W' .leased + leaseBytes task.byteLease = W .leased := hw .leased
    rw [h1]
    exact h.accounts
  | guard hs hw => exact (h.guard hw).of_counts hs
  | adopt hp hs hw => exact (h.adopt hp hw).of_counts hs
  | finish hp hs hw => exact (h.finish hp hw).of_counts hs
  | callback hs hw => exact (h.callback (fun k => hw (.guarded k)) (fun k => hw (.owed k))
    (fun k => hw (.unfinished k)) (hw .leased)).of_counts hs

end Owned

end Eufs
