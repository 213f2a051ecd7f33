import Eufs.Base.Pool

/-!
# Eufs.Rpc.Task — byte leases, queued tasks and the bounded queue

* `InflightByteLimiter`, `Lease`: the bytes charged to admitted calls, as 64-bit counters.
* `QueuedTask`: a lease and two callbacks of which one runs; `κ` is what identifies a callback's task.
* `BoundedTaskQueue`: what the queue does under its mutex.

`TaskStore` is any program that makes, moves, assigns, runs, cancels and destroys task objects, in any order, also
from inside a running callback.  `TaskStore.Inv.run`: every task it made is with one object or has
run one of its callbacks, and the limiter counts the live leases.
-/

namespace Eufs

open Pool

/-! ## The limiter -/

/-- A lease object: the bytes it answers for, `none` when it holds no limiter state. -/
abbrev Lease := Option UInt64

structure InflightByteLimiter where
  limitBytes : UInt64
  usedBytes : UInt64

namespace InflightByteLimiter

/-- `TryAcquire`; the counters wrap as the source's do. -/
def tryAcquire (l : InflightByteLimiter) (bytes : UInt64) : Option (Lease × InflightByteLimiter) :=
  if bytes > l.limitBytes - l.usedBytes then none
  else some (some bytes, { l with usedBytes := l.usedBytes + bytes })

/-- `Lease::Reset`, on the limiter's side. -/
def release (l : InflightByteLimiter) : Lease → InflightByteLimiter
  | none => l
  | some bytes => { l with usedBytes := l.usedBytes - bytes }

/-- The bytes of a lease object. -/
def leaseBytes : Lease → ℕ
  | none => 0
  | some bytes => bytes.toNat

/-- The counter is the sum `n` of the live leases, and within the limit. -/
structure Accounts (l : InflightByteLimiter) (n : ℕ) : Prop where
  used : l.usedBytes.toNat = n
  limit : n ≤ l.limitBytes.toNat

theorem Accounts.acquire {l l' : InflightByteLimiter} {n : ℕ} {bytes : UInt64} {lease : Lease} (h : l.Accounts n)
    (ha : l.tryAcquire bytes = some (lease, l')) : lease = some bytes ∧ l'.Accounts (n + bytes.toNat) := by
  have hu := h.used
  have hl := h.limit
  have hlt := l.limitBytes.toNat_lt
  unfold tryAcquire at ha
  split_ifs at ha with hb
  cases ha
  have hfree : (l.limitBytes - l.usedBytes).toNat = l.limitBytes.toNat - l.usedBytes.toNat :=
    UInt64.toNat_sub_of_le _ _ (UInt64.le_iff_toNat_le.mpr (by omega))
  have hle : bytes.toNat ≤ (l.limitBytes - l.usedBytes).toNat := UInt64.le_iff_toNat_le.mp (UInt64.not_lt.mp hb)
  refine ⟨rfl, ?_, ?_⟩
  · show (l.usedBytes + bytes).toNat = n + bytes.toNat
    rw [UInt64.toNat_add]
    omega
  · show n + bytes.toNat ≤ l.limitBytes.toNat
    omega

/-- Returning a lease that is counted does not underflow. -/
theorem Accounts.release {l : InflightByteLimiter} {n : ℕ} {lease : Lease} (h : l.Accounts (n + leaseBytes lease)) :
    (l.release lease).Accounts n := by
  have hu := h.used
  have hl := h.limit
  cases lease with
  | none => exact h
  | some bytes =>
    simp only [leaseBytes] at hu hl
    refine ⟨?_, by show n ≤ l.limitBytes.toNat; omega⟩
    show (l.usedBytes - bytes).toNat = n
    rw [UInt64.toNat_sub_of_le _ _ (UInt64.le_iff_toNat_le.mpr (by omega))]
    omega

end InflightByteLimiter

open InflightByteLimiter

/-! ## Tasks -/

/-- `none` stands for an empty callback. -/
structure QueuedTask (κ : Type) where
  byteLease : Lease
  execute : Option κ
  cancel : Option κ
  active : Bool
  deriving DecidableEq

namespace QueuedTask

variable {κ : Type}

/-- A task without bytes to answer for. -/
def make (execute cancel : Option κ) : QueuedTask κ := ⟨none, execute, cancel, execute.isSome && cancel.isSome⟩

def makeLeased (byteLease : Lease) (execute cancel : Option κ) : QueuedTask κ :=
  ⟨byteLease, execute, cancel, byteLease.isSome && execute.isSome && cancel.isSome⟩

/-- What `MoveFrom` leaves of the source. -/
def movedFrom : QueuedTask κ := ⟨none, none, none, false⟩

/-- `Finish` up to the call of the selected callback: the callback and the object it leaves.  An inactive task does
nothing. -/
def finish (t : QueuedTask κ) (run : Bool) : Option (κ × QueuedTask κ) :=
  if t.active then (if run then t.execute else t.cancel).map fun cb => (cb, ⟨t.byteLease, none, none, false⟩)
  else none

/-- The callback pair the object still has to complete. -/
def pending (t : QueuedTask κ) : Option κ := if t.active then t.execute else none

/-- Both callbacks belong to one task, and an active task has both. -/
def Ok (t : QueuedTask κ) : Prop := t.active = true → ∃ cb, t.execute = some cb ∧ t.cancel = some cb

theorem Ok.finish {t : QueuedTask κ} (h : t.Ok) (run : Bool) (ha : t.active = true) :
    ∃ cb, t.pending = some cb ∧ t.finish run = some (cb, ⟨t.byteLease, none, none, false⟩) := by
  obtain ⟨cb, h1, h2⟩ := h ha
  refine ⟨cb, by rw [pending, if_pos ha, h1], ?_⟩
  rw [QueuedTask.finish, if_pos ha, h1, h2]
  cases run <;> rfl

theorem finish_eq_some {t t' : QueuedTask κ} {run : Bool} {cb : κ} (h : t.Ok) (hf : t.finish run = some (cb, t')) :
    t.active = true ∧ t.pending = some cb ∧ t' = ⟨t.byteLease, none, none, false⟩ := by
  by_cases ha : t.active = true
  · obtain ⟨cb', hp, hf'⟩ := h.finish run ha
    cases hf.symm.trans hf'
    exact ⟨ha, hp, rfl⟩
  · rw [finish, if_neg ha] at hf
    cases hf

theorem finish_eq_none {t : QueuedTask κ} {run : Bool} (h : t.Ok) (hf : t.finish run = none) : t.pending = none := by
  by_cases ha : t.active = true
  · obtain ⟨cb, -, hf'⟩ := h.finish run ha
    cases hf.symm.trans hf'
  · rw [pending, if_neg ha]

theorem ok_make {cb : κ} : (make (some cb) (some cb)).Ok := fun _ => ⟨cb, rfl, rfl⟩

theorem ok_makeLeased {l : Lease} {cb : κ} : (makeLeased l (some cb) (some cb)).Ok := fun _ => ⟨cb, rfl, rfl⟩

theorem ok_of_inactive {t : QueuedTask κ} (h : t.active = false) : t.Ok := fun ha => by
  rw [h] at ha
  cases ha

end QueuedTask

/-! ## The queue -/

inductive EnqueueResult where
  | kAccepted | kFull | kStopped | kResourceExhausted | kInvalid
  deriving DecidableEq

/-- The queue under its mutex. -/
structure BoundedTaskQueue (κ : Type) where
  capacity : ℕ
  tasks : List (QueuedTask κ)
  stopped : Bool

namespace BoundedTaskQueue

variable {κ : Type}

/-- The result, the queue, and what is left of the caller's task; `allocates` tells whether `push_back` gets memory. -/
def tryEnqueue (q : BoundedTaskQueue κ) (task : QueuedTask κ) (allocates : Bool) :
    EnqueueResult × BoundedTaskQueue κ × QueuedTask κ :=
  if ¬ task.active then (.kInvalid, q, task)
  else if q.stopped then (.kStopped, q, task)
  else if q.tasks.length ≥ q.capacity then (.kFull, q, task)
  else if ¬ allocates then (.kResourceExhausted, q, task)
  else (.kAccepted, { q with tasks := q.tasks ++ [task] }, .movedFrom)

/-- `none` while the caller has to wait; otherwise the task it gets, if any, and the queue. -/
def waitPop (q : BoundedTaskQueue κ) : Option (Option (QueuedTask κ) × BoundedTaskQueue κ) :=
  match q.tasks with
  | [] => if q.stopped then some (none, q) else none
  | t :: rest => some (some t, { q with tasks := rest })

def stopAndTakePending (q : BoundedTaskQueue κ) : List (QueuedTask κ) × BoundedTaskQueue κ :=
  (q.tasks, { q with tasks := [], stopped := true })

end BoundedTaskQueue

/-! ## Any use of task objects -/

/-- Free lease objects, task objects (`none` once destroyed), and the callbacks that were called, as the task and
whether it was `execute`. -/
structure TaskStore where
  limiter : InflightByteLimiter
  leases : List Lease
  objects : List (Option (QueuedTask ℕ))
  /-- The number of active tasks made so far; each is known by its number. -/
  made : ℕ
  ran : List (ℕ × Bool)

inductive TaskOp where
  | acquire (bytes : UInt64)
  | resetLease (i : ℕ)
  /-- With lease object `i` moved in, or without; with empty or nonempty callbacks. -/
  | construct (lease : Option ℕ) (execute cancel : Bool)
  | moveConstruct (i : ℕ)
  | moveAssign (i j : ℕ)
  /-- `Run` or `Cancel` up to the call of the callback; whatever happens in the callback follows. -/
  | finish (i : ℕ) (run : Bool)
  /-- The callback of object `i` returned and its lease is reset. -/
  | returned (i : ℕ)
  | destroy (i : ℕ)

namespace TaskStore

/-- The object `i`, while it exists. -/
def object (s : TaskStore) (i : ℕ) : Option (QueuedTask ℕ) := (s.objects[i]?).join

/-- Cancel object `t` and give its lease back, as its destructor and an assignment to it do. -/
def drop (s : TaskStore) (t : QueuedTask ℕ) : TaskStore :=
  { s with
    limiter := s.limiter.release t.byteLease
    ran := match t.finish false with
      | some (cb, _) => s.ran ++ [(cb, false)]
      | none => s.ran }

/-- A new object; an active one gets the next number. -/
def add (s : TaskStore) (t : QueuedTask ℕ) : TaskStore :=
  { s with objects := s.objects ++ [some t], made := if t.active then s.made + 1 else s.made }

def step (s : TaskStore) : TaskOp → Option TaskStore
  | .acquire bytes =>
    match s.limiter.tryAcquire bytes with
    | none => some s
    | some (lease, limiter) => some { s with limiter, leases := s.leases ++ [lease] }
  | .resetLease i => (s.leases[i]?).map fun lease =>
    { s with limiter := s.limiter.release lease, leases := s.leases.set i none }
  | .construct none execute cancel =>
    some (s.add (.make (if execute then some s.made else none) (if cancel then some s.made else none)))
  | .construct (some i) execute cancel => (s.leases[i]?).map fun lease =>
    { s with leases := s.leases.set i none }.add
      (.makeLeased lease (if execute then some s.made else none) (if cancel then some s.made else none))
  | .moveConstruct i => (s.object i).map fun t =>
    { s with objects := s.objects.set i (some .movedFrom) ++ [some t] }
  | .moveAssign i j =>
    if i = j then (s.object i).map fun _ => s
    else (s.object i).bind fun dest => (s.object j).map fun source =>
      { s.drop dest with objects := (s.objects.set i (some source)).set j (some .movedFrom) }
  | .finish i run => (s.object i).map fun t =>
    match t.finish run with
    | none => s
    | some (cb, t') => { s with objects := s.objects.set i (some t'), ran := s.ran ++ [(cb, run)] }
  | .returned i => (s.object i).map fun t =>
    { s with limiter := s.limiter.release t.byteLease, objects := s.objects.set i (some { t with byteLease := none }) }
  | .destroy i => (s.object i).map fun t => { s.drop t with objects := s.objects.set i none }

/-- Operations one after the other. -/
def run : TaskStore → List TaskOp → Option TaskStore
  | s, [] => some s
  | s, op :: ops => (s.step op).bind fun s' => run s' ops

/-- How often an object has task `k` still to complete. -/
def owes (k : ℕ) (o : Option (QueuedTask ℕ)) : ℕ := if o.bind QueuedTask.pending = some k then 1 else 0

def objectBytes (o : Option (QueuedTask ℕ)) : ℕ := leaseBytes (o.bind QueuedTask.byteLease)

/-- Every task is with one object or has run one callback, and the limiter counts the live leases. -/
structure Inv (s : TaskStore) : Prop where
  ok : ∀ o ∈ s.objects, ∀ t, o = some t → t.Ok
  once : ∀ k, (s.objects.map (owes k)).sum + s.ran.countP (fun e => e.1 = k) = if k < s.made then 1 else 0
  accounts : s.limiter.Accounts ((s.leases.map leaseBytes).sum + (s.objects.map objectBytes).sum)

section Step

variable {s s' : TaskStore} {t t' : QueuedTask ℕ} {i j k : ℕ}

theorem object_eq_some : s.object i = some t ↔ s.objects[i]? = some (some t) := by
  unfold object
  cases s.objects[i]? <;> simp

theorem Inv.ok_of_object (h : s.Inv) (ho : s.object i = some t) : t.Ok :=
  h.ok _ (List.mem_of_getElem? (object_eq_some.mp ho)) t rfl

theorem owes_some : owes k (some t) = if t.pending = some k then 1 else 0 := rfl

theorem objectBytes_some : objectBytes (some t) = leaseBytes t.byteLease := rfl

theorem owes_movedFrom : owes k (some .movedFrom) = 0 := rfl

theorem objectBytes_movedFrom : objectBytes (some .movedFrom) = 0 := rfl

/-- The callbacks called after `t` is cancelled: one more of the task it had. -/
theorem countP_drop (ht : t.Ok) :
    (s.drop t).ran.countP (fun e => e.1 = k) = s.ran.countP (fun e => e.1 = k) + owes k (some t) := by
  unfold drop
  cases hf : t.finish false with
  | none =>
    have hp := QueuedTask.finish_eq_none ht hf
    simp [owes, hp]
  | some r =>
    obtain ⟨cb, t'⟩ := r
    obtain ⟨-, hp, -⟩ := QueuedTask.finish_eq_some ht hf
    simp [owes, hp, List.countP_append, List.countP_cons]

theorem Inv.acquire (h : s.Inv) {bytes : UInt64} {lease : Lease} {limiter : InflightByteLimiter}
    (ha : s.limiter.tryAcquire bytes = some (lease, limiter)) :
    ({ s with limiter, leases := s.leases ++ [lease] } : TaskStore).Inv := by
  obtain ⟨rfl, hacc⟩ := h.accounts.acquire ha
  refine ⟨h.ok, h.once, ?_⟩
  have hsum : ((s.leases ++ [some bytes]).map leaseBytes).sum = (s.leases.map leaseBytes).sum + bytes.toNat := by
    simp [leaseBytes]
  show limiter.Accounts (((s.leases ++ [some bytes]).map leaseBytes).sum + (s.objects.map objectBytes).sum)
  rw [hsum, Nat.add_right_comm]
  exact hacc

theorem Inv.resetLease (h : s.Inv) {lease : Lease} (hi : s.leases[i]? = some lease) :
    ({ s with limiter := s.limiter.release lease, leases := s.leases.set i none } : TaskStore).Inv := by
  refine ⟨h.ok, h.once, ?_⟩
  have hsum := sum_map_set leaseBytes none hi
  have hacc := h.accounts
  rw [show (s.leases.map leaseBytes).sum + (s.objects.map objectBytes).sum =
    (((s.leases.set i none).map leaseBytes).sum + (s.objects.map objectBytes).sum) + leaseBytes lease by
      have : leaseBytes none = 0 := rfl
      omega] at hacc
  exact hacc.release

/-- A new object: an active one is the task with the next number. -/
theorem Inv.add (h : s.Inv) (leases : List Lease) (ht : t.Ok) (hp : t.active = true → t.pending = some s.made)
    (hl : (leases.map leaseBytes).sum + leaseBytes t.byteLease = (s.leases.map leaseBytes).sum) :
    ({ s with leases := leases }.add t).Inv := by
  refine ⟨?_, fun k => ?_, ?_⟩
  · intro o ho t₁ ht₁
    rcases List.mem_append.mp ho with ho | ho
    · exact h.ok o ho t₁ ht₁
    · cases (List.mem_singleton.mp ho).symm.trans ht₁
      exact ht
  · have hold := h.once k
    show ((s.objects ++ [some t]).map (owes k)).sum + s.ran.countP (fun e => e.1 = k) =
      if k < (if t.active then s.made + 1 else s.made) then 1 else 0
    rw [List.map_append, List.sum_append, List.map_singleton, List.sum_singleton, owes_some]
    by_cases ha : t.active = true
    · rw [hp ha, if_pos ha]
      by_cases hk : s.made = k
      · subst hk
        simp only [lt_irrefl, if_false] at hold
        simp
        omega
      · have hne : ¬ some s.made = some k := fun he => hk (Option.some.inj he)
        rw [if_neg hne]
        have hiff : k < s.made + 1 ↔ k < s.made := by omega
        simp only [hiff]
        omega
    · rw [show t.pending = none from if_neg ha, if_neg ha]
      simp
      omega
  · show s.limiter.Accounts ((leases.map leaseBytes).sum + ((s.objects ++ [some t]).map objectBytes).sum)
    rw [List.map_append, List.sum_append, List.map_singleton, List.sum_singleton, objectBytes_some]
    have hacc := h.accounts
    rwa [← hl, show ∀ a b c : ℕ, a + b + c = a + (c + b) from fun a b c => by omega] at hacc

theorem Inv.moveConstruct (h : s.Inv) (ho : s.object i = some t) :
    ({ s with objects := s.objects.set i (some .movedFrom) ++ [some t] } : TaskStore).Inv := by
  have hi := object_eq_some.mp ho
  refine ⟨?_, fun k => ?_, ?_⟩
  · intro o hmem t₁ ht₁
    rcases List.mem_append.mp hmem with hmem | hmem
    · rcases List.mem_or_eq_of_mem_set hmem with hmem | rfl
      · exact h.ok o hmem t₁ ht₁
      · cases ht₁
        exact QueuedTask.ok_of_inactive rfl
    · cases (List.mem_singleton.mp hmem).symm.trans ht₁
      exact h.ok_of_object ho
  · have hsum := sum_map_set (owes k) (some .movedFrom) hi
    have hold := h.once k
    rw [owes_movedFrom] at hsum
    show ((s.objects.set i (some .movedFrom) ++ [some t]).map (owes k)).sum + s.ran.countP (fun e => e.1 = k) =
      if k < s.made then 1 else 0
    rw [List.map_append, List.sum_append, List.map_singleton, List.sum_singleton]
    omega
  · have hsum := sum_map_set objectBytes (some .movedFrom) hi
    rw [objectBytes_movedFrom] at hsum
    have hacc := h.accounts
    show s.limiter.Accounts (_ + ((s.objects.set i (some .movedFrom) ++ [some t]).map objectBytes).sum)
    rwa [List.map_append, List.sum_append, List.map_singleton, List.sum_singleton, hsum, Nat.add_zero]

/-- An object is cancelled and its place gets `o`; `rest` is the sum over the other objects. -/
theorem Inv.dropped (h : s.Inv) (ho : s.object i = some t) {objects : List (Option (QueuedTask ℕ))}
    (hok : ∀ o ∈ objects, ∀ t, o = some t → t.Ok)
    (howes : ∀ k, (objects.map (owes k)).sum + owes k (some t) = (s.objects.map (owes k)).sum)
    (hbytes : (objects.map objectBytes).sum + objectBytes (some t) = (s.objects.map objectBytes).sum) :
    ({ s.drop t with objects := objects } : TaskStore).Inv := by
  refine ⟨hok, fun k => ?_, ?_⟩
  · have hold := h.once k
    have hsum := howes k
    show (objects.map (owes k)).sum + (s.drop t).ran.countP (fun e => e.1 = k) = if k < s.made then 1 else 0
    rw [countP_drop (h.ok_of_object ho)]
    omega
  · have hacc := h.accounts
    rw [← hbytes, ← Nat.add_assoc] at hacc
    exact hacc.release

theorem Inv.moveAssign (h : s.Inv) (hij : i ≠ j) (ho : s.object i = some t) (hj : s.object j = some t') :
    ({ s.drop t with objects := (s.objects.set i (some t')).set j (some .movedFrom) } : TaskStore).Inv := by
  have hi := object_eq_some.mp ho
  have hj' : (s.objects.set i (some t'))[j]? = some (some t') := by
    rw [List.getElem?_set_ne hij]
    exact object_eq_some.mp hj
  refine h.dropped ho ?_ (fun k => ?_) ?_
  · intro o hmem t₁ ht₁
    rcases List.mem_or_eq_of_mem_set hmem with hmem | rfl
    · rcases List.mem_or_eq_of_mem_set hmem with hmem | rfl
      · exact h.ok o hmem t₁ ht₁
      · cases ht₁
        exact h.ok_of_object hj
    · cases ht₁
      exact QueuedTask.ok_of_inactive rfl
  · have h1 := sum_map_set (owes k) (some t') hi
    have h2 := sum_map_set (owes k) (some .movedFrom) hj'
    rw [owes_movedFrom] at h2
    omega
  · have h1 := sum_map_set objectBytes (some t') hi
    have h2 := sum_map_set objectBytes (some .movedFrom) hj'
    rw [objectBytes_movedFrom] at h2
    omega

theorem Inv.destroy (h : s.Inv) (ho : s.object i = some t) :
    ({ s.drop t with objects := s.objects.set i none } : TaskStore).Inv := by
  have hi := object_eq_some.mp ho
  refine h.dropped ho ?_ (fun k => ?_) ?_
  · intro o hmem t₁ ht₁
    rcases List.mem_or_eq_of_mem_set hmem with hmem | rfl
    · exact h.ok o hmem t₁ ht₁
    · cases ht₁
  · have h1 := sum_map_set (owes k) none hi
    have h0 : owes k none = 0 := rfl
    omega
  · have h1 := sum_map_set objectBytes none hi
    have h0 : objectBytes none = 0 := rfl
    omega

/-- `Run` or `Cancel`: the task goes from the object to the callbacks that were called. -/
theorem Inv.finish (h : s.Inv) (ho : s.object i = some t) {run : Bool} {cb : ℕ} (hf : t.finish run = some (cb, t')) :
    ({ s with objects := s.objects.set i (some t'), ran := s.ran ++ [(cb, run)] } : TaskStore).Inv := by
  have hi := object_eq_some.mp ho
  obtain ⟨-, hp, rfl⟩ := QueuedTask.finish_eq_some (h.ok_of_object ho) hf
  refine ⟨?_, fun k => ?_, ?_⟩
  · intro o hmem t₁ ht₁
    rcases List.mem_or_eq_of_mem_set hmem with hmem | rfl
    · exact h.ok o hmem t₁ ht₁
    · cases ht₁
      exact QueuedTask.ok_of_inactive rfl
  · have h1 := sum_map_set (owes k) (some ⟨t.byteLease, none, none, false⟩) hi
    have h0 : owes k (some ⟨t.byteLease, none, none, false⟩) = 0 := rfl
    have hold := h.once k
    have hran : (s.ran ++ [(cb, run)]).countP (fun e => e.1 = k) =
      s.ran.countP (fun e => e.1 = k) + owes k (some t) := by
      rw [List.countP_append, owes_some, hp]
      simp [List.countP_cons]
    show ((s.objects.set i _).map (owes k)).sum + (s.ran ++ [(cb, run)]).countP _ = if k < s.made then 1 else 0
    omega
  · have h1 := sum_map_set objectBytes (some ⟨t.byteLease, none, none, false⟩) hi
    have h0 : objectBytes (some ⟨t.byteLease, none, none, false⟩) = objectBytes (some t) := rfl
    have hsum : ((s.objects.set i (some ⟨t.byteLease, none, none, false⟩)).map objectBytes).sum =
        (s.objects.map objectBytes).sum := by omega
    show s.limiter.Accounts (_ + ((s.objects.set i _).map objectBytes).sum)
    rw [hsum]
    exact h.accounts

theorem Inv.returned (h : s.Inv) (ho : s.object i = some t) :
    ({ s with limiter := s.limiter.release t.byteLease
              objects := s.objects.set i (some { t with byteLease := none }) } : TaskStore).Inv := by
  have hi := object_eq_some.mp ho
  refine ⟨?_, fun k => ?_, ?_⟩
  · intro o hmem t₁ ht₁
    rcases List.mem_or_eq_of_mem_set hmem with hmem | rfl
    · exact h.ok o hmem t₁ ht₁
    · cases ht₁
      have hok : t.Ok := h.ok_of_object ho
      exact hok
  · have h1 := sum_map_set (owes k) (some { t with byteLease := none }) hi
    have h0 : owes k (some { t with byteLease := none }) = owes k (some t) := rfl
    have hold := h.once k
    show ((s.objects.set i _).map (owes k)).sum + s.ran.countP (fun e => e.1 = k) = if k < s.made then 1 else 0
    omega
  · have h1 := sum_map_set objectBytes (some { t with byteLease := none }) hi
    have h0 : objectBytes (some { t with byteLease := none }) = 0 := rfl
    have hacc := h.accounts
    rw [show (s.leases.map leaseBytes).sum + (s.objects.map objectBytes).sum =
      ((s.leases.map leaseBytes).sum + ((s.objects.set i (some { t with byteLease := none })).map objectBytes).sum) +
        leaseBytes t.byteLease by
      rw [← objectBytes_some]
      omega] at hacc
    exact hacc.release

end Step

theorem Inv.step {s s' : TaskStore} {op : TaskOp} (h : s.Inv) (hs : s.step op = some s') : s'.Inv := by
  cases op with
  | acquire bytes =>
    simp only [TaskStore.step] at hs
    split at hs
    · cases hs
      exact h
    · next lease limiter ha =>
      cases hs
      exact h.acquire ha
  | resetLease i =>
    obtain ⟨lease, hi, rfl⟩ := Option.map_eq_some_iff.mp hs
    exact h.resetLease hi
  | construct lease execute cancel =>
    cases lease with
    | none =>
      cases hs
      refine h.add s.leases ?_ ?_ rfl
      · cases execute <;> cases cancel <;> first | exact QueuedTask.ok_of_inactive rfl | exact QueuedTask.ok_make
      · cases execute <;> cases cancel <;> simp [QueuedTask.make, QueuedTask.pending]
    | some i =>
      obtain ⟨lease, hi, rfl⟩ := Option.map_eq_some_iff.mp hs
      have hsum := sum_map_set leaseBytes none hi
      refine h.add (s.leases.set i none) ?_ ?_ hsum
      · cases execute <;> cases cancel <;> cases lease <;>
          first | exact QueuedTask.ok_of_inactive rfl | exact QueuedTask.ok_makeLeased
      · cases execute <;> cases cancel <;> cases lease <;> simp [QueuedTask.makeLeased, QueuedTask.pending]
  | moveConstruct i =>
    obtain ⟨t, ho, rfl⟩ := Option.map_eq_some_iff.mp hs
    exact h.moveConstruct ho
  | moveAssign i j =>
    simp only [TaskStore.step] at hs
    split_ifs at hs with hij
    · obtain ⟨-, -, rfl⟩ := Option.map_eq_some_iff.mp hs
      exact h
    · obtain ⟨dest, ho, hs⟩ := Option.bind_eq_some_iff.mp hs
      obtain ⟨source, hj, rfl⟩ := Option.map_eq_some_iff.mp hs
      exact h.moveAssign hij ho hj
  | finish i run =>
    obtain ⟨t, ho, rfl⟩ := Option.map_eq_some_iff.mp hs
    split
    · exact h
    · next cb t' hf => exact h.finish ho hf
  | returned i =>
    obtain ⟨t, ho, rfl⟩ := Option.map_eq_some_iff.mp hs
    exact h.returned ho
  | destroy i =>
    obtain ⟨t, ho, rfl⟩ := Option.map_eq_some_iff.mp hs
    exact h.destroy ho

theorem Inv.run {ops : List TaskOp} : ∀ {s s' : TaskStore}, s.Inv → s.run ops = some s' → s'.Inv := by
  induction ops with
  | nil =>
    intro s s' h hs
    cases hs
    exact h
  | cons op ops ih =>
    intro s s' h hs
    obtain ⟨s₁, h₁, h₂⟩ := Option.bind_eq_some_iff.mp hs
    exact ih (h.step h₁) h₂

/-- A program that has not done anything yet. -/
def start (limitBytes : UInt64) : TaskStore := ⟨⟨limitBytes, 0⟩, [], [], 0, []⟩

theorem inv_start (limitBytes : UInt64) : (start limitBytes).Inv :=
  ⟨by simp [start], fun k => by simp [start], by simp [start], by simp [start]⟩

end TaskStore

end Eufs
