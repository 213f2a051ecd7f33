import Eufs.Format.Ondisk
import Eufs.Object.LedgerFormat
import Eufs.Object.Result
import Eufs.Rpc.Task

/-!
# Eufs.Rpc.Service — the handlers, the workers and Shutdown

`ObjectServiceImpl` as threads over a shared state.  A step of a thread is what it does up to the next point where
another thread can come in between: an operation on `stopping_`, on the limiter or on a queue, the call of `done`, or
the end of a callback.  What the model does not compute is a `Choice`: the digest and the fingerprint of a request,
exceptions, allocation in the queue, and the answer of the backend.

* `PutObject`, `GetObject`, `StatObject`: `Handler.step`
* `WriteWorkerMain`, `ReadWorkerMain`: `Worker.step`
* `Shutdown`: `Shutdown.step`
-/

namespace Eufs

open Function

/-! ## Requests and responses -/

inductive PutStatus where
  | PUT_STATUS_OK | PUT_STATUS_INVALID_ARGUMENT | PUT_STATUS_OVERLOADED | PUT_STATUS_SERVER_STOPPING
  | PUT_STATUS_ALREADY_EXISTS | PUT_STATUS_VERSION_MISMATCH | PUT_STATUS_STORAGE_ERROR | PUT_STATUS_RESULT_UNKNOWN
  | PUT_STATUS_REQUEST_ID_CONFLICT | PUT_STATUS_LEDGER_FULL | PUT_STATUS_NOT_FOUND
  deriving DecidableEq

inductive ReadStatus where
  | READ_STATUS_OK | READ_STATUS_INVALID_ARGUMENT | READ_STATUS_OVERLOADED | READ_STATUS_SERVER_STOPPING
  | READ_STATUS_NOT_FOUND | READ_STATUS_STORAGE_ERROR
  deriving DecidableEq

inductive Precondition where
  | createIfAbsent
  | expectedVersion (v : ObjectVersion)
  deriving DecidableEq

/-- What admission reads of a `PutObjectRequest` and its attachment. -/
structure PutRequest where
  key : List UInt8
  payloadSize : UInt64
  attachmentSize : UInt64
  sha256 : List UInt8
  requestId : List UInt8
  precondition : Option Precondition

structure ReadRequest where
  key : List UInt8

/-- `none` stands for a null argument. -/
inductive Request where
  | putObject (request : Option PutRequest)
  | getObject (request : Option ReadRequest)
  | statObject (request : Option ReadRequest)

/-- The two queues, and the kind of the tasks in each. -/
inductive QueueKind where
  | write | read
  deriving DecidableEq

def Request.kind : Request → QueueKind
  | .putObject _ => .write
  | .getObject _ => .read
  | .statObject _ => .read

/-- What is set before `done` runs. -/
inductive Response where
  | failed (errno : Errno) (text : String)
  | put (status : PutStatus) (detail : String) (committedVersion currentVersion : Option ObjectVersion)
  | read (status : ReadStatus) (detail : String) (metadata : Option ObjectStat)
  deriving DecidableEq

def setResponse (status : PutStatus) (detail : String) : Response := .put status detail none none

def setReadResponse (status : ReadStatus) (detail : String) : Response := .read status detail none

/-- `result` is the backend's, `none` for zero. -/
def mapMutationResult (result : Option Errno) (state : IdempotentMutationResult) (detail : String) : Response :=
  if state.disposition = .kRequestIdConflict then setResponse .PUT_STATUS_REQUEST_ID_CONFLICT detail
  else if state.disposition = .kLedgerFull then setResponse .PUT_STATUS_LEDGER_FULL detail
  else match state.mutation.outcome with
    | .kUnknown => setResponse .PUT_STATUS_RESULT_UNKNOWN detail
    | .kCommitted => .put .PUT_STATUS_OK "" (some state.mutation.committedVersion) none
    | .kNotApplied =>
      if result = some .EEXIST then .put .PUT_STATUS_ALREADY_EXISTS detail none (some state.mutation.currentVersion)
      else if result = some .ESTALE then
        .put .PUT_STATUS_VERSION_MISMATCH detail none (some state.mutation.currentVersion)
      else if result = some .ENOENT then setResponse .PUT_STATUS_NOT_FOUND detail
      else setResponse .PUT_STATUS_STORAGE_ERROR detail

def mapReadResult (result : Option Errno) (stat : ObjectStat) (detail : String) : Response :=
  match result with
  | none => .read .READ_STATUS_OK "" (some stat)
  | some .ENOENT => setReadResponse .READ_STATUS_NOT_FOUND detail
  | some _ => setReadResponse .READ_STATUS_STORAGE_ERROR detail

/-! ## The shared state -/

/-- The task of call `call`. -/
structure TaskId where
  kind : QueueKind
  call : ℕ
  deriving DecidableEq

/-- A call: the context its callbacks share, the closure, and the response. -/
structure RpcCall where
  request : Request := .putObject none
  /-- The handler's `ClosureGuard` was told to let `done` go. -/
  released : Bool := false
  /-- `RpcCompletion` holds `done`. -/
  completion : Bool := false
  /-- How often `done` ran. -/
  doneRuns : ℕ := 0
  /-- What the cancel callback answers. -/
  cancelled : Response := .failed Errno.EIO ""
  response : Option Response := none

structure Shared where
  limiter : InflightByteLimiter
  writeQueue : BoundedTaskQueue TaskId
  readQueue : BoundedTaskQueue TaskId
  stopping : Bool
  /-- Worker threads that have not returned. -/
  workers : ℕ
  calls : ℕ → RpcCall
  callCount : ℕ
  /-- Write tasks in the order in which the queue accepted them. -/
  accepted : List ℕ
  /-- Callbacks in the order in which they were called; `true` for `execute`. -/
  ran : List (TaskId × Bool)

namespace Shared

def queue (s : Shared) : QueueKind → BoundedTaskQueue TaskId
  | .write => s.writeQueue
  | .read => s.readQueue

def setQueue (s : Shared) (kind : QueueKind) (q : BoundedTaskQueue TaskId) : Shared :=
  match kind with
  | .write => { s with writeQueue := q }
  | .read => { s with readQueue := q }

/-- Change the call `k`. -/
def modifyCall (s : Shared) (k : ℕ) (f : RpcCall → RpcCall) : Shared :=
  { s with calls := update s.calls k (f (s.calls k)) }

def respond (s : Shared) (k : ℕ) (r : Response) : Shared := s.modifyCall k fun c => { c with response := some r }

/-- The closure of call `k` runs. -/
def runDone (s : Shared) (k : ℕ) : Shared := s.modifyCall k fun c => { c with doneRuns := c.doneRuns + 1 }

/-- `RpcCompletion::Run`. -/
def complete (s : Shared) (k : ℕ) : Shared :=
  if (s.calls k).completion then (s.modifyCall k fun c => { c with completion := false }).runDone k else s

def release (s : Shared) (lease : Lease) : Shared := { s with limiter := s.limiter.release lease }

end Shared

/-! ## Choices -/

/-- What `ObjectBackend` answers to a task. -/
inductive Answer where
  | mutation (result : Option Errno) (state : IdempotentMutationResult) (detail : String)
  | read (result : Option Errno) (stat : ObjectStat) (detail : String)
  | flattenFailed
  | threw (what : Option String)

inductive Choice where
  /-- Nothing unusual. -/
  | go
  | digestFailed
  | digestMismatch
  | fingerprintRejected (detail : String)
  /-- An exception in admission; `none` when it is no `std::exception`. -/
  | throws (what : Option String)
  | allocationFailed
  | answer (a : Answer)

/-- The texts that differ between the handlers. -/
def Request.name : Request → String
  | .putObject _ => "PutObject"
  | .getObject _ => "GetObject"
  | .statObject _ => "StatObject"

/-- A status of the call's own kind. -/
def Request.storageError (r : Request) (detail : String) : Response :=
  match r.kind with
  | .write => setResponse .PUT_STATUS_STORAGE_ERROR detail
  | .read => setReadResponse .READ_STATUS_STORAGE_ERROR detail

def Request.stopping (r : Request) : Response :=
  match r.kind with
  | .write => setResponse .PUT_STATUS_SERVER_STOPPING "server is stopping"
  | .read => setReadResponse .READ_STATUS_SERVER_STOPPING "server is stopping"

/-- The response the execute callback sets. -/
def executeResponse (r : Request) : Answer → Response
  | .mutation result state detail => mapMutationResult result state detail
  | .read result stat detail => mapReadResult result stat detail
  | .flattenFailed => r.storageError "could not flatten request attachment"
  | .threw (some what) => r.storageError what
  | .threw none => r.storageError ("unknown " ++ r.name ++ " worker failure")

/-- What the cancel callback answers after `TryEnqueue` refused the task. -/
def refusal (r : Request) : EnqueueResult → Response
  | .kFull => match r.kind with
    | .write => setResponse .PUT_STATUS_OVERLOADED "bounded task queue is full"
    | .read => setReadResponse .READ_STATUS_OVERLOADED "bounded read queue is full"
  | .kResourceExhausted => match r.kind with
    | .write => setResponse .PUT_STATUS_OVERLOADED "task queue allocation failed"
    | .read => setReadResponse .READ_STATUS_OVERLOADED "read queue allocation failed"
  | .kStopped => r.stopping
  | _ => r.storageError ("invalid queued " ++ r.name ++ " task")

/-! ## Finishing a task -/

/-- `QueuedTask::Finish` of the object `task`, once its callback was called. -/
inductive TaskFinish where
  /-- The callback is running. -/
  | callback (task : QueuedTask TaskId) (id : TaskId) (run : Bool)
  /-- The callback returned; the lease is still to be reset. -/
  | returned (task : QueuedTask TaskId)

/-- `Finish(run)` is called on `task`. -/
def beginFinish (s : Shared) (task : QueuedTask TaskId) (run : Bool) : Shared × TaskFinish :=
  match task.finish run with
  | some (id, task') => ({ s with ran := s.ran ++ [(id, run)] }, .callback task' id run)
  -- an inactive task only gives its lease back when the object goes
  | none => (s, .returned task)

/-- The callback of `id` does its work: it sets the response and runs the completion. -/
def runCallback (s : Shared) (id : TaskId) (response : Response) : Shared :=
  (s.respond id.call response).complete id.call

/-! ## Handlers -/

inductive Handler where
  /-- `done` is with the `ClosureGuard`. -/
  | entered
  | admitted (request : PutRequest)
  /-- Admission is over; the context and the task are built. -/
  | building (lease : Lease)
  /-- About to return with the `ClosureGuard` still holding `done`. -/
  | leaving
  /-- `done` is with the completion. -/
  | offering (task : QueuedTask TaskId)
  | refused (task : QueuedTask TaskId)
  | finishing (f : TaskFinish)
  | returned

def isAllZeroRequestId (requestId : List UInt8) : Bool := requestId.all fun value => value = 0

/-- Why a put is refused before it costs anything. -/
def invalidPut (r : PutRequest) : Option String :=
  if r.key = [] ∨ r.payloadSize ≠ r.attachmentSize ∨ r.sha256.length ≠ kSha256Size ∨
      r.requestId.length ≠ kRequestIdSize ∨ isAllZeroRequestId r.requestId ∨ r.precondition = none then
    some "key, payload size, SHA-256, request ID, and precondition are required"
  else if r.key.length > kMaxNameLength ∨ r.attachmentSize.toNat > kMaxFileSize then
    some "key or payload exceeds the EUFS v1 format limit"
  else none

namespace Handler

/-- The first checks of a handler. -/
def enter (s : Shared) (k : ℕ) (r : Request) : Shared × Handler :=
  match r with
  | .putObject (some request) =>
    if s.stopping then (s.respond k r.stopping, .leaving)
    else match invalidPut request with
      | some detail => (s.respond k (setResponse .PUT_STATUS_INVALID_ARGUMENT detail), .leaving)
      | none => (s, .admitted request)
  | .getObject (some request) | .statObject (some request) =>
    if s.stopping then (s.respond k r.stopping, .leaving)
    else if request.key = [] then
      (s.respond k (setReadResponse .READ_STATUS_INVALID_ARGUMENT "key is required"), .leaving)
    else (s, .building none)
  | _ => (s.respond k (.failed .EINVAL ("invalid " ++ r.name ++ " service arguments")), .leaving)

/-- The byte lease of a put. -/
def acquire (s : Shared) (k : ℕ) (request : PutRequest) : Shared × Handler :=
  match s.limiter.tryAcquire request.attachmentSize with
  | none => (s.respond k (setResponse .PUT_STATUS_OVERLOADED "inflight payload byte limit exceeded"), .leaving)
  | some (lease, limiter) => ({ s with limiter }, .building lease)

/-- The handler gives up while it builds its task: the lease goes first, then the guard runs `done`. -/
def abandon (s : Shared) (k : ℕ) (lease : Lease) (response : Response) : Shared × Handler :=
  ((s.respond k response).release lease, .leaving)

/-- The task of call `k`. -/
def task (k : ℕ) (r : Request) (lease : Lease) : QueuedTask TaskId :=
  match r.kind with
  | .write => .makeLeased lease (some ⟨.write, k⟩) (some ⟨.write, k⟩)
  | .read => .make (some ⟨.read, k⟩) (some ⟨.read, k⟩)

/-- Digest, context, fingerprint and task; then the completion adopts `done`. -/
def build (s : Shared) (k : ℕ) (r : Request) (lease : Lease) : Choice → Option (Shared × Handler)
  | .go => some (s.modifyCall k fun c => { c with released := true, completion := true, cancelled := r.stopping },
      .offering (task k r lease))
  | .digestFailed => match r.kind with
    | .write => some (abandon s k lease (setResponse .PUT_STATUS_STORAGE_ERROR "could not compute request SHA-256"))
    | .read => none
  | .digestMismatch => match r.kind with
    | .write => some (abandon s k lease
        (setResponse .PUT_STATUS_INVALID_ARGUMENT "request SHA-256 does not match attachment"))
    | .read => none
  | .fingerprintRejected detail => match r.kind with
    | .write => some (abandon s k lease (setResponse .PUT_STATUS_INVALID_ARGUMENT detail))
    | .read => none
  | .throws (some what) => some (abandon s k lease (r.storageError what))
  | .throws none => some (abandon s k lease (r.storageError ("unknown " ++ r.name ++ " admission failure")))
  | _ => none

/-- `TryEnqueue`. -/
def offer (s : Shared) (k : ℕ) (r : Request) (task : QueuedTask TaskId) (allocates : Bool) : Shared × Handler :=
  match (s.queue r.kind).tryEnqueue task allocates with
  | (.kAccepted, q, _) =>
    ({ s.setQueue r.kind q with accepted := if r.kind = .write then s.accepted ++ [k] else s.accepted }, .returned)
  | (result, _, task) => (s.modifyCall k fun c => { c with cancelled := refusal r result }, .refused task)

/-- One step of the handler of call `k`. -/
def step (s : Shared) (k : ℕ) (r : Request) : Handler → Choice → Option (Shared × Handler)
  | entered, .go => some (enter s k r)
  | admitted request, .go => some (acquire s k request)
  | building lease, c => build s k r lease c
  | leaving, .go => some (s.runDone k, returned)
  | offering task, .go => some (offer s k r task true)
  | offering task, .allocationFailed => some (offer s k r task false)
  | refused task, .go =>
    let (s', f) := beginFinish s task false
    some (s', finishing f)
  | finishing (.callback task id _), .go =>
    some (runCallback s id (s.calls id.call).cancelled, finishing (.returned task))
  | finishing (.returned task), .go => some (s.release task.byteLease, returned)
  | _, _ => none

end Handler

/-! ## Workers -/

inductive Worker where
  | waiting
  | holding (task : QueuedTask TaskId)
  | finishing (f : TaskFinish)
  | exited

namespace Worker

def step (s : Shared) (kind : QueueKind) : Worker → Choice → Option (Shared × Worker)
  | waiting, .go => match (s.queue kind).waitPop with
    | none => none
    | some (none, _) => some ({ s with workers := s.workers - 1 }, exited)
    | some (some task, q) => some (s.setQueue kind q, holding task)
  | holding task, .go =>
    let (s', f) := beginFinish s task true
    some (s', finishing f)
  | finishing (.callback task id _), .answer a =>
    some (runCallback s id (executeResponse (s.calls id.call).request a), finishing (.returned task))
  | finishing (.returned task), .go => some (s.release task.byteLease, waiting)
  | _, _ => none

end Worker

/-! ## Shutdown -/

inductive Shutdown where
  | called
  /-- `stopping_` was set here. -/
  | marked
  | tookWrites (pending : List (QueuedTask TaskId))
  | cancelling (pending : List (QueuedTask TaskId))
  | finishing (f : TaskFinish) (pending : List (QueuedTask TaskId))
  | joining
  | returned

namespace Shutdown

def step (s : Shared) : Shutdown → Choice → Option (Shared × Shutdown)
  | called, .go => if s.stopping then some (s, returned) else some ({ s with stopping := true }, marked)
  | marked, .go =>
    let (pending, q) := s.writeQueue.stopAndTakePending
    some ({ s with writeQueue := q }, tookWrites pending)
  | tookWrites writes, .go =>
    let (reads, q) := s.readQueue.stopAndTakePending
    some ({ s with readQueue := q }, cancelling (writes ++ reads))
  | cancelling [], .go => some (s, joining)
  | cancelling (task :: rest), .go =>
    let (s', f) := beginFinish s task false
    some (s', finishing f rest)
  | finishing (.callback task id _) rest, .go =>
    some (runCallback s id (s.calls id.call).cancelled, finishing (.returned task) rest)
  | finishing (.returned task) rest, .go => some (s.release task.byteLease, cancelling rest)
  | joining, .go => if s.workers = 0 then some (s, returned) else none
  | _, _ => none

end Shutdown

/-! ## The service -/

inductive Thread where
  | handler (call : ℕ) (request : Request) (h : Handler)
  | worker (kind : QueueKind) (w : Worker)
  | shutdown (t : Shutdown)

def Thread.step (s : Shared) : Thread → Choice → Option (Shared × Thread)
  | .handler k r h, c => (h.step s k r c).map fun x => (x.1, .handler k r x.2)
  | .worker kind w, c => (w.step s kind c).map fun x => (x.1, .worker kind x.2)
  | .shutdown t, c => (t.step s c).map fun x => (x.1, .shutdown x.2)

structure ObjectServiceOptions where
  maxInflightBytes : UInt64 := 64 * 1024 * 1024
  maxQueuedWriteTasks : ℕ := 128
  maxQueuedReadTasks : ℕ := 256
  readWorkerCount : ℕ := 4

/-- The service as its constructor leaves it. -/
def ObjectServiceOptions.service (o : ObjectServiceOptions) : Pool Shared Thread where
  shared :=
    { limiter := ⟨o.maxInflightBytes, 0⟩
      writeQueue := ⟨o.maxQueuedWriteTasks, [], false⟩
      readQueue := ⟨o.maxQueuedReadTasks, [], false⟩
      stopping := false
      workers := o.readWorkerCount + 1
      calls := fun _ => {}
      callCount := 0
      accepted := []
      ran := [] }
  threads := .worker .write .waiting :: List.replicate o.readWorkerCount (.worker .read .waiting)

/-- A call comes in, or somebody calls `Shutdown`. -/
inductive Starts : Shared → Shared → Thread → Prop
  | call (s : Shared) (r : Request) :
      Starts s { s with callCount := s.callCount + 1, calls := update s.calls s.callCount { request := r } }
        (.handler s.callCount r .entered)
  | shutdown (s : Shared) : Starts s s (.shutdown .called)

/-- What can be reached by any interleaving. -/
abbrev ObjectServiceOptions.Reachable (o : ObjectServiceOptions) : Pool Shared Thread → Prop :=
  Pool.Reachable Thread.step Starts o.service

end Eufs
