import Mathlib.Data.List.Sort
import Mathlib.Data.List.Dedup
import Ody.Execution.Model

/-!
# The in-memory store

Every method of `MemoryStore` holds the mutex for its whole body, so a method
is one function from a store to a reply and a store. What a method takes from
outside is in `Env`: the clock value, the values of `uuid.New` and the order in
which each of its `range` loops visits a map.

## Implementation notes

The reference maps for nodes are keyed by the pair of run and node key, because
the text of a UUID has fixed length. The idempotency maps keep the concatenated
text of the source. `sort.Slice` is a sort of the entries in range order, and
the range order is arbitrary, so ties come out in every possible order.
-/

namespace Ody.Memory

open Library.Tables

/-- What one call takes from outside the store. -/
structure Env where
  now : Time
  newUUID : Nat → UUID
  rangeExecutions : Nat → RangeOrder (Entry UUID Execution)
  rangeRuns : Nat → RangeOrder (Entry UUID PipelineRun)
  newUUID_ne_nil : ∀ i, newUUID i ≠ nilUUID
  newUUID_injective : Function.Injective newUUID

/-- The maps of a `MemoryStore`. Records are stored under their own identifier. -/
structure MemoryStore where
  executions : Table UUID Execution
  runs : Table UUID PipelineRun
  events : Table UUID (List Event)
  idempotent : Table String UUID
  nodes : Table (UUID × String) UUID
  runIdempotent : Table String UUID
  executions_keyed : ∀ id item, executions.lookup id = some item → item.id = id
  runs_keyed : ∀ id run, runs.lookup id = some run → run.id = id

/-- `NewMemoryStore`. -/
def newMemoryStore : MemoryStore where
  executions := ∅
  runs := ∅
  events := ∅
  idempotent := ∅
  nodes := ∅
  runIdempotent := ∅
  executions_keyed := by simp
  runs_keyed := by simp

namespace MemoryStore

/-- The assignment `s.executions[item.ID] = item`. -/
def put (s : MemoryStore) (item : Execution) : MemoryStore :=
  { s with
    executions := s.executions.insert item.id item
    executions_keyed := by
      intro id stored h
      rw [lookup_insert_ite] at h
      split at h
      · cases h
        exact (‹id = item.id›).symm
      · exact s.executions_keyed id stored h }

/-- The assignment `s.runs[run.ID] = run`. -/
def putRun (s : MemoryStore) (run : PipelineRun) : MemoryStore :=
  { s with
    runs := s.runs.insert run.id run
    runs_keyed := by
      intro id stored h
      rw [lookup_insert_ite] at h
      split at h
      · cases h
        exact (‹id = run.id›).symm
      · exact s.runs_keyed id stored h }

/-- The call `delete(s.executions, id)`. -/
def dropExecution (s : MemoryStore) (id : UUID) : MemoryStore :=
  { s with
    executions := s.executions.erase id
    executions_keyed := by
      intro key stored h
      rw [lookup_erase_ite] at h
      split at h
      · cases h
      · exact s.executions_keyed key stored h }

/-- The call `delete(s.runs, id)`. -/
def dropRun (s : MemoryStore) (id : UUID) : MemoryStore :=
  { s with
    runs := s.runs.erase id
    runs_keyed := by
      intro key stored h
      rw [lookup_erase_ite] at h
      split at h
      · cases h
      · exact s.runs_keyed key stored h }

/-- The stored history of an execution. -/
def history (s : MemoryStore) (id : UUID) : List Event := (s.events.lookup id).getD []

def appendEvent (s : MemoryStore) (env : Env) (item : Execution) (eventType : EventType)
    (errorText : String) : MemoryStore :=
  { s with
    events := s.events.insert item.id (s.history item.id ++
      [{ executionID := item.id, type := eventType, attempt := item.attempt,
         error := errorText, createdAt := env.now }]) }

def deleteExecution (s : MemoryStore) (id : UUID) (item : Execution) : MemoryStore :=
  let s := s.dropExecution id
  let s := { s with events := s.events.erase id }
  let s := if item.idempotencyKey ≠ ""
    then { s with
      idempotent := s.idempotent.erase (idempotencyIndex item.taskName item.idempotencyKey) }
    else s
  match item.pipelineRunID with
  | some runID => { s with nodes := s.nodes.erase (runID, item.nodeKey) }
  | none => s

/-- The values of the executions map in the order of the `i`-th loop of a call. -/
def items (s : MemoryStore) (env : Env) (i : Nat) : List Execution :=
  (range (env.rangeExecutions i) s.executions).map (·.2)

/-- The values of the runs map in the order of the `i`-th loop of a call. -/
def runItems (s : MemoryStore) (env : Env) (i : Nat) : List PipelineRun :=
  (range (env.rangeRuns i) s.runs).map (·.2)

end MemoryStore

/-! ## Creation and reads -/

/-- The zero value of `Execution`, which a read of a missing map key returns. -/
def zeroExecution : Execution where
  id := nilUUID
  taskName := ""
  taskVersion := 0
  input := ""
  output := ""
  status := .pending
  attempt := 0
  maxAttempts := 0
  availableAt := zeroTime
  leaseOwner := ""
  leaseToken := nilUUID
  leaseUntil := zeroTime
  lastError := ""
  idempotencyKey := ""
  pipelineRunID := none
  nodeKey := ""
  createdAt := zeroTime
  startedAt := none
  finishedAt := none

/-- The execution that `CreateExecution` finds under the idempotency key or the node. -/
def existing (s : MemoryStore) (request : CreateExecution) : Option UUID :=
  let byKey := if request.idempotencyKey ≠ ""
    then s.idempotent.lookup (idempotencyIndex request.taskName request.idempotencyKey)
    else none
  match byKey, request.pipelineRunID with
  | some id, _ => some id
  | none, some runID =>
      if request.nodeKey ≠ "" then s.nodes.lookup (runID, request.nodeKey) else none
  | none, none => none

/-- The record `CreateExecution` inserts. -/
def created (env : Env) (request : CreateExecution) : Execution where
  id := env.newUUID 0
  taskName := request.taskName
  taskVersion := request.taskVersion
  input := request.input
  output := ""
  status := .pending
  attempt := 0
  maxAttempts := if request.maxAttempts ≤ 0 then 1 else request.maxAttempts
  availableAt := if request.availableAt = zeroTime then env.now else request.availableAt
  leaseOwner := ""
  leaseToken := nilUUID
  leaseUntil := zeroTime
  lastError := ""
  idempotencyKey := request.idempotencyKey
  pipelineRunID := request.pipelineRunID
  nodeKey := request.nodeKey
  createdAt := env.now
  startedAt := none
  finishedAt := none

/-- Record the new execution under its idempotency key. -/
def registerKey (s : MemoryStore) (item : Execution) : MemoryStore :=
  if item.idempotencyKey ≠ ""
  then { s with
    idempotent :=
      s.idempotent.insert (idempotencyIndex item.taskName item.idempotencyKey) item.id }
  else s

/-- Record the new execution under its node. -/
def registerNode (s : MemoryStore) (item : Execution) : MemoryStore :=
  match item.pipelineRunID with
  | some runID =>
      if item.nodeKey ≠ "" then { s with nodes := s.nodes.insert (runID, item.nodeKey) item.id }
      else s
  | none => s

/-- The references of a new execution. -/
def register (s : MemoryStore) (item : Execution) : MemoryStore :=
  registerNode (registerKey s item) item

def createExecution (env : Env) (s : MemoryStore) (request : CreateExecution) :
    Except GoError Execution × MemoryStore :=
  if request.taskName = "" then (.error (.text "task name is empty"), s)
  else match existing s request with
    | some id => (.ok ((s.executions.lookup id).getD zeroExecution), s)
    | none =>
        let item := created env request
        (.ok item, (register (s.put item) item).appendEvent env item .created "")

def getExecution (s : MemoryStore) (id : UUID) : Except GoError Execution :=
  match s.executions.lookup id with
  | some item => .ok item
  | none => .error .notFound

/-- The descending list order: newer creation time first, then the larger identifier. -/
def newer (leftTime : Time) (leftID : UUID) (rightTime : Time) (rightID : UUID) : Bool :=
  if leftTime = rightTime then rightID < leftID else rightTime < leftTime

def beforeCursor (createdAt : Time) (id : UUID) (cursor : Cursor) : Bool :=
  createdAt < cursor.createdAt || (createdAt == cursor.createdAt && id < cursor.id)

/-- The tests of the loop in `ListExecutions`. -/
def matchesFilter (filter : ListFilter) (item : Execution) : Bool :=
  (filter.taskName == "" || item.taskName == filter.taskName) &&
  (filter.status.all fun status => item.status == status) &&
  (filter.pipelineRunID.all fun runID => item.pipelineRunID == some runID) &&
  (filter.before.all fun cursor => beforeCursor item.createdAt item.id cursor)

/-- The cut `items[:limit]` of the list operations. -/
def page {α : Type} (limit : Int) (items : List α) : List α :=
  if 0 < limit then items.take limit.toNat else items

def listExecutions (env : Env) (s : MemoryStore) (filter : ListFilter) : List Execution :=
  page filter.limit (((s.items env 0).filter (matchesFilter filter)).insertionSort
    fun a b => newer b.createdAt b.id a.createdAt a.id = false)

def listRunExecutions (env : Env) (s : MemoryStore) (runID : UUID) : List Execution :=
  ((s.items env 0).filter (·.pipelineRunID == some runID)).insertionSort
    fun a b => a.createdAt ≤ b.createdAt

def events (s : MemoryStore) (id : UUID) : Except GoError (List Event) :=
  match s.executions.lookup id with
  | some _ => .ok (s.history id)
  | none => .error .notFound

/-! ## Delivery -/

/-- The tests of the loop in `Claim`. -/
def claimable (keys : List TaskKey) (now : Time) (item : Execution) : Bool :=
  keys.contains item.taskKey && !decide (now < item.availableAt) &&
  (item.status == .pending || item.status == .retry ||
    (item.status == .running && !decide (now < item.leaseUntil))) &&
  decide (item.attempt < item.maxAttempts)

/-- The order in which `Claim` takes candidates. -/
def claimsBefore (a b : Execution) : Prop :=
  if a.availableAt = b.availableAt then a.createdAt ≤ b.createdAt
  else a.availableAt < b.availableAt

instance (a b : Execution) : Decidable (claimsBefore a b) := by
  unfold claimsBefore
  infer_instance

/-- The record `Claim` stores for one candidate. -/
def claimed (env : Env) (owner : String) (lease : Duration) (token : UUID)
    (candidate : Execution) : Execution :=
  { candidate with
    status := .running
    attempt := candidate.attempt + 1
    leaseOwner := owner
    leaseToken := token
    leaseUntil := env.now + lease
    startedAt := some (candidate.startedAt.getD env.now) }

/-- The candidates of one `Claim`, cut at its limit. -/
def candidates (env : Env) (s : MemoryStore) (keys : List TaskKey) (limit : Int) :
    List Execution :=
  (((s.items env 0).filter (claimable keys env.now)).insertionSort claimsBefore).take
    (if limit ≤ 0 then 1 else limit).toNat

def claim (env : Env) (s : MemoryStore) (owner : String) (keys : List TaskKey) (limit : Int)
    (lease : Duration) : List Execution × MemoryStore :=
  let deliveries := (candidates env s keys limit).zipIdx.map fun candidate =>
    claimed env owner lease (env.newUUID candidate.2) candidate.1
  (deliveries, deliveries.foldl (fun s item => (s.put item).appendEvent env item .started "") s)

/-- The test of the loop in `ReapExpired`. -/
def reapable (now : Time) (item : Execution) : Bool :=
  item.status == .running && !decide (now < item.leaseUntil) &&
  !decide (item.attempt < item.maxAttempts)

/-- The record `ReapExpired` stores for an exhausted expired delivery. -/
def reaped (env : Env) (item : Execution) : Execution :=
  { item with
    status := .failed
    lastError := "lease expired after maximum attempts"
    finishedAt := some env.now
    leaseToken := nilUUID
    leaseOwner := ""
    leaseUntil := zeroTime }

def reapExpired (env : Env) (s : MemoryStore) : List UUID × MemoryStore :=
  let expired := (s.items env 0).filter (reapable env.now)
  ((expired.filterMap (·.pipelineRunID)).dedup,
    (expired.map (reaped env)).foldl
      (fun s item => (s.put item).appendEvent env item .failed item.lastError) s)

def owned (s : MemoryStore) (id token : UUID) : Except GoError Execution :=
  match s.executions.lookup id with
  | none => .error .notFound
  | some item =>
      if item.status ≠ .running ∨ token = nilUUID ∨ item.leaseToken ≠ token
      then .error .leaseLost else .ok item

def heartbeat (env : Env) (s : MemoryStore) (id token : UUID) (lease : Duration) :
    Except GoError Unit × MemoryStore :=
  match owned s id token with
  | .error err => (.error err, s)
  | .ok item => (.ok (), s.put { item with leaseUntil := env.now + lease })

/-- The record `Succeed` stores. -/
def succeeded (env : Env) (output : RawMessage) (item : Execution) : Execution :=
  { item with
    status := .succeeded
    output := output
    finishedAt := some env.now
    leaseToken := nilUUID
    leaseOwner := ""
    leaseUntil := zeroTime }

def succeed (env : Env) (s : MemoryStore) (id token : UUID) (output : RawMessage) :
    Except GoError Unit × MemoryStore :=
  match owned s id token with
  | .error err => (.error err, s)
  | .ok item =>
      let item := succeeded env output item
      (.ok (), (s.put item).appendEvent env item .succeeded "")

/-- The record `Retry` stores once no attempt is left. -/
def exhausted (env : Env) (errorText : String) (item : Execution) : Execution :=
  { item with
    lastError := errorText
    leaseToken := nilUUID
    leaseOwner := ""
    leaseUntil := zeroTime
    status := .failed
    finishedAt := some env.now }

/-- The record `Retry` stores while attempts are left. -/
def retried (env : Env) (errorText : String) (delay : Duration) (item : Execution) : Execution :=
  { item with
    lastError := errorText
    leaseToken := nilUUID
    leaseOwner := ""
    leaseUntil := zeroTime
    status := .retry
    availableAt := env.now + delay }

def retry (env : Env) (s : MemoryStore) (id token : UUID) (errorText : String)
    (delay : Duration) : Except GoError Unit × MemoryStore :=
  match owned s id token with
  | .error err => (.error err, s)
  | .ok item =>
      if item.maxAttempts ≤ item.attempt then
        let item := exhausted env errorText item
        (.ok (), (s.put item).appendEvent env item .failed errorText)
      else
        let item := retried env errorText delay item
        (.ok (), (s.put item).appendEvent env item .retried errorText)

/-- The record `Fail` stores. -/
def failed (env : Env) (errorText : String) (item : Execution) : Execution :=
  { item with
    status := .failed
    lastError := errorText
    finishedAt := some env.now
    leaseToken := nilUUID
    leaseOwner := ""
    leaseUntil := zeroTime }

def fail (env : Env) (s : MemoryStore) (id token : UUID) (errorText : String) :
    Except GoError Unit × MemoryStore :=
  match owned s id token with
  | .error err => (.error err, s)
  | .ok item =>
      let item := failed env errorText item
      (.ok (), (s.put item).appendEvent env item .failed errorText)

/-! ## Operator actions -/

/-- The record `CancelExecution` stores. -/
def cancelled (env : Env) (reason : String) (item : Execution) : Execution :=
  { item with
    status := .cancelled
    lastError := reason
    finishedAt := some env.now
    leaseToken := nilUUID
    leaseOwner := ""
    leaseUntil := zeroTime }

def cancelExecution (env : Env) (s : MemoryStore) (id : UUID) (reason : String) :
    Except GoError Unit × MemoryStore :=
  match s.executions.lookup id with
  | none => (.error .notFound, s)
  | some item =>
      if item.status.isTerminal then (.error .notFound, s)
      else
        let item := cancelled env reason item
        (.ok (), (s.put item).appendEvent env item .cancelled reason)

/-- The record both restart operations store: history fields are reset. -/
def restarted (status : Status) (availableAt : Time) (item : Execution) : Execution :=
  { item with
    status := status
    attempt := 0
    availableAt := availableAt
    output := ""
    lastError := ""
    startedAt := none
    finishedAt := none
    leaseToken := nilUUID
    leaseOwner := ""
    leaseUntil := zeroTime }

def restartExecution (env : Env) (s : MemoryStore) (id : UUID) (availableAt : Time) :
    Except GoError Execution × MemoryStore :=
  match s.executions.lookup id with
  | none => (.error .notFound, s)
  | some item =>
      if item.pipelineRunID ≠ none then (.error .pipelineExecution, s)
      else if item.status.isActive then (.error .active, s)
      else
        let item := restarted .pending (if availableAt = zeroTime then env.now else availableAt) item
        (.ok item, (s.put item).appendEvent env item .restarted "")

/-- The executions that a restart of a subgraph resets. -/
def affected (request : RestartSubgraph) (item : Execution) : Bool :=
  item.pipelineRunID == some request.runID &&
  (item.nodeKey == request.rootNodeKey || request.descendantKeys.contains item.nodeKey)

/-- The first loop of `RestartPipelineSubgraph`: nothing active, and a root. -/
def subgraphRoot (request : RestartSubgraph) (items : List Execution) :
    Except GoError Execution :=
  if (items.filter (affected request)).any (·.status.isActive) then .error .active
  else match ((items.filter (affected request)).filter
      (·.nodeKey == request.rootNodeKey)).getLast? with
    | none => .error .notFound
    | some root => .ok root

/-- The record `RestartPipelineSubgraph` stores for an affected execution. -/
def subgraphReset (env : Env) (request : RestartSubgraph) (item : Execution) : Execution :=
  restarted (if item.nodeKey = request.rootNodeKey then .pending else .blocked)
    (if request.availableAt = zeroTime then env.now else request.availableAt) item

/-- The run record `RestartPipelineSubgraph` stores. -/
def reopened (env : Env) (run : PipelineRun) : PipelineRun :=
  { run with
    status := .running
    error := ""
    finishedAt := none
    updatedAt := env.now
    revision := run.revision + 1 }

def restartPipelineSubgraph (env : Env) (s : MemoryStore) (request : RestartSubgraph) :
    Except GoError Execution × MemoryStore :=
  match s.runs.lookup request.runID with
  | none => (.error .notFound, s)
  | some run =>
      match subgraphRoot request (s.items env 0) with
      | .error err => (.error err, s)
      | .ok root =>
          let resets := ((s.items env 1).filter (affected request)).map (subgraphReset env request)
          (.ok (subgraphReset env request root),
            (resets.foldl (fun s item => (s.put item).appendEvent env item .restarted "") s).putRun
              (reopened env run))

/-- The record `ReleaseExecution` stores. -/
def released (env : Env) (input : RawMessage) (availableAt : Time) (item : Execution) :
    Execution :=
  { item with
    status := .pending
    input := input
    availableAt := if availableAt = zeroTime then env.now else availableAt }

def releaseExecution (env : Env) (s : MemoryStore) (id : UUID) (input : RawMessage)
    (availableAt : Time) : Except GoError Unit × MemoryStore :=
  match s.executions.lookup id with
  | none => (.error .notFound, s)
  | some item =>
      if item.status ≠ .blocked then (.error .active, s)
      else (.ok (), s.put (released env input availableAt item))

/-! ## Pipeline runs -/

/-- The zero value of `PipelineRun`, which a read of a missing map key returns. -/
def zeroRun : PipelineRun where
  id := nilUUID
  pipelineName := ""
  pipelineVersion := 0
  input := ""
  status := .pending
  error := ""
  idempotencyKey := ""
  revision := 0
  createdAt := zeroTime
  updatedAt := zeroTime
  finishedAt := none

/-- The run that `CreatePipelineRun` finds under the idempotency key. -/
def existingRun (s : MemoryStore) (request : CreatePipelineRun) : Option UUID :=
  if request.idempotencyKey ≠ ""
  then s.runIdempotent.lookup (idempotencyIndex request.pipelineName request.idempotencyKey)
  else none

/-- The record `CreatePipelineRun` inserts. -/
def createdRun (env : Env) (request : CreatePipelineRun) : PipelineRun where
  id := env.newUUID 0
  pipelineName := request.pipelineName
  pipelineVersion := request.pipelineVersion
  input := request.input
  status := .pending
  error := ""
  idempotencyKey := request.idempotencyKey
  revision := 0
  createdAt := env.now
  updatedAt := env.now
  finishedAt := none

def createPipelineRun (env : Env) (s : MemoryStore) (request : CreatePipelineRun) :
    PipelineRun × MemoryStore :=
  match existingRun s request with
  | some id => ((s.runs.lookup id).getD zeroRun, s)
  | none =>
      let run := createdRun env request
      let s := s.putRun run
      (run, if run.idempotencyKey ≠ ""
        then { s with
          runIdempotent :=
            s.runIdempotent.insert (idempotencyIndex run.pipelineName run.idempotencyKey) run.id }
        else s)

def getPipelineRun (s : MemoryStore) (id : UUID) : Except GoError PipelineRun :=
  match s.runs.lookup id with
  | some run => .ok run
  | none => .error .notFound

/-- The tests of the loop in `ListPipelineRuns`. -/
def matchesRunFilter (filter : RunFilter) (run : PipelineRun) : Bool :=
  (filter.statuses.isEmpty || filter.statuses.contains run.status) &&
  (filter.before.all fun cursor => beforeCursor run.createdAt run.id cursor)

def listPipelineRuns (env : Env) (s : MemoryStore) (filter : RunFilter) : List PipelineRun :=
  page filter.limit (((s.runItems env 0).filter (matchesRunFilter filter)).insertionSort
    fun a b => newer b.createdAt b.id a.createdAt a.id = false)

/-- The record `SetPipelineRunStatus` stores. -/
def withStatus (env : Env) (status : RunStatus) (errorText : String) (run : PipelineRun) :
    PipelineRun :=
  { run with
    status := status
    error := errorText
    updatedAt := env.now
    revision := run.revision + 1
    finishedAt := if status.isTerminal then some env.now else run.finishedAt }

def setPipelineRunStatus (env : Env) (s : MemoryStore) (id : UUID) (expectedRevision : Nat)
    (status : RunStatus) (errorText : String) : Except GoError Unit × MemoryStore :=
  match s.runs.lookup id with
  | none => (.error .notFound, s)
  | some run =>
      if run.revision ≠ expectedRevision then (.error .conflict, s)
      else (.ok (), s.putRun (withStatus env status errorText run))

/-! ## Maintenance -/

/-- One candidate of `Purge`. -/
structure Candidate where
  id : UUID
  finished : Time
  pipeline : Bool
  deriving DecidableEq, Repr

/-- A finished run that `Purge` may remove. -/
def runCandidate (before : Time) (run : PipelineRun) : Option Candidate :=
  match run.finishedAt with
  | some finished => if finished < before then some ⟨run.id, finished, true⟩ else none
  | none => none

/-- A finished standalone execution that `Purge` may remove. -/
def executionCandidate (before : Time) (item : Execution) : Option Candidate :=
  match item.pipelineRunID, item.finishedAt with
  | none, some finished => if finished < before then some ⟨item.id, finished, false⟩ else none
  | _, _ => none

/-- The candidates of one `Purge`, oldest first and cut at its limit. -/
def purgeCandidates (env : Env) (s : MemoryStore) (before : Time) (limit : Int) :
    List Candidate :=
  (((s.runItems env 0).filterMap (runCandidate before) ++
    (s.items env 0).filterMap (executionCandidate before)).insertionSort
      fun a b => a.finished ≤ b.finished).take (if limit ≤ 0 then 1000 else limit).toNat

/-- Remove the executions of one run. -/
def purgeNodes (env : Env) (i : Nat) (s : MemoryStore) (runID : UUID) : Nat × MemoryStore :=
  let nodes := (s.items env i).filter (·.pipelineRunID == some runID)
  (nodes.length, nodes.foldl (fun s item => s.deleteExecution item.id item) s)

/-- The body of the loop over the candidates of `Purge`. -/
def purgeOne (env : Env) (i : Nat) (s : MemoryStore) (result : PurgeResult)
    (candidate : Candidate) : PurgeResult × MemoryStore :=
  if candidate.pipeline then
    let run := (s.runs.lookup candidate.id).getD zeroRun
    let (nodes, s) := purgeNodes env i s candidate.id
    let s := s.dropRun candidate.id
    let s := if run.idempotencyKey ≠ ""
      then { s with
        runIdempotent :=
          s.runIdempotent.erase (idempotencyIndex run.pipelineName run.idempotencyKey) }
      else s
    (⟨result.executions + nodes, result.pipelineRuns + 1⟩, s)
  else
    let item := (s.executions.lookup candidate.id).getD zeroExecution
    (⟨result.executions + 1, result.pipelineRuns⟩, s.deleteExecution candidate.id item)

/-- The loop over the candidates of `Purge`. The `i`-th round ranges over the
executions in the order of loop `i`. -/
def purgeLoop (env : Env) : Nat → List Candidate → PurgeResult → MemoryStore →
    PurgeResult × MemoryStore
  | _, [], result, s => (result, s)
  | i, candidate :: rest, result, s =>
      let (result, s) := purgeOne env i s result candidate
      purgeLoop env (i + 1) rest result s

def purge (env : Env) (s : MemoryStore) (before : Time) (limit : Int) :
    PurgeResult × MemoryStore :=
  purgeLoop env 1 (purgeCandidates env s before limit) ⟨0, 0⟩ s

end Ody.Memory
