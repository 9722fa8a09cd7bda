import Ody.Execution.MemoryStore
import Ody.Redis.State

/-!
# The operations of the Redis store

Each operation of `redis.Store` is a client program. A mutation reads the keys it
watches, decides, and commits a block of commands; the commit takes effect only
if the watched keys are unchanged, and `watch` repeats it at most 16 times. What
an operation takes from outside the server is in `Env`: the value of `TIME`, which
every mutation reads once at its start, and the values of `uuid.New`.

## Implementation notes

The transaction of `Purge` watches nothing. Its listing and its block are two
calls, `listPurge` and `execPurge`; `purge` is both in one step, for runs in which
nothing happens between them. A map of run identifiers that is only collected and
returned is a list without repetitions. Numbers do not wrap: the window `limit*8` of a
claim is computed without a bound, where Go's `int` would overflow for a limit beyond
2^60, and so is the revision of a run.
-/

namespace Ody.Redis

open Library.Tables Library.DerivedIndexes Library.Interleaving Library.Optimistic
open Memory (Env)

/-! ## Calls -/

/-- One candidate of `Purge` with the records it listed. -/
inductive Candidate where
  | execution (finished : Time) (item : Execution)
  | run (finished : Time) (run : PipelineRun) (nodes : List Execution)
  deriving DecidableEq, Repr

def Candidate.finished : Candidate → Time
  | .execution finished _ => finished
  | .run finished _ _ => finished

/-- The calls outside of transactions that watch keys. -/
inductive Query where
  | getExecution (id : UUID)
  | getPipelineRun (id : UUID)
  | getRef (key : RefKey)
  | zRangeByScore (key : ZKey) (max : Int) (count : Option Nat)
  | zRem (key : ZKey) (member : UUID)
  | listPurge (before : Time) (limit : Int) (order : RangeOrder Candidate)
  | execPurge (candidates : List Candidate)
  | purge (before : Time) (limit : Int) (order : RangeOrder Candidate)

@[reducible] def QueryReply : Query → Type
  | .getExecution _ => Option Execution
  | .getPipelineRun _ => Option PipelineRun
  | .getRef _ => Option UUID
  | .zRangeByScore _ _ _ => List UUID
  | .zRem _ _ => Unit
  | .listPurge _ _ _ => Except GoError (List Candidate)
  | .execPurge _ => Unit
  | .purge _ _ _ => Except GoError PurgeResult

/-- An operation of the store. -/
abbrev Op (α : Type) := TxProgram Watch Image Command QueryReply α

/-- The errors that leave the function under `WATCH`. -/
inductive TxError where
  | store (err : GoError)
  | existing (id : UUID)
  | unavailable
  deriving DecidableEq, Repr

def TxError.goError : TxError → GoError
  | .store err => err
  | .existing _ => .text "redis execution reference already exists"
  | .unavailable => .text "redis execution is not claimable"

/-- Retry an optimistic transaction when a watched key has changed. The operation reads after it has
begun to watch, and its variables keep what a lost round has assigned to them. -/
def watchFrom {α : Type} (keys : Watch) (read : Image → Op Image)
    (operation : Option α → Nat → Image → Except TxError (α × List Command)) :
    Op (Except TxError α) :=
  attempt keys read operation (.store (.text "redis transaction contention limit exceeded")) 16 none

/-- A transaction that reads its watched keys and assigns its variables anew in each round. -/
def watch {α : Type} (keys : Watch) (operation : Nat → Image → Except TxError (α × List Command)) :
    Op (Except TxError α) :=
  watchFrom keys .done fun _ => operation

/-- A transaction that watches the record of one execution and starts with `getExecutionTx`. -/
def watchExecutionFrom {α : Type} (id : UUID)
    (missing : Option α → Except TxError (α × List Command))
    (operation : Option α → Nat → Execution → Except TxError (α × List Command)) :
    Op (Except TxError α) :=
  watchFrom ⟨[id], [], [], []⟩ .done fun lost tries image =>
    match image.executions with
    | [some item] => operation lost tries item
    | _ => missing lost

def watchExecution {α : Type} (id : UUID)
    (missing : Except TxError (α × List Command))
    (operation : Nat → Execution → Except TxError (α × List Command)) : Op (Except TxError α) :=
  watchExecutionFrom id (fun _ => missing) fun _ => operation

/-- Return the error of a transaction as it is. -/
def returned {α : Type} (p : Op (Except TxError α)) : Op (Except GoError α) :=
  p.bind fun result => .done (result.mapError TxError.goError)

/-! ## Creation and reads -/

def getExecution (id : UUID) : Op (Except GoError Execution) :=
  .call (.other (.getExecution id)) fun stored =>
    .done (match stored with
      | some item => .ok item
      | none => .error .notFound)

def getPipelineRun (id : UUID) : Op (Except GoError PipelineRun) :=
  .call (.other (.getPipelineRun id)) fun stored =>
    .done (match stored with
      | some run => .ok run
      | none => .error .notFound)

/-- The event that `encodeEvent` builds, without its own identifier. -/
def encodeEvent (env : Env) (item : Execution) (eventType : EventType) (errorText : String) :
    Event where
  executionID := item.id
  type := eventType
  attempt := item.attempt
  error := errorText
  createdAt := env.now

/-- The record of `CreateExecution`. -/
def newExecution (env : Env) (request : CreateExecution) : Execution where
  id := env.newUUID 0
  taskName := request.taskName
  taskVersion := request.taskVersion
  input := request.input
  output := ""
  status := .pending
  attempt := 0
  maxAttempts := if request.maxAttempts ≤ 0 then 1 else request.maxAttempts
  availableAt := if request.availableAt = zeroTime then env.now else request.availableAt
  leaseOwner := ""
  leaseToken := nilUUID
  leaseUntil := zeroTime
  lastError := ""
  idempotencyKey := request.idempotencyKey
  pipelineRunID := request.pipelineRunID
  nodeKey := request.nodeKey
  createdAt := env.now
  startedAt := none
  finishedAt := none

/-- The reference keys of an execution. -/
def references (item : Execution) : List RefKey :=
  (if item.idempotencyKey ≠ "" then [idempotencyKey item.taskName item.idempotencyKey] else []) ++
  match item.pipelineRunID with
  | some runID => if item.nodeKey ≠ "" then [nodeKey runID item.nodeKey] else []
  | none => []

/-- The block of `CreateExecution`. -/
def createCommands (env : Env) (item : Execution) : List Command :=
  [.set item.id item,
    .hIncrBy item.taskName item.status 1,
    .zAdd executionsKey (score item.createdAt) item.id,
    .zAdd (taskIndexKey item.taskName) (score item.createdAt) item.id,
    .zAdd (statusKey item.status) (score item.createdAt) item.id,
    .zAdd (queueKey item.taskName) (score item.availableAt) item.id,
    .rPush item.id (encodeEvent env item .created "")] ++
  (references item).map (fun key => .setRef key item.id) ++
  match item.pipelineRunID with
  | some runID => [.zAdd (runExecutionsKey runID) (score item.createdAt) item.id]
  | none => []

/-- Read reference keys one after the other, up to the first that is set. -/
def getRefs : List RefKey → List (Option UUID) → Op Image
  | [], values => .done ⟨[], [], values, []⟩
  | key :: rest, values => .call (.other (.getRef key)) fun value =>
      match value with
      | some existing => .done ⟨[], [], values ++ [some existing], []⟩
      | none => getRefs rest (values ++ [none])

def createExecution (env : Env) (request : CreateExecution) : Op (Except GoError Execution) :=
  if request.taskName = "" then .done (.error (.text "task name is empty"))
  else
    let item := newExecution env request
    let refs := references item
    (watchFrom ⟨[], [], refs, []⟩ (fun _ => getRefs refs []) fun _ _ image =>
      match image.refs.findSome? id with
      | some existing => .error (.existing existing)
      | none => .ok (item, createCommands env item)).bind fun result =>
        match result with
        | .ok item => .done (.ok item)
        | .error (.existing id) => getExecution id
        | .error err => .done (.error err.goError)

/-! ## Transitions of one execution -/

def clearLease (item : Execution) : Execution :=
  { item with leaseOwner := "", leaseToken := nilUUID, leaseUntil := zeroTime }

/-- The block that keeps the record, queue, lease, status index and event list consistent. -/
def saveTransition (env : Env) (item : Execution) (previous : Status) (eventType : EventType)
    (errorText : String) (keepInQueue : Bool) : List Command :=
  [.set item.id item] ++
  (if previous ≠ item.status then
    [.hIncrBy item.taskName previous (-1), .hIncrBy item.taskName item.status 1]
  else []) ++
  [.zRem (statusKey previous) item.id,
    .zAdd (statusKey item.status) (score item.createdAt) item.id,
    .zRem leasesKey item.id] ++
  (if keepInQueue then
    (if item.status = .running then [.zAdd leasesKey (score item.leaseUntil) item.id] else []) ++
    [.zAdd (queueKey item.taskName)
      (score (if item.status = .running then item.leaseUntil else item.availableAt)) item.id]
  else [.zRem (queueKey item.taskName) item.id]) ++
  [.rPush item.id (encodeEvent env item eventType errorText)]

/-- The tests of `claimCandidate`. -/
def claimable (accepted : List TaskKey) (now : Time) (item : Execution) : Bool :=
  accepted.contains item.taskKey &&
  (item.status == .pending || item.status == .retry ||
    (item.status == .running && !decide (now < item.leaseUntil))) &&
  !decide (now < item.availableAt) && !decide (item.maxAttempts ≤ item.attempt)

/-- Convert discovery into ownership. The result is empty after an expected race. The tokens of
the rounds are the values of `uuid.New` from `draw` on. -/
def claimCandidate (env : Env) (draw : Nat) (id : UUID) (owner : String) (accepted : List TaskKey)
    (lease : Duration) : Op (Except GoError (Option Execution)) :=
  (watchExecution id (.error (.store .notFound)) fun tries item =>
    if claimable accepted env.now item then
      let claimed : Execution := { item with
        status := .running
        attempt := item.attempt + 1
        leaseOwner := owner
        leaseToken := env.newUUID (draw + tries)
        leaseUntil := env.now + lease
        startedAt := some (item.startedAt.getD env.now) }
      .ok (claimed, saveTransition env claimed item.status .started "" true)
    else .error .unavailable).bind fun result =>
      .done (match result with
        | .ok item => .ok (some item)
        | .error .unavailable => .ok none
        | .error (.store .notFound) => .ok none
        | .error err => .error err.goError)

/-- The block of `removeLeaseIndex`. -/
def removeLeaseIndex (id : UUID) : List Command := [.zRem leasesKey id]

/-- Fail a final expired attempt, or remove a stale entry of the lease index. The run of an execution
that was found expired in a lost round is returned also when a later round fails nothing. -/
def reapCandidate (env : Env) (id : UUID) : Op (Except GoError (Option UUID)) :=
  (watchExecutionFrom id (fun lost => .ok (lost.join, removeLeaseIndex id)) fun lost _ item =>
    if item.status ≠ .running then .ok (lost.join, removeLeaseIndex id)
    else if env.now < item.leaseUntil then .error .unavailable
    else if item.attempt < item.maxAttempts then .ok (lost.join, removeLeaseIndex id)
    else
      let reaped := clearLease { item with
        status := .failed
        lastError := "lease expired after maximum attempts"
        finishedAt := some env.now }
      .ok (reaped.pipelineRunID,
        saveTransition env reaped item.status .failed reaped.lastError false)).bind fun result =>
      .done (match result with
        | .ok runID => .ok runID
        | .error .unavailable => .ok none
        | .error err => .error err.goError)

/-- The lease of a running execution is owned by the token. -/
def ownedBy (token : UUID) (item : Execution) : Bool :=
  item.status == .running && token != nilUUID && item.leaseToken == token

/-- The block of `Heartbeat`. -/
def heartbeatCommands (id : UUID) (item : Execution) : List Command :=
  [.set id item,
    .zAdd (queueKey item.taskName) (score item.leaseUntil) id,
    .zAdd leasesKey (score item.leaseUntil) id]

def heartbeat (env : Env) (id token : UUID) (lease : Duration) : Op (Except GoError Unit) :=
  returned (watchExecution id (.error (.store .notFound)) fun _ item =>
    if ownedBy token item then
      .ok ((), heartbeatCommands id { item with leaseUntil := env.now + lease })
    else .error (.store .leaseLost))

/-- What a guarded mutation writes: the record, its event and whether it stays in the queue. -/
structure Mutation where
  item : Execution
  eventType : EventType
  errorText : String
  queued : Bool

/-- Apply a mutation guarded by the lease token to a running execution. -/
def transition (env : Env) (id token : UUID) (mutate : Execution → Mutation) :
    Op (Except GoError Unit) :=
  returned (watchExecution id (.error (.store .notFound)) fun _ item =>
    if ownedBy token item then
      let m := mutate item
      .ok ((), saveTransition env m.item item.status m.eventType m.errorText m.queued)
    else .error (.store .leaseLost))

def succeedMutation (env : Env) (output : RawMessage) (item : Execution) : Mutation where
  item := clearLease { item with
    status := .succeeded
    output := output
    finishedAt := some env.now }
  eventType := .succeeded
  errorText := ""
  queued := false

def succeed (env : Env) (id token : UUID) (output : RawMessage) : Op (Except GoError Unit) :=
  transition env id token (succeedMutation env output)

def retryMutation (env : Env) (errorText : String) (delay : Duration) (item : Execution) :
    Mutation :=
  let item := clearLease { item with lastError := errorText }
  if item.maxAttempts ≤ item.attempt then
    ⟨{ item with status := .failed, finishedAt := some env.now }, .failed, errorText, false⟩
  else ⟨{ item with status := .retry, availableAt := env.now + delay }, .retried, errorText, true⟩

def retry (env : Env) (id token : UUID) (errorText : String) (delay : Duration) :
    Op (Except GoError Unit) :=
  transition env id token (retryMutation env errorText delay)

def failMutation (env : Env) (errorText : String) (item : Execution) : Mutation where
  item := clearLease { item with
    status := .failed
    lastError := errorText
    finishedAt := some env.now }
  eventType := .failed
  errorText := errorText
  queued := false

def fail (env : Env) (id token : UUID) (errorText : String) : Op (Except GoError Unit) :=
  transition env id token (failMutation env errorText)

def cancelExecution (env : Env) (id : UUID) (reason : String) : Op (Except GoError Unit) :=
  returned (watchExecution id (.error (.store .notFound)) fun _ item =>
    if item.status.isTerminal then .error (.store .notFound)
    else
      let cancelled := clearLease { item with
        status := .cancelled
        lastError := reason
        finishedAt := some env.now }
      .ok ((), saveTransition env cancelled item.status .cancelled reason false))

/-- The record after a restart. -/
def reset (status : Status) (availableAt : Time) (item : Execution) : Execution :=
  clearLease { item with
    status := status
    attempt := 0
    availableAt := availableAt
    output := ""
    lastError := ""
    startedAt := none
    finishedAt := none }

/-- The block of `RestartExecution`. -/
def restartCommands (env : Env) (id : UUID) (item : Execution) (previous : Status) : List Command :=
  [.set id item,
    .hIncrBy item.taskName previous (-1),
    .hIncrBy item.taskName item.status 1,
    .zRem (statusKey previous) id,
    .zAdd (statusKey item.status) (score item.createdAt) id,
    .zRem leasesKey id,
    .zAdd (queueKey item.taskName) (score item.availableAt) id,
    .rPush id (encodeEvent env item .restarted "")]

def restartExecution (env : Env) (id : UUID) (availableAt : Time) : Op (Except GoError Execution) :=
  returned (watchExecution id (.error (.store .notFound)) fun _ item =>
    if item.status.isActive then .error (.store .active)
    else if item.pipelineRunID ≠ none then .error (.store .pipelineExecution)
    else
      let restarted := reset .pending (if availableAt = zeroTime then env.now else availableAt) item
      .ok (restarted, restartCommands env id restarted item.status))

/-- The block of `ReleaseExecution`. -/
def releaseCommands (id : UUID) (item : Execution) : List Command :=
  [.set id item,
    .hIncrBy item.taskName .blocked (-1),
    .hIncrBy item.taskName .pending 1,
    .zRem (statusKey .blocked) id,
    .zAdd (statusKey .pending) (score item.createdAt) id,
    .zAdd (queueKey item.taskName) (score item.availableAt) id]

def releaseExecution (env : Env) (id : UUID) (input : RawMessage) (availableAt : Time) :
    Op (Except GoError Unit) :=
  returned (watchExecution id (.error (.store .notFound)) fun _ item =>
    if item.status ≠ .blocked then .error (.store .active)
    else
      .ok ((), releaseCommands id { item with
        status := .pending
        input := input
        availableAt := if availableAt = zeroTime then env.now else availableAt }))

/-! ## Loops over candidates -/

/-- Read the records of due identifiers; an entry without a record is removed from the queue. -/
def loadRecords (name : String) : List UUID → Table UUID Execution → Op (Table UUID Execution)
  | [], candidates => .done candidates
  | id :: rest, candidates => .call (.other (.getExecution id)) fun stored =>
      match stored with
      | none => .call (.other (.zRem (queueKey name) id)) fun _ => loadRecords name rest candidates
      | some item => loadRecords name rest (candidates.insert id item)

/-- Read the due heads of the queues. -/
def loadQueues (limit : Int) (now : Time) :
    List String → Table UUID Execution → Op (Table UUID Execution)
  | [], candidates => .done candidates
  | name :: rest, candidates =>
      .call (.other (.zRangeByScore (queueKey name) (score now) (some (max (limit * 8) 128).toNat)))
        fun ids => (loadRecords name ids candidates).bind (loadQueues limit now rest)

/-- Merge the due heads of all requested task queues. -/
def loadDueCandidates (env : Env) (names : List String) (limit : Int) : Op (List Execution) :=
  (loadQueues limit env.now names ∅).bind fun candidates =>
    .done (((range (env.rangeExecutions 0) candidates).map (·.2)).insertionSort Memory.claimsBefore)

/-- Claim one candidate after the other until the limit is reached. -/
def claimLoop (env : Env) (owner : String) (accepted : List TaskKey) (limit : Int)
    (lease : Duration) : List Execution → Nat → List Execution →
    Op (Except GoError (List Execution))
  | [], _, claimed => .done (.ok claimed)
  | candidate :: rest, draw, claimed =>
      if (claimed.length : Int) = limit then .done (.ok claimed)
      else (claimCandidate env draw candidate.id owner accepted lease).bind fun result =>
        match result with
        | .error err => .done (.error err)
        | .ok none => claimLoop env owner accepted limit lease rest (draw + 16) claimed
        | .ok (some item) =>
            claimLoop env owner accepted limit lease rest (draw + 16) (claimed ++ [item])

def claim (env : Env) (owner : String) (keys : List TaskKey) (limit : Int) (lease : Duration) :
    Op (Except GoError (List Execution)) :=
  let limit := if limit ≤ 0 then 1 else limit
  (loadDueCandidates env (keys.map (·.name)).eraseDups limit).bind fun ordered =>
    claimLoop env owner keys limit lease ordered 0 []

/-- Reap one candidate after the other and collect the runs. -/
def reapLoop (env : Env) : List UUID → List UUID → Op (Except GoError (List UUID))
  | [], runs => .done (.ok runs)
  | id :: rest, runs => (reapCandidate env id).bind fun result =>
      match result with
      | .error err => .done (.error err)
      | .ok none => reapLoop env rest runs
      | .ok (some runID) => reapLoop env rest (runs.insert runID)

def reapExpired (env : Env) : Op (Except GoError (List UUID)) :=
  .call (.other (.zRangeByScore leasesKey (score env.now) none)) fun ids => reapLoop env ids []

/-! ## Restart of a subgraph -/

/-- Resolve node keys to executions before the transaction. -/
def lookupNodes (runID : UUID) : List String → Op (List UUID)
  | [] => .done []
  | key :: rest => .call (.other (.getRef (nodeKey runID key))) fun ref =>
      (lookupNodes runID rest).bind fun ids =>
        .done (match ref with
          | none => ids
          | some id => id :: ids)

/-- Read the executions of the subgraph; none of them may be active. -/
def loadItems : List (Option Execution) → Except TxError (List Execution)
  | [] => .ok []
  | none :: _ => .error (.store .notFound)
  | some item :: rest =>
      if item.status.isActive then .error (.store .active)
      else match loadItems rest with
        | .ok items => .ok (item :: items)
        | .error err => .error err

/-- The record of an execution of the subgraph after the restart. -/
def subgraphItem (env : Env) (request : RestartSubgraph) (item : Execution) : Execution :=
  reset (if item.nodeKey = request.rootNodeKey then .pending else .blocked)
    (if request.availableAt = zeroTime then env.now else request.availableAt) item

/-- The commands for one execution of the subgraph. -/
def subgraphCommands (env : Env) (request : RestartSubgraph) (item : Execution) : List Command :=
  let previous := item.status
  let item := subgraphItem env request item
  [.set item.id item] ++
  (if previous ≠ item.status then
    [.hIncrBy item.taskName previous (-1), .hIncrBy item.taskName item.status 1]
  else []) ++
  [.zRem (statusKey previous) item.id,
    .zAdd (statusKey item.status) (score item.createdAt) item.id,
    .zRem leasesKey item.id] ++
  (if item.status = .pending then [.zAdd (queueKey item.taskName) (score item.availableAt) item.id]
  else [.zRem (queueKey item.taskName) item.id]) ++
  [.rPush item.id (encodeEvent env item .restarted "")]

/-- The run record after the restart. -/
def reopenedRun (env : Env) (run : PipelineRun) : PipelineRun :=
  { run with
    status := .running
    error := ""
    updatedAt := env.now
    finishedAt := none
    revision := run.revision + 1 }

/-- The commands that move a run to another status. -/
def moveRun (id : UUID) (run : PipelineRun) (previous : RunStatus) : List Command :=
  [.hSet id run] ++
  (if previous ≠ run.status then
    [.hIncrByRun run.pipelineName previous (-1), .hIncrByRun run.pipelineName run.status 1]
  else []) ++
  [.zRem (runStatusKey previous) id, .zAdd (runStatusKey run.status) (score run.createdAt) id]

/-- The transaction of `RestartPipelineSubgraph`. -/
def restartTransaction (env : Env) (request : RestartSubgraph) (image : Image) :
    Except TxError (Execution × List Command) :=
  match image.runs with
  | [some run] =>
      match loadItems image.executions with
      | .error err => .error err
      | .ok items =>
          match ((items.map (subgraphItem env request)).filter
              (·.nodeKey == request.rootNodeKey)).getLast? with
          | none => .error (.store .notFound)
          | some root =>
              .ok (root, items.flatMap (subgraphCommands env request) ++
                moveRun run.id (reopenedRun env run) run.status)
  | _ => .error (.store .notFound)

def restartPipelineSubgraph (env : Env) (request : RestartSubgraph) :
    Op (Except GoError Execution) :=
  (lookupNodes request.runID (request.rootNodeKey :: request.descendantKeys)).bind fun ids =>
    returned (watch ⟨ids, [request.runID], [], []⟩ fun _ image =>
      restartTransaction env request image)

/-! ## Pipeline runs -/

/-- The record of `CreatePipelineRun`. -/
def newRun (env : Env) (request : CreatePipelineRun) : PipelineRun where
  id := env.newUUID 0
  pipelineName := request.pipelineName
  pipelineVersion := request.pipelineVersion
  input := request.input
  status := .pending
  error := ""
  idempotencyKey := request.idempotencyKey
  revision := 0
  createdAt := env.now
  updatedAt := env.now
  finishedAt := none

/-- The reference key of a run. -/
def runReferences (run : PipelineRun) : List String :=
  if run.idempotencyKey ≠ "" then [pipelineIdempotencyKey run.pipelineName run.idempotencyKey]
  else []

/-- The block of `CreatePipelineRun`. -/
def createRunCommands (run : PipelineRun) : List Command :=
  [.hSet run.id run,
    .hIncrByRun run.pipelineName run.status 1,
    .zAdd runsKey (score run.createdAt) run.id,
    .zAdd (runStatusKey run.status) (score run.createdAt) run.id] ++
  (runReferences run).map (fun key => .setRunRef key run.id)

def createPipelineRun (env : Env) (request : CreatePipelineRun) : Op (Except GoError PipelineRun) :=
  let run := newRun env request
  (watch ⟨[], [], [], runReferences run⟩ fun _ image =>
    match image.runRefs.findSome? id with
    | some existing => .error (.existing existing)
    | none => .ok (run, createRunCommands run)).bind fun result =>
      match result with
      | .ok run => .done (.ok run)
      | .error (.existing id) => getPipelineRun id
      | .error err => .done (.error err.goError)

/-- The run record that `SetPipelineRunStatus` stores. -/
def runWithStatus (env : Env) (status : RunStatus) (errorText : String) (run : PipelineRun) :
    PipelineRun :=
  { run with
    status := status
    error := errorText
    updatedAt := env.now
    revision := run.revision + 1
    finishedAt := if status.isTerminal then some env.now else none }

def setPipelineRunStatus (env : Env) (id : UUID) (expectedRevision : Nat) (status : RunStatus)
    (errorText : String) : Op (Except GoError Unit) :=
  returned (watch ⟨[], [id], [], []⟩ fun _ image =>
    match image.runs with
    | [some run] =>
        if run.revision ≠ expectedRevision then .error (.store .conflict)
        else .ok ((), moveRun id (runWithStatus env status errorText run) run.status)
    | _ => .error (.store .notFound))

/-! ## Lists -/

/-- Read the records of listed identifiers. -/
def getAll {α : Type} (records : Table UUID α) : List UUID → Except GoError (List α)
  | [] => .ok []
  | id :: rest =>
      match records.lookup id with
      | none => .error .notFound
      | some record =>
          match getAll records rest with
          | .ok items => .ok (record :: items)
          | .error err => .error err

def listRunExecutions (s : Keyspace) (runID : UUID) : Except GoError (List Execution) :=
  getAll s.executions.records (s.zRange (runExecutionsKey runID))

/-- The narrowest index that the filter selects. -/
def executionIndexFor (filter : ListFilter) : ZKey :=
  match filter.pipelineRunID, filter.status with
  | some runID, _ => runExecutionsKey runID
  | none, some status =>
      if filter.taskName ≠ "" then taskIndexKey filter.taskName else statusKey status
  | none, none => if filter.taskName ≠ "" then taskIndexKey filter.taskName else executionsKey

def matchesExecutionFilter (item : Execution) (filter : ListFilter) : Bool :=
  (filter.taskName == "" || item.taskName == filter.taskName) &&
  (filter.status.all fun status => item.status == status) &&
  (filter.before.all fun cursor => Memory.beforeCursor item.createdAt item.id cursor) &&
  (filter.pipelineRunID.all fun runID => item.pipelineRunID == some runID)

/-- The loop of `ListExecutions`, which stops at the limit. -/
def listLoop (records : Table UUID Execution) (filter : ListFilter) :
    List UUID → List Execution → Except GoError (List Execution)
  | [], items => .ok items
  | id :: rest, items =>
      match records.lookup id with
      | none => .error .notFound
      | some item =>
          if matchesExecutionFilter item filter then
            if 0 < filter.limit ∧ ((items ++ [item]).length : Int) = filter.limit then
              .ok (items ++ [item])
            else listLoop records filter rest (items ++ [item])
          else listLoop records filter rest items

def listExecutions (s : Keyspace) (filter : ListFilter) : Except GoError (List Execution) :=
  listLoop s.executions.records filter (s.zRevRange (executionIndexFor filter)) []

/-- The identifiers that `pipelineIDs` collects. -/
def pipelineIDs (s : Keyspace) (statuses : List RunStatus) : List UUID :=
  (if statuses.isEmpty then s.zRevRange runsKey
  else statuses.flatMap fun status => s.zRevRange (runStatusKey status)).dedup

def listPipelineRuns (s : Keyspace) (filter : RunFilter) : Except GoError (List PipelineRun) :=
  match getAll s.runs.records (pipelineIDs s filter.statuses) with
  | .error err => .error err
  | .ok runs =>
      .ok (Memory.page filter.limit ((runs.filter fun run =>
          filter.before.all fun cursor => Memory.beforeCursor run.createdAt run.id cursor).insertionSort
        fun a b => Memory.newer b.createdAt b.id a.createdAt a.id = false))

/-! ## Purge -/

/-- The candidates among finished runs, with their nodes. -/
def runCandidates (s : Keyspace) (before : Time) :
    List PipelineRun → Except GoError (List Candidate)
  | [] => .ok []
  | run :: rest =>
      match run.finishedAt with
      | none => runCandidates s before rest
      | some finished =>
          if finished < before then
            match listRunExecutions s run.id with
            | .error err => .error err
            | .ok nodes =>
                match runCandidates s before rest with
                | .error err => .error err
                | .ok candidates => .ok (.run finished run nodes :: candidates)
          else runCandidates s before rest

/-- A finished standalone execution that `Purge` may remove. -/
def executionCandidate (before : Time) (item : Execution) : Option Candidate :=
  match item.pipelineRunID, item.finishedAt with
  | none, some finished => if finished < before then some (.execution finished item) else none
  | _, _ => none

/-- The candidates among the executions with one of the statuses. -/
def executionCandidates (s : Keyspace) (before : Time) :
    List Status → Except GoError (List Candidate)
  | [] => .ok []
  | status :: rest =>
      match listExecutions s ⟨"", some status, none, 0, none⟩ with
      | .error err => .error err
      | .ok items =>
          match executionCandidates s before rest with
          | .error err => .error err
          | .ok candidates => .ok (items.filterMap (executionCandidate before) ++ candidates)

/-- The listing of `Purge`: the candidates, oldest first and cut at the limit. -/
def listPurge (s : Keyspace) (before : Time) (limit : Int) (order : RangeOrder Candidate) :
    Except GoError (List Candidate) :=
  match listPipelineRuns s ⟨[.succeeded, .failed, .cancelled], 0, none⟩ with
  | .error err => .error err
  | .ok runs =>
      match runCandidates s before runs with
      | .error err => .error err
      | .ok pipelines =>
          match executionCandidates s before [.succeeded, .failed, .cancelled] with
          | .error err => .error err
          | .ok executions =>
              .ok (((order.order (pipelines ++ executions)).insertionSort
                fun a b => a.finished ≤ b.finished).take (if limit ≤ 0 then 1000 else limit).toNat)

def purgeExecution (item : Execution) : List Command :=
  [.del item.id,
    .zRem executionsKey item.id,
    .zRem (taskIndexKey item.taskName) item.id,
    .zRem (statusKey item.status) item.id,
    .zRem (queueKey item.taskName) item.id,
    .zRem leasesKey item.id,
    .hIncrBy item.taskName item.status (-1)] ++
  (if item.idempotencyKey ≠ "" then [.delRef (idempotencyKey item.taskName item.idempotencyKey)]
  else []) ++
  match item.pipelineRunID with
  | some runID =>
      [.delRef (nodeKey runID item.nodeKey), .zRem (runExecutionsKey runID) item.id]
  | none => []

/-- The commands that remove a run. -/
def purgeRun (run : PipelineRun) : List Command :=
  [.delRun run.id,
    .zRem runsKey run.id,
    .zRem (runStatusKey run.status) run.id,
    .hIncrByRun run.pipelineName run.status (-1)] ++
  (if run.idempotencyKey ≠ "" then
    [.delRunRef (pipelineIdempotencyKey run.pipelineName run.idempotencyKey)]
  else [])

/-- The commands for one candidate. -/
def purgeCandidate : Candidate → List Command
  | .execution _ item => purgeExecution item
  | .run _ run nodes => nodes.flatMap purgeExecution ++ purgeRun run

/-- What `Purge` reports for its candidates. -/
def purgeResult (candidates : List Candidate) : PurgeResult where
  executions := (candidates.map fun candidate =>
    match candidate with
    | .execution _ _ => 1
    | .run _ _ nodes => nodes.length).sum
  pipelineRuns := candidates.countP fun candidate =>
    match candidate with
    | .execution _ _ => false
    | .run _ _ _ => true

/-- `Purge`, with its listing and its block as two steps. -/
def purge (before : Time) (limit : Int) (order : RangeOrder Candidate) :
    Op (Except GoError PurgeResult) :=
  .call (.other (.listPurge before limit order)) fun listed =>
    match listed with
    | .error err => .done (.error err)
    | .ok candidates => .call (.other (.execPurge candidates)) fun _ =>
        .done (.ok (purgeResult candidates))

/-! ## The server -/

/-- The keyspace together with the identifiers under which a record was ever written. -/
structure Server where
  keys : Keyspace
  used : List UUID

/-- The identifier whose execution record the command writes. -/
def Command.executionID : Command → Option UUID
  | .set id _ => some id
  | _ => none

/-- The identifier whose run record the command writes. -/
def Command.runID : Command → Option UUID
  | .hSet id _ => some id
  | _ => none

def Server.apply (s : Server) (c : Command) : Server where
  keys := s.keys.apply c
  used := s.used ++ c.executionID.toList ++ c.runID.toList

def Server.applyAll (s : Server) (commands : List Command) : Server :=
  commands.foldl Server.apply s

/-- Answer a call outside of transactions. -/
def Server.exec (s : Server) : (c : Query) → QueryReply c × Server
  | .getExecution id => (s.keys.executions.records.lookup id, s)
  | .getPipelineRun id => (s.keys.runs.records.lookup id, s)
  | .getRef key => (s.keys.executions.refs.lookup key, s)
  | .zRangeByScore key max count => (s.keys.zRangeByScore key max count, s)
  | .zRem key member => ((), s.apply (.zRem key member))
  | .listPurge before limit order => (Redis.listPurge s.keys before limit order, s)
  | .execPurge candidates => ((), s.applyAll (candidates.flatMap purgeCandidate))
  | .purge before limit order =>
      match Redis.listPurge s.keys before limit order with
      | .error err => (.error err, s)
      | .ok candidates =>
          (.ok (purgeResult candidates), s.applyAll (candidates.flatMap purgeCandidate))

/-- The server as a store with optimistic transactions. -/
def backend : Backend Server Watch Image Command Query QueryReply where
  view := fun w s => s.keys.view w
  apply := Server.apply
  exec := Server.exec

end Ody.Redis
