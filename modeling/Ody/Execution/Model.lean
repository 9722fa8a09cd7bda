import Mathlib.Data.List.AList
import Ody.Library.Tables

/-!
# Executions, pipeline runs and events

The persistent records of the execution package and the errors its stores
return. Times are nanoseconds counted from Go's zero `time.Time`, so the zero
time is `0`. Identifiers are opaque: only equality, `uuid.Nil` and the textual
order of `String` are used. A `json.RawMessage` is its text, and the empty text
stands for a nil message. Versions, attempts and revisions are unbounded numbers:
Go's `int` and the `uint64` of a revision would wrap, after 2^64 writes of a run.
-/

namespace Ody

/-- A `uuid.UUID`. -/
abbrev UUID := Nat

/-- The value `uuid.Nil`. -/
def nilUUID : UUID := 0

/-- The text that `UUID.String` returns. -/
def uuidString (id : UUID) : String := toString id

theorem uuidString_inj {a b : UUID} (h : uuidString a = uuidString b) : a = b := by
  have hdigits : Nat.toDigits 10 a = Nat.toDigits 10 b := by
    rw [uuidString, uuidString, Nat.toString_eq_ofList_toDigits,
      Nat.toString_eq_ofList_toDigits] at h
    exact String.ofList_injective h
  rw [← @Nat.ofDigitChars_ten_toDigits a, hdigits, Nat.ofDigitChars_ten_toDigits]

/-- A `time.Time` as an instant. -/
abbrev Time := Int

/-- The value `time.Time{}`. -/
def zeroTime : Time := 0

/-- A `time.Duration` in nanoseconds. -/
abbrev Duration := Int

/-- A `json.RawMessage`. -/
abbrev RawMessage := String

/-- The errors of the store and of the pipeline engine. -/
inductive GoError where
  | notFound
  | leaseLost
  | active
  | pipelineExecution
  | conflict
  | text (message : String)
  | wrapped (message : String) (inner : GoError)
  | joined (first second : GoError)
  deriving DecidableEq, Repr

/-- The text of `error.Error`. -/
def GoError.message : GoError → String
  | .notFound => "execution not found"
  | .leaseLost => "execution lease lost"
  | .active => "execution is active"
  | .pipelineExecution => "pipeline execution requires pipeline coordinator"
  | .conflict => "state revision conflict"
  | .text message => message
  | .wrapped message inner => message ++ ": " ++ inner.message
  | .joined first second => first.message ++ "\n" ++ second.message

/-- `errors.Is` for one of the sentinel errors. -/
def GoError.is : GoError → GoError → Bool
  | .wrapped _ inner, target => inner.is target
  | .joined first second, target => first.is target || second.is target
  | err, target => err == target

/-- The routing identity of a task handler. -/
structure TaskKey where
  name : String
  version : Int
  deriving DecidableEq, Repr

inductive Status where
  | pending
  | blocked
  | running
  | retry
  | succeeded
  | failed
  | cancelled
  deriving DecidableEq, Repr

/-- The stored text of a status. -/
def Status.text : Status → String
  | .pending => "pending"
  | .blocked => "blocked"
  | .running => "running"
  | .retry => "retry"
  | .succeeded => "succeeded"
  | .failed => "failed"
  | .cancelled => "cancelled"

theorem Status.text_injective : Function.Injective Status.text := by
  intro a b h
  cases a <;> cases b <;> first | rfl | exact absurd h (by decide)

/-- The statuses that the restart operations refuse to touch. -/
def Status.isActive (status : Status) : Bool :=
  status == .pending || status == .retry || status == .running

/-- The statuses of a resolved execution. -/
def Status.isTerminal (status : Status) : Bool :=
  status == .succeeded || status == .failed || status == .cancelled

/-- An execution is blocked, active or resolved. -/
theorem Status.trichotomy (status : Status) :
    status = .blocked ∨ status.isActive = true ∨ status.isTerminal = true := by
  cases status <;> decide

theorem Status.inactive_of_terminal {status : Status} (h : status.isTerminal = true) :
    status.isActive = false := by
  cases status <;> first | rfl | cases h

inductive RunStatus where
  | pending
  | running
  | succeeded
  | failed
  | cancelled
  deriving DecidableEq, Repr

/-- The stored text of a status. -/
def RunStatus.text : RunStatus → String
  | .pending => "pending"
  | .running => "running"
  | .succeeded => "succeeded"
  | .failed => "failed"
  | .cancelled => "cancelled"

theorem RunStatus.text_injective : Function.Injective RunStatus.text := by
  intro a b h
  cases a <;> cases b <;> first | rfl | exact absurd h (by decide)

/-- The statuses of a finished run. -/
def RunStatus.isTerminal (status : RunStatus) : Bool :=
  status == .succeeded || status == .failed || status == .cancelled

/-- One durable invocation of a task definition. -/
structure Execution where
  id : UUID
  taskName : String
  taskVersion : Int
  input : RawMessage
  output : RawMessage
  status : Status
  attempt : Int
  maxAttempts : Int
  availableAt : Time
  leaseOwner : String
  leaseToken : UUID
  leaseUntil : Time
  lastError : String
  idempotencyKey : String
  pipelineRunID : Option UUID
  nodeKey : String
  createdAt : Time
  startedAt : Option Time
  finishedAt : Option Time
  deriving DecidableEq, Repr

/-- The routing identity a worker must advertise to claim the execution. -/
def Execution.taskKey (item : Execution) : TaskKey := ⟨item.taskName, item.taskVersion⟩

/-- The request of `Store.CreateExecution`. -/
structure CreateExecution where
  taskName : String
  taskVersion : Int
  input : RawMessage
  maxAttempts : Int
  availableAt : Time
  idempotencyKey : String
  pipelineRunID : Option UUID
  nodeKey : String
  deriving DecidableEq, Repr

/-- The last item of a descending page. -/
structure Cursor where
  createdAt : Time
  id : UUID
  deriving DecidableEq, Repr

/-- The filter of `Store.ListExecutions`; an empty name and a missing status select everything. -/
structure ListFilter where
  taskName : String
  status : Option Status
  pipelineRunID : Option UUID
  limit : Int
  before : Option Cursor
  deriving DecidableEq, Repr

/-- The filter of `Store.ListPipelineRuns`. -/
structure RunFilter where
  statuses : List RunStatus
  limit : Int
  before : Option Cursor
  deriving DecidableEq, Repr

/-- One durable pipeline invocation. The revision counts the writes of the
record and is the token of the compare-and-set in `SetPipelineRunStatus`. -/
structure PipelineRun where
  id : UUID
  pipelineName : String
  pipelineVersion : Int
  input : RawMessage
  status : RunStatus
  error : String
  idempotencyKey : String
  revision : Nat
  createdAt : Time
  updatedAt : Time
  finishedAt : Option Time
  deriving DecidableEq, Repr

/-- The request of `Store.CreatePipelineRun`. -/
structure CreatePipelineRun where
  pipelineName : String
  pipelineVersion : Int
  input : RawMessage
  idempotencyKey : String
  deriving DecidableEq, Repr

/-- A pipeline restart: the root becomes pending, the descendants blocked. -/
structure RestartSubgraph where
  runID : UUID
  rootNodeKey : String
  descendantKeys : List String
  availableAt : Time
  deriving DecidableEq, Repr

inductive EventType where
  | created
  | started
  | retried
  | succeeded
  | failed
  | cancelled
  | restarted
  deriving DecidableEq, Repr

/-- One entry of the append-only history of an execution. -/
structure Event where
  executionID : UUID
  type : EventType
  attempt : Int
  error : String
  createdAt : Time
  deriving DecidableEq, Repr

/-- What `Store.Purge` removed. -/
structure PurgeResult where
  executions : Nat
  pipelineRuns : Nat
  deriving DecidableEq, Repr

/-- The key under which an execution is found by its idempotency key. -/
def idempotencyIndex (taskName idempotencyKey : String) : String :=
  taskName ++ "\x00" ++ idempotencyKey

end Ody
