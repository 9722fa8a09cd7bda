import Ody.Execution.Pages
import Ody.Library.Placeholders
import Ody.Postgres.Store
import Ody.Task.Definition

/-!
# Generated statements of the PostgreSQL store

Three methods of the store number the placeholders of a statement while they
append its arguments: `Claim` for the task keys of a worker, `ListExecutions` for
the fields of a filter, `RestartPipelineSubgraph` for the nodes of a subgraph. The
conditions are those of the source, and their texts are the texts that the source
formats.

## Implementation notes

A statement is refused if a comparison has different types on its two sides, so a
placeholder that is off by one does not go unnoticed. The order of `UUID` values is
the order of their texts.
-/

namespace Ody.Postgres

open Library.Tables Library.Placeholders

/-! ## Columns and values -/

/-- The columns of `task_executions` that the generated conditions name. -/
inductive Column where
  | id
  | taskName
  | taskVersion
  | status
  | pipelineRunID
  | nodeKey
  | createdAt
  deriving DecidableEq, Repr

def Column.name : Column → String
  | .id => "id"
  | .taskName => "task_name"
  | .taskVersion => "task_version"
  | .status => "status"
  | .pipelineRunID => "pipeline_run_id"
  | .nodeKey => "node_key"
  | .createdAt => "created_at"

/-- A value of a column or an argument. -/
inductive Value where
  | text (value : String)
  | integer (value : Int)
  | uuid (value : UUID)
  | timestamp (value : Time)
  deriving DecidableEq, Repr

/-- The comparison of two values of one type. -/
def Value.order : Value → Value → Option Ordering
  | .text a, .text b => some (compare a b)
  | .integer a, .integer b => some (compare a b)
  | .uuid a, .uuid b => some (compare a b)
  | .timestamp a, .timestamp b => some (compare a b)
  | _, _ => none

/-- The value of a column; a missing one is `NULL`. -/
def Row.value (row : Row) : Column → Option Value
  | .id => some (.uuid row.id)
  | .taskName => some (.text row.taskName)
  | .taskVersion => some (.integer row.taskVersion)
  | .status => some (.text row.status.text)
  | .pipelineRunID => row.pipelineRunID.map .uuid
  | .nodeKey => some (.text row.nodeKey)
  | .createdAt => some (.timestamp row.createdAt)

/-- The truth of a condition for a row. -/
abbrev Row.test (row : Row) (args : List Value) (condition : Condition Column) : Option Truth :=
  condition.eval Value.order row.value args

def executionColumns : String :=
  "id, task_name, task_version, input, output, status, attempt, max_attempts,\n" ++
  "available_at, lease_owner, lease_token, lease_until, last_error, idempotency_key,\n" ++
  "pipeline_run_id, node_key, created_at, started_at, finished_at"

def prefixedColumns (table : String) : String :=
  joinTexts "," ((executionColumns.toList.splitOn ',').map fun part =>
    table ++ "." ++ trimSpace (String.ofList part))

/-! ## Claim -/

/-- The statement of `Claim`. -/
structure ClaimQuery where
  routing : List (List (Condition Column))
  limitParam : Nat
  ownerParam : Nat
  leaseParam : Nat
  args : List Value

/-- `Duration.Milliseconds`. -/
def milliseconds (duration : Duration) : Int := duration.tdiv 1000000

/-- One round of the loop over the task keys. -/
def route (acc : List (List (Condition Column)) × List Value) (key : TaskKey) :
    List (List (Condition Column)) × List Value :=
  (acc.1 ++ [[.equal .taskName (acc.2.length + 1), .equal .taskVersion (acc.2.length + 2)]],
    acc.2 ++ [.text key.name, .integer key.version])

/-- The statement and its arguments; without keys there is none. -/
def claimQuery (owner : String) (keys : List TaskKey) (limit : Int) (lease : Duration) :
    Option ClaimQuery :=
  let limit := if limit ≤ 0 then 1 else limit
  if keys = [] then none
  else
    let (routing, args) := keys.foldl route ([], [])
    some
      { routing := routing
        limitParam := args.length + 1
        ownerParam := args.length + 2
        leaseParam := args.length + 3
        args := args ++ [.integer limit, .text owner, .integer (milliseconds lease)] }

def ClaimQuery.fragments (q : ClaimQuery) : List (Fragment Column) :=
  [.text "WITH candidates AS (\n        SELECT id FROM task_executions\n        WHERE (",
    .any q.routing,
    .text ") AND available_at <= now()\n",
    .text "          AND ((status IN ('pending','retry')) OR ",
    .text "(status='running' AND lease_until <= now()))\n",
    .text "          AND attempt < max_attempts\n",
    .text "\t\tORDER BY available_at,created_at FOR UPDATE SKIP LOCKED LIMIT ",
    .param q.limitParam,
    .text ")\n\t  UPDATE task_executions e SET status='running', attempt=e.attempt+1, lease_owner=",
    .param q.ownerParam,
    .text ",\n\t\tlease_token=gen_random_uuid(), lease_until=now()+(",
    .param q.leaseParam,
    .text "*interval '1 millisecond'), started_at=COALESCE(started_at,now())\n",
    .text "\t  FROM candidates c WHERE e.id=c.id RETURNING ",
    .text (prefixedColumns "e")]

/-- The routing condition for a row. -/
def ClaimQuery.routes (q : ClaimQuery) (row : Row) : Option Truth :=
  disjunction Value.order row.value q.args q.routing

/-! ## ListExecutions -/

/-- The statement of `ListExecutions`. -/
structure ListQuery where
  conditions : List (Condition Column)
  limitParam : Option Nat
  args : List Value

/-- A condition for an optional field. -/
def withEqual (column : Column) (value : Option Value)
    (acc : List (Condition Column) × List Value) : List (Condition Column) × List Value :=
  match value with
  | none => acc
  | some value =>
      let args := acc.2 ++ [value]
      (acc.1 ++ [.equal column args.length], args)

/-- The condition for the cursor. -/
def withCursor (before : Option Cursor) (acc : List (Condition Column) × List Value) :
    List (Condition Column) × List Value :=
  match before with
  | none => acc
  | some cursor =>
      let args := acc.2 ++ [.timestamp cursor.createdAt, .uuid cursor.id]
      (acc.1 ++ [.before (.createdAt, .id) (args.length - 1, args.length)], args)

/-- The `WHERE` clause and its arguments. -/
def listConditions (filter : ListFilter) : List (Condition Column) × List Value :=
  let acc := ([.always], [])
  let acc := withEqual .taskName
    (if filter.taskName = "" then none else some (.text filter.taskName)) acc
  let acc := withEqual .status (filter.status.map fun status => .text status.text) acc
  let acc := withEqual .pipelineRunID (filter.pipelineRunID.map .uuid) acc
  withCursor filter.before acc

def listQuery (filter : ListFilter) : ListQuery :=
  let (conditions, args) := listConditions filter
  if 0 < filter.limit then
    let args := args ++ [.integer filter.limit]
    ⟨conditions, some args.length, args⟩
  else ⟨conditions, none, args⟩

def ListQuery.fragments (q : ListQuery) : List (Fragment Column) :=
  [.text "SELECT ", .text executionColumns, .text " FROM task_executions WHERE ", .all q.conditions,
    .text " ORDER BY created_at DESC,id DESC"] ++
  match q.limitParam with
  | none => []
  | some n => [.text " LIMIT ", .param n]

/-- The `WHERE` clause for a row. -/
def ListQuery.selects (q : ListQuery) (row : Row) : Option Truth :=
  conjunction Value.order row.value q.args q.conditions

/-- The cut of the statement; it is refused if its placeholder is not a number. -/
def ListQuery.cut (q : ListQuery) (rows : List Row) : Option (List Row) :=
  match q.limitParam with
  | none => some rows
  | some n =>
      match denoted q.args n with
      | some (.integer limit) => some (rows.take limit.toNat)
      | _ => none

/-- The selected rows in the order `created_at DESC,id DESC`, cut by the limit. The server reads the
table in any order. -/
def listExecutions (order : RangeOrder (Entry UUID Row)) (db : Database) (filter : ListFilter) :
    Option (List Execution) :=
  let q := listQuery filter
  let rows := ((range order db.executions).map (·.2)).filter fun row => q.selects row = some .holds
  let sorted := rows.insertionSort fun a b =>
    Memory.newer b.createdAt b.id a.createdAt a.id = false
  (q.cut sorted).map (List.map scanExecution)

/-! ## RestartPipelineSubgraph -/

/-- The statements of `RestartPipelineSubgraph`. -/
structure RestartQuery where
  keyParams : List Nat
  availableParam : Nat
  args : List Value

/-- One round of the loop over the node keys. -/
def addKey (acc : List Nat × List Value) (key : String) : List Nat × List Value :=
  let args := acc.2 ++ [.text key]
  (acc.1 ++ [args.length], args)

/-- The statements and their arguments; the zero time stands for the clock of the process. -/
def restartQuery (now : Time) (request : RestartSubgraph) : RestartQuery :=
  let availableAt := if request.availableAt = zeroTime then now else request.availableAt
  let keys := request.rootNodeKey :: request.descendantKeys
  let (placeholders, args) := keys.foldl addKey ([], [.uuid request.runID])
  ⟨placeholders, args.length + 1, args ++ [.timestamp availableAt]⟩

/-- The `WHERE` clause of both statements. -/
def RestartQuery.conditions (q : RestartQuery) : List (Condition Column) :=
  [.equal .pipelineRunID 1, .oneOf .nodeKey q.keyParams]

def RestartQuery.selectFragments (q : RestartQuery) : List (Fragment Column) :=
  [.text "SELECT ", .text executionColumns, .text " FROM task_executions WHERE ", .all q.conditions,
    .text " FOR UPDATE"]

def RestartQuery.updateFragments (q : RestartQuery) : List (Fragment Column) :=
  [.text "UPDATE task_executions SET\n\t\tstatus=CASE WHEN ",
    .all [.equal .nodeKey 2],
    .text " THEN 'pending' ELSE 'blocked' END,\n\t\tattempt=0,available_at=",
    .param q.availableParam,
    .text ",output=NULL,last_error='',started_at=NULL,finished_at=NULL,\n",
    .text "\t\tlease_owner='',lease_token=NULL,lease_until=NULL\n\t\tWHERE ",
    .all q.conditions,
    .text " RETURNING ",
    .text executionColumns]

/-- The arguments of the first statement. -/
def RestartQuery.selectArgs (q : RestartQuery) : List Value := q.args.take (q.args.length - 1)

/-- The `WHERE` clause for a row, with the arguments of one of the statements. -/
def RestartQuery.selects (q : RestartQuery) (args : List Value) (row : Row) : Option Truth :=
  conjunction Value.order row.value args q.conditions

/-- The `SET` list of the second statement. -/
def RestartQuery.set (q : RestartQuery) (row : Row) : Option Row :=
  match denoted q.args q.availableParam, row.test q.args (.equal .nodeKey 2) with
  | some (.timestamp availableAt), some isRoot =>
      some { row with
        status := if isRoot = .holds then .pending else .blocked
        attempt := 0
        availableAt := availableAt
        output := none
        lastError := ""
        startedAt := none
        finishedAt := none
        leaseOwner := ""
        leaseToken := none
        leaseUntil := none }
  | _, _ => none

end Ody.Postgres
