import Ody.Execution.Model
import Ody.Library.Tables

/-!
# Rows and statements of the PostgreSQL store

The rows of `task_executions` and the statements by which a worker reports the
outcome of a delivery, read as functions on rows. A transaction commits the
tables of its last statement or leaves them as they were.

## Implementation notes

A statement that computes `NULL` for a column declared `NOT NULL` fails. A
`JSONB` column holds the message that was written to it: its normalisation is
not modelled, and neither is the precision of `TIMESTAMPTZ`.
-/

namespace Ody.Postgres

open Library.Tables

/-- A row of `task_executions`; a nullable column is optional. The table checks that
`max_attempts` is positive. -/
structure Row where
  id : UUID
  taskName : String
  taskVersion : Int
  input : RawMessage
  output : Option RawMessage
  status : Status
  attempt : Int
  maxAttempts : Int
  availableAt : Time
  leaseOwner : String
  leaseToken : Option UUID
  leaseUntil : Option Time
  lastError : String
  idempotencyKey : Option String
  pipelineRunID : Option UUID
  nodeKey : String
  createdAt : Time
  startedAt : Option Time
  finishedAt : Option Time
  maxAttempts_pos : 0 < maxAttempts
  deriving DecidableEq, Repr

def scanExecution (row : Row) : Execution where
  id := row.id
  taskName := row.taskName
  taskVersion := row.taskVersion
  input := row.input
  output := row.output.getD ""
  status := row.status
  attempt := row.attempt
  maxAttempts := row.maxAttempts
  availableAt := row.availableAt
  leaseOwner := row.leaseOwner
  leaseToken := row.leaseToken.getD nilUUID
  leaseUntil := row.leaseUntil.getD zeroTime
  lastError := row.lastError
  idempotencyKey := row.idempotencyKey.getD ""
  pipelineRunID := row.pipelineRunID
  nodeKey := row.nodeKey
  createdAt := row.createdAt
  startedAt := row.startedAt
  finishedAt := row.finishedAt

/-- The tables that the outcome of a delivery changes. The identifier is the primary key. -/
structure Database where
  executions : Table UUID Row
  events : List Event
  executions_keyed : ∀ id row, executions.lookup id = some row → row.id = id

/-- The new version of a row. -/
def Database.put (db : Database) (row : Row) : Database :=
  { db with
    executions := db.executions.insert row.id row
    executions_keyed := by
      intro id stored hl
      rw [lookup_insert_ite] at hl
      split at hl
      · next hid =>
        cases hl
        exact hid.symm
      · exact db.executions_keyed id stored hl }

/-- The times that one call reads: `SELECT now()` before the transaction, `now()` in it and the
clock of the process. -/
structure Clock where
  selected : Time
  now : Time
  process : Time
  deriving DecidableEq, Repr

/-- All times of a call are one instant. -/
def Clock.at (now : Time) : Clock := ⟨now, now, now⟩

/-- The error `sql.ErrNoRows`. -/
def errNoRows : GoError := .text "sql: no rows in result set"

/-- The error of the server for a missing `available_at`. -/
def errNotNull : GoError :=
  .text ("null value in column \"available_at\" of relation \"task_executions\" " ++
    "violates not-null constraint")

/-- An `UPDATE ... WHERE id=$1 AND ... RETURNING` of one row. -/
def Database.update (db : Database) (id : UUID) (selected : Row → Bool) (set : Row → Option Row) :
    Except GoError (Execution × Database) :=
  match (db.executions.lookup id).filter selected with
  | none => .error errNoRows
  | some row =>
      match set row with
      | none => .error errNotNull
      | some row => .ok (scanExecution row, db.put row)

def insertEvent (clock : Clock) (db : Database) (item : Execution) (event : EventType)
    (text : String) : Database :=
  { db with events := db.events ++ [⟨item.id, event, item.attempt, text, clock.process⟩] }

/-- A transaction that is rolled back unless its body reaches the commit. -/
def inTransaction (db : Database) (body : Except GoError Database) :
    Except GoError Unit × Database :=
  match body with
  | .error err => (.error err, db)
  | .ok db => (.ok (), db)

/-- The `SET` list of the first statement of `transition`. -/
def setOutcome (clock : Clock) (status : Status) (text : String) (outputArg : Option RawMessage)
    (availableArg : Option Time) (row : Row) : Option Row :=
  (if status = .retry then availableArg else some row.availableAt).map fun availableAt =>
    { row with
      status := status
      lastError := text
      output := outputArg.or row.output
      leaseOwner := ""
      leaseToken := none
      leaseUntil := none
      finishedAt := if status.isTerminal then some clock.now else none
      availableAt := availableAt }

/-- The `SET` list of the second statement of `transition`. -/
def setExhausted (clock : Clock) (row : Row) : Row :=
  { row with status := .failed, finishedAt := some clock.now }

def transition (clock : Clock) (db : Database) (id token : UUID) (status : Status)
    (event : EventType) (text : String) (output : RawMessage) (available : Time) :
    Except GoError Unit × Database :=
  let outputArg := if output = "" then none else some output
  let availableArg := if available = zeroTime then none else some available
  inTransaction db
    (match db.update id (fun row => row.leaseToken == some token && row.status == .running)
        (setOutcome clock status text outputArg availableArg) with
    | .error err => .error (if err.is errNoRows then .leaseLost else err)
    | .ok (item, db) =>
        if item.maxAttempts ≤ item.attempt ∧ status = .retry then
          match db.update id (fun _ => true) (fun row => some (setExhausted clock row)) with
          | .error err => .error err
          | .ok (item, db) => .ok (insertEvent clock db item .failed text)
        else .ok (insertEvent clock db item event text))

def succeed (clock : Clock) (db : Database) (id token : UUID) (output : RawMessage) :
    Except GoError Unit × Database :=
  transition clock db id token .succeeded .succeeded "" output zeroTime

def retry (clock : Clock) (db : Database) (id token : UUID) (text : String) (delay : Duration) :
    Except GoError Unit × Database :=
  transition clock db id token .retry .retried text "" (clock.selected + delay)

def fail (clock : Clock) (db : Database) (id token : UUID) (text : String) :
    Except GoError Unit × Database :=
  transition clock db id token .failed .failed text "" zeroTime

/-! ## Transitions of a leased row -/

section Transition

variable {clock : Clock} {db : Database} {id token : UUID} {status : Status} {event : EventType}
  {text : String} {output : RawMessage} {available : Time} {row : Row}

theorem update_selected {selected : Row → Bool} {set : Row → Option Row} {row' : Row}
    (hl : db.executions.lookup id = some row) (hselected : selected row = true)
    (hset : set row = some row') :
    db.update id selected set = .ok (scanExecution row', db.put row') := by
  simp only [Database.update, hl, Option.filter_some, hselected, if_true, hset]

theorem update_notNull {selected : Row → Bool} {set : Row → Option Row}
    (hl : db.executions.lookup id = some row) (hselected : selected row = true)
    (hset : set row = none) : db.update id selected set = .error errNotNull := by
  simp only [Database.update, hl, Option.filter_some, hselected, if_true, hset]

theorem put_put {row' : Row} (hid : row'.id = row.id) : (db.put row).put row' = db.put row' := by
  simp only [Database.put, hid, AList.insert_insert]

theorem put_lookup : (db.put row).executions.lookup row.id = some row := AList.lookup_insert _

/-- The row is leased under the token. -/
structure Leased (db : Database) (id token : UUID) (row : Row) : Prop where
  stored : db.executions.lookup id = some row
  token_eq : row.leaseToken = some token
  running : row.status = .running

theorem Leased.selected (h : Leased db id token row) :
    (row.leaseToken == some token && row.status == .running) = true := by
  rw [h.token_eq, h.running, Bool.and_eq_true, beq_iff_eq, beq_iff_eq]
  exact ⟨rfl, rfl⟩

/-- The second statement finds the row that the first one wrote. -/
theorem update_written {row' : Row} {f : Row → Row} (h : db.executions.lookup id = some row)
    (hid : row'.id = row.id) (hf : (f row').id = row'.id) :
    (db.put row').update id (fun _ => true) (fun row => some (f row)) =
      .ok (scanExecution (f row'), db.put (f row')) := by
  have hl : (db.put row').executions.lookup id = some row' := by
    rw [← db.executions_keyed id row h, ← hid]
    exact put_lookup
  simp only [Database.update, hl, Option.filter_some, if_true, put_put hf]

/-- The row of an outcome other than a retry. -/
def finished (clock : Clock) (status : Status) (text : String) (output : RawMessage) (row : Row) :
    Row :=
  { row with
    status := status
    lastError := text
    output := if output = "" then row.output else some output
    leaseOwner := ""
    leaseToken := none
    leaseUntil := none
    finishedAt := if status.isTerminal then some clock.now else none }

/-- The row of a retry. -/
def delayed (text : String) (available : Time) (row : Row) : Row :=
  { row with
    status := .retry
    lastError := text
    leaseOwner := ""
    leaseToken := none
    leaseUntil := none
    finishedAt := none
    availableAt := available }

theorem transition_finished (h : Leased db id token row) (hstatus : status ≠ .retry) :
    transition clock db id token status event text output available =
      (.ok (), insertEvent clock (db.put (finished clock status text output row))
        (scanExecution (finished clock status text output row)) event text) := by
  have hset : setOutcome clock status text (if output = "" then none else some output)
      (if available = zeroTime then none else some available) row =
        some (finished clock status text output row) := by
    rw [setOutcome, if_neg hstatus, Option.map_some, finished]
    by_cases hout : output = "" <;> simp [hout]
  rw [transition, update_selected h.stored h.selected hset]
  simp only [hstatus, and_false, if_false]
  rfl

theorem transition_delayed (h : Leased db id token row) (havailable : available ≠ zeroTime)
    (hleft : row.attempt < row.maxAttempts) :
    transition clock db id token .retry event text "" available =
      (.ok (), insertEvent clock (db.put (delayed text available row))
        (scanExecution (delayed text available row)) event text) := by
  have hset : setOutcome clock .retry text none (some available) row =
      some (delayed text available row) := rfl
  have hnot : ¬(row.maxAttempts ≤ row.attempt) := not_le.mpr hleft
  simp only [transition, if_true, if_neg havailable]
  rw [update_selected h.stored h.selected hset]
  simp only [scanExecution, delayed, hnot, false_and, if_false]
  rfl

theorem transition_exhausted (h : Leased db id token row) (havailable : available ≠ zeroTime)
    (hlast : row.maxAttempts ≤ row.attempt) :
    transition clock db id token .retry event text "" available =
      (.ok (), insertEvent clock (db.put (setExhausted clock (delayed text available row)))
        (scanExecution (setExhausted clock (delayed text available row))) .failed text) := by
  have hset : setOutcome clock .retry text none (some available) row =
      some (delayed text available row) := rfl
  simp only [transition, if_true, if_neg havailable, and_true]
  rw [update_selected h.stored h.selected hset]
  have hcond : (scanExecution (delayed text available row)).maxAttempts ≤
      (scanExecution (delayed text available row)).attempt := hlast
  have hagain : (db.put (delayed text available row)).update id (fun _ => true)
      (fun row => some (setExhausted clock row)) =
        .ok (scanExecution (setExhausted clock (delayed text available row)),
          db.put (setExhausted clock (delayed text available row))) :=
    update_written h.stored rfl rfl
  simp only [hcond, if_true, hagain]
  rfl

theorem transition_lost (h : ∀ row, ¬Leased db id token row) :
    transition clock db id token status event text output available = (.error .leaseLost, db) := by
  have hnone : (db.executions.lookup id).filter
      (fun row => row.leaseToken == some token && row.status == .running) = none := by
    rw [Option.filter_eq_none_iff]
    intro row hl hselected
    rw [Bool.and_eq_true, beq_iff_eq, beq_iff_eq] at hselected
    exact h row ⟨hl, hselected.1, hselected.2⟩
  simp only [transition, Database.update, hnone]
  rfl

theorem transition_notNull (h : Leased db id token row) :
    transition clock db id token .retry event text "" zeroTime = (.error errNotNull, db) := by
  have hset : setOutcome clock .retry text none none row = none := rfl
  simp only [transition, if_true]
  rw [update_notNull h.stored h.selected hset]
  rfl

end Transition

end Ody.Postgres
