import Ody.Execution.Calls
import Ody.Execution.Effects
import Ody.Postgres.Store

/-!
# Outcomes in the PostgreSQL store and in memory

A delivery that both stores hold is resolved in each of them. Failures agree.
A success in PostgreSQL clears the last error and keeps an earlier output when
there is no new one. A retry in PostgreSQL moves the available time before it
knows whether an attempt is left, and always clears the finish time.
-/

namespace Ody.Postgres

open Library.Tables
open Memory (Env MemoryStore Owned)

/-- What a worker reports about its delivery. -/
inductive Outcome where
  | succeed (output : RawMessage)
  | retry (errorText : String) (delay : Duration)
  | fail (errorText : String)
  deriving DecidableEq, Repr

def Outcome.onPostgres (clock : Clock) (db : Database) (id token : UUID) :
    Outcome → Except GoError Unit × Database
  | .succeed output => Postgres.succeed clock db id token output
  | .retry errorText delay => Postgres.retry clock db id token errorText delay
  | .fail errorText => Postgres.fail clock db id token errorText

def Outcome.onMemory (env : Env) (s : MemoryStore) (id token : UUID) :
    Outcome → Except GoError Unit × MemoryStore
  | .succeed output => Memory.succeed env s id token output
  | .retry errorText delay => Memory.retry env s id token errorText delay
  | .fail errorText => Memory.fail env s id token errorText

/-- The fields that an outcome decides. -/
structure SameOutcome (a b : Execution) : Prop where
  status : a.status = b.status
  attempt : a.attempt = b.attempt
  output : a.output = b.output
  lastError : a.lastError = b.lastError
  availableAt : a.availableAt = b.availableAt
  finishedAt : a.finishedAt = b.finishedAt
  leaseOwner : a.leaseOwner = b.leaseOwner
  leaseToken : a.leaseToken = b.leaseToken
  leaseUntil : a.leaseUntil = b.leaseUntil

/-- Events of one execution that differ at most in their time. -/
structure SameEvent (a b : Event) : Prop where
  executionID : a.executionID = b.executionID
  type : a.type = b.type
  attempt : a.attempt = b.attempt
  error : a.error = b.error

/-- Both calls return nil, store the same outcome and append the same event. -/
structure Agree (db : Database) (s : MemoryStore) (id : UUID)
    (postgres : Except GoError Unit × Database) (memory : Except GoError Unit × MemoryStore) :
    Prop where
  postgres_ok : postgres.1 = .ok ()
  memory_ok : memory.1 = .ok ()
  record : ∃ row item, postgres.2.executions.lookup id = some row ∧
    memory.2.executions.lookup id = some item ∧ SameOutcome (scanExecution row) item
  event : ∃ a b, postgres.2.events = db.events ++ [a] ∧
    memory.2.history id = s.history id ++ [b] ∧ SameEvent a b

/-- A running execution that both stores hold under one lease. -/
structure Held (db : Database) (s : MemoryStore) (id token : UUID) (row : Row)
    (item : Execution) : Prop where
  row_stored : db.executions.lookup id = some row
  item_stored : s.executions.lookup id = some item
  scanned : scanExecution row = item
  running : item.status = .running
  token_ne : token ≠ nilUUID
  token_eq : item.leaseToken = token

/-- What the record, the clock and the arguments must be for the stores to agree. -/
def Outcome.Portable (now : Time) (item : Execution) : Outcome → Prop
  | .succeed output => item.lastError = "" ∧ (output ≠ "" ∨ item.output = "")
  | .retry _ delay => now + delay ≠ zeroTime ∧
      (if item.attempt < item.maxAttempts then item.finishedAt = none
      else item.availableAt = now + delay)
  | .fail _ => True

section Delivery

variable {clock : Clock} {env : Env} {db : Database} {s : MemoryStore} {id token : UUID}
  {row : Row} {item : Execution}

theorem Held.leased (h : Held db s id token row item) : Leased db id token row where
  stored := h.row_stored
  token_eq := by
    have htoken : row.leaseToken.getD nilUUID = token :=
      (congrArg Execution.leaseToken h.scanned).trans h.token_eq
    cases hrow : row.leaseToken with
    | none =>
        rw [hrow] at htoken
        exact absurd htoken.symm h.token_ne
    | some stored =>
        rw [hrow] at htoken
        exact congrArg some htoken
  running := (congrArg Execution.status h.scanned).trans h.running

theorem Held.owned (h : Held db s id token row item) : Memory.owned s id token = .ok item :=
  Memory.owned_eq_ok h.item_stored ⟨h.running, h.token_ne, h.token_eq⟩

theorem Held.id_eq (h : Held db s id token row item) : item.id = id :=
  s.executions_keyed id item h.item_stored

/-- Two calls that save a record agree when the records and their events do. -/
theorem agree_saved {row' : Row} {item' : Execution} {a b : EventType} {text text' : String}
    (h : Held db s id token row item) (hrow : row'.id = row.id) (hitem : item'.id = item.id) :
    Agree db s id
      (.ok (), insertEvent clock (db.put row') (scanExecution row') a text)
      (.ok (), (s.put item').appendEvent env item' b text') ↔
      SameOutcome (scanExecution row') item' ∧ a = b ∧ text = text' := by
  rw [db.executions_keyed id row h.row_stored] at hrow
  rw [h.id_eq] at hitem
  have hput : (insertEvent clock (db.put row') (scanExecution row') a text).executions.lookup id =
      some row' := hrow ▸ put_lookup
  have hlookup : ((s.put item').appendEvent env item' b text').executions.lookup id =
      some item' := by
    rw [Memory.appendEvent_executions, Memory.put_lookup, if_pos hitem.symm]
  have hhistory : ((s.put item').appendEvent env item' b text').history id =
      s.history id ++ [Memory.event env item' b text'] := by
    rw [Memory.history_appendEvent, if_pos hitem.symm, Memory.put_history]
  constructor
  · rintro ⟨-, -, ⟨stored, saved, hstored, hsaved, hsame⟩, left, right, hleft, hright, hevent⟩
    cases hput.symm.trans hstored
    cases hlookup.symm.trans hsaved
    cases List.append_cancel_left hleft
    cases List.append_cancel_left (hhistory.symm.trans hright)
    exact ⟨hsame, hevent.type, hevent.error⟩
  · rintro ⟨hsame, rfl, rfl⟩
    refine ⟨rfl, rfl, ⟨row', item', hput, hlookup, hsame⟩, _, _, rfl, hhistory, ?_⟩
    exact ⟨hrow.trans hitem.symm, rfl, hsame.attempt, rfl⟩

theorem agree_fail (env : Env) (h : Held db s id token row item) (errorText : String) :
    Agree db s id (fail (.at env.now) db id token errorText)
      (Memory.fail env s id token errorText) := by
  simp only [fail, Memory.fail, h.owned]
  rw [transition_finished h.leased (by decide)]
  refine (agree_saved h (by rfl) (by rfl)).mpr ?_
  rw [← h.scanned]
  exact ⟨⟨rfl, rfl, rfl, rfl, rfl, rfl, rfl, rfl, rfl⟩, rfl, rfl⟩

theorem agree_succeed (env : Env) (h : Held db s id token row item) (output : RawMessage) :
    Agree db s id (succeed (.at env.now) db id token output)
      (Memory.succeed env s id token output) ↔
        item.lastError = "" ∧ (output ≠ "" ∨ item.output = "") := by
  simp only [succeed, Memory.succeed, h.owned]
  rw [transition_finished h.leased (by decide)]
  refine (agree_saved h (by rfl) (by rfl)).trans ?_
  rw [← h.scanned]
  -- the fields that the two stores treat differently are the last error and the output
  have houtput : (scanExecution (finished (.at env.now) .succeeded "" output row)).output =
      output ↔ output ≠ "" ∨ (scanExecution row).output = "" := by
    by_cases hempty : output = "" <;> simp [scanExecution, finished, hempty]
  constructor
  · rintro ⟨hsame, -, -⟩
    exact ⟨hsame.lastError.symm, houtput.mp hsame.output⟩
  · rintro ⟨herror, hout⟩
    exact ⟨⟨rfl, rfl, houtput.mpr hout, herror.symm, rfl, rfl, rfl, rfl, rfl⟩, rfl, rfl⟩

theorem agree_retry (env : Env) (h : Held db s id token row item) (errorText : String)
    (delay : Duration) :
    Agree db s id (retry (.at env.now) db id token errorText delay)
      (Memory.retry env s id token errorText delay) ↔
        env.now + delay ≠ zeroTime ∧
          (if item.attempt < item.maxAttempts then item.finishedAt = none
          else item.availableAt = env.now + delay) := by
  have hselected : (Clock.at env.now).selected + delay = env.now + delay := rfl
  simp only [retry, Memory.retry, h.owned, hselected]
  by_cases hzero : env.now + delay = zeroTime
  · rw [hzero, transition_notNull h.leased]
    constructor
    · intro hagree
      cases hagree.postgres_ok
    · intro hcondition
      exact absurd rfl hcondition.1
  by_cases hleft : item.attempt < item.maxAttempts
  · have hrowLeft : row.attempt < row.maxAttempts := by
      rw [← h.scanned] at hleft
      exact hleft
    rw [if_neg (not_le.mpr hleft), if_pos hleft, transition_delayed h.leased hzero hrowLeft]
    refine (agree_saved h (by rfl) (by rfl)).trans ?_
    rw [← h.scanned]
    constructor
    · rintro ⟨hsame, -, -⟩
      exact ⟨hzero, hsame.finishedAt.symm⟩
    · rintro ⟨-, hfinished⟩
      exact ⟨⟨rfl, rfl, rfl, rfl, rfl, hfinished.symm, rfl, rfl, rfl⟩, rfl, rfl⟩
  · have hrowLast : row.maxAttempts ≤ row.attempt := by
      rw [← h.scanned] at hleft
      exact not_lt.mp hleft
    rw [if_pos (not_lt.mp hleft), if_neg hleft, transition_exhausted h.leased hzero hrowLast]
    refine (agree_saved h (by rfl) (by rfl)).trans ?_
    rw [← h.scanned]
    constructor
    · rintro ⟨hsame, -, -⟩
      exact ⟨hzero, hsame.availableAt.symm⟩
    · rintro ⟨-, havailable⟩
      exact ⟨⟨rfl, rfl, rfl, rfl, havailable.symm, rfl, rfl, rfl, rfl⟩, rfl, rfl⟩

/-- The stores agree on an outcome exactly when it is portable. -/
theorem outcome_agrees_iff (env : Env) (h : Held db s id token row item) (outcome : Outcome) :
    Agree db s id (outcome.onPostgres (.at env.now) db id token)
      (outcome.onMemory env s id token) ↔ outcome.Portable env.now item := by
  cases outcome with
  | succeed output => exact agree_succeed env h output
  | retry errorText delay => exact agree_retry env h errorText delay
  | fail errorText => exact iff_of_true (agree_fail env h errorText) trivial

/-- An outcome without the lease fails in both stores and changes neither. -/
theorem outcome_refused (hdb : ∀ row, ¬Leased db id token row)
    (hs : ∀ item, s.executions.lookup id = some item → ¬Owned item token) (outcome : Outcome) :
    outcome.onPostgres clock db id token = (.error .leaseLost, db) ∧
      (outcome.onMemory env s id token).1 ≠ .ok () ∧ (outcome.onMemory env s id token).2 = s := by
  constructor
  · cases outcome <;> exact transition_lost hdb
  cases howned : Memory.owned s id token with
  | ok item =>
      obtain ⟨hl, -, hitem⟩ := Memory.owned_ok howned
      exact absurd hitem (hs item hl)
  | error err =>
      cases outcome <;>
        simp [Outcome.onMemory, Memory.succeed, Memory.retry, Memory.fail, howned]

end Delivery

/-! ## A second delivery -/

/-- The second and last delivery of an execution whose first one was retried with an error. -/
def redelivered : Row where
  id := 1
  taskName := "email"
  taskVersion := 1
  input := "1"
  output := none
  status := .running
  attempt := 2
  maxAttempts := 2
  availableAt := 20
  leaseOwner := "worker"
  leaseToken := some 9
  leaseUntil := some 40
  lastError := "timeout"
  idempotencyKey := none
  pipelineRunID := none
  nodeKey := ""
  createdAt := 5
  startedAt := some 6
  finishedAt := none
  maxAttempts_pos := by decide

def redeliveredDatabase : Database :=
  Database.put ⟨∅, [], by simp⟩ redelivered

def redeliveredStore : MemoryStore :=
  Memory.newMemoryStore.put (scanExecution redelivered)

theorem held_redelivered :
    Held redeliveredDatabase redeliveredStore 1 9 redelivered (scanExecution redelivered) :=
  ⟨by decide, by decide, rfl, rfl, by decide, rfl⟩

theorem outcome_agrees_of_redelivered :
    Held redeliveredDatabase redeliveredStore 1 9 redelivered (scanExecution redelivered) ∧
      Agree redeliveredDatabase redeliveredStore 1
        ((Outcome.fail "timeout").onPostgres (.at 30) redeliveredDatabase 1 9)
        ((Outcome.fail "timeout").onMemory (.at 30 100) redeliveredStore 1 9) ∧
      ¬Agree redeliveredDatabase redeliveredStore 1
        ((Outcome.retry "timeout" 10).onPostgres (.at 30) redeliveredDatabase 1 9)
        ((Outcome.retry "timeout" 10).onMemory (.at 30 100) redeliveredStore 1 9) := by
  refine ⟨held_redelivered, ?_, ?_⟩
  · exact (outcome_agrees_iff (.at 30 100) held_redelivered (.fail "timeout")).mpr trivial
  · intro hagree
    have hportable :=
      (outcome_agrees_iff (.at 30 100) held_redelivered (.retry "timeout" 10)).mp hagree
    exact absurd hportable.2 (by decide)

/-- A success after a retry: PostgreSQL clears the last error, the store in memory keeps it. -/
theorem last_error_of_success :
    Held redeliveredDatabase redeliveredStore 1 9 redelivered (scanExecution redelivered) ∧
      ¬Agree redeliveredDatabase redeliveredStore 1
        ((Outcome.succeed "7").onPostgres (.at 30) redeliveredDatabase 1 9)
        ((Outcome.succeed "7").onMemory (.at 30 100) redeliveredStore 1 9) := by
  refine ⟨held_redelivered, ?_⟩
  intro hagree
  have hcondition := (agree_succeed (.at 30 100) held_redelivered "7").mp hagree
  exact absurd hcondition.1 (by decide)

end Ody.Postgres
