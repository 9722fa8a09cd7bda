import Ody.Redis.Store

/-!
# The lists of the Redis store, command by command

A list of the store reads a sorted set and then one record after the other, and
other clients may write between any two of these commands. `Store` has the same
lists as one read of the keyspace.

## Implementation notes

`ListPipelineRuns` collects its identifiers in a map and reads the records in the
order of that map. The order is a parameter.
-/

namespace Ody.Redis

open Library.Tables Library.Interleaving Library.Optimistic

/-- The commands that only lists use. -/
inductive Read where
  | zRange (key : ZKey)
  | zRevRange (key : ZKey)
  | lRange (id : UUID)
  deriving DecidableEq, Repr

@[reducible] def ReadReply : Read → Type
  | .zRange _ => List UUID
  | .zRevRange _ => List UUID
  | .lRange _ => List Event

def Server.read (s : Server) : (c : Read) → ReadReply c
  | .zRange key => s.keys.zRange key
  | .zRevRange key => s.keys.zRevRange key
  | .lRange id => s.keys.history id

/-- The server with the commands of lists. -/
def reader : Backend Server Watch Image Command (Query ⊕ Read) (Sum.elim QueryReply ReadReply) :=
  backend.withReads Server.read

/-- A client that also lists. -/
abbrev Session (α : Type) := TxProgram Watch Image Command (Sum.elim QueryReply ReadReply) α

namespace Session

/-- One of the commands of lists. -/
def read {α : Type} (c : Read) (next : ReadReply c → Session α) : Session α :=
  .call (.other (.inr c)) next

/-- Read the records of listed executions. -/
def getExecutions : List UUID → Session (Except GoError (List Execution))
  | [] => .done (.ok [])
  | id :: rest => (lift (getExecution id)).bind fun
      | .error err => .done (.error err)
      | .ok item => (getExecutions rest).bind fun
          | .error err => .done (.error err)
          | .ok items => .done (.ok (item :: items))

def listRunExecutions (runID : UUID) : Session (Except GoError (List Execution)) :=
  read (.zRange (runExecutionsKey runID)) getExecutions

/-- The loop of `ListExecutions`, which stops at the limit. -/
def listLoop (filter : ListFilter) :
    List UUID → List Execution → Session (Except GoError (List Execution))
  | [], items => .done (.ok items)
  | id :: rest, items => (lift (getExecution id)).bind fun
      | .error err => .done (.error err)
      | .ok item =>
          if matchesExecutionFilter item filter then
            if 0 < filter.limit ∧ ((items ++ [item]).length : Int) = filter.limit then
              .done (.ok (items ++ [item]))
            else listLoop filter rest (items ++ [item])
          else listLoop filter rest items

def listExecutions (filter : ListFilter) : Session (Except GoError (List Execution)) :=
  read (.zRevRange (executionIndexFor filter)) fun ids => listLoop filter ids []

/-- The loop of `pipelineIDs` over its sorted sets. -/
def collectIDs : List ZKey → List UUID → Session (List UUID)
  | [], ids => .done ids
  | key :: rest, ids => read (.zRevRange key) fun values => collectIDs rest (ids ++ values)

def pipelineIDs (statuses : List RunStatus) : Session (List UUID) :=
  (collectIDs (if statuses.isEmpty then [runsKey] else statuses.map runStatusKey) []).bind fun ids =>
    .done ids.dedup

/-- Read the records of collected runs. -/
def getRuns : List UUID → Session (Except GoError (List PipelineRun))
  | [] => .done (.ok [])
  | id :: rest => (lift (getPipelineRun id)).bind fun
      | .error err => .done (.error err)
      | .ok run => (getRuns rest).bind fun
          | .error err => .done (.error err)
          | .ok runs => .done (.ok (run :: runs))

def listPipelineRuns (order : RangeOrder UUID) (filter : RunFilter) :
    Session (Except GoError (List PipelineRun)) :=
  (pipelineIDs filter.statuses).bind fun ids =>
    (getRuns (order.order ids)).bind fun
      | .error err => .done (.error err)
      | .ok runs => .done (.ok (Memory.page filter.limit ((runs.filter fun run =>
          filter.before.all fun cursor =>
            Memory.beforeCursor run.createdAt run.id cursor).insertionSort
          fun a b => Memory.newer b.createdAt b.id a.createdAt a.id = false)))

def events (id : UUID) : Session (Except GoError (List Event)) :=
  (lift (getExecution id)).bind fun
    | .error err => .done (.error err)
    | .ok _ => read (.lRange id) fun values => .done (.ok values)

end Session

end Ody.Redis
