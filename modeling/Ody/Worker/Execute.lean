import Ody.Execution.LeaseFencing
import Ody.Library.Interleaving
import Ody.Task.Definition

/-!
# The execution of one delivery

`execute` starts the handler and waits in a `select` until the worker is
cancelled, the handler's context is done, the handler has returned, or the lease
must be extended. The handler, the contexts, the clock and the other clients of
the store move on their own, so a run is a sequence of turns in any order, and
`select` takes any case that is ready.

## Implementation notes

A handler is an unknown program: it may return any result at any time. Its error
is what the worker asks of it: the text, `IsPermanent` and `RetryDelay`. The
store ignores contexts. The cancellation of the worker's context reaches the
handler's context in a turn of its own.
-/

namespace Ody

open Library.Interleaving Memory

namespace Worker

/-! ## Resolution -/

/-- `context.Canceled` and `context.DeadlineExceeded`. -/
inductive ContextError where
  | canceled
  | deadlineExceeded
  deriving DecidableEq, Repr

/-- An error of a handler as the worker sees it. -/
structure HandlerError where
  message : String
  permanent : Bool
  retryAfter : Option Duration
  deriving DecidableEq, Repr

def ContextError.handlerError : ContextError → HandlerError
  | .canceled => ⟨"context canceled", false, none⟩
  | .deadlineExceeded => ⟨"context deadline exceeded", false, none⟩

/-- What a handler returns. -/
structure Result where
  output : RawMessage
  err : Option HandlerError
  deriving DecidableEq, Repr

/-- The operations of the worker that report errors of their own. -/
inductive Operation where
  | advance
  | reload
  deriving DecidableEq, Repr

/-- An error that the observer is told. -/
inductive ReportedError where
  | store (err : GoError)
  | handler (err : HandlerError)
  deriving DecidableEq, Repr

/-- A call of the observer. -/
inductive Report where
  | transition (item : Execution) (status : Status) (err : Option ReportedError)
  | infrastructureError (operation : Operation) (err : GoError)
  deriving DecidableEq, Repr

/-- What `Registry.Policy` returns for a registered task. -/
structure Policy where
  timeout : Duration
  retry : Task.RetryPolicy

end Worker

structure Worker where
  leaseDuration : Duration
  policy : String → Int → Option Worker.Policy
  advancer : Option (UUID → Program Call Reply (Except GoError Unit))

namespace Worker

/-- The policy of the delivered execution; none if its task is not registered. -/
def policyOf (w : Worker) (item : Execution) : Option Policy :=
  w.policy item.taskName item.taskVersion

/-- Store calls followed by calls of the observer. -/
abbrev Resolution := Program Call Reply (List Report)

def report (first : Report) (rest : Resolution) : Resolution :=
  rest.bind fun reports => .done (first :: reports)

def advance (w : Worker) (item : Execution) : Resolution :=
  match w.advancer, item.pipelineRunID with
  | some advancer, some runID =>
      (advancer runID).bind fun
        | .ok () => .done []
        | .error err => .done [.infrastructureError .advance err]
  | _, _ => .done []

/-- The branch of `resolve` for a permanent error or an unregistered task. -/
def resolveFailed (w : Worker) (item : Execution) (handlerErr : HandlerError) : Resolution :=
  .call (.fail item.id item.leaseToken handlerErr.message) fun
    | .error err => .done [.transition item .running (some (.store err))]
    | .ok () => report (.transition item .failed (some (.handler handlerErr))) (advance w item)

/-- The branch of `resolve` for an error that may be retried. -/
def resolveRetry (w : Worker) (item : Execution) (handlerErr : HandlerError) (delay : Duration) :
    Resolution :=
  .call (.retry item.id item.leaseToken handlerErr.message delay) fun
    | .error err => .done [.transition item .running (some (.store err))]
    | .ok () =>
        .call (.getExecution item.id) fun
          | .error err => .done [.infrastructureError .reload err,
              .transition item .retry (some (.handler handlerErr))]
          | .ok updated =>
              report (.transition updated updated.status (some (.handler handlerErr)))
                (if updated.status = .failed then advance w updated else .done [])

def resolve (w : Worker) (item : Execution) (output : RawMessage)
    (handlerErr : Option HandlerError) : Resolution :=
  match handlerErr with
  | none =>
      .call (.succeed item.id item.leaseToken output) fun
        | .error err => .done [.transition item .running (some (.store err))]
        | .ok () => report (.transition item .succeeded none) (advance w item)
  | some err =>
      match w.policyOf item with
      | none => resolveFailed w item err
      | some policy =>
          if err.permanent then resolveFailed w item err
          else resolveRetry w item err (err.retryAfter.getD (policy.retry item.attempt))

/-! ## The loop -/

/-- Where `execute` is. -/
inductive Phase where
  | selecting
  | resolving (rest : Resolution)
  | finished (reports : List Report)

/-- A delivery: the store, `workerCtx.Done()`, `handlerCtx.Err()`, what the handler has sent to
`resultCh`, where `execute` is and which calls of the store it has made. -/
structure State where
  store : MemoryStore
  workerDone : Bool
  handlerErr : Option ContextError
  returned : Option Result
  phase : Phase
  calls : List Call

/-- `execute` has just started the handler. -/
def State.start (s : MemoryStore) : State := ⟨s, false, none, none, .selecting, []⟩

/-- `execute` returns; the deferred `cancel` ends the handler's context. -/
def State.finish (σ : State) (reports : List Report) : State :=
  { σ with
    phase := .finished reports
    handlerErr := σ.handlerErr.or (some .canceled) }

/-- The cases of the `select`. -/
inductive Case where
  | workerDone
  | handlerDone
  | result
  | tick (env : Env)

/-- Take a case of the `select` if it is ready. -/
def select (w : Worker) (item : Execution) (σ : State) : Case → Option State
  | .workerDone => if σ.workerDone then some (σ.finish []) else none
  | .handlerDone => σ.handlerErr.map fun err =>
      { σ with phase := .resolving (resolve w item "" (some err.handlerError)) }
  | .result => σ.returned.map fun value =>
      { σ with phase := .resolving (resolve w item value.output value.err) }
  | .tick env =>
      let reply := heartbeat env σ.store item.id item.leaseToken w.leaseDuration
      let σ := { σ with
        store := reply.2
        calls := σ.calls ++ [.heartbeat item.id item.leaseToken w.leaseDuration] }
      match reply.1 with
      | .ok () => some σ
      | .error err =>
          some (σ.finish [.transition item .running (some (.store (.wrapped "heartbeat" err)))])

/-- What happens next: to the contexts, in the handler, in the store, or in `execute`. -/
inductive Turn where
  | cancelWorker
  | spread
  | deadline
  | handlerReturns (value : Result)
  | other (env : Env) (c : Call)
  | take (case : Case)
  | call (env : Env)
  | returns

/-- One turn, if it is possible. Other clients leave the record of the delivered execution alone. -/
def step (w : Worker) (item : Execution) (σ : State) : Turn → Option State
  | .cancelWorker => some { σ with workerDone := true }
  | .spread =>
      if σ.workerDone && σ.handlerErr.isNone then some { σ with handlerErr := some .canceled }
      else none
  | .deadline =>
      if (w.policyOf item).any (fun policy => decide (0 < policy.timeout)) &&
          σ.handlerErr.isNone then
        some { σ with handlerErr := some .deadlineExceeded }
      else none
  | .handlerReturns value =>
      if σ.returned.isNone then some { σ with returned := some value } else none
  | .other env c =>
      if (exec env σ.store c).2.executions.lookup item.id = σ.store.executions.lookup item.id then
        some { σ with store := (exec env σ.store c).2 }
      else none
  | .take case =>
      match σ.phase with
      | .selecting => select w item σ case
      | _ => none
  | .call env =>
      match σ.phase with
      | .resolving (.call c next) =>
          some { σ with
            store := (exec env σ.store c).2
            calls := σ.calls ++ [c]
            phase := .resolving (next (exec env σ.store c).1) }
      | _ => none
  | .returns =>
      match σ.phase with
      | .resolving (.done reports) => some (σ.finish reports)
      | _ => none

/-- A sequence of turns. -/
def run (w : Worker) (item : Execution) : State → List Turn → Option State
  | σ, [] => some σ
  | σ, turn :: rest => (step w item σ turn).bind fun τ => run w item τ rest

end Worker

end Ody
