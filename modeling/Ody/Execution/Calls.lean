import Ody.Execution.MemoryStore
import Ody.Library.Interleaving

/-!
# Calls of the in-memory store

The methods of the store as one type of atomic calls, so that callers are
programs over these calls. A `World` adds to the store what the assumptions on
the environment speak about: the last clock value and the UUIDs handed out.
-/

namespace Ody.Memory

open Library.Tables Library.Interleaving

/-- One method call with its arguments. -/
inductive Call where
  | createExecution (request : CreateExecution)
  | getExecution (id : UUID)
  | listExecutions (filter : ListFilter)
  | listRunExecutions (runID : UUID)
  | claim (owner : String) (keys : List TaskKey) (limit : Int) (lease : Duration)
  | reapExpired
  | heartbeat (id token : UUID) (lease : Duration)
  | succeed (id token : UUID) (output : RawMessage)
  | retry (id token : UUID) (errorText : String) (delay : Duration)
  | fail (id token : UUID) (errorText : String)
  | cancelExecution (id : UUID) (reason : String)
  | restartExecution (id : UUID) (availableAt : Time)
  | restartPipelineSubgraph (request : RestartSubgraph)
  | releaseExecution (id : UUID) (input : RawMessage) (availableAt : Time)
  | events (id : UUID)
  | createPipelineRun (request : CreatePipelineRun)
  | getPipelineRun (id : UUID)
  | listPipelineRuns (filter : RunFilter)
  | setPipelineRunStatus (id : UUID) (expectedRevision : Nat) (status : RunStatus)
      (errorText : String)
  | purge (before : Time) (limit : Int)
  deriving DecidableEq, Repr

/-- What a method returns. -/
@[reducible] def Reply : Call → Type
  | .createExecution _ => Except GoError Execution
  | .getExecution _ => Except GoError Execution
  | .listExecutions _ => List Execution
  | .listRunExecutions _ => List Execution
  | .claim .. => List Execution
  | .reapExpired => List UUID
  | .heartbeat .. => Except GoError Unit
  | .succeed .. => Except GoError Unit
  | .retry .. => Except GoError Unit
  | .fail .. => Except GoError Unit
  | .cancelExecution .. => Except GoError Unit
  | .restartExecution .. => Except GoError Execution
  | .restartPipelineSubgraph _ => Except GoError Execution
  | .releaseExecution .. => Except GoError Unit
  | .events _ => Except GoError (List Event)
  | .createPipelineRun _ => PipelineRun
  | .getPipelineRun _ => Except GoError PipelineRun
  | .listPipelineRuns _ => List PipelineRun
  | .setPipelineRunStatus .. => Except GoError Unit
  | .purge .. => PurgeResult

/-- Execute one call. -/
def exec (env : Env) (s : MemoryStore) : (c : Call) → Reply c × MemoryStore
  | .createExecution request => createExecution env s request
  | .getExecution id => (getExecution s id, s)
  | .listExecutions filter => (listExecutions env s filter, s)
  | .listRunExecutions runID => (listRunExecutions env s runID, s)
  | .claim owner keys limit lease => claim env s owner keys limit lease
  | .reapExpired => reapExpired env s
  | .heartbeat id token lease => heartbeat env s id token lease
  | .succeed id token output => succeed env s id token output
  | .retry id token errorText delay => retry env s id token errorText delay
  | .fail id token errorText => fail env s id token errorText
  | .cancelExecution id reason => cancelExecution env s id reason
  | .restartExecution id availableAt => restartExecution env s id availableAt
  | .restartPipelineSubgraph request => restartPipelineSubgraph env s request
  | .releaseExecution id input availableAt => releaseExecution env s id input availableAt
  | .events id => (events s id, s)
  | .createPipelineRun request => createPipelineRun env s request
  | .getPipelineRun id => (getPipelineRun s id, s)
  | .listPipelineRuns filter => (listPipelineRuns env s filter, s)
  | .setPipelineRunStatus id expectedRevision status errorText =>
      setPipelineRunStatus env s id expectedRevision status errorText
  | .purge before limit => purge env s before limit

/-- The number of identifiers and lease tokens a call takes from `uuid.New`. -/
def drawn (env : Env) (s : MemoryStore) : Call → Nat
  | .createExecution request =>
      if request.taskName = "" ∨ existing s request ≠ none then 0 else 1
  | .claim _ keys limit _ => (candidates env s keys limit).length
  | .createPipelineRun request => if existingRun s request = none then 1 else 0
  | _ => 0

/-- A store with the last clock value and the UUIDs handed out so far. -/
structure World where
  store : MemoryStore
  clock : Time
  issued : List UUID

/-- The world in which nothing has happened. -/
def World.init (clock : Time) : World := ⟨newMemoryStore, clock, []⟩

/-- Nothing has happened yet, at some clock value. -/
def World.Initial (w : World) : Prop := ∃ clock, w = World.init clock

theorem World.init_initial (clock : Time) : (World.init clock).Initial := ⟨clock, rfl⟩

/-- The world after one call. -/
def World.after (w : World) (env : Env) (c : Call) : World where
  store := (exec env w.store c).2
  clock := env.now
  issued := w.issued ++ (List.range (drawn env w.store c)).map env.newUUID

/-- No value of `uuid.New` in this call was handed out before. -/
def Env.Fresh (env : Env) (w : World) : Prop := ∀ i, env.newUUID i ∉ w.issued

/-- One atomic step with fresh UUIDs. -/
def World.Step (w : World) (c : Call) (r : Reply c) (w' : World) : Prop :=
  ∃ env : Env, env.Fresh w ∧ (exec env w.store c).1 = r ∧ w' = w.after env c

/-- A sequence of calls with the values each of them took from outside. -/
abbrev Trace := List (Call × Env)

/-- The store after a sequence of calls. -/
def replay (trace : Trace) (s : MemoryStore) : MemoryStore :=
  trace.foldl (fun s step => (exec step.2 s step.1).2) s

/-- The world after a sequence of calls. -/
def World.replay (trace : Trace) (w : World) : World :=
  trace.foldl (fun w step => w.after step.2 step.1) w

theorem World.replay_store (trace : Trace) (w : World) :
    (w.replay trace).store = Memory.replay trace w.store := by
  induction trace generalizing w with
  | nil => rfl
  | cons step rest ih => exact ih (w.after step.2 step.1)

/-- Every call of the sequence draws fresh UUIDs. -/
def FreshTrace : Trace → World → Prop
  | [], _ => True
  | step :: rest, w => step.2.Fresh w ∧ FreshTrace rest (w.after step.2 step.1)

/-- The clock values of the sequence never go back. -/
def MonotoneTrace : Trace → Time → Prop
  | [], _ => True
  | step :: rest, clock => clock ≤ step.2.now ∧ MonotoneTrace rest step.2.now

/-! ## A concrete environment -/

/-- The environment with a given clock value, consecutive UUIDs and loops in stored order. -/
def Env.at (now : Time) (base : Nat) : Env where
  now := now
  newUUID := fun i => base + i + 1
  rangeExecutions := fun _ => RangeOrder.stored _
  rangeRuns := fun _ => RangeOrder.stored _
  newUUID_ne_nil := by
    intro i
    simp [nilUUID]
  newUUID_injective := by
    intro i j h
    simpa using h

/-- Consecutive UUIDs above all that were handed out are fresh. -/
theorem Env.at_fresh {w : World} {base : Nat} (now : Time) (h : ∀ id ∈ w.issued, id ≤ base) :
    (Env.at now base).Fresh w := by
  intro i hmem
  have hle : base + i + 1 ≤ base := h _ hmem
  omega

/-- The next UUID that was not handed out. -/
def World.nextUUID (w : World) : Nat := w.issued.foldr max 0

theorem World.le_nextUUID {w : World} {id : UUID} (h : id ∈ w.issued) : id ≤ w.nextUUID := by
  have hmax : ∀ ids : List Nat, id ∈ ids → id ≤ ids.foldr max 0 := by
    intro ids hid
    induction ids with
    | nil => cases hid
    | cons x rest ih =>
        rcases List.mem_cons.mp hid with rfl | hrest
        · exact le_max_left _ _
        · exact (ih hrest).trans (le_max_right _ _)
  exact hmax w.issued h

/-- The environment that continues a world at the same clock value. -/
def World.env (w : World) : Env := Env.at w.clock w.nextUUID

theorem World.env_fresh (w : World) : w.env.Fresh w :=
  Env.at_fresh w.clock fun _ h => World.le_nextUUID h

/-- A request for a standalone execution with two attempts. -/
def standaloneRequest : CreateExecution :=
  ⟨"email", 1, "1", 2, zeroTime, "", none, ""⟩

end Ody.Memory
