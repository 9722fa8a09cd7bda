import Ody.Execution.Calls
import Ody.Pipeline.Definition

/-!
# The pipeline engine

The engine holds no state of its own. Each of its operations is a program that
issues one store call after the other and decides from the replies, so two
operations interleave at every call.
-/

namespace Ody.Pipeline

open Library.Tables Library.Interleaving Memory

/-- A program over the store that returns a value or an error. -/
abbrev Operation (α : Type) := Program Call Reply (Except GoError α)

/-- The runtime state that `advanceOnce` rebuilds from the stored executions. -/
structure View where
  byNode : Table String Execution
  outputs : Table String RawMessage

/-- A read of the outputs map; a missing key gives the nil message. -/
def View.output (view : View) (key : String) : RawMessage := (view.outputs.lookup key).getD ""

/-- The loop over the listed executions. It stops at a failed or cancelled one. -/
def scan (view : View) : List Execution → Except Execution View
  | [] => .ok view
  | item :: rest =>
      if item.status = .failed ∨ item.status = .cancelled then .error item
      else scan
        { byNode := view.byNode.insert item.nodeKey item
          outputs := if item.status = .succeeded
            then view.outputs.insert item.nodeKey item.output else view.outputs } rest

/-- All dependencies of the node succeeded. -/
def View.ready (view : View) (node : NodeDefinition) : Bool :=
  node.dependencies.all fun dependency =>
    (view.byNode.lookup dependency).any (·.status == .succeeded)

def safeBuildInput (node : NodeDefinition) (initial : RawMessage)
    (outputs : String → RawMessage) : Except GoError RawMessage :=
  match node.buildInput initial outputs with
  | .ok input => .ok input
  | .error err => .error err
  | .panic message => .error (.text ("pipeline mapper panic: " ++ message))

/-- `errors.Join` of an error with a possibly missing one. -/
def joinWith (err : GoError) : Except GoError Unit → GoError
  | .ok () => err
  | .error other => .joined err other

/-- The request by which the engine creates the execution of a node. -/
def nodeRequest (runID : UUID) (node : NodeDefinition) (input : RawMessage) : CreateExecution where
  taskName := node.taskName
  taskVersion := node.taskVersion
  input := input
  maxAttempts := node.maxAttempts
  availableAt := zeroTime
  idempotencyKey := uuidString runID ++ ":" ++ node.key
  pipelineRunID := some runID
  nodeKey := node.key

/-- The loop over the nodes. It returns whether a node was scheduled. -/
def schedule (runID : UUID) (run : PipelineRun) (view : View) :
    List NodeDefinition → Bool → Operation Bool
  | [], created => .done (.ok created)
  | node :: rest, created =>
      let existing := view.byNode.lookup node.key
      if existing.any (·.status != .blocked) then schedule runID run view rest created
      else if !view.ready node then schedule runID run view rest created
      else match safeBuildInput node run.input view.output with
        | .error buildErr =>
            .call (.setPipelineRunStatus runID run.revision .failed
              ("build node " ++ node.key ++ " input: " ++ buildErr.message))
              fun statusErr => .done (.error (joinWith buildErr statusErr))
        | .ok input =>
            match existing with
            | some item =>
                .call (.releaseExecution item.id input item.availableAt) fun
                  | .error err => .done (.error err)
                  | .ok () => schedule runID run view rest true
            | none =>
                .call (.createExecution (nodeRequest runID node input)) fun
                  | .error err => .done (.error err)
                  | .ok _ => schedule runID run view rest true

/-- Every node has an execution and all of them succeeded. -/
def View.complete (view : View) (definition : CompiledDefinition) : Bool :=
  view.byNode.keys.length == definition.nodes.length &&
    view.byNode.entries.all fun entry => entry.2.status == .succeeded

/-- The end of `advanceOnce`: record what the snapshot implies for the run. -/
def conclude (runID : UUID) (run : PipelineRun) (view : View) (definition : CompiledDefinition)
    (created : Bool) : Operation Unit :=
  if definition.nodes.isEmpty || view.complete definition then
    .call (.setPipelineRunStatus runID run.revision .succeeded "") .done
  else if created || run.status == .pending then
    .call (.setPipelineRunStatus runID run.revision .running "") .done
  else .done (.ok ())

/-- The error for a run whose definition is missing. -/
def notRegistered (name : String) (version : Int) : GoError :=
  .text ("pipeline definition " ++ registryKey name version ++ " is not registered")

/-- `advanceOnce` after it has read the run and its executions. -/
def advanceListed (runID : UUID) (run : PipelineRun) (definition : CompiledDefinition)
    (executions : List Execution) : Operation Unit :=
  match scan ⟨∅, ∅⟩ executions with
  | .error item =>
      .call (.setPipelineRunStatus runID run.revision .failed
        ("node " ++ item.nodeKey ++ ": " ++ item.lastError)) .done
  | .ok view =>
      (schedule runID run view definition.nodes false).bind fun
        | .error err => .done (.error err)
        | .ok created => conclude runID run view definition created

def advanceOnce (registry : Registry) (runID : UUID) : Operation Unit :=
  .call (.getPipelineRun runID) fun
    | .error err => .done (.error err)
    | .ok run =>
        if run.status.isTerminal then .done (.ok ())
        else match registry.find run with
          | none => .done (.error (notRegistered run.pipelineName run.pipelineVersion))
          | some definition =>
              .call (.listRunExecutions runID) (advanceListed runID run definition)

/-- The loop of `Advance` with the tries that are left. -/
def advanceTries (registry : Registry) (runID : UUID) : Nat → Operation Unit
  | 0 => .done (.error (.wrapped ("advance pipeline " ++ uuidString runID) .conflict))
  | tries + 1 =>
      (advanceOnce registry runID).bind fun
        | .ok () => .done (.ok ())
        | .error err =>
            if GoError.is err .conflict then advanceTries registry runID tries
            else .done (.error err)

def advance (registry : Registry) (runID : UUID) : Operation Unit :=
  advanceTries registry runID 4

/-- One node of the loop in `descendantKeys`: the affected keys, the result and the found flag. -/
def descend (root : String) (state : List String × List String × Bool) (node : NodeDefinition) :
    List String × List String × Bool :=
  if node.key = root then (state.1, state.2.1, true)
  else if node.dependencies.any (· ∈ state.1) then
    (node.key :: state.1, state.2.1 ++ [node.key], state.2.2)
  else state

def descendantKeys (definition : CompiledDefinition) (root : String) : List String × Bool :=
  (definition.nodes.foldl (descend root) ([root], [], false)).2

def restartExecution (registry : Registry) (executionID : UUID) : Operation Execution :=
  .call (.getExecution executionID) fun
    | .error err => .done (.error err)
    | .ok item =>
        match item.pipelineRunID with
        | none => .call (.restartExecution executionID zeroTime) .done
        | some runID =>
            .call (.getPipelineRun runID) fun
              | .error err => .done (.error err)
              | .ok run =>
                  match registry.find run with
                  | none => .done (.error (notRegistered run.pipelineName run.pipelineVersion))
                  | some definition =>
                      if (descendantKeys definition item.nodeKey).2 then
                        .call (.restartPipelineSubgraph
                          ⟨runID, item.nodeKey, (descendantKeys definition item.nodeKey).1, zeroTime⟩)
                          fun
                            | .error err => .done (.error err)
                            | .ok restarted =>
                                (advance registry runID).bind fun
                                  | .error err => .done (.error err)
                                  | .ok () => .done (.ok restarted)
                      else .done (.error (.text
                        ("pipeline node " ++ quoted item.nodeKey ++ " is not registered")))

/-- `errors.Join` of the failures of a loop. -/
def joinErrors : List GoError → Except GoError Unit
  | [] => .ok ()
  | err :: rest => .error (joinWith err (joinErrors rest))

/-- The loop of `Reconcile` with the failures so far. -/
def reconcileRuns (registry : Registry) : List PipelineRun → List GoError → Operation Unit
  | [], failures => .done (joinErrors failures)
  | run :: rest, failures =>
      (advance registry run.id).bind fun
        | .ok () => reconcileRuns registry rest failures
        | .error err => reconcileRuns registry rest
            (failures ++ [.wrapped ("advance pipeline run " ++ uuidString run.id) err])

def reconcile (registry : Registry) : Operation Unit :=
  .call (.listPipelineRuns ⟨[.pending, .running], 0, none⟩) fun runs =>
    reconcileRuns registry runs []

/-- The loop of `Cancel` over the listed executions. -/
def cancelItems (reason : String) : List Execution → Operation Unit
  | [] => .done (.ok ())
  | item :: rest =>
      if item.status.isActive then
        .call (.cancelExecution item.id reason) fun
          | .error err => .done (.error err)
          | .ok () => cancelItems reason rest
      else cancelItems reason rest

def cancel (runID : UUID) (reason : String) : Operation Unit :=
  .call (.getPipelineRun runID) fun
    | .error err => .done (.error err)
    | .ok run =>
        .call (.listRunExecutions runID) fun items =>
          (cancelItems reason items).bind fun
            | .error err => .done (.error err)
            | .ok () => .call (.setPipelineRunStatus runID run.revision .cancelled reason) .done

/-- `Run` with the encoded input and the options that are not nil. -/
def run (registry : Registry) (definition : Definition) (input : Except GoError RawMessage)
    (options : List (CreatePipelineRun → CreatePipelineRun)) : Operation PipelineRun :=
  match definition.validate with
  | .error err => .done (.error err)
  | .ok _ =>
      if registryKey definition.name definition.version ∈ registry.definitions then
        match input with
        | .error err => .done (.error (.wrapped "encode pipeline input" err))
        | .ok raw =>
            let request := options.foldl (fun request option => option request)
              ⟨definition.name, definition.version, raw, ""⟩
            .call (.createPipelineRun request) fun created =>
              (advance registry created.id).bind fun
                | .error err => .done (.error err)
                | .ok () => .call (.getPipelineRun created.id) .done
      else .done (.error (notRegistered definition.name definition.version))

/-! ## A pipeline of two nodes -/

/-- A task with one attempt. -/
def sampleTask (name : String) : Task.Definition := ⟨⟨name, 1, 1, 0, some fun _ => 0⟩⟩

/-- The second node takes the output of the first as its input. -/
def etl : Definition :=
  let (extract, d) := start (newDefinition "etl" 1) "extract" (sampleTask "extract") (some .ok)
  (thenNode d extract "load" (sampleTask "load") (some .ok)).2

/-- The registry with this pipeline. -/
def etlRegistry : Registry :=
  match newRegistry [etl] with
  | .ok registry => registry
  | .error _ => ⟨∅⟩

theorem etl_constructed : ∀ d ∈ [etl], d.Constructed := by
  rintro d hd
  obtain rfl := List.mem_singleton.mp hd
  exact .thenNode (.start (.new "etl" 1) "extract" (sampleTask "extract") (some .ok)) _ "load"
    (sampleTask "load") (some .ok)

theorem newRegistry_of_isOk {definitions : List Definition}
    (h : (newRegistry definitions).isOk = true) :
    newRegistry definitions = .ok (match newRegistry definitions with
      | .ok registry => registry
      | .error _ => ⟨∅⟩) := by
  cases hresult : newRegistry definitions with
  | ok registry => rfl
  | error err =>
      rw [hresult] at h
      cases h

theorem newRegistry_etl : newRegistry [etl] = .ok etlRegistry := newRegistry_of_isOk (by decide)

/-- A worker call that delivers one execution of either task. -/
def claimAny : Call := .claim "worker" [⟨"extract", 1⟩, ⟨"load", 1⟩] 1 10

/-! ## A pipeline of two independent nodes -/

/-- Both nodes start with the run. -/
def fork : Definition :=
  (start (start (newDefinition "fork" 1) "left" (sampleTask "left") (some .ok)).2
    "right" (sampleTask "right") (some .ok)).2

/-- The registry with this pipeline. -/
def forkRegistry : Registry :=
  match newRegistry [fork] with
  | .ok registry => registry
  | .error _ => ⟨∅⟩

/-- A worker call that delivers one execution of a task. -/
def claimTask (name : String) : Call := .claim "worker" [⟨name, 1⟩] 1 10

end Ody.Pipeline
