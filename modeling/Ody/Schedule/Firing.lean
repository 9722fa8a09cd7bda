import Ody.Execution.TimeTexts
import Ody.Pipeline.Engine
import Ody.Schedule.Scheduler

/-!
# Firing an instant

`fire` turns an instant of a schedule into a task execution or a pipeline run. The
idempotency key names the schedule and the instant, so that several replicas of one
scheduler may fire the same instant. The observer is told once for each firing, with
the error if there was one.

The programs are those of `Pipeline.Engine` with one more call, `triggered`, which
appends to the reports of the deployment. The mutex of a scheduler covers its own
map only, so the calls of a firing interleave with those of all other programs.
-/

namespace Ody

open Library.Tables Library.Interleaving Memory

/-! ## Enqueueing a task -/

namespace Task

/-- `EncodeInput` with the result of `json.Marshal`. -/
def Definition.encodeInput (d : Definition) (input : Except GoError RawMessage) :
    Except GoError RawMessage :=
  match d.validate with
  | some err => .error err
  | none =>
      match input with
      | .error err => .error (.wrapped ("encode task " ++ quoted d.spec.name ++ " input") err)
      | .ok raw => .ok raw

/-- The request of `Enqueue` before its options. -/
def Definition.request (d : Definition) (raw : RawMessage) : CreateExecution where
  taskName := d.spec.name
  taskVersion := d.spec.version
  input := raw
  maxAttempts := d.spec.maxAttempts
  availableAt := zeroTime
  idempotencyKey := ""
  pipelineRunID := none
  nodeKey := ""

def withIdempotencyKey (value : String) (request : CreateExecution) : CreateExecution :=
  { request with idempotencyKey := value }

/-- `Enqueue` with the options that are not nil. -/
def Definition.enqueue (d : Definition) (input : Except GoError RawMessage)
    (options : List (CreateExecution → CreateExecution)) : Pipeline.Operation Execution :=
  match d.encodeInput input with
  | .error err => .done (.error err)
  | .ok raw =>
      .call (.createExecution (options.foldl (fun request option => option request) (d.request raw)))
        .done

end Task

namespace Pipeline

def withIdempotencyKey (value : String) (request : CreatePipelineRun) : CreatePipelineRun :=
  { request with idempotencyKey := value }

end Pipeline

namespace Schedule

/-! ## Definitions with their targets -/

inductive OverlapPolicy where
  | allow
  | skip
  deriving DecidableEq, Repr

/-- What a definition triggers, with its encoded input at an instant. -/
inductive Target where
  | task (definition : Task.Definition) (input : Time → Except GoError RawMessage)
  | pipeline (definition : Pipeline.Definition) (input : Time → Except GoError RawMessage)

/-- A definition as `Task` or `Pipeline` returns it. -/
structure Job extends Definition where
  overlap : OverlapPolicy
  target : Target

/-- The key of an instant. -/
def scheduleKey (name : String) (scheduledAt : Time) : String :=
  "schedule:" ++ name ++ ":" ++ formatTime scheduledAt

/-- The loop of `isActive` for a task. -/
def anyListed (taskName : String) : List Status → Program Call Reply Bool
  | [] => .done false
  | status :: rest =>
      .call (.listExecutions ⟨taskName, some status, none, 1, none⟩) fun items =>
        if 0 < items.length then .done true else anyListed taskName rest

/-- `isActive`. The lists of the in-memory store do not fail. -/
def Target.isActive : Target → Program Call Reply Bool
  | .task definition _ => anyListed definition.spec.name [.pending, .retry, .running]
  | .pipeline definition _ =>
      .call (.listPipelineRuns ⟨[.pending, .running], 0, none⟩) fun runs =>
        .done (runs.any fun run =>
          run.pipelineName == definition.name && run.pipelineVersion == definition.version)

/-- `trigger` with the registry of the engine that is not nil. -/
def Target.trigger (engine : Option Pipeline.Registry) (scheduledAt : Time) (key : String) :
    Target → Pipeline.Operation Unit
  | .task definition input =>
      (definition.enqueue (input scheduledAt) [Task.withIdempotencyKey key]).map fun result =>
        result.map fun _ => ()
  | .pipeline definition input =>
      match engine with
      | none => .done (.error (.text "pipeline scheduler requires pipeline engine"))
      | some registry =>
          (Pipeline.run registry definition (input scheduledAt)
            [Pipeline.withIdempotencyKey key]).map fun result => result.map fun _ => ()

/-! ## The deployment -/

/-- What `Triggered` is told. -/
structure Report where
  name : String
  scheduledAt : Time
  err : Option GoError
  deriving DecidableEq, Repr

/-- A call of the store or of an observer. -/
inductive Action where
  | store (c : Call)
  | triggered (report : Report)

@[reducible] def ActionReply : Action → Type
  | .store c => Reply c
  | .triggered _ => Unit

/-- A store with what the observers of all schedulers were told, oldest first. -/
structure Deployment where
  world : World
  reports : List Report

/-- One atomic call of any program. -/
def Deployment.Step (d : Deployment) : (a : Action) → ActionReply a → Deployment → Prop
  | .store c, r, d' => d.world.Step c r d'.world ∧ d'.reports = d.reports
  | .triggered report, (), d' => d' = { d with reports := d.reports ++ [report] }

def deployment : System Deployment Unit Action ActionReply where
  step := Deployment.Step
  start := ()
  observe := fun _ _ g => g
  allowed := fun _ _ _ => True

/-- A program over the store alone. -/
def onStore {α : Type} : Program Call Reply α → Program Action ActionReply α
  | .done a => .done a
  | .call c next => .call (.store c) fun r => onStore (next r)

/-! ## The scheduler -/

/-- Tell the observer about a firing. -/
def Job.tell (job : Job) (scheduledAt : Time) (err : Option GoError) :
    Program Action ActionReply Unit :=
  .single (.triggered ⟨job.name, scheduledAt, err⟩)

/-- The error of a result. -/
def errorOf {α : Type} : Except GoError α → Option GoError
  | .ok _ => none
  | .error err => some err

/-- The end of `fire`. -/
def Job.triggerAt (job : Job) (engine : Option Pipeline.Registry) (scheduledAt : Time) :
    Program Action ActionReply Unit :=
  (onStore (job.target.trigger engine scheduledAt (scheduleKey job.name scheduledAt))).bind
    fun result => job.tell scheduledAt (errorOf result)

def Job.fire (job : Job) (engine : Option Pipeline.Registry) (scheduledAt : Time) :
    Program Action ActionReply Unit :=
  if job.overlap = .skip then
    (onStore job.target.isActive).bind fun active =>
      if active then job.tell scheduledAt none else job.triggerAt engine scheduledAt
  else job.triggerAt engine scheduledAt

/-- A scheduler with the targets of its definitions. -/
structure Replica where
  jobs : List Job
  engine : Option Pipeline.Registry
  scheduler : Scheduler
  definitions : scheduler.definitions = jobs.map (·.toDefinition)

/-- One firing of a loop. The names are distinct, so the name tells the definition. -/
def Replica.fire (replica : Replica) (fire : Fire) : Program Action ActionReply Unit :=
  match replica.jobs.find? (·.name == fire.name) with
  | none => .done ()
  | some job => job.fire replica.engine fire.scheduledAt

def Replica.fireAll (replica : Replica) : List Fire → Program Action ActionReply Unit
  | [] => .done ()
  | fire :: rest => (replica.fire fire).bind fun _ => replica.fireAll rest

/-- `Run` for the clock values of its start and of its ticks. The value of the program lists its
firings, so that a run that has finished can be told from others. -/
def Replica.run (replica : Replica) (start : Time) (ticks : List Time) :
    Program Action ActionReply (List Fire) :=
  (replica.fireAll (replica.scheduler.run start ticks).1).map fun _ =>
    (replica.scheduler.run start ticks).1

/-! ## The fired instants -/

/-- An instant that the schedule returns. -/
def Definition.Instant (d : Definition) (t : Time) : Prop := ∃ after, d.schedule after = t

theorem instant_of_mem_occurrencesLoop {d : Definition} {through : Time} {room : Nat}
    {next t : Time} (hnext : d.Instant next) (h : t ∈ occurrencesLoop d.schedule through room next) :
    d.Instant t := by
  induction room generalizing next with
  | zero => cases h
  | succ room ih =>
      rw [occurrencesLoop] at h
      split at h
      · rcases List.mem_cons.mp h with rfl | h
        · exact hnext
        · exact ih ⟨next, rfl⟩ h
      · cases h

theorem instant_of_mem_occurrences {d : Definition} {after through t : Time} {limit : Int}
    (h : t ∈ occurrences d.schedule after through limit) : d.Instant t :=
  instant_of_mem_occurrencesLoop ⟨after, rfl⟩ h

theorem instant_of_mem_recovered {d : Definition} {now t : Time} (h : t ∈ d.recovered now) :
    d.Instant t := by
  rw [Definition.recovered] at h
  split at h
  · dsimp only at h
    split at h
    · exact instant_of_mem_occurrences (latestOnly_subset _ h)
    · exact instant_of_mem_occurrences h
  · cases h

theorem instant_of_mem_due {d : Definition} {next now t : Time} (h : t ∈ d.due next now) :
    d.Instant t := by
  rw [Definition.due] at h
  split at h
  · exact instant_of_mem_occurrences (latestOnly_subset _ h)
  · split at h
    · exact instant_of_mem_occurrences (latestOnly_subset _ h)
    · exact instant_of_mem_occurrences h

/-- The firing belongs to a definition, at one of its instants. -/
def Fire.Of (definitions : List Definition) (fire : Fire) : Prop :=
  ∃ d ∈ definitions, d.name = fire.name ∧ d.Instant fire.scheduledAt

theorem eachDefinition_of {round : Definition → Time → Option (List Time × Time)}
    (hround : ∀ d next due following, round d next = some (due, following) →
      ∀ t ∈ due, d.Instant t)
    {definitions : List Definition} {next : Table String Time} {fire : Fire}
    (h : fire ∈ (eachDefinition round definitions next).1) : fire.Of definitions := by
  induction definitions generalizing next with
  | nil => cases h
  | cons d rest ih =>
      have hlater : fire.Of rest → fire.Of (d :: rest) := by
        rintro ⟨other, hother, hfire⟩
        exact ⟨other, List.mem_cons_of_mem _ hother, hfire⟩
      rw [eachDefinition] at h
      split at h
      · exact hlater (ih h)
      · next due following hdue =>
        rcases List.mem_append.mp h with h | h
        · obtain ⟨t, ht, rfl⟩ := List.mem_map.mp h
          exact ⟨d, List.mem_cons_self, rfl, hround _ _ _ _ hdue t ht⟩
        · exact hlater (ih h)

/-- Every firing of a run is at an instant of one of the definitions. -/
theorem Scheduler.run_of (s : Scheduler) (start : Time) (ticks : List Time) {fire : Fire}
    (h : fire ∈ (s.run start ticks).1) : fire.Of s.definitions := by
  induction ticks using List.reverseRecOn with
  | nil =>
      refine eachDefinition_of ?_ h
      intro d next due following hround t ht
      cases hround
      exact instant_of_mem_recovered ht
  | append_singleton ticks now ih =>
      rw [run_concat] at h
      rcases List.mem_append.mp h with h | h
      · exact ih h
      · rw [← s.run_definitions start ticks]
        refine eachDefinition_of ?_ h
        intro d next due following hround t ht
        split at hround
        · cases hround
        · cases hround
          exact instant_of_mem_due ht

end Schedule

end Ody
