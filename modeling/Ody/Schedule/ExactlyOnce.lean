import Mathlib
import Ody.Execution.RequestKeys
import Ody.Library.Layers
import Ody.Schedule.Firing
import Ody.Schedule.Instants

/-!
# One execution for each instant

Any number of scheduler replicas fire the instants of the same definitions, and
workers, engines and other clients use the store at the same time. Every record
whose key is that of a schedule belongs to one definition and one instant, no two
records belong to the same instant, and a firing that was reported without an error
has left its record behind. With `MisfireCatchUp` a replica that has finished therefore
leaves one record for every instant of its window.

The invariant speaks about each record alone: it carries the data of the request
that its key stands for. Uniqueness is that of the key index.
-/

namespace Ody.Schedule

open Library.Tables Library.Interleaving Library.DerivedIndexes Library.Windows Memory

/-! ## Keys of instants -/

/-- The key starts like that of an instant. -/
def Stamped (key : String) : Prop := "schedule:".toList <+: key.toList

instance (key : String) : Decidable (Stamped key) := inferInstanceAs (Decidable (_ <+: _))

theorem stamped_scheduleKey (name : String) (t : Time) : Stamped (scheduleKey name t) := by
  simp only [Stamped, scheduleKey, String.toList_append, List.append_assoc]
  exact List.prefix_append _ _

theorem Stamped.ne_empty {key : String} (h : Stamped key) : key ≠ "" := by
  rintro rfl
  exact absurd h (by decide)

/-- A key names one schedule and one instant. -/
theorem scheduleKey_inj {name name' : String} {t t' : Time} (ht : Dated t) (ht' : Dated t')
    (h : scheduleKey name t = scheduleKey name' t') : name = name' ∧ t = t' := by
  obtain ⟨hname, hinstant⟩ := append_formatTime_inj ht ht' h
  refine ⟨?_, hinstant⟩
  have hlists := congrArg String.toList hname
  rw [String.toList_append, String.toList_append] at hlists
  exact String.toList_inj.mp (List.append_cancel_left hlists)

/-! ## Requests of a job -/

/-- The request that the trigger of a task makes. -/
def Job.taskRequest (job : Job) (t : Time) : Option CreateExecution :=
  match job.target with
  | .task definition input =>
      (definition.encodeInput (input t)).toOption.map fun raw =>
        Task.withIdempotencyKey (scheduleKey job.name t) (definition.request raw)
  | .pipeline _ _ => none

/-- The request that the trigger of a pipeline makes. -/
def Job.runRequest (job : Job) (t : Time) : Option CreatePipelineRun :=
  match job.target with
  | .task _ _ => none
  | .pipeline definition input =>
      (input t).toOption.map fun raw =>
        Pipeline.withIdempotencyKey (scheduleKey job.name t)
          ⟨definition.name, definition.version, raw, ""⟩

theorem Job.taskRequest_key {job : Job} {t : Time} {request : CreateExecution}
    (h : job.taskRequest t = some request) :
    request.idempotencyKey = scheduleKey job.name t ∧ request.pipelineRunID = none := by
  rw [Job.taskRequest] at h
  split at h
  · obtain ⟨raw, -, rfl⟩ := Option.map_eq_some_iff.mp h
    exact ⟨rfl, rfl⟩
  · cases h

theorem Job.runRequest_key {job : Job} {t : Time} {request : CreatePipelineRun}
    (h : job.runRequest t = some request) : request.idempotencyKey = scheduleKey job.name t := by
  rw [Job.runRequest] at h
  split at h
  · cases h
  · obtain ⟨raw, -, rfl⟩ := Option.map_eq_some_iff.mp h
    rfl

/-- The execution has the data of a request for a task, and nothing can replace its input. -/
structure Answers (request : CreateExecution) (item : Execution) : Prop where
  taskName : item.taskName = request.taskName
  taskVersion : item.taskVersion = request.taskVersion
  input : item.input = request.input
  key : item.idempotencyKey = request.idempotencyKey
  standalone : item.pipelineRunID = none
  released : item.status ≠ .blocked

/-- The request that a run was created by. -/
def requestOf (run : PipelineRun) : CreatePipelineRun :=
  ⟨run.pipelineName, run.pipelineVersion, run.input, run.idempotencyKey⟩

theorem answers_created {env : Env} {request : CreateExecution} (h : request.pipelineRunID = none) :
    Answers request (created env request) :=
  ⟨rfl, rfl, rfl, rfl, h, nofun⟩

/-- No call changes what a standalone execution was requested with. -/
theorem Answers.moved {request : CreateExecution} {env : Env} {s : MemoryStore} {c : Call}
    {item item' : Execution} {evs : List Event} (h : Answers request item)
    (t : Transition env s c item item' evs) : Answers request item' := by
  obtain ⟨hname, hversion, hinput, hkey, hstandalone, hreleased⟩ := h
  cases t with
  | heartbeat _ => exact ⟨hname, hversion, hinput, hkey, hstandalone, hreleased⟩
  | reset ha _ =>
      rw [affected, hstandalone] at ha
      simp at ha
  | release hblocked => exact absurd hblocked hreleased
  | _ => exact ⟨hname, hversion, hinput, hkey, hstandalone, nofun⟩

/-- No call changes the task or the key of an execution. -/
theorem requested_moved {env : Env} {s : MemoryStore} {c : Call} {item item' : Execution}
    {evs : List Event} (t : Transition env s c item item' evs) :
    item'.taskName = item.taskName ∧ item'.idempotencyKey = item.idempotencyKey := by
  cases t <;> exact ⟨rfl, rfl⟩

/-- A stored run was created by this call, or no call has changed its request. -/
theorem request_origin {w : World} {env : Env} {c : Call} {id : UUID} {run : PipelineRun}
    (h : (w.after env c).store.runs.lookup id = some run) :
    c = .createPipelineRun (requestOf run) ∨
      ∃ old, w.store.runs.lookup id = some old ∧ requestOf run = requestOf old := by
  cases exec_runEffect env w.store c id with
  | same hsame => exact .inr ⟨run, hsame ▸ h, rfl⟩
  | inserted _ hnew =>
      cases hnew.symm.trans h
      exact .inl rfl
  | status hold hnew =>
      cases hnew.symm.trans h
      exact .inr ⟨_, hold, rfl⟩
  | reopened hold hnew =>
      cases hnew.symm.trans h
      exact .inr ⟨_, hold, rfl⟩
  | deleted hgone => cases hgone.symm.trans h

/-! ## Records and their instants -/

section Catalogue

variable (catalogue : List Job)

/-- A job of the deployment with one of its instants. -/
structure Fires (job : Job) (t : Time) : Prop where
  mem : job ∈ catalogue
  instant : job.Instant t
  dated : Dated t

/-- A request for a task names it plainly, and its key is that of an instant only if it is the
request of that instant. -/
structure LawfulRequest (request : CreateExecution) : Prop where
  plain : '\x00' ∉ request.taskName.toList
  stamped : Stamped request.idempotencyKey →
    ∃ job t, Fires catalogue job t ∧ job.taskRequest t = some request

/-- The same for a request for a pipeline run. -/
structure LawfulRun (request : CreatePipelineRun) : Prop where
  plain : '\x00' ∉ request.pipelineName.toList
  stamped : Stamped request.idempotencyKey →
    ∃ job t, Fires catalogue job t ∧ job.runRequest t = some request

/-- The calls of a deployment without a retention policy. -/
def Lawful : Call → Prop
  | .createExecution request => LawfulRequest catalogue request
  | .createPipelineRun request => LawfulRun catalogue request
  | .purge _ _ => False
  | _ => True

/-- Every stored record with the key of an instant answers the request of that instant. -/
structure Attributed (w : World) : Prop where
  referenced : w.Referenced
  plain : ∀ id item, w.store.executions.lookup id = some item → '\x00' ∉ item.taskName.toList
  execution : ∀ id item, w.store.executions.lookup id = some item → Stamped item.idempotencyKey →
    ∃ job t request, Fires catalogue job t ∧ job.taskRequest t = some request ∧ Answers request item
  run : ∀ id run, w.store.runs.lookup id = some run → LawfulRun catalogue (requestOf run)

variable {catalogue}

theorem Attributed.init (clock : Time) : Attributed catalogue (World.init clock) := by
  refine ⟨⟨World.init_known clock, Referenced.empty⟩, ?_, ?_, ?_⟩ <;>
    simp [World.init, newMemoryStore]

/-- A lawful call keeps every record with the request it answers. -/
theorem Attributed.after {w : World} (h : Attributed catalogue w) {env : Env} (hfresh : env.Fresh w)
    {c : Call} (hc : Lawful catalogue c) : Attributed catalogue (w.after env c) := by
  refine ⟨h.referenced.after hfresh c, ?_, ?_, ?_⟩
  · intro id item hl
    cases exec_effect env w.store c id with
    | same hsame _ => exact h.plain id item (hsame ▸ hl)
    | inserted _ _ hnew _ =>
        cases hnew.symm.trans hl
        exact LawfulRequest.plain hc
    | moved hold hnew _ t =>
        cases hnew.symm.trans hl
        rw [(requested_moved t).1]
        exact h.plain id _ hold
    | deleted _ _ => exact hc.elim
  · intro id item hl hstamped
    cases exec_effect env w.store c id with
    | same hsame _ => exact h.execution id item (hsame ▸ hl) hstamped
    | inserted _ _ hnew _ =>
        cases hnew.symm.trans hl
        obtain ⟨job, t, hfires, hrequest⟩ := LawfulRequest.stamped hc hstamped
        exact ⟨job, t, _, hfires, hrequest, answers_created (Job.taskRequest_key hrequest).2⟩
    | moved hold hnew _ t =>
        cases hnew.symm.trans hl
        rw [(requested_moved t).2] at hstamped
        obtain ⟨job, at', request, hfires, hrequest, hanswers⟩ := h.execution id _ hold hstamped
        exact ⟨job, at', request, hfires, hrequest, hanswers.moved t⟩
    | deleted _ _ => exact hc.elim
  · intro id run hl
    rcases request_origin hl with rfl | ⟨old, hold, hsame⟩
    · exact hc
    · rw [hsame]
      exact h.run id old hold

/-! ## What a firing leaves behind -/

/-- An execution has the key of the request. -/
def HasKey (w : World) (request : CreateExecution) : Prop :=
  ∃ id item, w.store.executions.lookup id = some item ∧ keyOf item = requestKey request

/-- A run has the key of the request. -/
def HasRunKey (w : World) (request : CreatePipelineRun) : Prop :=
  ∃ id run, w.store.runs.lookup id = some run ∧ runKeyOf run = runRequestKey request

/-- The record of an instant is stored. -/
def Left (w : World) (job : Job) (t : Time) : Prop :=
  (∃ request, job.taskRequest t = some request ∧ HasKey w request) ∨
    ∃ request, job.runRequest t = some request ∧ HasRunKey w request

/-- Nothing is lost between two worlds. -/
structure Persists (w w' : World) : Prop where
  execution : ∀ request, HasKey w request → HasKey w' request
  run : ∀ request, HasRunKey w request → HasRunKey w' request

theorem Persists.refl (w : World) : Persists w w := ⟨fun _ h => h, fun _ h => h⟩

theorem Persists.trans {w w' w'' : World} (h : Persists w w') (h' : Persists w' w'') :
    Persists w w'' :=
  ⟨fun request hkey => h'.execution request (h.execution request hkey),
    fun request hkey => h'.run request (h.run request hkey)⟩

theorem Left.persists {w w' : World} {job : Job} {t : Time} (h : Left w job t)
    (hpersists : Persists w w') : Left w' job t := by
  rcases h with ⟨request, hrequest, hkey⟩ | ⟨request, hrequest, hkey⟩
  · exact .inl ⟨request, hrequest, hpersists.execution request hkey⟩
  · exact .inr ⟨request, hrequest, hpersists.run request hkey⟩

theorem persists_after {w : World} {env : Env} (hw : w.Known) (hfresh : env.Fresh w) {c : Call}
    (hc : Lawful catalogue c) : Persists w (w.after env c) := by
  constructor
  · rintro request ⟨id, item, hl, hkey⟩
    cases exec_effect env w.store c id with
    | same hsame _ => exact ⟨id, item, hsame.trans hl, hkey⟩
    | inserted _ _ _ _ => exact absurd (hw.executions _ _ hl) (hfresh 0)
    | moved hold hnew _ t =>
        cases hold.symm.trans hl
        exact ⟨id, _, hnew, t.references_eq.1.trans hkey⟩
    | deleted _ _ => exact hc.elim
  · rintro request ⟨id, run, hl, hkey⟩
    cases exec_runEffect env w.store c id with
    | same hsame => exact ⟨id, run, hsame.trans hl, hkey⟩
    | inserted _ _ => exact absurd (hw.runs _ _ hl) (hfresh 0)
    | status hold hnew =>
        cases hold.symm.trans hl
        exact ⟨_, _, hnew, hkey⟩
    | reopened hold hnew =>
        cases hold.symm.trans hl
        exact ⟨_, _, hnew, hkey⟩
    | deleted _ => exact hc.elim

/-- Each report is about an instant of a job. Without an error the firing has left its record behind,
unless the job skips overlaps. -/
def Reported (catalogue : List Job) (d : Deployment) : Prop :=
  ∀ report ∈ d.reports, ∃ job, Fires catalogue job report.scheduledAt ∧ job.name = report.name ∧
    (report.err = none → job.overlap = .allow → Left d.world job report.scheduledAt)

/-- The invariant of a deployment. -/
structure Sound (catalogue : List Job) (d : Deployment) : Prop where
  attributed : Attributed catalogue d.world
  reported : Reported catalogue d

/-- What programs may do to one another. -/
structure Rely (d d' : Deployment) : Prop where
  world : Persists d.world d'.world
  reports : d.reports ⊆ d'.reports

theorem Rely.refl (d : Deployment) : Rely d d := ⟨Persists.refl d.world, List.Subset.refl _⟩

theorem Rely.trans {d d' d'' : Deployment} (h : Rely d d') (h' : Rely d' d'') : Rely d d'' :=
  ⟨h.world.trans h'.world, List.Subset.trans h.reports h'.reports⟩

variable (catalogue) in
/-- A program that starts where `P` holds keeps the deployment sound and returns a value that
satisfies `Q`. -/
abbrev Rule {α : Type} (P : Deployment → Prop) (p : Program Action ActionReply α)
    (Q : α → Deployment → Prop) : Prop :=
  Triple deployment (Sound catalogue) Rely Rely (fun _ d => P d) p fun a _ d => Q a d

/-- A lawful call keeps the deployment sound. -/
theorem Sound.call {d d' : Deployment} (h : Sound catalogue d) {c : Call} (hc : Lawful catalogue c)
    {r : Reply c} (hstep : d.Step (.store c) r d') : Sound catalogue d' ∧ Rely d d' := by
  obtain ⟨⟨env, hfresh, -, hworld⟩, hreports⟩ := hstep
  have hpersists : Persists d.world d'.world := by
    rw [hworld]
    exact persists_after h.attributed.referenced.known hfresh hc
  refine ⟨⟨?_, ?_⟩, hpersists, hreports ▸ List.Subset.refl _⟩
  · rw [hworld]
    exact h.attributed.after hfresh hc
  · intro report hreport
    rw [hreports] at hreport
    obtain ⟨job, hfires, hname, hleft⟩ := h.reported report hreport
    exact ⟨job, hfires, hname, fun herr hallow => (hleft herr hallow).persists hpersists⟩

/-- What interference keeps, a program keeps. -/
theorem Rule.keep {α : Type} {P K : Deployment → Prop} {p : Program Action ActionReply α}
    {Q : α → Deployment → Prop} (h : Rule catalogue P p Q)
    (hstable : ∀ d d', K d → Rely d d' → K d') :
    Rule catalogue (fun d => P d ∧ Sound catalogue d ∧ K d) p
      fun a d => Q a d ∧ Sound catalogue d ∧ K d := by
  rintro g d ⟨hP, hsound, hK⟩
  have hkept := (h g d hP).along Rely.refl (fun _ _ _ _ _ _ h h' => h.trans h') (fun _ _ h => h) hsound
  apply hkept.weaken
  rintro a g d' ⟨hsound', hrely, hQ⟩
  exact ⟨hQ, hsound', hstable d d' hK hrely⟩

/-- A program that makes lawful calls keeps what was left behind. -/
theorem rule_onStore {α : Type} {p : Program Call Reply α} (h : p.Issues (Lawful catalogue))
    {P : Deployment → Prop} (hstable : ∀ d d', P d → Rely d d' → P d') :
    Rule catalogue P (onStore p) fun _ d => P d := by
  rintro ⟨⟩ d hP
  induction p generalizing d with
  | done a => exact hP
  | call c next ih =>
      intro d' hrely hsound _ r d'' hstep
      obtain ⟨hsound', hrely'⟩ := hsound.call h.1 hstep
      exact ⟨hsound', hrely', ih r (h.2 r) d'' (hstable _ _ (hstable _ _ hP hrely) hrely')⟩

/-- An observer was told about the firing. -/
def Told (d : Deployment) (name : String) (t : Time) : Prop :=
  ∃ report ∈ d.reports, report.name = name ∧ report.scheduledAt = t

theorem Told.stable {d d' : Deployment} {name : String} {t : Time} (h : Told d name t)
    (hrely : Rely d d') : Told d' name t := by
  obtain ⟨report, hreport, htold⟩ := h
  exact ⟨report, hrely.reports hreport, htold⟩

theorem rule_tell {job : Job} {t : Time} {err : Option GoError} (hfires : Fires catalogue job t) :
    Rule catalogue (fun d => err = none → job.overlap = .allow → Left d.world job t)
      (job.tell t err) fun _ d => Told d job.name t := by
  rintro ⟨⟩ d hleft d' hrely hsound _ ⟨⟩ d'' hstep
  cases hstep
  refine ⟨⟨hsound.attributed, ?_⟩, ⟨Persists.refl _, List.subset_append_left _ _⟩, ?_⟩
  · intro report hreport
    rcases List.mem_append.mp hreport with hold | hnew
    · exact hsound.reported report hold
    · cases List.mem_singleton.mp hnew
      exact ⟨job, hfires, rfl, fun herr hallow => (hleft herr hallow).persists hrely.world⟩
  · exact ⟨_, List.mem_append_right _ (List.mem_singleton_self _), rfl, rfl⟩

/-! ## The calls of the engine -/

/-- The tasks of all registered nodes are named plainly. -/
def PlainRegistry (registry : Pipeline.Registry) : Prop :=
  ∀ run definition, registry.find run = some definition →
    ∀ node ∈ definition.nodes, '\x00' ∉ node.taskName.toList

/-- The key of a node starts with a digit. -/
theorem not_stamped_nodeKey (runID : UUID) (rest : String) :
    ¬ Stamped (uuidString runID ++ ":" ++ rest) := by
  intro h
  have htext : (uuidString runID).toList = Nat.toDigits 10 runID := Nat.toList_repr
  simp only [Stamped, String.toList_append, htext] at h
  cases hdigits : Nat.toDigits 10 runID with
  | nil => exact Nat.toDigits_ne_nil hdigits
  | cons c digits =>
      have hc : c.isDigit = true :=
        Nat.isDigit_of_mem_toDigits (by decide) (by decide) (hdigits ▸ List.mem_cons_self)
      rw [hdigits] at h
      obtain rfl : 's' = c := (List.cons_prefix_cons.mp h).1
      cases hc

theorem lawful_nodeRequest {node : Pipeline.NodeDefinition}
    (h : '\x00' ∉ node.taskName.toList) (runID : UUID) (input : RawMessage) :
    LawfulRequest catalogue (Pipeline.nodeRequest runID node input) :=
  ⟨h, fun hstamped => absurd hstamped (not_stamped_nodeKey runID node.key)⟩

theorem issues_schedule {runID : UUID} {run : PipelineRun} {view : Pipeline.View}
    {nodes : List Pipeline.NodeDefinition} (h : ∀ node ∈ nodes, '\x00' ∉ node.taskName.toList)
    (created : Bool) : (Pipeline.schedule runID run view nodes created).Issues (Lawful catalogue) := by
  induction nodes generalizing created with
  | nil => trivial
  | cons node rest ih =>
      obtain ⟨hnode, hrest⟩ := List.forall_mem_cons.mp h
      rw [Pipeline.schedule]
      split
      · exact ih hrest created
      · split
        · exact ih hrest created
        · split
          · exact ⟨trivial, fun _ => trivial⟩
          · split
            · refine ⟨trivial, ?_⟩
              rintro (err | ⟨⟩)
              · trivial
              · exact ih hrest true
            · refine ⟨lawful_nodeRequest hnode runID _, ?_⟩
              rintro (err | item)
              · trivial
              · exact ih hrest true

theorem issues_conclude (runID : UUID) (run : PipelineRun) (view : Pipeline.View)
    (definition : Pipeline.CompiledDefinition) (created : Bool) :
    (Pipeline.conclude runID run view definition created).Issues (Lawful catalogue) := by
  rw [Pipeline.conclude]
  split
  · exact ⟨trivial, fun _ => trivial⟩
  · split
    · exact ⟨trivial, fun _ => trivial⟩
    · trivial

theorem issues_advanceOnce {registry : Pipeline.Registry} (h : PlainRegistry registry)
    (runID : UUID) : (Pipeline.advanceOnce registry runID).Issues (Lawful catalogue) := by
  refine ⟨trivial, ?_⟩
  rintro (err | run)
  · trivial
  · dsimp only
    split
    · trivial
    · split
      · trivial
      · next definition hfind =>
        refine ⟨trivial, fun executions => ?_⟩
        rw [Pipeline.advanceListed]
        split
        · exact ⟨trivial, fun _ => trivial⟩
        · refine (issues_schedule (h run definition hfind) false).bind ?_
          rintro (err | created)
          · trivial
          · exact issues_conclude runID run _ definition created

theorem issues_advanceTries {registry : Pipeline.Registry} (h : PlainRegistry registry)
    (runID : UUID) (tries : Nat) :
    (Pipeline.advanceTries registry runID tries).Issues (Lawful catalogue) := by
  induction tries with
  | zero => trivial
  | succ tries ih =>
      refine (issues_advanceOnce h runID).bind ?_
      rintro (err | ⟨⟩)
      · dsimp only
        split
        · exact ih
        · trivial
      · trivial

/-! ## Triggers -/

/-- The target has a plain name. -/
def Job.Plain (job : Job) : Prop :=
  match job.target with
  | .task definition _ => '\x00' ∉ definition.spec.name.toList
  | .pipeline definition _ => '\x00' ∉ definition.name.toList

theorem Job.taskRequest_plain {job : Job} (hplain : job.Plain) {t : Time} {request : CreateExecution}
    (h : job.taskRequest t = some request) : '\x00' ∉ request.taskName.toList := by
  rw [Job.taskRequest] at h
  rw [Job.Plain] at hplain
  split at h
  · next htarget =>
    rw [htarget] at hplain
    obtain ⟨raw, -, rfl⟩ := Option.map_eq_some_iff.mp h
    exact hplain
  · cases h

theorem Job.runRequest_plain {job : Job} (hplain : job.Plain) {t : Time}
    {request : CreatePipelineRun} (h : job.runRequest t = some request) :
    '\x00' ∉ request.pipelineName.toList := by
  rw [Job.runRequest] at h
  rw [Job.Plain] at hplain
  split at h
  · cases h
  · next htarget =>
    rw [htarget] at hplain
    obtain ⟨raw, -, rfl⟩ := Option.map_eq_some_iff.mp h
    exact hplain

/-- `CreateExecution` with the request of an instant leaves its record behind. -/
theorem rule_createExecution {job : Job} {t : Time} (hfires : Fires catalogue job t)
    (hplain : job.Plain) {request : CreateExecution} (hrequest : job.taskRequest t = some request) :
    CallTriple deployment (Sound catalogue) Rely Rely (fun _ _ => True)
      (.store (.createExecution request)) fun r _ d => ∀ item, r = .ok item → Left d.world job t := by
  rintro ⟨⟩ d - d' - hsound - r d'' hstep
  have hlawful : LawfulRequest catalogue request :=
    ⟨job.taskRequest_plain hplain hrequest, fun _ => ⟨job, t, hfires, hrequest⟩⟩
  obtain ⟨hsound', hrely⟩ := hsound.call (c := .createExecution request) hlawful hstep
  refine ⟨hsound', hrely, ?_⟩
  rintro item rfl
  obtain ⟨⟨env, -, hreply, hworld⟩, -⟩ := hstep
  have hnode : ¬ FoundByNode d'.world.store request := by
    have hnone : requestNode request = none := by
      rw [requestNode, nodeReference, (Job.taskRequest_key hrequest).2, Option.bind_none]
    rintro ⟨-, hfound⟩
    rw [hnone] at hfound
    cases hfound
  obtain ⟨hkey, hstored, -⟩ :=
    created_key hsound.attributed.referenced.store.idempotent hreply hnode
  refine .inl ⟨request, hrequest, item.id, item, ?_, hkey⟩
  rw [hworld]
  exact hstored

/-- `CreatePipelineRun` with the request of an instant leaves its record behind. -/
theorem rule_createPipelineRun {job : Job} {t : Time} (hfires : Fires catalogue job t)
    (hplain : job.Plain) {request : CreatePipelineRun} (hrequest : job.runRequest t = some request) :
    CallTriple deployment (Sound catalogue) Rely Rely (fun _ _ => True)
      (.store (.createPipelineRun request)) fun _ _ d => Left d.world job t := by
  rintro ⟨⟩ d - d' - hsound - r d'' hstep
  have hlawful : LawfulRun catalogue request :=
    ⟨job.runRequest_plain hplain hrequest, fun _ => ⟨job, t, hfires, hrequest⟩⟩
  obtain ⟨hsound', hrely⟩ := hsound.call (c := .createPipelineRun request) hlawful hstep
  refine ⟨hsound', hrely, ?_⟩
  obtain ⟨⟨env, -, -, hworld⟩, -⟩ := hstep
  obtain ⟨hstored, hkey, -⟩ :=
    Memory.createdRun_key hsound.attributed.referenced.store.runIdempotent env request
  have hrun : HasRunKey d''.world request := by
    rw [hworld]
    exact ⟨_, _, hstored, hkey⟩
  exact .inr ⟨request, hrequest, hrun⟩

/-- A trigger that returns no error has left the record of its instant behind. -/
theorem rule_trigger {job : Job} {t : Time} (hfires : Fires catalogue job t) (hplain : job.Plain)
    {engine : Option Pipeline.Registry} (hengine : ∀ registry ∈ engine, PlainRegistry registry) :
    Rule catalogue (fun _ => True)
      (onStore (job.target.trigger engine t (scheduleKey job.name t)))
      fun result d => errorOf result = none → Left d.world job t := by
  cases htarget : job.target with
  | task definition input =>
      rw [Target.trigger, Task.Definition.enqueue]
      cases hraw : definition.encodeInput (input t) with
      | error err => exact Triple.done fun _ _ _ herr => nomatch herr
      | ok raw =>
          have hrequest : job.taskRequest t =
              some (Task.withIdempotencyKey (scheduleKey job.name t) (definition.request raw)) := by
            rw [Job.taskRequest, htarget]
            simp only [hraw, Except.toOption, Option.map_some]
          refine Triple.call (rule_createExecution hfires hplain hrequest) ?_
          rintro (err | item)
          · exact Triple.done fun _ _ _ herr => nomatch herr
          · exact Triple.done fun _ _ hleft _ => hleft item rfl
  | pipeline definition input =>
      cases engine with
      | none => exact Triple.done fun _ _ _ herr => nomatch herr
      | some registry =>
          rw [Target.trigger, Pipeline.run.eq_def]
          split
          · exact Triple.done fun _ _ _ herr => nomatch herr
          · split
            · split
              · exact Triple.done fun _ _ _ herr => nomatch herr
              · next raw hraw =>
                have hrequest : job.runRequest t = some (Pipeline.withIdempotencyKey
                    (scheduleKey job.name t) ⟨definition.name, definition.version, raw, ""⟩) := by
                  rw [Job.runRequest, htarget]
                  simp only [hraw, Except.toOption, Option.map_some]
                refine Triple.call (rule_createPipelineRun hfires hplain hrequest) ?_
                intro run
                refine Triple.weaken (rule_onStore ?_ fun _ _ hleft hrely => hleft.persists hrely.world)
                  fun _ _ _ hleft _ => hleft
                apply Program.Issues.bind
                · apply Program.Issues.bind (issues_advanceTries (hengine registry rfl) run.id 4)
                  rintro (err | ⟨⟩)
                  · trivial
                  · exact ⟨trivial, fun _ => trivial⟩
                · exact fun _ => trivial
            · exact Triple.done fun _ _ _ herr => nomatch herr

/-! ## The scheduler -/

theorem issues_isActive (target : Target) : target.isActive.Issues (Lawful catalogue) := by
  cases target with
  | task definition input =>
      have hlisted : ∀ statuses, (anyListed definition.spec.name statuses).Issues (Lawful catalogue) := by
        intro statuses
        induction statuses with
        | nil => trivial
        | cons status rest ih =>
            refine ⟨trivial, fun items => ?_⟩
            dsimp only
            split
            · trivial
            · exact ih
      exact hlisted _
  | pipeline definition input => exact ⟨trivial, fun _ => trivial⟩

section Job

variable {job : Job} {t : Time} (hfires : Fires catalogue job t) (hplain : job.Plain)
  {engine : Option Pipeline.Registry} (hengine : ∀ registry ∈ engine, PlainRegistry registry)

include hfires hplain hengine

theorem rule_triggerAt :
    Rule catalogue (fun _ => True) (job.triggerAt engine t) fun _ d => Told d job.name t :=
  (rule_trigger hfires hplain hengine).bind fun _ =>
    (rule_tell hfires).of fun _ _ hleft herr _ => hleft herr

theorem rule_fire :
    Rule catalogue (fun _ => True) (job.fire engine t) fun _ d => Told d job.name t := by
  rw [Job.fire]
  split
  · next hskip =>
    apply Triple.bind (rule_onStore (issues_isActive job.target) fun _ _ _ _ => trivial)
    intro active
    split
    · refine (rule_tell hfires).of ?_
      intro _ _ _ _ hallow
      rw [hskip] at hallow
      cases hallow
    · exact rule_triggerAt hfires hplain hengine
  · exact rule_triggerAt hfires hplain hengine

end Job

/-- A replica of a scheduler with jobs of the deployment, whose clock shows years of four digits. -/
structure Replica.Of (catalogue : List Job) (replica : Replica) (start : Time) (ticks : List Time) :
    Prop where
  jobs : ∀ job ∈ replica.jobs, job ∈ catalogue
  engine : ∀ registry ∈ replica.engine, PlainRegistry registry
  dated : ∀ fire ∈ (replica.scheduler.run start ticks).1, Dated fire.scheduledAt

/-- The job of a firing. -/
theorem Replica.job_of_fire (replica : Replica) {start : Time} {ticks : List Time} {fire : Fire}
    (hfire : fire ∈ (replica.scheduler.run start ticks).1) :
    ∃ job ∈ replica.jobs, replica.jobs.find? (·.name == fire.name) = some job ∧
      job.name = fire.name ∧ job.Instant fire.scheduledAt := by
  obtain ⟨d, hd, hname, hinstant⟩ := replica.scheduler.run_of start ticks hfire
  have hnodup := replica.scheduler.names_nodup
  rw [replica.definitions] at hd hnodup
  obtain ⟨own, hown, rfl⟩ := List.mem_map.mp hd
  have hsome : (replica.jobs.find? (·.name == fire.name)).isSome = true :=
    List.find?_isSome.mpr ⟨own, hown, by simp [hname]⟩
  obtain ⟨job, hfind⟩ := Option.isSome_iff_exists.mp hsome
  have hjob := List.mem_of_find?_eq_some hfind
  have hjobName : job.name = fire.name := by simpa using List.find?_some hfind
  -- The names are distinct, so the job that is found has the schedule of the firing.
  have hsame : job.toDefinition = own.toDefinition :=
    List.inj_on_of_nodup_map hnodup (List.mem_map_of_mem hjob) hd (hjobName.trans hname.symm)
  exact ⟨job, hjob, hfind, hjobName, hsame ▸ hinstant⟩

/-- A replica reports every firing. -/
theorem rule_replica (hplain : ∀ job ∈ catalogue, job.Plain) {replica : Replica} {start : Time}
    {ticks : List Time} (h : replica.Of catalogue start ticks) :
    Rule catalogue (Sound catalogue) (replica.run start ticks) fun fires d =>
      ∀ fire ∈ fires, Told d fire.name fire.scheduledAt := by
  have hfire : ∀ fire ∈ (replica.scheduler.run start ticks).1,
      Rule catalogue (fun _ => True) (replica.fire fire) fun _ d =>
        Told d fire.name fire.scheduledAt := by
    intro fire hmem
    obtain ⟨job, hjob, hfind, hname, hinstant⟩ := replica.job_of_fire hmem
    have hfires : Fires catalogue job fire.scheduledAt :=
      ⟨h.jobs job hjob, hinstant, h.dated fire hmem⟩
    rw [Replica.fire, hfind, ← hname]
    exact rule_fire hfires (hplain job hfires.mem) h.engine
  have hall : ∀ fires : List Fire, (∀ fire ∈ fires, Rule catalogue (fun _ => True)
      (replica.fire fire) fun _ d => Told d fire.name fire.scheduledAt) →
      Rule catalogue (Sound catalogue) (replica.fireAll fires) fun _ d =>
        ∀ fire ∈ fires, Told d fire.name fire.scheduledAt := by
    intro fires hrules
    induction fires with
    | nil => exact Triple.done fun _ _ _ => nofun
    | cons fire rest ih =>
        rw [List.forall_mem_cons] at hrules
        have hstable : ∀ d d', Told d fire.name fire.scheduledAt → Rely d d' →
            Told d' fire.name fire.scheduledAt := fun _ _ htold hrely => htold.stable hrely
        have hfirst := Rule.keep hrules.1 fun _ _ (_ : True) _ => trivial
        have hrest := Rule.keep (ih hrules.2) hstable
        refine Triple.weaken (Triple.bind (hfirst.of ?_) fun _ => hrest.of ?_) ?_
        · exact fun _ _ hsound => ⟨trivial, hsound, trivial⟩
        · exact fun _ _ h => ⟨h.2.1, h.2.1, h.1⟩
        · exact fun _ _ _ h => List.forall_mem_cons.mpr ⟨h.2.2, h.1⟩
  apply Triple.map
  exact hall _ hfire

/-! ## Deployments -/

/-- The calls of clients. They name tasks plainly and use no key of an instant. -/
def Foreign : Call → Prop
  | .createExecution request =>
      '\x00' ∉ request.taskName.toList ∧ ¬ Stamped request.idempotencyKey
  | .createPipelineRun request =>
      '\x00' ∉ request.pipelineName.toList ∧ ¬ Stamped request.idempotencyKey
  | .purge _ _ => False
  | _ => True

variable (catalogue) in
/-- The programs of a deployment: replicas of the scheduler, and clients such as workers, engines
and operators. -/
inductive Participant : Program Action ActionReply (List Fire) → Prop
  | replica {replica : Replica} {start : Time} {ticks : List Time}
      (h : replica.Of catalogue start ticks) : Participant (replica.run start ticks)
  | client {p : Program Call Reply Unit} (h : p.Issues Foreign) :
      Participant ((onStore p).map fun _ => [])

/-- Nothing is stored and nothing was reported. -/
def Deployment.Initial (d : Deployment) : Prop := d.world.Initial ∧ d.reports = []

theorem issues_lawful {α : Type} {p : Program Call Reply α} (h : p.Issues Foreign) :
    p.Issues (Lawful catalogue) := by
  induction p with
  | done a => trivial
  | call c next ih =>
      refine ⟨?_, fun r => ih r (h.2 r)⟩
      have hc := h.1
      cases c with
      | createExecution request => exact ⟨hc.1, fun hstamped => absurd hstamped hc.2⟩
      | createPipelineRun request => exact ⟨hc.1, fun hstamped => absurd hstamped hc.2⟩
      | purge before limit => exact hc.elim
      | _ => trivial

/-- Every reachable deployment is sound, and a replica that has finished has told about its
firings. -/
theorem sound_of_reach (hplain : ∀ job ∈ catalogue, job.Plain) {d : Deployment}
    {threads : List (Thread Unit Action ActionReply (List Fire))}
    (run : Reach deployment Deployment.Initial (Participant catalogue) d threads) :
    Sound catalogue d ∧ ∀ thread ∈ threads, ∀ fires, thread.program = .done fires →
      ∀ fire ∈ fires, Told d fire.name fire.scheduledAt := by
  have hspawn : ∀ p, Participant catalogue p → Rule catalogue (Sound catalogue) p fun fires d =>
      ∀ fire ∈ fires, Told d fire.name fire.scheduledAt := by
    rintro p (h | h)
    · exact rule_replica hplain h
    · apply Triple.map
      have hclient : Rule catalogue (fun _ => True) (onStore _) fun _ _ => True :=
        rule_onStore (issues_lawful h) fun _ _ _ _ => trivial
      exact (hclient.of fun _ _ _ => trivial).weaken fun _ _ _ _ => nofun
  have hinitial : ∀ d, Deployment.Initial d → Sound catalogue d := by
    rintro ⟨_, _⟩ ⟨⟨clock, rfl⟩, rfl⟩
    exact ⟨Attributed.init clock, nofun⟩
  obtain ⟨hsound, hthreads⟩ := run.promises Rely.refl (fun _ _ _ _ _ _ h h' => h.trans h')
    (fun _ _ h => h)
    (fun _ _ _ _ _ _ hrely htold fire hfire => (htold fire hfire).stable hrely)
    hinitial fun p hp => (hspawn p hp).of fun _ _ h => h.2
  refine ⟨hsound, fun thread hthread fires hdone => ?_⟩
  have hsafe := hthreads thread hthread
  rw [hdone] at hsafe
  exact hsafe

/-! ## One record for each instant -/

/-- The record of this identifier answers the request of the instant. -/
def Started (w : World) (job : Job) (t : Time) (id : UUID) : Prop :=
  (∃ request item, job.taskRequest t = some request ∧ w.store.executions.lookup id = some item ∧
    Answers request item) ∨
  ∃ run, job.runRequest t = some (requestOf run) ∧ w.store.runs.lookup id = some run

theorem Job.runRequest_of_task {job : Job} {t t' : Time} {request : CreateExecution}
    (h : job.taskRequest t = some request) : job.runRequest t' = none := by
  rw [Job.taskRequest] at h
  rw [Job.runRequest]
  split at h
  · rfl
  · cases h

theorem Answers.keyOf {request : CreateExecution} {item : Execution} (h : Answers request item) :
    keyOf item = requestKey request := by
  rw [Memory.keyOf, requestKey, h.taskName, h.key]

theorem requestKey_eq {job : Job} {t : Time} {request : CreateExecution}
    (h : job.taskRequest t = some request) :
    requestKey request = some (idempotencyIndex request.taskName request.idempotencyKey) := by
  have hkey : request.idempotencyKey ≠ "" := by
    rw [(Job.taskRequest_key h).1]
    exact (stamped_scheduleKey job.name t).ne_empty
  exact if_pos hkey

theorem runRequestKey_eq {job : Job} {t : Time} {request : CreatePipelineRun}
    (h : job.runRequest t = some request) :
    runRequestKey request = some (idempotencyIndex request.pipelineName request.idempotencyKey) := by
  have hkey : request.idempotencyKey ≠ "" := by
    rw [Job.runRequest_key h]
    exact (stamped_scheduleKey job.name t).ne_empty
  exact if_pos hkey

/-- Two records of one instant are the same. -/
theorem Attributed.started_unique {w : World} (h : Attributed catalogue w) {job : Job} {t : Time}
    {id id' : UUID} (hid : Started w job t id) (hid' : Started w job t id') : id = id' := by
  rcases hid with ⟨request, item, hrequest, hl, hanswers⟩ | ⟨run, hrequest, hl⟩
  · rcases hid' with ⟨request', item', hrequest', hl', hanswers'⟩ | ⟨run', hrequest', -⟩
    · obtain rfl : request = request' := Option.some.inj (hrequest.symm.trans hrequest')
      have hkey := requestKey_eq hrequest
      exact h.referenced.store.idempotent.unique hl hl' (hanswers.keyOf.trans hkey)
        (hanswers'.keyOf.trans hkey)
    · cases (Job.runRequest_of_task hrequest).symm.trans hrequest'
  · rcases hid' with ⟨request', item', hrequest', -, -⟩ | ⟨run', hrequest', hl'⟩
    · cases (Job.runRequest_of_task hrequest').symm.trans hrequest
    · have hsame : requestOf run = requestOf run' := Option.some.inj (hrequest.symm.trans hrequest')
      have hkey : runKeyOf run = some (idempotencyIndex run.pipelineName run.idempotencyKey) :=
        runRequestKey_eq hrequest
      have hkey' : runKeyOf run' = some (idempotencyIndex run.pipelineName run.idempotencyKey) := by
        have hrun' : runKeyOf run' = runRequestKey (requestOf run') := rfl
        rw [hrun', ← hsame]
        exact hkey
      exact h.referenced.store.runIdempotent.unique hl hl' hkey hkey'

section Names

variable (hnames : (catalogue.map (·.name)).Nodup)

include hnames

/-- A key is that of one job and one instant. -/
theorem Fires.unique {job job' : Job} {t t' : Time} (h : Fires catalogue job t)
    (h' : Fires catalogue job' t') (hkey : scheduleKey job.name t = scheduleKey job'.name t') :
    job = job' ∧ t = t' := by
  obtain ⟨hname, hinstant⟩ := scheduleKey_inj h.dated h'.dated hkey
  exact ⟨List.inj_on_of_nodup_map hnames h.mem h'.mem hname, hinstant⟩

/-- What a firing left behind is the record of its instant. -/
theorem Attributed.started {w : World} (h : Attributed catalogue w)
    (hplain : ∀ job ∈ catalogue, job.Plain) {job : Job} {t : Time} (hfires : Fires catalogue job t)
    (hleft : Left w job t) : ∃ id, Started w job t id := by
  rcases hleft with ⟨request, hrequest, id, item, hl, hkey⟩ | ⟨request, hrequest, id, run, hl, hkey⟩
  · rw [requestKey_eq hrequest] at hkey
    obtain ⟨-, hkey⟩ := keyReference_inj (h.plain id item hl)
      (job.taskRequest_plain (hplain job hfires.mem) hrequest) hkey (requestKey_eq hrequest)
    have hinstant := hkey.trans (Job.taskRequest_key hrequest).1
    obtain ⟨job', t', request', hfires', hrequest', hanswers⟩ :=
      h.execution id item hl (hinstant ▸ stamped_scheduleKey job.name t)
    have hsame : scheduleKey job.name t = scheduleKey job'.name t' := by
      rw [← hinstant, hanswers.key, (Job.taskRequest_key hrequest').1]
    obtain ⟨rfl, rfl⟩ := hfires.unique hnames hfires' hsame
    exact ⟨id, .inl ⟨request', item, hrequest', hl, hanswers⟩⟩
  · rw [runRequestKey_eq hrequest] at hkey
    obtain ⟨-, hkey⟩ := keyReference_inj (h.run id run hl).plain
      (job.runRequest_plain (hplain job hfires.mem) hrequest) hkey (runRequestKey_eq hrequest)
    have hinstant : (requestOf run).idempotencyKey = scheduleKey job.name t :=
      hkey.trans (Job.runRequest_key hrequest)
    obtain ⟨job', t', hfires', hrequest'⟩ :=
      (h.run id run hl).stamped (hinstant ▸ stamped_scheduleKey job.name t)
    have hsame : scheduleKey job.name t = scheduleKey job'.name t' :=
      hinstant.symm.trans (Job.runRequest_key hrequest')
    obtain ⟨rfl, rfl⟩ := hfires.unique hnames hfires' hsame
    exact ⟨id, .inr ⟨run, hrequest', hl⟩⟩

end Names

variable (catalogue) in
/-- A record with the key of an instant is the only record of one instant of one job. -/
def OwnInstant (w : World) (id : UUID) (key : String) : Prop :=
  ∃ job t, Fires catalogue job t ∧ Started w job t id ∧ (∀ id', Started w job t id' → id' = id) ∧
    ∀ job' t', Fires catalogue job' t' → key = scheduleKey job'.name t' → job' = job ∧ t' = t

/-- In every interleaving of scheduler replicas and clients: a firing that was reported without an
error has started exactly one execution or run, with the input of its instant, unless its job skips
overlaps; and every execution and every run with the key of an instant belongs to one instant of one
job, which no other record belongs to. -/
theorem instants_started_once (hnames : (catalogue.map (·.name)).Nodup)
    (hplain : ∀ job ∈ catalogue, job.Plain) {d : Deployment}
    {threads : List (Thread Unit Action ActionReply (List Fire))}
    (run : Reach deployment Deployment.Initial (Participant catalogue) d threads) :
    (∀ report ∈ d.reports, ∃ job, Fires catalogue job report.scheduledAt ∧ job.name = report.name ∧
      (report.err = none → job.overlap = .allow →
        ∃! id, Started d.world job report.scheduledAt id)) ∧
    (∀ id item, d.world.store.executions.lookup id = some item → Stamped item.idempotencyKey →
      OwnInstant catalogue d.world id item.idempotencyKey) ∧
    ∀ id run, d.world.store.runs.lookup id = some run → Stamped run.idempotencyKey →
      OwnInstant catalogue d.world id run.idempotencyKey := by
  obtain ⟨⟨hattributed, hreported⟩, -⟩ := sound_of_reach hplain run
  refine ⟨?_, ?_, ?_⟩
  · intro report hreport
    obtain ⟨job, hfires, hname, hleft⟩ := hreported report hreport
    refine ⟨job, hfires, hname, fun herr hallow => ?_⟩
    obtain ⟨id, hid⟩ := hattributed.started hnames hplain hfires (hleft herr hallow)
    exact ⟨id, hid, fun id' hid' => hattributed.started_unique hid' hid⟩
  · intro id item hl hstamped
    obtain ⟨job, t, request, hfires, hrequest, hanswers⟩ := hattributed.execution id item hl hstamped
    have hstarted : Started d.world job t id := .inl ⟨request, item, hrequest, hl, hanswers⟩
    refine ⟨job, t, hfires, hstarted, fun id' hid' => hattributed.started_unique hid' hstarted, ?_⟩
    intro job' t' hfires' hkey
    rw [hanswers.key, (Job.taskRequest_key hrequest).1] at hkey
    exact hfires'.unique hnames hfires hkey.symm
  · intro id run hl hstamped
    obtain ⟨job, t, hfires, hrequest⟩ := (hattributed.run id run hl).stamped hstamped
    have hstarted : Started d.world job t id := .inr ⟨run, hrequest, hl⟩
    refine ⟨job, t, hfires, hstarted, fun id' hid' => hattributed.started_unique hid' hstarted, ?_⟩
    intro job' t' hfires' hkey
    exact hfires'.unique hnames hfires (hkey.symm.trans (Job.runRequest_key hrequest))

theorem mem_of_mem_instants {name : String} {t : Time} {fires : List Fire}
    (h : t ∈ instants name fires) : ⟨name, t⟩ ∈ fires := by
  obtain ⟨fire, hfire, hsome⟩ := List.mem_filterMap.mp h
  split at hsome
  · next hname =>
    cases hsome
    exact hname ▸ hfire
  · cases hsome

/-- A record of a job belongs to one of its instants. -/
theorem Attributed.instant_of_started {w : World} (h : Attributed catalogue w)
    (hnames : (catalogue.map (·.name)).Nodup) {job : Job} (hjob : job ∈ catalogue) {t : Time}
    (ht : Dated t) {id : UUID} (hid : Started w job t id) : job.Instant t := by
  -- The key of the record is also that of a firing, and a key names one job and one instant.
  have hsame : ∀ job' t', Fires catalogue job' t' →
      scheduleKey job.name t = scheduleKey job'.name t' → job.Instant t := by
    intro job' t' hfires hkey
    obtain ⟨hname, rfl⟩ := scheduleKey_inj ht hfires.dated hkey
    obtain rfl := List.inj_on_of_nodup_map hnames hjob hfires.mem hname
    exact hfires.instant
  rcases hid with ⟨request, item, hrequest, hl, hanswers⟩ | ⟨run, hrequest, hl⟩
  · have hkey := hanswers.key.trans (Job.taskRequest_key hrequest).1
    obtain ⟨job', t', request', hfires, hrequest', hanswers'⟩ :=
      h.execution id item hl (hkey ▸ stamped_scheduleKey job.name t)
    apply hsame job' t' hfires
    rw [← hkey, hanswers'.key, (Job.taskRequest_key hrequest').1]
  · have hkey := Job.runRequest_key hrequest
    obtain ⟨job', t', hfires, hrequest'⟩ :=
      (h.run id run hl).stamped (hkey ▸ stamped_scheduleKey job.name t)
    exact hsame job' t' hfires (hkey.symm.trans (Job.runRequest_key hrequest'))

/-- With `MisfireCatchUp`, a replica that has finished its ticks within the limits and without a
reported error has left exactly one execution or run for every instant from its lookback to its
largest clock value, whatever the other replicas and clients did; and there is none for any time
that is not an instant. -/
theorem caught_up_instants_started_once (hnames : (catalogue.map (·.name)).Nodup)
    (hplain : ∀ job ∈ catalogue, job.Plain) {d : Deployment}
    {threads : List (Thread Unit Action ActionReply (List Fire))}
    (run : Reach deployment Deployment.Initial (Participant catalogue) d threads)
    {replica : Replica} {start : Time} {ticks : List Time} (hof : replica.Of catalogue start ticks)
    {thread : Thread Unit Action ActionReply (List Fire)} (hthread : thread ∈ threads)
    (hdone : thread.program = .done (replica.scheduler.run start ticks).1)
    {job : Job} (hjob : job ∈ replica.jobs) (hallow : job.overlap = .allow)
    (hpolicy : job.options.misfire = .catchUp) {S : Set Time} (hS : Successor S job.schedule)
    (hlimit : WithinLimit replica.scheduler job.toDefinition start ticks)
    (hok : ∀ report ∈ d.reports, report.name = job.name → report.err = none) :
    (∀ t ∈ S, job.windowStart start < t → t ≤ latestClock start ticks →
      ∃! id, Started d.world job t id) ∧
    ∀ t, Dated t → ∀ id, Started d.world job t id → t ∈ S := by
  obtain ⟨⟨hattributed, hreported⟩, htold⟩ := sound_of_reach hplain run
  have hcatalogue := hof.jobs job hjob
  constructor
  · intro t ht hstart hlatest
    have hdefinition : job.toDefinition ∈ replica.scheduler.definitions := by
      rw [replica.definitions]
      exact List.mem_map_of_mem hjob
    have hcovers := (covers_run hdefinition hS hpolicy hlimit).fired
    have hinstant : t ∈ instants job.name (replica.scheduler.run start ticks).1 :=
      (hcovers.mem_iff t).mpr ⟨ht, hstart, hlatest⟩
    have hfire := mem_of_mem_instants hinstant
    obtain ⟨report, hreport, hname, rfl⟩ := htold thread hthread _ hdone _ hfire
    obtain ⟨job', hfires, hname', hleft⟩ := hreported report hreport
    obtain rfl : job = job' :=
      List.inj_on_of_nodup_map hnames hcatalogue hfires.mem (hname.symm.trans hname'.symm)
    obtain ⟨id, hid⟩ := hattributed.started hnames hplain hfires
      (hleft (hok report hreport hname) hallow)
    exact ⟨id, hid, fun id' hid' => hattributed.started_unique hid' hid⟩
  · intro t ht id hid
    obtain ⟨after, hafter⟩ := hattributed.instant_of_started hnames hcatalogue ht hid
    rw [← hafter]
    exact hS.mem after

end Catalogue

/-! ## Two replicas -/

/-- Concrete interleavings of a deployment. -/
def deploymentExecution : Library.Interleaving.Execution deployment where
  exec := fun d => fun
    | .store c => ((exec d.world.env d.world.store c).1, { d with world := d.world.after d.world.env c })
    | .triggered report => ((), { d with reports := d.reports ++ [report] })
  ready := fun _ _ _ => true
  allowed := fun _ _ _ _ => trivial
  step := by
    rintro d ⟨⟩ (c | report) -
    · exact ⟨⟨d.world.env, d.world.env_fresh, rfl, rfl⟩, rfl⟩
    · rfl

/-- A task every hour, whose input is the instant. -/
def hourlyTask : Job where
  name := "report"
  schedule := hourly
  options := ⟨.catchUp, 2 * hour, 10⟩
  overlap := .allow
  target := .task (Pipeline.sampleTask "report") fun t => .ok (formatTime t)

/-- A replica that starts with an empty map. -/
def hourlyReplica : Replica where
  jobs := [hourlyTask]
  engine := none
  scheduler := ⟨[hourlyTask.toDefinition], ∅, List.nodup_singleton _⟩
  definitions := rfl

/-- A midnight. -/
def midnight : Time := 63844934400000000000

/-- Both replicas start just after midnight and recover two instants; their calls alternate. -/
def hourlyMoves : List (Move Action ActionReply (List Fire)) :=
  [.spawn (hourlyReplica.run (midnight + 5) []), .spawn (hourlyReplica.run (midnight + 5) []),
    .step 0, .step 1, .step 0, .step 1, .step 0, .step 1, .step 0, .step 1]

/-- Every firing was reported twice, without an error. -/
def hourlyReports : List Report :=
  [⟨"report", midnight - hour, none⟩, ⟨"report", midnight - hour, none⟩,
    ⟨"report", midnight, none⟩, ⟨"report", midnight, none⟩]

/-- The first replica has finished. -/
def hourlyFinished (final : Deployment × List (Thread Unit Action ActionReply (List Fire))) : Bool :=
  final.1.reports == hourlyReports &&
    final.2.any fun thread =>
      match thread.program with
      | .done fires => fires == (hourlyReplica.scheduler.run (midnight + 5) []).1
      | .call _ _ => false

theorem hourlyReplica_of : hourlyReplica.Of [hourlyTask] (midnight + 5) [] := by
  refine ⟨fun _ h => h, nofun, ?_⟩
  decide +kernel

theorem hourlyTask_plain : ∀ job ∈ [hourlyTask], job.Plain := by
  intro job hjob
  rw [List.mem_singleton.mp hjob]
  show '\x00' ∉ "report".toList
  decide

theorem hourlyMoves_reach : ∃ d threads,
    Reach deployment Deployment.Initial (Participant [hourlyTask]) d threads ∧
      hourlyFinished (d, threads) = true := by
  have hmoves : ∀ m ∈ hourlyMoves, m.Spawns (Participant [hourlyTask]) := by
    have hspawn := Participant.replica hourlyReplica_of
    simp [hourlyMoves, Move.Spawns, hspawn]
  have hends : (deploymentExecution.drive hourlyMoves ⟨World.init 5, []⟩ []).any hourlyFinished =
      true := by
    decide +kernel
  have hinitial : Deployment.Initial ⟨World.init 5, []⟩ := ⟨World.init_initial 5, rfl⟩
  exact deploymentExecution.drive_configuration hmoves hinitial hends

theorem instants_started_once_of_two_replicas :
    ∃ d : Deployment, d.reports = hourlyReports ∧
      ∃! id, Started d.world hourlyTask midnight id := by
  obtain ⟨d, threads, hreach, htest⟩ := hourlyMoves_reach
  have hreports : d.reports = hourlyReports := eq_of_beq (Bool.and_eq_true_iff.mp htest).1
  have hnames : ([hourlyTask].map (·.name)).Nodup := List.nodup_singleton _
  obtain ⟨hreported, -⟩ := instants_started_once hnames hourlyTask_plain hreach
  have hreport : ⟨"report", midnight, none⟩ ∈ d.reports := by
    rw [hreports]
    simp [hourlyReports]
  obtain ⟨job, hfires, -, hstarted⟩ := hreported _ hreport
  obtain rfl := List.mem_singleton.mp hfires.mem
  exact ⟨d, hreports, hstarted rfl rfl⟩

theorem caught_up_instants_started_once_of_two_replicas :
    ∃ d : Deployment, d.reports = hourlyReports ∧
      (∀ t, hour ∣ t → midnight + 5 - 2 * hour < t → t ≤ midnight + 5 →
        ∃! id, Started d.world hourlyTask t id) ∧
      ∀ t, Dated t → ∀ id, Started d.world hourlyTask t id → hour ∣ t := by
  obtain ⟨d, threads, hreach, htest⟩ := hourlyMoves_reach
  obtain ⟨hreports, hfinished⟩ := Bool.and_eq_true_iff.mp htest
  have hreports : d.reports = hourlyReports := eq_of_beq hreports
  obtain ⟨thread, hthread, hdone⟩ := List.any_eq_true.mp hfinished
  have hprogram : thread.program = .done (hourlyReplica.scheduler.run (midnight + 5) []).1 := by
    split at hdone
    · next hprogram => rw [hprogram, eq_of_beq hdone]
    · cases hdone
  have hlimit : WithinLimit hourlyReplica.scheduler hourlyTask.toDefinition (midnight + 5) [] :=
    ⟨fun _ => by decide +kernel, fun before now h => by simp at h⟩
  have hok : ∀ report ∈ d.reports, report.name = hourlyTask.name → report.err = none := by
    rw [hreports]
    decide
  have hnames : ([hourlyTask].map (·.name)).Nodup := List.nodup_singleton _
  exact ⟨d, hreports, caught_up_instants_started_once hnames hourlyTask_plain hreach
    hourlyReplica_of hthread hprogram List.mem_cons_self rfl rfl hourly_successor hlimit hok⟩

end Ody.Schedule
