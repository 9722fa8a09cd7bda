import Ody.Redis.Store

/-!
# The representation invariant of the Redis store

Every index, counter and reference is the one that the records determine. The
lease index is looser: it holds only running executions, and every running
execution whose attempts are used up. Each block of commands that the store sends
rewrites one record and what it determines.
-/

namespace Ody.Redis

open Library.Tables Library.DerivedIndexes Library.Interleaving Library.Optimistic
open Memory (Env)

/-! ## What the records determine -/

theorem mem_references_idempotency {item : Execution} {key : String} :
    RefKey.idempotency key ∈ references item ↔
      item.idempotencyKey ≠ "" ∧ key = idempotencyIndex item.taskName item.idempotencyKey := by
  unfold references
  cases item.pipelineRunID <;> simp [idempotencyKey]

theorem mem_references_node {item : Execution} {runID : UUID} {node : String} :
    RefKey.node runID node ∈ references item ↔
      item.pipelineRunID = some runID ∧ item.nodeKey = node ∧ node ≠ "" := by
  unfold references
  cases item.pipelineRunID with
  | none => simp [idempotencyKey]
  | some itemRun =>
      simp only [idempotencyKey, List.mem_append, List.mem_ite_nil_right, List.mem_singleton,
        reduceCtorEq, and_false, false_or, RefKey.node.injEq, Option.some.injEq]
      grind

/-- The score of an execution in its queue. -/
def queueScore (item : Execution) : Option Int :=
  match item.status with
  | .pending => some (score item.availableAt)
  | .retry => some (score item.availableAt)
  | .running => some (score item.leaseUntil)
  | _ => none

/-- The score of an execution in each sorted set. -/
def executionScore : ExecutionIndex → Execution → Option Int
  | .all, item => some (score item.createdAt)
  | .task name, item => if item.taskName = name then some (score item.createdAt) else none
  | .status status, item => if item.status = status then some (score item.createdAt) else none
  | .queue name, item => if item.taskName = name then queueScore item else none
  | .run runID, item =>
      if item.pipelineRunID = some runID then some (score item.createdAt) else none

def executionSchema : Schema UUID Execution ExecutionIndex (String × Status) RefKey where
  key := (·.id)
  score := executionScore
  field := fun item => (item.taskName, item.status)
  refs := references

/-- The score of a run in each sorted set. -/
def runScore : RunIndex → PipelineRun → Option Int
  | .all, run => some (score run.createdAt)
  | .status status, run => if run.status = status then some (score run.createdAt) else none

def runSchema : Schema UUID PipelineRun RunIndex (String × RunStatus) String where
  key := (·.id)
  score := runScore
  field := fun run => (run.pipelineName, run.status)
  refs := runReferences

/-- The entry of an execution in the lease index. -/
structure LeaseEntry (stored : Option Execution) (entry : Option Int) : Prop where
  running : ∀ value, entry = some value →
    ∃ item, stored = some item ∧ item.status = .running ∧ value = score item.leaseUntil
  final : ∀ item, stored = some item → item.status = .running → item.maxAttempts ≤ item.attempt →
    entry = some (score item.leaseUntil)

/-- The representation invariant. -/
structure Represented (s : Keyspace) : Prop where
  executions : Derived executionSchema s.executions
  runs : Derived runSchema s.runs
  leases : ∀ id, LeaseEntry (s.executions.records.lookup id) (s.leases.lookup id)

theorem Represented.empty : Represented Keyspace.empty where
  executions := Derived.empty
  runs := Derived.empty
  leases := by
    intro id
    constructor <;> simp [Keyspace.empty, Indexed.empty]

/-- A block that rewrites one execution keeps the invariant. -/
theorem Represented.rewrite {s s' : Keyspace} (h : Represented s) {id : UUID}
    {stored : Option Execution}
    (hexecutions : Rewrites executionSchema s.executions s'.executions id stored)
    (hruns : s'.runs = s.runs)
    (hleases : ∀ id', id' ≠ id → s'.leases.lookup id' = s.leases.lookup id')
    (hlease : LeaseEntry stored (s'.leases.lookup id)) : Represented s' where
  executions := h.executions.rewrite hexecutions
  runs := hruns ▸ h.runs
  leases := by
    intro id'
    rw [hexecutions.records, lookup_set]
    by_cases heq : id' = id
    · rw [if_pos heq, heq]
      exact hlease
    · rw [if_neg heq, hleases id' heq]
      exact h.leases id'

/-- A block that rewrites one run keeps the invariant. -/
theorem Represented.rewriteRun {s s' : Keyspace} (h : Represented s) {id : UUID}
    {stored : Option PipelineRun} (hexecutions : s'.executions = s.executions)
    (hruns : Rewrites runSchema s.runs s'.runs id stored) (hleases : s'.leases = s.leases) :
    Represented s' where
  executions := hexecutions ▸ h.executions
  runs := h.runs.rewrite hruns
  leases := by
    rw [hexecutions, hleases]
    exact h.leases

/-! ## Blocks by the part of the keyspace they change -/

/-- What a command does to executions and their derived data. -/
def Command.onExecutions : Command →
    Option (Library.DerivedIndexes.Command UUID Execution ExecutionIndex (String × Status) RefKey)
  | .set id item => some (.set id item)
  | .del id => some (.del id)
  | .hIncrBy name status delta => some (.incr (name, status) delta)
  | .zAdd (.execution index) value member => some (.add index value member)
  | .zRem (.execution index) member => some (.remove index member)
  | .setRef key id => some (.setRef key id)
  | .delRef key => some (.delRef key)
  | _ => none

/-- What a command does to runs and their derived data. -/
def Command.onRuns : Command →
    Option (Library.DerivedIndexes.Command UUID PipelineRun RunIndex (String × RunStatus) String)
  | .hSet id run => some (.set id run)
  | .delRun id => some (.del id)
  | .hIncrByRun name status delta => some (.incr (name, status) delta)
  | .zAdd (.run index) value member => some (.add index value member)
  | .zRem (.run index) member => some (.remove index member)
  | .setRunRef key id => some (.setRef key id)
  | .delRunRef key => some (.delRef key)
  | _ => none

/-- What a command does to the lease index. -/
def Command.onLeases (leases : Table UUID Int) : Command → Table UUID Int
  | .zAdd .leases value member => leases.insert member value
  | .zRem .leases member => leases.erase member
  | _ => leases

theorem executions_applyAll (s : Keyspace) (commands : List Command) :
    (s.applyAll commands).executions =
      (commands.filterMap Command.onExecutions).foldl Indexed.apply s.executions := by
  induction commands generalizing s with
  | nil => rfl
  | cons c rest ih =>
      have hrest : (s.applyAll (c :: rest)).executions = ((s.apply c).applyAll rest).executions := rfl
      rw [hrest, ih]
      cases c with
      | zAdd key value member => cases key <;> rfl
      | zRem key member => cases key <;> rfl
      | _ => rfl

theorem runs_applyAll (s : Keyspace) (commands : List Command) :
    (s.applyAll commands).runs =
      (commands.filterMap Command.onRuns).foldl Indexed.apply s.runs := by
  induction commands generalizing s with
  | nil => rfl
  | cons c rest ih =>
      have hrest : (s.applyAll (c :: rest)).runs = ((s.apply c).applyAll rest).runs := rfl
      rw [hrest, ih]
      cases c with
      | zAdd key value member => cases key <;> rfl
      | zRem key member => cases key <;> rfl
      | _ => rfl

theorem leases_applyAll (s : Keyspace) (commands : List Command) :
    (s.applyAll commands).leases = commands.foldl Command.onLeases s.leases := by
  induction commands generalizing s with
  | nil => rfl
  | cons c rest ih =>
      have hrest : (s.applyAll (c :: rest)).leases = ((s.apply c).applyAll rest).leases := rfl
      rw [hrest, ih, List.foldl_cons]
      cases c with
      | zAdd key value member => cases key <;> rfl
      | zRem key member => cases key <;> rfl
      | _ => rfl

/-! ## Blocks that move an execution -/

/-- The fields of an execution that no operation changes. -/
structure SameIdentity (item item' : Execution) : Prop where
  id : item'.id = item.id
  taskName : item'.taskName = item.taskName
  idempotencyKey : item'.idempotencyKey = item.idempotencyKey
  pipelineRunID : item'.pipelineRunID = item.pipelineRunID
  nodeKey : item'.nodeKey = item.nodeKey
  createdAt : item'.createdAt = item.createdAt

theorem SameIdentity.refl (item : Execution) : SameIdentity item item :=
  ⟨rfl, rfl, rfl, rfl, rfl, rfl⟩

theorem SameIdentity.trans {item item' item'' : Execution} (h : SameIdentity item item')
    (h' : SameIdentity item' item'') : SameIdentity item item'' :=
  ⟨h'.id.trans h.id, h'.taskName.trans h.taskName, h'.idempotencyKey.trans h.idempotencyKey,
    h'.pipelineRunID.trans h.pipelineRunID, h'.nodeKey.trans h.nodeKey,
    h'.createdAt.trans h.createdAt⟩

theorem SameIdentity.references {item item' : Execution} (h : SameIdentity item item') :
    references item' = references item := by
  rw [Redis.references, Redis.references, h.taskName, h.idempotencyKey, h.pipelineRunID, h.nodeKey]

/-- The commands by which a transition moves the derived data of an execution. -/
def moveCommands (item item' : Execution) :
    List (Library.DerivedIndexes.Command UUID Execution ExecutionIndex (String × Status) RefKey) :=
  [.set item.id item'] ++
  (if item.status ≠ item'.status then
    [.incr (item'.taskName, item.status) (-1), .incr (item'.taskName, item'.status) 1] else []) ++
  [.remove (.status item.status) item.id,
    .add (.status item'.status) (score item'.createdAt) item.id] ++
  match queueScore item' with
  | some value => [.add (.queue item'.taskName) value item.id]
  | none => [.remove (.queue item'.taskName) item.id]

theorem counted_execution (name : String) (status : Status) (item : Execution) :
    weight (executionSchema.counted (name, status)) (some item) =
      if item.taskName = name ∧ item.status = status then 1 else 0 := by
  simp [weight, Schema.counted, executionSchema]

theorem entry_moveCommands (d : Executions) (item item' : Execution) (i : ExecutionIndex)
    (id : UUID) :
    ((moveCommands item item').foldl Indexed.apply d).entry i id =
      if id = item.id then
        match i with
        | .status status =>
            if status = item'.status then some (score item'.createdAt)
            else if status = item.status then none else d.entry i id
        | .queue name => if name = item'.taskName then queueScore item' else d.entry i id
        | _ => d.entry i id
      else d.entry i id := by
  unfold moveCommands
  by_cases hid : id = item.id
  · subst hid
    split <;> split <;> next hqueue => cases i <;> simp [Indexed.entry_apply, hqueue]
  · split <;> split <;> simp [Indexed.entry_apply, hid]

theorem rewrites_moveCommands {d : Executions} (h : Derived executionSchema d)
    {item item' : Execution} (hl : d.records.lookup item.id = some item)
    (hsame : SameIdentity item item') :
    Rewrites executionSchema d ((moveCommands item item').foldl Indexed.apply d) item.id
      (some item') where
  records := by
    unfold moveCommands
    split <;> split <;> rfl
  keyed := by
    rintro record ⟨⟩
    exact hsame.id
  index := by
    intro i id
    rw [entry_moveCommands]
    by_cases hid : id = item.id
    · rw [if_pos hid, if_pos hid, h.index i id, hid, hl]
      -- only the status and the queue of the execution move
      cases i with
      | all => simp [executionSchema, executionScore, hsame.createdAt]
      | task name => simp [executionSchema, executionScore, hsame.createdAt, hsame.taskName]
      | run runID => simp [executionSchema, executionScore, hsame.createdAt, hsame.pipelineRunID]
      | status status =>
          simp only [executionSchema, executionScore, Option.bind_some]
          grind
      | queue name =>
          simp only [executionSchema, executionScore, Option.bind_some, hsame.taskName]
          grind
    · rw [if_neg hid, if_neg hid]
  counts := by
    rintro ⟨name, status⟩
    rw [hl, counted_execution, counted_execution, hsame.taskName]
    unfold moveCommands
    split <;> split <;> simp only [Indexed.counts_apply, hsame.taskName, List.foldl_append,
      List.foldl_cons, List.foldl_nil] <;> grind
  refs := by
    have hrefs : ((moveCommands item item').foldl Indexed.apply d).refs = d.refs := by
      unfold moveCommands
      split <;> split <;> rfl
    exact h.refs_replace hl hrefs hsame.references

/-- A block that moves an execution keeps the invariant. -/
theorem Represented.move {s : Keyspace} (h : Represented s) {item item' : Execution}
    (hl : s.executions.records.lookup item.id = some item) (hsame : SameIdentity item item')
    {commands : List Command}
    (hexecutions : commands.filterMap Command.onExecutions = moveCommands item item')
    (hruns : commands.filterMap Command.onRuns = [])
    (hleases : ∀ id, id ≠ item.id →
      (commands.foldl Command.onLeases s.leases).lookup id = s.leases.lookup id)
    (hlease : LeaseEntry (some item')
      ((commands.foldl Command.onLeases s.leases).lookup item.id)) :
    Represented (s.applyAll commands) := by
  have hrewrites : Rewrites executionSchema s.executions (s.applyAll commands).executions item.id
      (some item') := by
    rw [executions_applyAll, hexecutions]
    exact rewrites_moveCommands h.executions hl hsame
  apply h.rewrite hrewrites
  · rw [runs_applyAll, hruns, List.foldl_nil]
  · intro id hid
    rw [leases_applyAll]
    exact hleases id hid
  · rw [leases_applyAll]
    exact hlease

/-- An execution that is not running has no lease entry. -/
theorem LeaseEntry.of_idle {item : Execution} (h : item.status ≠ .running) :
    LeaseEntry (some item) none where
  running := fun _ hentry => nomatch hentry
  final := by
    rintro _ ⟨⟩ hrunning
    exact absurd hrunning h

theorem LeaseEntry.of_running {item : Execution} (h : item.status = .running) :
    LeaseEntry (some item) (some (score item.leaseUntil)) where
  running := by
    rintro _ ⟨⟩
    exact ⟨item, rfl, h, rfl⟩
  final := by
    rintro _ ⟨⟩ _ _
    rfl

theorem saveTransition_onExecutions (env : Env) {item item' : Execution} (hid : item'.id = item.id)
    (eventType : EventType) (errorText : String) {keepInQueue : Bool}
    (hqueue : keepInQueue = item'.status.isActive) :
    (saveTransition env item' item.status eventType errorText keepInQueue).filterMap
      Command.onExecutions = moveCommands item item' := by
  subst hqueue
  unfold saveTransition moveCommands
  rw [hid]
  by_cases hprev : item.status ≠ item'.status
  · rw [if_pos hprev, if_pos hprev]
    cases hs : item'.status <;>
      simp [hs, Status.isActive, queueScore, Command.onExecutions, List.filterMap_cons]
  · rw [if_neg hprev, if_neg hprev]
    cases hs : item'.status <;>
      simp [hs, Status.isActive, queueScore, Command.onExecutions, List.filterMap_cons]

theorem represented_saveTransition {s : Keyspace} (h : Represented s) (env : Env)
    {item item' : Execution} (hl : s.executions.records.lookup item.id = some item)
    (hsame : SameIdentity item item') (eventType : EventType) (errorText : String)
    {keepInQueue : Bool} (hqueue : keepInQueue = item'.status.isActive) :
    Represented (s.applyAll
      (saveTransition env item' item.status eventType errorText keepInQueue)) := by
  have hlookup : ∀ id, ((saveTransition env item' item.status eventType errorText
      keepInQueue).foldl Command.onLeases s.leases).lookup id =
      if id = item.id then
        (if item'.status = .running then some (score item'.leaseUntil) else none)
      else s.leases.lookup id := by
    intro id
    subst hqueue
    unfold saveTransition
    rw [hsame.id]
    have hcounts : ∀ leases, (if item.status ≠ item'.status then
        [Command.hIncrBy item'.taskName item.status (-1), .hIncrBy item'.taskName item'.status 1]
        else []).foldl Command.onLeases leases = leases := by
      intro leases
      split <;> rfl
    simp only [List.foldl_append, hcounts]
    by_cases hid : id = item.id <;>
      cases item'.status <;>
        simp [hid, Status.isActive, Command.onLeases, lookup_erase_ite, lookup_insert_ite]
  apply h.move hl hsame (saveTransition_onExecutions env hsame.id eventType errorText hqueue)
  · unfold saveTransition
    split <;> split <;> try split
    all_goals rfl
  · intro id hid
    rw [hlookup, if_neg hid]
  · rw [hlookup, if_pos rfl]
    split
    · next hrunning => exact LeaseEntry.of_running hrunning
    · next hidle => exact LeaseEntry.of_idle hidle

/-- A block that moves an idle execution to an idle status. -/
theorem represented_reset {s : Keyspace} (h : Represented s) {item item' : Execution}
    (hl : s.executions.records.lookup item.id = some item) (hsame : SameIdentity item item')
    (hidle : item'.status ≠ .running) {commands : List Command}
    (hexecutions : commands.filterMap Command.onExecutions = moveCommands item item')
    (hruns : commands.filterMap Command.onRuns = [])
    (hleases : commands.foldl Command.onLeases s.leases = s.leases.erase item.id) :
    Represented (s.applyAll commands) := by
  apply h.move hl hsame hexecutions hruns
  · intro id hid
    rw [hleases, lookup_erase_ite, if_neg hid]
  · rw [hleases, lookup_erase_ite, if_pos rfl]
    exact LeaseEntry.of_idle hidle

theorem represented_restart {s : Keyspace} (h : Represented s) (env : Env)
    {item item' : Execution} (hl : s.executions.records.lookup item.id = some item)
    (hsame : SameIdentity item item') (hidle : item.status.isActive = false)
    (hpending : item'.status = .pending) :
    Represented (s.applyAll (restartCommands env item.id item' item.status)) := by
  have hmoved : item.status ≠ item'.status := by
    intro heq
    simp [heq, hpending, Status.isActive] at hidle
  apply represented_reset h hl hsame (by simp [hpending]) _ rfl rfl
  have hqueue : queueScore item' = some (score item'.availableAt) := by
    simp [queueScore, hpending]
  unfold moveCommands
  rw [if_pos hmoved, hqueue]
  rfl

/-- The commands for one execution of a restarted subgraph. -/
theorem represented_subgraph {s : Keyspace} (h : Represented s) (env : Env)
    (request : RestartSubgraph) {item : Execution}
    (hl : s.executions.records.lookup item.id = some item) :
    Represented (s.applyAll (subgraphCommands env request item)) := by
  have hsame : SameIdentity item (subgraphItem env request item) := ⟨rfl, rfl, rfl, rfl, rfl, rfl⟩
  have hstatus : (subgraphItem env request item).status = .pending ∨
      (subgraphItem env request item).status = .blocked := by
    unfold subgraphItem
    split
    · exact Or.inl rfl
    · exact Or.inr rfl
  apply represented_reset h hl hsame
  · rcases hstatus with hs | hs <;> simp [hs]
  · unfold subgraphCommands moveCommands
    rcases hstatus with hs | hs <;>
      simp only [hs, queueScore] <;> split <;> rfl
  · unfold subgraphCommands
    dsimp only
    split <;> split <;> rfl
  · unfold subgraphCommands
    dsimp only
    split <;> split <;> rfl

/-- A released execution had no lease. -/
theorem represented_release {s : Keyspace} (h : Represented s) {item item' : Execution}
    (hl : s.executions.records.lookup item.id = some item) (hsame : SameIdentity item item')
    (hblocked : item.status = .blocked) (hpending : item'.status = .pending) :
    Represented (s.applyAll (releaseCommands item.id item')) := by
  have hexecutions : (releaseCommands item.id item').filterMap Command.onExecutions =
      moveCommands item item' := by
    simp [moveCommands, hblocked, hpending, queueScore, releaseCommands, Command.onExecutions]
  refine h.move hl hsame hexecutions rfl (fun _ _ => rfl) ?_
  have hlease := (h.leases item.id).running
  have hsameLeases : (releaseCommands item.id item').foldl Command.onLeases s.leases = s.leases := rfl
  rw [hsameLeases]
  cases hentry : s.leases.lookup item.id with
  | none => exact LeaseEntry.of_idle (by simp [hpending])
  | some value =>
      obtain ⟨stored, hstored, hrunning, -⟩ := hlease value hentry
      cases hl.symm.trans hstored
      simp [hblocked] at hrunning

/-! ## Heartbeats and stale lease entries -/

/-- A heartbeat moves the deadline of a running execution. -/
theorem represented_heartbeat {s : Keyspace} (h : Represented s) {item item' : Execution}
    (hl : s.executions.records.lookup item.id = some item) (hsame : SameIdentity item item')
    (hrunning : item.status = .running) (hrunning' : item'.status = .running) :
    Represented (s.applyAll (heartbeatCommands item.id item')) := by
  have hrewrites : Rewrites executionSchema s.executions ((s.executions.apply
      (.set item.id item')).apply (.add (.queue item'.taskName) (score item'.leaseUntil) item.id))
      item.id (some item') := by
    constructor
    · rfl
    · rintro record ⟨⟩
      exact hsame.id
    · intro i id
      rw [Indexed.entry_apply, Indexed.entry_apply]
      by_cases hid : id = item.id
      · rw [if_pos hid, h.executions.index i id, hid, hl]
        cases i with
        | all => simp [executionSchema, executionScore, hsame.createdAt]
        | task name => simp [executionSchema, executionScore, hsame.createdAt, hsame.taskName]
        | run runID => simp [executionSchema, executionScore, hsame.createdAt, hsame.pipelineRunID]
        | status status =>
            simp [executionSchema, executionScore, hsame.createdAt, hrunning, hrunning']
        | queue name =>
            simp only [executionSchema, executionScore, queueScore, hrunning, hrunning',
              Option.bind_some, hsame.taskName]
            grind
      · simp [hid]
    · rintro ⟨name, status⟩
      rw [hl, counted_execution, counted_execution, hsame.taskName, hrunning, hrunning']
      exact (sub_add_cancel _ _).symm
    · exact h.executions.refs_replace hl rfl hsame.references
  have hleases : (s.applyAll (heartbeatCommands item.id item')).leases =
      s.leases.insert item.id (score item'.leaseUntil) := rfl
  refine h.rewrite hrewrites rfl ?_ ?_
  · intro id hid
    rw [hleases]
    exact AList.lookup_insert_ne hid
  · rw [hleases, AList.lookup_insert]
    exact LeaseEntry.of_running hrunning'

/-- Removing the lease entry of an execution that may be claimed again. -/
theorem represented_removeLease {s : Keyspace} (h : Represented s) (id : UUID)
    (hstale : ∀ item, s.executions.records.lookup id = some item → item.status = .running →
      item.attempt < item.maxAttempts) : Represented (s.applyAll (removeLeaseIndex id)) where
  executions := h.executions
  runs := h.runs
  leases := by
    intro id'
    have hleases : (s.applyAll (removeLeaseIndex id)).leases = s.leases.erase id := rfl
    have hrecords : (s.applyAll (removeLeaseIndex id)).executions = s.executions := rfl
    rw [hleases, hrecords, lookup_erase_ite]
    split
    · next heq =>
      subst heq
      constructor
      · exact fun _ hentry => nomatch hentry
      · intro item hl hrunning hfinal
        have := hstale item hl hrunning
        omega
    · exact h.leases id'

/-! ## Creation -/

theorem createCommands_onExecutions (env : Env) (item : Execution) :
    (createCommands env item).filterMap Command.onExecutions =
      [.set item.id item, .incr (item.taskName, item.status) 1,
        .add .all (score item.createdAt) item.id,
        .add (.task item.taskName) (score item.createdAt) item.id,
        .add (.status item.status) (score item.createdAt) item.id,
        .add (.queue item.taskName) (score item.availableAt) item.id] ++
      Indexed.setRefs (references item) item.id ++
      match item.pipelineRunID with
      | some runID => [.add (.run runID) (score item.createdAt) item.id]
      | none => [] := by
  unfold createCommands
  rw [List.filterMap_append, List.filterMap_append]
  congr 1
  · congr 1
    rw [List.filterMap_map]
    exact List.filterMap_eq_map.symm ▸ rfl
  · cases item.pipelineRunID <;> rfl

theorem createCommands_onRuns (env : Env) (item : Execution) :
    (createCommands env item).filterMap Command.onRuns = [] := by
  unfold createCommands
  rw [List.filterMap_append, List.filterMap_append, List.filterMap_map, List.append_eq_nil_iff,
    List.append_eq_nil_iff]
  refine ⟨⟨rfl, ?_⟩, ?_⟩
  · exact List.filterMap_eq_nil_iff.mpr fun _ _ => rfl
  · cases item.pipelineRunID <;> rfl

theorem createCommands_onLeases (env : Env) (item : Execution) (leases : Table UUID Int) :
    (createCommands env item).foldl Command.onLeases leases = leases := by
  unfold createCommands
  rw [List.foldl_append, List.foldl_append, List.foldl_map]
  have hrefs : (references item).foldl (fun m key => Command.onLeases m (.setRef key item.id))
      leases = leases := foldl_frame _ id (fun _ _ => rfl) _ _
  cases item.pipelineRunID <;> exact hrefs

section Create

variable (d : Executions) (env : Env) (item : Execution)

/-- The executions after the block of `CreateExecution`. -/
def afterCreate : Executions :=
  ((createCommands env item).filterMap Command.onExecutions).foldl Indexed.apply d

theorem afterCreate_records : (afterCreate d env item).records = d.records.insert item.id item := by
  unfold afterCreate
  rw [createCommands_onExecutions, List.foldl_append, List.foldl_append]
  cases item.pipelineRunID <;> exact Indexed.records_setRefs _ _ _

theorem afterCreate_refs (ref : RefKey) : (afterCreate d env item).refs.lookup ref =
    if ref ∈ references item then some item.id else d.refs.lookup ref := by
  unfold afterCreate
  rw [createCommands_onExecutions, List.foldl_append, List.foldl_append]
  cases item.pipelineRunID <;> exact Indexed.lookup_setRefs _ _ _ _

theorem afterCreate_counts (f : String × Status) : (afterCreate d env item).counts f =
    d.counts f + if f = (item.taskName, item.status) then 1 else 0 := by
  unfold afterCreate
  rw [createCommands_onExecutions, List.foldl_append, List.foldl_append]
  cases item.pipelineRunID <;> simp [Indexed.counts_apply, Indexed.counts_setRefs]

theorem afterCreate_entry (hpending : item.status = .pending)
    (hnew : ∀ i, d.entry i item.id = none) (i : ExecutionIndex) (id : UUID) :
    (afterCreate d env item).entry i id =
      if id = item.id then executionScore i item else d.entry i id := by
  unfold afterCreate
  rw [createCommands_onExecutions, List.foldl_append, List.foldl_append]
  by_cases hid : id = item.id
  · cases hrun : item.pipelineRunID <;> cases i <;>
      simp [Indexed.entry_apply, Indexed.entry_setRefs, executionScore, queueScore, hpending, hrun,
        hid, hnew, eq_comm]
  · cases item.pipelineRunID <;> simp [Indexed.entry_apply, Indexed.entry_setRefs, hid]

end Create

/-- A new execution keeps the invariant. -/
theorem represented_create {s : Keyspace} (h : Represented s) (env : Env) {item : Execution}
    (hnew : s.executions.records.lookup item.id = none) (hpending : item.status = .pending)
    (hrefs : ∀ ref ∈ references item, s.executions.refs.lookup ref = none) :
    Represented (s.applyAll (createCommands env item)) := by
  have hrewrites : Rewrites executionSchema s.executions (afterCreate s.executions env item)
      item.id (some item) := by
    constructor
    · exact afterCreate_records s.executions env item
    · rintro record ⟨⟩
      rfl
    · intro i id
      apply afterCreate_entry _ _ _ hpending
      intro i
      rw [h.executions.index, hnew]
      rfl
    · rintro ⟨name, status⟩
      rw [afterCreate_counts, hnew, counted_execution]
      simp [weight, eq_comm]
    · exact h.executions.refs_insert hnew hrefs (afterCreate_refs s.executions env item)
  have hexecutions : (s.applyAll (createCommands env item)).executions =
      afterCreate s.executions env item := executions_applyAll s _
  rw [← hexecutions] at hrewrites
  refine h.rewrite hrewrites ?_ ?_ ?_
  · rw [runs_applyAll, createCommands_onRuns, List.foldl_nil]
  · intro id hid
    rw [leases_applyAll, createCommands_onLeases]
  · rw [leases_applyAll, createCommands_onLeases]
    have hlease := (h.leases item.id).running
    rw [hnew] at hlease
    cases hentry : s.leases.lookup item.id with
    | none => exact LeaseEntry.of_idle (by simp [hpending])
    | some value =>
        obtain ⟨_, hstored, -⟩ := hlease value hentry
        cases hstored

/-! ## Removal -/

/-- The references that `purgeExecution` deletes. -/
def purgedRefs (item : Execution) : List RefKey :=
  (if item.idempotencyKey ≠ "" then [idempotencyKey item.taskName item.idempotencyKey] else []) ++
  match item.pipelineRunID with
  | some runID => [nodeKey runID item.nodeKey]
  | none => []

theorem purgeExecution_onExecutions (item : Execution) :
    (purgeExecution item).filterMap Command.onExecutions =
      [.del item.id, .remove .all item.id, .remove (.task item.taskName) item.id,
        .remove (.status item.status) item.id, .remove (.queue item.taskName) item.id,
        .incr (item.taskName, item.status) (-1)] ++
      (if item.idempotencyKey ≠ "" then
        [.delRef (idempotencyKey item.taskName item.idempotencyKey)] else []) ++
      match item.pipelineRunID with
      | some runID => [.delRef (nodeKey runID item.nodeKey), .remove (.run runID) item.id]
      | none => [] := by
  unfold purgeExecution
  rw [List.filterMap_append, List.filterMap_append]
  congr 1
  · congr 1
    split <;> rfl
  · cases item.pipelineRunID <;> rfl

section Purge

variable (d : Executions) (item : Execution)

/-- The executions after the commands of `purgeExecution`. -/
def afterPurge : Executions :=
  ((purgeExecution item).filterMap Command.onExecutions).foldl Indexed.apply d

theorem afterPurge_records : (afterPurge d item).records = d.records.erase item.id := by
  unfold afterPurge
  rw [purgeExecution_onExecutions]
  split <;> cases item.pipelineRunID <;> rfl

theorem afterPurge_refs (ref : RefKey) : (afterPurge d item).refs.lookup ref =
    if ref ∈ purgedRefs item then none else d.refs.lookup ref := by
  unfold afterPurge purgedRefs
  rw [purgeExecution_onExecutions]
  split <;> cases item.pipelineRunID <;> simp [Indexed.apply, lookup_erase_ite]
  grind

theorem afterPurge_counts (f : String × Status) : (afterPurge d item).counts f =
    d.counts f - if f = (item.taskName, item.status) then 1 else 0 := by
  unfold afterPurge
  rw [purgeExecution_onExecutions]
  split <;> cases item.pipelineRunID <;> simp [Indexed.counts_apply] <;> split <;> omega

theorem afterPurge_entry (i : ExecutionIndex) (id : UUID) : (afterPurge d item).entry i id =
    if id = item.id ∧ (i = .all ∨ i = .task item.taskName ∨ i = .status item.status ∨
      i = .queue item.taskName ∨ ∃ runID, item.pipelineRunID = some runID ∧ i = .run runID)
    then none else d.entry i id := by
  unfold afterPurge
  rw [purgeExecution_onExecutions]
  by_cases hid : id = item.id
  · split <;> cases item.pipelineRunID <;> cases i <;> simp [Indexed.entry_apply, hid]
  · split <;> cases item.pipelineRunID <;> simp [Indexed.entry_apply, hid]

end Purge

theorem references_subset_purgedRefs (item : Execution) : references item ⊆ purgedRefs item := by
  intro ref href
  unfold references at href
  unfold purgedRefs
  rcases List.mem_append.mp href with hkey | hnode
  · exact List.mem_append_left _ hkey
  · apply List.mem_append_right
    cases hrun : item.pipelineRunID with
    | none => simp [hrun] at hnode
    | some runID =>
        rw [hrun] at hnode
        exact (List.mem_ite_nil_right.mp hnode).2

/-- A deleted reference that leads to an execution is one of the removed one. -/
theorem mem_references_of_purged {item other : Execution} {ref : RefKey}
    (h : ref ∈ purgedRefs item) (hother : ref ∈ references other) : ref ∈ references item := by
  unfold purgedRefs at h
  rcases List.mem_append.mp h with hkey | hnode
  · exact List.mem_append_left _ hkey
  · apply List.mem_append_right
    cases hrun : item.pipelineRunID with
    | none => simp [hrun] at hnode
    | some runID =>
        rw [hrun] at hnode
        obtain rfl := List.mem_singleton.mp hnode
        -- a node reference is stored for a node with a key only
        have hkey : item.nodeKey ≠ "" := (mem_references_node.mp hother).2.2
        simp [hkey]

/-- The removal of an execution with the status that was listed keeps the invariant. -/
theorem represented_purgeExecution {s : Keyspace} (h : Represented s) {item now : Execution}
    (hl : s.executions.records.lookup item.id = some now) (hsame : SameIdentity item now)
    (hstatus : now.status = item.status) : Represented (s.applyAll (purgeExecution item)) := by
  have hrewrites : Rewrites executionSchema s.executions (afterPurge s.executions item) item.id
      none := by
    constructor
    · exact afterPurge_records s.executions item
    · exact fun _ hnone => nomatch hnone
    · intro i id
      rw [afterPurge_entry, h.executions.index i id]
      by_cases hid : id = item.id
      · rw [if_pos hid, hid, hl]
        cases i with
        | all => simp
        | task name => simp [executionSchema, executionScore, hsame.taskName, eq_comm]
        | status status => simp [executionSchema, executionScore, hstatus, eq_comm]
        | queue name =>
            by_cases hname : name = item.taskName
            · simp [hname]
            · simp [executionSchema, executionScore, hsame.taskName, hname, Ne.symm hname]
        | run runID => simp [executionSchema, executionScore, hsame.pipelineRunID, eq_comm]
      · simp [hid]
    · rintro ⟨name, status⟩
      rw [afterPurge_counts, hl, counted_execution, hsame.taskName, hstatus]
      simp [weight, eq_comm]
    · have hrefs : executionSchema.refs now = references item := hsame.references
      apply h.executions.refs_remove hl (afterPurge_refs s.executions item)
      · rw [hrefs]
        exact references_subset_purgedRefs item
      · rw [hrefs]
        exact fun other ref hpurged hother => mem_references_of_purged hpurged hother
  have hexecutions : (s.applyAll (purgeExecution item)).executions =
      afterPurge s.executions item := executions_applyAll s _
  have hleases : (s.applyAll (purgeExecution item)).leases = s.leases.erase item.id := by
    rw [leases_applyAll]
    unfold purgeExecution
    split <;> cases item.pipelineRunID <;> rfl
  rw [← hexecutions] at hrewrites
  refine h.rewrite hrewrites ?_ ?_ ?_
  · rw [runs_applyAll]
    unfold purgeExecution
    split <;> cases item.pipelineRunID <;> rfl
  · intro id hid
    rw [hleases, lookup_erase_ite, if_neg hid]
  · rw [hleases, lookup_erase_ite, if_pos rfl]
    constructor
    · rintro _ ⟨⟩
    · rintro _ ⟨⟩

/-! ## Blocks that rewrite a run -/

theorem counted_run (name : String) (status : RunStatus) (run : PipelineRun) :
    weight (runSchema.counted (name, status)) (some run) =
      if run.pipelineName = name ∧ run.status = status then 1 else 0 := by
  simp [weight, Schema.counted, runSchema]

/-- A new run keeps the invariant. -/
theorem represented_createRun {s : Keyspace} (h : Represented s) {run : PipelineRun}
    (hnew : s.runs.records.lookup run.id = none)
    (hrefs : ∀ ref ∈ runReferences run, s.runs.refs.lookup ref = none) :
    Represented (s.applyAll (createRunCommands run)) := by
  have hcommands : (createRunCommands run).filterMap Command.onRuns =
      [.set run.id run, .incr (run.pipelineName, run.status) 1,
        .add .all (score run.createdAt) run.id,
        .add (.status run.status) (score run.createdAt) run.id] ++
      Indexed.setRefs (runReferences run) run.id := by
    unfold createRunCommands
    rw [List.filterMap_append]
    congr 1
    rw [List.filterMap_map]
    exact List.filterMap_eq_map.symm ▸ rfl
  have hrewrites : Rewrites runSchema s.runs (s.applyAll (createRunCommands run)).runs run.id
      (some run) := by
    rw [runs_applyAll, hcommands, List.foldl_append]
    constructor
    · exact Indexed.records_setRefs _ _ _
    · rintro record ⟨⟩
      rfl
    · intro i id
      rw [Indexed.entry_setRefs]
      by_cases hid : id = run.id
      · have hold := h.runs.index i id
        rw [hid, hnew] at hold
        cases i <;> simp [Indexed.entry_apply, runSchema, runScore, hid, hold, eq_comm]
      · simp [Indexed.entry_apply, hid]
    · rintro ⟨name, status⟩
      rw [Indexed.counts_setRefs, hnew, counted_run]
      simp [Indexed.counts_apply, weight, eq_comm]
    · apply h.runs.refs_insert hnew hrefs
      intro ref
      rw [Indexed.lookup_setRefs]
      rfl
  have hexecutions : (createRunCommands run).filterMap Command.onExecutions = [] := by
    unfold createRunCommands
    rw [List.filterMap_append, List.filterMap_map, List.append_eq_nil_iff]
    exact ⟨rfl, List.filterMap_eq_nil_iff.mpr fun _ _ => rfl⟩
  have hleases : ∀ leases, (createRunCommands run).foldl Command.onLeases leases = leases := by
    intro leases
    unfold createRunCommands
    rw [List.foldl_append, List.foldl_map]
    exact foldl_frame _ id (fun _ _ => rfl) _ _
  refine h.rewriteRun ?_ hrewrites ?_
  · rw [executions_applyAll, hexecutions, List.foldl_nil]
  · rw [leases_applyAll, hleases]

/-- A run that moves to another status keeps the invariant. -/
theorem represented_moveRun {s : Keyspace} (h : Represented s) {run run' : PipelineRun}
    (hl : s.runs.records.lookup run.id = some run) (hid : run'.id = run.id)
    (hname : run'.pipelineName = run.pipelineName) (hkey : run'.idempotencyKey = run.idempotencyKey)
    (hcreated : run'.createdAt = run.createdAt) :
    Represented (s.applyAll (moveRun run.id run' run.status)) := by
  have hcommands : (moveRun run.id run' run.status).filterMap Command.onRuns =
      [.set run.id run'] ++
      (if run.status ≠ run'.status then
        [.incr (run'.pipelineName, run.status) (-1), .incr (run'.pipelineName, run'.status) 1]
      else []) ++
      [.remove (.status run.status) run.id,
        .add (.status run'.status) (score run'.createdAt) run.id] := by
    unfold moveRun
    split <;> rfl
  have hrewrites : Rewrites runSchema s.runs (s.applyAll (moveRun run.id run' run.status)).runs
      run.id (some run') := by
    rw [runs_applyAll, hcommands]
    constructor
    · split <;> rfl
    · rintro record ⟨⟩
      exact hid
    · intro i id
      by_cases heq : id = run.id
      · have hold := h.runs.index i id
        rw [heq, hl] at hold
        cases i with
        | all => split <;> simp [Indexed.entry_apply, runSchema, runScore, heq, hold, hcreated]
        | status status =>
            simp only [runSchema, runScore, Option.bind_some] at hold
            split <;> simp [Indexed.entry_apply, runSchema, runScore, heq, hold] <;> grind
      · split <;> simp [Indexed.entry_apply, heq]
    · rintro ⟨name, status⟩
      rw [hl, counted_run, counted_run, hname]
      split <;> simp [Indexed.counts_apply] <;> grind
    · have hrefs : runSchema.refs run' = runSchema.refs run := by
        simp [runSchema, runReferences, hname, hkey]
      apply h.runs.refs_replace hl _ hrefs
      split <;> rfl
  refine h.rewriteRun ?_ hrewrites ?_
  · rw [executions_applyAll]
    unfold moveRun
    split <;> rfl
  · rw [leases_applyAll]
    unfold moveRun
    split <;> rfl

/-- The removal of a run as it was listed keeps the invariant. -/
theorem represented_purgeRun {s : Keyspace} (h : Represented s) {run : PipelineRun}
    (hl : s.runs.records.lookup run.id = some run) : Represented (s.applyAll (purgeRun run)) := by
  have hrewrites : Rewrites runSchema s.runs (s.applyAll (purgeRun run)).runs run.id none := by
    rw [runs_applyAll]
    constructor
    · unfold purgeRun
      split <;> rfl
    · exact fun _ hnone => nomatch hnone
    · intro i id
      unfold purgeRun
      by_cases heq : id = run.id
      · have hold := h.runs.index i id
        rw [heq, hl] at hold
        split <;> cases i <;>
          simp [Command.onRuns, Indexed.entry_apply, runSchema, runScore, heq, hold, eq_comm]
      · split <;> simp [Command.onRuns, Indexed.entry_apply, heq]
    · rintro ⟨name, status⟩
      rw [hl, counted_run]
      unfold purgeRun
      split <;> simp [Command.onRuns, Indexed.counts_apply, weight, eq_comm] <;>
        grind
    · have hlookup : ∀ ref, (((purgeRun run).filterMap Command.onRuns).foldl Indexed.apply
          s.runs).refs.lookup ref =
            if ref ∈ runReferences run then none else s.runs.refs.lookup ref := by
        intro ref
        unfold purgeRun runReferences
        split <;> simp [Command.onRuns, Indexed.apply, lookup_erase_ite]
      exact h.runs.refs_remove hl hlookup (fun _ href => href) (fun _ _ href _ => href)
  refine h.rewriteRun ?_ hrewrites ?_
  · rw [executions_applyAll]
    unfold purgeRun
    split <;> rfl
  · rw [leases_applyAll]
    unfold purgeRun
    split <;> rfl

end Ody.Redis
