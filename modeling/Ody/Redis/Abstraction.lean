import Ody.Execution.Effects
import Ody.Redis.Interference

/-!
# The in-memory store that a keyspace stands for

A represented keyspace stands for the maps of a `MemoryStore`: its records, its
event lists and its references. The indexes, the counters and the lease index have
no counterpart. Each block of commands changes the keyspace as the assignments of
the in-memory store change its maps.
-/

namespace Ody.Redis

open Library.Tables Library.DerivedIndexes
open Memory (Env MemoryStore)

/-! ## The abstraction -/

/-- The text of an idempotency reference. -/
def RefKey.idempotencyText : RefKey → Option String
  | .idempotency key => some key
  | .node _ _ => none

/-- The run and the node of a node reference. -/
def RefKey.runNode : RefKey → Option (UUID × String)
  | .idempotency _ => none
  | .node runID nodeKey => some (runID, nodeKey)

/-- The in-memory store with the content of a keyspace. -/
def abstraction (s : Keyspace) (h : Represented s) : MemoryStore where
  executions := s.executions.records
  runs := s.runs.records
  events := s.events
  idempotent := part RefKey.idempotencyText s.executions.refs
  nodes := part RefKey.runNode s.executions.refs
  runIdempotent := s.runs.refs
  executions_keyed := h.executions.keyed
  runs_keyed := h.runs.keyed

/-- The maps of the in-memory store hold what the keyspace holds. -/
structure Abstracts (s : Keyspace) (m : MemoryStore) : Prop where
  executions : ∀ id, m.executions.lookup id = s.executions.records.lookup id
  runs : ∀ id, m.runs.lookup id = s.runs.records.lookup id
  history : ∀ id, m.history id = s.history id
  idempotent : ∀ key, m.idempotent.lookup key = s.executions.refs.lookup (.idempotency key)
  nodes : ∀ runID node, m.nodes.lookup (runID, node) = s.executions.refs.lookup (.node runID node)
  runIdempotent : ∀ key, m.runIdempotent.lookup key = s.runs.refs.lookup key

theorem abstracts_abstraction {s : Keyspace} (h : Represented s) : Abstracts s (abstraction s h) where
  executions := fun _ => rfl
  runs := fun _ => rfl
  history := fun _ => rfl
  idempotent := by
    intro key
    apply lookup_part
    intro ref key'
    cases ref <;> simp [RefKey.idempotencyText]
  nodes := by
    intro runID node
    have hview : ∀ ref runNode, RefKey.runNode ref = some runNode ↔
        ref = RefKey.node runNode.1 runNode.2 := by
      rintro ref ⟨runID', node'⟩
      cases ref <;> simp [RefKey.runNode]
    exact lookup_part hview s.executions.refs (runID, node)
  runIdempotent := fun _ => rfl

/-! ## Blocks that write one execution -/

/-- A block writes one record and appends at most one event. -/
structure Writes (s s' : Keyspace) (item : Execution) (entry : Option Event) : Prop where
  records : s'.executions.records = s.executions.records.insert item.id item
  refs : s'.executions.refs = s.executions.refs
  runs : s'.runs = s.runs
  events : s'.events = match entry with
    | some event => s.events.insert item.id (s.history item.id ++ [event])
    | none => s.events

section Blocks

variable {s s' : Keyspace} {m : MemoryStore} {item : Execution}

/-- A record that is stored without an event. -/
theorem Abstracts.put (h : Abstracts s m) (hwrites : Writes s s' item none) :
    Abstracts s' (m.put item) where
  executions := by
    intro id
    rw [Memory.put_lookup, hwrites.records, lookup_insert_ite, h.executions]
  runs := by
    intro id
    rw [hwrites.runs]
    exact h.runs id
  history := by
    intro id
    have hevents : s'.history id = s.history id := by rw [Keyspace.history, hwrites.events]; rfl
    rw [hevents]
    exact h.history id
  idempotent := hwrites.refs ▸ h.idempotent
  nodes := hwrites.refs ▸ h.nodes
  runIdempotent := hwrites.runs ▸ h.runIdempotent

/-- A record that is stored with an event. -/
theorem Abstracts.save (h : Abstracts s m) {env : Env} {eventType : EventType} {errorText : String}
    (hwrites : Writes s s' item (some (encodeEvent env item eventType errorText))) :
    Abstracts s' ((m.put item).appendEvent env item eventType errorText) where
  executions := by
    intro id
    rw [Memory.appendEvent_executions, Memory.put_lookup, hwrites.records, lookup_insert_ite,
      h.executions]
  runs := by
    intro id
    rw [hwrites.runs]
    exact h.runs id
  history := by
    intro id
    rw [Memory.history_appendEvent, Memory.put_history, Keyspace.history, hwrites.events,
      lookup_insert_ite]
    by_cases heq : id = item.id
    · rw [if_pos heq, if_pos heq, heq, h.history]
      rfl
    · rw [if_neg heq, if_neg heq]
      exact h.history id
  idempotent := hwrites.refs ▸ h.idempotent
  nodes := hwrites.refs ▸ h.nodes
  runIdempotent := hwrites.runs ▸ h.runIdempotent

variable (s item) in
theorem writes_saveTransition (env : Env) (previous : Status) (eventType : EventType)
    (errorText : String) (keepInQueue : Bool) :
    Writes s (s.applyAll (saveTransition env item previous eventType errorText keepInQueue)) item
      (some (encodeEvent env item eventType errorText)) := by
  unfold saveTransition
  split <;> split <;> try split
  all_goals exact ⟨rfl, rfl, rfl, rfl⟩

variable (s item) in
theorem writes_heartbeat : Writes s (s.applyAll (heartbeatCommands item.id item)) item none :=
  ⟨rfl, rfl, rfl, rfl⟩

variable (s item) in
theorem writes_restart (env : Env) (previous : Status) :
    Writes s (s.applyAll (restartCommands env item.id item previous)) item
      (some (encodeEvent env item .restarted "")) :=
  ⟨rfl, rfl, rfl, rfl⟩

variable (s item) in
theorem writes_release : Writes s (s.applyAll (releaseCommands item.id item)) item none :=
  ⟨rfl, rfl, rfl, rfl⟩

variable (s item) in
theorem writes_subgraph (env : Env) (request : RestartSubgraph) :
    Writes s (s.applyAll (subgraphCommands env request item)) (subgraphItem env request item)
      (some (encodeEvent env (subgraphItem env request item) .restarted "")) := by
  unfold subgraphCommands
  dsimp only
  split <;> split
  all_goals exact ⟨rfl, rfl, rfl, rfl⟩

/-- Only the lease index changes. -/
theorem Abstracts.removeLease (h : Abstracts s m) (id : UUID) :
    Abstracts (s.applyAll (removeLeaseIndex id)) m :=
  ⟨h.executions, h.runs, h.history, h.idempotent, h.nodes, h.runIdempotent⟩

end Blocks

/-! ## Loops that save executions -/

section Saving

variable {s : Keyspace} {m : MemoryStore} {env : Env} {eventType : EventType}
  {text : Execution → String}

/-- The order in which a loop saves different records does not matter. -/
theorem Abstracts.saveAll_congr {items items' : List Execution}
    (h : Abstracts s (Memory.saveAll env eventType text m items))
    (hids : (items.map (·.id)).Nodup) (hids' : (items'.map (·.id)).Nodup)
    (hmem : ∀ item, item ∈ items ↔ item ∈ items') :
    Abstracts s (Memory.saveAll env eventType text m items') := by
  have hsame : ∀ id, (Memory.saveAll env eventType text m items').executions.lookup id =
        (Memory.saveAll env eventType text m items).executions.lookup id ∧
      (Memory.saveAll env eventType text m items').history id =
        (Memory.saveAll env eventType text m items).history id := by
    intro id
    by_cases hid : id ∈ items.map (·.id)
    · obtain ⟨item, hitem, rfl⟩ := List.mem_map.mp hid
      obtain ⟨hl, hh⟩ := Memory.saveAll_saved env eventType text m items hids item hitem
      obtain ⟨hl', hh'⟩ :=
        Memory.saveAll_saved env eventType text m items' hids' item ((hmem item).mp hitem)
      rw [hl, hl', hh, hh']
      exact ⟨rfl, rfl⟩
    · have hid' : id ∉ items'.map (·.id) := by
        intro hmem'
        obtain ⟨item, hitem, rfl⟩ := List.mem_map.mp hmem'
        exact hid (List.mem_map_of_mem ((hmem item).mpr hitem))
      obtain ⟨hl, hh⟩ := Memory.saveAll_other env eventType text m items id hid
      obtain ⟨hl', hh'⟩ := Memory.saveAll_other env eventType text m items' id hid'
      rw [hl, hl', hh, hh']
      exact ⟨rfl, rfl⟩
  have hkeys : ∀ l, (Memory.saveAll env eventType text m l).idempotent = m.idempotent := fun l =>
    foldl_frame (fun m item => (m.put item).appendEvent env item eventType (text item))
      (·.idempotent) (fun _ _ => rfl) l m
  have hrunKeys : ∀ l, (Memory.saveAll env eventType text m l).runIdempotent = m.runIdempotent :=
    fun l => foldl_frame (fun m item => (m.put item).appendEvent env item eventType (text item))
      (·.runIdempotent) (fun _ _ => rfl) l m
  constructor
  · exact fun id => (hsame id).1.trans (h.executions id)
  · simpa using h.runs
  · exact fun id => (hsame id).2.trans (h.history id)
  · simpa [hkeys] using h.idempotent
  · simpa using h.nodes
  · simpa [hrunKeys] using h.runIdempotent

theorem Abstracts.subgraph (h : Abstracts s m) (request : RestartSubgraph) (items : List Execution) :
    Abstracts (s.applyAll (items.flatMap (subgraphCommands env request)))
      (Memory.saveAll env .restarted (fun _ => "") m (items.map (subgraphItem env request))) := by
  induction items generalizing s m with
  | nil => exact h
  | cons item rest ih =>
      have hblocks : s.applyAll ((item :: rest).flatMap (subgraphCommands env request)) =
          (s.applyAll (subgraphCommands env request item)).applyAll
            (rest.flatMap (subgraphCommands env request)) := by
        rw [List.flatMap_cons]
        exact List.foldl_append
      rw [hblocks]
      exact ih (h.save (writes_subgraph s item env request))

end Saving

/-! ## Blocks that create records or write a run -/

section Create

variable {s : Keyspace} {m : MemoryStore}

theorem register_idempotent (m : MemoryStore) (item : Execution) (key : String) :
    (Memory.register m item).idempotent.lookup key =
      if .idempotency key ∈ references item then some item.id else m.idempotent.lookup key := by
  have hkept : (Memory.register m item).idempotent = (Memory.registerKey m item).idempotent := by
    unfold Memory.register Memory.registerNode
    split
    · split <;> rfl
    · rfl
  rw [hkept, Memory.registerKey]
  by_cases hempty : item.idempotencyKey = ""
  · simp [hempty, mem_references_idempotency]
  · simp [hempty, mem_references_idempotency, lookup_insert_ite]

@[simp] theorem register_runIdempotent (m : MemoryStore) (item : Execution) :
    (Memory.register m item).runIdempotent = m.runIdempotent := by
  unfold Memory.register Memory.registerNode Memory.registerKey
  repeat' split
  all_goals rfl

theorem history_createCommands (s : Keyspace) (env : Env) (item : Execution) (id : UUID) :
    (s.applyAll (createCommands env item)).history id =
      if id = item.id then s.history id ++ [encodeEvent env item .created ""] else s.history id := by
  have hevents : (s.applyAll (createCommands env item)).events =
      s.events.insert item.id (s.history item.id ++ [encodeEvent env item .created ""]) := by
    unfold createCommands Keyspace.applyAll
    rw [List.foldl_append, List.foldl_append, List.foldl_map]
    have hrefs : ∀ s' : Keyspace, ((references item).foldl
        (fun s key => s.apply (.setRef key item.id)) s').events = s'.events :=
      fun s' => foldl_frame (fun s key => s.apply (.setRef key item.id)) (·.events)
        (fun _ _ => rfl) _ s'
    cases item.pipelineRunID <;> exact hrefs _
  rw [Keyspace.history, hevents, lookup_insert_ite]
  by_cases heq : id = item.id
  · rw [if_pos heq, if_pos heq, heq]
    rfl
  · rw [if_neg heq, if_neg heq]
    rfl

theorem Abstracts.create (h : Abstracts s m) (env : Env) (item : Execution) :
    Abstracts (s.applyAll (createCommands env item))
      ((Memory.register (m.put item) item).appendEvent env item .created "") := by
  have hexecutions : (s.applyAll (createCommands env item)).executions =
      afterCreate s.executions env item := executions_applyAll s _
  have hruns : (s.applyAll (createCommands env item)).runs = s.runs := by
    rw [runs_applyAll, createCommands_onRuns, List.foldl_nil]
  constructor
  · intro id
    rw [Memory.appendEvent_executions, Memory.register_executions, Memory.put_lookup, hexecutions,
      afterCreate_records, lookup_insert_ite, h.executions]
  · intro id
    rw [hruns, Memory.appendEvent_runs, Memory.register_runs]
    exact h.runs id
  · intro id
    rw [Memory.history_appendEvent, Memory.register_history, Memory.put_history,
      history_createCommands, h.history]
    rfl
  · intro key
    rw [hexecutions, afterCreate_refs, ← h.idempotent]
    exact register_idempotent (m.put item) item key
  · intro runID node
    have hnodes := Memory.register_nodes (m.put item) item (runID, node)
    rw [hexecutions, afterCreate_refs, ← h.nodes, Memory.appendEvent_nodes, hnodes]
    exact if_congr mem_references_node.symm rfl rfl
  · intro key
    rw [hruns, ← h.runIdempotent]
    exact congrArg (AList.lookup key) (register_runIdempotent (m.put item) item)

/-- A run that is written over. -/
theorem Abstracts.moveRun (h : Abstracts s m) {run' : PipelineRun} {id : UUID} (hid : run'.id = id)
    (previous : RunStatus) : Abstracts (s.applyAll (moveRun id run' previous)) (m.putRun run') := by
  have hmoved : (s.applyAll (Redis.moveRun id run' previous)).executions = s.executions ∧
      (s.applyAll (Redis.moveRun id run' previous)).events = s.events ∧
      (s.applyAll (Redis.moveRun id run' previous)).runs.records = s.runs.records.insert id run' ∧
      (s.applyAll (Redis.moveRun id run' previous)).runs.refs = s.runs.refs := by
    unfold Redis.moveRun
    split <;> exact ⟨rfl, rfl, rfl, rfl⟩
  obtain ⟨hexecutions, hevents, hrecords, hrefs⟩ := hmoved
  subst hid
  constructor
  · intro id
    rw [hexecutions]
    exact h.executions id
  · intro id
    rw [Memory.putRun_lookup, hrecords, lookup_insert_ite, h.runs]
  · intro id
    rw [Memory.putRun_history, Keyspace.history, hevents]
    exact h.history id
  · rw [hexecutions]
    exact h.idempotent
  · rw [hexecutions]
    exact h.nodes
  · rw [hrefs]
    exact h.runIdempotent

theorem Abstracts.createRun (h : Abstracts s m) (run : PipelineRun) :
    Abstracts (s.applyAll (createRunCommands run))
      (if run.idempotencyKey ≠ "" then
        { m.putRun run with
          runIdempotent :=
            m.runIdempotent.insert (idempotencyIndex run.pipelineName run.idempotencyKey) run.id }
      else m.putRun run) := by
  have hruns : ∀ id, (m.putRun run).runs.lookup id =
      (s.runs.records.insert run.id run).lookup id := by
    intro id
    rw [Memory.putRun_lookup, lookup_insert_ite, h.runs]
  unfold createRunCommands runReferences
  split
  · refine ⟨h.executions, hruns, h.history, h.idempotent, h.nodes, ?_⟩
    intro key
    rw [lookup_insert_ite, h.runIdempotent]
    exact (lookup_insert_ite _ _ _ _).symm
  · exact ⟨h.executions, hruns, h.history, h.idempotent, h.nodes, h.runIdempotent⟩

end Create

end Ody.Redis
