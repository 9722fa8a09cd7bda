import Ody.Pipeline.EngineRules
import Ody.Execution.ReferenceIndexes
import Mathlib.Logic.Relation

/-!
# Restarts of a subgraph

`descendantKeys` computes the nodes below a node in one pass, which is enough
because declaration order is topological order. `RestartPipelineSubgraph` with
these keys is refused as a whole or resets exactly the executions of the node
and of the nodes below it.
-/

namespace Ody.Pipeline

open Library.Tables Memory

/-! ## The nodes below a node -/

/-- A node reads the output of another one. -/
def CompiledDefinition.DependsOn (definition : CompiledDefinition) (dependency key : String) :
    Prop :=
  ∃ node ∈ definition.nodes, node.key = key ∧ dependency ∈ node.dependencies

/-- A node is reached from another one by one or more dependencies. -/
def CompiledDefinition.Downstream (definition : CompiledDefinition) : String → String → Prop :=
  Relation.TransGen definition.DependsOn

variable {definition : CompiledDefinition} {root : String}

/-- What depends on an affected node is a descendant: the root itself depends on none. -/
theorem mem_descendantKeys_of_dependsOn {dependency key : String}
    (h : dependency ∈ restartKeys definition root) (hedge : definition.DependsOn dependency key) :
    key ∈ (descendantKeys definition root).1 := by
  obtain ⟨node, hnode, rfl, hd⟩ := hedge
  rcases List.mem_cons.mp (restartKeys_closed hnode hd h) with hroot | hbelow
  · rw [← hroot] at h
    exact absurd h (restartKeys_above hnode hd)
  · exact hbelow

theorem mem_descendantKeys_of_downstream {key : String} (h : definition.Downstream root key) :
    key ∈ (descendantKeys definition root).1 := by
  induction h with
  | single hedge => exact mem_descendantKeys_of_dependsOn (List.mem_cons_self ..) hedge
  | tail _ hedge ih => exact mem_descendantKeys_of_dependsOn (List.mem_cons_of_mem _ ih) hedge

variable (definition root) in
/-- The loop collects keys of the nodes it visits, in their order, and only nodes below the root. -/
theorem descend_added {nodes : List NodeDefinition}
    (hnodes : ∀ node ∈ nodes, node ∈ definition.nodes) (state : List String × List String × Bool)
    (hstate : ∀ key ∈ state.1, key = root ∨ definition.Downstream root key) :
    ∃ added, (nodes.foldl (descend root) state).2.1 = state.2.1 ++ added ∧
      added.Sublist (nodes.map (·.key)) ∧
      ∀ key ∈ added, key ≠ root ∧ definition.Downstream root key := by
  induction nodes generalizing state with
  | nil => exact ⟨[], by simp, by simp, by simp⟩
  | cons node rest ih =>
      have hrest : ∀ node ∈ rest, node ∈ definition.nodes :=
        fun other hmem => hnodes other (List.mem_cons_of_mem node hmem)
      rcases descend_cases root state node with ⟨hne, ⟨dependency, hd, hin⟩, haffected, hresult⟩ |
        ⟨-, haffected, hresult⟩
      · have hedge : definition.DependsOn dependency node.key :=
          ⟨node, hnodes node (List.mem_cons_self ..), rfl, hd⟩
        have hbelow : definition.Downstream root node.key := by
          rcases hstate dependency hin with rfl | hdown
          · exact Relation.TransGen.single hedge
          · exact hdown.tail hedge
        have hnext : ∀ key ∈ (descend root state node).1,
            key = root ∨ definition.Downstream root key := by
          intro key hmem
          rw [haffected] at hmem
          rcases List.mem_cons.mp hmem with rfl | hold
          · exact Or.inr hbelow
          · exact hstate key hold
        obtain ⟨added, hfinal, hsub, hadded⟩ := ih hrest (descend root state node) hnext
        refine ⟨node.key :: added, ?_, hsub.cons_cons node.key, ?_⟩
        · rw [List.foldl_cons, hfinal, hresult, List.append_assoc, List.singleton_append]
        · intro key hmem
          rcases List.mem_cons.mp hmem with rfl | hmem
          · exact ⟨hne, hbelow⟩
          · exact hadded key hmem
      · obtain ⟨added, hfinal, hsub, hadded⟩ :=
          ih hrest (descend root state node) (haffected ▸ hstate)
        refine ⟨added, ?_, hsub.cons node.key, hadded⟩
        rw [List.foldl_cons, hfinal, hresult]

theorem descendantKeys_spec (definition : CompiledDefinition) (root : String) :
    (descendantKeys definition root).1.Sublist definition.keys ∧
      ∀ key ∈ (descendantKeys definition root).1, key ≠ root ∧ definition.Downstream root key := by
  obtain ⟨added, hfinal, hsub, hadded⟩ := descend_added definition root (fun _ h => h)
    ([root], [], false) (by simp)
  rw [List.nil_append] at hfinal
  exact ⟨hfinal ▸ hsub, fun key hmem => hadded key (hfinal ▸ hmem)⟩

theorem mem_descendantKeys {key : String} :
    key ∈ (descendantKeys definition root).1 ↔ definition.Downstream root key :=
  ⟨fun h => ((descendantKeys_spec definition root).2 key h).2, mem_descendantKeys_of_downstream⟩

/-! ## The restart -/

/-- The request by which a node is restarted. -/
def subgraphRequest (definition : CompiledDefinition) (runID : UUID) (root : String)
    (availableAt : Time) : RestartSubgraph :=
  ⟨runID, root, (descendantKeys definition root).1, availableAt⟩

/-- The execution belongs to a node of the run or to a node below it. -/
def InSubgraph (definition : CompiledDefinition) (runID : UUID) (root : String) (item : Execution) :
    Prop :=
  item.pipelineRunID = some runID ∧
    (item.nodeKey = root ∨ definition.Downstream root item.nodeKey)

/-- Why a restart is refused: the run is unknown, the node has no execution, or an execution of the
subgraph is pending, waits for a retry or is running. -/
inductive Refused (definition : CompiledDefinition) (runID : UUID) (root : String)
    (s : MemoryStore) : Prop
  | run (h : s.runs.lookup runID = none)
  | root (h : ∀ id item, s.executions.lookup id = some item → item.pipelineRunID = some runID →
      item.nodeKey ≠ root)
  | active {id : UUID} {item : Execution} (h : s.executions.lookup id = some item)
      (hin : InSubgraph definition runID root item)
      (hactive : item.status = .pending ∨ item.status = .retry ∨ item.status = .running)

/-- The whole effect of a restart on the store. -/
structure ResetsSubgraph (env : Env) (definition : CompiledDefinition) (runID : UUID)
    (root : String) (availableAt : Time) (s s' : MemoryStore) : Prop where
  rootPending : ∀ id item, s.executions.lookup id = some item → item.pipelineRunID = some runID →
    item.nodeKey = root →
    s'.executions.lookup id = some { item with
      status := .pending
      attempt := 0
      availableAt := availableAt
      output := ""
      lastError := ""
      startedAt := none
      finishedAt := none
      leaseOwner := ""
      leaseToken := nilUUID
      leaseUntil := zeroTime } ∧
    s'.history id = s.history id ++ [{
      executionID := item.id
      type := .restarted
      attempt := 0
      error := ""
      createdAt := env.now }]
  belowBlocked : ∀ id item, s.executions.lookup id = some item → item.pipelineRunID = some runID →
    definition.Downstream root item.nodeKey →
    s'.executions.lookup id = some { item with
      status := .blocked
      attempt := 0
      availableAt := availableAt
      output := ""
      lastError := ""
      startedAt := none
      finishedAt := none
      leaseOwner := ""
      leaseToken := nilUUID
      leaseUntil := zeroTime } ∧
    s'.history id = s.history id ++ [{
      executionID := item.id
      type := .restarted
      attempt := 0
      error := ""
      createdAt := env.now }]
  others : ∀ id, (∀ item, s.executions.lookup id = some item →
      ¬InSubgraph definition runID root item) →
    s'.executions.lookup id = s.executions.lookup id ∧ s'.history id = s.history id
  run : ∃ run, s.runs.lookup runID = some run ∧ s'.runs.lookup runID = some { run with
    status := .running
    error := ""
    finishedAt := none
    updatedAt := env.now
    revision := run.revision + 1 }
  runs : ∀ id, id ≠ runID → s'.runs.lookup id = s.runs.lookup id
  idempotent : s'.idempotent = s.idempotent
  nodes : s'.nodes = s.nodes
  runIdempotent : s'.runIdempotent = s.runIdempotent

theorem affected_iff_inSubgraph {runID : UUID} (availableAt : Time) {item : Execution} :
    affected (subgraphRequest definition runID root availableAt) item = true ↔
      InSubgraph definition runID root item := by
  simp [affected, subgraphRequest, InSubgraph, mem_descendantKeys]

theorem subgraphReset_eq (env : Env) (runID : UUID) (availableAt : Time) (item : Execution) :
    subgraphReset env (subgraphRequest definition runID root availableAt) item =
      restarted (if item.nodeKey = root then .pending else .blocked)
        (if availableAt = zeroTime then env.now else availableAt) item := rfl

/-- A node is not below itself. -/
theorem not_downstream_self : ¬definition.Downstream root root := by
  intro h
  exact ((descendantKeys_spec definition root).2 root (mem_descendantKeys.mpr h)).1 rfl

theorem isActive_iff {status : Status} :
    status.isActive = true ↔ status = .pending ∨ status = .retry ∨ status = .running := by
  cases status <;> simp [Status.isActive]

/-- A restart leaves the other runs alone. -/
theorem runs_of_restart {env : Env} {s s' : MemoryStore} {request : RestartSubgraph} {id : UUID}
    (h : RunEffect env s s' (.restartPipelineSubgraph request) id) (hne : id ≠ request.runID) :
    s'.runs.lookup id = s.runs.lookup id := by
  cases h with
  | same h => exact h
  | reopened => exact absurd rfl hne

section Restart

variable {env : Env} {s s' : MemoryStore} {runID : UUID} {availableAt : Time}

/-- An error has one of the three reasons, and the store is as before. -/
theorem refused_of_error {err : GoError}
    (h : (restartPipelineSubgraph env s (subgraphRequest definition runID root availableAt)).1 =
      .error err) :
    Refused definition runID root s := by
  unfold restartPipelineSubgraph at h
  split at h
  · next hnone => exact Refused.run hnone
  · split at h
    · next hroot =>
      rcases subgraphRoot_error hroot with ⟨item, hmem, haffected, hactive⟩ | hnone
      · exact Refused.active ((mem_items s env item 0).mp hmem)
          ((affected_iff_inSubgraph availableAt).mp haffected) (isActive_iff.mp hactive)
      · refine Refused.root fun id item hl hrun hkey => ?_
        have hid := s.executions_keyed id item hl
        exact hnone item ((mem_items s env item 0).mpr (hid.symm ▸ hl))
          ((affected_iff_inSubgraph availableAt).mpr ⟨hrun, Or.inl hkey⟩) hkey
    · cases h

theorem not_refused_of_restarts
    (h : Restarts env s s' (subgraphRequest definition runID root availableAt)) :
    ¬Refused definition runID root s := by
  intro hrefused
  cases hrefused with
  | run hnone =>
      obtain ⟨run, hrun, -⟩ := h.run
      cases hnone.symm.trans hrun
  | root hnone =>
      obtain ⟨id, item, hl, haffected, hkey⟩ := h.root
      exact hnone id item hl ((affected_iff_inSubgraph availableAt).mp haffected).1 hkey
  | active hl hin hactive =>
      have hidle := h.idle _ _ hl ((affected_iff_inSubgraph availableAt).mpr hin)
      rw [isActive_iff.mpr hactive] at hidle
      cases hidle

section Effect

variable {result : Execution}
  (h : (restartPipelineSubgraph env s (subgraphRequest definition runID root availableAt)).1 =
    .ok result)
  (hrestarts : Restarts env s
    (restartPipelineSubgraph env s (subgraphRequest definition runID root availableAt)).2
    (subgraphRequest definition runID root availableAt))

include h hrestarts

/-- An execution of the subgraph is reset and gets one event. -/
theorem restart_inside {id : UUID} {item : Execution} (hl : s.executions.lookup id = some item)
    (hin : InSubgraph definition runID root item) :
    (restartPipelineSubgraph env s
        (subgraphRequest definition runID root availableAt)).2.executions.lookup id =
        some (subgraphReset env (subgraphRequest definition runID root availableAt) item) ∧
      (restartPipelineSubgraph env s
        (subgraphRequest definition runID root availableAt)).2.history id = s.history id ++
        [event env (subgraphReset env (subgraphRequest definition runID root availableAt) item)
          .restarted ""] := by
  have haffected := (affected_iff_inSubgraph availableAt).mpr hin
  constructor
  · rw [hrestarts.executions, hl, Option.map_some, if_pos haffected]
  · rw [restartPipelineSubgraph_history h, hl, Option.filter_some, if_pos haffected]
    rfl

theorem restart_outside {id : UUID}
    (hout : ∀ item, s.executions.lookup id = some item → ¬InSubgraph definition runID root item) :
    (restartPipelineSubgraph env s
        (subgraphRequest definition runID root availableAt)).2.executions.lookup id =
        s.executions.lookup id ∧
      (restartPipelineSubgraph env s
        (subgraphRequest definition runID root availableAt)).2.history id = s.history id := by
  rw [hrestarts.executions, restartPipelineSubgraph_history h]
  cases hl : s.executions.lookup id with
  | none => simp
  | some item =>
      have hkept := mt (affected_iff_inSubgraph availableAt).mp (hout item hl)
      rw [Option.map_some, if_neg hkept, Option.filter_some, if_neg hkept]
      simp

/-- A restart that returns an execution has the whole effect. -/
theorem resetsSubgraph_of_ok :
    ResetsSubgraph env definition runID root
      (if availableAt = zeroTime then env.now else availableAt) s
      (restartPipelineSubgraph env s (subgraphRequest definition runID root availableAt)).2 := by
  have hreferences : (restartPipelineSubgraph env s
      (subgraphRequest definition runID root availableAt)).2.references = s.references :=
    exec_references env
      (c := .restartPipelineSubgraph (subgraphRequest definition runID root availableAt)) rfl
  obtain ⟨hidempotent, hindexes⟩ := Prod.mk.inj hreferences
  obtain ⟨hnodes, hrunIdempotent⟩ := Prod.mk.inj hindexes
  constructor
  · intro id item hl hrun hkey
    have hreset := restart_inside h hrestarts hl ⟨hrun, Or.inl hkey⟩
    rwa [subgraphReset_eq, if_pos hkey] at hreset
  · intro id item hl hrun hbelow
    have hreset := restart_inside h hrestarts hl ⟨hrun, Or.inr hbelow⟩
    have hne : item.nodeKey ≠ root := by
      intro hkey
      rw [hkey] at hbelow
      exact not_downstream_self hbelow
    rwa [subgraphReset_eq, if_neg hne] at hreset
  · intro id hout
    exact restart_outside h hrestarts hout
  · exact hrestarts.run
  · intro id hne
    have heffect := restartPipelineSubgraph_runEffect env s
      (subgraphRequest definition runID root availableAt) id
    exact runs_of_restart heffect hne
  · exact hidempotent
  · exact hnodes
  · exact hrunIdempotent

end Effect

end Restart

/-- For every accepted definition and every node, the keys of a restart are exactly the nodes below
it in declaration order, and the restart with these keys is refused without any effect or resets
exactly the subgraph. -/
theorem restart_resets_subgraph (definition : CompiledDefinition) (root : String) (env : Env)
    (s : MemoryStore) (runID : UUID) (availableAt : Time) :
    ((descendantKeys definition root).1.Sublist definition.keys ∧
      (descendantKeys definition root).1.Nodup ∧ root ∉ (descendantKeys definition root).1 ∧
      ∀ key, key ∈ (descendantKeys definition root).1 ↔ definition.Downstream root key) ∧
    let result := restartPipelineSubgraph env s (subgraphRequest definition runID root availableAt)
    (((∃ err, result.1 = .error err) ∧ result.2 = s ∧ Refused definition runID root s) ∨
      ((∃ item, result.1 = .ok item) ∧ ¬Refused definition runID root s ∧
        ResetsSubgraph env definition runID root
          (if availableAt = zeroTime then env.now else availableAt) s result.2)) := by
  obtain ⟨hsub, hbelow⟩ := descendantKeys_spec definition root
  refine ⟨⟨hsub, definition.keys_nodup.sublist hsub, fun h => (hbelow root h).1 rfl,
    fun _ => mem_descendantKeys⟩, ?_⟩
  have hcases := restartPipelineSubgraph_cases env s
    (subgraphRequest definition runID root availableAt)
  rcases hcases with ⟨⟨err, herr⟩, hsame⟩ | ⟨⟨item, hok⟩, hrestarts⟩
  · exact Or.inl ⟨⟨err, herr⟩, hsame, refused_of_error herr⟩
  · exact Or.inr ⟨⟨item, hok⟩, not_refused_of_restarts hrestarts,
      resetsSubgraph_of_ok hok hrestarts⟩

end Ody.Pipeline
