import Ody.Execution.Freshness
import Ody.Library.DerivedIndexes

/-!
# Reference maps of the in-memory store

Beside the records a `MemoryStore` keeps references to them: by idempotency key,
by node and, for runs, by idempotency key. `CreateExecution` and
`CreatePipelineRun` look there before they create a record, and `Purge` deletes
the entries computed from the records it removes. Keys never change, so the
references are those of the records after every sequence of calls. A repeated
request then finds what the first one returned, as long as that record carries
the key. A record that `CreateExecution` finds by its node need not.
-/

namespace Ody.Memory

open Library.Tables Library.DerivedIndexes

/-! ## References of records and requests -/

/-- The entry for a name and an idempotency key. -/
def keyReference (name key : String) : Option String :=
  if key ≠ "" then some (idempotencyIndex name key) else none

/-- The entry for a node of a run. -/
def nodeReference (runID : Option UUID) (nodeKey : String) : Option (UUID × String) :=
  runID.bind fun id => if nodeKey ≠ "" then some (id, nodeKey) else none

def keyOf (item : Execution) : Option String := keyReference item.taskName item.idempotencyKey

def nodeOf (item : Execution) : Option (UUID × String) :=
  nodeReference item.pipelineRunID item.nodeKey

def runKeyOf (run : PipelineRun) : Option String := keyReference run.pipelineName run.idempotencyKey

def requestKey (request : CreateExecution) : Option String :=
  keyReference request.taskName request.idempotencyKey

def requestNode (request : CreateExecution) : Option (UUID × String) :=
  nodeReference request.pipelineRunID request.nodeKey

def runRequestKey (request : CreatePipelineRun) : Option String :=
  keyReference request.pipelineName request.idempotencyKey

theorem keyReference_eq_some {name key ref : String} :
    keyReference name key = some ref ↔ key ≠ "" ∧ idempotencyIndex name key = ref := by
  unfold keyReference
  split <;> simp_all

theorem nodeReference_eq_some {runID : Option UUID} {nodeKey : String} {ref : UUID × String} :
    nodeReference runID nodeKey = some ref ↔
      runID = some ref.1 ∧ nodeKey = ref.2 ∧ ref.2 ≠ "" := by
  obtain ⟨refRun, refKey⟩ := ref
  cases runID with
  | none => simp [nodeReference]
  | some id =>
      by_cases hempty : nodeKey = ""
      · subst hempty
        simp [nodeReference, eq_comm]
      · simp only [nodeReference, Option.bind_some, ne_eq, hempty, not_false_eq_true, if_true,
          Option.some.injEq, Prod.mk.injEq]
        constructor
        · rintro ⟨rfl, rfl⟩
          exact ⟨rfl, rfl, hempty⟩
        · rintro ⟨rfl, rfl, -⟩
          exact ⟨rfl, rfl⟩

/-- `CreateExecution` looks for the key first and then for the node. -/
theorem existing_eq (s : MemoryStore) (request : CreateExecution) :
    existing s request = ((requestKey request).bind fun ref => s.idempotent.lookup ref).or
      ((requestNode request).bind fun ref => s.nodes.lookup ref) := by
  have hkey : (requestKey request).bind (fun ref => s.idempotent.lookup ref) =
      if request.idempotencyKey ≠ ""
      then s.idempotent.lookup (idempotencyIndex request.taskName request.idempotencyKey)
      else none := by
    unfold requestKey keyReference
    split <;> rfl
  rw [hkey]
  unfold existing requestNode nodeReference
  generalize (if request.idempotencyKey ≠ "" then _ else none : Option UUID) = byKey
  cases byKey with
  | some id => rfl
  | none =>
      cases request.pipelineRunID with
      | none => rfl
      | some runID =>
          simp only [Option.bind_some, Option.none_or]
          split <;> rfl

theorem existing_eq_none {s : MemoryStore} {request : CreateExecution} :
    existing s request = none ↔
      (∀ ref, requestKey request = some ref → s.idempotent.lookup ref = none) ∧
        ∀ ref, requestNode request = some ref → s.nodes.lookup ref = none := by
  rw [existing_eq, Option.or_eq_none_iff, Option.bind_eq_none_iff, Option.bind_eq_none_iff]

theorem existingRun_eq (s : MemoryStore) (request : CreatePipelineRun) :
    existingRun s request = (runRequestKey request).bind fun ref => s.runIdempotent.lookup ref := by
  unfold existingRun runRequestKey keyReference
  split <;> rfl

/-- No call changes what an execution is referenced by. -/
theorem Transition.references_eq {env : Env} {s : MemoryStore} {c : Call} {item item' : Execution}
    {evs : List Event} (t : Transition env s c item item' evs) :
    keyOf item' = keyOf item ∧ nodeOf item' = nodeOf item := by
  cases t <;> exact ⟨rfl, rfl⟩

/-! ## Integrity -/

/-- The references are those of the records, and exactly the stored executions have a history. -/
structure Referenced (s : MemoryStore) : Prop where
  idempotent : Leads keyOf s.executions s.idempotent
  nodes : Leads nodeOf s.executions s.nodes
  runIdempotent : Leads runKeyOf s.runs s.runIdempotent
  events : ∀ id, id ∈ s.events ↔ id ∈ s.executions

theorem Referenced.empty : Referenced newMemoryStore where
  idempotent := by simp [Leads, newMemoryStore]
  nodes := by simp [Leads, newMemoryStore]
  runIdempotent := by simp [Leads, newMemoryStore]
  events := by simp [newMemoryStore]

/-! ### Histories -/

section Histories

variable {env : Env} {s : MemoryStore} {item : Execution} {eventType : EventType} {text : String}

/-- Exactly the stored executions have a history. -/
def Recorded (s : MemoryStore) : Prop := ∀ id, id ∈ s.events ↔ id ∈ s.executions

theorem Recorded.save (h : Recorded s) :
    Recorded ((s.put item).appendEvent env item eventType text) := by
  intro id
  change id ∈ AList.insert _ _ s.events ↔ id ∈ AList.insert _ _ s.executions
  rw [AList.mem_insert, AList.mem_insert, h id]

theorem Recorded.put (h : Recorded s) (hitem : item.id ∈ s.executions) : Recorded (s.put item) := by
  intro id
  change id ∈ s.events ↔ id ∈ AList.insert _ _ s.executions
  rw [AList.mem_insert, h id]
  constructor
  · exact Or.inr
  · rintro (rfl | hmem)
    · exact hitem
    · exact hmem

theorem Recorded.saveAll (texts : Execution → String) (items : List Execution) (h : Recorded s) :
    Recorded (saveAll env eventType texts s items) := by
  induction items generalizing s with
  | nil => exact h
  | cons item rest ih => exact ih h.save

theorem Recorded.delete {id : UUID} (h : Recorded s) : Recorded (s.deleteExecution id item) := by
  intro id'
  rw [deleteExecution_events, deleteExecution_executions, AList.mem_erase, AList.mem_erase, h id']

theorem mem_of_owned {id token : UUID} (h : owned s id token = .ok item) :
    item.id ∈ s.executions := by
  obtain ⟨hl, hid, -⟩ := owned_ok h
  exact AList.lookup_isSome.mp (by rw [hid, hl]; rfl)

end Histories

/-! ### Calls that keep the set of records -/

/-- The calls that create or remove records. -/
def restructures : Call → Bool
  | .createExecution _ => true
  | .createPipelineRun _ => true
  | .purge .. => true
  | _ => false

/-- The reference maps of a store. -/
def MemoryStore.references (s : MemoryStore) :
    Table String UUID × Table (UUID × String) UUID × Table String UUID :=
  (s.idempotent, s.nodes, s.runIdempotent)

section Keeping

variable (env : Env) {s : MemoryStore} {c : Call}

theorem saveAll_references (eventType : EventType) (text : Execution → String) (s : MemoryStore)
    (items : List Execution) : (saveAll env eventType text s items).references = s.references :=
  foldl_frame (fun s item => (s.put item).appendEvent env item eventType (text item)) (·.references)
    (fun _ _ => rfl) items s

theorem exec_references (h : restructures c = false) :
    (exec env s c).2.references = s.references := by
  cases c with
  | createExecution _ => cases h
  | createPipelineRun _ => cases h
  | purge _ _ => cases h
  | claim _ _ _ _ => exact saveAll_references env .started _ s _
  | reapExpired => exact saveAll_references env .failed _ s _
  | restartPipelineSubgraph request =>
      simp only [exec, restartPipelineSubgraph]
      repeat' split
      · rfl
      · rfl
      · exact saveAll_references env .restarted (fun _ => "") s _
  | _ =>
      simp only [exec, heartbeat, succeed, retry, fail, cancelExecution, restartExecution,
        releaseExecution, setPipelineRunStatus]
      repeat' split
      all_goals rfl

theorem exec_recorded (h : restructures c = false) (hs : Recorded s) :
    Recorded (exec env s c).2 := by
  cases c with
  | createExecution _ => cases h
  | createPipelineRun _ => cases h
  | purge _ _ => cases h
  | claim _ _ _ _ => exact Recorded.saveAll _ _ hs
  | reapExpired => exact Recorded.saveAll _ _ hs
  | restartPipelineSubgraph request =>
      simp only [exec, restartPipelineSubgraph]
      repeat' split
      · exact hs
      · exact hs
      · exact Recorded.saveAll (fun _ => "") _ hs
  | heartbeat id token lease =>
      simp only [exec, heartbeat]
      split
      · exact hs
      · next item howned =>
        have hmem : item.id ∈ s.executions := mem_of_owned howned
        exact hs.put hmem
  | releaseExecution id input availableAt =>
      simp only [exec, releaseExecution]
      split
      · exact hs
      · next item hl =>
        split
        · exact hs
        · refine hs.put (AList.lookup_isSome.mp ?_)
          change (s.executions.lookup item.id).isSome = true
          rw [s.executions_keyed id item hl, hl]
          rfl
  | _ =>
      simp only [exec, succeed, retry, fail, cancelExecution, restartExecution,
        setPipelineRunStatus]
      repeat' split
      all_goals first
        | exact hs
        | exact hs.save

/-- The executions keep what they are referenced by. -/
theorem exec_executions_references (h : restructures c = false) (id : UUID) :
    ((exec env s c).2.executions.lookup id).map keyOf = (s.executions.lookup id).map keyOf ∧
      ((exec env s c).2.executions.lookup id).map nodeOf = (s.executions.lookup id).map nodeOf := by
  cases exec_effect env s c id with
  | same hsame _ => rw [hsame]; exact ⟨rfl, rfl⟩
  | inserted _ _ _ _ => cases h
  | moved hold hnew _ t =>
      obtain ⟨hkey, hnode⟩ := t.references_eq
      rw [hold, hnew, Option.map_some, Option.map_some, Option.map_some, Option.map_some, hkey,
        hnode]
      exact ⟨rfl, rfl⟩
  | deleted _ _ => cases h

/-- The runs keep what they are referenced by. -/
theorem exec_runs_references (h : restructures c = false) (id : UUID) :
    ((exec env s c).2.runs.lookup id).map runKeyOf = (s.runs.lookup id).map runKeyOf := by
  cases exec_runEffect env s c id with
  | same hsame => rw [hsame]
  | inserted _ _ => cases h
  | status hold hnew =>
      rw [hold, hnew]
      rfl
  | reopened hold hnew =>
      rw [hold, hnew]
      rfl
  | deleted _ => cases h

theorem Referenced.keep (hs : Referenced s) (h : restructures c = false) :
    Referenced (exec env s c).2 := by
  have hrefs := exec_references env (s := s) h
  simp only [MemoryStore.references, Prod.mk.injEq] at hrefs
  obtain ⟨hidempotent, hnodes, hruns⟩ := hrefs
  refine ⟨?_, ?_, ?_, exec_recorded env h hs.events⟩
  · rw [hidempotent]
    exact hs.idempotent.congr fun id => (exec_executions_references env h id).1
  · rw [hnodes]
    exact hs.nodes.congr fun id => (exec_executions_references env h id).2
  · rw [hruns]
    exact hs.runIdempotent.congr (exec_runs_references env h)

end Keeping

/-! ### Creation -/

section Creation

variable {env : Env} {s : MemoryStore}

theorem register_idempotent (item : Execution) (ref : String) :
    (register s item).idempotent.lookup ref =
      if keyOf item = some ref then some item.id else s.idempotent.lookup ref := by
  have hnode : ∀ t : MemoryStore, (registerNode t item).idempotent = t.idempotent := by
    intro t
    unfold registerNode
    repeat' split
    all_goals rfl
  rw [register, hnode, registerKey]
  by_cases hempty : item.idempotencyKey = ""
  · simp [hempty, keyOf, keyReference]
  · simp only [ne_eq, hempty, not_false_eq_true, if_true, keyOf, keyReference, Option.some.injEq,
      lookup_insert_ite]
    exact if_congr eq_comm rfl rfl

theorem register_node (item : Execution) (ref : UUID × String) :
    (register s item).nodes.lookup ref =
      if nodeOf item = some ref then some item.id else s.nodes.lookup ref := by
  rw [register_nodes]
  exact if_congr nodeReference_eq_some.symm rfl rfl

theorem Referenced.create (hs : Referenced s) {request : CreateExecution}
    (hnew : existing s request = none) (hfresh : s.executions.lookup (env.newUUID 0) = none) :
    Referenced ((register (s.put (created env request)) (created env request)).appendEvent env
      (created env request) .created "") := by
  obtain ⟨hkeys, hnodes⟩ := existing_eq_none.mp hnew
  have hexecutions : (register (s.put (created env request)) (created env request)).executions =
      s.executions.insert (env.newUUID 0) (created env request) := register_executions _ _
  refine ⟨?_, ?_, ?_, ?_⟩
  · rw [appendEvent_executions, hexecutions]
    refine hs.idempotent.insert hfresh hkeys ?_ ?_
    · intro ref href
      exact (register_idempotent _ ref).trans (if_pos href)
    · intro ref href
      exact (register_idempotent _ ref).trans (if_neg href)
  · rw [appendEvent_executions, hexecutions]
    refine hs.nodes.insert hfresh hnodes ?_ ?_
    · intro ref href
      exact (register_node _ ref).trans (if_pos href)
    · intro ref href
      exact (register_node _ ref).trans (if_neg href)
  · have hruns : (register (s.put (created env request)) (created env request)).runIdempotent =
        s.runIdempotent := by
      unfold register registerNode registerKey
      repeat' split
      all_goals rfl
    rw [appendEvent_runs, register_runs, put_runs]
    exact hruns ▸ hs.runIdempotent
  · have hevents : (register (s.put (created env request)) (created env request)).events =
        s.events := by
      unfold register registerNode registerKey
      repeat' split
      all_goals rfl
    intro id
    rw [appendEvent_executions, hexecutions, AList.mem_insert, ← hs.events id]
    change id ∈ AList.insert _ _ (register _ _).events ↔ _
    rw [AList.mem_insert, hevents]
    rfl

theorem Referenced.createRun (hs : Referenced s) {request : CreatePipelineRun}
    (hfresh : s.runs.lookup (env.newUUID 0) = none) :
    Referenced (createPipelineRun env s request).2 := by
  cases hnew : existingRun s request with
  | some id =>
      simp only [createPipelineRun, hnew]
      exact hs
  | none =>
      have hlookup : ∀ ref, (createPipelineRun env s request).2.runIdempotent.lookup ref =
          if runKeyOf (createdRun env request) = some ref then some (env.newUUID 0)
          else s.runIdempotent.lookup ref := by
        intro ref
        simp only [createPipelineRun, hnew]
        by_cases hempty : (createdRun env request).idempotencyKey = ""
        · simp [hempty, runKeyOf, keyReference, MemoryStore.putRun]
        · simp only [ne_eq, hempty, not_false_eq_true, if_true, runKeyOf, keyReference,
            Option.some.injEq, lookup_insert_ite]
          exact if_congr eq_comm rfl rfl
      have hruns : (createPipelineRun env s request).2.runs =
          s.runs.insert (env.newUUID 0) (createdRun env request) := by
        simp only [createPipelineRun, hnew]
        split <;> rfl
      have hkept : (createPipelineRun env s request).2.executions = s.executions ∧
          (createPipelineRun env s request).2.idempotent = s.idempotent ∧
          (createPipelineRun env s request).2.nodes = s.nodes ∧
          (createPipelineRun env s request).2.events = s.events := by
        simp only [createPipelineRun, hnew]
        split <;> exact ⟨rfl, rfl, rfl, rfl⟩
      obtain ⟨hexecutions, hidempotent, hnodes, hevents⟩ := hkept
      refine ⟨?_, ?_, ?_, ?_⟩
      · rw [hexecutions, hidempotent]
        exact hs.idempotent
      · rw [hexecutions, hnodes]
        exact hs.nodes
      · rw [hruns]
        refine hs.runIdempotent.insert hfresh ?_ ?_ ?_
        · rw [existingRun_eq, Option.bind_eq_none_iff] at hnew
          exact hnew
        · intro ref href
          exact (hlookup ref).trans (if_pos href)
        · intro ref href
          exact (hlookup ref).trans (if_neg href)
      · intro id
        rw [hexecutions, hevents]
        exact hs.events id

end Creation

/-! ### Removal -/

section Removal

variable {s : MemoryStore} {item : Execution}

theorem deleteExecution_idempotent (id : UUID) (ref : String) :
    (s.deleteExecution id item).idempotent.lookup ref =
      if keyOf item = some ref then none else s.idempotent.lookup ref := by
  have hlookup : (s.deleteExecution id item).idempotent =
      if item.idempotencyKey ≠ ""
      then s.idempotent.erase (idempotencyIndex item.taskName item.idempotencyKey)
      else s.idempotent := by
    unfold MemoryStore.deleteExecution
    cases item.pipelineRunID <;> dsimp only <;> split <;> rfl
  rw [hlookup]
  by_cases hempty : item.idempotencyKey = ""
  · simp [hempty, keyOf, keyReference]
  · simp only [ne_eq, hempty, not_false_eq_true, if_true, keyOf, keyReference, Option.some.injEq,
      lookup_erase_ite]
    exact if_congr eq_comm rfl rfl

theorem deleteExecution_nodes_ite (id : UUID) (ref : UUID × String) :
    (s.deleteExecution id item).nodes.lookup ref =
      if item.pipelineRunID = some ref.1 ∧ item.nodeKey = ref.2 then none
      else s.nodes.lookup ref := by
  by_cases hrun : item.pipelineRunID = some ref.1
  · have herase : (s.deleteExecution id item).nodes = s.nodes.erase (ref.1, item.nodeKey) := by
      unfold MemoryStore.deleteExecution
      rw [hrun]
      dsimp only
      split <;> rfl
    rw [herase, lookup_erase_ite]
    refine if_congr ?_ rfl rfl
    rw [Prod.ext_iff]
    simp [hrun, eq_comm]
  · rw [deleteExecution_nodes s id item ref hrun, if_neg (fun h => hrun h.1)]

/-- The entry for an empty node key, which is deleted as well, was not there. -/
theorem Referenced.deleteExecution_node (hs : Referenced s) (id : UUID) (ref : UUID × String) :
    (s.deleteExecution id item).nodes.lookup ref =
      if nodeOf item = some ref then none else s.nodes.lookup ref := by
  rw [deleteExecution_nodes_ite]
  by_cases hempty : ref.2 = ""
  · have hnone : s.nodes.lookup ref = none := by
      refine hs.nodes.free_iff.mpr fun k record _ hcarried => ?_
      exact (nodeReference_eq_some.mp hcarried).2.2 hempty
    simp [hnone]
  · refine if_congr ?_ rfl rfl
    rw [nodeOf, nodeReference_eq_some]
    simp [hempty]

theorem Referenced.delete (hs : Referenced s) {id : UUID}
    (hl : s.executions.lookup id = some item) : Referenced (s.deleteExecution id item) := by
  have hexecutions := deleteExecution_executions s id item
  have hruns : (s.deleteExecution id item).runIdempotent = s.runIdempotent := by
    unfold MemoryStore.deleteExecution
    repeat' split
    all_goals rfl
  refine ⟨?_, ?_, ?_, Recorded.delete hs.events⟩
  · rw [hexecutions]
    refine hs.idempotent.remove hl ?_ ?_
    · intro ref href
      exact (deleteExecution_idempotent id ref).trans (if_pos href)
    · intro ref href
      exact (deleteExecution_idempotent id ref).trans (if_neg href)
  · rw [hexecutions]
    refine hs.nodes.remove hl ?_ ?_
    · intro ref href
      exact (hs.deleteExecution_node id ref).trans (if_pos href)
    · intro ref href
      exact (hs.deleteExecution_node id ref).trans (if_neg href)
  · rw [deleteExecution_runs, hruns]
    exact hs.runIdempotent

/-- A standalone candidate may be gone already; then nothing is left to delete. -/
theorem Referenced.deleteCandidate (hs : Referenced s) (id : UUID) :
    Referenced (s.deleteExecution id ((s.executions.lookup id).getD zeroExecution)) := by
  cases hl : s.executions.lookup id with
  | some item => exact hs.delete hl
  | none =>
      have hlookup : ∀ k, (s.executions.erase id).lookup k = s.executions.lookup k := by
        intro k
        rw [lookup_erase_ite]
        split
        · next heq => rw [heq, hl]
        · rfl
      refine ⟨hs.idempotent.congr ?_, hs.nodes.congr ?_, hs.runIdempotent,
        Recorded.delete hs.events⟩
      · intro k
        exact congrArg (Option.map keyOf) (hlookup k)
      · intro k
        exact congrArg (Option.map nodeOf) (hlookup k)

theorem Referenced.deleteAll (items : List Execution) (hs : Referenced s)
    (hnodup : (items.map (·.id)).Nodup)
    (hitems : ∀ item ∈ items, s.executions.lookup item.id = some item) :
    Referenced (items.foldl (fun s item => s.deleteExecution item.id item) s) := by
  induction items generalizing s with
  | nil => exact hs
  | cons item rest ih =>
      rw [List.map_cons, List.nodup_cons] at hnodup
      refine ih (hs.delete (hitems item (by simp))) hnodup.2 ?_
      intro other hmem
      rw [deleteExecution_lookup, if_neg]
      · exact hitems other (List.mem_cons_of_mem _ hmem)
      · rintro heq
        exact hnodup.1 (heq ▸ List.mem_map_of_mem hmem)

theorem Referenced.purgeNodes (hs : Referenced s) (env : Env) (i : Nat) (runID : UUID) :
    Referenced (purgeNodes env i s runID).2 := by
  refine Referenced.deleteAll _ hs ?_ ?_
  · exact (items_ids_nodup s env i).sublist (List.filter_sublist.map _)
  · intro item hmem
    rw [List.mem_filter, mem_items] at hmem
    exact hmem.1

/-- The store without a run and its reference. -/
def forgetRun (s : MemoryStore) (id : UUID) (run : PipelineRun) : MemoryStore :=
  if run.idempotencyKey ≠ "" then
    { s.dropRun id with
      runIdempotent := (s.dropRun id).runIdempotent.erase
        (idempotencyIndex run.pipelineName run.idempotencyKey) }
  else s.dropRun id

theorem forgetRun_runIdempotent (s : MemoryStore) (id : UUID) (run : PipelineRun) (ref : String) :
    (forgetRun s id run).runIdempotent.lookup ref =
      if runKeyOf run = some ref then none else s.runIdempotent.lookup ref := by
  unfold forgetRun
  by_cases hempty : run.idempotencyKey = ""
  · simp [hempty, runKeyOf, keyReference, MemoryStore.dropRun]
  · simp only [ne_eq, hempty, not_false_eq_true, if_true, runKeyOf, keyReference,
      Option.some.injEq, lookup_erase_ite]
    exact if_congr eq_comm rfl rfl

theorem Referenced.forgetRun (hs : Referenced s) (id : UUID) :
    Referenced (forgetRun s id ((s.runs.lookup id).getD zeroRun)) := by
  have hkept : ∀ run, (Memory.forgetRun s id run).executions = s.executions ∧
      (Memory.forgetRun s id run).idempotent = s.idempotent ∧
      (Memory.forgetRun s id run).nodes = s.nodes ∧
      (Memory.forgetRun s id run).events = s.events ∧
      (Memory.forgetRun s id run).runs = s.runs.erase id := by
    intro run
    unfold Memory.forgetRun
    split <;> exact ⟨rfl, rfl, rfl, rfl, rfl⟩
  obtain ⟨hexecutions, hidempotent, hnodes, hevents, hruns⟩ :=
    hkept ((s.runs.lookup id).getD zeroRun)
  refine ⟨?_, ?_, ?_, ?_⟩
  · rw [hexecutions, hidempotent]
    exact hs.idempotent
  · rw [hexecutions, hnodes]
    exact hs.nodes
  · rw [hruns]
    cases hl : s.runs.lookup id with
    | some run =>
        rw [Option.getD_some]
        refine hs.runIdempotent.remove hl ?_ ?_
        · exact fun ref href => (forgetRun_runIdempotent s id run ref).trans (if_pos href)
        · exact fun ref href => (forgetRun_runIdempotent s id run ref).trans (if_neg href)
    | none =>
        refine hs.runIdempotent.congr fun k => ?_
        rw [lookup_erase_ite]
        split
        · next heq => rw [heq, hl]
        · rfl
  · intro key
    rw [hexecutions, hevents]
    exact hs.events key

theorem Referenced.purgeOne (hs : Referenced s) (env : Env) (i : Nat) (result : PurgeResult)
    (candidate : Candidate) : Referenced (purgeOne env i s result candidate).2 := by
  cases hp : candidate.pipeline with
  | false =>
      simp only [Memory.purgeOne, hp]
      exact hs.deleteCandidate candidate.id
  | true =>
      have hforgotten := (hs.purgeNodes env i candidate.id).forgetRun candidate.id
      rw [purgeNodes_runs] at hforgotten
      simp only [Memory.purgeOne, hp, if_true]
      exact hforgotten

theorem Referenced.purgeLoop (env : Env) (candidates : List Candidate) (i : Nat)
    (result : PurgeResult) (hs : Referenced s) :
    Referenced (purgeLoop env i candidates result s).2 := by
  induction candidates generalizing i result s with
  | nil => exact hs
  | cons candidate rest ih => exact ih (i + 1) _ (hs.purgeOne env i result candidate)

end Removal

/-! ### Every call -/

theorem exec_referenced {w : World} {env : Env} (hknown : w.Known) (hfresh : env.Fresh w)
    (c : Call) (hs : Referenced w.store) : Referenced (exec env w.store c).2 := by
  cases hc : restructures c with
  | false => exact hs.keep env hc
  | true =>
      cases c with
      | createExecution request =>
          simp only [exec, createExecution]
          split
          · exact hs
          · split
            · exact hs
            · next hnew =>
              refine hs.create hnew ?_
              cases hl : w.store.executions.lookup (env.newUUID 0) with
              | none => rfl
              | some item => exact absurd (hknown.executions _ _ hl) (hfresh 0)
      | createPipelineRun request =>
          refine hs.createRun ?_
          cases hl : w.store.runs.lookup (env.newUUID 0) with
          | none => rfl
          | some run => exact absurd (hknown.runs _ _ hl) (hfresh 0)
      | purge before limit => exact Referenced.purgeLoop env _ 1 ⟨0, 0⟩ hs
      | _ => cases hc

/-! ## Repeated requests -/

section Requests

variable {s : MemoryStore} {id : UUID}

/-- Every request with this key returns the execution and stores nothing. -/
def AnswersKey (s : MemoryStore) (ref : String) (id : UUID) : Prop :=
  ∀ env request, request.taskName ≠ "" → requestKey request = some ref →
    ∃ item, item.id = id ∧ createExecution env s request = (.ok item, s)

/-- Every request for this node without a key returns the execution and stores nothing. -/
def AnswersNode (s : MemoryStore) (ref : UUID × String) (id : UUID) : Prop :=
  ∀ env request, request.taskName ≠ "" → requestKey request = none →
    requestNode request = some ref →
    ∃ item, item.id = id ∧ createExecution env s request = (.ok item, s)

/-- Every request with this key returns the run and stores nothing. -/
def AnswersRun (s : MemoryStore) (ref : String) (id : UUID) : Prop :=
  ∀ env request, runRequestKey request = some ref →
    ∃ run, run.id = id ∧ createPipelineRun env s request = (run, s)

theorem createExecution_existing {env : Env} {request : CreateExecution} {item : Execution}
    (hname : request.taskName ≠ "") (hfound : existing s request = some id)
    (hl : s.executions.lookup id = some item) :
    createExecution env s request = (.ok item, s) := by
  simp [createExecution, hname, hfound, hl]

theorem createExecution_new {env : Env} {request : CreateExecution}
    (hname : request.taskName ≠ "") (hnew : existing s request = none) :
    (createExecution env s request).1 = .ok (created env request) ∧
      (createExecution env s request).2.executions.lookup (env.newUUID 0) =
        some (created env request) := by
  constructor
  · simp [createExecution, hname, hnew]
  · simp only [createExecution, hname, if_false, hnew]
    rw [appendEvent_executions, register_executions, put_lookup]
    exact if_pos rfl

theorem Referenced.answersKey (hs : Referenced s) {ref : String} {item : Execution}
    (hl : s.executions.lookup id = some item) (hkey : keyOf item = some ref) :
    AnswersKey s ref id := by
  intro env request hname hrequest
  have hlead : s.idempotent.lookup ref = some id := (hs.idempotent ref id).mpr ⟨item, hl, hkey⟩
  refine ⟨item, s.executions_keyed id item hl, createExecution_existing hname ?_ hl⟩
  rw [existing_eq, hrequest, Option.bind_some, hlead, Option.some_or]

theorem Referenced.answersNode (hs : Referenced s) {ref : UUID × String} {item : Execution}
    (hl : s.executions.lookup id = some item) (hnode : nodeOf item = some ref) :
    AnswersNode s ref id := by
  intro env request hname hnokey hrequest
  have hlead : s.nodes.lookup ref = some id := (hs.nodes ref id).mpr ⟨item, hl, hnode⟩
  refine ⟨item, s.executions_keyed id item hl, createExecution_existing hname ?_ hl⟩
  rw [existing_eq, hnokey, Option.bind_none, Option.none_or, hrequest, Option.bind_some, hlead]

theorem Referenced.answersRun (hs : Referenced s) {ref : String} {run : PipelineRun}
    (hl : s.runs.lookup id = some run) (hkey : runKeyOf run = some ref) :
    AnswersRun s ref id := by
  intro env request hrequest
  have hlead : s.runIdempotent.lookup ref = some id :=
    (hs.runIdempotent ref id).mpr ⟨run, hl, hkey⟩
  refine ⟨run, s.runs_keyed id run hl, ?_⟩
  have hfound : existingRun s request = some id := by
    rw [existingRun_eq, hrequest, Option.bind_some, hlead]
  simp [createPipelineRun, hfound, hl]

/-- What `CreateExecution` finds is stored. -/
theorem Referenced.existing_stored (hs : Referenced s) {request : CreateExecution}
    (hfound : existing s request = some id) : ∃ item, s.executions.lookup id = some item := by
  rw [existing_eq, Option.or_eq_some_iff] at hfound
  rcases hfound with hkey | ⟨-, hnode⟩
  · obtain ⟨ref, -, hlead⟩ := Option.bind_eq_some_iff.mp hkey
    obtain ⟨item, hl, -⟩ := (hs.idempotent ref id).mp hlead
    exact ⟨item, hl⟩
  · obtain ⟨ref, -, hlead⟩ := Option.bind_eq_some_iff.mp hnode
    obtain ⟨item, hl, -⟩ := (hs.nodes ref id).mp hlead
    exact ⟨item, hl⟩

/-- A keyless request for a node returns an execution of that node. -/
theorem Referenced.existing_node (hs : Referenced s) {request : CreateExecution}
    {ref : UUID × String} (hfound : existing s request = some id)
    (hnokey : requestKey request = none) (hnode : requestNode request = some ref)
    {item : Execution} (hl : s.executions.lookup id = some item) : nodeOf item = some ref := by
  rw [existing_eq, hnokey, Option.bind_none, Option.none_or, hnode, Option.bind_some] at hfound
  obtain ⟨stored, hstored, hcarried⟩ := (hs.nodes ref id).mp hfound
  cases hstored.symm.trans hl
  exact hcarried

/-- `CreateExecution` returns a stored execution; it is the one of the node if that was asked for. -/
theorem Referenced.created_stored (hs : Referenced s) {env : Env} {request : CreateExecution}
    {item : Execution} (h : (createExecution env s request).1 = .ok item) :
    (createExecution env s request).2.executions.lookup item.id = some item ∧
      ∀ ref, requestKey request = none → requestNode request = some ref →
        nodeOf item = some ref := by
  by_cases hname : request.taskName = ""
  · simp [createExecution, hname] at h
  · cases hfound : existing s request with
    | some id =>
        obtain ⟨stored, hl⟩ := hs.existing_stored hfound
        rw [createExecution_existing hname hfound hl] at h ⊢
        cases h
        refine ⟨?_, fun ref hnokey hnode => hs.existing_node hfound hnokey hnode hl⟩
        rw [s.executions_keyed id _ hl]
        exact hl
    | none =>
        obtain ⟨hresult, hstored⟩ := createExecution_new hname hfound
        cases hresult.symm.trans h
        exact ⟨hstored, fun ref _ hnode => hnode⟩

theorem createPipelineRun_new (env : Env) {request : CreatePipelineRun}
    (hnew : existingRun s request = none) :
    (createPipelineRun env s request).1 = createdRun env request ∧
      (createPipelineRun env s request).2.runs.lookup (env.newUUID 0) =
        some (createdRun env request) := by
  have hruns : (createPipelineRun env s request).2.runs =
      s.runs.insert (env.newUUID 0) (createdRun env request) := by
    simp only [createPipelineRun, hnew]
    split <;> rfl
  refine ⟨by simp only [createPipelineRun, hnew], ?_⟩
  rw [hruns]
  exact AList.lookup_insert _

/-- `CreatePipelineRun` returns a run with the key of the request and leaves it stored. The run is
new, or the request has a key. -/
theorem createdRun_key (hkeys : Leads runKeyOf s.runs s.runIdempotent) (env : Env)
    (request : CreatePipelineRun) :
    let run := (createPipelineRun env s request).1
    (createPipelineRun env s request).2.runs.lookup run.id = some run ∧
      runKeyOf run = runRequestKey request ∧
      (run = createdRun env request ∨
        runRequestKey request ≠ none ∧ s.runs.lookup run.id = some run) := by
  intro run
  cases hfound : existingRun s request with
  | some id =>
      have hlead := hfound
      rw [existingRun_eq, Option.bind_eq_some_iff] at hlead
      obtain ⟨ref, hkey, hlead⟩ := hlead
      obtain ⟨stored, hl, hcarried⟩ := (hkeys ref id).mp hlead
      have hresult : createPipelineRun env s request = (stored, s) := by
        simp [createPipelineRun, hfound, hl]
      obtain rfl : run = stored := congrArg Prod.fst hresult
      rw [hresult, s.runs_keyed id _ hl, hkey]
      exact ⟨hl, hcarried, Or.inr ⟨Option.some_ne_none ref, hl⟩⟩
  | none =>
      obtain ⟨hrun, hstored⟩ := createPipelineRun_new env hfound
      rw [show run = createdRun env request from hrun]
      exact ⟨hstored, rfl, Or.inl rfl⟩

end Requests

/-! ### Records keep their references until they are purged -/

/-- A stored execution with an identifier of the past was stored with the same references. -/
theorem execution_origin {w : World} {env : Env} (hfresh : env.Fresh w) {c : Call} {id : UUID}
    (hid : id ∈ w.issued) {item : Execution}
    (hl : (w.after env c).store.executions.lookup id = some item) :
    ∃ old, w.store.executions.lookup id = some old ∧ keyOf item = keyOf old ∧
      nodeOf item = nodeOf old := by
  have hlookup : (exec env w.store c).2.executions.lookup id = some item := hl
  cases exec_effect env w.store c id with
  | same hsame _ => exact ⟨item, hsame ▸ hlookup, rfl, rfl⟩
  | inserted _ _ _ _ => exact absurd hid (hfresh 0)
  | moved hold hnew _ t =>
      cases hnew.symm.trans hlookup
      exact ⟨_, hold, t.references_eq⟩
  | deleted hgone _ => exact absurd (hgone.symm.trans hlookup) (by simp)

theorem run_origin {w : World} {env : Env} (hfresh : env.Fresh w) {c : Call} {id : UUID}
    (hid : id ∈ w.issued) {run : PipelineRun}
    (hl : (w.after env c).store.runs.lookup id = some run) :
    ∃ old, w.store.runs.lookup id = some old ∧ runKeyOf run = runKeyOf old := by
  have hlookup : (exec env w.store c).2.runs.lookup id = some run := hl
  cases exec_runEffect env w.store c id with
  | same hsame => exact ⟨run, hsame ▸ hlookup, rfl⟩
  | inserted _ _ => exact absurd hid (hfresh 0)
  | status hold hnew =>
      cases hnew.symm.trans hlookup
      exact ⟨_, hold, rfl⟩
  | reopened hold hnew =>
      cases hnew.symm.trans hlookup
      exact ⟨_, hold, rfl⟩
  | deleted hgone => exact absurd (hgone.symm.trans hlookup) (by simp)

theorem replay_execution_origin (trace : Trace) {w : World} (hfresh : FreshTrace trace w)
    {id : UUID} (hid : id ∈ w.issued) {item : Execution}
    (hl : (replay trace w.store).executions.lookup id = some item) :
    ∃ old, w.store.executions.lookup id = some old ∧ keyOf item = keyOf old ∧
      nodeOf item = nodeOf old := by
  induction trace generalizing w with
  | nil => exact ⟨item, hl, rfl, rfl⟩
  | cons step rest ih =>
      obtain ⟨mid, hmid, hkey, hnode⟩ := ih hfresh.2 (w.issued_subset _ _ hid) hl
      obtain ⟨old, hold, hkey', hnode'⟩ := execution_origin hfresh.1 hid hmid
      exact ⟨old, hold, hkey.trans hkey', hnode.trans hnode'⟩

theorem replay_run_origin (trace : Trace) {w : World} (hfresh : FreshTrace trace w)
    {id : UUID} (hid : id ∈ w.issued) {run : PipelineRun}
    (hl : (replay trace w.store).runs.lookup id = some run) :
    ∃ old, w.store.runs.lookup id = some old ∧ runKeyOf run = runKeyOf old := by
  induction trace generalizing w with
  | nil => exact ⟨run, hl, rfl⟩
  | cons step rest ih =>
      obtain ⟨mid, hmid, hkey⟩ := ih hfresh.2 (w.issued_subset _ _ hid) hl
      obtain ⟨old, hold, hkey'⟩ := run_origin hfresh.1 hid hmid
      exact ⟨old, hold, hkey.trans hkey'⟩

/-- What a request returned answers every later request of the same kind while it is stored. -/
structure Repeats (w : World) : Prop where
  key : ∀ env request item ref, env.Fresh w → (createExecution env w.store request).1 = .ok item →
    requestKey request = some ref → keyOf item = some ref →
    ∀ rest, FreshTrace rest (w.after env (.createExecution request)) →
      item.id ∈ (replay rest (createExecution env w.store request).2).executions →
      AnswersKey (replay rest (createExecution env w.store request).2) ref item.id
  node : ∀ env request item ref, env.Fresh w → (createExecution env w.store request).1 = .ok item →
    requestKey request = none → requestNode request = some ref →
    ∀ rest, FreshTrace rest (w.after env (.createExecution request)) →
      item.id ∈ (replay rest (createExecution env w.store request).2).executions →
      AnswersNode (replay rest (createExecution env w.store request).2) ref item.id
  run : ∀ env request ref, env.Fresh w → runRequestKey request = some ref →
    ∀ rest, FreshTrace rest (w.after env (.createPipelineRun request)) →
      (createPipelineRun env w.store request).1.id ∈
        (replay rest (createPipelineRun env w.store request).2).runs →
      AnswersRun (replay rest (createPipelineRun env w.store request).2) ref
        (createPipelineRun env w.store request).1.id

/-- The reference maps along a run. -/
structure World.Referenced (w : World) : Prop where
  known : w.Known
  store : Memory.Referenced w.store

theorem World.Referenced.after {w : World} (h : w.Referenced) {env : Env} (hfresh : env.Fresh w)
    (c : Call) : (w.after env c).Referenced :=
  ⟨h.known.after env c, exec_referenced h.known hfresh c h.store⟩

theorem World.Referenced.replay {w : World} (h : w.Referenced) {trace : Trace}
    (hfresh : FreshTrace trace w) : (w.replay trace).Referenced := by
  induction trace generalizing w with
  | nil => exact h
  | cons step rest ih => exact ih (h.after hfresh.1 step.1) hfresh.2

theorem World.Referenced.replay_store {w : World} (h : w.Referenced) {trace : Trace}
    (hfresh : FreshTrace trace w) : Memory.Referenced (Memory.replay trace w.store) := by
  rw [← World.replay_store]
  exact (h.replay hfresh).store

/-- An execution that is still stored answers for the references it was stored with. -/
theorem World.Referenced.later {w : World} (h : w.Referenced) {rest : Trace}
    (hfresh : FreshTrace rest w) {item : Execution}
    (hitem : w.store.executions.lookup item.id = some item)
    (hkept : item.id ∈ (Memory.replay rest w.store).executions) :
    (∀ ref, keyOf item = some ref → AnswersKey (Memory.replay rest w.store) ref item.id) ∧
      ∀ ref, nodeOf item = some ref → AnswersNode (Memory.replay rest w.store) ref item.id := by
  have hs := h.replay_store hfresh
  obtain ⟨later, hl⟩ := Option.isSome_iff_exists.mp (AList.lookup_isSome.mpr hkept)
  obtain ⟨old, hold, hkey, hnode⟩ :=
    replay_execution_origin rest hfresh (h.known.executions _ _ hitem) hl
  cases hold.symm.trans hitem
  constructor
  · intro ref href
    exact hs.answersKey hl (hkey.trans href)
  · intro ref href
    exact hs.answersNode hl (hnode.trans href)

theorem World.Referenced.repeats {w : World} (h : w.Referenced) : Repeats w where
  key := by
    intro env request item ref hfresh hok _ hkey rest hrest hkept
    obtain ⟨hstored, -⟩ := h.store.created_stored hok
    exact ((h.after hfresh (.createExecution request)).later hrest hstored hkept).1 ref hkey
  node := by
    intro env request item ref hfresh hok hnokey hnode rest hrest hkept
    obtain ⟨hstored, hcarried⟩ := h.store.created_stored hok
    exact ((h.after hfresh (.createExecution request)).later hrest hstored hkept).2 ref
      (hcarried ref hnokey hnode)
  run := by
    intro env request ref hfresh hkey rest hrest hkept
    have hafter := h.after hfresh (.createPipelineRun request)
    obtain ⟨hstored, hcarried, -⟩ := createdRun_key h.store.runIdempotent env request
    have hs := hafter.replay_store hrest
    obtain ⟨later, hl⟩ := Option.isSome_iff_exists.mp (AList.lookup_isSome.mpr hkept)
    obtain ⟨old, hold, hsame⟩ :=
      replay_run_origin rest hrest (hafter.known.runs _ _ hstored) hl
    cases hold.symm.trans hstored
    exact hs.answersRun hl (hsame.trans (hcarried.trans hkey))

/-! ### Keys of purged records -/

/-- What a purge removes leaves its references free for a new record. -/
structure Reuses (s : MemoryStore) : Prop where
  key : ∀ env before limit id item ref, s.executions.lookup id = some item →
    id ∉ (purge env s before limit).2.executions → keyOf item = some ref →
    ∀ env' request, request.taskName ≠ "" → requestKey request = some ref →
      (∀ node ∈ requestNode request, (purge env s before limit).2.nodes.lookup node = none) →
      (createExecution env' (purge env s before limit).2 request).1 = .ok (created env' request)
  node : ∀ env before limit id item ref, s.executions.lookup id = some item →
    id ∉ (purge env s before limit).2.executions → nodeOf item = some ref →
    ∀ env' request, request.taskName ≠ "" → requestNode request = some ref →
      (∀ key ∈ requestKey request, (purge env s before limit).2.idempotent.lookup key = none) →
      (createExecution env' (purge env s before limit).2 request).1 = .ok (created env' request)
  run : ∀ env before limit id run ref, s.runs.lookup id = some run →
    id ∉ (purge env s before limit).2.runs → runKeyOf run = some ref →
    ∀ env' request, runRequestKey request = some ref →
      (createPipelineRun env' (purge env s before limit).2 request).1 = createdRun env' request

theorem purge_lookup {env : Env} {s : MemoryStore} {before : Time} {limit : Int} {id : UUID}
    {item : Execution} (hl : (purge env s before limit).2.executions.lookup id = some item) :
    s.executions.lookup id = some item :=
  (purgeLoop_shrinks env s (purgeCandidates env s before limit) 1 ⟨0, 0⟩ id).lookup hl

theorem purge_run_lookup {env : Env} {s : MemoryStore} {before : Time} {limit : Int} {id : UUID}
    {run : PipelineRun} (hl : (purge env s before limit).2.runs.lookup id = some run) :
    s.runs.lookup id = some run := by
  rcases purge_run env s before limit id with hpurged | hkeeps
  · exact absurd (hpurged.1.symm.trans hl) (by simp)
  · exact hkeeps.run.symm.trans hl

theorem Referenced.reuses {s : MemoryStore} (hs : Referenced s) : Reuses s where
  key := by
    intro env before limit id item ref hl hgone hkey env' request hname hrequest hnode
    have hs' : Referenced (purge env s before limit).2 := Referenced.purgeLoop env _ 1 ⟨0, 0⟩ hs
    refine (createExecution_new hname (existing_eq_none.mpr ⟨?_, hnode⟩)).1
    intro ref' href'
    cases hrequest.symm.trans href'
    refine hs'.idempotent.free_iff.mpr fun k record hk hcarried => ?_
    obtain rfl := hs.idempotent.unique (purge_lookup hk) hl hcarried hkey
    exact hgone (AList.lookup_isSome.mp (by rw [hk]; rfl))
  node := by
    intro env before limit id item ref hl hgone hnode env' request hname hrequest hkey
    have hs' : Referenced (purge env s before limit).2 := Referenced.purgeLoop env _ 1 ⟨0, 0⟩ hs
    refine (createExecution_new hname (existing_eq_none.mpr ⟨hkey, ?_⟩)).1
    intro ref' href'
    cases hrequest.symm.trans href'
    refine hs'.nodes.free_iff.mpr fun k record hk hcarried => ?_
    obtain rfl := hs.nodes.unique (purge_lookup hk) hl hcarried hnode
    exact hgone (AList.lookup_isSome.mp (by rw [hk]; rfl))
  run := by
    intro env before limit id run ref hl hgone hkey env' request hrequest
    have hs' : Referenced (purge env s before limit).2 := Referenced.purgeLoop env _ 1 ⟨0, 0⟩ hs
    have hfree : (purge env s before limit).2.runIdempotent.lookup ref = none := by
      refine hs'.runIdempotent.free_iff.mpr fun k record hk hcarried => ?_
      obtain rfl := hs.runIdempotent.unique (purge_run_lookup hk) hl hcarried hkey
      exact hgone (AList.lookup_isSome.mp (by rw [hk]; rfl))
    have hnew : existingRun (purge env s before limit).2 request = none := by
      rw [existingRun_eq, hrequest, Option.bind_some, hfree]
    exact (createPipelineRun_new env' hnew).1

/-- After every sequence of calls the reference maps are those of the records and determine them,
a repeated request returns the record that carries its key, and a purge frees the keys it
removes. -/
theorem reference_integrity (trace : Trace) (clock : Time)
    (hfresh : FreshTrace trace (World.init clock)) :
    Referenced (replay trace newMemoryStore) ∧
      (∀ id id' item item', (replay trace newMemoryStore).executions.lookup id = some item →
        (replay trace newMemoryStore).executions.lookup id' = some item' →
        (item.taskName = item'.taskName ∧ item.idempotencyKey = item'.idempotencyKey ∧
            item.idempotencyKey ≠ "") ∨
          (∃ runID, item.pipelineRunID = some runID ∧ item'.pipelineRunID = some runID ∧
            item.nodeKey = item'.nodeKey ∧ item.nodeKey ≠ "") →
        id = id') ∧
      Repeats ((World.init clock).replay trace) ∧ Reuses (replay trace newMemoryStore) := by
  have hinit : (World.init clock).Referenced := ⟨World.init_known clock, Referenced.empty⟩
  have hs := hinit.replay_store hfresh
  refine ⟨hs, ?_, (hinit.replay hfresh).repeats, hs.reuses⟩
  rintro id id' item item' hl hl' (⟨hname, hkey, hne⟩ | ⟨runID, hrun, hrun', hnode, hne⟩)
  · have hcarried : keyOf item = some (idempotencyIndex item.taskName item.idempotencyKey) :=
      keyReference_eq_some.mpr ⟨hne, rfl⟩
    refine hs.idempotent.unique hl hl' hcarried ?_
    rw [hname, hkey] at hcarried ⊢
    rw [hkey] at hne
    exact keyReference_eq_some.mpr ⟨hne, rfl⟩
  · have hcarried : nodeOf item = some (runID, item.nodeKey) :=
      nodeReference_eq_some.mpr ⟨hrun, rfl, hne⟩
    refine hs.nodes.unique hl hl' hcarried ?_
    exact nodeReference_eq_some.mpr ⟨hrun', hnode.symm, hne⟩

/-- A request with an idempotency key. -/
def keyedRequest : CreateExecution := ⟨"email", 1, "1", 2, zeroTime, "invoice", none, ""⟩

/-- An execution with a key is created and cancelled. -/
def keyedTrace : Trace :=
  [(.createExecution keyedRequest, Env.at 5 0), (.cancelExecution 1 "stop", Env.at 6 1)]

/-- The record that `keyedTrace` leaves. -/
def keyedRecord : Execution := cancelled (Env.at 6 1) "stop" (created (Env.at 5 0) keyedRequest)

theorem reference_integrity_of_keyedTrace :
    Referenced (replay keyedTrace newMemoryStore) ∧
      AnswersKey (replay keyedTrace newMemoryStore) "email\x00invoice" 1 ∧
      (createExecution (Env.at 9 1)
        (purge (Env.at 8 1) (replay keyedTrace newMemoryStore) 7 0).2 keyedRequest).1 =
          .ok (created (Env.at 9 1) keyedRequest) := by
  have hfresh : FreshTrace keyedTrace (World.init 5) :=
    ⟨Env.at_fresh 5 (by decide), Env.at_fresh 6 (by decide), trivial⟩
  obtain ⟨hs, -, hrepeats, hreuses⟩ := reference_integrity keyedTrace 5 hfresh
  refine ⟨hs, ?_, ?_⟩
  · have hagain : (Env.at 7 1).Fresh ((World.init 5).replay keyedTrace) :=
      Env.at_fresh 7 (by decide)
    exact hrepeats.key (Env.at 7 1) keyedRequest keyedRecord "email\x00invoice" hagain (by decide)
      (by decide) (by decide) [] trivial (by decide)
  · exact hreuses.key (Env.at 8 1) 7 0 1 keyedRecord "email\x00invoice" (by decide) (by decide)
      (by decide) (Env.at 9 1) keyedRequest (by decide) (by decide) (by decide)

/-- A request for a node, without a key and with one. -/
def nodeRequest (key : String) : CreateExecution :=
  ⟨"email", 1, "1", 2, zeroTime, key, some 9, "load"⟩

/-- A node is created without a key, found by a request with a key, and then another request takes
the key. -/
def lateKeyTrace : Trace :=
  [(.createExecution (nodeRequest ""), Env.at 5 0),
   (.createExecution (nodeRequest "invoice"), Env.at 6 1),
   (.createExecution keyedRequest, Env.at 7 1)]

/-- The identifier of the execution that a request returns. -/
def returnedID (result : Except GoError Execution × MemoryStore) : Option UUID :=
  match result.1 with
  | .ok item => some item.id
  | .error _ => none

/-- The repeated request returns another execution, although the first one is still stored. -/
theorem late_key_found_first :
    FreshTrace lateKeyTrace (World.init 5) ∧
      returnedID (createExecution (Env.at 6 1) (replay (lateKeyTrace.take 1) newMemoryStore)
        (nodeRequest "invoice")) = some 1 ∧
      1 ∈ (replay lateKeyTrace newMemoryStore).executions ∧
      returnedID (createExecution (Env.at 8 2) (replay lateKeyTrace newMemoryStore)
        (nodeRequest "invoice")) = some 2 := by
  refine ⟨⟨Env.at_fresh 5 (by decide), Env.at_fresh 6 (by decide), Env.at_fresh 7 (by decide),
    trivial⟩, ?_, ?_, ?_⟩
  · decide
  · decide
  · decide

end Ody.Memory
