import Ody.Execution.RequestKeys
import Ody.Redis.KeyTexts
import Ody.Redis.Refinement

/-!
# Composite keys

The texts that both stores build from several parts determine the parts, as long
as no task name and no pipeline name contains the separator. Two requests with
different names or keys are then given different executions or pipeline runs by
either store, unless a request is answered by the execution of its pipeline node.
-/

namespace Ody.Redis

open Library.Tables Library.DerivedIndexes Library.Optimistic
open Memory (Env FoundByNode FreshTrace World keyOf requestKey runKeyOf runRequestKey)

/-! ## Requests to the Redis store -/

section Requests

variable {s : Server} {env : Env} {request : CreateExecution} {item : Execution}

/-- The idempotency references of a represented keyspace are those of its records. -/
theorem abstraction_leads {keys : Keyspace} (h : Represented keys) :
    Library.DerivedIndexes.Leads keyOf (abstraction keys h).executions
      (abstraction keys h).idempotent := by
  intro ref id
  rw [(abstracts_abstraction h).idempotent, h.executions.refs]
  have hcarried : ∀ record,
      RefKey.idempotency ref ∈ references record ↔ keyOf record = some ref := by
    intro record
    rw [mem_references_idempotency, keyOf, Memory.keyReference_eq_some, eq_comm (a := ref)]
  simp only [executionSchema, hcarried]
  rfl

/-- The run references of a represented keyspace are those of its runs. -/
theorem abstraction_leads_run {keys : Keyspace} (h : Represented keys) :
    Library.DerivedIndexes.Leads runKeyOf (abstraction keys h).runs
      (abstraction keys h).runIdempotent := by
  intro ref id
  rw [(abstracts_abstraction h).runIdempotent, h.runs.refs]
  have hcarried : ∀ run, ref ∈ runReferences run ↔ runKeyOf run = some ref := by
    intro run
    rw [runKeyOf, Memory.keyReference_eq_some, runReferences]
    by_cases hempty : run.idempotencyKey = ""
    · simp [hempty]
    · simp only [ne_eq, hempty, not_false_eq_true, if_true, List.mem_singleton, true_and]
      exact eq_comm
  simp only [runSchema, hcarried]
  rfl

/-- An operation that runs alone keeps records under written identifiers. -/
theorem Known.alone {α : Type} {s : Server} (h : Known s) (p : Op α) :
    Known (backend.alone p s).2 := by
  induction p generalizing s with
  | done a => exact h
  | call c next ih =>
      apply ih
      cases c with
      | watch w => exact h
      | commit w image commands =>
          rw [Backend.execCall]
          split
          · exact h.applyAll commands
          · exact h
      | other q =>
          cases q with
          | zRem key member => exact h.apply _
          | execPurge candidates => exact h.applyAll _
          | purge before limit order =>
              show Known (Server.exec _ (.purge before limit order)).2
              rw [Server.exec]
              split
              · exact h
              · exact h.applyAll _
          | _ => exact h

/-- What the in-memory store returns, the Redis store returns. -/
theorem created_key (h : Invariant s) (hnew : env.newUUID 0 ∉ s.used)
    (hok : (backend.alone (createExecution env request) s).1 = .ok item)
    (hnode : ¬ FoundByNode (abstraction s.keys h.represented) request) :
    keyOf item = requestKey request ∧
      (backend.alone (createExecution env request) s).2.keys.executions.records.lookup item.id =
        some item ∧
      (item.id = env.newUUID 0 ∨
        requestKey request ≠ none ∧ s.keys.executions.records.lookup item.id = some item) := by
  have hrefines := refines_createExecution h.represented (abstracts_abstraction h.represented) env
    (h.known.no_execution hnew) request
  have hmemory : (Memory.createExecution env (abstraction s.keys h.represented) request).1 =
      .ok item := by
    have hagree := hrefines.agree
    rw [hok] at hagree
    cases hresult : (Memory.createExecution env (abstraction s.keys h.represented) request).1 with
    | error err =>
        rw [hresult] at hagree
        exact hagree.elim
    | ok other =>
        rw [hresult] at hagree
        exact congrArg Except.ok hagree.symm
  obtain ⟨hkey, hstored, horigin⟩ :=
    Memory.created_key (abstraction_leads h.represented) hmemory hnode
  rw [hrefines.abstracts.executions] at hstored
  refine ⟨hkey, hstored, horigin.imp_left ?_⟩
  rintro rfl
  rfl

theorem createdRun_key {request : CreatePipelineRun} {run : PipelineRun} (h : Invariant s)
    (hnew : env.newUUID 0 ∉ s.used)
    (hok : (backend.alone (createPipelineRun env request) s).1 = .ok run) :
    runKeyOf run = runRequestKey request ∧
      (backend.alone (createPipelineRun env request) s).2.keys.runs.records.lookup run.id =
        some run ∧
      (run.id = env.newUUID 0 ∨
        runRequestKey request ≠ none ∧ s.keys.runs.records.lookup run.id = some run) := by
  have hrefines := refines_createPipelineRun h.represented (abstracts_abstraction h.represented) env
    (h.known.no_run hnew) request
  have hagree := hrefines.agree
  rw [hok] at hagree
  obtain rfl : run = (Memory.createPipelineRun env (abstraction s.keys h.represented) request).1 :=
    hagree
  obtain ⟨hstored, hkey, horigin⟩ :=
    Memory.createdRun_key (abstraction_leads_run h.represented) env request
  rw [hrefines.abstracts.runs] at hstored
  refine ⟨hkey, hstored, horigin.imp_left fun hcreated => ?_⟩
  rw [hcreated]
  rfl

end Requests

/-- Two requests to the servers of a run that are given one execution have one name and one key. -/
def ServersApart (names : Set String) : Prop :=
  ∀ s (h : Invariant s) env request item, env.newUUID 0 ∉ s.used → request.taskName ∈ names →
    (backend.alone (createExecution env request) s).1 = .ok item →
    ¬ FoundByNode (abstraction s.keys h.represented) request →
    ∀ s' (h' : Invariant s'), Later (backend.alone (createExecution env request) s).2 s' →
      ∀ env' request' item', env'.newUUID 0 ∉ s'.used → request'.taskName ∈ names →
        (backend.alone (createExecution env' request') s').1 = .ok item' →
        ¬ FoundByNode (abstraction s'.keys h'.represented) request' →
        item.id = item'.id →
        request.taskName = request'.taskName ∧ request.idempotencyKey = request'.idempotencyKey

theorem serversApart {names : Set String} (hnames : ∀ name ∈ names, '\x00' ∉ name.toList) :
    ServersApart names := by
  intro s h env request item hnew hname hok hnode s' h' hlater env' request' item' hnew' hname' hok'
    hnode' hid
  obtain ⟨hkey, hstored, -⟩ := created_key h hnew hok hnode
  obtain ⟨hkey', -, horigin⟩ := created_key h' hnew' hok' hnode'
  have hused := (h.known.alone (createExecution env request)).executions _ _ hstored
  rcases horigin with hfresh | ⟨hsome, hstored'⟩
  · rw [hid, hfresh] at hused
    exact absurd (hlater.used _ hused) hnew'
  · obtain ⟨ref, hrequest⟩ := Option.ne_none_iff_exists'.mp hsome
    rw [← hid] at hstored'
    have hsame := hlater.same _ _ _ hstored hstored'
    have hcarried : keyOf item' = keyOf item := by
      rw [keyOf, keyOf, hsame.taskName, hsame.idempotencyKey]
    apply Memory.keyReference_inj (hnames _ hname) (hnames _ hname') _ hrequest
    exact hkey.symm.trans (hcarried.symm.trans (hkey'.trans hrequest))

/-- Two requests to the servers of a run that are given one pipeline run have one name and one
key. -/
def ServersApartRuns (names : Set String) : Prop :=
  ∀ s, Invariant s → ∀ env request run, env.newUUID 0 ∉ s.used → request.pipelineName ∈ names →
    (backend.alone (createPipelineRun env request) s).1 = .ok run →
    ∀ s', Invariant s' → Later (backend.alone (createPipelineRun env request) s).2 s' →
      ∀ env' request' run', env'.newUUID 0 ∉ s'.used → request'.pipelineName ∈ names →
        (backend.alone (createPipelineRun env' request') s').1 = .ok run' →
        run.id = run'.id →
        request.pipelineName = request'.pipelineName ∧
          request.idempotencyKey = request'.idempotencyKey

theorem serversApartRuns {names : Set String} (hnames : ∀ name ∈ names, '\x00' ∉ name.toList) :
    ServersApartRuns names := by
  intro s h env request run hnew hname hok s' h' hlater env' request' run' hnew' hname' hok' hid
  obtain ⟨hkey, hstored, -⟩ := createdRun_key h hnew hok
  obtain ⟨hkey', -, horigin⟩ := createdRun_key h' hnew' hok'
  have hused := (h.known.alone (createPipelineRun env request)).runs _ _ hstored
  rcases horigin with hfresh | ⟨hsome, hstored'⟩
  · rw [hid, hfresh] at hused
    exact absurd (hlater.used _ hused) hnew'
  · obtain ⟨ref, hrequest⟩ := Option.ne_none_iff_exists'.mp hsome
    rw [← hid] at hstored'
    have hsame := hlater.runs.same _ _ _ hstored hstored'
    have hcarried : runKeyOf run' = runKeyOf run := by
      rw [runKeyOf, runKeyOf, hsame.pipelineName, hsame.idempotencyKey]
    apply Memory.keyReference_inj (hnames _ hname) (hnames _ hname') _ hrequest
    exact hkey.symm.trans (hcarried.symm.trans (hkey'.trans hrequest))

/-! ## Composite keys determine their parts -/

/-- Joined texts with names of the set determine their parts, and requests with these names are
given the executions and runs of their own keys. -/
structure Unambiguous (names : Set String) : Prop where
  idempotencyKey : ∀ base, ∀ name ∈ names, ∀ name' ∈ names, ∀ key key',
    Text.idempotencyKey base name key = Text.idempotencyKey base name' key' →
    name = name' ∧ key = key'
  pipelineIdempotencyKey : ∀ base, ∀ name ∈ names, ∀ name' ∈ names, ∀ key key',
    Text.pipelineIdempotencyKey base name key = Text.pipelineIdempotencyKey base name' key' →
    name = name' ∧ key = key'
  nodeKey : ∀ base runID runID' node node',
    Text.nodeKey base runID node = Text.nodeKey base runID' node' → runID = runID' ∧ node = node'
  family : ∀ base (k k' : Key), k.text base = k'.text base → k.family = k'.family
  count : ∀ name ∈ names, ∀ (status : Status) (n : Int64),
    parseCount (countField name status.text) (toString n.toInt) = .ok (name, status.text, n.toInt)
  runCount : ∀ name ∈ names, ∀ (status : RunStatus) (n : Int64),
    parseCount (countField name status.text) (toString n.toInt) = .ok (name, status.text, n.toInt)
  memory : ∀ name ∈ names, ∀ name' ∈ names, ∀ key key',
    idempotencyIndex name key = idempotencyIndex name' key' → name = name' ∧ key = key'
  memoryRequests : ∀ trace clock, FreshTrace trace (World.init clock) →
    Memory.Apart names ((World.init clock).replay trace)
  redisRequests : ServersApart names
  redisRunRequests : ServersApartRuns names

/-- Composite keys are unambiguous for names without the separator. -/
theorem composite_keys_unambiguous (names : Set String)
    (hnames : ∀ name ∈ names, '\x00' ∉ name.toList) : Unambiguous names where
  idempotencyKey := by
    intro base name hname name' hname' key key' h
    have hkeys : (Key.idempotency name key).text base = (Key.idempotency name' key').text base := h
    have hjoined := RefKey.idempotency.inj (StoreKey.reference.inj (text_eq_iff.mp hkeys))
    exact Memory.idempotencyIndex_inj (hnames name hname) (hnames name' hname') hjoined
  pipelineIdempotencyKey := by
    intro base name hname name' hname' key key' h
    have hkeys : (Key.pipelineIdempotency name key).text base =
        (Key.pipelineIdempotency name' key').text base := h
    have hjoined := StoreKey.runReference.inj (text_eq_iff.mp hkeys)
    exact Memory.idempotencyIndex_inj (hnames name hname) (hnames name' hname') hjoined
  nodeKey := by
    intro base runID runID' node node' h
    have hkeys : (Key.node runID node).text base = (Key.node runID' node').text base := h
    exact RefKey.node.inj (StoreKey.reference.inj (text_eq_iff.mp hkeys))
  family := fun base k k' h => (family_eq h).1
  count := fun name hname status n => parseCount_countField (hnames name hname) status.text n
  runCount := fun name hname status n => parseCount_countField (hnames name hname) status.text n
  memory := fun name hname name' hname' key key' =>
    Memory.idempotencyIndex_inj (hnames name hname) (hnames name' hname')
  memoryRequests := by
    intro trace clock hfresh
    have hinit : (World.init clock).Referenced :=
      ⟨Memory.World.init_known clock, Memory.Referenced.empty⟩
    exact (hinit.replay hfresh).apart hnames
  redisRequests := serversApart hnames
  redisRunRequests := serversApartRuns hnames

theorem composite_keys_unambiguous_of_email :
    parseCount (countField "email" "retry") "12" = .ok ("email", "retry", 12) ∧
      Unambiguous {"email", "invoice"} := by
  refine ⟨by decide, composite_keys_unambiguous _ ?_⟩
  rintro name (rfl | rfl) <;> decide

/-- A standalone request with a key. -/
def joinedRequest (name key : String) : CreateExecution :=
  ⟨name, 1, "1", 2, zeroTime, key, none, ""⟩

/-- What the in-memory store returns to two requests in a row. -/
def returnedIDs (first second : CreateExecution) : Option UUID × Option UUID :=
  let created := Memory.createExecution (Env.at 5 0) Memory.newMemoryStore first
  (Memory.returnedID created,
    Memory.returnedID (Memory.createExecution (Env.at 6 1) created.2 second))

/-- A name with the separator takes over the key of another name, a count field is read with another
name, and a request for a node is given the node's execution although that one has no key. -/
theorem composite_keys_collide :
    Text.idempotencyKey "ody:" "a\x00b" "c" = Text.idempotencyKey "ody:" "a" "b\x00c" ∧
      Text.pipelineIdempotencyKey "ody:" "a\x00b" "c" =
        Text.pipelineIdempotencyKey "ody:" "a" "b\x00c" ∧
      parseCount (countField "a\x00b" "pending") "1" = .ok ("a", "b\x00pending", 1) ∧
      idempotencyIndex "a\x00b" "c" = idempotencyIndex "a" "b\x00c" ∧
      returnedIDs (joinedRequest "a\x00b" "c") (joinedRequest "a" "b\x00c") = (some 1, some 1) ∧
      returnedIDs (Memory.nodeRequest "") (Memory.nodeRequest "invoice") = (some 1, some 1) := by
  have hjoined : "a\x00b" ++ "\x00" ++ "c" = "a" ++ "\x00" ++ "b\x00c" := by decide
  refine ⟨?_, ?_, by decide, hjoined, by decide, by decide⟩
  · rw [Text.idempotencyKey, Text.idempotencyKey, hjoined]
  · rw [Text.pipelineIdempotencyKey, Text.pipelineIdempotencyKey, hjoined]

end Ody.Redis
