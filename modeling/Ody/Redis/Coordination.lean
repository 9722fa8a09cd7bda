import Ody.Library.Layers
import Ody.Pipeline.RunExecutions
import Ody.Redis.Lifecycle

/-!
# One pipeline run in the Redis store

What the engine relies on when it coordinates a run over the Redis store, where a
call is a sequence of commands. As long as the revision of the run stays, so do the
run and its succeeded executions: every block that resets one of them also writes
the run with a new revision, and every block that removes one also removes the run.
The facts are those of the in-memory store; here they are checked for each block that
a client commits.
-/

namespace Ody.Redis

open Library.Tables Library.DerivedIndexes Library.Interleaving Library.Optimistic
open Memory (Env)
open Pipeline (Registry SameRun)

section Run

variable (registry : Registry) (runID : UUID)

/-- The item is a stored execution of the run. -/
def Node (s : Server) (item : Execution) : Prop :=
  s.keys.executions.records.lookup item.id = some item ∧ item.pipelineRunID = some runID

/-- Every node of the run's definition has a succeeded execution. -/
def NodesComplete (s : Server) (run : PipelineRun) : Prop :=
  ∃ definition, registry.find run = some definition ∧ ∀ node ∈ definition.nodes,
    ∃ item, Node runID s item ∧ item.nodeKey = node.key ∧ item.status = .succeeded

/-- The executions of the run belong to nodes of its definition, and a succeeded run is complete. -/
structure RunSound (s : Server) : Prop where
  named : ∀ item, Node runID s item → item.nodeKey ≠ ""
  issued : ∀ item, Node runID s item → runID ∈ s.used
  declared : ∀ item run definition, Node runID s item →
    s.keys.runs.records.lookup runID = some run → registry.find run = some definition →
    item.nodeKey ∈ definition.keys
  complete : ∀ run, s.keys.runs.records.lookup runID = some run → run.status = .succeeded →
    NodesComplete registry runID s run

/-- A request creates an execution of the run only for a node of its definition. -/
def Permitted (s : Server) (request : CreateExecution) : Prop :=
  request.pipelineRunID = some runID → request.nodeKey ≠ "" ∧ runID ∈ s.used ∧
    ∀ run definition, s.keys.runs.records.lookup runID = some run →
      registry.find run = some definition → request.nodeKey ∈ definition.keys

/-- The run is marked succeeded only when it is complete. -/
def Earned (s : Server) (run : PipelineRun) (status : RunStatus) : Prop :=
  s.keys.runs.records.lookup runID = some run → run.id = runID → status = .succeeded →
    NodesComplete registry runID s run

/-- What no client undoes: as long as the revision stays, so do the run and its succeeded
executions. -/
structure RunRely (s s' : Server) : Prop where
  later : Later s s'
  gone : runID ∈ s.used → s.keys.runs.records.lookup runID = none →
    s'.keys.runs.records.lookup runID = none
  run : ∀ run run', s.keys.runs.records.lookup runID = some run →
    s'.keys.runs.records.lookup runID = some run' → SameRun run run' ∧ run.revision ≤ run'.revision ∧
      (run'.revision = run.revision → run' = run ∧ ∀ item, Node runID s item →
        item.status = .succeeded → Node runID s' item)

variable {registry runID}

theorem RunRely.refl (s : Server) : RunRely runID s s where
  later := Later.refl s
  gone := fun _ h => h
  run := by
    intro run run' h h'
    cases h.symm.trans h'
    exact ⟨SameRun.refl run, le_rfl, fun _ => ⟨rfl, fun _ hnode _ => hnode⟩⟩

theorem RunRely.trans {a b c : Server} (ha : Known a) (hab : RunRely runID a b)
    (hbc : RunRely runID b c) : RunRely runID a c where
  later := hab.later.trans ha hbc.later
  gone := fun hissued h => hbc.gone (hab.later.used _ hissued) (hab.gone hissued h)
  run := by
    intro run run'' h h''
    cases h' : b.keys.runs.records.lookup runID with
    | none =>
        have hgone := hbc.gone (hab.later.used _ (ha.runs _ _ h)) h'
        cases hgone.symm.trans h''
    | some run' =>
        obtain ⟨hfirst, hle, hsame⟩ := hab.run run run' h h'
        obtain ⟨hsecond, hle', hsame'⟩ := hbc.run run' run'' h' h''
        refine ⟨hfirst.trans hsecond, hle.trans hle', ?_⟩
        intro heq
        obtain ⟨rfl, hkept⟩ := hsame (by omega)
        obtain ⟨rfl, hkept'⟩ := hsame' heq
        exact ⟨rfl, fun item hnode hs => hkept' item (hkept item hnode hs) hs⟩

/-! ## What a step does to the run -/

variable (runID) in
/-- What a step does to the record of the run. -/
inductive RunMove (Sets : PipelineRun → RunStatus → Prop) (s s' : Server) : Prop
  | same (h : s'.keys.runs.records.lookup runID = s.keys.runs.records.lookup runID)
  | created {env : Env} {request : CreatePipelineRun} (hnew : runID ∉ s.used)
      (h : s'.keys.runs.records.lookup runID = some (newRun env request))
  | status {env : Env} {run : PipelineRun} {status : RunStatus} {errorText : String}
      (hsets : Sets run status) (hl : s.keys.runs.records.lookup runID = some run)
      (hid : run.id = runID)
      (h : s'.keys.runs.records.lookup runID = some (runWithStatus env status errorText run))
  | reopened {env : Env} {run : PipelineRun} (hl : s.keys.runs.records.lookup runID = some run)
      (h : s'.keys.runs.records.lookup runID = some (reopenedRun env run))
  | removed (h : s'.keys.runs.records.lookup runID = none)

variable (runID) in
/-- What a step does to the run and its executions. -/
structure RunStep (Creates : CreateExecution → Prop) (Sets : PipelineRun → RunStatus → Prop)
    (s s' : Server) : Prop where
  run : RunMove runID Sets s s'
  origin : ∀ item', Node runID s' item' →
    (∃ item, Node runID s item ∧ item.nodeKey = item'.nodeKey) ∨
      ∃ request, Creates request ∧ request.pipelineRunID = some runID ∧
        request.nodeKey = item'.nodeKey
  kept : (∀ item, Node runID s item → item.status = .succeeded → Node runID s' item) ∨
    (∃ env run, s.keys.runs.records.lookup runID = some run ∧
      s'.keys.runs.records.lookup runID = some (reopenedRun env run)) ∨
    s'.keys.runs.records.lookup runID = none

section Steps

variable {Creates : CreateExecution → Prop} {Sets : PipelineRun → RunStatus → Prop} {s s' : Server}

theorem NodesComplete.kept {run run' : PipelineRun} (h : NodesComplete registry runID s run)
    (hfind : registry.find run' = registry.find run)
    (hkept : ∀ item, Node runID s item → item.status = .succeeded → Node runID s' item) :
    NodesComplete registry runID s' run' := by
  obtain ⟨definition, hfound, hnodes⟩ := h
  refine ⟨definition, hfind.trans hfound, ?_⟩
  intro node hnode
  obtain ⟨item, hitem, hkey, hs⟩ := hnodes node hnode
  exact ⟨item, hkept item hitem hs, hkey, hs⟩

/-- A stored run is the one before the step in a later version, or it is new. -/
theorem RunMove.before {run' : PipelineRun} (h : RunMove runID Sets s s')
    (h' : s'.keys.runs.records.lookup runID = some run') :
    (∃ run, s.keys.runs.records.lookup runID = some run ∧ SameRun run run' ∧
      run.revision ≤ run'.revision ∧ (run'.revision = run.revision → run' = run)) ∨
      runID ∉ s.used := by
  cases h with
  | same hsame =>
      exact Or.inl ⟨run', hsame ▸ h', SameRun.refl run', le_rfl, fun _ => rfl⟩
  | created hnew _ => exact Or.inr hnew
  | status _ hl _ hstatus =>
      cases hstatus.symm.trans h'
      refine Or.inl ⟨_, hl, ⟨rfl, rfl, rfl⟩, Nat.le_succ _, fun heq => ?_⟩
      exact absurd heq (Nat.succ_ne_self _)
  | reopened hl hreopened =>
      cases hreopened.symm.trans h'
      refine Or.inl ⟨_, hl, ⟨rfl, rfl, rfl⟩, Nat.le_succ _, fun heq => ?_⟩
      exact absurd heq (Nat.succ_ne_self _)
  | removed hnone => cases hnone.symm.trans h'

theorem RunStep.rely (h : RunStep runID Creates Sets s s') (hknown : Known s) (hlater : Later s s') :
    RunRely runID s s' where
  later := hlater
  gone := by
    intro hissued hnone
    cases h.run with
    | same hsame => exact hsame.trans hnone
    | created hnew _ => exact absurd hissued hnew
    | status _ hl _ _ => cases hnone.symm.trans hl
    | reopened hl _ => cases hnone.symm.trans hl
    | removed hremoved => exact hremoved
  run := by
    intro run run' hl hl'
    rcases h.run.before hl' with ⟨old, hold, hsame, hle, hrevision⟩ | hnew
    · cases hl.symm.trans hold
      refine ⟨hsame, hle, fun heq => ⟨hrevision heq, ?_⟩⟩
      rcases h.kept with hkept | ⟨env, run, hrun, hreopened⟩ | hremoved
      · exact hkept
      · cases hl.symm.trans hrun
        cases hreopened.symm.trans hl'
        exact absurd heq (Nat.succ_ne_self _)
      · cases hremoved.symm.trans hl'
    · exact absurd (hknown.runs _ _ hl) hnew

/-- A step keeps the invariant if it creates permitted executions only and marks only a complete run
as succeeded. -/
theorem RunStep.sound (h : RunStep runID Creates Sets s s') (hsound : RunSound registry runID s)
    (hlater : Later s s') (hcreates : ∀ request, Creates request → Permitted registry runID s request)
    (hsets : ∀ run status, Sets run status → Earned registry runID s run status) :
    RunSound registry runID s' := by
  have hissued : ∀ item', Node runID s' item' → runID ∈ s.used := by
    intro item' hnode
    rcases h.origin item' hnode with ⟨item, hitem, -⟩ | ⟨request, hrequest, hrun, -⟩
    · exact hsound.issued item hitem
    · exact (hcreates request hrequest hrun).2.1
  constructor
  · intro item' hnode
    rcases h.origin item' hnode with ⟨item, hitem, hkey⟩ | ⟨request, hrequest, hrun, hkey⟩
    · exact hkey ▸ hsound.named item hitem
    · exact hkey ▸ (hcreates request hrequest hrun).1
  · exact fun item' hnode => hlater.used _ (hissued item' hnode)
  · intro item' run' definition hnode hl' hfound
    rcases h.run.before hl' with ⟨run, hl, hsame, -⟩ | hnew
    · rw [hsame.find registry] at hfound
      rcases h.origin item' hnode with ⟨item, hitem, hkey⟩ | ⟨request, hrequest, hrun, hkey⟩
      · exact hkey ▸ hsound.declared item run definition hitem hl hfound
      · exact hkey ▸ (hcreates request hrequest hrun).2.2 run definition hl hfound
    · exact absurd (hissued item' hnode) hnew
  · intro run' hl' hs
    -- a step that resets executions leaves the run in status running
    have hkept : ∀ item, Node runID s item → item.status = .succeeded → Node runID s' item := by
      rcases h.kept with hkept | ⟨env, run, -, hreopened⟩ | hremoved
      · exact hkept
      · cases hreopened.symm.trans hl'
        cases hs
      · cases hremoved.symm.trans hl'
    cases h.run with
    | same hsame => exact (hsound.complete run' (hsame ▸ hl') hs).kept rfl hkept
    | created _ hnew =>
        cases hnew.symm.trans hl'
        cases hs
    | status hset hl hid hstatus =>
        cases hstatus.symm.trans hl'
        exact (hsets _ _ hset hl hid hs).kept rfl hkept
    | reopened _ hreopened =>
        cases hreopened.symm.trans hl'
        cases hs
    | removed hremoved => cases hremoved.symm.trans hl'

/-! ## Blocks -/

/-- A step that leaves all records alone. -/
theorem RunStep.of_same (hrecords : s'.keys.executions.records = s.keys.executions.records)
    (hrun : RunMove runID Sets s s') : RunStep runID Creates Sets s s' where
  run := hrun
  origin := fun item' hnode => Or.inl ⟨item', ⟨hrecords ▸ hnode.1, hnode.2⟩, rfl⟩
  kept := Or.inl fun _ hnode _ => ⟨hrecords ▸ hnode.1, hnode.2⟩

theorem runMove_of_runs (h : s'.keys.runs = s.keys.runs) : RunMove runID Sets s s' :=
  RunMove.same (by rw [h])

/-- The execution of a request. -/
theorem runStep_create {env : Env} {request : CreateExecution} (hcreates : Creates request)
    (hI : Invariant s) (hnew : env.newUUID 0 ∉ s.used) :
    RunStep runID Creates Sets s (s.applyAll (createCommands env (newExecution env request))) := by
  have hexecutions : (s.applyAll (createCommands env (newExecution env request))).keys.executions =
      afterCreate s.keys.executions env (newExecution env request) := by
    rw [keys_applyAll]
    exact executions_applyAll s.keys _
  have hlookup : ∀ id, (s.applyAll (createCommands env (newExecution env request))).keys.executions.records.lookup
      id = if id = env.newUUID 0 then some (newExecution env request)
        else s.keys.executions.records.lookup id := by
    intro id
    rw [hexecutions, afterCreate_records, lookup_insert_ite]
    rfl
  constructor
  · apply runMove_of_runs
    rw [keys_applyAll, runs_applyAll, createCommands_onRuns, List.foldl_nil]
  · rintro item' ⟨hl, hrun⟩
    rw [hlookup] at hl
    split at hl
    · cases hl
      exact Or.inr ⟨request, hcreates, hrun, rfl⟩
    · exact Or.inl ⟨item', ⟨hl, hrun⟩, rfl⟩
  · refine Or.inl fun item hnode _ => ⟨?_, hnode.2⟩
    rw [hlookup, if_neg]
    · exact hnode.1
    · intro hid
      exact hnew (hid ▸ hI.known.executions _ _ hnode.1)

/-- A block that moves one record. -/
theorem runStep_move {item item' : Execution} {entry : Option Event} {commands : List Command}
    (hl : s.keys.executions.records.lookup item.id = some item)
    (hopen : item.status.isTerminal = true → item.pipelineRunID = none)
    (hsame : SameIdentity item item')
    (hwrites : Writes s.keys (s.applyAll commands).keys item' entry) :
    RunStep runID Creates Sets s (s.applyAll commands) := by
  have hlookup : ∀ id, (s.applyAll commands).keys.executions.records.lookup id =
      if id = item.id then some item' else s.keys.executions.records.lookup id := by
    intro id
    rw [hwrites.records, lookup_insert_ite, hsame.id]
  refine ⟨runMove_of_runs hwrites.runs, ?_, Or.inl ?_⟩
  · rintro other ⟨hother, hrun⟩
    rw [hlookup] at hother
    split at hother
    · cases hother
      exact Or.inl ⟨item, ⟨hl, hsame.pipelineRunID.symm.trans hrun⟩, hsame.nodeKey.symm⟩
    · exact Or.inl ⟨other, ⟨hother, hrun⟩, rfl⟩
  · rintro other ⟨hother, hrun⟩ hs
    refine ⟨?_, hrun⟩
    rw [hlookup, if_neg]
    · exact hother
    · intro hid
      rw [hid, hl] at hother
      cases hother
      cases hrun.symm.trans (hopen (by rw [hs]; rfl))

theorem runStep_createRun {env : Env} {request : CreatePipelineRun} (hnew : env.newUUID 0 ∉ s.used) :
    RunStep runID Creates Sets s (s.applyAll (createRunCommands (newRun env request))) := by
  have hrecords : ∀ id, (s.applyAll (createRunCommands (newRun env request))).keys.runs.records.lookup id =
      if id = env.newUUID 0 then some (newRun env request) else s.keys.runs.records.lookup id := by
    intro id
    rw [keys_applyAll]
    have hinsert : (s.keys.applyAll (createRunCommands (newRun env request))).runs.records =
        s.keys.runs.records.insert (env.newUUID 0) (newRun env request) := by
      unfold createRunCommands runReferences
      split <;> rfl
    rw [hinsert, lookup_insert_ite]
  apply RunStep.of_same
  · rw [keys_applyAll]
    unfold createRunCommands runReferences
    split <;> rfl
  · by_cases hid : runID = env.newUUID 0
    · exact RunMove.created (hid ▸ hnew) ((hrecords runID).trans (if_pos hid))
    · exact RunMove.same ((hrecords runID).trans (if_neg hid))

theorem lookup_moveRun (s : Server) (id : UUID) (run : PipelineRun) (previous : RunStatus)
    (id' : UUID) : (s.applyAll (moveRun id run previous)).keys.runs.records.lookup id' =
      if id' = id then some run else s.keys.runs.records.lookup id' := by
  have hinsert : (s.keys.applyAll (moveRun id run previous)).runs.records =
      s.keys.runs.records.insert id run := by
    unfold moveRun
    split <;> rfl
  rw [keys_applyAll, hinsert, lookup_insert_ite]

theorem records_moveRun (s : Server) (id : UUID) (run : PipelineRun) (previous : RunStatus) :
    (s.applyAll (moveRun id run previous)).keys.executions.records = s.keys.executions.records := by
  rw [keys_applyAll]
  unfold moveRun
  split <;> rfl

theorem runStep_status {env : Env} {run : PipelineRun} {status : RunStatus} {errorText : String}
    (hsets : Sets run status) (hl : s.keys.runs.records.lookup run.id = some run) :
    RunStep runID Creates Sets s
      (s.applyAll (moveRun run.id (runWithStatus env status errorText run) run.status)) := by
  have hlookup := lookup_moveRun s run.id (runWithStatus env status errorText run) run.status runID
  apply RunStep.of_same
  · exact records_moveRun s _ _ _
  · by_cases hid : runID = run.id
    · subst hid
      exact RunMove.status hsets hl rfl (hlookup.trans (if_pos rfl))
    · exact RunMove.same (hlookup.trans (if_neg hid))

theorem Moves.sameIdentity {item item' : Execution} {evs : List Event}
    (h : Memory.Moves item item' evs) : SameIdentity item item' := by
  obtain ⟨env, s, c, t⟩ := h
  cases t <;> exact ⟨rfl, rfl, rfl, rfl, rfl, rfl⟩

theorem runStep_of_block {w : Watch} {image : Image} {commands : List Command} (hI : Invariant s)
    (hfresh : FreshIDs s (.commit w image commands)) (hblock : Block Creates Sets w s.keys commands) :
    RunStep runID Creates Sets s (s.applyAll commands) := by
  cases hblock with
  | @create env request hcreates hw hfree =>
      apply runStep_create hcreates hI
      have hid := (hfresh (.set (env.newUUID 0) (newExecution env request)) (.head _)).1 _ rfl
      rw [hw] at hid
      exact hid.resolve_left List.not_mem_nil
  | move hl hopen hmoves hwrites =>
      rw [← keys_applyAll] at hwrites
      exact runStep_move hl hopen (Moves.sameIdentity hmoves) hwrites
  | unindex id =>
      apply RunStep.of_same
      · rw [keys_applyAll]
        rfl
      · apply runMove_of_runs
        rw [keys_applyAll]
        rfl
  | @createRun env request hw hfree =>
      apply runStep_createRun
      have hid := (hfresh (.hSet (env.newUUID 0) (newRun env request)) (.head _)).2 _ rfl
      rw [hw] at hid
      exact hid.resolve_left List.not_mem_nil
  | status hsets hl => exact runStep_status hsets hl

theorem runStep_of_blockCall {c : TxCall Watch Image Command Query} {r : TxReply QueryReply c}
    (hI : Invariant s) (hc : BlockCall Creates Sets c) (hfresh : FreshIDs s c)
    (hstep : backend.Step s c r s') : RunStep runID Creates Sets s s' := by
  cases c with
  | other c =>
      have hexec : s.exec c = (r, s') := hstep
      have hsame := hc s
      rw [hexec] at hsame
      exact RunStep.of_same hsame.records (runMove_of_runs hsame.runs)
  | watch w =>
      obtain ⟨-, rfl⟩ := hstep
      exact RunStep.of_same rfl (RunMove.same rfl)
  | commit w image commands =>
      rcases hstep with ⟨-, hview, rfl⟩ | ⟨-, rfl⟩
      · exact runStep_of_block hI hfresh (hc s.keys hI.represented hview)
      · exact RunStep.of_same rfl (RunMove.same rfl)

/-! ## Restarted subgraphs and purges -/

/-- The records after the commands for the executions of a restarted subgraph. -/
theorem lookup_subgraph (s : Keyspace) (env : Env) (request : RestartSubgraph)
    (items : List Execution) (id : UUID) :
    ((∀ item ∈ items, item.id ≠ id) ∧
      (s.applyAll (items.flatMap (subgraphCommands env request))).executions.records.lookup id =
        s.executions.records.lookup id) ∨
    ∃ item ∈ items, item.id = id ∧
      (s.applyAll (items.flatMap (subgraphCommands env request))).executions.records.lookup id =
        some (subgraphItem env request item) := by
  induction items generalizing s with
  | nil => exact Or.inl ⟨fun _ h => (nomatch h), rfl⟩
  | cons item rest ih =>
      have happend : s.applyAll ((item :: rest).flatMap (subgraphCommands env request)) =
          (s.applyAll (subgraphCommands env request item)).applyAll
            (rest.flatMap (subgraphCommands env request)) := by
        rw [List.flatMap_cons]
        exact List.foldl_append
      have hfirst : (s.applyAll (subgraphCommands env request item)).executions.records.lookup id =
          if id = item.id then some (subgraphItem env request item)
          else s.executions.records.lookup id := by
        rw [(writes_subgraph s item env request).records, lookup_insert_ite]
        rfl
      rw [happend]
      rcases ih (s.applyAll (subgraphCommands env request item)) with
        ⟨hother, hrest⟩ | ⟨later, hlater, hid, hrest⟩
      · rw [hrest, hfirst]
        by_cases hid : id = item.id
        · exact Or.inr ⟨item, List.mem_cons_self, hid.symm, if_pos hid⟩
        · refine Or.inl ⟨?_, if_neg hid⟩
          intro item' hitem'
          rcases List.mem_cons.mp hitem' with rfl | hitem'
          · exact fun heq => hid heq.symm
          · exact hother item' hitem'
      · exact Or.inr ⟨later, List.mem_cons_of_mem item hlater, hid, hrest⟩

/-- The block of a restarted subgraph resets executions of its run only. -/
theorem runStep_subgraph (env : Env) (request : RestartSubgraph) {items : List Execution}
    {run : PipelineRun} (hrun : s.keys.runs.records.lookup run.id = some run)
    (hnodes : ∀ item ∈ items, Node run.id s item) :
    RunStep runID Creates Sets s (s.applyAll (items.flatMap (subgraphCommands env request) ++
      moveRun run.id (reopenedRun env run) run.status)) := by
  let middle := s.applyAll (items.flatMap (subgraphCommands env request))
  rw [applyAll_append]
  have hrecords : (middle.applyAll (moveRun run.id (reopenedRun env run) run.status)).keys.executions.records =
      (s.keys.applyAll (items.flatMap (subgraphCommands env request))).executions.records := by
    rw [records_moveRun, keys_applyAll]
  have hruns : middle.keys.runs.records.lookup runID = s.keys.runs.records.lookup runID := by
    rw [keys_applyAll]
    apply lookupRun_applyAll
    intro c hc
    obtain ⟨item, -, hmem⟩ := List.mem_flatMap.mp hc
    rw [(changed_subgraphCommands env request item c hmem).2]
    exact fun heq => nomatch heq
  have hrunLookup := lookup_moveRun middle run.id (reopenedRun env run) run.status runID
  have hlookup := lookup_subgraph s.keys env request items
  rw [← hrecords] at hlookup
  constructor
  · by_cases hid : runID = run.id
    · rw [if_pos hid] at hrunLookup
      exact RunMove.reopened (hid ▸ hrun) hrunLookup
    · rw [if_neg hid] at hrunLookup
      exact RunMove.same (hrunLookup.trans hruns)
  · rintro item' ⟨hl, hrunID⟩
    left
    rcases hlookup item'.id with ⟨-, hsame⟩ | ⟨item, hmem, -, hreset⟩
    · exact ⟨item', ⟨hsame.symm.trans hl, hrunID⟩, rfl⟩
    · cases hreset.symm.trans hl
      exact ⟨item, ⟨(hnodes item hmem).1, hrunID⟩, rfl⟩
  · by_cases hid : runID = run.id
    · rw [if_pos hid] at hrunLookup
      exact Or.inr (Or.inl ⟨env, run, hid ▸ hrun, hrunLookup⟩)
    · refine Or.inl fun item hnode _ => ⟨?_, hnode.2⟩
      rcases hlookup item.id with ⟨-, hsame⟩ | ⟨other, hmem, heq, -⟩
      · exact hsame.trans hnode.1
      · -- an execution of the restarted run is not one of this run
        obtain ⟨hstored, hother⟩ := hnodes other hmem
        rw [heq, hnode.1] at hstored
        cases hstored
        cases hnode.2.symm.trans hother
        exact absurd rfl hid

theorem runStep_restartTransaction (hI : Invariant s) {env : Env} {request : RestartSubgraph}
    {keys : List String} {ids : List UUID}
    (hleads : List.Forall₂ (LeadsNode s request.runID) keys ids) {root : Execution}
    {commands : List Command}
    (hbody : restartTransaction env request (s.keys.view ⟨ids, [request.runID], [], []⟩) =
      .ok (root, commands)) : RunStep runID Creates Sets s (s.applyAll commands) := by
  have hview : (s.keys.view ⟨ids, [request.runID], [], []⟩).runs =
      [s.keys.runs.records.lookup request.runID] := rfl
  unfold restartTransaction at hbody
  rw [hview] at hbody
  cases hrun : s.keys.runs.records.lookup request.runID with
  | none =>
      rw [hrun] at hbody
      cases hbody
  | some run =>
      rw [hrun] at hbody
      dsimp only at hbody
      split at hbody
      · cases hbody
      · next items hload =>
        split at hbody
        · cases hbody
        · cases hbody
          have hid : run.id = request.runID := hI.represented.runs.keyed _ run hrun
          apply runStep_subgraph env request (hid.symm ▸ hrun)
          intro item hitem
          have hmem : some item ∈ ids.map s.keys.executions.records.lookup := by
            have hitems := (loadItems_ok hload).1
            have hexecutions : (s.keys.view ⟨ids, [request.runID], [], []⟩).executions =
                ids.map s.keys.executions.records.lookup := rfl
            rw [← hexecutions, hitems]
            exact List.mem_map_of_mem hitem
          obtain ⟨id, hmem, hl⟩ := List.mem_map.mp hmem
          obtain ⟨key, -, hlead⟩ := exists_leadsNode hleads hmem
          obtain rfl : item.id = id := hI.represented.executions.keyed id item hl
          exact ⟨hl, hid.symm ▸ hlead.run item hl⟩

/-- A run that is deleted by commands that store no run is gone. -/
theorem lookupRun_deleted {commands : List Command} (hcommands : ∀ c ∈ commands, c.runID = none)
    (s : Keyspace) (hdeleted : s.runs.records.lookup runID = none ∨ .delRun runID ∈ commands) :
    (s.applyAll commands).runs.records.lookup runID = none := by
  induction commands generalizing s with
  | nil => exact hdeleted.resolve_right List.not_mem_nil
  | cons c rest ih =>
      apply ih (fun c' hc' => hcommands c' (List.mem_cons_of_mem c hc')) (s.apply c)
      by_cases hc : c = .delRun runID
      · subst hc
        exact Or.inl (AList.lookup_erase _ _)
      · rcases hdeleted with hnone | hmem
        · left
          have hstores := hcommands c List.mem_cons_self
          cases c with
          | hSet id run => cases hstores
          | delRun id =>
              have herase := lookup_erase_ite s.runs.records id runID
              rw [hnone, ite_self] at herase
              exact herase
          | zAdd key value member => cases key <;> exact hnone
          | zRem key member => cases key <;> exact hnone
          | _ => exact hnone
        · exact Or.inr ((List.mem_cons.mp hmem).resolve_left (Ne.symm hc))

/-- A node that `Purge` removes is removed together with its run. -/
theorem delRun_of_purge {candidates : List Candidate} (hlisted : ∀ c ∈ candidates, c.Listed s.keys)
    {item : Execution} (hnode : Node runID s item) {c : Command}
    (hc : c ∈ candidates.flatMap purgeCandidate) (hchanged : c.changedExecution = some item.id) :
    .delRun runID ∈ candidates.flatMap purgeCandidate := by
  obtain ⟨candidate, hcandidate, hmem⟩ := List.mem_flatMap.mp hc
  have hown : ∀ item' : Execution, c ∈ purgeExecution item' → Stored s.keys (.inl item') → item' = item := by
    intro item' hc' hstored
    have hid : item.id = item'.id := by
      by_contra hne
      exact (changed_purgeExecution item' c hc').2.1 item.id hne hchanged
    have hl := hnode.1
    rw [hid] at hl
    exact Option.some.inj (hstored.symm.trans hl)
  refine List.mem_flatMap.mpr ⟨candidate, hcandidate, ?_⟩
  cases candidate with
  | execution finished item' =>
      obtain ⟨hstored, hnone⟩ := hlisted _ hcandidate
      cases hown item' hmem hstored
      cases hnone.symm.trans hnode.2
  | run finished run nodes =>
      obtain ⟨-, hnodes, -⟩ := hlisted _ hcandidate
      rcases List.mem_append.mp hmem with hpart | hpart
      · obtain ⟨item', hitem', hc'⟩ := List.mem_flatMap.mp hpart
        obtain ⟨hstored, hrun⟩ := hnodes item' hitem'
        cases hown item' hc' hstored
        cases hrun.symm.trans hnode.2
        exact List.mem_append_right _ List.mem_cons_self
      · rw [(changed_purgeRun run c hpart).2.1] at hchanged
        cases hchanged

variable (runID) in
theorem runID_of_purge {candidates : List Candidate} {c : Command}
    (hc : c ∈ candidates.flatMap purgeCandidate) :
    c.runID = none ∧ (c.changedRun = some runID → c = .delRun runID) := by
  have hexecution : ∀ item : Execution, ∀ c ∈ purgeExecution item,
      c.runID = none ∧ (c.changedRun = some runID → c = .delRun runID) := by
    intro item
    unfold purgeExecution
    split <;> cases item.pipelineRunID <;> simp [Command.runID, Command.changedRun]
  have hrun : ∀ run : PipelineRun, ∀ c ∈ purgeRun run,
      c.runID = none ∧ (c.changedRun = some runID → c = .delRun runID) := by
    intro run
    unfold purgeRun
    split <;> simp [Command.runID, Command.changedRun]
  obtain ⟨candidate, -, hmem⟩ := List.mem_flatMap.mp hc
  cases candidate with
  | execution finished item => exact hexecution item c hmem
  | run finished run nodes =>
      rcases List.mem_append.mp hmem with hpart | hpart
      · obtain ⟨item, -, hitem⟩ := List.mem_flatMap.mp hpart
        exact hexecution item c hitem
      · exact hrun run c hpart

theorem runStep_purge (hI : Invariant s) (before : Time) (limit : Int) (order : RangeOrder Candidate) :
    RunStep runID Creates Sets s (s.exec (.purge before limit order)).2 := by
  simp only [Server.exec]
  cases hlist : listPurge s.keys before limit order with
  | error err => exact RunStep.of_same rfl (RunMove.same rfl)
  | ok candidates =>
      obtain ⟨hlisted, -⟩ := listPurge_listed hI.represented hlist
      have hkeys := keys_applyAll s (candidates.flatMap purgeCandidate)
      have horigin : ∀ item', Node runID (s.applyAll (candidates.flatMap purgeCandidate)) item' →
          Node runID s item' := by
        rintro item' ⟨hl, hrun⟩
        have hshrinks := shrinks_applyAll s.keys (removes_purge candidates) item'.id
        rw [← hkeys] at hshrinks
        rcases hshrinks with ⟨hsame, -⟩ | ⟨hgone, -⟩
        · exact ⟨hsame.symm.trans hl, hrun⟩
        · cases hgone.symm.trans hl
      by_cases hdel : .delRun runID ∈ candidates.flatMap purgeCandidate
      · have hremoved := lookupRun_deleted (fun c hc => (runID_of_purge runID hc).1) s.keys
          (Or.inr hdel)
        rw [← hkeys] at hremoved
        exact ⟨RunMove.removed hremoved, fun item' hnode => Or.inl ⟨item', horigin item' hnode, rfl⟩,
          Or.inr (Or.inr hremoved)⟩
      · refine ⟨RunMove.same ?_, fun item' hnode => Or.inl ⟨item', horigin item' hnode, rfl⟩,
          Or.inl fun item hnode _ => ⟨?_, hnode.2⟩⟩
        · rw [hkeys]
          apply lookupRun_applyAll
          intro c hc hchanged
          cases (runID_of_purge runID hc).2 hchanged
          exact hdel hc
        · rw [hkeys, lookup_applyAll]
          · exact hnode.1
          · exact fun c hc hchanged => hdel (delRun_of_purge hlisted hnode hc hchanged)

end Steps

end Run

end Ody.Redis
