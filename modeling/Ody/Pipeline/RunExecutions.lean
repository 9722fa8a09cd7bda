import Ody.Execution.Freshness
import Ody.Pipeline.EngineRules

/-!
# The executions of a run

Facts about one run and its executions that hold for any call of any client, as
long as only the engine creates executions of the run. Each node has at most one
execution, and a succeeded execution stays as it is until its run is restarted
or purged.
-/

namespace Ody.Pipeline

open Library.Tables Library.Interleaving Memory

/-- The item is a stored execution of the run. -/
def Member (s : MemoryStore) (runID : UUID) (item : Execution) : Prop :=
  s.executions.lookup item.id = some item ∧ item.pipelineRunID = some runID

/-- Two versions of one run agree on what the engine computes with. -/
structure SameRun (run run' : PipelineRun) : Prop where
  name : run'.pipelineName = run.pipelineName
  version : run'.pipelineVersion = run.pipelineVersion
  input : run'.input = run.input

theorem SameRun.refl (run : PipelineRun) : SameRun run run := ⟨rfl, rfl, rfl⟩

theorem SameRun.trans {run run' run'' : PipelineRun} (h : SameRun run run')
    (h' : SameRun run' run'') : SameRun run run'' :=
  ⟨h'.name.trans h.name, h'.version.trans h.version, h'.input.trans h.input⟩

theorem SameRun.find {run run' : PipelineRun} (h : SameRun run run') (registry : Registry) :
    registry.find run' = registry.find run := by
  rw [Registry.find, h.name, h.version]
  rfl

theorem mem_listRunExecutions {env : Env} {s : MemoryStore} {runID : UUID} {item : Execution} :
    item ∈ listRunExecutions env s runID ↔ Member s runID item := by
  rw [listRunExecutions, List.mem_insertionSort, List.mem_filter, mem_items, beq_iff_eq]
  rfl

section Inversion

variable {w : World} {env : Env} {c : Call} {runID : UUID}

/-- An execution of the run after a call is an old one, a new version of an old one or new. -/
inductive Origin (w : World) (env : Env) (runID : UUID) : Call → Execution → Prop
  | kept {c item} (h : Member w.store runID item) : Origin w env runID c item
  | moved {c item item' evs} (h : Member w.store runID item)
      (t : Transition env w.store c item item' evs) : Origin w env runID c item'
  | created {request} (hname : request.taskName ≠ "") (hnew : existing w.store request = none)
      (hrun : request.pipelineRunID = some runID) :
      Origin w env runID (.createExecution request) (created env request)

theorem member_origin {item : Execution} (h : Member (w.after env c).store runID item) :
    Origin w env runID c item := by
  obtain ⟨hl, hrun⟩ := h
  have hl' : (exec env w.store c).2.executions.lookup item.id = some item := hl
  generalize hid : item.id = id at hl'
  cases exec_effect env w.store c id with
  | same hsame _ =>
      apply Origin.kept
      exact ⟨by rw [hid, ← hsame, hl'], hrun⟩
  | inserted hname hnew hcreated _ =>
      cases hcreated.symm.trans hl'
      exact Origin.created hname hnew hrun
  | moved hold hmoved _ t =>
      cases hmoved.symm.trans hl'
      obtain ⟨hsame, -⟩ := t.node_eq
      have hkey := w.store.executions_keyed _ _ hold
      exact Origin.moved ⟨by rw [hkey, hold], hsame ▸ hrun⟩ t
  | deleted hgone _ => exact absurd (hgone.symm.trans hl') (by simp)

/-- A run after a call is an old one under the same identity, or new. -/
theorem run_origin {run' : PipelineRun}
    (h : (w.after env c).store.runs.lookup runID = some run') :
    (∃ run, w.store.runs.lookup runID = some run ∧ SameRun run run' ∧
      run.revision ≤ run'.revision ∧ (run'.revision = run.revision → run' = run)) ∨
    ∃ request, c = .createPipelineRun request ∧ runID = env.newUUID 0 ∧
      run' = createdRun env request := by
  have h' : (exec env w.store c).2.runs.lookup runID = some run' := h
  cases exec_runEffect env w.store c runID with
  | same hsame => exact Or.inl ⟨run', hsame ▸ h', SameRun.refl run', le_rfl, fun _ => rfl⟩
  | inserted _ hnew =>
      cases hnew.symm.trans h'
      exact Or.inr ⟨_, rfl, rfl, rfl⟩
  | status hold hnew =>
      cases hnew.symm.trans h'
      exact Or.inl ⟨_, hold, ⟨rfl, rfl, rfl⟩, Nat.le_succ _, fun heq => absurd heq (by simp [withStatus])⟩
  | reopened hold hnew =>
      cases hnew.symm.trans h'
      exact Or.inl ⟨_, hold, ⟨rfl, rfl, rfl⟩, Nat.le_succ _, fun heq => absurd heq (by simp [reopened])⟩
  | deleted hgone => exact absurd (hgone.symm.trans h') (by simp)

/-- A removed run never comes back. -/
theorem run_gone (hfresh : env.Fresh w) (hissued : runID ∈ w.issued)
    (h : w.store.runs.lookup runID = none) : (w.after env c).store.runs.lookup runID = none := by
  cases hrun : (w.after env c).store.runs.lookup runID with
  | none => rfl
  | some run' =>
      rcases run_origin hrun with ⟨run, hold, -⟩ | ⟨_, -, rfl, -⟩
      · exact absurd (hold.symm.trans h) (by simp)
      · exact absurd hissued (hfresh 0)

/-- A resolved execution stays as it is until its run is restarted or purged. -/
theorem resolved_after (hfresh : env.Fresh w) (hknown : w.Known) {item : Execution}
    (h : Member w.store runID item) (hterminal : item.status.isTerminal = true) :
    Member (w.after env c).store runID item ∨
      (∃ request, c = .restartPipelineSubgraph request ∧ request.runID = runID ∧
        Restarts env w.store (w.after env c).store request) ∨
      ((∃ before limit, c = .purge before limit) ∧ Purged (w.after env c).store runID) := by
  obtain ⟨hl, hrun⟩ := h
  generalize hid : item.id = id at hl
  cases exec_effect env w.store c id with
  | same hsame _ =>
      left
      refine ⟨?_, hrun⟩
      rw [hid]
      exact hsame.trans hl
  | inserted _ _ _ _ => exact absurd (hknown.executions _ _ hl) (hfresh 0)
  | moved hold hnew _ t =>
      cases hl.symm.trans hold
      obtain ⟨hopen, ⟨hnone, -⟩ | ⟨request, rfl, haff⟩⟩ := t.of_terminal hterminal
      · rw [hnone] at hrun
        cases hrun
      · right; left
        refine ⟨request, rfl, ?_, ?_⟩
        · simp only [affected, Bool.and_eq_true, beq_iff_eq] at haff
          rw [hrun] at haff
          exact (Option.some.inj haff.1).symm
        · rcases restartPipelineSubgraph_cases env w.store request with ⟨-, hsame⟩ | ⟨-, hok⟩
          · -- a refused restart would have left the record alone
            simp only [exec, hsame, hl, Option.some.injEq] at hnew
            rw [← hnew, hterminal] at hopen
            cases hopen
          · exact hok
  | @deleted before limit _ hgone _ =>
      right; right
      refine ⟨⟨before, limit, rfl⟩, ?_⟩
      rcases purge_run env w.store before limit runID with hpurged | hkeeps
      · exact hpurged
      · exact absurd (hgone.symm.trans (hkeeps.executions id item hl hrun)) (by simp)

/-- A succeeded execution is resolved. -/
theorem succeeded_after (hfresh : env.Fresh w) (hknown : w.Known) {item : Execution}
    (h : Member w.store runID item) (hs : item.status = .succeeded) :
    Member (w.after env c).store runID item ∨
      (∃ request, c = .restartPipelineSubgraph request ∧ request.runID = runID ∧
        Restarts env w.store (w.after env c).store request) ∨
      ((∃ before limit, c = .purge before limit) ∧ Purged (w.after env c).store runID) :=
  resolved_after hfresh hknown h (by simp [hs, Status.isTerminal])

end Inversion

/-! ## One execution for each node -/

section Index

variable (registry : Registry) (runID : UUID)

/-- The executions of the run were created for nodes of its definition, one for each. -/
structure Indexed (w : World) : Prop where
  known : w.Known
  issued : ∀ item, Member w.store runID item → runID ∈ w.issued
  indexed : ∀ item, Member w.store runID item →
    w.store.nodes.lookup (runID, item.nodeKey) = some item.id
  declared : ∀ item run definition, Member w.store runID item →
    w.store.runs.lookup runID = some run → registry.find run = some definition →
    item.nodeKey ∈ definition.keys

/-- A call creates an execution of the run only for a node of its definition. -/
def Permits (w : World) (c : Call) : Prop :=
  ∀ request, c = .createExecution request → request.pipelineRunID = some runID →
    request.nodeKey ≠ "" ∧ runID ∈ w.issued ∧
    ∀ run definition, w.store.runs.lookup runID = some run → registry.find run = some definition →
      request.nodeKey ∈ definition.keys

variable {registry runID}

theorem Indexed.unique {w : World} (h : Indexed registry runID w) {item item' : Execution}
    (hm : Member w.store runID item) (hm' : Member w.store runID item')
    (hkey : item.nodeKey = item'.nodeKey) : item = item' := by
  have hindex := h.indexed item hm
  rw [hkey, h.indexed item' hm'] at hindex
  have hl := hm.1
  rw [← Option.some.inj hindex, hm'.1] at hl
  exact (Option.some.inj hl).symm

theorem Indexed.init (clock : Time) : Indexed registry runID (World.init clock) := by
  refine ⟨World.init_known clock, ?_, ?_, ?_⟩ <;> simp [Member, World.init, newMemoryStore]

/-- An execution that exists before a call stays under its node. -/
theorem Indexed.node_after {w : World} (h : Indexed registry runID w) (env : Env) (c : Call)
    {item item' : Execution} (hm : Member w.store runID item)
    (hm' : Member (w.after env c).store runID item') (hid : item'.id = item.id)
    (hkey : item'.nodeKey = item.nodeKey) :
    (w.after env c).store.nodes.lookup (runID, item'.nodeKey) = some item'.id := by
  have hold := h.indexed item hm
  rw [hid, hkey]
  cases exec_nodeEffect env w.store c (runID, item.nodeKey) with
  | same hsame => exact hsame.trans hold
  | inserted hfree => exact absurd (hfree.symm.trans hold) (by simp)
  | purged hpurged => exact absurd hm'.2 (hpurged.2 _ _ hm'.1)

theorem Indexed.after {w : World} (h : Indexed registry runID w) {env : Env}
    (hfresh : env.Fresh w) {c : Call} (hc : Permits registry runID w c) :
    Indexed registry runID (w.after env c) := by
  have hsub := w.issued_subset env c
  have hknown := h.known.after env c
  have hold : ∀ (item' : Execution) run' definition, (∃ item, Member w.store runID item ∧
      item.nodeKey = item'.nodeKey) → (w.after env c).store.runs.lookup runID = some run' →
      registry.find run' = some definition → item'.nodeKey ∈ definition.keys := by
    rintro item' run' definition ⟨item, hm, hkey⟩ hrun hfound
    rcases run_origin hrun with ⟨run, hrun, hsame, -⟩ | ⟨_, -, rfl, -⟩
    · rw [← hkey]
      exact h.declared item run definition hm hrun ((hsame.find registry).symm.trans hfound)
    · exact absurd (h.issued item hm) (hfresh 0)
  refine ⟨hknown, ?_, ?_, ?_⟩
  · intro item' hm'
    cases member_origin hm' with
    | kept hm => exact hsub (h.issued _ hm)
    | moved hm _ => exact hsub (h.issued _ hm)
    | created _ _ hrun => exact hsub (hc _ rfl hrun).2.1
  · intro item' hm'
    cases member_origin hm' with
    | kept hm => exact h.node_after env c hm hm' rfl rfl
    | moved hm t => exact h.node_after env c hm hm' t.id_eq t.node_eq.2
    | created hname hnew hrun =>
        change (createExecution env w.store _).2.nodes.lookup _ = _
        rw [createExecution_nodes hname hnew, if_pos]
        · rfl
        · exact ⟨hrun, rfl, (hc _ rfl hrun).1⟩
  · intro item' run' definition hm' hrun' hfound
    cases member_origin hm' with
    | kept hm => exact hold _ run' definition ⟨_, hm, rfl⟩ hrun' hfound
    | moved hm t => exact hold _ run' definition ⟨_, hm, t.node_eq.2.symm⟩ hrun' hfound
    | created _ _ hrun =>
        rcases run_origin hrun' with ⟨run, hrun'', hsame, -⟩ | ⟨_, hcall, -⟩
        · exact (hc _ rfl hrun).2.2 run definition hrun'' ((hsame.find registry).symm.trans hfound)
        · cases hcall

end Index

/-! ## Interference -/

section Interference

variable {runID : UUID}

variable (runID) in
/-- What no client undoes: as long as the revision stays, so do the run and its succeeded
executions. -/
structure Rely (w w' : World) : Prop where
  issued : w.issued ⊆ w'.issued
  gone : runID ∈ w.issued → w.store.runs.lookup runID = none → w'.store.runs.lookup runID = none
  run : ∀ run run', w.store.runs.lookup runID = some run → w'.store.runs.lookup runID = some run' →
    SameRun run run' ∧ run.revision ≤ run'.revision ∧
    (run'.revision = run.revision → run' = run ∧ ∀ item, Member w.store runID item →
      item.status = .succeeded → Member w'.store runID item)

theorem Rely.refl (w : World) : Rely runID w w where
  issued := List.Subset.refl _
  gone := fun _ h => h
  run := by
    intro run run' h h'
    cases h.symm.trans h'
    exact ⟨SameRun.refl run, le_rfl, fun _ => ⟨rfl, fun _ hm _ => hm⟩⟩

theorem Rely.trans {a b c : World} (ha : a.Known) (hab : Rely runID a b)
    (hbc : Rely runID b c) : Rely runID a c where
  issued := List.Subset.trans hab.issued hbc.issued
  gone := fun hissued h => hbc.gone (hab.issued hissued) (hab.gone hissued h)
  run := by
    intro run run'' h h''
    cases h' : b.store.runs.lookup runID with
    | none =>
        have hgone := hbc.gone (hab.issued (ha.runs _ _ h)) h'
        exact absurd (hgone.symm.trans h'') (by simp)
    | some run' =>
        obtain ⟨hfirst, hle, hsame⟩ := hab.run run run' h h'
        obtain ⟨hsecond, hle', hsame'⟩ := hbc.run run' run'' h' h''
        refine ⟨hfirst.trans hsecond, hle.trans hle', ?_⟩
        intro heq
        have hrevision : run'.revision = run.revision := by omega
        obtain ⟨rfl, hkept⟩ := hsame hrevision
        obtain ⟨rfl, hkept'⟩ := hsame' heq
        exact ⟨rfl, fun item hm hs => hkept' item (hkept item hm hs) hs⟩

/-- Every call of every client respects the revision. -/
theorem rely_after {w : World} (hknown : w.Known) {env : Env} (hfresh : env.Fresh w) (c : Call) :
    Rely runID w (w.after env c) where
  issued := w.issued_subset env c
  gone := run_gone hfresh
  run := by
    intro run run' h h'
    rcases run_origin h' with ⟨old, hold, hrun, hle, hsame⟩ | ⟨_, -, rfl, -⟩
    · cases h.symm.trans hold
      refine ⟨hrun, hle, ?_⟩
      intro heq
      refine ⟨hsame heq, ?_⟩
      intro item hm hs
      rcases succeeded_after (c := c) hfresh hknown hm hs with
        hkept | ⟨request, -, rfl, hrestarts⟩ | ⟨-, hpurged⟩
      · exact hkept
      · obtain ⟨old, hold, hnew⟩ := hrestarts.run
        cases h.symm.trans hold
        cases h'.symm.trans hnew
        exact absurd heq (by simp [reopened])
      · exact absurd (hpurged.1.symm.trans h') (by simp)
    · exact absurd (hknown.runs _ _ h) (hfresh 0)

/-- A run that is stored after interference was stored before. -/
theorem Rely.run_before {w w' : World} (h : Rely runID w w') (hissued : runID ∈ w.issued)
    {run' : PipelineRun} (h' : w'.store.runs.lookup runID = some run') :
    ∃ run, w.store.runs.lookup runID = some run := by
  cases hrun : w.store.runs.lookup runID with
  | none => exact absurd ((h.gone hissued hrun).symm.trans h') (by simp)
  | some run => exact ⟨run, rfl⟩

variable (runID) in
/-- The run was read with this record; what is stored now is the same run, not earlier. -/
structure SeenRun (run : PipelineRun) (w : World) : Prop where
  issued : runID ∈ w.issued
  run : ∀ run', w.store.runs.lookup runID = some run' →
    SameRun run run' ∧ run.revision ≤ run'.revision

theorem SeenRun.stable {run : PipelineRun} {w w' : World} (h : SeenRun runID run w)
    (hrely : Rely runID w w') : SeenRun runID run w' where
  issued := hrely.issued h.issued
  run := by
    intro run'' h''
    obtain ⟨run', h'⟩ := hrely.run_before h.issued h''
    obtain ⟨hsame, hle⟩ := h.run run' h'
    obtain ⟨hsame', hle', -⟩ := hrely.run run' run'' h' h''
    exact ⟨hsame.trans hsame', hle.trans hle'⟩

variable (runID) in
/-- The run was read with this record; what is stored under its revision is that record. -/
structure ReadRun (run : PipelineRun) (w : World) : Prop where
  seen : SeenRun runID run w
  same : ∀ run', w.store.runs.lookup runID = some run' → run'.revision = run.revision → run' = run

theorem ReadRun.stable {run : PipelineRun} {w w' : World} (h : ReadRun runID run w)
    (hrely : Rely runID w w') : ReadRun runID run w' where
  seen := h.seen.stable hrely
  same := by
    intro run'' h'' heq
    obtain ⟨run', h'⟩ := hrely.run_before h.seen.issued h''
    obtain ⟨-, hle⟩ := h.seen.run run' h'
    obtain ⟨-, hle', hsame⟩ := hrely.run run' run'' h' h''
    have hrevision : run''.revision = run'.revision := by omega
    rw [(hsame hrevision).1]
    exact h.same run' h' (by omega)

theorem getPipelineRun_ok {s : MemoryStore} {run : PipelineRun}
    (h : getPipelineRun s runID = .ok run) : s.runs.lookup runID = some run := by
  unfold getPipelineRun at h
  split at h
  · next stored hstored =>
    cases h
    exact hstored
  · cases h

/-- A read of the run. -/
theorem readRun_of_get {w : World} (hknown : w.Known) (env : Env) {run : PipelineRun}
    (h : getPipelineRun w.store runID = .ok run) :
    ReadRun runID run (w.after env (.getPipelineRun runID)) := by
  have hl := getPipelineRun_ok h
  have hsame : ∀ run', w.store.runs.lookup runID = some run' → run' = run :=
    fun run' h' => Option.some.inj (h'.symm.trans hl)
  refine ⟨⟨w.issued_subset env _ (hknown.runs _ _ hl), ?_⟩, fun run' h' _ => hsame run' h'⟩
  intro run' h'
  rw [hsame run' h']
  exact ⟨SameRun.refl run, le_rfl⟩

/-- The engine creates executions of the run only for nodes of its definition. -/
theorem nodeRequest_permitted {registry : Registry} {target : UUID} {run : PipelineRun}
    {items : List Execution} {view : View} {node : NodeDefinition} {input : RawMessage} {w : World}
    (hsched : Schedulable registry run items view node input)
    (hseen : target = runID → SeenRun runID run w) :
    Permits registry runID w (.createExecution (nodeRequest target node input)) := by
  intro request hc hrun
  cases hc
  obtain rfl : target = runID := Option.some.inj hrun
  obtain ⟨definition, hfound, hnode⟩ := hsched.declared
  refine ⟨definition.key_ne_empty hnode, (hseen rfl).issued, ?_⟩
  intro run' definition' h' hfound'
  rw [((hseen rfl).run run' h').1.find registry, hfound] at hfound'
  cases hfound'
  exact List.mem_map_of_mem hnode

end Interference

end Ody.Pipeline
