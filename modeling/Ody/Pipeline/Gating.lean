import Ody.Pipeline.RunExecutions

/-!
# Executions and their dependencies

An execution of a node may run once every dependency of the node has succeeded,
with an input built from their outputs. `Gated` states this for the statuses
that a guard selects; the input is part of it when it is `checked`. Each kind of
store call keeps it under its own condition, and the two modules that follow
instantiate the guard.
-/

namespace Ody.Pipeline

open Library.Tables Library.Interleaving Memory

/-! ## Supply -/

/-- Every dependency of the node has a succeeded execution in the run. -/
def DependenciesSucceeded (s : MemoryStore) (runID : UUID) (node : NodeDefinition) : Prop :=
  ∀ dependency ∈ node.dependencies, ∃ item, Member s runID item ∧ item.nodeKey = dependency ∧
    item.status = .succeeded

theorem exists_member_iff {s : MemoryStore} {runID : UUID} {p : Execution → Prop} :
    (∃ item, Member s runID item ∧ p item) ↔
      ∃ entry ∈ s.executions.entries, entry.2.pipelineRunID = some runID ∧ p entry.2 := by
  constructor
  · rintro ⟨item, ⟨hl, hrun⟩, hp⟩
    exact ⟨⟨item.id, item⟩, AList.mem_lookup_iff.mp hl, hrun, hp⟩
  · rintro ⟨⟨id, item⟩, hmem, hrun, hp⟩
    have hl : s.executions.lookup id = some item := AList.mem_lookup_iff.mpr hmem
    refine ⟨item, ⟨?_, hrun⟩, hp⟩
    rw [s.executions_keyed id item hl]
    exact hl

instance (s : MemoryStore) (runID : UUID) (p : Execution → Prop) [DecidablePred p] :
    Decidable (∃ item, Member s runID item ∧ p item) :=
  decidable_of_iff _ exists_member_iff.symm

instance (s : MemoryStore) (runID : UUID) (p : Execution → Prop) [DecidablePred p] :
    Decidable (∀ item, Member s runID item → p item) :=
  decidable_of_iff (¬ ∃ item, Member s runID item ∧ ¬ p item) (by simp)

instance (s : MemoryStore) (runID : UUID) (node : NodeDefinition) :
    Decidable (DependenciesSucceeded s runID node) :=
  inferInstanceAs (Decidable (∀ _ ∈ _, _))

/-- Every dependency of the node has a succeeded execution with this output. -/
def Supplied (s : MemoryStore) (runID : UUID) (node : NodeDefinition)
    (outputs : String → RawMessage) : Prop :=
  ∀ dependency ∈ node.dependencies, ∃ item, Member s runID item ∧ item.nodeKey = dependency ∧
    item.status = .succeeded ∧ item.output = outputs dependency

/-- Succeeded dependencies have outputs. -/
theorem exists_supplied {s : MemoryStore} {runID : UUID} {node : NodeDefinition}
    (h : DependenciesSucceeded s runID node) : ∃ outputs, Supplied s runID node outputs := by
  choose item hm hkey hs using h
  refine ⟨fun dependency => if hd : dependency ∈ node.dependencies then
    (item dependency hd).output else "", ?_⟩
  intro dependency hd
  exact ⟨item dependency hd, hm _ hd, hkey _ hd, hs _ hd, by simp [hd]⟩

/-- The dependencies succeeded and, if it is checked, the input is built from their outputs. -/
def Fed (checked : Prop) (s : MemoryStore) (runID : UUID) (run : PipelineRun)
    (node : NodeDefinition) (input : RawMessage) : Prop :=
  ∃ outputs, Supplied s runID node outputs ∧
    (checked → safeBuildInput node run.input outputs = .ok input)

/-- Without a check of the input, a node is fed when its dependencies succeeded. -/
theorem fed_unchecked_iff {s : MemoryStore} {runID : UUID} {run : PipelineRun}
    {node : NodeDefinition} {input : RawMessage} :
    Fed False s runID run node input ↔ DependenciesSucceeded s runID node := by
  constructor
  · rintro ⟨outputs, hsupplied, -⟩ dependency hd
    obtain ⟨item, hm, hkey, hs, -⟩ := hsupplied dependency hd
    exact ⟨item, hm, hkey, hs⟩
  · intro h
    obtain ⟨outputs, hsupplied⟩ := exists_supplied h
    exact ⟨outputs, hsupplied, False.elim⟩

theorem Supplied.of_kept {s s' : MemoryStore} {runID : UUID} {node : NodeDefinition}
    {outputs : String → RawMessage} (h : Supplied s runID node outputs)
    (hkept : ∀ item, Member s runID item → item.nodeKey ∈ node.dependencies →
      item.status = .succeeded → Member s' runID item) : Supplied s' runID node outputs := by
  intro dependency hd
  obtain ⟨item, hm, hkey, hs, hout⟩ := h dependency hd
  exact ⟨item, hkept item hm (hkey ▸ hd) hs, hkey, hs, hout⟩

theorem Fed.of_kept {checked : Prop} {s s' : MemoryStore} {runID : UUID} {run run' : PipelineRun}
    {node : NodeDefinition} {input : RawMessage} (h : Fed checked s runID run node input)
    (hrun : SameRun run run')
    (hkept : ∀ item, Member s runID item → item.nodeKey ∈ node.dependencies →
      item.status = .succeeded → Member s' runID item) : Fed checked s' runID run' node input := by
  obtain ⟨outputs, hsupplied, hinput⟩ := h
  refine ⟨outputs, hsupplied.of_kept hkept, ?_⟩
  rw [hrun.input]
  exact hinput

section Gate

variable (registry : Registry) (runID : UUID) (guard : Status → Bool) (checked : Prop)

/-- Every guarded execution of the run is fed. -/
structure Gated (w : World) : Prop where
  indexed : Indexed registry runID w
  fed : ∀ item run definition node, Member w.store runID item → guard item.status = true →
    w.store.runs.lookup runID = some run → registry.find run = some definition →
    node ∈ definition.nodes → node.key = item.nodeKey →
    Fed checked w.store runID run node item.input

variable {registry runID guard checked}

theorem Gated.init (clock : Time) : Gated registry runID guard checked (World.init clock) :=
  ⟨Indexed.init clock, by simp [Member, World.init, newMemoryStore]⟩

/-- The run that is stored after a call was stored before, if it has executions. -/
theorem Indexed.run_before {w : World} (h : Indexed registry runID w) {env : Env}
    (hfresh : env.Fresh w) {c : Call} (hissued : runID ∈ w.issued) {run' : PipelineRun}
    (hrun' : (w.after env c).store.runs.lookup runID = some run') :
    ∃ run, w.store.runs.lookup runID = some run ∧ SameRun run run' := by
  have hrely : Rely runID w (w.after env c) := rely_after h.known hfresh c
  obtain ⟨run, hrun⟩ := hrely.run_before hissued hrun'
  exact ⟨run, hrun, (hrely.run run run' hrun hrun').1⟩

/-- Any call but a restart: guarded executions were guarded before with the same input, or are
fed when the call is issued. -/
theorem Gated.step {w : World} (h : Gated registry runID guard checked w) {env : Env}
    (hfresh : env.Fresh w) {c : Call} (hpermits : Permits registry runID w c)
    (hrestart : ∀ request, c ≠ .restartPipelineSubgraph request)
    (hmoved : ∀ item item' evs, Transition env w.store c item item' evs →
      Member w.store runID item → guard item'.status = true →
      (guard item.status = true ∧ item'.input = item.input) ∨
      ∀ run definition node, w.store.runs.lookup runID = some run →
        registry.find run = some definition → node ∈ definition.nodes → node.key = item.nodeKey →
        Fed checked w.store runID run node item'.input)
    (hcreated : ∀ request, c = .createExecution request → existing w.store request = none →
      request.pipelineRunID = some runID → ∀ run definition node, w.store.runs.lookup runID = some run →
        registry.find run = some definition → node ∈ definition.nodes →
        node.key = request.nodeKey → Fed checked w.store runID run node request.input) :
    Gated registry runID guard checked (w.after env c) := by
  constructor
  · exact h.indexed.after hfresh hpermits
  · intro item' run' definition node hm' hguard hrun' hfound hnode hkey
    have hkept : ∀ item, Member w.store runID item → item.nodeKey ∈ node.dependencies →
        item.status = .succeeded → Member (w.after env c).store runID item := by
      intro item hm _ hs
      rcases succeeded_after (c := c) hfresh h.indexed.known hm hs with
        hkept | ⟨request, hcall, -⟩ | ⟨-, hpurged⟩
      · exact hkept
      · exact absurd hcall (hrestart request)
      · exact absurd hm'.2 (hpurged.2 _ _ hm'.1)
    have hissued : runID ∈ w.issued := by
      cases member_origin hm' with
      | kept hm => exact h.indexed.issued _ hm
      | moved hm _ => exact h.indexed.issued _ hm
      | created _ _ hrun => exact (hpermits _ rfl hrun).2.1
    obtain ⟨run, hrun, hsame⟩ := h.indexed.run_before hfresh hissued hrun'
    have hfound' : registry.find run = some definition := (hsame.find registry).symm.trans hfound
    cases member_origin hm' with
    | kept hm => exact (h.fed _ run definition node hm hguard hrun hfound' hnode hkey).of_kept hsame hkept
    | moved hm t =>
        have hkey' := hkey.trans t.node_eq.2
        rcases hmoved _ _ _ t hm hguard with ⟨hguard', hinput⟩ | hfed
        · rw [hinput]
          exact (h.fed _ run definition node hm hguard' hrun hfound' hnode hkey').of_kept hsame hkept
        · exact (hfed run definition node hrun hfound' hnode hkey').of_kept hsame hkept
    | created _ hnew hrequest =>
        exact (hcreated _ rfl hnew hrequest run definition node hrun hfound' hnode hkey).of_kept
          hsame hkept

/-! ## Calls that start nothing -/

/-- A call that neither creates nor releases an execution nor restarts one of a run. -/
def quiet : Call → Bool
  | .createExecution _ => false
  | .releaseExecution _ _ _ => false
  | .restartPipelineSubgraph _ => false
  | _ => true

/-- An execution of a run becomes active only in a call that is not quiet. -/
theorem active_before {env : Env} {s : MemoryStore} {c : Call} {item item' : Execution}
    {evs : List Event} (hquiet : quiet c = true) (t : Transition env s c item item' evs)
    (hrun : item.pipelineRunID ≠ none) (h : item'.status.isActive = true) :
    item.status.isActive = true := by
  cases t with
  | claim hclaim _ =>
      obtain ⟨-, -, hs | hs | ⟨hs, -⟩, -⟩ := claimable_iff.mp hclaim <;> simp [hs, Status.isActive]
  | heartbeat _ => exact h
  | retry howned _ => simp [howned.1, Status.isActive]
  | restart hnone _ => exact absurd hnone hrun
  | reset _ _ => cases hquiet
  | release _ => cases hquiet
  | reap _ => cases h
  | succeed _ => cases h
  | exhaust _ _ => cases h
  | fail _ => cases h
  | cancel _ => cases h

theorem Gated.quiet {w : World} (h : Gated registry runID guard checked w) {env : Env}
    (hfresh : env.Fresh w) {c : Call} (hquiet : quiet c = true)
    (hguard : ∀ item item' evs, Transition env w.store c item item' evs →
      item.pipelineRunID ≠ none → guard item'.status = true → guard item.status = true) :
    Gated registry runID guard checked (w.after env c) := by
  apply h.step hfresh
  · rintro request rfl
    cases hquiet
  · rintro request rfl
    cases hquiet
  · intro item item' evs t hm hs
    refine Or.inl ⟨hguard item item' evs t (by simp [hm.2]) hs, ?_⟩
    cases t with
    | reset _ _ => cases hquiet
    | release _ => cases hquiet
    | _ => rfl
  · rintro request rfl
    cases hquiet

/-! ## Restarts -/

theorem affected_iff {request : RestartSubgraph} {item : Execution} :
    affected request item = true ↔ item.pipelineRunID = some request.runID ∧
      item.nodeKey ∈ request.rootNodeKey :: request.descendantKeys := by
  simp [affected]

/-- The executions of a run after a restart. -/
theorem Restarts.member {env : Env} {s s' : MemoryStore} {request : RestartSubgraph}
    (h : Restarts env s s' request) {item' : Execution} (hm : Member s' runID item') :
    ∃ item, Member s runID item ∧
      item' = if affected request item then subgraphReset env request item else item := by
  obtain ⟨hl, hrun⟩ := hm
  rw [h.executions] at hl
  obtain ⟨item, hitem, rfl⟩ := Option.map_eq_some_iff.mp hl
  refine ⟨item, ⟨?_, ?_⟩, rfl⟩
  · rw [s.executions_keyed _ _ hitem]
    exact hitem
  · split at hrun <;> exact hrun

/-- An execution that a restart does not affect. -/
theorem Restarts.kept {env : Env} {s s' : MemoryStore} {request : RestartSubgraph}
    (h : Restarts env s s' request) {item : Execution} (hm : Member s runID item)
    (hother : affected request item = false) : Member s' runID item := by
  refine ⟨?_, hm.2⟩
  rw [h.executions, hm.1]
  simp [hother]

/-- A restart that does not affect the dependencies of a node leaves it fed. -/
theorem Restarts.fed {env : Env} {s s' : MemoryStore} {request : RestartSubgraph}
    (h : Restarts env s s' request) {run run' : PipelineRun} {node : NodeDefinition}
    {input : RawMessage} (hfed : Fed checked s runID run node input) (hrun : SameRun run run')
    (hdeps : ∀ item, Member s runID item → item.nodeKey ∈ node.dependencies →
      ¬ affected request item = true) : Fed checked s' runID run' node input := by
  refine hfed.of_kept hrun fun item hm hd _ => Restarts.kept h hm ?_
  simpa using hdeps item hm hd

/-- A restart of a node of the run with the descendants of its definition. -/
theorem Gated.restart {w : World} (h : Gated registry runID guard checked w) {env : Env}
    (hfresh : env.Fresh w) {request : RestartSubgraph} (hblocked : guard .blocked = false)
    (hkeys : request.runID = runID → ∀ run definition, w.store.runs.lookup runID = some run →
      registry.find run = some definition →
      request.descendantKeys = (descendantKeys definition request.rootNodeKey).1)
    (hroot : request.runID = runID → (∀ item, Member w.store runID item →
      affected request item = true → item.status.isActive = false) →
      ∀ item run definition node, Member w.store runID item → item.nodeKey = request.rootNodeKey →
        w.store.runs.lookup runID = some run → registry.find run = some definition →
        node ∈ definition.nodes → node.key = item.nodeKey →
        Fed checked w.store runID run node item.input) :
    Gated registry runID guard checked (w.after env (.restartPipelineSubgraph request)) := by
  have hindexed := h.indexed.after hfresh (c := .restartPipelineSubgraph request)
    fun _ hc => nomatch hc
  refine ⟨hindexed, ?_⟩
  rcases restartPipelineSubgraph_cases env w.store request with ⟨-, hsame⟩ | ⟨-, hok⟩
  · -- a refused restart leaves the store alone
    have hstore : (w.after env (.restartPipelineSubgraph request)).store = w.store := hsame
    rw [hstore]
    exact h.fed
  · intro item' run' definition node hm' hguard hrun' hfound hnode hkey
    obtain ⟨item, hm, hitem⟩ := Restarts.member hok hm'
    obtain ⟨run, hrun, hsame⟩ := h.indexed.run_before hfresh (h.indexed.issued item hm) hrun'
    have hfound' : registry.find run = some definition := (hsame.find registry).symm.trans hfound
    have hrestart : request.runID = runID → request.rootNodeKey :: request.descendantKeys =
        restartKeys definition request.rootNodeKey := by
      intro hid
      rw [hkeys hid run definition hrun hfound']
      rfl
    cases haff : affected request item with
    | false =>
        obtain rfl : item' = item := by simpa [haff] using hitem
        refine Restarts.fed hok (h.fed _ run definition node hm hguard hrun hfound' hnode hkey)
          hsame ?_
        -- a node that depends on an affected one would be affected
        intro other hother hd haffected
        obtain ⟨hrunID, hin⟩ := affected_iff.mp haffected
        have hid : request.runID = runID := Option.some.inj (hrunID.symm.trans hother.2)
        rw [hrestart hid] at hin
        have hclosed := restartKeys_closed hnode hd hin
        rw [← hrestart hid, hkey] at hclosed
        exact absurd (affected_iff.mpr ⟨hid ▸ hm.2, hclosed⟩) (by simp [haff])
    | true =>
        obtain ⟨hrunID, -⟩ := affected_iff.mp haff
        have hid : request.runID = runID := Option.some.inj (hrunID.symm.trans hm.2)
        obtain rfl : item' = subgraphReset env request item := by simpa [haff] using hitem
        by_cases hisRoot : item.nodeKey = request.rootNodeKey
        · have hfed := hroot hid
            (fun other hother haffected => hok.idle other.id other hother.1 haffected)
            item run definition node hm hisRoot hrun hfound' hnode hkey
          refine Restarts.fed hok hfed hsame fun other _ hd haffected => ?_
          have hkey' : node.key = request.rootNodeKey := hkey.trans hisRoot
          have hin := (affected_iff.mp haffected).2
          rw [hrestart hid, ← hkey'] at hin
          exact restartKeys_above hnode hd hin
        · simp [subgraphReset, restarted, hisRoot, hblocked] at hguard

end Gate

/-! ## Acting on a snapshot -/

/-- The listed executions are still stored for their nodes. -/
def Listed (target : UUID) (items : List Execution) (w : World) : Prop :=
  ∀ item ∈ items, ∃ now, Member w.store target now ∧ now.id = item.id ∧ now.nodeKey = item.nodeKey

/-- The listed executions that had succeeded are unchanged. -/
def Current (target : UUID) (items : List Execution) (w : World) : Prop :=
  ∀ item ∈ items, item.status = .succeeded → Member w.store target item

theorem Listed.after {target : UUID} {items : List Execution} {w : World}
    (h : Listed target items w) (hknown : w.Known) {env : Env} (hfresh : env.Fresh w) {c : Call}
    (hpurge : ∀ before limit, c ≠ .purge before limit) : Listed target items (w.after env c) := by
  intro item hmem
  obtain ⟨now, ⟨hl, hrun⟩, hid, hkey⟩ := h item hmem
  generalize hnow : now.id = id at hl
  cases exec_effect env w.store c id with
  | same hsame _ => exact ⟨now, ⟨by rw [hnow]; exact hsame.trans hl, hrun⟩, hid, hkey⟩
  | inserted _ _ _ _ => exact absurd (hknown.executions _ _ hl) (hfresh 0)
  | moved hold hnew _ t =>
      cases hl.symm.trans hold
      obtain ⟨hrun', hkey'⟩ := t.node_eq
      refine ⟨_, ⟨?_, hrun'.trans hrun⟩, t.id_eq.trans hid, hkey'.trans hkey⟩
      rw [t.id_eq, hnow]
      exact hnew
  | deleted _ _ => exact absurd rfl (hpurge _ _)

theorem Current.after {target : UUID} {items : List Execution} {w : World}
    (h : Current target items w) (hknown : w.Known) {env : Env} (hfresh : env.Fresh w) {c : Call}
    (hpurge : ∀ before limit, c ≠ .purge before limit)
    (hrestart : ∀ request, c = .restartPipelineSubgraph request → request.runID = target →
      (exec env w.store c).2 = w.store) :
    Current target items (w.after env c) := by
  intro item hmem hs
  have hm := h item hmem hs
  rcases succeeded_after (c := c) hfresh hknown hm hs with
    hkept | ⟨request, hcall, hrun, -⟩ | ⟨⟨before, limit, hcall⟩, -⟩
  · exact hkept
  · have hstore : (w.after env c).store = w.store := hrestart request hcall hrun
    rw [Member, hstore]
    exact hm
  · exact absurd hcall (hpurge before limit)

/-- A ready node of a current snapshot is supplied with the outputs of the snapshot. -/
theorem supplied_of_view {runID : UUID} {items : List Execution} {view : View} {w : World}
    {node : NodeDefinition} (hview : Rebuilt items view) (hready : view.ready node = true)
    (hcurrent : Current runID items w) : Supplied w.store runID node view.output := by
  intro dependency hd
  obtain ⟨item, hl, hs⟩ := View.ready_iff.mp hready dependency hd
  obtain ⟨hmem, hkey⟩ := hview.byNode dependency item hl
  exact ⟨item, hcurrent item hmem hs, hkey, hs, (hview.outputs dependency item hl hs).symm⟩

section Schedule

variable {registry : Registry} {runID target : UUID} {guard : Status → Bool} {checked : Prop}
  {run : PipelineRun} {items : List Execution} {view : View} {node : NodeDefinition}
  {input : RawMessage} {w : World}

/-- A node of the stored run with the key of a schedulable node is that node. -/
theorem Schedulable.node_eq (hsched : Schedulable registry run items view node input)
    (hseen : SeenRun runID run w) {run' : PipelineRun} {definition : CompiledDefinition}
    {node' : NodeDefinition} (hrun' : w.store.runs.lookup runID = some run')
    (hfound : registry.find run' = some definition) (hnode' : node' ∈ definition.nodes)
    (hkey : node'.key = node.key) : node' = node := by
  obtain ⟨definition', hfound', hnode⟩ := hsched.declared
  rw [(hseen.run run' hrun').1.find registry, hfound'] at hfound
  cases hfound
  exact definition.node_eq hnode' hnode hkey

variable (registry runID) in
/-- The node with this key, if the stored run has one, is supplied with these outputs. -/
def SuppliedKey (w : World) (key : String) (outputs : String → RawMessage) : Prop :=
  ∀ run ∈ w.store.runs.lookup runID, ∀ definition ∈ registry.find run,
    ∀ node ∈ definition.nodes, node.key = key → Supplied w.store runID node outputs

theorem suppliedKey_of_current (hsched : Schedulable registry run items view node input)
    (hseen : SeenRun runID run w) (hcurrent : Current runID items w) :
    SuppliedKey registry runID w node.key view.output := by
  intro run' hrun' definition hfound node' hnode' hkey
  obtain rfl := hsched.node_eq hseen hrun' hfound hnode' hkey
  exact supplied_of_view hsched.rebuilt hsched.ready hcurrent

/-- The input of a schedulable node is the one to be built for whatever version of the run is
stored. -/
theorem fed_of_schedulable (hsched : Schedulable registry run items view node input)
    (hseen : SeenRun runID run w) (hsupplied : SuppliedKey registry runID w node.key view.output)
    {run' : PipelineRun} {definition : CompiledDefinition} {node' : NodeDefinition}
    (hrun' : w.store.runs.lookup runID = some run') (hfound : registry.find run' = some definition)
    (hnode' : node' ∈ definition.nodes) (hkey : node'.key = node.key) :
    Fed checked w.store runID run' node' input := by
  obtain rfl := hsched.node_eq hseen hrun' hfound hnode' hkey
  refine ⟨view.output, hsupplied run' hrun' definition hfound node' hnode' rfl, fun _ => ?_⟩
  rw [(hseen.run run' hrun').1.input]
  exact hsched.built

/-- A creation keeps the gate if the node is supplied with the outputs of the snapshot. -/
theorem Gated.create (h : Gated registry runID guard checked w) {env : Env} (hfresh : env.Fresh w)
    (hsched : Schedulable registry run items view node input)
    (hseen : target = runID → SeenRun runID run w)
    (hsupplied : target = runID → existing w.store (nodeRequest target node input) = none →
      SuppliedKey registry runID w node.key view.output) :
    Gated registry runID guard checked
      (w.after env (.createExecution (nodeRequest target node input))) := by
  apply h.step hfresh (nodeRequest_permitted hsched hseen)
  · exact fun _ hc => nomatch hc
  · intro item item' evs t
    cases t
  · intro request hc hnew hrun run' definition node' hrun' hfound hnode' hkey
    cases hc
    obtain rfl : target = runID := Option.some.inj hrun
    exact fed_of_schedulable hsched (hseen rfl) (hsupplied rfl hnew) hrun' hfound hnode' hkey

/-- A release keeps the gate if the node is supplied with the outputs of the snapshot. -/
theorem Gated.release (h : Gated registry runID guard checked w) {env : Env}
    (hfresh : env.Fresh w) (hsched : Schedulable registry run items view node input)
    {item : Execution} (hitem : view.byNode.lookup node.key = some item) (availableAt : Time)
    (hseen : target = runID → SeenRun runID run w) (hlisted : Listed target items w)
    (hsupplied : target = runID → ∀ now, Member w.store runID now → now.id = item.id →
      now.nodeKey = node.key → now.status = .blocked →
      SuppliedKey registry runID w node.key view.output) :
    Gated registry runID guard checked
      (w.after env (.releaseExecution item.id input availableAt)) := by
  obtain ⟨hmem, hkey⟩ := hsched.rebuilt.byNode node.key item hitem
  obtain ⟨now, hnow, hid, hnowKey⟩ := hlisted item hmem
  apply h.step hfresh
  · exact fun _ hc => nomatch hc
  · exact fun _ hc => nomatch hc
  · intro old item' evs t hm hguard
    right
    intro run' definition node' hrun' hfound hnode' hkey'
    have hreleased : old.id = item.id ∧ item'.input = input ∧ old.status = .blocked := by
      generalize hcall : Call.releaseExecution item.id input availableAt = c at t
      cases t with
      | release hblocked =>
          injection hcall with hid' hinput'
          exact ⟨hid'.symm, hinput'.symm, hblocked⟩
      | _ => cases hcall
    obtain ⟨holdID, hinput, hblocked⟩ := hreleased
    -- the released record is the one that was listed for the node
    obtain rfl : now = old := by
      have hl := hm.1
      rw [holdID, ← hid, hnow.1] at hl
      exact Option.some.inj hl
    obtain rfl : target = runID := Option.some.inj (hnow.2.symm.trans hm.2)
    have hnodeKey : now.nodeKey = node.key := hnowKey.trans hkey
    rw [hinput]
    exact fed_of_schedulable hsched (hseen rfl) (hsupplied rfl now hm holdID hnodeKey hblocked)
      hrun' hfound hnode' (hkey'.trans hnodeKey)
  · exact fun _ hc => nomatch hc

end Schedule

/-! ## The clients -/

/-- The node of the run that the call gives an input, if it takes effect. -/
def suppliedNode (runID : UUID) (s : MemoryStore) : Call → Option String
  | .createExecution request =>
      if request.pipelineRunID = some runID ∧ existing s request = none then
        some request.nodeKey
      else none
  | .releaseExecution id _ _ =>
      (s.executions.lookup id).bind fun item =>
        if item.pipelineRunID = some runID ∧ item.status = .blocked then some item.nodeKey
        else none
  | _ => none

/-- The store that a thread saw when it last listed executions. -/
def lastListing (w : World) (c : Call) (snapshot : MemoryStore) : MemoryStore :=
  match c with
  | .listRunExecutions _ => w.store
  | _ => snapshot

/-- The calls of workers. -/
def workerCall : Call → Bool
  | .claim _ _ _ _ => true
  | .heartbeat _ _ _ => true
  | .succeed _ _ _ => true
  | .retry _ _ _ _ => true
  | .fail _ _ _ => true
  | .reapExpired => true
  | _ => false

/-- The request of a restart. -/
def restartRequest : Call → Option RestartSubgraph
  | .restartPipelineSubgraph request => some request
  | _ => none

end Ody.Pipeline
