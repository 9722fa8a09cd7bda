import Ody.Pipeline.SuccessSoundness

/-!
# Outputs by handle

`Start`, `Then` and `Join2` return a handle with the key as it was given, while
`validate` trims the key of the node. `Output` compares the key of the handle
with the stored node keys, so it finds the node's execution exactly if trimming
leaves the key alone.
-/

namespace Ody.Pipeline

open Library.Tables Library.Interleaving Memory

/-! ## The model -/

section Output

variable {α : Type} (decode : RawMessage → Except String α)

/-- The loop of `Output` over the listed executions. -/
def outputOf (node : Node) (executions : List Execution) : Except GoError α :=
  match executions.find? (·.nodeKey == node.key) with
  | none => .error .notFound
  | some item =>
      if item.status ≠ .succeeded then
        .error (.text ("node " ++ quoted node.key ++ " is " ++ item.status.text))
      else (decode item.output).mapError .text

/-- `Output`; `decode` stands for the JSON decoding to the type of the handle. -/
def output (env : Env) (s : MemoryStore) (runID : UUID) (node : Node) : Except GoError α :=
  outputOf decode node (listRunExecutions env s runID)

end Output

/-- A pipeline with the handles that the calls of its construction returned, in their order. -/
inductive Definition.Returned : Definition → List Node → Prop
  | new (name : String) (version : Int) : Returned (newDefinition name version) []
  | start {d : Definition} {handles : List Node} (h : Returned d handles) (key : String)
      (definition : Task.Definition) (mapper : Option (RawMessage → Built)) :
      Returned (start d key definition mapper).2 (handles ++ [(start d key definition mapper).1])
  | thenNode {d : Definition} {handles : List Node} (h : Returned d handles) (previous : Node)
      (key : String) (definition : Task.Definition) (mapper : Option (RawMessage → Built)) :
      Returned (thenNode d previous key definition mapper).2
        (handles ++ [(thenNode d previous key definition mapper).1])
  | join2 {d : Definition} {handles : List Node} (h : Returned d handles) (first second : Node)
      (key : String) (definition : Task.Definition)
      (mapper : Option (RawMessage → RawMessage → Built)) :
      Returned (join2 d first second key definition mapper).2
        (handles ++ [(join2 d first second key definition mapper).1])

/-! ## Keys of handles and nodes -/

/-- A handle has the key of its node before validation. -/
theorem Definition.Returned.keys {d : Definition} {handles : List Node} (h : d.Returned handles) :
    handles.map (·.key) = d.nodes.map (·.key) := by
  have hadd : ∀ (handles : List Node) (nodes : List NodeDefinition) (handle : Node)
      (node : NodeDefinition), handles.map (·.key) = nodes.map (·.key) → handle.key = node.key →
      (handles ++ [handle]).map (·.key) = (nodes ++ [node]).map (·.key) := by
    intro handles nodes handle node hkeys hkey
    rw [List.map_append, List.map_append, hkeys, List.map_singleton, List.map_singleton, hkey]
  induction h with
  | new name version => rfl
  | start _ key definition mapper ih => exact hadd _ _ _ _ ih rfl
  | thenNode _ previous key definition mapper ih => exact hadd _ _ _ _ ih rfl
  | join2 _ first second key definition mapper ih => exact hadd _ _ _ _ ih rfl

theorem validateNodes_keys {seen : List String} {nodes nodes' : List NodeDefinition}
    (h : validateNodes seen nodes = .ok nodes') :
    nodes'.map (·.key) = nodes.map fun node => trimSpace node.key := by
  induction nodes generalizing seen nodes' with
  | nil =>
      cases h
      rfl
  | cons node rest ih =>
      obtain ⟨-, -, -, -, rest', hrest, rfl⟩ := validateNodes_cons h
      rw [List.map_cons, List.map_cons, ih hrest]

theorem compile_keys {d : Definition} {compiled : CompiledDefinition}
    (h : d.compile = .ok compiled) :
    compiled.name = d.name ∧ compiled.version = d.version ∧
      compiled.keys = d.nodes.map fun node => trimSpace node.key := by
  unfold Definition.compile at h
  split at h
  · cases h
  · next nodes hvalid =>
    cases h
    unfold Definition.validate at hvalid
    repeat' split at hvalid
    · cases hvalid
    · cases hvalid
    · exact ⟨rfl, rfl, validateNodes_keys hvalid⟩

/-- The loop of `NewRegistry` keeps what it has registered, and registers every definition. -/
theorem register_lookup {definitions : List Definition} {r registry : Registry}
    (h : register r definitions = .ok registry) :
    (∀ key compiled, r.definitions.lookup key = some compiled →
      registry.definitions.lookup key = some compiled) ∧
    ∀ d ∈ definitions, ∃ compiled, d.compile = .ok compiled ∧
      registry.definitions.lookup (registryKey d.name d.version) = some compiled := by
  induction definitions generalizing r with
  | nil =>
      cases h
      exact ⟨fun _ _ hl => hl, by simp⟩
  | cons d rest ih =>
      rw [register] at h
      split at h
      · cases h
      · next compiled hcompiled =>
        dsimp only at h
        split at h
        · cases h
        · next hnew =>
          obtain ⟨hkept, hrest⟩ := ih h
          constructor
          · intro key stored hl
            refine hkept key stored ?_
            rw [lookup_insert_ite, if_neg, hl]
            rintro rfl
            exact hnew (AList.lookup_isSome.mp (by simp [hl]))
          · intro other hother
            rcases List.mem_cons.mp hother with rfl | hother
            · refine ⟨compiled, hcompiled, hkept _ _ ?_⟩
              obtain ⟨hname, hversion, -⟩ := compile_keys hcompiled
              rw [← hname, ← hversion]
              exact AList.lookup_insert _
            · exact hrest other hother

/-- The node of a call has the trimmed key of its handle. -/
theorem node_key_eq {definitions : List Definition} {registry : Registry}
    (hregistry : newRegistry definitions = .ok registry) {d : Definition} (hd : d ∈ definitions)
    {handles : List Node} (hbuilt : d.Returned handles) {run : PipelineRun}
    (hname : run.pipelineName = d.name) (hversion : run.pipelineVersion = d.version)
    {definition : CompiledDefinition} (hfound : registry.find run = some definition) {i : Nat}
    {handle : Node} (hhandle : handles[i]? = some handle) {node : NodeDefinition}
    (hnode : definition.nodes[i]? = some node) :
    node.key = trimSpace handle.key ∧ ∀ key ∈ definition.keys, trimSpace key = key := by
  obtain ⟨compiled, hcompiled, hl⟩ := (register_lookup hregistry).2 d hd
  have hsame : compiled = definition := by
    unfold Registry.find at hfound
    rw [hname, hversion, hl] at hfound
    exact Option.some.inj hfound
  subst hsame
  have hkeys : compiled.nodes.map (·.key) = (handles.map (·.key)).map trimSpace := by
    rw [hbuilt.keys, List.map_map]
    exact (compile_keys hcompiled).2.2
  constructor
  · have hat : (compiled.nodes.map (·.key))[i]? = ((handles.map (·.key)).map trimSpace)[i]? :=
      congrArg (·[i]?) hkeys
    simpa [hhandle, hnode] using hat
  · intro key hmem
    have hmem' : key ∈ (handles.map (·.key)).map trimSpace := hkeys ▸ hmem
    obtain ⟨raw, -, rfl⟩ := List.mem_map.mp hmem'
    exact trimSpace_trimSpace raw

/-! ## Outputs -/

section Find

variable {α : Type} {decode : RawMessage → Except String α} {env : Env} {s : MemoryStore}
  {runID : UUID} {handle : Node} {item : Execution}

/-- The only execution with the key of the handle is decoded. -/
theorem output_of_member (hitem : Member s runID item) (hkey : item.nodeKey = handle.key)
    (honly : ∀ other, Member s runID other → other.nodeKey = item.nodeKey → other = item)
    (hsucceeded : item.status = .succeeded) :
    output decode env s runID handle = (decode item.output).mapError .text := by
  have hfind : (listRunExecutions env s runID).find? (·.nodeKey == handle.key) = some item := by
    cases hfound : (listRunExecutions env s runID).find? (·.nodeKey == handle.key) with
    | none =>
        have hnone := List.find?_eq_none.mp hfound item (mem_listRunExecutions.mpr hitem)
        exact absurd (beq_iff_eq.mpr hkey) hnone
    | some other =>
        have hother := mem_listRunExecutions.mp (List.mem_of_find?_eq_some hfound)
        have hpass := List.find?_some hfound
        have hsame : other.nodeKey = handle.key := beq_iff_eq.mp hpass
        rw [honly other hother (hsame.trans hkey.symm)]
  rw [output, outputOf, hfind]
  exact if_neg (not_not.mpr hsucceeded)

theorem output_of_no_member (hnone : ∀ other, Member s runID other → other.nodeKey ≠ handle.key) :
    output decode env s runID handle = .error .notFound := by
  have hfind : (listRunExecutions env s runID).find? (·.nodeKey == handle.key) = none := by
    refine List.find?_eq_none.mpr fun other hmem hkey => ?_
    exact hnone other (mem_listRunExecutions.mp hmem) (beq_iff_eq.mp hkey)
  rw [output, outputOf, hfind]

end Find

/-- In every interleaving of engine operations with worker and operator calls, `Output` decodes the
stored result of a succeeded node exactly if the key of its handle is trimmed. -/
theorem output_iff_trimmed {definitions : List Definition} {registry : Registry}
    (hregistry : newRegistry definitions = .ok registry) {d : Definition} (hd : d ∈ definitions)
    {handles : List Node} (hbuilt : d.Returned handles) {i : Nat} {handle : Node}
    (hhandle : handles[i]? = some handle) {runID : UUID} {w : World}
    {threads : List (Thread Unit Call Reply Unit)}
    (hreach : Reach storeSystem World.Initial (Client registry runID) w threads)
    {run : PipelineRun} (hrun : w.store.runs.lookup runID = some run)
    (hname : run.pipelineName = d.name) (hversion : run.pipelineVersion = d.version)
    {definition : CompiledDefinition} (hfound : registry.find run = some definition)
    {node : NodeDefinition} (hnode : definition.nodes[i]? = some node) {item : Execution}
    (hitem : Member w.store runID item) (hkey : item.nodeKey = node.key)
    (hsucceeded : item.status = .succeeded) {α : Type} (decode : RawMessage → Except String α)
    (env : Env) :
    output decode env w.store runID handle = (decode item.output).mapError .text ↔
      trimSpace handle.key = handle.key := by
  have hindexed := (sound_of_reach hreach).indexed
  obtain ⟨hnodeKey, htrimmed⟩ :=
    node_key_eq hregistry hd hbuilt hname hversion hfound hhandle hnode
  constructor
  · intro hdecoded
    by_contra hraw
    -- no stored key is the key of the handle, as all of them are trimmed
    have hmissing : output decode env w.store runID handle = .error .notFound := by
      refine output_of_no_member fun other hother heq => hraw ?_
      rw [← heq]
      exact htrimmed _ (hindexed.declared other run definition hother hrun hfound)
    rw [hmissing] at hdecoded
    cases hresult : decode item.output with
    | ok value =>
        rw [hresult] at hdecoded
        cases hdecoded
    | error message =>
        rw [hresult] at hdecoded
        cases hdecoded
  · intro htrim
    refine output_of_member hitem (hkey.trans (hnodeKey.trans htrim)) ?_ hsucceeded
    exact fun other hother hsame => hindexed.unique hother hitem hsame

/-! ## A delivered node -/

/-- A run whose first node is created, delivered and succeeds. -/
def deliveredMoves (registry : Registry) (d : Definition) : List (Move Call Reply Unit) :=
  .spawn (run registry d (.ok "1") []).discard :: List.replicate 6 (.step 0) ++
  [.spawn (.single claimAny), .step 1, .spawn (.single (.succeed 2 3 "2")), .step 2]

/-- The node `extract` of the first run has succeeded, and no execution has a padded key. -/
def extractSucceeded (d : Definition) (w : World) : Bool :=
  (w.store.runs.lookup 1).any (fun run =>
    run.pipelineName == d.name && run.pipelineVersion == d.version) &&
  (w.store.executions.lookup 2).any (fun item => item.pipelineRunID == some 1 &&
    item.nodeKey == "extract" && item.status == .succeeded && item.output == "2") &&
  w.store.executions.entries.all (fun entry => entry.2.nodeKey != " extract")

theorem exists_delivered (registry : Registry) (d : Definition)
    (h : (storeExecution.drive (deliveredMoves registry d) (World.init 5) []).any
      (fun final => extractSucceeded d final.1) = true) :
    ∃ (w : World) (threads : List (Thread Unit Call Reply Unit)) (run : PipelineRun)
      (item : Execution), Reach storeSystem World.Initial (Client registry 1) w threads ∧
      w.store.runs.lookup 1 = some run ∧ run.pipelineName = d.name ∧
      run.pipelineVersion = d.version ∧ Member w.store 1 item ∧ item.nodeKey = "extract" ∧
      item.status = .succeeded ∧ item.output = "2" ∧
      ∀ other, Member w.store 1 other → other.nodeKey ≠ " extract" := by
  have hclaim : Client registry 1 (.single claimAny) := .call _ trivial
  have hsucceed : Client registry 1 (.single (.succeed 2 3 "2")) := .call _ trivial
  have hmoves : ∀ m ∈ deliveredMoves registry d, m.Spawns (Client registry 1) := by
    simp [deliveredMoves, Move.Spawns, Client.run, hclaim, hsucceed]
  obtain ⟨w, threads, hreach, htest⟩ :=
    storeExecution.drive_reaches hmoves (World.init_initial 5) h
  simp only [extractSucceeded, Bool.and_eq_true, Option.any_eq_true, beq_iff_eq, List.all_eq_true,
    bne_iff_ne] at htest
  obtain ⟨⟨⟨run, hrun, hname, hversion⟩, item, hl, ⟨⟨hof, hkey⟩, hstatus⟩, houtput⟩, hall⟩ := htest
  refine ⟨w, threads, run, item, hreach, hrun, hname, hversion, ⟨?_, hof⟩, hkey, hstatus, houtput,
    ?_⟩
  · rw [w.store.executions_keyed 2 item hl]
    exact hl
  · intro other hother
    exact hall ⟨other.id, other⟩ (AList.mem_lookup_iff.mp hother.1)

theorem output_iff_trimmed_of_etl :
    ∃ (w : World) (item : Execution), Member w.store 1 item ∧ item.nodeKey = "extract" ∧
      item.status = .succeeded ∧
      ∀ env, output .ok env w.store 1 ⟨"extract", "etl", 1⟩ = .ok item.output := by
  obtain ⟨w, threads, run, item, hreach, hrun, hname, hversion, hitem, hkey, hstatus, -⟩ :=
    exists_delivered etlRegistry etl (by decide)
  have hregistered : (etlRegistry.definitions.lookup (registryKey etl.name etl.version)).any
      (fun definition => definition.nodes[0]?.any (·.key == "extract")) = true := by decide
  simp only [Option.any_eq_true, beq_iff_eq] at hregistered
  obtain ⟨definition, hl, node, hnode, hnodeKey⟩ := hregistered
  have hfound : etlRegistry.find run = some definition := by
    rw [Registry.find, hname, hversion, hl]
  have hbuilt : etl.Returned [⟨"extract", "etl", 1⟩, ⟨"load", "etl", 1⟩] :=
    .thenNode (.start (.new "etl" 1) "extract" (sampleTask "extract") (some .ok))
      ⟨"extract", "etl", 1⟩ "load" (sampleTask "load") (some .ok)
  refine ⟨w, item, hitem, hkey, hstatus, fun env => ?_⟩
  have htrim : trimSpace "extract" = "extract" := by decide
  exact (output_iff_trimmed newRegistry_etl (List.mem_singleton.mpr rfl) hbuilt
    (List.getElem?_cons_zero ..) hreach hrun hname hversion hfound hnode hitem
    (hkey.trans hnodeKey.symm) hstatus .ok env).mpr htrim

/-- A pipeline whose only key has a leading space. -/
def padded : Definition :=
  (start (newDefinition "padded" 1) " extract" (sampleTask "extract") (some .ok)).2

def paddedRegistry : Registry :=
  match newRegistry [padded] with
  | .ok registry => registry
  | .error _ => ⟨∅⟩

/-- The handle of this node does not find its result, although the registry accepts the pipeline. -/
theorem padded_output_not_found :
    newRegistry [padded] = .ok paddedRegistry ∧ padded.Returned [⟨" extract", "padded", 1⟩] ∧
      ∃ (w : World) (threads : List (Thread Unit Call Reply Unit)) (item : Execution),
        Reach storeSystem World.Initial (Client paddedRegistry 1) w threads ∧
        Member w.store 1 item ∧ item.nodeKey = "extract" ∧ item.status = .succeeded ∧
        item.output = "2" ∧
        ∀ env, output .ok env w.store 1 ⟨" extract", "padded", 1⟩ =
          (.error .notFound : Except GoError RawMessage) := by
  refine ⟨?_, ?_, ?_⟩
  · exact newRegistry_of_isOk (by decide)
  · exact .start (.new "padded" 1) " extract" (sampleTask "extract") (some .ok)
  · obtain ⟨w, threads, run, item, hreach, -, -, -, hitem, hkey, hstatus, houtput, hnone⟩ :=
      exists_delivered paddedRegistry padded (by decide)
    exact ⟨w, threads, item, hreach, hitem, hkey, hstatus, houtput,
      fun env => output_of_no_member hnone⟩

end Ody.Pipeline
