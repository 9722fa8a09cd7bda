import Ody.Pipeline.Engine

/-!
# Proof rules for advancing a run

`AdvanceRules` says what holds at each point of one attempt to advance a run: when
the run has been read, when its executions have been listed, and after each node
of the loop. Its rules are about single store calls, and from them the whole
attempt is safe in every interleaving and ends as the rules promise.
-/

namespace Ody.Pipeline

open Library.Tables Library.Interleaving Memory

/-! ## The rebuilt view -/

/-- What `scan` leaves: the last listed execution of each node and the outputs. -/
structure Rebuilt (items : List Execution) (view : View) : Prop where
  byNode : ∀ key item, view.byNode.lookup key = some item → item ∈ items ∧ item.nodeKey = key
  outputs : ∀ key item, view.byNode.lookup key = some item → item.status = .succeeded →
    view.output key = item.output
  covered : ∀ item ∈ items, view.byNode.lookup item.nodeKey ≠ none

theorem scan_extends {seen items : List Execution} {view view' : View} (h : Rebuilt seen view)
    (hscan : scan view items = .ok view') : Rebuilt (seen ++ items) view' := by
  induction items generalizing seen view with
  | nil =>
      cases hscan
      rw [List.append_nil]
      exact h
  | cons item rest ih =>
      rw [scan] at hscan
      split at hscan
      · cases hscan
      · rw [← List.singleton_append, ← List.append_assoc]
        refine ih ⟨?_, ?_, ?_⟩ hscan
        · intro key stored hl
          rw [lookup_insert_ite] at hl
          split at hl
          · next heq =>
            cases hl
            exact ⟨by simp, heq.symm⟩
          · obtain ⟨hmem, hkey⟩ := h.byNode key stored hl
            exact ⟨List.mem_append_left _ hmem, hkey⟩
        · intro key stored hl hs
          rw [lookup_insert_ite] at hl
          split at hl
          · next heq =>
            cases hl
            rw [heq]
            simp [View.output, hs]
          · next hne =>
            have hold := h.outputs key stored hl hs
            simp only [View.output] at hold ⊢
            split
            · rw [lookup_insert_ite, if_neg hne]
              exact hold
            · exact hold
        · intro other hmem
          rw [lookup_insert_ite]
          split
          · simp
          · next hne =>
            rcases List.mem_append.mp hmem with hmem | hmem
            · exact h.covered other hmem
            · rw [List.mem_singleton.mp hmem] at hne
              exact absurd rfl hne

theorem scan_rebuilt {items : List Execution} {view : View}
    (h : scan ⟨∅, ∅⟩ items = .ok view) : Rebuilt items view := by
  have hempty : Rebuilt [] ⟨∅, ∅⟩ := ⟨by simp, by simp, by simp⟩
  exact scan_extends hempty h

/-- The engine may schedule the node with this input. -/
structure Schedulable (registry : Registry) (run : PipelineRun) (items : List Execution)
    (view : View) (node : NodeDefinition) (input : RawMessage) : Prop where
  rebuilt : Rebuilt items view
  declared : ∃ definition, registry.find run = some definition ∧ node ∈ definition.nodes
  ready : view.ready node = true
  built : safeBuildInput node run.input view.output = .ok input

/-- A ready node has a succeeded execution for each dependency. -/
theorem View.ready_iff {view : View} {node : NodeDefinition} :
    view.ready node = true ↔ ∀ dependency ∈ node.dependencies, ∃ item,
      view.byNode.lookup dependency = some item ∧ item.status = .succeeded := by
  simp only [View.ready, List.all_eq_true]
  refine forall₂_congr fun dependency _ => ?_
  cases view.byNode.lookup dependency <;> simp

/-- A scan stops at a failed or cancelled execution. -/
theorem scan_error {items : List Execution} {view : View} {item : Execution}
    (h : scan view items = .error item) :
    item ∈ items ∧ (item.status = .failed ∨ item.status = .cancelled) := by
  induction items generalizing view with
  | nil => cases h
  | cons first rest ih =>
      rw [scan] at h
      split at h
      · next hfailed =>
        cases h
        exact ⟨by simp, hfailed⟩
      · obtain ⟨hmem, hfailed⟩ := ih h
        exact ⟨List.mem_cons_of_mem _ hmem, hfailed⟩

/-! ## One attempt -/

/-- The snapshot from which the loop over the nodes starts: the run was unfinished when it was
read, and no listed execution had failed. -/
structure Snapshot (registry : Registry) (run : PipelineRun) (definition : CompiledDefinition)
    (items : List Execution) (view : View) : Prop where
  unfinished : run.status.isTerminal = false
  found : registry.find run = some definition
  scanned : scan ⟨∅, ∅⟩ items = .ok view

/-- The node is next in the loop and is to be scheduled. -/
structure Selected (definition : CompiledDefinition) (view : View) (done : List NodeDefinition)
    (node : NodeDefinition) : Prop where
  next : ∃ rest, definition.nodes = done ++ node :: rest
  idle : ∀ item, view.byNode.lookup node.key = some item → item.status = .blocked
  ready : view.ready node = true

theorem Snapshot.schedulable {registry : Registry} {run : PipelineRun}
    {definition : CompiledDefinition} {items : List Execution} {view : View}
    {done : List NodeDefinition} {node : NodeDefinition} {input : RawMessage}
    (h : Snapshot registry run definition items view) (hselected : Selected definition view done node)
    (hbuilt : safeBuildInput node run.input view.output = .ok input) :
    Schedulable registry run items view node input := by
  obtain ⟨rest, hnodes⟩ := hselected.next
  refine ⟨scan_rebuilt h.scanned, ⟨definition, h.found, ?_⟩, hselected.ready, hbuilt⟩
  simp [hnodes]

/-- What holds after a call that may fail. -/
def onReply {G S α : Type} (ok : α → G → S → Prop) (failed : GoError → G → S → Prop) :
    Except GoError α → G → S → Prop
  | .ok a => ok a
  | .error err => failed err

/-- What an invariant says about one attempt to advance a run. `Seen` holds after the run was
read, `Snap` when the loop over the nodes has passed some of them, and `Ends` when the attempt
has returned. -/
structure AdvanceRules {S G : Type} (sys : System S G Call Reply) (I : S → Prop)
    (R Gu : S → S → Prop) (registry : Registry) (runID : UUID) where
  Start : G → S → Prop
  Seen : PipelineRun → G → S → Prop
  Snap : PipelineRun → List Execution → List NodeDefinition → G → S → Prop
  Ends : Except GoError Unit → G → S → Prop
  get : CallTriple sys I R Gu Start (.getPipelineRun runID)
    (onReply Seen fun err => Ends (.error err))
  stop : ∀ run g s, run.status.isTerminal = true → Seen run g s → Ends (.ok ()) g s
  missing : ∀ run g s, registry.find run = none → Seen run g s →
    Ends (.error (notRegistered run.pipelineName run.pipelineVersion)) g s
  list : ∀ run definition, run.status.isTerminal = false → registry.find run = some definition →
    CallTriple sys I R Gu (Seen run) (.listRunExecutions runID)
      fun (items : List Execution) => Snap run items []
  failed : ∀ run definition items item, run.status.isTerminal = false →
    registry.find run = some definition → scan ⟨∅, ∅⟩ items = .error item →
    CallTriple sys I R Gu (Snap run items []) (.setPipelineRunStatus runID run.revision .failed
      ("node " ++ item.nodeKey ++ ": " ++ item.lastError)) Ends
  skip : ∀ {run definition items view done node rest},
    Snapshot registry run definition items view → definition.nodes = done ++ node :: rest →
    ((∃ item, view.byNode.lookup node.key = some item ∧ item.status ≠ .blocked) ∨
      view.ready node = false) →
    ∀ g s, Snap run items done g s → Snap run items (done ++ [node]) g s
  unbuilt : ∀ {run definition items view done node buildErr},
    Snapshot registry run definition items view → Selected definition view done node →
    safeBuildInput node run.input view.output = .error buildErr →
    CallTriple sys I R Gu (Snap run items done) (.setPipelineRunStatus runID run.revision .failed
      ("build node " ++ node.key ++ " input: " ++ buildErr.message))
      fun reply => Ends (.error (joinWith buildErr reply))
  release : ∀ {run definition items view done node input item},
    Snapshot registry run definition items view → Selected definition view done node →
    safeBuildInput node run.input view.output = .ok input →
    view.byNode.lookup node.key = some item →
    CallTriple sys I R Gu (Snap run items done)
      (.releaseExecution item.id input item.availableAt)
      (onReply (fun _ => Snap run items (done ++ [node])) fun err => Ends (.error err))
  create : ∀ {run definition items view done node input},
    Snapshot registry run definition items view → Selected definition view done node →
    safeBuildInput node run.input view.output = .ok input →
    view.byNode.lookup node.key = none →
    CallTriple sys I R Gu (Snap run items done)
      (.createExecution (nodeRequest runID node input))
      (onReply (fun _ => Snap run items (done ++ [node])) fun err => Ends (.error err))
  succeed : ∀ {run definition items view},
    Snapshot registry run definition items view →
    (definition.nodes.isEmpty || view.complete definition) = true →
    CallTriple sys I R Gu (Snap run items definition.nodes)
      (.setPipelineRunStatus runID run.revision .succeeded "") Ends
  running : ∀ {run definition items view},
    Snapshot registry run definition items view →
    (definition.nodes.isEmpty || view.complete definition) = false →
    CallTriple sys I R Gu (Snap run items definition.nodes)
      (.setPipelineRunStatus runID run.revision .running "") Ends
  idle : ∀ {run definition items view}, Snapshot registry run definition items view →
    (definition.nodes.isEmpty || view.complete definition) = false → run.status ≠ .pending →
    ∀ g s, Snap run items definition.nodes g s → Ends (.ok ()) g s

namespace AdvanceRules

variable {S G : Type} {sys : System S G Call Reply} {I : S → Prop} {R Gu : S → S → Prop}
  {registry : Registry} {runID : UUID} (rules : AdvanceRules sys I R Gu registry runID)

include rules

theorem schedule {run : PipelineRun} {items : List Execution} {view : View}
    {definition : CompiledDefinition} (hsnap : Snapshot registry run definition items view)
    (done nodes : List NodeDefinition)
    (hnodes : definition.nodes = done ++ nodes) (created : Bool) :
    Triple sys I R Gu (rules.Snap run items done) (schedule runID run view nodes created)
      (onReply (fun _ => rules.Snap run items definition.nodes)
        fun err => rules.Ends (.error err)) := by
  induction nodes generalizing done created with
  | nil =>
      rw [List.append_nil] at hnodes
      rw [← hnodes]
      exact Triple.done fun _ _ h => h
  | cons node rest ih =>
      have hrest : ∀ created, Triple sys I R Gu (rules.Snap run items (done ++ [node]))
          (Pipeline.schedule runID run view rest created) _ :=
        fun created => ih (done ++ [node]) (by simp [hnodes]) created
      rw [Pipeline.schedule]
      split
      · next hpast =>
        refine (hrest created).of (rules.skip hsnap hnodes (Or.inl ?_))
        simpa [Option.any_eq_true] using hpast
      · next hblocked =>
        split
        · next hready =>
          refine (hrest created).of (rules.skip hsnap hnodes (Or.inr (by simpa using hready)))
        · next hready =>
          have hselected : Selected definition view done node := by
            refine ⟨⟨rest, hnodes⟩, ?_, by simpa using hready⟩
            intro item hitem
            simpa [hitem] using hblocked
          split
          · next buildErr hbuilt =>
            exact Triple.call (rules.unbuilt hsnap hselected hbuilt) fun reply =>
              Triple.done fun _ _ h => h
          · next input hbuilt =>
            split
            · next item hitem =>
              refine Triple.call (rules.release hsnap hselected hbuilt hitem) fun reply => ?_
              cases reply with
              | error err => exact Triple.done fun _ _ h => h
              | ok _ => exact hrest true
            · next hnone =>
              refine Triple.call (rules.create hsnap hselected hbuilt hnone) fun reply => ?_
              cases reply with
              | error err => exact Triple.done fun _ _ h => h
              | ok _ => exact hrest true

theorem conclude {run : PipelineRun} {items : List Execution} {view : View}
    {definition : CompiledDefinition} (hsnap : Snapshot registry run definition items view)
    (created : Bool) :
    Triple sys I R Gu (rules.Snap run items definition.nodes)
      (conclude runID run view definition created) rules.Ends := by
  unfold Pipeline.conclude
  split
  · next hcomplete =>
    exact Triple.call (rules.succeed hsnap hcomplete) fun _ => Triple.done fun _ _ h => h
  · next hopen =>
    have hopen' := Bool.eq_false_iff.mpr hopen
    split
    · exact Triple.call (rules.running hsnap hopen') fun _ => Triple.done fun _ _ h => h
    · next hidle =>
      refine Triple.done (rules.idle hsnap hopen' ?_)
      intro hpending
      simp [hpending] at hidle

/-- One attempt ends as the rules promise. -/
theorem advanceOnce :
    Triple sys I R Gu rules.Start (advanceOnce registry runID) rules.Ends := by
  refine Triple.call rules.get fun reply => ?_
  cases reply with
  | error err => exact Triple.done fun _ _ h => h
  | ok run =>
      dsimp only
      split
      · next hterminal => exact Triple.done fun g s h => rules.stop run g s hterminal h
      · next hopen =>
        have hopen' := Bool.eq_false_iff.mpr hopen
        split
        · next hmissing => exact Triple.done fun g s h => rules.missing run g s hmissing h
        · next definition hfound =>
          refine Triple.call (rules.list run definition hopen' hfound) fun items => ?_
          unfold advanceListed
          split
          · next item hscan =>
            exact Triple.call (rules.failed run definition items item hopen' hfound hscan)
              fun _ => Triple.done fun _ _ h => h
          · next view hscan =>
            have hsnap : Snapshot registry run definition items view := ⟨hopen', hfound, hscan⟩
            refine (rules.schedule hsnap [] definition.nodes rfl false).bind fun result => ?_
            cases result with
            | error err => exact Triple.done fun _ _ h => h
            | ok created => exact rules.conclude hsnap created

/-- Repeated attempts end as one attempt does, if a conflict leaves what an attempt starts from. -/
theorem advance
    (hagain : ∀ err g s, err.is .conflict = true → rules.Ends (.error err) g s → rules.Start g s)
    (hgiveUp : ∀ g s, rules.Start g s →
      rules.Ends (.error (.wrapped ("advance pipeline " ++ uuidString runID) .conflict)) g s) :
    Triple sys I R Gu rules.Start (advance registry runID) rules.Ends := by
  have htries : ∀ tries, Triple sys I R Gu rules.Start (advanceTries registry runID tries)
      rules.Ends := by
    intro tries
    induction tries with
    | zero => exact Triple.done hgiveUp
    | succ tries ih =>
        refine rules.advanceOnce.bind fun result => ?_
        cases result with
        | ok _ => exact Triple.done fun _ _ h => h
        | error err =>
            dsimp only
            split
            · next hconflict => exact ih.of fun g s h => hagain err g s hconflict h
            · exact Triple.done fun _ _ h => h
  exact htries 4

end AdvanceRules

end Ody.Pipeline
