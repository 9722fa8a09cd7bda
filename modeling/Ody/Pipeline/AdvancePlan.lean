import Ody.Library.Delimited
import Ody.Pipeline.Gating
import Ody.Pipeline.SuccessSoundness

/-!
# What an attempt to advance a run has to do

The nodes that have to be scheduled, their inputs and the status of the run
afterwards are determined by the executions of the run alone. Attempts that list
these executions while others are already at work see some nodes scheduled and
agree on everything else.
-/

namespace Ody.Pipeline

open Library.Tables Library.Interleaving Library.Delimited Memory

/-! ## The plan -/

section Plan

variable (s : MemoryStore) (runID : UUID) (run : PipelineRun) (definition : CompiledDefinition)

/-- An execution of the run failed or was cancelled. -/
def Broken : Prop :=
  ∃ item, Member s runID item ∧ (item.status = .failed ∨ item.status = .cancelled)

/-- The node is to be scheduled: it has no execution or a blocked one, its dependencies succeeded,
and its mapper returns this result. -/
structure Wanted (node : NodeDefinition) (result : Except GoError RawMessage) : Prop where
  declared : node ∈ definition.nodes
  idle : ∀ item, Member s runID item → item.nodeKey = node.key → item.status = .blocked
  builds : ∃ outputs, Supplied s runID node outputs ∧
    safeBuildInput node run.input outputs = result

/-- No node declared before this one fails to build its input. -/
def Reached (node : NodeDefinition) : Prop :=
  ∀ done rest, definition.nodes = done ++ node :: rest →
    ∀ earlier ∈ done, ∀ err, ¬ Wanted s runID run definition earlier (.error err)

/-- The node is scheduled with this input. -/
structure Planned (node : NodeDefinition) (input : RawMessage) : Prop where
  sound : ¬ Broken s runID
  wanted : Wanted s runID run definition node (.ok input)
  reached : Reached s runID run definition node

/-- Every node has a succeeded execution. -/
def AllSucceeded : Prop :=
  ∀ node ∈ definition.nodes, ∃ item, Member s runID item ∧ item.nodeKey = node.key ∧
    item.status = .succeeded

/-- The error text that names a failed or cancelled execution of the run. -/
def NamesFailure (text : String) : Prop :=
  ∃ item, Member s runID item ∧ (item.status = .failed ∨ item.status = .cancelled) ∧
    text = "node " ++ item.nodeKey ++ ": " ++ item.lastError

/-- The status and the error text that the run gets. -/
inductive Outcome : RunStatus → String → Prop
  | failed {text} (h : NamesFailure s runID text) : Outcome .failed text
  | unbuilt {node err} (hsound : ¬ Broken s runID)
      (h : Wanted s runID run definition node (.error err))
      (hreached : Reached s runID run definition node) :
      Outcome .failed ("build node " ++ node.key ++ " input: " ++ err.message)
  | succeeded (hsound : ¬ Broken s runID) (h : AllSucceeded s runID definition) :
      Outcome .succeeded ""
  | running (hsound : ¬ Broken s runID) (h : ¬ AllSucceeded s runID definition)
      (hbuilt : ∀ node err, ¬ Wanted s runID run definition node (.error err)) :
      Outcome .running ""

end Plan

section Determined

variable {registry : Registry} {runID : UUID} {base : World} {run : PipelineRun}
  {definition : CompiledDefinition} {node : NodeDefinition}

theorem NamesFailure.broken {s : MemoryStore} {text : String} (h : NamesFailure s runID text) :
    Broken s runID := by
  obtain ⟨item, hm, hfailed, -⟩ := h
  exact ⟨item, hm, hfailed⟩

/-- The stored outputs of the dependencies are determined. -/
theorem Indexed.supplied_unique (hindexed : Indexed registry runID base)
    {outputs outputs' : String → RawMessage} (h : Supplied base.store runID node outputs)
    (h' : Supplied base.store runID node outputs') :
    ∀ dependency ∈ node.dependencies, outputs dependency = outputs' dependency := by
  intro dependency hd
  obtain ⟨item, hm, hkey, -, hout⟩ := h dependency hd
  obtain ⟨item', hm', hkey', -, hout'⟩ := h' dependency hd
  rw [← hout, ← hout', hindexed.unique hm hm' (hkey.trans hkey'.symm)]

theorem safeBuildInput_congr (initial : RawMessage) {outputs outputs' : String → RawMessage}
    (h : ∀ key ∈ node.dependencies, outputs key = outputs' key) :
    safeBuildInput node initial outputs = safeBuildInput node initial outputs' := by
  unfold safeBuildInput
  rw [node.buildInput_congr initial h]

/-- The input of a node is determined. -/
theorem Wanted.unique (hindexed : Indexed registry runID base)
    {result result' : Except GoError RawMessage}
    (h : Wanted base.store runID run definition node result)
    (h' : Wanted base.store runID run definition node result') : result = result' := by
  obtain ⟨outputs, hsupplied, rfl⟩ := h.builds
  obtain ⟨outputs', hsupplied', rfl⟩ := h'.builds
  exact safeBuildInput_congr _ (hindexed.supplied_unique hsupplied hsupplied')

/-- Of two declared nodes that are both reached, neither fails to build before the other. -/
theorem reached_eq {node' : NodeDefinition} {err err' : GoError}
    (h : Wanted base.store runID run definition node (.error err))
    (h' : Wanted base.store runID run definition node' (.error err'))
    (hreached : Reached base.store runID run definition node)
    (hreached' : Reached base.store runID run definition node') : node = node' := by
  obtain ⟨done, rest, hnodes⟩ := List.append_of_mem h.declared
  have hmem := h'.declared
  rw [hnodes, List.mem_append, List.mem_cons] at hmem
  rcases hmem with hbefore | rfl | hafter
  · exact absurd h' (hreached done rest hnodes node' hbefore err')
  · rfl
  · obtain ⟨middle, last, rfl⟩ := List.append_of_mem hafter
    have hsplit : definition.nodes = (done ++ node :: middle) ++ node' :: last := by
      simp [hnodes]
    exact absurd h (hreached' _ last hsplit node (by simp) err)

/-- A node is reached when those before it build their inputs. -/
theorem reached_of_passed {done rest : List NodeDefinition}
    (hnodes : definition.nodes = done ++ node :: rest)
    (hdone : ∀ earlier ∈ done, ∀ err,
      ¬ Wanted base.store runID run definition earlier (.error err)) :
    Reached base.store runID run definition node := by
  have honce : ∀ pre post, definition.nodes = pre ++ node :: post → node ∉ pre := by
    intro pre post hsplit hmem
    have hnodup := definition.keys_nodup.of_map
    rw [hsplit, List.nodup_middle, List.nodup_cons] at hnodup
    exact hnodup.1 (List.mem_append_left _ hmem)
  intro done' rest' hnodes'
  obtain ⟨rfl, -⟩ := split_unique (honce done rest hnodes) (honce done' rest' hnodes')
    (hnodes.symm.trans hnodes')
  exact hdone

/-- The planned nodes come before one that fails to build its input. -/
theorem Planned.before (hindexed : Indexed registry runID base) {node' : NodeDefinition}
    {input : RawMessage} {err : GoError} {done rest : List NodeDefinition}
    (h : Planned base.store runID run definition node' input)
    (hwanted : Wanted base.store runID run definition node (.error err))
    (hnodes : definition.nodes = done ++ node :: rest) : node' ∈ done := by
  have hmem := h.wanted.declared
  rw [hnodes, List.mem_append, List.mem_cons] at hmem
  rcases hmem with hbefore | rfl | hafter
  · exact hbefore
  · exact absurd (h.wanted.unique hindexed hwanted) (by simp)
  · obtain ⟨middle, last, rfl⟩ := List.append_of_mem hafter
    have hsplit : definition.nodes = (done ++ node :: middle) ++ node' :: last := by
      simp [hnodes]
    exact absurd hwanted (h.reached _ last hsplit node (by simp) err)

/-- A complete run wants no node. -/
theorem AllSucceeded.settled (h : AllSucceeded base.store runID definition)
    {result : Except GoError RawMessage} :
    ¬ Wanted base.store runID run definition node result := by
  intro hwanted
  obtain ⟨item, hm, hkey, hs⟩ := h node hwanted.declared
  rw [hwanted.idle item hm hkey] at hs
  cases hs

/-- The outcome is determined, but for the failed execution that the text names. -/
theorem Outcome.agree (hindexed : Indexed registry runID base) {status status' : RunStatus}
    {text text' : String} (h : Outcome base.store runID run definition status text)
    (h' : Outcome base.store runID run definition status' text') :
    status = status' ∧ (text = text' ∨
      (NamesFailure base.store runID text ∧ NamesFailure base.store runID text')) := by
  cases h with
  | failed hnames =>
      cases h' with
      | failed hnames' => exact ⟨rfl, Or.inr ⟨hnames, hnames'⟩⟩
      | unbuilt hsound _ _ => exact absurd hnames.broken hsound
      | succeeded hsound _ => exact absurd hnames.broken hsound
      | running hsound _ _ => exact absurd hnames.broken hsound
  | unbuilt hsound hwanted hreached =>
      cases h' with
      | failed hnames' => exact absurd hnames'.broken hsound
      | unbuilt _ hwanted' hreached' =>
          obtain rfl := reached_eq hwanted hwanted' hreached hreached'
          cases hwanted.unique hindexed hwanted'
          exact ⟨rfl, Or.inl rfl⟩
      | succeeded _ hall => exact absurd hwanted hall.settled
      | running _ _ hbuilt => exact absurd hwanted (hbuilt _ _)
  | succeeded hsound hall =>
      cases h' with
      | failed hnames' => exact absurd hnames'.broken hsound
      | unbuilt _ hwanted' _ => exact absurd hwanted' hall.settled
      | succeeded _ _ => exact ⟨rfl, Or.inl rfl⟩
      | running _ hopen _ => exact absurd hall hopen
  | running hsound hopen hbuilt =>
      cases h' with
      | failed hnames' => exact absurd hnames'.broken hsound
      | unbuilt _ hwanted' _ => exact absurd hwanted' (hbuilt _ _)
      | succeeded _ hall => exact absurd hall hopen
      | running _ _ _ => exact ⟨rfl, Or.inl rfl⟩

/-- The first node in declaration order without a succeeded execution has everything it depends
on. -/
theorem exists_first_open (h : ¬ AllSucceeded base.store runID definition) :
    ∃ node ∈ definition.nodes, DependenciesSucceeded base.store runID node ∧
      ¬ ∃ item, Member base.store runID item ∧ item.nodeKey = node.key ∧
        item.status = .succeeded := by
  let succeeded (node : NodeDefinition) : Bool := decide (∃ item, Member base.store runID item ∧
    item.nodeKey = node.key ∧ item.status = .succeeded)
  cases hfirst : definition.nodes.find? (!succeeded ·) with
  | none =>
      refine absurd (fun node hnode => ?_) h
      simpa [succeeded] using List.find?_eq_none.mp hfirst node hnode
  | some node =>
      obtain ⟨hopen, done, rest, hnodes, hdone⟩ := List.find?_eq_some_iff_append.mp hfirst
      refine ⟨node, by simp [hnodes], ?_, by simpa [succeeded] using hopen⟩
      have hordered := definition.ordered
      rw [hnodes] at hordered
      intro dependency hd
      rcases hordered.dependencies_before dependency hd with hnone | hbefore
      · cases hnone
      · obtain ⟨earlier, hearlier, rfl⟩ := List.mem_map.mp hbefore
        simpa [succeeded] using hdone earlier hearlier

/-- In a run that goes on, an execution is active or a node is planned. -/
theorem Outcome.active_or_planned {text : String}
    (h : Outcome base.store runID run definition .running text) :
    (∃ item, Member base.store runID item ∧ item.status.isActive = true) ∨
      ∃ node input, Planned base.store runID run definition node input := by
  cases h with
  | running hsound hopen hbuilt =>
      obtain ⟨node, hnode, hdeps, hnot⟩ := exists_first_open hopen
      by_cases hidle : ∀ item, Member base.store runID item → item.nodeKey = node.key →
          item.status = .blocked
      · right
        obtain ⟨outputs, hsupplied⟩ := exists_supplied hdeps
        cases hresult : safeBuildInput node run.input outputs with
        | error err => exact absurd ⟨hnode, hidle, outputs, hsupplied, hresult⟩ (hbuilt node err)
        | ok input =>
            exact ⟨node, input, hsound, ⟨hnode, hidle, outputs, hsupplied, hresult⟩,
              fun _ _ _ earlier _ err => hbuilt earlier err⟩
      · left
        push Not at hidle
        obtain ⟨item, hm, hkey, hblocked⟩ := hidle
        rcases item.status.trichotomy with hs | hs | hs
        · exact absurd hs hblocked
        · exact ⟨item, hm, hs⟩
        · simp only [Status.isTerminal, Bool.or_eq_true, beq_iff_eq] at hs
          rcases hs with (hs | hs) | hs
          · exact absurd ⟨item, hm, hkey, hs⟩ hnot
          · exact absurd ⟨item, hm, Or.inl hs⟩ hsound
          · exact absurd ⟨item, hm, Or.inr hs⟩ hsound

end Determined

/-! ## Listings of a run in progress -/

section Listings

variable (registry : Registry) (runID : UUID) (base : World) (run : PipelineRun)
  (definition : CompiledDefinition)

/-- A listing taken after some of the planned nodes were scheduled. -/
structure Listing (items : List Execution) : Prop where
  origin : ∀ item ∈ items, Member base.store runID item ∨ (item.status = .pending ∧
    ∃ node input, Planned base.store runID run definition node input ∧ item.nodeKey = node.key)
  covers : ∀ item, Member base.store runID item → ∃ listed ∈ items,
    listed.nodeKey = item.nodeKey ∧ (item.status ≠ .blocked → listed = item)
  unique : ∀ item ∈ items, ∀ other ∈ items, item.nodeKey = other.nodeKey → item = other

variable {registry runID base run definition} {items : List Execution} {view : View}

theorem scan_ok {view view' : View} (h : scan view items = .ok view') :
    ∀ item ∈ items, ¬ (item.status = .failed ∨ item.status = .cancelled) := by
  induction items generalizing view with
  | nil => simp
  | cons first rest ih =>
      rw [scan] at h
      split at h
      · cases h
      · next hfine =>
        intro item hmem
        rcases List.mem_cons.mp hmem with rfl | hmem
        · exact hfine
        · exact ih h item hmem

namespace Listing

/-- A resolved execution that is listed was there before. -/
theorem member (h : Listing runID base run definition items) {item : Execution}
    (hmem : item ∈ items) (hs : item.status ≠ .pending) : Member base.store runID item := by
  rcases h.origin item hmem with hm | ⟨hpending, -⟩
  · exact hm
  · exact absurd hpending hs

theorem mem (h : Listing runID base run definition items) {item : Execution}
    (hm : Member base.store runID item) (hs : item.status ≠ .blocked) : item ∈ items := by
  obtain ⟨listed, hmem, -, hsame⟩ := h.covers item hm
  rw [← hsame hs]
  exact hmem

theorem failure (h : Listing runID base run definition items) {item : Execution}
    (hscan : scan ⟨∅, ∅⟩ items = .error item) :
    NamesFailure base.store runID ("node " ++ item.nodeKey ++ ": " ++ item.lastError) := by
  obtain ⟨hmem, hfailed⟩ := scan_error hscan
  refine ⟨item, h.member hmem ?_, hfailed, rfl⟩
  intro hpending
  simp [hpending] at hfailed

theorem keys (h : Listing runID base run definition items)
    (hindexed : Indexed registry runID base)
    (hrun : base.store.runs.lookup runID = some run) (hfound : registry.find run = some definition) :
    ∀ item ∈ items, item.nodeKey ∈ definition.keys := by
  intro item hmem
  rcases h.origin item hmem with hm | ⟨-, node, input, hplanned, hkey⟩
  · exact hindexed.declared item run definition hm hrun hfound
  · rw [hkey]
    exact List.mem_map_of_mem hplanned.wanted.declared

section View

variable (h : Listing runID base run definition items) (hscan : scan ⟨∅, ∅⟩ items = .ok view)

include h hscan

theorem not_broken : ¬ Broken base.store runID := by
  rintro ⟨item, hm, hfailed⟩
  refine scan_ok hscan item (h.mem hm ?_) hfailed
  intro hblocked
  simp [hblocked] at hfailed

theorem byNode_iff {key : String} {item : Execution} :
    view.byNode.lookup key = some item ↔ item ∈ items ∧ item.nodeKey = key := by
  have hview := scan_rebuilt hscan
  constructor
  · exact hview.byNode key item
  · rintro ⟨hmem, rfl⟩
    obtain ⟨listed, hl⟩ := Option.ne_none_iff_exists'.mp (hview.covered item hmem)
    obtain ⟨hlisted, hkey⟩ := hview.byNode _ _ hl
    rw [hl, h.unique listed hlisted item hmem hkey]

/-- The dependencies of a ready node have the outputs of the view. -/
theorem supplied {node : NodeDefinition} (hready : view.ready node = true) :
    Supplied base.store runID node view.output := by
  intro dependency hd
  obtain ⟨item, hl, hs⟩ := View.ready_iff.mp hready dependency hd
  obtain ⟨hmem, hkey⟩ := (h.byNode_iff hscan).mp hl
  exact ⟨item, h.member hmem (by simp [hs]), hkey, hs,
    ((scan_rebuilt hscan).outputs dependency item hl hs).symm⟩

theorem ready {node : NodeDefinition} {outputs : String → RawMessage}
    (hsupplied : Supplied base.store runID node outputs) : view.ready node = true := by
  refine View.ready_iff.mpr fun dependency hd => ?_
  obtain ⟨item, hm, hkey, hs, -⟩ := hsupplied dependency hd
  exact ⟨item, (h.byNode_iff hscan).mpr ⟨h.mem hm (by simp [hs]), hkey⟩, hs⟩

/-- A selected node is wanted, with the input that the attempt builds. -/
theorem wanted {done : List NodeDefinition} {node : NodeDefinition} {input : RawMessage}
    (hinput : input = run.input) (hselected : Selected definition view done node) :
    Wanted base.store runID run definition node (safeBuildInput node input view.output) := by
  obtain ⟨rest, hnodes⟩ := hselected.next
  refine ⟨by simp [hnodes], ?_, view.output, h.supplied hscan hselected.ready, by rw [hinput]⟩
  intro item hm hkey
  by_contra hs
  exact hs (hselected.idle item ((h.byNode_iff hscan).mpr ⟨h.mem hm hs, hkey⟩))

/-- A node that the attempt passes over does not fail to build its input, and is not planned
unless it is scheduled already. -/
theorem skipped (hindexed : Indexed registry runID base) {node : NodeDefinition}
    (hnode : node ∈ definition.nodes)
    (hskip : (∃ item, view.byNode.lookup node.key = some item ∧ item.status ≠ .blocked) ∨
      view.ready node = false) :
    (∀ err, ¬ Wanted base.store runID run definition node (.error err)) ∧
      ∀ input, Planned base.store runID run definition node input →
        ∃ item ∈ items, item.nodeKey = node.key ∧ item.status ≠ .blocked := by
  rcases hskip with ⟨item, hl, hs⟩ | hready
  · obtain ⟨hmem, hkey⟩ := (h.byNode_iff hscan).mp hl
    refine ⟨fun err hwanted => ?_, fun input _ => ⟨item, hmem, hkey, hs⟩⟩
    rcases h.origin item hmem with hm | ⟨-, node', input, hplanned, hkey'⟩
    · exact hs (hwanted.idle item hm hkey)
    · obtain rfl := definition.node_eq hnode hplanned.wanted.declared (hkey.symm.trans hkey')
      exact absurd (hwanted.unique hindexed hplanned.wanted) (by simp)
  · have hnot : ∀ result, ¬ Wanted base.store runID run definition node result := by
      intro result hwanted
      obtain ⟨outputs, hsupplied, -⟩ := hwanted.builds
      exact absurd ((h.ready hscan hsupplied).symm.trans hready) (by simp)
    exact ⟨fun err => hnot _, fun input hplanned => absurd hplanned.wanted (hnot _)⟩

/-- The completion test compares the sizes of two maps. It is passed exactly when every node has
succeeded. -/
theorem complete_iff (hindexed : Indexed registry runID base)
    (hrun : base.store.runs.lookup runID = some run)
    (hfound : registry.find run = some definition) :
    (definition.nodes.isEmpty || view.complete definition) = true ↔
      AllSucceeded base.store runID definition := by
  have hkeys := h.keys hindexed hrun hfound
  constructor
  · intro hcomplete
    obtain ⟨definition', hfound', hall⟩ := complete_of_view (w := base) (scan_rebuilt hscan) hkeys
      hcomplete (fun item hmem hs => h.member hmem (by simp [hs])) hfound
    cases hfound.symm.trans hfound'
    exact hall
  · intro hall
    -- each key of the view is declared, and each declared node is in the view
    have hsucceeded : ∀ node ∈ definition.nodes, ∃ item,
        view.byNode.lookup node.key = some item ∧ item.status = .succeeded := by
      intro node hnode
      obtain ⟨item, hm, hkey, hs⟩ := hall node hnode
      exact ⟨item, (h.byNode_iff hscan).mpr ⟨h.mem hm (by simp [hs]), hkey⟩, hs⟩
    have hperm : view.byNode.keys.Perm definition.keys := by
      rw [List.perm_ext_iff_of_nodup view.byNode.keys_nodup definition.keys_nodup]
      intro key
      rw [← AList.mem_keys, ← AList.lookup_isSome]
      constructor
      · intro hsome
        obtain ⟨item, hl⟩ := Option.isSome_iff_exists.mp hsome
        obtain ⟨hmem, rfl⟩ := (h.byNode_iff hscan).mp hl
        exact hkeys item hmem
      · intro hmem
        obtain ⟨node, hnode, rfl⟩ := List.mem_map.mp hmem
        obtain ⟨item, hl, -⟩ := hsucceeded node hnode
        rw [hl]
        rfl
    rw [Bool.or_eq_true]
    right
    simp only [View.complete, Bool.and_eq_true, beq_iff_eq, List.all_eq_true]
    refine ⟨by rw [hperm.length_eq, CompiledDefinition.keys, List.length_map], ?_⟩
    rintro ⟨key, item⟩ hentry
    have hl : view.byNode.lookup key = some item := AList.mem_lookup_iff.mpr hentry
    obtain ⟨hmem, rfl⟩ := (h.byNode_iff hscan).mp hl
    obtain ⟨node, hnode, hkey⟩ := List.mem_map.mp (hkeys item hmem)
    obtain ⟨item', hl', hs⟩ := hsucceeded node hnode
    rw [hkey, hl] at hl'
    rw [Option.some.inj hl']
    exact hs

end View

end Listing

end Listings

end Ody.Pipeline
