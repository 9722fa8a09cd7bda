import Ody.Pipeline.AdvanceRules

/-!
# Proof rules for the engine

`EngineRules` collects what an invariant has to say about the store calls of the
engine: which of them it allows anywhere, and what the two reads of `advanceOnce`
must establish for the calls that act on them. From these rules every operation
of the engine is safe in every interleaving, so a property of the engine is
proved by giving its rules.
-/

namespace Ody.Pipeline

open Library.Tables Library.Interleaving Memory

/-! ## Descendants -/

/-- The loop of `descendantKeys` over the nodes that are left. -/
structure Descends (root : String) (seen : List String) (nodes : List NodeDefinition)
    (state final : List String × List String × Bool) : Prop where
  same : ∀ key, key ∈ final.1 ↔ key = root ∨ key ∈ final.2.1
  grows : ∀ key ∈ state.2.1, key ∈ final.2.1
  settled : ∀ key ∈ seen, key ∈ final.1 → key ∈ state.1
  closed : ∀ node ∈ nodes, node.key ≠ root → (∃ dependency ∈ node.dependencies,
    dependency ∈ final.1) → node.key ∈ final.2.1
  above : ∀ node ∈ nodes, node.key = root → (∀ key ∈ state.1, key = root) →
    ∀ dependency ∈ node.dependencies, dependency ∉ final.1

/-- One node: it becomes affected, or the affected keys stay as they are. -/
theorem descend_cases (root : String) (state : List String × List String × Bool)
    (node : NodeDefinition) :
    (node.key ≠ root ∧ (∃ dependency ∈ node.dependencies, dependency ∈ state.1) ∧
      (descend root state node).1 = node.key :: state.1 ∧
      (descend root state node).2.1 = state.2.1 ++ [node.key]) ∨
    ((node.key = root ∨ ∀ dependency ∈ node.dependencies, dependency ∉ state.1) ∧
      (descend root state node).1 = state.1 ∧ (descend root state node).2.1 = state.2.1) := by
  by_cases hroot : node.key = root
  · exact Or.inr ⟨Or.inl hroot, by simp [descend, hroot]⟩
  · by_cases hany : ∃ dependency ∈ node.dependencies, dependency ∈ state.1
    · exact Or.inl ⟨hroot, hany, by simp [descend, hroot, hany]⟩
    · exact Or.inr ⟨Or.inr (by simpa using hany), by simp [descend, hroot, hany]⟩

theorem descend_spec (root : String) {seen : List String} (nodes : List NodeDefinition)
    (hordered : Ordered seen nodes) (state : List String × List String × Bool)
    (hstate : ∀ key, key ∈ state.1 ↔ key = root ∨ key ∈ state.2.1) :
    Descends root seen nodes state (nodes.foldl (descend root) state) := by
  induction nodes generalizing seen state with
  | nil => exact ⟨hstate, fun _ h => h, fun _ _ h => h, by simp, by simp⟩
  | cons node rest ih =>
      obtain ⟨-, hnew, hdeps, hrest⟩ := hordered
      have hcases := descend_cases root state node
      have hnext : ∀ key, key ∈ (descend root state node).1 ↔
          key = root ∨ key ∈ (descend root state node).2.1 := by
        intro key
        rcases hcases with ⟨-, -, haffected, hresult⟩ | ⟨-, haffected, hresult⟩
        · rw [haffected, hresult, List.mem_cons, hstate key, List.mem_append, List.mem_singleton]
          tauto
        · rw [haffected, hresult, hstate key]
      obtain ⟨hsame, hgrows, hsettled, hclosed, habove⟩ := ih hrest (descend root state node) hnext
      -- keys declared before this node are not added by it or later
      have hbefore : ∀ key ∈ seen, key ∈ (rest.foldl (descend root) (descend root state node)).1 →
          key ∈ state.1 := by
        intro key hkey hmem
        have hadded := hsettled key (List.mem_cons_of_mem _ hkey) hmem
        rcases hcases with ⟨-, -, haffected, -⟩ | ⟨-, haffected, -⟩ <;> rw [haffected] at hadded
        · rcases List.mem_cons.mp hadded with rfl | hold
          · exact absurd hkey hnew
          · exact hold
        · exact hadded
      refine ⟨hsame, ?_, hbefore, ?_, ?_⟩
      · intro key hmem
        apply hgrows
        rcases hcases with ⟨-, -, -, hresult⟩ | ⟨-, -, hresult⟩ <;> simp [hresult, hmem]
      · rintro other hmem hne ⟨dependency, hd, hin⟩
        rcases List.mem_cons.mp hmem with rfl | hmem
        · rcases hcases with ⟨-, -, -, hresult⟩ | ⟨hroot | hnone, -, -⟩
          · exact hgrows _ (by simp [hresult])
          · exact absurd hroot hne
          · exact absurd (hbefore dependency (hdeps dependency hd) hin) (hnone dependency hd)
        · exact hclosed other hmem hne ⟨dependency, hd, hin⟩
      · intro other hmem hroot honly dependency hd hin
        rcases List.mem_cons.mp hmem with rfl | hmem
        · have hnow := hbefore dependency (hdeps dependency hd) hin
          rw [honly dependency hnow, ← hroot] at hd
          exact hnew (hdeps _ hd)
        · -- the root is declared later, so this node does not depend on it
          have hrootNew := (hrest.keys_fresh other hmem).2
          rw [hroot] at hrootNew
          rcases hcases with ⟨-, ⟨key, hkey, hmem'⟩, -, -⟩ | ⟨-, haffected, -⟩
          · rw [honly key hmem'] at hkey
            exact hrootNew (List.mem_cons_of_mem _ (hdeps root hkey))
          · exact habove other hmem hroot (haffected ▸ honly) dependency hd hin

/-- The keys that a restart of the root affects. -/
def restartKeys (definition : CompiledDefinition) (root : String) : List String :=
  root :: (descendantKeys definition root).1

/-- A node that depends on an affected one is affected. -/
theorem restartKeys_closed {definition : CompiledDefinition} {root : String}
    {node : NodeDefinition} (hnode : node ∈ definition.nodes) {dependency : String}
    (hd : dependency ∈ node.dependencies) (h : dependency ∈ restartKeys definition root) :
    node.key ∈ restartKeys definition root := by
  have hspec := descend_spec root definition.nodes definition.ordered ([root], [], false) (by simp)
  by_cases hroot : node.key = root
  · simp [restartKeys, hroot]
  · apply List.mem_cons_of_mem
    refine hspec.closed node hnode hroot ⟨dependency, hd, ?_⟩
    exact (hspec.same dependency).mpr (List.mem_cons.mp h)

/-- The root depends on no affected node. -/
theorem restartKeys_above {definition : CompiledDefinition} {node : NodeDefinition}
    (hnode : node ∈ definition.nodes) {dependency : String}
    (hd : dependency ∈ node.dependencies) : dependency ∉ restartKeys definition node.key := by
  have hspec := descend_spec node.key definition.nodes definition.ordered ([node.key], [], false)
    (by simp)
  intro h
  exact hspec.above node hnode rfl (by simp) dependency hd
    ((hspec.same dependency).mpr (List.mem_cons.mp h))

/-! ## Operations around `Advance` -/

/-- The calls by which the engine reads, creates a run or restarts a standalone execution. -/
def preparatory : Call → Bool
  | .getExecution _ => true
  | .listPipelineRuns _ => true
  | .createPipelineRun _ => true
  | .getPipelineRun _ => true
  | .listRunExecutions _ => true
  | .restartExecution _ _ => true
  | _ => false

/-- What an invariant says about the operations that advance runs, given that `Advance` is safe.
`Seen` holds after the run was read. -/
structure OperationRules {S G : Type} (sys : System S G Call Reply) (I : S → Prop)
    (R Gu : S → S → Prop) (registry : Registry) where
  Free : Call → Prop
  Seen : UUID → PipelineRun → G → S → Prop
  preparatory : ∀ c, preparatory c = true → Free c
  free : ∀ c, Free c → CallTriple sys I R Gu (fun _ _ => True) c fun _ _ _ => True
  get : ∀ runID, CallTriple sys I R Gu (fun _ _ => True) (.getPipelineRun runID)
    fun (reply : Except GoError PipelineRun) g s => ∀ run, reply = .ok run → Seen runID run g s
  restart : ∀ runID run definition key, registry.find run = some definition →
    (descendantKeys definition key).2 = true →
      CallTriple sys I R Gu (Seen runID run)
        (.restartPipelineSubgraph ⟨runID, key, (descendantKeys definition key).1, zeroTime⟩)
        fun _ _ _ => True
  advance : ∀ runID, Triple sys I R Gu (fun _ _ => True) (advance registry runID)
    fun _ _ _ => True

namespace OperationRules

variable {S G : Type} {sys : System S G Call Reply} {I : S → Prop} {R Gu : S → S → Prop}
  {registry : Registry}

/-- The end of a program that promises nothing. -/
theorem ended {α : Type} {P : G → S → Prop} (a : α) :
    Triple sys I R Gu P (.done a) fun _ _ _ => True := Triple.done fun _ _ _ => trivial

variable (rules : OperationRules sys I R Gu registry)

include rules

/-- A call that needs no preparation, issued anywhere. -/
theorem freeCall {α : Type} {P : G → S → Prop} {c : Call} {next : Reply c → Program Call Reply α}
    {Q : α → G → S → Prop} (hc : rules.Free c)
    (hnext : ∀ r, Triple sys I R Gu (fun _ _ => True) (next r) Q) :
    Triple sys I R Gu P (.call c next) Q :=
  (Triple.call (rules.free c hc) hnext).of fun _ _ _ => trivial

theorem prepare {α : Type} {P : G → S → Prop} {c : Call} {next : Reply c → Program Call Reply α}
    {Q : α → G → S → Prop} (hc : Pipeline.preparatory c = true)
    (hnext : ∀ r, Triple sys I R Gu (fun _ _ => True) (next r) Q) :
    Triple sys I R Gu P (.call c next) Q :=
  rules.freeCall (rules.preparatory c hc) hnext

theorem reconcileRuns (runs : List PipelineRun) (failures : List GoError) :
    Triple sys I R Gu (fun _ _ => True) (reconcileRuns registry runs failures)
      fun _ _ _ => True := by
  induction runs generalizing failures with
  | nil => exact ended _
  | cons run rest ih =>
      refine (rules.advance run.id).bind fun result => ?_
      cases result with
      | ok _ => exact ih failures
      | error err => exact ih _

theorem reconcile :
    Triple sys I R Gu (fun _ _ => True) (reconcile registry) fun _ _ _ => True :=
  rules.prepare rfl fun runs => rules.reconcileRuns runs []

theorem cancelItems (hcancel : ∀ id reason, rules.Free (.cancelExecution id reason))
    (reason : String) (items : List Execution) :
    Triple sys I R Gu (fun _ _ => True) (cancelItems reason items) fun _ _ _ => True := by
  induction items with
  | nil => exact ended _
  | cons item rest ih =>
      rw [Pipeline.cancelItems]
      split
      · refine rules.freeCall (hcancel item.id reason) fun reply => ?_
        cases reply with
        | error err => exact ended _
        | ok _ => exact ih
      · exact ih

theorem cancel (hcancel : ∀ id reason, rules.Free (.cancelExecution id reason))
    (hmark : ∀ runID revision reason,
      rules.Free (.setPipelineRunStatus runID revision .cancelled reason))
    (runID : UUID) (reason : String) :
    Triple sys I R Gu (fun _ _ => True) (cancel runID reason) fun _ _ _ => True := by
  refine rules.prepare rfl fun reply => ?_
  cases reply with
  | error err => exact ended _
  | ok run =>
      refine rules.prepare rfl fun items => ?_
      refine (rules.cancelItems hcancel reason items).bind fun result => ?_
      cases result with
      | error err => exact ended _
      | ok _ => exact rules.freeCall (hmark runID run.revision reason) fun _ => ended _

theorem restartExecution (executionID : UUID) :
    Triple sys I R Gu (fun _ _ => True) (restartExecution registry executionID)
      fun _ _ _ => True := by
  refine rules.prepare rfl fun reply => ?_
  cases reply with
  | error err => exact ended _
  | ok item =>
      dsimp only
      split
      · exact rules.prepare rfl fun _ => ended _
      · next runID _ =>
        refine Triple.call (rules.get runID) fun reply => ?_
        cases reply with
        | error err => exact ended _
        | ok run =>
            dsimp only
            split
            · exact ended _
            · next definition hfound =>
              split
              · next hdeclared =>
                refine Triple.of (Triple.call (rules.restart runID run definition item.nodeKey
                  hfound hdeclared) fun reply => ?_) fun g s h => h run rfl
                cases reply with
                | error err => exact ended _
                | ok restarted =>
                    refine (rules.advance runID).bind fun result => ?_
                    cases result with
                    | error err => exact ended _
                    | ok _ => exact ended _
              · exact ended _

theorem run (definition : Definition) (input : Except GoError RawMessage)
    (options : List (CreatePipelineRun → CreatePipelineRun)) :
    Triple sys I R Gu (fun _ _ => True) (run registry definition input options)
      fun _ _ _ => True := by
  unfold Pipeline.run
  split
  · exact ended _
  · split
    · split
      · exact ended _
      · refine rules.prepare rfl fun created => ?_
        refine (rules.advance created.id).bind fun result => ?_
        cases result with
        | error err => exact ended _
        | ok _ => exact rules.prepare rfl fun _ => ended _
    · exact ended _

end OperationRules

/-! ## The rules of the engine -/

/-- The calls of the engine that need no preparation. -/
def engineCall : Call → Bool
  | .getExecution _ => true
  | .listPipelineRuns _ => true
  | .createPipelineRun _ => true
  | .getPipelineRun _ => true
  | .listRunExecutions _ => true
  | .restartExecution _ _ => true
  | .setPipelineRunStatus _ _ status _ => status != .succeeded
  | _ => false

/-- What an invariant says about the store calls of the engine. `Seen` holds after the run
was read, `Snap` after its executions were listed. -/
structure EngineRules {S G : Type} (sys : System S G Call Reply) (I : S → Prop)
    (R Gu : S → S → Prop) (registry : Registry) where
  Free : Call → Prop
  Seen : UUID → PipelineRun → G → S → Prop
  Snap : UUID → PipelineRun → List Execution → G → S → Prop
  engine : ∀ c, engineCall c = true → Free c
  free : ∀ c, Free c → CallTriple sys I R Gu (fun _ _ => True) c fun _ _ _ => True
  get : ∀ runID, CallTriple sys I R Gu (fun _ _ => True) (.getPipelineRun runID)
    fun (reply : Except GoError PipelineRun) g s => ∀ run, reply = .ok run → Seen runID run g s
  list : ∀ runID run, CallTriple sys I R Gu (Seen runID run) (.listRunExecutions runID)
    fun (items : List Execution) g s => Snap runID run items g s
  release : ∀ runID run items view node input item,
    Schedulable registry run items view node input →
    view.byNode.lookup node.key = some item → item.status = .blocked →
      CallTriple sys I R Gu (Snap runID run items)
        (.releaseExecution item.id input item.availableAt) fun _ => Snap runID run items
  create : ∀ runID run items view node input,
    Schedulable registry run items view node input → view.byNode.lookup node.key = none →
      CallTriple sys I R Gu (Snap runID run items)
        (.createExecution (nodeRequest runID node input)) fun _ => Snap runID run items
  succeed : ∀ runID run items view definition, Rebuilt items view →
    registry.find run = some definition →
    (definition.nodes.isEmpty || view.complete definition) = true →
      CallTriple sys I R Gu (Snap runID run items)
        (.setPipelineRunStatus runID run.revision .succeeded "") fun _ _ _ => True
  restart : ∀ runID run definition key, registry.find run = some definition →
    (descendantKeys definition key).2 = true →
      CallTriple sys I R Gu (Seen runID run)
        (.restartPipelineSubgraph ⟨runID, key, (descendantKeys definition key).1, zeroTime⟩)
        fun _ _ _ => True

namespace EngineRules

variable {S G : Type} {sys : System S G Call Reply} {I : S → Prop} {R Gu : S → S → Prop}
  {registry : Registry} (rules : EngineRules sys I R Gu registry)

include rules

/-- A mark other than success, issued anywhere. -/
theorem markTriple {P : G → S → Prop} {runID : UUID} {revision : Nat} {status : RunStatus}
    {text : String} (hs : status ≠ .succeeded) :
    CallTriple sys I R Gu P (.setPipelineRunStatus runID revision status text)
      fun _ _ _ => True :=
  (rules.free _ (rules.engine _ (by simpa [engineCall] using hs))).of fun _ _ _ => trivial

/-- The rules seen from one attempt to advance a run, which promises nothing. -/
def advancing (runID : UUID) : AdvanceRules sys I R Gu registry runID where
  Start := fun _ _ => True
  Seen := rules.Seen runID
  Snap := fun run items _ => rules.Snap runID run items
  Ends := fun _ _ _ => True
  get := (rules.get runID).weaken fun reply g s h => by
    cases reply with
    | error err => trivial
    | ok run => exact h run rfl
  stop := fun _ _ _ _ _ => trivial
  missing := fun _ _ _ _ _ => trivial
  list := fun run _ _ _ => rules.list runID run
  failed := fun _ _ _ _ _ _ _ => rules.markTriple (by simp)
  skip := fun _ _ _ _ _ h => h
  unbuilt := fun _ _ _ => rules.markTriple (by simp)
  release := by
    intro run definition items view done node input item hsnap hselected hbuilt hitem
    refine (rules.release runID run items view node input item (hsnap.schedulable hselected hbuilt)
      hitem (hselected.idle item hitem)).weaken fun reply g s h => ?_
    cases reply with
    | error err => trivial
    | ok _ => exact h
  create := by
    intro run definition items view done node input hsnap hselected hbuilt hnone
    refine (rules.create runID run items view node input (hsnap.schedulable hselected hbuilt)
      hnone).weaken fun reply g s h => ?_
    cases reply with
    | error err => trivial
    | ok _ => exact h
  succeed := fun hsnap hcomplete =>
    rules.succeed runID _ _ _ _ (scan_rebuilt hsnap.scanned) hsnap.found hcomplete
  running := fun _ _ => rules.markTriple (by simp)
  idle := fun _ _ _ _ _ _ => trivial

/-- The operations are safe because an attempt to advance a run is. -/
def operations : OperationRules sys I R Gu registry where
  Free := rules.Free
  Seen := rules.Seen
  preparatory := by
    intro c hc
    apply rules.engine
    cases c <;> first | rfl | cases hc
  free := rules.free
  get := rules.get
  restart := rules.restart
  advance := fun runID =>
    (rules.advancing runID).advance (fun _ _ _ _ _ => trivial) fun _ _ _ => trivial

theorem cancel (hcancel : ∀ id reason, rules.Free (.cancelExecution id reason)) (runID : UUID)
    (reason : String) :
    Triple sys I R Gu (fun _ _ => True) (cancel runID reason) fun _ _ _ => True :=
  rules.operations.cancel hcancel (fun _ _ _ => rules.engine _ rfl) runID reason

end EngineRules

end Ody.Pipeline
