import Ody.Pipeline.Gating
import Ody.Pipeline.SuccessSoundness

/-!
# Active executions and their dependencies

`advanceOnce` creates or releases an execution only when the dependencies of its
node have succeeded. `RestartPipelineSubgraph` makes its root pending without
looking at the dependencies of the root. When operations run one after the other,
the restarts are the only way to make an execution active too early: if each of
them finds the dependencies of its root succeeded, so does every active
execution in every state.
-/

namespace Ody.Pipeline

open Library.Tables Library.Interleaving Memory

section Gating

variable (registry : Registry)

/-- The restart finds the dependencies of its root succeeded, or is refused because an execution
it affects is active. -/
def RestartGuarded (s : MemoryStore) (request : RestartSubgraph) : Prop :=
  (∃ item, Member s request.runID item ∧
    (affected request item = true ∧ item.status.isActive = true)) ∨
  ∀ run ∈ s.runs.lookup request.runID, ∀ definition ∈ registry.find run,
    ∀ node ∈ definition.nodes, node.key = request.rootNodeKey →
      DependenciesSucceeded s request.runID node

instance (s : MemoryStore) (request : RestartSubgraph) :
    Decidable (RestartGuarded registry s request) := inferInstanceAs (Decidable (_ ∨ _))

/-- A restart is guarded; other calls are free. -/
def Guarded (w : World) (c : Call) : Prop :=
  ∀ request ∈ restartRequest c, RestartGuarded registry w.store request

instance (w : World) (c : Call) : Decidable (Guarded registry w c) :=
  inferInstanceAs (Decidable (∀ _ ∈ restartRequest c, _))

/-- The store, in the runs whose restarts are guarded. -/
def guardedSystem : System World Unit Call Reply :=
  { storeSystem with allowed := fun w _ c => Guarded registry w c }

/-- The operations that follow each other. -/
inductive Operator : Program Call Reply Unit → Prop
  | run (definition : Definition) (input : Except GoError RawMessage)
      (options : List (CreatePipelineRun → CreatePipelineRun)) :
      Operator (run registry definition input options).discard
  | advance (target : UUID) : Operator (advance registry target).discard
  | cancel (target : UUID) (reason : String) : Operator (cancel target reason).discard
  | restart (executionID : UUID) : Operator (restartExecution registry executionID).discard
  | cancelExecution (id : UUID) (reason : String) : Operator (.single (.cancelExecution id reason))
  | worker (c : Call) (h : workerCall c = true) : Operator (.single c)

variable {registry} {runID : UUID}

variable (registry runID) in
/-- The invariant of the sequences. -/
abbrev ActiveGated (w : World) : Prop := Gated registry runID Status.isActive False w

/-- What one call does when no other client takes a step. -/
theorem callTriple_of_gated {P : Unit → World → Prop} {c : Call}
    {Q : Reply c → Unit → World → Prop}
    (h : ∀ w env, P () w → ActiveGated registry runID w → Guarded registry w c → env.Fresh w →
      ActiveGated registry runID (w.after env c) ∧
        Q (exec env w.store c).1 () (w.after env c)) :
    CallTriple (guardedSystem registry) (ActiveGated registry runID) Eq (fun _ _ => True) P c Q := by
  rintro ⟨⟩ w hP _ rfl hgated hallowed r w' ⟨env, hfresh, rfl, rfl⟩
  obtain ⟨hgated', hQ⟩ := h w env hP hgated hallowed hfresh
  exact ⟨hgated', trivial, hQ⟩

theorem quiet_gated {w : World} {env : Env} {c : Call} (hquiet : quiet c = true)
    (h : ActiveGated registry runID w) (hfresh : env.Fresh w) :
    ActiveGated registry runID (w.after env c) :=
  h.quiet hfresh hquiet fun _ _ _ t hrun hs => active_before hquiet t hrun hs

variable (runID) in
/-- What the engine knows after it listed the executions. -/
structure SnapGate (target : UUID) (run : PipelineRun) (items : List Execution) (w : World) :
    Prop where
  seen : target = runID → SeenRun runID run w
  listed : Listed target items w
  current : target = runID → Current runID items w

theorem SnapGate.after {target : UUID} {run : PipelineRun} {items : List Execution} {w : World}
    (h : SnapGate runID target run items w) (hknown : w.Known) {env : Env} (hfresh : env.Fresh w)
    {c : Call} (hpurge : ∀ before limit, c ≠ .purge before limit)
    (hrestart : ∀ request, c ≠ .restartPipelineSubgraph request) :
    SnapGate runID target run items (w.after env c) where
  seen := fun heq => (h.seen heq).stable (rely_after hknown hfresh c)
  listed := h.listed.after hknown hfresh hpurge
  current := fun heq => (h.current heq).after hknown hfresh hpurge
    fun request hc => absurd hc (hrestart request)

variable (registry runID) in
/-- The rules by which every operation of the engine keeps the gate. -/
def gatedRules : EngineRules (guardedSystem registry) (ActiveGated registry runID) Eq
    (fun _ _ => True) registry where
  Free := fun c => quiet c = true
  Seen := fun target run _ w => target = runID → SeenRun runID run w
  Snap := fun target run items _ w => SnapGate runID target run items w
  engine := by
    intro c hc
    cases c <;> first | rfl | cases hc
  free := by
    intro c hc
    apply callTriple_of_gated
    exact fun w env _ hgated _ hfresh => ⟨quiet_gated hc hgated hfresh, trivial⟩
  get := by
    intro target
    apply callTriple_of_gated
    intro w env _ hgated _ hfresh
    refine ⟨quiet_gated rfl hgated hfresh, ?_⟩
    rintro run hreply rfl
    exact (readRun_of_get hgated.indexed.known env hreply).seen
  list := by
    intro target run
    apply callTriple_of_gated
    intro w env hseen hgated _ hfresh
    refine ⟨quiet_gated rfl hgated hfresh, ?_, ?_, ?_⟩
    · exact fun heq => (hseen heq).stable (rely_after hgated.indexed.known hfresh _)
    · exact fun item hmem => ⟨item, mem_listRunExecutions.mp hmem, rfl, rfl⟩
    · rintro rfl item hmem -
      exact mem_listRunExecutions.mp hmem
  release := by
    intro target run items view node input item hsched hitem _
    apply callTriple_of_gated
    intro w env hsnap hgated _ hfresh
    constructor
    · apply hgated.release hfresh hsched hitem _ hsnap.seen hsnap.listed
      intro heq now _ _ _ _
      exact suppliedKey_of_current hsched (hsnap.seen heq) (hsnap.current heq)
    · exact hsnap.after hgated.indexed.known hfresh (by simp) (by simp)
  create := by
    intro target run items view node input hsched _
    apply callTriple_of_gated
    intro w env hsnap hgated _ hfresh
    constructor
    · apply hgated.create hfresh hsched hsnap.seen
      exact fun heq _ => suppliedKey_of_current hsched (hsnap.seen heq) (hsnap.current heq)
    · exact hsnap.after hgated.indexed.known hfresh (by simp) (by simp)
  succeed := by
    intro target run items view definition _ _ _
    apply callTriple_of_gated
    exact fun w env _ hgated _ hfresh => ⟨quiet_gated rfl hgated hfresh, trivial⟩
  restart := by
    intro target run definition key hfound _
    apply callTriple_of_gated
    intro w env hseen hgated hguarded hfresh
    refine ⟨?_, trivial⟩
    apply hgated.restart hfresh rfl
    · rintro rfl run' definition' hrun' hfound'
      rw [((hseen rfl).run run' hrun').1.find registry, hfound] at hfound'
      cases hfound'
      rfl
    · rintro rfl hidle item run' definition' node hm hroot hrun' hfound' hnode hkey
      rw [fed_unchecked_iff]
      rcases hguarded _ rfl with ⟨other, hother, haffected, hactive⟩ | hready
      · rw [hidle other hother haffected] at hactive
        cases hactive
      · exact hready run' hrun' definition' hfound' node hnode (hkey.trans hroot)

theorem Operator.safe {p : Program Call Reply Unit} (h : Operator registry p) :
    Triple (guardedSystem registry) (ActiveGated registry runID) Eq (fun _ _ => True)
      (fun _ w => ActiveGated registry runID w) p fun _ _ _ => True := by
  refine Triple.of ?_ fun _ _ _ => trivial
  let rules := gatedRules registry runID
  cases h with
  | run definition input options => exact (rules.operations.run definition input options).discard
  | advance target => exact (rules.operations.advance target).discard
  | cancel target reason =>
      exact (rules.cancel (fun _ _ => rfl) target reason).discard
  | restart executionID => exact (rules.operations.restartExecution executionID).discard
  | cancelExecution id reason =>
      exact rules.operations.freeCall rfl fun _ => OperationRules.ended ()
  | worker c hc =>
      have hquiet : quiet c = true := by cases c <;> first | rfl | cases hc
      exact rules.operations.freeCall hquiet fun _ => OperationRules.ended ()

/-- In every state of every sequence of operations whose restarts find the dependencies of their
root succeeded, each pending, retried or running execution of a node has the dependencies of the
node succeeded. -/
theorem dependency_gating {w : World} {p : Program Call Reply Unit}
    (h : Sequence (guardedSystem registry) World.Initial (Operator registry) w () p)
    {item : Execution} (hm : Member w.store runID item) (hactive : item.status.isActive = true)
    {run : PipelineRun} (hrun : w.store.runs.lookup runID = some run)
    {definition : CompiledDefinition} (hfound : registry.find run = some definition)
    {node : NodeDefinition} (hnode : node ∈ definition.nodes) (hkey : node.key = item.nodeKey) :
    DependenciesSucceeded w.store runID node := by
  have hgated : ActiveGated registry runID w := by
    refine (Sequence.safe ?_ (fun p hp => hp.safe) h).1
    rintro w ⟨clock, rfl⟩
    exact Gated.init clock
  rw [← fed_unchecked_iff]
  exact hgated.fed item run definition node hm hactive hrun hfound hnode hkey

end Gating

/-! ## Two sequences -/

/-- Execute the guarded steps of the store. -/
def guardedExecution (registry : Registry) :
    Library.Interleaving.Execution (guardedSystem registry) where
  exec := storeExecution.exec
  ready := fun w _ c => decide (Guarded registry w c)
  allowed := by
    intro w g c h
    have hguarded : Guarded registry w c := of_decide_eq_true h
    exact hguarded
  step := fun w g c _ => storeExecution.step w g c rfl

/-- The first node succeeds, the second is cancelled while it is pending, and the first is
restarted: it is pending and the second blocked. -/
def restartedFirst : List (Program Call Reply Unit) :=
  [(run etlRegistry etl (.ok "1") []).discard, .single claimAny, .single (.succeed 2 3 "2"),
    (advance etlRegistry 1).discard, .single (.cancelExecution 4 ""),
    (restartExecution etlRegistry 2).discard]

theorem restartedFirst_operator : ∀ p ∈ restartedFirst, Operator etlRegistry p := by
  have hclaim : Operator etlRegistry (.single claimAny) := .worker _ rfl
  have hsucceed : Operator etlRegistry (.single (.succeed 2 3 "2")) := .worker _ rfl
  have hcancel : Operator etlRegistry (.single (.cancelExecution 4 "")) := .cancelExecution 4 ""
  simp [restartedFirst, Operator.run, Operator.advance, Operator.restart, hclaim, hsucceed, hcancel]

/-- A node of the run has an active execution whose dependencies have not all succeeded. -/
def ActiveTooEarly (registry : Registry) (runID : UUID) (w : World) : Prop :=
  ∃ run ∈ w.store.runs.lookup runID, ∃ definition ∈ registry.find run,
    ∃ node ∈ definition.nodes, (∃ item, Member w.store runID item ∧
      (item.status.isActive = true ∧ node.key = item.nodeKey)) ∧
      ¬ DependenciesSucceeded w.store runID node

instance (registry : Registry) (runID : UUID) (w : World) :
    Decidable (ActiveTooEarly registry runID w) :=
  inferInstanceAs (Decidable (∃ _ ∈ w.store.runs.lookup runID, _))

/-- Without the condition on restarts: the second node is restarted while the first, which it
depends on, is pending again. Both are pending then. -/
theorem active_too_early_of_restarts :
    ∃ w, Sequence storeSystem World.Initial (Operator etlRegistry) w () (.done ()) ∧
      ActiveTooEarly etlRegistry 1 w := by
  have hoperator : ∀ p ∈ restartedFirst ++ [(restartExecution etlRegistry 4).discard],
      Operator etlRegistry p := by
    intro p hp
    rcases List.mem_append.mp hp with hold | hlast
    · exact restartedFirst_operator p hold
    · rw [List.mem_singleton.mp hlast]
      exact Operator.restart 4
  have hends : (storeExecution.runAll
      (restartedFirst ++ [(restartExecution etlRegistry 4).discard]) (World.init 5)).any
      (fun w => decide (ActiveTooEarly etlRegistry 1 w)) = true := by decide
  obtain ⟨w, ⟨⟩, ⟨⟩, hsequence, hearly⟩ :=
    storeExecution.runAll_reaches hoperator (World.init_initial 5) hends
  exact ⟨w, hsequence, of_decide_eq_true hearly⟩

/-- The first node succeeds again and the second is released. -/
theorem dependency_gating_of_restartedFirst :
    ∃ (w : World) (item : Execution) (node : NodeDefinition), Member w.store 1 item ∧
      item.status.isActive = true ∧ node.key = item.nodeKey ∧ node.dependencies = ["extract"] ∧
      DependenciesSucceeded w.store 1 node := by
  have hoperator : ∀ p ∈ restartedFirst ++ [.single claimAny, .single (.succeed 2 5 "7"),
      (advance etlRegistry 1).discard], Operator etlRegistry p := by
    have hclaim : Operator etlRegistry (.single claimAny) := .worker _ rfl
    have hsucceed : Operator etlRegistry (.single (.succeed 2 5 "7")) := .worker _ rfl
    intro p hp
    rcases List.mem_append.mp hp with hold | hlast
    · exact restartedFirst_operator p hold
    · simp only [List.mem_cons, List.not_mem_nil, or_false] at hlast
      rcases hlast with rfl | rfl | rfl
      · exact hclaim
      · exact hsucceed
      · exact Operator.advance 1
  have hends : ((guardedExecution etlRegistry).runAll (restartedFirst ++
      [.single claimAny, .single (.succeed 2 5 "7"), (advance etlRegistry 1).discard])
      (World.init 5)).any (fun w => decide (∃ run ∈ w.store.runs.lookup 1,
        ∃ definition ∈ etlRegistry.find run, ∃ node ∈ definition.nodes,
          node.dependencies = ["extract"] ∧ ∃ item, Member w.store 1 item ∧
            (item.status.isActive = true ∧ node.key = item.nodeKey))) = true := by decide
  obtain ⟨w, ⟨⟩, ⟨⟩, hsequence, hactive⟩ :=
    (guardedExecution etlRegistry).runAll_reaches hoperator (World.init_initial 5) hends
  obtain ⟨run, hrun, definition, hfound, node, hnode, hdependencies, item, hm, hs, hkey⟩ :=
    of_decide_eq_true hactive
  exact ⟨w, item, node, hm, hs, hkey, hdependencies,
    dependency_gating hsequence hm hs hrun hfound hnode hkey⟩

end Ody.Pipeline
