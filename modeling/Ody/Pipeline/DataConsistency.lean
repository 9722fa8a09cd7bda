import Ody.Pipeline.Gating
import Ody.Pipeline.SuccessSoundness

/-!
# The inputs of a succeeded run

`advanceOnce` builds the input of a node from the outputs it listed and stores it
with `CreateExecution` or `ReleaseExecution`. Neither call looks at the revision
of the run, so a restart that falls between the listing and the call leaves the
node with an input built from an output that is then replaced. As long as the
outputs are still the stored ones when the call takes effect, every execution
that is not blocked has the input that its dependencies determine now.
-/

namespace Ody.Pipeline

open Library.Tables Library.Interleaving Memory

/-! ## What a run may do -/

section Conditions

variable (registry : Registry) (runID : UUID)

/-- The restarted execution is terminal and the dependencies of its node succeeded. -/
def RestartEligible (s : MemoryStore) (request : RestartSubgraph) : Prop :=
  ∀ item, Member s request.runID item → item.nodeKey = request.rootNodeKey →
    item.status.isTerminal = true ∧
    ∀ run ∈ s.runs.lookup request.runID, ∀ definition ∈ registry.find run,
      ∀ node ∈ definition.nodes, node.key = item.nodeKey →
        DependenciesSucceeded s request.runID node

/-- Every restart is eligible. -/
def Eligible (w : World) (c : Call) : Prop :=
  ∀ request ∈ restartRequest c, RestartEligible registry w.store request

instance (w : World) (c : Call) : Decidable (Eligible registry w c) :=
  inferInstanceAs (Decidable (∀ request ∈ restartRequest c, ∀ item,
    Member w.store request.runID item → _))

/-- The outputs of the dependencies that had succeeded in a snapshot are stored now. -/
def OutputsKept (snapshot s : MemoryStore) (node : NodeDefinition) : Prop :=
  ∀ item, Member snapshot runID item → item.nodeKey ∈ node.dependencies →
    item.status = .succeeded → ∃ now, Member s runID now ∧ (now.nodeKey = item.nodeKey ∧
      now.status = .succeeded ∧ now.output = item.output)

/-- A call that gives a node its input finds the outputs that the thread listed. -/
def SnapshotKept (snapshot : MemoryStore) (w : World) (c : Call) : Prop :=
  ∀ key ∈ suppliedNode runID w.store c, ∀ run ∈ w.store.runs.lookup runID,
    ∀ definition ∈ registry.find run, ∀ node ∈ definition.nodes, node.key = key →
      OutputsKept runID snapshot w.store node

instance (snapshot s : MemoryStore) (node : NodeDefinition) :
    Decidable (OutputsKept runID snapshot s node) :=
  inferInstanceAs (Decidable (∀ _, Member _ _ _ → _))

instance (snapshot : MemoryStore) (w : World) (c : Call) :
    Decidable (SnapshotKept registry runID snapshot w c) :=
  inferInstanceAs (Decidable (∀ _ ∈ suppliedNode runID w.store c, _))

/-- The store, in the runs whose restarts are eligible. -/
def eligibleSystem : System World Unit Call Reply :=
  { storeSystem with allowed := fun w _ c => Eligible registry w c }

/-- The store, in the runs in which the engine never acts on outputs that were replaced. Each
thread remembers the store of its last listing. -/
def keptSystem : System World MemoryStore Call Reply where
  step := World.Step
  start := newMemoryStore
  observe := lastListing
  allowed := fun w snapshot c => Eligible registry w c ∧ SnapshotKept registry runID snapshot w c

/-- The programs that run at the same time. -/
inductive Participant : Program Call Reply Unit → Prop
  | run (definition : Definition) (input : Except GoError RawMessage)
      (options : List (CreatePipelineRun → CreatePipelineRun)) :
      Participant (run registry definition input options).discard
  | advance (target : UUID) : Participant (advance registry target).discard
  | restart (executionID : UUID) : Participant (restartExecution registry executionID).discard
  | worker (c : Call) (h : workerCall c = true) : Participant (.single c)

end Conditions

/-! ## The invariant -/

section Consistency

variable {registry : Registry} {runID : UUID}

/-- The statuses of an execution that was given its input. -/
def unblocked (status : Status) : Bool := status != .blocked

variable (registry runID) in
/-- The invariant of the interleavings. -/
abbrev InputGated (w : World) : Prop := Gated registry runID unblocked True w

/-- A call that neither starts nor cancels nor deletes executions. -/
structure Passive (c : Call) : Prop where
  quiet : quiet c = true
  cancel : ∀ id reason, c ≠ .cancelExecution id reason
  purge : ∀ before limit, c ≠ .purge before limit

theorem Passive.unblocked_before {env : Env} {s : MemoryStore} {c : Call} {item item' : Execution}
    {evs : List Event} (hc : Passive c) (t : Transition env s c item item' evs)
    (hrun : item.pipelineRunID ≠ none) : unblocked item.status = true := by
  cases t with
  | claim hclaim _ =>
      obtain ⟨-, -, hs | hs | ⟨hs, -⟩, -⟩ := claimable_iff.mp hclaim <;> simp [hs, unblocked]
  | reap hreap =>
      obtain ⟨hs, -⟩ := reapable_iff.mp hreap
      simp [hs, unblocked]
  | heartbeat howned => simp [howned.1, unblocked]
  | succeed howned => simp [howned.1, unblocked]
  | exhaust howned _ => simp [howned.1, unblocked]
  | retry howned _ => simp [howned.1, unblocked]
  | fail howned => simp [howned.1, unblocked]
  | cancel _ => exact absurd rfl (hc.cancel _ _)
  | restart hnone _ => exact absurd hnone hrun
  | reset _ _ => exact absurd hc.quiet (by simp [Pipeline.quiet])
  | release _ => exact absurd hc.quiet (by simp [Pipeline.quiet])

theorem Passive.gated {c : Call} (hc : Passive c) {w : World} {env : Env}
    (h : InputGated registry runID w) (hfresh : env.Fresh w) :
    InputGated registry runID (w.after env c) :=
  h.quiet hfresh hc.quiet fun _ _ _ t hrun _ => hc.unblocked_before t hrun

/-! ## Interference -/

variable (runID) in
/-- What no participant undoes. -/
structure Tolerates (w w' : World) : Prop where
  rely : Rely runID w w'
  listed : ∀ target items, Listed target items w → Listed target items w'

theorem Tolerates.refl (w : World) : Tolerates runID w w := ⟨Rely.refl w, fun _ _ h => h⟩

theorem Tolerates.trans {a b c : World} (ha : a.Known) (hab : Tolerates runID a b)
    (hbc : Tolerates runID b c) : Tolerates runID a c :=
  ⟨hab.rely.trans ha hbc.rely, fun target items h =>
    hbc.listed target items (hab.listed target items h)⟩

theorem tolerates_after {w : World} (hknown : w.Known) {env : Env} (hfresh : env.Fresh w) {c : Call}
    (hpurge : ∀ before limit, c ≠ .purge before limit) : Tolerates runID w (w.after env c) where
  rely := rely_after hknown hfresh c
  listed := fun _ _ h => h.after hknown hfresh hpurge

/-- One call that is not a purge. -/
theorem callTriple_of_inputGated {P : MemoryStore → World → Prop} {c : Call}
    {Q : Reply c → MemoryStore → World → Prop} (hpurge : ∀ before limit, c ≠ .purge before limit)
    (h : ∀ g w w' env, P g w → Tolerates runID w w' → InputGated registry runID w' →
      Eligible registry w' c → SnapshotKept registry runID g w' c → env.Fresh w' →
      InputGated registry runID (w'.after env c) ∧ (Tolerates runID w' (w'.after env c) →
        Q (exec env w'.store c).1 (lastListing w' c g) (w'.after env c))) :
    CallTriple (keptSystem registry runID) (InputGated registry runID) (Tolerates runID)
      (Tolerates runID) P c Q := by
  rintro g w hP w' hrely hgated ⟨heligible, hkept⟩ r w'' ⟨env, hfresh, rfl, rfl⟩
  have hguarantee : Tolerates runID w' (w'.after env c) :=
    tolerates_after hgated.indexed.known hfresh hpurge
  obtain ⟨hgated', hpost⟩ := h g w w' env hP hrely hgated heligible hkept hfresh
  exact ⟨hgated', hguarantee, hpost hguarantee⟩

theorem Passive.triple {P : MemoryStore → World → Prop} {c : Call} (hc : Passive c) :
    CallTriple (keptSystem registry runID) (InputGated registry runID) (Tolerates runID)
      (Tolerates runID) P c fun _ _ _ => True := by
  apply callTriple_of_inputGated hc.purge
  exact fun g w w' env _ _ hgated _ _ hfresh => ⟨hc.gated hgated hfresh, fun _ => trivial⟩

variable (runID) in
/-- What the engine knows after it listed the executions. -/
structure SnapInput (target : UUID) (run : PipelineRun) (items : List Execution)
    (snapshot : MemoryStore) (w : World) : Prop where
  seen : target = runID → SeenRun runID run w
  listed : Listed target items w
  snapshot : ∀ item ∈ items, Member snapshot target item

theorem SnapInput.stable {target : UUID} {run : PipelineRun} {items : List Execution}
    {snapshot : MemoryStore} {w w' : World} (h : SnapInput runID target run items snapshot w)
    (hrely : Tolerates runID w w') : SnapInput runID target run items snapshot w' where
  seen := fun heq => (h.seen heq).stable hrely.rely
  listed := hrely.listed target items h.listed
  snapshot := h.snapshot

/-- The outputs from which the input was built are stored when the call takes effect. -/
theorem SnapInput.supplied {run : PipelineRun} {items : List Execution} {snapshot : MemoryStore}
    {view : View} {node : NodeDefinition} {input : RawMessage} {w : World} {c : Call}
    (h : SnapInput runID runID run items snapshot w)
    (hsched : Schedulable registry run items view node input)
    (hkept : SnapshotKept registry runID snapshot w c)
    (hnode : suppliedNode runID w.store c = some node.key) :
    SuppliedKey registry runID w node.key view.output := by
  intro run' hrun' definition hfound node' hnode' hkey
  have houtputs := hkept node.key hnode run' hrun' definition hfound node' hnode' hkey
  obtain rfl := hsched.node_eq (h.seen rfl) hrun' hfound hnode' hkey
  intro dependency hd
  obtain ⟨item, hl, hs⟩ := View.ready_iff.mp hsched.ready dependency hd
  obtain ⟨hmem, rfl⟩ := hsched.rebuilt.byNode dependency item hl
  obtain ⟨now, hm, hnowKey, hnow, hout⟩ := houtputs item (h.snapshot item hmem) hd hs
  exact ⟨now, hm, hnowKey, hnow, hout.trans (hsched.rebuilt.outputs _ item hl hs).symm⟩

variable (registry runID) in
/-- The rules by which the operations of the engine keep the inputs. -/
def inputRules : EngineRules (keptSystem registry runID) (InputGated registry runID)
    (Tolerates runID) (Tolerates runID) registry where
  Free := Passive
  Seen := fun target run _ w => target = runID → SeenRun runID run w
  Snap := SnapInput runID
  engine := by
    intro c hc
    constructor
    · cases c <;> first | rfl | cases hc
    · rintro id reason rfl
      cases hc
    · rintro before limit rfl
      cases hc
  free := fun c hc => hc.triple
  get := by
    intro target
    have hpassive : Passive (.getPipelineRun target) := ⟨rfl, by simp, by simp⟩
    apply callTriple_of_inputGated hpassive.purge
    intro g w w' env _ _ hgated _ _ hfresh
    refine ⟨hpassive.gated hgated hfresh, ?_⟩
    rintro - run hreply rfl
    exact (readRun_of_get hgated.indexed.known env hreply).seen
  list := by
    intro target run
    have hpassive : Passive (.listRunExecutions target) := ⟨rfl, by simp, by simp⟩
    apply callTriple_of_inputGated hpassive.purge
    intro g w w' env hseen hrely hgated _ _ hfresh
    refine ⟨hpassive.gated hgated hfresh, ?_⟩
    intro hguarantee
    constructor
    · exact fun heq => ((hseen heq).stable hrely.rely).stable hguarantee.rely
    · exact fun item hmem => ⟨item, mem_listRunExecutions.mp hmem, rfl, rfl⟩
    · exact fun item hmem => mem_listRunExecutions.mp hmem
  release := by
    intro target run items view node input item hsched hitem _
    apply callTriple_of_inputGated (by simp)
    intro g w w' env hsnap hrely hgated _ hkept hfresh
    have hnow := hsnap.stable hrely
    refine ⟨?_, fun hguarantee => hnow.stable hguarantee⟩
    apply hgated.release hfresh hsched hitem _ hnow.seen hnow.listed
    rintro rfl now ⟨hl, hrun⟩ hid hkey hblocked
    refine hnow.supplied hsched hkept ?_
    rw [hid] at hl
    simp [suppliedNode, hl, hrun, hblocked, hkey]
  create := by
    intro target run items view node input hsched _
    apply callTriple_of_inputGated (by simp)
    intro g w w' env hsnap hrely hgated _ hkept hfresh
    have hnow := hsnap.stable hrely
    refine ⟨?_, fun hguarantee => hnow.stable hguarantee⟩
    apply hgated.create hfresh hsched hnow.seen
    rintro rfl hnew
    refine hnow.supplied hsched hkept ?_
    rw [suppliedNode, if_pos ⟨rfl, hnew⟩]
    rfl
  succeed := by
    intro target run items view definition _ _ _
    exact Passive.triple ⟨rfl, by simp, by simp⟩
  restart := by
    intro target run definition key hfound _
    apply callTriple_of_inputGated (by simp)
    intro g w w' env hseen hrely hgated heligible _ hfresh
    refine ⟨?_, fun _ => trivial⟩
    apply hgated.restart hfresh rfl
    · rintro rfl run' definition' hrun' hfound'
      rw [(((hseen rfl).stable hrely.rely).run run' hrun').1.find registry, hfound] at hfound'
      cases hfound'
      rfl
    · rintro rfl - item run' definition' node hm hroot hrun' hfound' hnode hkey
      -- a terminal execution was given its input
      have hterminal := (heligible _ rfl item hm hroot).1
      have hunblocked : unblocked item.status = true := by
        cases hs : item.status <;> simp_all [unblocked, Status.isTerminal]
      exact hgated.fed item run' definition' node hm hunblocked hrun' hfound' hnode hkey

theorem Participant.safe {p : Program Call Reply Unit} (h : Participant registry p) :
    Triple (keptSystem registry runID) (InputGated registry runID) (Tolerates runID)
      (Tolerates runID) (fun _ w => InputGated registry runID w) p fun _ _ _ => True := by
  refine Triple.of ?_ fun _ _ _ => trivial
  let rules := inputRules registry runID
  cases h with
  | run definition input options => exact (rules.operations.run definition input options).discard
  | advance target => exact (rules.operations.advance target).discard
  | restart executionID => exact (rules.operations.restartExecution executionID).discard
  | worker c hc =>
      have hpassive : Passive c := by
        constructor
        · cases c <;> first | rfl | cases hc
        · rintro id reason rfl
          cases hc
        · rintro before limit rfl
          cases hc
      exact rules.operations.freeCall hpassive fun _ => OperationRules.ended ()

theorem inputGated_of_reach {w : World} {threads : List (Thread MemoryStore Call Reply Unit)}
    (h : Reach (keptSystem registry runID) World.Initial (Participant registry) w threads) :
    InputGated registry runID w := by
  refine (Reach.safe Tolerates.refl ?_ (fun _ _ h => h) ?_ (fun p hp => hp.safe) h).1
  · exact fun a b c ha _ _ hab hbc => hab.trans ha.indexed.known hbc
  · rintro w ⟨clock, rfl⟩
    exact Gated.init clock

/-- The participants are clients of the store as a whole. -/
theorem Participant.client {p : Program Call Reply Unit} (h : Participant registry p) :
    Client registry runID p := by
  cases h with
  | run definition input options => exact Client.run definition input options
  | advance target => exact Client.advance target
  | restart executionID => exact Client.restart executionID
  | worker c hc =>
      apply Client.call
      cases c <;> trivial

/-! ## Succeeded runs -/

/-- The stored output of a node of the run. -/
def storedOutput (s : MemoryStore) (runID : UUID) (key : String) : RawMessage :=
  ((s.executions.entries.find? fun entry =>
    entry.2.pipelineRunID == some runID && entry.2.nodeKey == key).map (·.2.output)).getD ""

theorem storedOutput_of_member {w : World} (h : Indexed registry runID w) {item : Execution}
    (hm : Member w.store runID item) : storedOutput w.store runID item.nodeKey = item.output := by
  unfold storedOutput
  cases hfind : w.store.executions.entries.find? fun entry =>
      entry.2.pipelineRunID == some runID && entry.2.nodeKey == item.nodeKey with
  | none =>
      have hnone := List.find?_eq_none.mp hfind ⟨item.id, item⟩ (AList.mem_lookup_iff.mp hm.1)
      simp [hm.2] at hnone
  | some entry =>
      obtain ⟨id, other⟩ := entry
      have hmatch := List.find?_some hfind
      have hl := AList.mem_lookup_iff.mpr (List.mem_of_find?_eq_some hfind)
      simp only [Bool.and_eq_true, beq_iff_eq] at hmatch
      have hother : Member w.store runID other := by
        refine ⟨?_, hmatch.1⟩
        rw [w.store.executions_keyed id other hl]
        exact hl
      rw [h.unique hother hm hmatch.2]
      rfl

/-- Every node of the run has an execution, and its stored input is the one to be built from the
outputs that are stored now. -/
def InputsCurrent (registry : Registry) (runID : UUID) (s : MemoryStore) (run : PipelineRun) :
    Prop :=
  ∃ definition ∈ registry.find run, ∀ node ∈ definition.nodes,
    (∃ item, Member s runID item ∧ item.nodeKey = node.key) ∧
    ∀ item, Member s runID item → item.nodeKey = node.key →
      safeBuildInput node run.input (storedOutput s runID) = .ok item.input

/-- In every interleaving in which restarts are eligible and the engine acts only on outputs
that are still stored, the inputs of a succeeded run are those of its outputs. -/
theorem data_consistency {w : World} {threads : List (Thread MemoryStore Call Reply Unit)}
    (h : Reach (keptSystem registry runID) World.Initial (Participant registry) w threads)
    {run : PipelineRun} (hrun : w.store.runs.lookup runID = some run)
    (hs : run.status = .succeeded) : InputsCurrent registry runID w.store run := by
  have hgated := inputGated_of_reach h
  have hsound : Sound registry runID w := by
    have hclient : ∀ p, Participant registry p → Client registry runID p := fun p hp => hp.client
    have hstep : ∀ w c r w', (keptSystem registry runID).step w c r w' →
        storeSystem.step (id w) c r (id w') := fun _ _ _ _ hstep => hstep
    have hproject : ∃ threads', Reach storeSystem World.Initial (Client registry runID) (id w)
        threads' ∧ _ := h.project id (fun _ hw => hw) hclient hstep fun _ _ _ => trivial
    obtain ⟨threads', hreach, -⟩ := hproject
    exact sound_of_reach hreach
  obtain ⟨definition, hfound, hnodes⟩ := hsound.complete run hrun hs
  refine ⟨definition, hfound, ?_⟩
  intro node hnode
  obtain ⟨item, hm, hkey, hsucceeded⟩ := hnodes node hnode
  refine ⟨⟨item, hm, hkey⟩, ?_⟩
  intro other hother hotherKey
  obtain rfl := hgated.indexed.unique hother hm (hotherKey.trans hkey.symm)
  have hunblocked : unblocked other.status = true := by simp [hsucceeded, unblocked]
  obtain ⟨outputs, hsupplied, hbuilt⟩ :=
    hgated.fed other run definition node hm hunblocked hrun hfound hnode hkey.symm
  rw [← hbuilt trivial, safeBuildInput, safeBuildInput, node.buildInput_congr]
  intro dependency hd
  obtain ⟨source, hsource, rfl, -, hout⟩ := hsupplied dependency hd
  rw [storedOutput_of_member hgated.indexed hsource, hout]

end Consistency

/-! ## Two interleavings -/

instance (registry : Registry) (runID : UUID) (s : MemoryStore) (run : PipelineRun) :
    Decidable (InputsCurrent registry runID s run) :=
  inferInstanceAs (Decidable (∃ definition ∈ registry.find run, ∀ node ∈ definition.nodes,
    (∃ item, Member s runID item ∧ item.nodeKey = node.key) ∧
    ∀ item, Member s runID item → item.nodeKey = node.key → _))

/-- Execute the steps with eligible restarts. -/
def eligibleExecution (registry : Registry) :
    Library.Interleaving.Execution (eligibleSystem registry) where
  exec := storeExecution.exec
  ready := fun w _ c => decide (Eligible registry w c)
  allowed := by
    intro w g c h
    have heligible : Eligible registry w c := of_decide_eq_true h
    exact heligible
  step := fun w g c _ => storeExecution.step w g c rfl

/-- Execute the steps that also act on stored outputs only. -/
def keptExecution (registry : Registry) (runID : UUID) :
    Library.Interleaving.Execution (keptSystem registry runID) where
  exec := storeExecution.exec
  ready := fun w snapshot c =>
    decide (Eligible registry w c ∧ SnapshotKept registry runID snapshot w c)
  allowed := by
    intro w snapshot c h
    have hkept : Eligible registry w c ∧ SnapshotKept registry runID snapshot w c :=
      of_decide_eq_true h
    exact hkept
  step := fun w _ c _ => storeExecution.step w () c rfl

/-- The run starts and its first node succeeds with the output `2`. -/
def extracted : List (Move Call Reply Unit) :=
  .spawn (run etlRegistry etl (.ok "1") []).discard :: List.replicate 6 (.step 0) ++
  [.spawn (.single claimAny), .step 1, .spawn (.single (.succeed 2 3 "2")), .step 2]

/-- An advance lists the output `2`; the first node is restarted; the advance creates the second
node; both nodes are delivered, and the first one succeeds with the output `7`. -/
def staleAdvance : List (Move Call Reply Unit) :=
  extracted ++
  [.spawn (advance etlRegistry 1).discard, .step 3, .step 3,
    .spawn (restartExecution etlRegistry 2).discard, .step 4, .step 4, .step 4, .step 3,
    .spawn (.single claimAny), .step 5, .spawn (.single claimAny), .step 6,
    .spawn (.single (.succeed 2 6 "7")), .step 7, .spawn (.single (.succeed 4 5 "3")), .step 8,
    .spawn (advance etlRegistry 1).discard, .step 9, .step 9, .step 9]

theorem extracted_participant : ∀ m ∈ extracted, m.Spawns (Participant etlRegistry) := by
  have hclaim : Participant etlRegistry (.single claimAny) := .worker _ rfl
  have hsucceed : Participant etlRegistry (.single (.succeed 2 3 "2")) := .worker _ rfl
  simp [extracted, Move.Spawns, Participant.run, hclaim, hsucceed]

/-- The run has succeeded with an input that its outputs do not determine. -/
def succeededStale (w : World) : Bool :=
  (w.store.runs.lookup 1).any fun run =>
    run.status == .succeeded && !decide (InputsCurrent etlRegistry 1 w.store run)

/-- The run succeeds although the second node worked on the replaced output. -/
theorem stale_input_of_staleAdvance :
    ∃ w threads run, Reach (eligibleSystem etlRegistry) World.Initial (Participant etlRegistry)
        w threads ∧ w.store.runs.lookup 1 = some run ∧ run.status = .succeeded ∧
      ¬ InputsCurrent etlRegistry 1 w.store run := by
  have hclaim : Participant etlRegistry (.single claimAny) := .worker _ rfl
  have hextract : Participant etlRegistry (.single (.succeed 2 6 "7")) := .worker _ rfl
  have hload : Participant etlRegistry (.single (.succeed 4 5 "3")) := .worker _ rfl
  have hmoves : ∀ m ∈ staleAdvance, m.Spawns (Participant etlRegistry) := by
    refine List.forall_mem_append.mpr ⟨extracted_participant, ?_⟩
    simp [Move.Spawns, Participant.advance, Participant.restart, hclaim, hextract, hload]
  have hends : ((eligibleExecution etlRegistry).drive staleAdvance (World.init 5) []).any
      (fun final => succeededStale final.1) = true := by decide
  obtain ⟨w, threads, hreach, hstale⟩ :=
    (eligibleExecution etlRegistry).drive_reaches hmoves (World.init_initial 5) hends
  simp only [succeededStale, Option.any_eq_true, Bool.and_eq_true, beq_iff_eq, Bool.not_eq_true',
    decide_eq_false_iff_not] at hstale
  obtain ⟨run, hrun, hs, hinputs⟩ := hstale
  exact ⟨w, threads, run, hreach, hrun, hs, hinputs⟩

/-- The same restart between two advances. -/
def freshAdvance : List (Move Call Reply Unit) :=
  extracted ++
  [.spawn (advance etlRegistry 1).discard, .step 3, .step 3, .step 3, .step 3,
    .spawn (.single claimAny), .step 4, .spawn (.single (.succeed 4 5 "3")), .step 5,
    .spawn (restartExecution etlRegistry 2).discard, .step 6, .step 6, .step 6,
    .spawn (.single claimAny), .step 7, .spawn (.single (.succeed 2 6 "7")), .step 8,
    .spawn (advance etlRegistry 1).discard, .step 9, .step 9, .step 9, .step 9,
    .spawn (.single claimAny), .step 10, .spawn (.single (.succeed 4 7 "8")), .step 11,
    .spawn (advance etlRegistry 1).discard, .step 12, .step 12, .step 12]

theorem data_consistency_of_freshAdvance :
    ∃ (w : World) (run : PipelineRun), w.store.runs.lookup 1 = some run ∧
      run.status = .succeeded ∧ InputsCurrent etlRegistry 1 w.store run := by
  have hclaim : Participant etlRegistry (.single claimAny) := .worker _ rfl
  have hextract : Participant etlRegistry (.single (.succeed 2 6 "7")) := .worker _ rfl
  have hload : ∀ token output, Participant etlRegistry (.single (.succeed 4 token output)) :=
    fun _ _ => .worker _ rfl
  have hmoves : ∀ m ∈ freshAdvance, m.Spawns (Participant etlRegistry) := by
    refine List.forall_mem_append.mpr ⟨extracted_participant, ?_⟩
    simp [Move.Spawns, Participant.advance, Participant.restart, hclaim, hextract, hload]
  have hends : ((keptExecution etlRegistry 1).drive freshAdvance (World.init 5) []).any
      (fun final => etlSucceeded final.1) = true := by decide
  obtain ⟨w, threads, hreach, hsucceeded⟩ :=
    (keptExecution etlRegistry 1).drive_reaches hmoves (World.init_initial 5) hends
  obtain ⟨run, hrun, hs⟩ := of_etlSucceeded hsucceeded
  exact ⟨w, run, hrun, hs, data_consistency hreach hrun hs⟩

end Ody.Pipeline
