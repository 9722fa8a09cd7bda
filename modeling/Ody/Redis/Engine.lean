import Ody.Pipeline.SubgraphRestarts
import Ody.Redis.CoordinationRules

/-!
# The pipeline engine over the Redis store

The engine takes any store. Over the Redis store each of its calls is a session of
commands, and the commands of other engines, workers and operators come between
them. The proof of `SuccessSoundness` carries over: its rules are those of
`CoordinationRules`, and what holds for the calls of the engine as they appear
through the layer holds for the commands that implement them.

## Implementation notes

An operation whose list fails ends there. `Reconcile` would go on with the next run,
which is what another `Advance` does. `Purge` is one step.
-/

namespace Ody.Redis

open Library.Tables Library.Interleaving Library.Optimistic
open Memory (Env Call Reply)
open Pipeline (Registry Harmless engineCall descendantKeys nodeRequest EngineRules etl etlRegistry
  claimAny)

/-! ## The store as the engine sees it -/

/-- What one call takes from outside: the clock, new identifiers, and the orders of two maps. -/
structure Outer where
  env : Env
  runs : RangeOrder UUID
  candidates : RangeOrder Candidate

/-- The calls of the store, command by command. -/
def onRedis (x : Outer) : (c : Call) → Session (Except GoError (Reply c))
  | .createExecution request => (lift (createExecution x.env request)).map .ok
  | .getExecution id => (lift (getExecution id)).map .ok
  | .listExecutions filter => Session.listExecutions filter
  | .listRunExecutions runID => Session.listRunExecutions runID
  | .claim owner keys limit lease => lift (claim x.env owner keys limit lease)
  | .reapExpired => lift (reapExpired x.env)
  | .heartbeat id token lease => (lift (heartbeat x.env id token lease)).map .ok
  | .succeed id token output => (lift (succeed x.env id token output)).map .ok
  | .retry id token errorText delay => (lift (retry x.env id token errorText delay)).map .ok
  | .fail id token errorText => (lift (fail x.env id token errorText)).map .ok
  | .cancelExecution id reason => (lift (cancelExecution x.env id reason)).map .ok
  | .restartExecution id availableAt => (lift (restartExecution x.env id availableAt)).map .ok
  | .restartPipelineSubgraph request => (lift (restartPipelineSubgraph x.env request)).map .ok
  | .releaseExecution id input availableAt =>
      (lift (releaseExecution x.env id input availableAt)).map .ok
  | .events id => (Session.events id).map .ok
  | .createPipelineRun request => lift (createPipelineRun x.env request)
  | .getPipelineRun id => (lift (getPipelineRun id)).map .ok
  | .listPipelineRuns filter => Session.listPipelineRuns x.runs filter
  | .setPipelineRunStatus id expectedRevision status errorText =>
      (lift (setPipelineRunStatus x.env id expectedRevision status errorText)).map .ok
  | .purge before limit => .call (.other (.inl (.purge before limit x.candidates))) .done

instance (c : Call) : Nonempty (Reply c) := by
  cases c <;> first
    | exact ⟨.error .notFound⟩
    | exact ⟨[]⟩
    | exact ⟨⟨0, 0⟩⟩
    | exact ⟨newRun (Env.at 0 0) ⟨"", 0, "", ""⟩⟩

section Run

variable {registry : Registry} {runID : UUID}

variable (registry runID) in
/-- The calls of the engine as other sessions interfere with them. -/
abbrev engineLayer : System Server Unit Call Reply :=
  layer sessions (Coordinated registry runID) (RunRely runID) (RunRely runID) onRedis

theorem rely_trans (a b c : Server) (ha : Coordinated registry runID a)
    (_ : Coordinated registry runID b) (_ : Coordinated registry runID c) (h : RunRely runID a b)
    (h' : RunRely runID b c) : RunRely runID a c :=
  h.trans ha.invariant.known h'

/-- What the commands of a call promise, the call promises. -/
theorem layerRule {P : Server → Prop} {c : Call} {Q : Reply c → Server → Prop}
    (hstable : ∀ s s', P s → RunRely runID s s' → P s')
    (h : ∀ x, SessionRule registry runID P (onRedis x c) fun reply s => ∀ r, reply = .ok r → Q r s) :
    CallTriple (engineLayer registry runID) (Coordinated registry runID) (RunRely runID)
      (RunRely runID) (fun _ s => P s) c fun r _ s => Q r s := by
  apply callTriple_layer RunRely.refl rely_trans (fun _ _ h => h)
  · exact fun s s' hP hrely _ => hstable s s' hP hrely
  · exact fun x => (h x).of fun _ _ hs => hs.2

variable (runID) in
/-- The calls that any session may issue. A restart names each node once. -/
def Free (c : Call) : Prop :=
  Harmless runID c ∧ ∀ request, c = .restartPipelineSubgraph request →
    (request.rootNodeKey :: request.descendantKeys).Nodup

theorem rule_free (x : Outer) {c : Call} (hc : Free runID c) :
    SessionRule registry runID (fun _ => True) (onRedis x c) fun _ _ => True := by
  have hfresh : ∀ s c, FreshIDs s c → FreshIDs s c := fun _ _ h => h
  cases c with
  | createExecution request =>
      apply Triple.map
      exact rule_harmless (keeps_createExecution hfresh x.env request)
        (blocks_createExecution x.env (hc.1.1 request rfl))
  | getExecution id => exact (rule_reads (reads_getExecution id)).map
  | listExecutions filter => exact rule_reads (reads_listExecutions filter)
  | listRunExecutions target => exact rule_reads ⟨fun _ => rfl, reads_getExecutions⟩
  | claim owner keys limit lease =>
      exact rule_harmless (keeps_claim hfresh x.env owner keys limit lease)
        (blocks_claim x.env owner keys limit lease)
  | reapExpired => exact rule_harmless (keeps_reapExpired hfresh x.env) (blocks_reapExpired x.env)
  | heartbeat id token lease =>
      apply Triple.map
      exact rule_harmless (keeps_heartbeat hfresh x.env id token lease)
        (blocks_heartbeat x.env id token lease)
  | succeed id token output =>
      apply Triple.map
      exact rule_harmless (keeps_succeed hfresh x.env id token output)
        (blocks_succeed x.env id token output)
  | retry id token errorText delay =>
      apply Triple.map
      exact rule_harmless (keeps_retry hfresh x.env id token errorText delay)
        (blocks_retry x.env id token errorText delay)
  | fail id token errorText =>
      apply Triple.map
      exact rule_harmless (keeps_fail hfresh x.env id token errorText)
        (blocks_fail x.env id token errorText)
  | cancelExecution id reason =>
      apply Triple.map
      exact rule_harmless (keeps_cancelExecution hfresh x.env id reason)
        (blocks_cancelExecution x.env id reason)
  | restartExecution id availableAt =>
      apply Triple.map
      exact rule_harmless (keeps_restartExecution hfresh x.env id availableAt)
        (blocks_restartExecution x.env id availableAt)
  | restartPipelineSubgraph request =>
      exact (rule_restartPipelineSubgraph x.env request (hc.2 request rfl)).map
  | releaseExecution id input availableAt =>
      apply Triple.map
      exact rule_harmless (keeps_releaseExecution hfresh x.env id input availableAt)
        (blocks_releaseExecution x.env id input availableAt)
  | events id => exact (rule_reads (reads_events id)).map
  | createPipelineRun request =>
      exact rule_harmless (keeps_createPipelineRun hfresh x.env request)
        (blocks_createPipelineRun x.env request)
  | getPipelineRun id => exact (rule_reads (reads_getPipelineRun id)).map
  | listPipelineRuns filter => exact rule_reads (reads_listPipelineRuns x.runs filter)
  | setPipelineRunStatus id expectedRevision status errorText =>
      apply Triple.map
      refine rule_harmless (keeps_setPipelineRunStatus hfresh x.env id expectedRevision status errorText)
        (blocks_setPipelineRunStatus x.env ?_ errorText)
      rintro run rfl - rfl rfl
      exact hc.1.2 expectedRevision errorText rfl
  | purge before limit => exact rule_purge before limit x.candidates

/-- The keys of a restart by the engine are different. -/
theorem descendantKeys_nodup (definition : Pipeline.CompiledDefinition) (root : String) :
    (root :: (descendantKeys definition root).1).Nodup := by
  obtain ⟨hsub, hbelow⟩ := Pipeline.descendantKeys_spec definition root
  refine List.nodup_cons.mpr ⟨?_, definition.keys_nodup.sublist hsub⟩
  exact fun hmem => (hbelow root hmem).1 rfl

/-- The engine creates executions of the run only for nodes of its definition. -/
theorem nodeRequest_allowed {target : UUID} {run : PipelineRun} {items : List Execution}
    {view : Pipeline.View} {node : Pipeline.NodeDefinition} {input : RawMessage} {s : Server}
    (hsched : Pipeline.Schedulable registry run items view node input)
    (hseen : target = runID → Seen runID run s) :
    Permitted registry runID s (nodeRequest target node input) := by
  intro hrun
  obtain rfl : target = runID := Option.some.inj hrun
  obtain ⟨definition, hfound, hnode⟩ := hsched.declared
  refine ⟨definition.key_ne_empty hnode, (hseen rfl).issued, ?_⟩
  intro run' definition' h' hfound'
  rw [((hseen rfl).run run' h').1.find registry, hfound] at hfound'
  cases hfound'
  exact List.mem_map_of_mem hnode

variable (registry runID) in
/-- The rules by which every operation of the engine keeps a succeeded run complete. -/
def redisRules : EngineRules (engineLayer registry runID) (Coordinated registry runID)
    (RunRely runID) (RunRely runID) registry where
  Free := Free runID
  Seen := fun target run _ s => target = runID → Seen runID run s
  Snap := fun target run items _ s => target = runID → Snap registry runID run items s
  engine := by
    intro c hc
    refine ⟨⟨?_, ?_⟩, ?_⟩
    · rintro request rfl
      cases hc
    · rintro revision text rfl
      simp [engineCall] at hc
    · rintro request rfl
      cases hc
  free := by
    intro c hc
    apply layerRule fun _ _ _ _ => trivial
    exact fun x => (rule_free x hc).weaken fun _ _ _ _ _ _ => trivial
  get := by
    intro target
    apply layerRule fun _ _ _ _ => trivial
    intro x
    apply Triple.map
    refine (rule_getPipelineRun target).weaken ?_
    rintro reply _ s hreply r hr run rfl
    cases hr
    exact hreply run rfl
  list := by
    intro target run
    apply layerRule fun s s' hseen hrely heq => (hseen heq).stable hrely
    exact fun x => rule_listRunExecutions target run
  release := by
    intro target run items view node input item _ _ _
    apply layerRule fun s s' hsnap hrely heq => (hsnap heq).stable hrely
    intro x
    apply Triple.map
    have hblocks : (releaseExecution x.env item.id input item.availableAt).Issues
        (BlockCall (fun _ => False) fun _ _ => False) := blocks_releaseExecution x.env _ _ _
    refine (rule_blocks (fun s s' hsnap hrely heq => (hsnap heq).stable hrely)
      (keeps_releaseExecution (fun _ _ h => h) x.env _ _ _) hblocks
      (fun _ _ _ h => h.elim) fun _ _ _ _ h => h.elim).weaken ?_
    exact fun _ _ s hsnap _ _ => hsnap
  create := by
    intro target run items view node input hsched _
    apply layerRule fun s s' hsnap hrely heq => (hsnap heq).stable hrely
    intro x
    apply Triple.map
    have hblocks : (createExecution x.env (nodeRequest target node input)).Issues
        (BlockCall (· = nodeRequest target node input) fun _ _ => False) :=
      blocks_createExecution x.env rfl
    refine (rule_blocks (fun s s' hsnap hrely heq => (hsnap heq).stable hrely)
      (keeps_createExecution (fun _ _ h => h) x.env _) hblocks ?_ fun _ _ _ _ h => h.elim).weaken ?_
    · rintro s hsnap request rfl
      exact nodeRequest_allowed hsched fun heq => (hsnap heq).seen
    · exact fun _ _ s hsnap _ _ => hsnap
  succeed := by
    intro target run items view definition hview hfound hcomplete
    apply layerRule fun s s' hsnap hrely heq => (hsnap heq).stable hrely
    intro x
    apply Triple.map
    have hblocks : (setPipelineRunStatus x.env target run.revision .succeeded "").Issues
        (BlockCall (fun _ => False) fun run' _ => run'.id = target ∧ run'.revision = run.revision) :=
      blocks_setPipelineRunStatus x.env (fun _ hid hrevision => ⟨hid, hrevision⟩) ""
    refine (rule_blocks (fun s s' hsnap hrely heq => (hsnap heq).stable hrely)
      (keeps_setPipelineRunStatus (fun _ _ h => h) x.env _ _ _ _) hblocks (fun _ _ _ h => h.elim)
      ?_).weaken ?_
    · rintro s hsnap run' _ ⟨rfl, hrevision⟩ hl hid -
      exact (hsnap hid).earned hview hfound hcomplete hl hrevision
    · exact fun _ _ _ _ _ _ => trivial
  restart := by
    intro target run definition key _ _
    apply layerRule fun s s' hseen hrely heq => (hseen heq).stable hrely
    intro x
    apply Triple.map
    refine ((rule_restartPipelineSubgraph x.env _ (descendantKeys_nodup definition key)).of
      fun _ _ _ => trivial).weaken ?_
    exact fun _ _ _ _ _ _ => trivial

/-! ## Every interleaving of commands -/

variable (registry runID) in
/-- The programs that run over the store at the same time. A restart by an operator names each node
once. -/
inductive Participant : Program Call Reply Unit → Prop
  | run (definition : Pipeline.Definition) (input : Except GoError RawMessage)
      (options : List (CreatePipelineRun → CreatePipelineRun)) :
      Participant (Pipeline.run registry definition input options).discard
  | advance (target : UUID) : Participant (Pipeline.advance registry target).discard
  | reconcile : Participant (Pipeline.reconcile registry).discard
  | cancel (target : UUID) (reason : String) : Participant (Pipeline.cancel target reason).discard
  | restart (executionID : UUID) :
      Participant (Pipeline.restartExecution registry executionID).discard
  | call (c : Call) (h : Pipeline.Outside runID c)
      (hkeys : ∀ request, c = .restartPipelineSubgraph request →
        (request.rootNodeKey :: request.descendantKeys).Nodup) : Participant (.single c)

variable (registry runID) in
/-- Their sessions. -/
inductive Deployed : Session (Except GoError Unit) → Prop
  | session {p : Program Call Reply Unit} (h : Participant registry runID p) (supply : Nat → Outer) :
      Deployed (p.implement onRedis supply)

theorem exists_uncoordinated : ∃ s, ¬Coordinated registry runID s := by
  let run := newRun (Env.at 0 0) ⟨"", 0, "", ""⟩
  refine ⟨⟨Keyspace.empty.apply (.hSet 0 run), []⟩, fun h => ?_⟩
  have hused := h.invariant.known.runs 0 run (AList.lookup_insert _)
  cases hused

theorem Participant.safe {p : Program Call Reply Unit} (h : Participant registry runID p) :
    Triple (engineLayer registry runID) (Coordinated registry runID) (RunRely runID) (RunRely runID)
      (fun _ _ => True) p fun _ _ _ => True := by
  let rules := redisRules registry runID
  cases h with
  | run definition input options => exact (rules.operations.run definition input options).discard
  | advance target => exact (rules.operations.advance target).discard
  | reconcile => exact rules.operations.reconcile.discard
  | cancel target reason =>
      exact (rules.cancel (fun _ _ => ⟨⟨by simp, by simp⟩, by simp⟩) target reason).discard
  | restart executionID => exact (rules.operations.restartExecution executionID).discard
  | call c hc hkeys =>
      exact rules.operations.freeCall ⟨hc.harmless, hkeys⟩ fun _ => Pipeline.OperationRules.ended ()

theorem coordinated_of_reach {s : Server}
    {threads : List (Thread Unit (TxCall Watch Image Command (Query ⊕ Read))
      (TxReply (Sum.elim QueryReply ReadReply)) (Except GoError Unit))}
    (h : Reach sessions Server.Initial (Deployed registry runID) s threads) :
    Coordinated registry runID s := by
  refine (Reach.safe RunRely.refl rely_trans (fun _ _ h => h) ?_ ?_ h).1
  · rintro _ rfl
    refine ⟨Invariant.empty, ?_, ?_, ?_, ?_⟩ <;>
      simp [Node, Server.empty, Keyspace.empty, Library.DerivedIndexes.Indexed.empty]
  · rintro _ ⟨hparticipant, supply⟩ ⟨⟩ s hs
    exact (hparticipant.safe () s trivial).implement RunRely.refl exists_uncoordinated hs supply

/-- Two stored executions of a node are the same. -/
theorem Coordinated.unique {s : Server} (h : Coordinated registry runID s) {item other : Execution}
    (hitem : Node runID s item) (hother : Node runID s other) (hkey : other.nodeKey = item.nodeKey) :
    other = item := by
  have href : ∀ item, Node runID s item →
      s.keys.executions.refs.lookup (nodeKey runID item.nodeKey) = some item.id := by
    intro item hnode
    apply (h.invariant.represented.executions.refs _ _).mpr
    exact ⟨item, hnode.1, mem_references_node.mpr ⟨hnode.2, rfl, h.sound.named item hnode⟩⟩
  have hid := href other hother
  rw [hkey, href item hitem] at hid
  have hl := hother.1
  rw [← Option.some.inj hid, hitem.1] at hl
  exact (Option.some.inj hl).symm

/-- In every interleaving of the commands of engines, workers and operators, a run that is stored as
succeeded has exactly one execution for each node of its definition, and that execution succeeded. -/
theorem redis_success_soundness {s : Server}
    {threads : List (Thread Unit (TxCall Watch Image Command (Query ⊕ Read))
      (TxReply (Sum.elim QueryReply ReadReply)) (Except GoError Unit))}
    (h : Reach sessions Server.Initial (Deployed registry runID) s threads) {run : PipelineRun}
    (hrun : s.keys.runs.records.lookup runID = some run) (hs : run.status = .succeeded) :
    ∃ definition, registry.find run = some definition ∧ ∀ node ∈ definition.nodes,
      ∃ item, (Node runID s item ∧ item.nodeKey = node.key) ∧
        (∀ other, Node runID s other ∧ other.nodeKey = node.key → other = item) ∧
        item.status = .succeeded := by
  have hcoordinated := coordinated_of_reach h
  obtain ⟨definition, hfound, hnodes⟩ := hcoordinated.sound.complete run hrun hs
  refine ⟨definition, hfound, ?_⟩
  intro node hnode
  obtain ⟨item, hitem, hkey, hsucceeded⟩ := hnodes node hnode
  refine ⟨item, ⟨hitem, hkey⟩, ?_, hsucceeded⟩
  rintro other ⟨hother, hotherKey⟩
  exact hcoordinated.unique hitem hother (hotherKey.trans hkey.symm)

end Run

/-! ## A run that succeeds -/

instance (s : Server) (c : TxCall Watch Image Command (Query ⊕ Read)) :
    Decidable (liftAllowed FreshIDs s c) :=
  match c with
  | .other (.inl c) => inferInstanceAs (Decidable (FreshIDs s (.other c)))
  | .other (.inr _) => isTrue trivial
  | .watch w => inferInstanceAs (Decidable (FreshIDs s (.watch w)))
  | .commit w image commands => inferInstanceAs (Decidable (FreshIDs s (.commit w image commands)))

/-- Concrete interleavings of sessions. -/
def sessionExecution : Library.Interleaving.Execution sessions :=
  reader.execution (fun s c => decide (liftAllowed FreshIDs s c)) fun _ _ h => of_decide_eq_true h

/-- One move of a concrete interleaving of sessions. -/
abbrev SessionMove := Move (TxCall Watch Image Command (Query ⊕ Read))
  (TxReply (Sum.elim QueryReply ReadReply)) (Except GoError Unit)

/-- Start a client with identifiers of its own. -/
def deploy (base : Nat) (p : Program Call Reply Unit) : SessionMove :=
  .spawn (p.implement onRedis fun n =>
    ⟨Env.at 5 (base + 20 * n), RangeOrder.stored _, RangeOrder.stored _⟩)

def steps (i n : Nat) : List SessionMove := List.replicate n (.step i)

/-- Both nodes are delivered and succeed; the commands of two threads that advance the run after the
first node alternate, and one of them is never finished. -/
def etlSessions : List SessionMove :=
  deploy 0 (Pipeline.run etlRegistry etl (.ok "1") []).discard :: steps 0 9 ++
  deploy 1000 (.single claimAny) :: steps 1 5 ++
  deploy 2000 (.single (.succeed 61 1016 "2")) :: steps 2 2 ++
  deploy 3000 (Pipeline.advance etlRegistry 1).discard ::
    deploy 4000 (Pipeline.advance etlRegistry 1).discard ::
    [.step 3, .step 4, .step 3, .step 4, .step 3, .step 4, .step 3, .step 4] ++ steps 3 3 ++ steps 4 4 ++
  deploy 5000 (.single claimAny) :: steps 5 5 ++
  deploy 6000 (.single (.succeed 3041 5016 "3")) :: steps 6 2 ++
  deploy 7000 (Pipeline.advance etlRegistry 1).discard :: steps 7 6

/-- The run of `etlSessions` ends in success. -/
def sessionsSucceeded (s : Server) : Bool :=
  (s.keys.runs.records.lookup 1).any (·.status == .succeeded)

theorem etlSessions_spawns : ∀ m ∈ etlSessions, m.Spawns (Deployed etlRegistry 1) := by
  have hstep : ∀ i, (.step i : SessionMove).Spawns (Deployed etlRegistry 1) := fun _ => trivial
  have hdeploy : ∀ base p, Participant etlRegistry 1 p → (deploy base p).Spawns (Deployed etlRegistry 1) :=
    fun _ _ hp => .session hp _
  have hclaim : Participant etlRegistry 1 (.single claimAny) := .call _ trivial fun _ h => nomatch h
  have hsucceed : ∀ id token output, Participant etlRegistry 1 (.single (.succeed id token output)) :=
    fun _ _ _ => .call _ trivial fun _ h => nomatch h
  simp only [etlSessions, steps, List.forall_mem_append, List.forall_mem_cons,
    List.forall_mem_replicate, List.not_mem_nil, false_imp_iff, implies_true, hstep, hdeploy, hclaim,
    hsucceed, Participant.run, Participant.advance, or_true, and_self]

theorem redis_success_soundness_of_etlSessions :
    ∃ (s : Server) (run : PipelineRun) (definition : Pipeline.CompiledDefinition),
      s.keys.runs.records.lookup 1 = some run ∧ run.status = .succeeded ∧
      etlRegistry.find run = some definition ∧ ∀ node ∈ definition.nodes,
      ∃ item, (Node 1 s item ∧ item.nodeKey = node.key) ∧
        (∀ other, Node 1 s other ∧ other.nodeKey = node.key → other = item) ∧
        item.status = .succeeded := by
  have hends : (sessionExecution.drive etlSessions Server.empty []).any
      (fun final => sessionsSucceeded final.1) = true := by decide +kernel
  have hinitial : Server.Initial Server.empty := rfl
  obtain ⟨s, threads, hreach, htest⟩ :=
    sessionExecution.drive_reaches etlSessions_spawns hinitial hends
  obtain ⟨run, hrun, hstatus⟩ := Option.any_eq_true _ _ |>.mp htest
  have hs : run.status = .succeeded := by simpa using hstatus
  obtain ⟨definition, hfound, hnodes⟩ := redis_success_soundness hreach hrun hs
  exact ⟨s, run, definition, hrun, hs, hfound, hnodes⟩

end Ody.Redis
