import Ody.Pipeline.RunExecutions

/-!
# Soundness of a succeeded run

`advanceOnce` reads the run and its executions in two calls and acts on that
snapshot later. Only the final `SetPipelineRunStatus` compares the revision, and
that is enough: every call that could undo a succeeded execution of the run
increments the revision or removes the run.
-/

namespace Ody.Pipeline

open Library.Tables Library.Interleaving Memory

/-- The store as a system of atomic calls. -/
def storeSystem : System World Unit Call Reply where
  step := World.Step
  start := ()
  observe := fun _ _ g => g
  allowed := fun _ _ _ => True

section Soundness

variable (registry : Registry) (runID : UUID)

/-- Every node of the run's definition has a succeeded execution. -/
def Complete (w : World) (run : PipelineRun) : Prop :=
  ∃ definition, registry.find run = some definition ∧ ∀ node ∈ definition.nodes,
    ∃ item, Member w.store runID item ∧ item.nodeKey = node.key ∧ item.status = .succeeded

/-- The invariant: a succeeded run is complete. -/
structure Sound (w : World) : Prop where
  indexed : Indexed registry runID w
  complete : ∀ run, w.store.runs.lookup runID = some run → run.status = .succeeded →
    Complete registry runID w run

variable {registry runID}

variable (registry runID) in
/-- A call that keeps the invariant: it creates executions of the run only for its nodes, and
marks the run succeeded only when it is complete. -/
structure Admissible (w : World) (c : Call) : Prop where
  permits : Permits registry runID w c
  succeeds : ∀ revision text, c = .setPipelineRunStatus runID revision .succeeded text →
    ∀ run, w.store.runs.lookup runID = some run → run.revision = revision →
      Complete registry runID w run

/-- Succeeded executions that survive a call keep the run complete. -/
theorem Complete.after {w : World} {env : Env} {c : Call} {run run' : PipelineRun}
    (h : Complete registry runID w run) (hfind : registry.find run' = registry.find run)
    (hkept : ∀ item, Member w.store runID item → item.status = .succeeded →
      Member (w.after env c).store runID item) : Complete registry runID (w.after env c) run' := by
  obtain ⟨definition, hfound, hnodes⟩ := h
  refine ⟨definition, hfind.trans hfound, ?_⟩
  intro node hnode
  obtain ⟨item, hm, hkey, hs⟩ := hnodes node hnode
  exact ⟨item, hkept item hm hs, hkey, hs⟩

theorem Sound.after {w : World} (h : Sound registry runID w) {env : Env} (hfresh : env.Fresh w)
    {c : Call} (hc : Admissible registry runID w c) : Sound registry runID (w.after env c) := by
  have hknown := h.indexed.known
  constructor
  · exact h.indexed.after hfresh hc.permits
  · intro run' h' hs'
    have hlookup : (exec env w.store c).2.runs.lookup runID = some run' := h'
    cases exec_runEffect env w.store c runID with
    | same hsame =>
        have hold : w.store.runs.lookup runID = some run' := hsame ▸ hlookup
        have hrely : Rely runID w (w.after env c) := rely_after hknown hfresh c
        exact (h.complete run' hold hs').after rfl ((hrely.run run' run' hold h').2.2 rfl).2
    | inserted _ hnew =>
        cases hnew.symm.trans hlookup
        cases hs'
    | @status run status text hold hnew =>
        cases hnew.symm.trans hlookup
        obtain rfl : status = .succeeded := hs'
        refine (hc.succeeds _ text rfl run hold rfl).after rfl ?_
        intro item hm hs
        rcases succeeded_after hfresh hknown hm hs with hkept | ⟨_, hcall, -⟩ | ⟨⟨_, _, hcall⟩, -⟩
        · exact hkept
        · cases hcall
        · cases hcall
    | reopened _ hnew =>
        cases hnew.symm.trans hlookup
        cases hs'
    | deleted hgone => exact absurd (hgone.symm.trans hlookup) (by simp)

/-- A call that is admissible whenever it is issued. -/
theorem callTriple_of_admissible {P : Unit → World → Prop} {c : Call}
    {Q : Reply c → Unit → World → Prop}
    (hadmissible : ∀ w w', P () w → Rely runID w w' → Sound registry runID w' →
      Admissible registry runID w' c)
    (hpost : ∀ w w' env, P () w → Rely runID w w' → Sound registry runID w' →
      env.Fresh w' → Q (exec env w'.store c).1 () (w'.after env c)) :
    CallTriple storeSystem (Sound registry runID) (Rely runID) (Rely runID)
      P c Q := by
  rintro ⟨⟩ w hP w' hrely hsound - r w'' ⟨env, hfresh, rfl, rfl⟩
  exact ⟨hsound.after hfresh (hadmissible w w' hP hrely hsound),
    rely_after hsound.indexed.known hfresh c, hpost w w' env hP hrely hsound hfresh⟩

/-! ## The rules of the engine -/

variable (runID) in
/-- The calls that are admissible in every state. -/
def Harmless (c : Call) : Prop :=
  (∀ request, c = .createExecution request → request.pipelineRunID ≠ some runID) ∧
  ∀ revision text, c ≠ .setPipelineRunStatus runID revision .succeeded text

theorem Harmless.admissible {c : Call} (h : Harmless runID c) (w : World) :
    Admissible registry runID w c where
  permits := fun request hc hrun => absurd hrun (h.1 request hc)
  succeeds := fun revision text hc => absurd hc (h.2 revision text)

variable (registry runID) in
/-- The executions were listed after the run was read. -/
structure SnapRun (run : PipelineRun) (items : List Execution) (w : World) : Prop where
  seen : SeenRun runID run w
  declared : ∀ item ∈ items, ∀ run' definition, w.store.runs.lookup runID = some run' →
    registry.find run' = some definition → item.nodeKey ∈ definition.keys
  succeeded : ∀ run', w.store.runs.lookup runID = some run' → run'.revision = run.revision →
    ∀ item ∈ items, item.status = .succeeded → Member w.store runID item

theorem SnapRun.stable {run : PipelineRun} {items : List Execution} {w w' : World}
    (h : SnapRun registry runID run items w) (hrely : Rely runID w w') :
    SnapRun registry runID run items w' where
  seen := h.seen.stable hrely
  declared := by
    intro item hmem run'' definition h'' hfound
    obtain ⟨run', h'⟩ := hrely.run_before h.seen.issued h''
    rw [(hrely.run run' run'' h' h'').1.find registry] at hfound
    exact h.declared item hmem run' definition h' hfound
  succeeded := by
    intro run'' h'' heq item hmem hs
    obtain ⟨run', h'⟩ := hrely.run_before h.seen.issued h''
    obtain ⟨-, hle⟩ := h.seen.run run' h'
    obtain ⟨-, hle', hsame⟩ := hrely.run run' run'' h' h''
    -- the revision has not moved since the run was read
    obtain ⟨-, hkept⟩ := hsame (by omega)
    exact hkept item (h.succeeded run' h' (by omega) item hmem hs) hs

/-- In a complete view every node of the definition has a listed execution that succeeded. -/
theorem succeeded_of_view {items : List Execution} {view : View} {definition : CompiledDefinition}
    (hview : Rebuilt items view) (hkeys : ∀ item ∈ items, item.nodeKey ∈ definition.keys)
    (hcomplete : (definition.nodes.isEmpty || view.complete definition) = true)
    {node : NodeDefinition} (hnode : node ∈ definition.nodes) :
    ∃ item ∈ items, item.nodeKey = node.key ∧ item.status = .succeeded := by
  have hne : definition.nodes.isEmpty = false := by
    simp only [List.isEmpty_eq_false_iff]
    exact List.ne_nil_of_mem hnode
  simp only [hne, Bool.false_or, View.complete, Bool.and_eq_true, beq_iff_eq,
    List.all_eq_true] at hcomplete
  obtain ⟨hlength, hall⟩ := hcomplete
  have hsubset : view.byNode.keys ⊆ definition.keys := by
    intro key hmem
    obtain ⟨item, hl⟩ := Option.isSome_iff_exists.mp (AList.lookup_isSome.mpr
      (AList.mem_keys.mpr hmem))
    obtain ⟨hitem, rfl⟩ := hview.byNode key item hl
    exact hkeys item hitem
  -- distinct keys, as many as there are nodes: all of them
  have hperm : view.byNode.keys.Perm definition.keys := by
    apply (List.subperm_of_subset view.byNode.keys_nodup hsubset).perm_of_length_le
    rw [hlength, CompiledDefinition.keys, List.length_map]
  have hmem : node.key ∈ view.byNode := by
    apply AList.mem_keys.mpr
    exact hperm.mem_iff.mpr (List.mem_map_of_mem hnode)
  obtain ⟨item, hl⟩ := Option.isSome_iff_exists.mp (AList.lookup_isSome.mpr hmem)
  obtain ⟨hitem, hkey⟩ := hview.byNode node.key item hl
  exact ⟨item, hitem, hkey, hall ⟨node.key, item⟩ (AList.mem_lookup_iff.mp hl)⟩

/-- A complete view of the listed executions covers every node of the definition. -/
theorem complete_of_view {run : PipelineRun} {items : List Execution} {view : View}
    {definition : CompiledDefinition} {w : World} (hview : Rebuilt items view)
    (hkeys : ∀ item ∈ items, item.nodeKey ∈ definition.keys)
    (hcomplete : (definition.nodes.isEmpty || view.complete definition) = true)
    (hkept : ∀ item ∈ items, item.status = .succeeded → Member w.store runID item)
    (hfound : registry.find run = some definition) : Complete registry runID w run := by
  refine ⟨definition, hfound, ?_⟩
  intro node hnode
  obtain ⟨item, hitem, hkey, hs⟩ := succeeded_of_view hview hkeys hcomplete hnode
  exact ⟨item, hkept item hitem hs, hkey, hs⟩

/-- A harmless call is fine anywhere, and keeps every fact that interference keeps. -/
theorem harmless_triple {P : Unit → World → Prop} {c : Call} (hc : Harmless runID c)
    (hstable : ∀ w w', P () w → Rely runID w w' → P () w') :
    CallTriple storeSystem (Sound registry runID) (Rely runID) (Rely runID)
      P c fun _ => P := by
  apply callTriple_of_admissible
  · exact fun w w' _ _ _ => hc.admissible w'
  · intro w w' env hP hrely hsound hfresh
    exact hstable w' _ (hstable w w' hP hrely) (rely_after hsound.indexed.known hfresh c)

variable (registry runID) in
/-- The rules by which every operation of the engine keeps a succeeded run complete. -/
def soundRules : EngineRules storeSystem (Sound registry runID) (Rely runID)
    (Rely runID) registry where
  Free := Harmless runID
  Seen := fun target run _ w => target = runID → SeenRun runID run w
  Snap := fun target run items _ w => target = runID → SnapRun registry runID run items w
  engine := by
    intro c hc
    constructor
    · rintro request rfl
      cases hc
    · rintro revision text rfl
      simp [engineCall] at hc
  free := fun c hc => harmless_triple hc fun _ _ _ _ => trivial
  get := by
    intro target
    apply callTriple_of_admissible
    · exact fun w w' _ _ _ => Harmless.admissible ⟨by simp, by simp⟩ w'
    · rintro w w' env - - hsound - run hreply rfl
      exact (readRun_of_get hsound.indexed.known env hreply).seen
  list := by
    intro target run
    apply callTriple_of_admissible
    · exact fun w w' _ _ _ => Harmless.admissible ⟨by simp, by simp⟩ w'
    · rintro w w' env hseen hrely hsound hfresh rfl
      refine ⟨((hseen rfl).stable hrely).stable (rely_after hsound.indexed.known hfresh _), ?_, ?_⟩
      · intro item hmem run' definition h' hfound
        exact hsound.indexed.declared item run' definition (mem_listRunExecutions.mp hmem) h' hfound
      · intro run' _ _ item hmem _
        exact mem_listRunExecutions.mp hmem
  release := by
    intro target run items view node input item _ _ _
    apply harmless_triple
    · exact ⟨by simp, by simp⟩
    · exact fun w w' hsnap hrely heq => (hsnap heq).stable hrely
  create := by
    intro target run items view node input hsched _
    apply callTriple_of_admissible
    · intro w w' hsnap hrely _
      refine ⟨nodeRequest_permitted hsched fun heq => ((hsnap heq).stable hrely).seen, ?_⟩
      exact fun _ _ hc => nomatch hc
    · intro w w' env hsnap hrely hsound hfresh heq
      exact ((hsnap heq).stable hrely).stable (rely_after hsound.indexed.known hfresh _)
  succeed := by
    intro target run items view definition hview hfound hcomplete
    apply callTriple_of_admissible
    · intro w w' hsnap hrely _
      refine ⟨fun _ hc => (nomatch hc), ?_⟩
      intro revision text hc run' h' hrevision
      cases hc
      have hnow := (hsnap rfl).stable hrely
      have hfound' : registry.find run' = some definition :=
        ((hnow.seen.run run' h').1.find registry).trans hfound
      exact complete_of_view hview (fun item hmem => hnow.declared item hmem run' definition h' hfound')
        hcomplete (hnow.succeeded run' h' hrevision) hfound'
    · exact fun _ _ _ _ _ _ _ => trivial
  restart := by
    intro target run definition key _ _
    exact (callTriple_of_admissible (fun w w' _ _ _ => Harmless.admissible ⟨by simp, by simp⟩ w')
      fun _ _ _ _ _ _ _ => trivial)

/-! ## Every interleaving -/

variable (runID) in
/-- A store call of a worker or an operator. Executions of the run and its status belong to the
engine. -/
def Outside : Call → Prop
  | .createExecution request => request.pipelineRunID ≠ some runID
  | .setPipelineRunStatus _ _ _ _ => False
  | _ => True

variable (registry runID) in
/-- The programs that may run at the same time. -/
inductive Client : Program Call Reply Unit → Prop
  | run (definition : Definition) (input : Except GoError RawMessage)
      (options : List (CreatePipelineRun → CreatePipelineRun)) :
      Client (run registry definition input options).discard
  | advance (target : UUID) : Client (advance registry target).discard
  | reconcile : Client (reconcile registry).discard
  | cancel (target : UUID) (reason : String) : Client (cancel target reason).discard
  | restart (executionID : UUID) : Client (restartExecution registry executionID).discard
  | call (c : Call) (h : Outside runID c) : Client (.single c)

theorem Outside.harmless {c : Call} (h : Outside runID c) : Harmless runID c := by
  constructor
  · rintro request rfl
    exact h
  · rintro revision text rfl
    exact h

theorem Client.safe {p : Program Call Reply Unit} (h : Client registry runID p) :
    Triple storeSystem (Sound registry runID) (Rely runID) (Rely runID)
      (fun _ w => Sound registry runID w) p fun _ _ _ => True := by
  refine Triple.of ?_ fun _ _ _ => trivial
  let rules := soundRules registry runID
  cases h with
  | run definition input options => exact (rules.operations.run definition input options).discard
  | advance target => exact (rules.operations.advance target).discard
  | reconcile => exact rules.operations.reconcile.discard
  | cancel target reason =>
      exact (rules.cancel (fun _ _ => ⟨by simp, by simp⟩) target reason).discard
  | restart executionID => exact (rules.operations.restartExecution executionID).discard
  | call c hc =>
      exact rules.operations.freeCall hc.harmless fun _ => OperationRules.ended ()

/-- The invariant holds in every interleaving. -/
theorem sound_of_reach {w : World} {threads : List (Thread Unit Call Reply Unit)}
    (h : Reach storeSystem World.Initial (Client registry runID) w threads) :
    Sound registry runID w := by
  refine (Reach.safe Rely.refl ?_ (fun _ _ h => h) ?_ (fun p hp => hp.safe) h).1
  · exact fun a b c ha _ _ hab hbc => hab.trans ha.indexed.known hbc
  · rintro w ⟨clock, rfl⟩
    exact ⟨Indexed.init clock, by simp [World.init, newMemoryStore]⟩

/-- In every interleaving of engine operations with worker and operator calls, a run that is
stored as succeeded has exactly one execution for each node of its definition, and that
execution succeeded. -/
theorem success_soundness {w : World} {threads : List (Thread Unit Call Reply Unit)}
    (h : Reach storeSystem World.Initial (Client registry runID) w threads)
    {run : PipelineRun} (hrun : w.store.runs.lookup runID = some run)
    (hs : run.status = .succeeded) :
    ∃ definition, registry.find run = some definition ∧ ∀ node ∈ definition.nodes,
      ∃ item, (Member w.store runID item ∧ item.nodeKey = node.key) ∧
        (∀ other, Member w.store runID other ∧ other.nodeKey = node.key → other = item) ∧
        item.status = .succeeded := by
  have hsound := sound_of_reach h
  obtain ⟨definition, hfound, hnodes⟩ := hsound.complete run hrun hs
  refine ⟨definition, hfound, ?_⟩
  intro node hnode
  obtain ⟨item, hm, hkey, hsucceeded⟩ := hnodes node hnode
  refine ⟨item, ⟨hm, hkey⟩, ?_, hsucceeded⟩
  rintro other ⟨hother, hotherKey⟩
  exact hsound.indexed.unique hother hm (hotherKey.trans hkey.symm)

end Soundness

/-! ## A run that succeeds -/

/-- Execute the steps of the store with consecutive UUIDs. -/
def storeExecution : Library.Interleaving.Execution storeSystem where
  exec := fun w c => ((exec w.env w.store c).1, w.after w.env c)
  ready := fun _ _ _ => true
  allowed := fun _ _ _ _ => trivial
  step := fun w _ _ _ => ⟨w.env, w.env_fresh, rfl, rfl⟩

/-- Both nodes are delivered and succeed; two threads advance the run at the same time. -/
def etlMoves : List (Move Call Reply Unit) :=
  .spawn (run etlRegistry etl (.ok "1") []).discard :: List.replicate 6 (.step 0) ++
  [.spawn (.single claimAny), .step 1, .spawn (.single (.succeed 2 3 "2")), .step 2] ++
  .spawn (advance etlRegistry 1).discard :: .spawn (advance etlRegistry 1).discard ::
    [.step 3, .step 4, .step 3, .step 4, .step 3, .step 3, .step 4] ++
  [.spawn (.single claimAny), .step 5, .spawn (.single (.succeed 4 5 "3")), .step 6] ++
  .spawn (advance etlRegistry 1).discard :: List.replicate 3 (.step 7)

/-- The run of `etlMoves` ends in success. -/
def etlSucceeded (w : World) : Bool :=
  (w.store.runs.lookup 1).any (·.status == .succeeded)

theorem of_etlSucceeded {w : World} (h : etlSucceeded w = true) :
    ∃ run, w.store.runs.lookup 1 = some run ∧ run.status = .succeeded := by
  simpa [etlSucceeded, Option.any_eq_true] using h

theorem success_soundness_of_etlMoves :
    ∃ (w : World) (run : PipelineRun) (definition : CompiledDefinition),
      w.store.runs.lookup 1 = some run ∧ run.status = .succeeded ∧
      etlRegistry.find run = some definition ∧ ∀ node ∈ definition.nodes,
      ∃ item, (Member w.store 1 item ∧ item.nodeKey = node.key) ∧
        (∀ other, Member w.store 1 other ∧ other.nodeKey = node.key → other = item) ∧
        item.status = .succeeded := by
  have hclaim : Client etlRegistry 1 (.single claimAny) := .call _ trivial
  have hextract : Client etlRegistry 1 (.single (.succeed 2 3 "2")) := .call _ trivial
  have hload : Client etlRegistry 1 (.single (.succeed 4 5 "3")) := .call _ trivial
  have hmoves : ∀ m ∈ etlMoves, m.Spawns (Client etlRegistry 1) := by
    simp [etlMoves, Move.Spawns, Client.run, Client.advance, hclaim, hextract, hload]
  have hends : (storeExecution.drive etlMoves (World.init 5) []).any
      (fun final => etlSucceeded final.1) = true := by decide
  obtain ⟨w, threads, hreach, hs⟩ :=
    storeExecution.drive_reaches hmoves (World.init_initial 5) hends
  obtain ⟨run, hrun, hstatus⟩ := of_etlSucceeded hs
  obtain ⟨definition, hfound, hnodes⟩ := success_soundness hreach hrun hstatus
  exact ⟨w, run, definition, hrun, hstatus, hfound, hnodes⟩

end Ody.Pipeline
