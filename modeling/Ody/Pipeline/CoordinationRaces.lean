import Ody.Pipeline.Confluence

/-!
# Races between `Advance` calls

Calls of `Advance` on one run that interleave find some of their work done by the
others. A node that exists already is not created again, and a call that loses the
mark of the run to another one is repeated: by then the plan is fulfilled, and the
repeated attempt has nothing to do. Only a release is not like that. The call that
finds its execution released by another one returns the error of
`ReleaseExecution`.
-/

namespace Ody.Pipeline

open Library.Interleaving Memory

section Races

variable {registry : Registry} {runID : UUID} {base : World} {run₀ : PipelineRun}
  {definition : CompiledDefinition} {careful : Prop} {w w' : World}

theorem IsMarked.stable (h : IsMarked runID base run₀ definition w)
    (hbetween : Between registry runID base run₀ definition w') (hdrift : Drift runID w w') :
    IsMarked runID base run₀ definition w' := by
  obtain ⟨run, hrun, hmarked⟩ := h
  obtain ⟨run', hrun', -⟩ := hbetween.run
  have hle := (hdrift.rely.run run run' hrun hrun').2.1
  have hlater := hmarked.later
  exact hbetween.isMarked hrun' (by omega)

variable (runID base run₀ definition) in
/-- The run was read after a mark: it is finished, or it goes on with the plan fulfilled. -/
structure ReadMarked (run : PipelineRun) (w : World) : Prop where
  marked : IsMarked runID base run₀ definition w
  same : SameRun run₀ run
  status : run.status.isTerminal = true ∨
    (run.status = .running ∧ Outcome base.store runID run₀ definition .running "")

/-- The read of a marked run. -/
theorem get_marked (h₀ : Opened registry runID base run₀ definition) :
    CallTriple (releaseSystem careful) (Between registry runID base run₀ definition)
      (Interferes runID False) (Drift runID) (fun _ w => IsMarked runID base run₀ definition w)
      (.getPipelineRun runID) fun reply _ w => ∃ run, reply = .ok run ∧
        ReadMarked runID base run₀ definition run w := by
  refine advance_triple h₀ (fun _ _ h hbetween hinterferes => h.stable hbetween hinterferes.1)
    (fun _ _ _ => AdvanceCall.get) ?_
  intro w env h hbetween _ _ hafter hdrift
  obtain ⟨run, hrun, -⟩ := id h
  have hreply : getPipelineRun w.store runID = .ok run := by simp [getPipelineRun, hrun]
  refine ⟨run, hreply, h.stable hafter hdrift, hbetween.sameRun hrun, ?_⟩
  cases hopen : run.status.isTerminal with
  | true => exact Or.inl rfl
  | false =>
      obtain ⟨hstatus, houtcome, -⟩ := (h.settled hbetween).running hrun hopen
      exact Or.inr ⟨hstatus, houtcome⟩

/-- The listing of a marked run that goes on leaves nothing to do. -/
theorem list_marked (h₀ : Opened registry runID base run₀ definition) {run : PipelineRun}
    (hopen : run.status.isTerminal = false) :
    CallTriple (releaseSystem careful) (Between registry runID base run₀ definition)
      (Interferes runID False) (Drift runID)
      (fun _ w => ReadMarked runID base run₀ definition run w)
      (.listRunExecutions runID) fun items _ _ =>
        advanceListed runID run definition items = .done (.ok ()) := by
  refine advance_triple h₀ ?_ (fun _ _ _ => AdvanceCall.list) ?_
  · exact fun w w' h hbetween hinterferes =>
      { h with marked := h.marked.stable hbetween hinterferes.1 }
  · intro w env h hbetween _ _ _ _
    obtain ⟨stored, hstored, hmarked⟩ := h.marked
    rcases h.status with hterminal | ⟨hstatus, houtcome⟩
    · exact absurd (hterminal.symm.trans hopen) (by simp)
    · exact hbetween.idle h₀ hmarked.all houtcome hstatus h.same fun item => mem_listRunExecutions

/-- An attempt on a run that was marked since the start has nothing to do. -/
theorem advanceOnce_marked (h₀ : Opened registry runID base run₀ definition) :
    Triple (releaseSystem careful) (Between registry runID base run₀ definition)
      (Interferes runID False) (Drift runID) (fun _ w => IsMarked runID base run₀ definition w)
      (advanceOnce registry runID) fun result _ _ => result = .ok () := by
  refine Triple.call (get_marked h₀) fun reply => ?_
  rintro g w ⟨run, rfl, h⟩
  dsimp only
  split
  · rfl
  · next hopen =>
    rw [(h.same.find registry).trans h₀.found]
    refine Triple.call (list_marked h₀ (by simpa using hopen)) ?_ g w h
    intro items g w hidle
    rw [hidle]
    rfl

/-- A call that finds every execution that it releases blocked returns nil, if no mapper fails. -/
theorem advance_careful (h₀ : Opened registry runID base run₀ definition)
    (hbuilds : ∀ node err, ¬ Wanted base.store runID run₀ definition node (.error err)) :
    Triple (releaseSystem True) (Between registry runID base run₀ definition)
      (Interferes runID False) (Drift runID) (fun _ _ => True) (advance registry runID)
      fun result _ _ => result = .ok () := by
  have hagain : Triple (releaseSystem True) (Between registry runID base run₀ definition)
      (Interferes runID False) (Drift runID) (fun _ w => IsMarked runID base run₀ definition w)
      (advanceTries registry runID 3) fun result _ _ => result = .ok () := by
    refine (advanceOnce_marked h₀).bind fun result => ?_
    rintro g w rfl
    rfl
  refine ((attemptRules False True h₀).advanceOnce.of fun _ _ _ => trivial).bind fun result => ?_
  cases result with
  | ok _ => exact Triple.done fun _ _ _ => rfl
  | error err =>
      -- the only error of the first attempt is the lost mark
      have hlost : ∀ w, Ended registry runID base run₀ definition False True (.error err) w →
          err = .conflict ∧ IsMarked runID base run₀ definition w := by
        intro w h
        rcases h.result trivial hbuilds with hok | ⟨herr, hmarked⟩
        · cases hok
        · cases herr
          exact ⟨rfl, hmarked⟩
      dsimp only
      split
      · exact hagain.of fun _ w h => (hlost w h).2
      · next hother =>
        refine Triple.done fun _ w h => ?_
        rw [(hlost w h).1] at hother
        exact absurd rfl hother

end Races

/-- Whatever the engine, its workers and its clients have done before, every call of `Advance` on a
run with a registered definition returns nil when it returns, in any interleaving of such calls, if
no mapper fails and every release finds its execution still blocked. -/
theorem advance_race_ok {definitions : List Definition} {registry : Registry} {runID : UUID}
    (hbuilt : ∀ d ∈ definitions, d.Constructed) (hregistry : newRegistry definitions = .ok registry)
    {base w : World} {before : List (Thread Unit Call Reply Unit)}
    {threads : List (Thread Unit Call Reply (Except GoError Unit))}
    (hreach : Reach storeSystem World.Initial (Caller registry runID) base before)
    (huuid : ∀ id ∈ base.issued, Unguessed registry id)
    {run : PipelineRun} (hrun : base.store.runs.lookup runID = some run)
    {definition : CompiledDefinition} (hfound : registry.find run = some definition)
    (hmappers : ∀ node ∈ definition.nodes, ∀ outputs err, Supplied base.store runID node outputs →
      safeBuildInput node run.input outputs ≠ .error err)
    (hrace : Reach (releaseSystem True) (· = base) (· = advance registry runID) w threads) :
    ∀ t ∈ threads, ∀ result, t.program.result? = some result → result = .ok () := by
  cases hopen : run.status.isTerminal with
  | true =>
      have hstill : Still registry runID base.store := by
        intro run' hrun'
        cases hrun.symm.trans hrun'
        exact Or.inl hopen
      intro t ht result hresult
      exact ((hstill.of_reach hrace).2 t ht result hresult).mpr ⟨run, hrun, Or.inl hopen⟩
  | false =>
      have h₀ := opened_of_reach hbuilt hregistry hreach huuid hrun hopen hfound
      refine (h₀.of_reach (advance_careful h₀ ?_) hrace).2
      rintro node err ⟨hnode, -, outputs, hsupplied, hresult⟩
      exact hmappers node hnode outputs err hsupplied hresult

/-! ## Two calls that meet -/

/-- The mappers of this pipeline do not fail. -/
theorem etl_builds {run : PipelineRun} {definition : CompiledDefinition}
    (h : etlRegistry.find run = some definition) {node : NodeDefinition}
    (hnode : node ∈ definition.nodes) (initial : RawMessage) (outputs : String → RawMessage)
    (err : GoError) : safeBuildInput node initial outputs ≠ .error err := by
  have hmappers : etlRegistry.definitions.entries.flatMap
      (fun entry => entry.2.nodes.map (·.mapper)) =
      [.start (some .ok), .next "extract" (some .ok)] := rfl
  have hmem : node.mapper ∈ etlRegistry.definitions.entries.flatMap
      (fun entry => entry.2.nodes.map (·.mapper)) :=
    List.mem_flatMap.mpr ⟨_, AList.mem_lookup_iff.mp h, List.mem_map_of_mem hnode⟩
  rw [hmappers] at hmem
  simp only [List.mem_cons, List.not_mem_nil, or_false] at hmem
  rcases hmem with hmapper | hmapper <;>
    simp [safeBuildInput, NodeDefinition.buildInput, hmapper, callMapper]

/-- Execute the steps in which every release finds its execution blocked. -/
def carefulExecution : Library.Interleaving.Execution (releaseSystem True) where
  exec := storeExecution.exec
  ready := fun w _ c => decide (FindsBlocked w.store c)
  allowed := fun _ _ _ h _ => of_decide_eq_true h
  step := fun w g c _ => storeExecution.step w g c rfl

/-- Both calls list the executions and create the second node; the one that marks the run second
is refused, reads and lists again and finds nothing to do. -/
def refusedMoves : List (Move Call Reply (Except GoError Unit)) :=
  [.spawn (advance etlRegistry 1), .spawn (advance etlRegistry 1), .step 0, .step 1, .step 0,
    .step 1, .step 0, .step 1, .step 0, .step 1, .step 1, .step 1]

/-- The run is registered, and both calls have returned. -/
def bothReturned (base : World)
    (final : World × List (Thread Unit Call Reply (Except GoError Unit))) : Bool :=
  (base.store.runs.lookup 1).any (fun run => (etlRegistry.find run).isSome) &&
    decide (final.2.length = 2) && final.2.all fun t => t.program.result?.isSome

theorem advance_race_ok_of_refusedMoves :
    ∃ (base w : World) (threads : List (Thread Unit Call Reply (Except GoError Unit))),
      Reach (releaseSystem True) (· = base) (· = advance etlRegistry 1) w threads ∧
      threads.length = 2 ∧ ∀ t ∈ threads, t.program.result? = some (.ok ()) := by
  have hadvance : ∀ m ∈ refusedMoves, m.Spawns (· = advance etlRegistry 1) := by
    simp [refusedMoves, Move.Spawns]
  have hends : (storeExecution.drive extracted (World.init 5) []).any (fun start =>
      (carefulExecution.drive refusedMoves start.1 []).any (bothReturned start.1)) = true := by
    decide
  obtain ⟨base, before, w, threads, hreach, hrace, hreturned⟩ :=
    storeExecution.drive_again carefulExecution extracted_caller hadvance (World.init_initial 5)
      hends
  simp only [bothReturned, Bool.and_eq_true, Option.any_eq_true, Option.isSome_iff_exists,
    decide_eq_true_eq, List.all_eq_true] at hreturned
  obtain ⟨⟨⟨run, hrun, definition, hfound⟩, hlength⟩, hall⟩ := hreturned
  have hok := advance_race_ok etl_constructed newRegistry_etl hreach (fun id _ => unguessed_etl id)
    hrun hfound (fun node hnode outputs err _ => etl_builds hfound hnode run.input outputs err) hrace
  refine ⟨base, w, threads, hrace, hlength, fun t ht => ?_⟩
  obtain ⟨result, hresult⟩ := hall t ht
  rw [hresult, hok t ht result hresult]

/-- The run succeeds, its first node is restarted and succeeds again. -/
def restartedMoves : List (Move Call Reply Unit) :=
  [.spawn (advance etlRegistry 1).discard, .step 3, .step 3, .step 3, .step 3,
    .spawn (.single claimAny), .step 4, .spawn (.single (.succeed 4 5 "3")), .step 5,
    .spawn (advance etlRegistry 1).discard, .step 6, .step 6, .step 6,
    .spawn (restartExecution etlRegistry 2).discard, .step 7, .step 7, .step 7, .step 7, .step 7,
    .spawn (.single claimAny), .step 8, .spawn (.single (.succeed 2 6 "7")), .step 9]

/-- The second node is blocked since then. -/
def reblocked : List (Move Call Reply Unit) := extracted ++ restartedMoves

theorem reblocked_caller : ∀ m ∈ reblocked, m.Spawns (Caller etlRegistry 1) := by
  have hclaim : Participant etlRegistry (.single claimAny) := .worker _ rfl
  have hload : Participant etlRegistry (.single (.succeed 4 5 "3")) := .worker _ rfl
  have hextract : Participant etlRegistry (.single (.succeed 2 6 "7")) := .worker _ rfl
  have hmoves : ∀ m ∈ reblocked, m.Spawns (Participant etlRegistry) := by
    refine List.forall_mem_append.mpr ⟨extracted_participant, ?_⟩
    simp [restartedMoves, Move.Spawns, Participant.advance, Participant.restart, hclaim, hextract,
      hload]
  exact fun m hm => (hmoves m hm).mono fun _ hp => hp.caller

/-- Both calls list the blocked execution; the second one releases it in vain. -/
def lostMoves : List (Move Call Reply (Except GoError Unit)) :=
  [.spawn (advance etlRegistry 1), .spawn (advance etlRegistry 1), .step 0, .step 1, .step 0,
    .step 1, .step 0, .step 1, .step 0]

/-- The run is registered, and the second call has returned that the execution is active. -/
def releaseLost (base : World)
    (final : World × List (Thread Unit Call Reply (Except GoError Unit))) : Bool :=
  (base.store.runs.lookup 1).any (fun run => (etlRegistry.find run).isSome) &&
    decide (final.2.map (·.program.result?) = [some (.ok ()), some (.error .active)])

/-- The call that finds the node released by the other one returns an error. -/
theorem lost_release_reported :
    ∃ base before w threads run definition,
      Reach storeSystem World.Initial (Caller etlRegistry 1) base before ∧
      base.store.runs.lookup 1 = some run ∧ etlRegistry.find run = some definition ∧
      (∀ node ∈ definition.nodes, ∀ outputs err, safeBuildInput node run.input outputs ≠
        .error err) ∧
      Reach storeSystem (· = base) (· = advance etlRegistry 1) w threads ∧
      threads.map (·.program.result?) = [some (.ok ()), some (.error .active)] := by
  have hadvance : ∀ m ∈ lostMoves, m.Spawns (· = advance etlRegistry 1) := by
    simp [lostMoves, Move.Spawns]
  have hends : (storeExecution.drive reblocked (World.init 5) []).any (fun start =>
      (storeExecution.drive lostMoves start.1 []).any (releaseLost start.1)) = true := by decide
  obtain ⟨base, before, w, threads, hreach, hrace, hlost⟩ :=
    storeExecution.drive_again storeExecution reblocked_caller hadvance (World.init_initial 5)
      hends
  simp only [releaseLost, Bool.and_eq_true, Option.any_eq_true, Option.isSome_iff_exists,
    decide_eq_true_eq] at hlost
  obtain ⟨⟨run, hrun, definition, hfound⟩, hresults⟩ := hlost
  exact ⟨base, before, w, threads, run, definition, hreach, hrun, hfound,
    fun node hnode => etl_builds hfound hnode run.input, hrace, hresults⟩

end Ody.Pipeline
