import Ody.Pipeline.Gating
import Ody.Pipeline.SuccessSoundness

/-!
# The end of a run

`SetPipelineRunStatus` writes any status over any other, so whether a finished
run stays as it is depends on its callers. `advanceOnce` stops at a finished run,
and the revision keeps its later writes from an older reading. `Cancel` has no
such test: it cancels a run that had already finished. As long as every `Cancel`
finds its run unfinished, a finished run keeps its status, error text and finish
time until it is restarted.
-/

namespace Ody.Pipeline

open Library.Tables Library.Interleaving Memory

/-! ## Attempts to advance a run that was read -/

section Attempts

variable {registry : Registry} {runID : UUID}

variable (runID) in
/-- What an attempt to advance a run knows about the run it has read as unfinished. -/
def ReadUnfinished (target : UUID) (run : PipelineRun) (w : World) : Prop :=
  run.status.isTerminal = false ∧ (target = runID → ReadRun runID run w)

theorem ReadUnfinished.stable {target : UUID} {run : PipelineRun} {w w' : World}
    (h : ReadUnfinished runID target run w) (hrely : Rely runID w w') :
    ReadUnfinished runID target run w' :=
  ⟨h.1, fun heq => (h.2 heq).stable hrely⟩

variable (runID) in
/-- The calls of an attempt to advance a run. A status is written at the revision of a reading
that found the run unfinished. -/
inductive AttemptCall (target : UUID) (w : World) : Call → Prop
  | get : AttemptCall target w (.getPipelineRun target)
  | list : AttemptCall target w (.listRunExecutions target)
  | release (id : UUID) (input : RawMessage) (availableAt : Time) :
      AttemptCall target w (.releaseExecution id input availableAt)
  | create (node : NodeDefinition) (input : RawMessage) :
      AttemptCall target w (.createExecution (nodeRequest target node input))
  | mark {run status text} (h : ReadUnfinished runID target run w) :
      AttemptCall target w (.setPipelineRunStatus target run.revision status text)

variable {G : Type} {sys : System World G Call Reply} {I : World → Prop} {R : World → World → Prop}

variable (sys I R) in
/-- The call, where it may be taken, keeps the invariant and the rely. -/
def Tolerated (w : World) (c : Call) : Prop :=
  ∀ g env, I w → env.Fresh w → sys.allowed w g c → I (w.after env c) ∧ R w (w.after env c)

variable (sys I R runID) in
/-- The store is the system, and its rely knows the run. -/
structure KnowsRun : Prop where
  step : sys.step = World.Step
  known : ∀ w, I w → w.Known
  rely : ∀ w w', R w w' → Rely runID w w'

/-- A call that is tolerated wherever it is issued. -/
theorem KnowsRun.triple (knows : KnowsRun runID sys I R) {P : G → World → Prop} {c : Call}
    {Q : Reply c → G → World → Prop}
    (hstable : ∀ g w w', P g w → R w w' → P g w')
    (hc : ∀ g w, P g w → Tolerated sys I R w c)
    (hpost : ∀ g w (env : Env), w.Known → env.Fresh w → sys.allowed w g c → P g w →
      Q (exec env w.store c).1 (sys.observe w c g) (w.after env c)) :
    CallTriple sys I R R P c Q := by
  intro g w hP w' hrely hI ha r w'' hstep
  rw [knows.step] at hstep
  obtain ⟨env, hfresh, rfl, rfl⟩ := hstep
  have hnow := hstable g w w' hP hrely
  obtain ⟨hI', hR⟩ := hc g w' hnow g env hI hfresh ha
  exact ⟨hI', hR, hpost g w' env (knows.known w' hI) hfresh ha hnow⟩

/-- A tolerated call after which only the reading is known. -/
theorem KnowsRun.keeps (knows : KnowsRun runID sys I R) {target : UUID} {run : PipelineRun}
    {c : Call} (hc : ∀ w, ReadUnfinished runID target run w → Tolerated sys I R w c) :
    CallTriple sys I R R (fun _ w => ReadUnfinished runID target run w) c
      fun _ _ w => ReadUnfinished runID target run w :=
  knows.triple (fun _ _ _ h hR => h.stable (knows.rely _ _ hR)) (fun _ => hc)
    fun _ _ _ hknown hfresh _ h => h.stable (rely_after hknown hfresh _)

/-- An attempt is safe if its calls are tolerated. -/
def KnowsRun.attempt (knows : KnowsRun runID sys I R) (registry : Registry) (target : UUID)
    (hcall : ∀ w c, AttemptCall runID target w c → Tolerated sys I R w c) :
    AdvanceRules sys I R R registry target where
  Start := fun _ _ => True
  Seen := fun run _ w => target = runID → ReadRun runID run w
  Snap := fun run _ _ _ w => ReadUnfinished runID target run w
  Ends := fun _ _ _ => True
  get := by
    apply knows.triple (fun _ _ _ _ _ => trivial) fun _ w _ => hcall w _ .get
    intro _ w env hknown _ _ _
    cases hreply : (exec env w.store (.getPipelineRun target)).1 with
    | error err => trivial
    | ok run =>
        rintro rfl
        exact readRun_of_get hknown env hreply
  stop := fun _ _ _ _ _ => trivial
  missing := fun _ _ _ _ _ => trivial
  list := by
    intro run definition hopen _
    apply knows.triple (fun _ _ _ h hR heq => (h heq).stable (knows.rely _ _ hR))
      fun _ w _ => hcall w _ .list
    intro _ w _ hknown hfresh _ hread
    exact ⟨hopen, fun heq => (hread heq).stable (rely_after hknown hfresh _)⟩
  failed := fun _ _ _ _ _ _ _ =>
    (knows.keeps fun w h => hcall w _ (.mark h)).weaken fun _ _ _ _ => trivial
  skip := fun _ _ _ _ _ h => h
  unbuilt := fun _ _ _ =>
    (knows.keeps fun w h => hcall w _ (.mark h)).weaken fun _ _ _ _ => trivial
  release := by
    intro run definition items view done node input item _ _ _ _
    refine (knows.keeps fun w _ => hcall w _ (.release _ _ _)).weaken fun reply _ _ h => ?_
    cases reply with
    | error err => trivial
    | ok _ => exact h
  create := by
    intro run definition items view done node input _ _ _ _
    refine (knows.keeps fun w _ => hcall w _ (.create _ _)).weaken fun reply _ _ h => ?_
    cases reply with
    | error err => trivial
    | ok _ => exact h
  succeed := fun _ _ =>
    (knows.keeps fun w h => hcall w _ (.mark h)).weaken fun _ _ _ _ => trivial
  running := fun _ _ =>
    (knows.keeps fun w h => hcall w _ (.mark h)).weaken fun _ _ _ _ => trivial
  idle := fun _ _ _ _ _ _ => trivial

/-- The operations of the engine are safe if their calls are tolerated. -/
def KnowsRun.operations (knows : KnowsRun runID sys I R) (registry : Registry)
    (hcall : ∀ target w c, AttemptCall runID target w c → Tolerated sys I R w c)
    (hprepare : ∀ w c, preparatory c = true → Tolerated sys I R w c)
    (hrestart : ∀ w request, Tolerated sys I R w (.restartPipelineSubgraph request)) :
    OperationRules sys I R R registry where
  Free := fun c => ∀ w, Tolerated sys I R w c
  Seen := fun _ _ _ _ => True
  preparatory := fun c hc w => hprepare w c hc
  free := fun _ hc => knows.triple (fun _ _ _ _ _ => trivial) (fun _ w _ => hc w)
    fun _ _ _ _ _ _ _ => trivial
  get := fun _ => knows.triple (fun _ _ _ _ _ => trivial) (fun _ w _ => hprepare w _ rfl)
    fun _ _ _ _ _ _ _ _ _ => trivial
  restart := fun _ _ _ _ _ _ => knows.triple (fun _ _ _ _ _ => trivial)
    (fun _ w _ => hrestart w _) fun _ _ _ _ _ _ _ => trivial
  advance := fun target =>
    (knows.attempt registry target (hcall target)).advance (fun _ _ _ _ _ => trivial)
      fun _ _ _ => trivial

end Attempts

/-! ## Finished runs -/

section Conditions

variable (registry : Registry) (runID : UUID)

/-- The run and the revision of a write that cancels a run. -/
def cancelMark : Call → Option (UUID × Nat)
  | .setPipelineRunStatus id revision .cancelled _ => some (id, revision)
  | _ => none

/-- The call restarts no execution of the run. -/
def SparesRun (c : Call) : Prop := ∀ request ∈ restartRequest c, request.runID ≠ runID

/-- If the call cancels the run, it finds the run unfinished. -/
def CancelsUnfinished (s : MemoryStore) (c : Call) : Prop :=
  ∀ mark ∈ cancelMark c, mark.1 = runID → ∀ run ∈ s.runs.lookup runID,
    run.revision = mark.2 → run.status.isTerminal = false

instance (c : Call) : Decidable (SparesRun runID c) :=
  inferInstanceAs (Decidable (∀ _ ∈ restartRequest c, _))

instance (s : MemoryStore) (c : Call) : Decidable (CancelsUnfinished runID s c) :=
  inferInstanceAs (Decidable (∀ _ ∈ cancelMark c, _))

/-- The store, in the interleavings that do not restart the run. -/
def sparedSystem : System World Unit Call Reply :=
  { storeSystem with allowed := fun _ _ c => SparesRun runID c }

/-- The store, in those interleavings that also cancel the run only while it is unfinished. -/
def settledSystem : System World Unit Call Reply :=
  { storeSystem with allowed := fun w _ c => SparesRun runID c ∧ CancelsUnfinished runID w.store c }

/-- The programs that run at the same time. -/
inductive Coordinator : Program Call Reply Unit → Prop
  | run (definition : Definition) (input : Except GoError RawMessage)
      (options : List (CreatePipelineRun → CreatePipelineRun)) :
      Coordinator (run registry definition input options).discard
  | advance (target : UUID) : Coordinator (advance registry target).discard
  | reconcile : Coordinator (reconcile registry).discard
  | cancel (target : UUID) (reason : String) : Coordinator (cancel target reason).discard
  | restart (executionID : UUID) : Coordinator (restartExecution registry executionID).discard
  | worker (c : Call) (h : workerCall c = true) : Coordinator (.single c)

end Conditions

/-- A rule for the programs: the calls of `Cancel` and of the workers have to be free. -/
theorem Coordinator.triple {S G : Type} {sys : System S G Call Reply} {I : S → Prop}
    {R Gu : S → S → Prop} {registry : Registry} (rules : OperationRules sys I R Gu registry)
    (hcancel : ∀ id reason, rules.Free (.cancelExecution id reason))
    (hmark : ∀ runID revision reason,
      rules.Free (.setPipelineRunStatus runID revision .cancelled reason))
    (hworker : ∀ c, workerCall c = true → rules.Free c)
    {p : Program Call Reply Unit} (h : Coordinator registry p) :
    Triple sys I R Gu (fun _ _ => True) p fun _ _ _ => True := by
  cases h with
  | run definition input options => exact (rules.run definition input options).discard
  | advance target => exact (rules.advance target).discard
  | reconcile => exact rules.reconcile.discard
  | cancel target reason => exact (rules.cancel hcancel hmark target reason).discard
  | restart executionID => exact (rules.restartExecution executionID).discard
  | worker c hc => exact rules.freeCall (hworker c hc) fun _ => OperationRules.ended ()

section Settlement

variable {registry : Registry} {runID : UUID}

/-- The run has ended as it had before. -/
structure SameEnd (run run' : PipelineRun) : Prop where
  status : run'.status = run.status
  error : run'.error = run.error
  finishedAt : run'.finishedAt = run.finishedAt

theorem SameEnd.trans {run run' run'' : PipelineRun} (h : SameEnd run run')
    (h' : SameEnd run' run'') : SameEnd run run'' :=
  ⟨h'.status.trans h.status, h'.error.trans h.error, h'.finishedAt.trans h.finishedAt⟩

variable (runID) in
/-- What the clients do not undo: a finished run stays as it is. -/
structure Settles (w w' : World) : Prop where
  rely : Rely runID w w'
  settled : ∀ run, w.store.runs.lookup runID = some run → run.status.isTerminal = true →
    ∃ run', w'.store.runs.lookup runID = some run' ∧ SameEnd run run'

theorem Settles.refl (w : World) : Settles runID w w :=
  ⟨Rely.refl w, fun run hrun _ => ⟨run, hrun, rfl, rfl, rfl⟩⟩

theorem Settles.trans {a b c : World} (ha : a.Known) (hab : Settles runID a b)
    (hbc : Settles runID b c) : Settles runID a c where
  rely := hab.rely.trans ha hbc.rely
  settled := by
    intro run hrun hterminal
    obtain ⟨run', hrun', hsame⟩ := hab.settled run hrun hterminal
    obtain ⟨run'', hrun'', hsame'⟩ := hbc.settled run' hrun' (hsame.status ▸ hterminal)
    exact ⟨run'', hrun'', hsame.trans hsame'⟩

variable (runID) in
/-- A call that leaves a finished run as it is. -/
structure Settling (w : World) (c : Call) : Prop where
  mark : ∀ revision status text, c = .setPipelineRunStatus runID revision status text →
    ∀ run, w.store.runs.lookup runID = some run → run.revision = revision →
      run.status.isTerminal = false
  restart : SparesRun runID c
  purge : ∀ before limit, c ≠ .purge before limit

theorem Settling.after {w : World} (hknown : w.Known) {env : Env} (hfresh : env.Fresh w) {c : Call}
    (hc : Settling runID w c) : Settles runID w (w.after env c) := by
  refine ⟨rely_after hknown hfresh c, ?_⟩
  intro run hrun hterminal
  cases exec_runEffect env w.store c runID with
  | same hsame => exact ⟨run, hsame.trans hrun, rfl, rfl, rfl⟩
  | inserted _ _ => exact absurd (hknown.runs _ _ hrun) (hfresh 0)
  | status hold _ =>
      cases hrun.symm.trans hold
      have hopen := hc.mark _ _ _ rfl run hold rfl
      exact absurd (hterminal.symm.trans hopen) (by simp)
  | reopened _ _ => exact absurd rfl (hc.restart _ rfl)
  | deleted _ => exact absurd rfl (hc.purge _ _)

/-- A call that neither writes a status nor purges. -/
theorem settling_of_spares {w : World} {c : Call}
    (hmark : ∀ id revision status text, c ≠ .setPipelineRunStatus id revision status text)
    (hpurge : ∀ before limit, c ≠ .purge before limit) (hspares : SparesRun runID c) :
    Settling runID w c :=
  ⟨fun _ _ _ hc => absurd hc (hmark _ _ _ _), hspares, hpurge⟩

/-- A status written at the revision of the reading finds the run unfinished. -/
theorem AttemptCall.settling {target : UUID} {w : World} {c : Call}
    (h : AttemptCall runID target w c) (hspares : SparesRun runID c) : Settling runID w c := by
  cases h with
  | mark hread =>
      refine ⟨?_, hspares, by simp⟩
      intro revision status text hc run hrun hrevision
      cases hc
      rw [(hread.2 rfl).same run hrun hrevision]
      exact hread.1
  | _ => exact settling_of_spares (by simp) (by simp) hspares

variable (runID) in
theorem settled_knows : KnowsRun runID (settledSystem runID) World.Known (Settles runID) :=
  ⟨rfl, fun _ h => h, fun _ _ h => h.rely⟩

theorem tolerated_of_settling {w : World} {c : Call}
    (h : SparesRun runID c → CancelsUnfinished runID w.store c → Settling runID w c) :
    Tolerated (settledSystem runID) World.Known (Settles runID) w c :=
  fun _ env hknown hfresh ha => ⟨hknown.after env c, (h ha.1 ha.2).after hknown hfresh⟩

variable (registry runID) in
/-- The operations of the engine leave a finished run as it is. -/
def settlingOperations :
    OperationRules (settledSystem runID) World.Known (Settles runID) (Settles runID) registry :=
  (settled_knows runID).operations registry
    (fun _ _ _ h => tolerated_of_settling fun hspares _ => h.settling hspares)
    (fun _ c hc => tolerated_of_settling fun hspares _ =>
      settling_of_spares (by rintro _ _ _ _ rfl; cases hc) (by rintro _ _ rfl; cases hc) hspares)
    (fun _ _ => tolerated_of_settling fun hspares _ =>
      settling_of_spares (by simp) (by simp) hspares)

theorem Coordinator.safe {p : Program Call Reply Unit} (h : Coordinator registry p) :
    Triple (settledSystem runID) World.Known (Settles runID) (Settles runID)
      (fun _ w => w.Known) p fun _ _ _ => True := by
  refine Triple.of ?_ fun _ _ _ => trivial
  apply Coordinator.triple (settlingOperations registry runID) _ _ _ h
  · exact fun _ _ _ => tolerated_of_settling fun hspares _ =>
      settling_of_spares (by simp) (by simp) hspares
  · intro target revision reason w
    refine tolerated_of_settling fun hspares hcancels => ⟨?_, hspares, by simp⟩
    intro revision' status text hc run hrun hrevision
    cases hc
    exact hcancels _ rfl rfl run hrun hrevision
  · intro c hc w
    refine tolerated_of_settling fun hspares _ => ?_
    apply settling_of_spares _ _ hspares
    · rintro id revision status text rfl
      cases hc
    · rintro before limit rfl
      cases hc

/-- In every interleaving in which each `Cancel` that takes effect on the run finds it unfinished,
a finished run keeps its status, error text and finish time. -/
theorem terminal_absorbing {w w' : World} {threads threads' : List (Thread Unit Call Reply Unit)}
    (h : Reach (settledSystem runID) World.Known (Coordinator registry) w threads)
    (later : Later (settledSystem runID) (Coordinator registry) (w, threads) (w', threads'))
    {run : PipelineRun} (hrun : w.store.runs.lookup runID = some run)
    (hterminal : run.status.isTerminal = true) :
    ∃ run', w'.store.runs.lookup runID = some run' ∧ run'.status = run.status ∧
      run'.error = run.error ∧ run'.finishedAt = run.finishedAt := by
  have htrans : ∀ a b c : World, a.Known → b.Known → c.Known → Settles runID a b →
      Settles runID b c → Settles runID a c := fun _ _ _ ha _ _ hab hbc => hab.trans ha hbc
  have hsafe : ∀ w threads,
      Reach (settledSystem runID) World.Known (Coordinator registry) w threads → _ ∧ _ :=
    fun w threads => Reach.safe Settles.refl htrans (fun _ _ h => h) (fun _ h => h)
      fun p hp => hp.safe
  obtain ⟨-, hsettled⟩ := Reach.rely Settles.refl htrans (fun _ _ h => h) hsafe h later
  obtain ⟨run', hrun', hsame⟩ := hsettled run hrun hterminal
  exact ⟨run', hrun', hsame.status, hsame.error, hsame.finishedAt⟩

end Settlement

/-! ## Two runs -/

/-- Execute the steps that do not restart the run. -/
def sparedExecution (runID : UUID) : Library.Interleaving.Execution (sparedSystem runID) where
  exec := storeExecution.exec
  ready := fun _ _ c => decide (SparesRun runID c)
  allowed := by
    intro w g c h
    have hspares : SparesRun runID c := of_decide_eq_true h
    exact hspares
  step := fun w g c _ => storeExecution.step w g c rfl

/-- Execute the steps that also cancel the run only while it is unfinished. -/
def settledExecution (runID : UUID) : Library.Interleaving.Execution (settledSystem runID) where
  exec := storeExecution.exec
  ready := fun w _ c => decide (SparesRun runID c ∧ CancelsUnfinished runID w.store c)
  allowed := by
    intro w g c h
    have hsettled : SparesRun runID c ∧ CancelsUnfinished runID w.store c := of_decide_eq_true h
    exact hsettled
  step := fun w g c _ => storeExecution.step w g c rfl

/-- The first node fails and an advance marks the run. -/
def failedMoves : List (Move Call Reply Unit) :=
  .spawn (run etlRegistry etl (.ok "1") []).discard :: List.replicate 6 (.step 0) ++
  [.spawn (.single claimAny), .step 1, .spawn (.single (.fail 2 3 "no source")), .step 2,
    .spawn (advance etlRegistry 1).discard, .step 3, .step 3, .step 3]

/-- A second advance and a reconciliation find the failed run. -/
def afterFailure : List (Move Call Reply Unit) :=
  [.spawn (advance etlRegistry 1).discard, .step 4, .spawn (reconcile etlRegistry).discard, .step 5]

/-- The run has ended in this way. -/
def runEnded (status : RunStatus) (error : String) (w : World) : Bool :=
  (w.store.runs.lookup 1).any fun run => run.status == status && run.error == error

theorem of_runEnded {status : RunStatus} {error : String} {w : World}
    (h : runEnded status error w = true) :
    ∃ run, w.store.runs.lookup 1 = some run ∧ run.status = status ∧ run.error = error := by
  simpa [runEnded, Option.any_eq_true] using h

theorem terminal_absorbing_of_failedMoves :
    ∃ (w w' : World) (threads threads' : List (Thread Unit Call Reply Unit))
      (run run' : PipelineRun),
      Later (settledSystem 1) (Coordinator etlRegistry) (w, threads) (w', threads') ∧
      w.store.runs.lookup 1 = some run ∧ run.status = .failed ∧
      w'.store.runs.lookup 1 = some run' ∧ run'.status = run.status ∧
      run'.error = run.error ∧ run'.finishedAt = run.finishedAt := by
  have hclaim : Coordinator etlRegistry (.single claimAny) := .worker _ rfl
  have hfail : Coordinator etlRegistry (.single (.fail 2 3 "no source")) := .worker _ rfl
  have hmoves : ∀ m ∈ failedMoves, m.Spawns (Coordinator etlRegistry) := by
    simp [failedMoves, Move.Spawns, Coordinator.run, Coordinator.advance, hclaim, hfail]
  have hafter : ∀ m ∈ afterFailure, m.Spawns (Coordinator etlRegistry) := by
    simp [afterFailure, Move.Spawns, Coordinator.advance, Coordinator.reconcile]
  have hends : ((settledExecution 1).drive failedMoves (World.init 5) []).any (fun middle =>
      runEnded .failed "node extract: no source" middle.1 &&
        ((settledExecution 1).drive afterFailure middle.1 middle.2).any fun final =>
          runEnded .failed "node extract: no source" final.1) = true := by decide
  obtain ⟨w, threads, w', threads', hreach, hlater, hfailed, -⟩ :=
    (settledExecution 1).drive_then hmoves hafter (World.init_known 5) hends
  obtain ⟨run, hrun, hs, -⟩ := of_runEnded hfailed
  have hterminal : run.status.isTerminal = true := by simp [hs, RunStatus.isTerminal]
  obtain ⟨run', hrun', hsame⟩ := terminal_absorbing hreach hlater hrun hterminal
  exact ⟨w, w', threads, threads', run, run', hlater, hrun, hs, hrun', hsame⟩

/-- The run of `etlMoves` is cancelled after it has succeeded. -/
def cancelSucceeded : List (Move Call Reply Unit) :=
  [.spawn (cancel 1 "too late").discard, .step 8, .step 8, .step 8]

theorem cancelled_after_success :
    ∃ (w w' : World) (threads threads' : List (Thread Unit Call Reply Unit))
      (run run' : PipelineRun),
      Reach (sparedSystem 1) World.Initial (Coordinator etlRegistry) w threads ∧
      Later (sparedSystem 1) (Coordinator etlRegistry) (w, threads) (w', threads') ∧
      w.store.runs.lookup 1 = some run ∧ run.status = .succeeded ∧ run.error = "" ∧
      w'.store.runs.lookup 1 = some run' ∧ run'.status = .cancelled ∧ run'.error = "too late" := by
  have hclaim : Coordinator etlRegistry (.single claimAny) := .worker _ rfl
  have hextract : Coordinator etlRegistry (.single (.succeed 2 3 "2")) := .worker _ rfl
  have hload : Coordinator etlRegistry (.single (.succeed 4 5 "3")) := .worker _ rfl
  have hmoves : ∀ m ∈ etlMoves, m.Spawns (Coordinator etlRegistry) := by
    simp [etlMoves, Move.Spawns, Coordinator.run, Coordinator.advance, hclaim, hextract, hload]
  have hafter : ∀ m ∈ cancelSucceeded, m.Spawns (Coordinator etlRegistry) := by
    simp [cancelSucceeded, Move.Spawns, Coordinator.cancel]
  have hends : ((sparedExecution 1).drive etlMoves (World.init 5) []).any (fun middle =>
      runEnded .succeeded "" middle.1 &&
        ((sparedExecution 1).drive cancelSucceeded middle.1 middle.2).any fun final =>
          runEnded .cancelled "too late" final.1) = true := by decide
  obtain ⟨w, threads, w', threads', hreach, hlater, hbefore, hafterwards⟩ :=
    (sparedExecution 1).drive_then hmoves hafter (World.init_initial 5) hends
  obtain ⟨run, hrun, hs, herror⟩ := of_runEnded hbefore
  obtain ⟨run', hrun', hs', herror'⟩ := of_runEnded hafterwards
  exact ⟨w, w', threads, threads', run, run', hreach, hlater, hrun, hs, herror, hrun', hs', herror'⟩

end Ody.Pipeline
