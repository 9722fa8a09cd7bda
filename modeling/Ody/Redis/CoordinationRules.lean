import Ody.Pipeline.SuccessSoundness
import Ody.Redis.Coordination
import Ody.Redis.Listings

/-!
# Rules for sessions that coordinate a run

What each operation of the store establishes for the engine while the commands of
other sessions come between its own. A list is not one read of the store, so the
records of one list are from different moments; the facts that the engine needs of
a record hold from its own read on.
-/

namespace Ody.Redis

open Library.Tables Library.DerivedIndexes Library.Interleaving Library.Optimistic
open Memory (Env)
open Pipeline (Registry SameRun CompiledDefinition NodeDefinition View Rebuilt)

section Run

variable {registry : Registry} {runID : UUID}

/-! ## Facts that interference keeps -/

/-- A run that is stored after interference was stored before. -/
theorem RunRely.run_before {s s' : Server} (h : RunRely runID s s') (hissued : runID ∈ s.used)
    {run' : PipelineRun} (h' : s'.keys.runs.records.lookup runID = some run') :
    ∃ run, s.keys.runs.records.lookup runID = some run := by
  cases hrun : s.keys.runs.records.lookup runID with
  | none => cases (h.gone hissued hrun).symm.trans h'
  | some run => exact ⟨run, rfl⟩

variable (runID) in
/-- The run was read with this record; what is stored now is the same run, not earlier. -/
structure Seen (run : PipelineRun) (s : Server) : Prop where
  issued : runID ∈ s.used
  run : ∀ run', s.keys.runs.records.lookup runID = some run' →
    SameRun run run' ∧ run.revision ≤ run'.revision

theorem Seen.stable {run : PipelineRun} {s s' : Server} (h : Seen runID run s)
    (hrely : RunRely runID s s') : Seen runID run s' where
  issued := hrely.later.used _ h.issued
  run := by
    intro run'' h''
    obtain ⟨run', h'⟩ := hrely.run_before h.issued h''
    obtain ⟨hsame, hle⟩ := h.run run' h'
    obtain ⟨hsame', hle', -⟩ := hrely.run run' run'' h' h''
    exact ⟨hsame.trans hsame', hle.trans hle'⟩

variable (registry runID) in
/-- The execution of the run was read with this record after the run was. -/
structure SnapNode (run : PipelineRun) (item : Execution) (s : Server) : Prop where
  declared : ∀ run' definition, s.keys.runs.records.lookup runID = some run' →
    registry.find run' = some definition → item.nodeKey ∈ definition.keys
  succeeded : ∀ run', s.keys.runs.records.lookup runID = some run' → run'.revision = run.revision →
    item.status = .succeeded → Node runID s item

theorem SnapNode.stable {run : PipelineRun} {item : Execution} {s s' : Server}
    (hseen : Seen runID run s) (h : SnapNode registry runID run item s)
    (hrely : RunRely runID s s') : SnapNode registry runID run item s' where
  declared := by
    intro run'' definition h'' hfound
    obtain ⟨run', h'⟩ := hrely.run_before hseen.issued h''
    rw [(hrely.run run' run'' h' h'').1.find registry] at hfound
    exact h.declared run' definition h' hfound
  succeeded := by
    intro run'' h'' heq hs
    obtain ⟨run', h'⟩ := hrely.run_before hseen.issued h''
    obtain ⟨-, hle⟩ := hseen.run run' h'
    obtain ⟨-, hle', hsame⟩ := hrely.run run' run'' h' h''
    -- the revision has not moved since the run was read
    obtain ⟨-, hkept⟩ := hsame (by omega)
    exact hkept item (h.succeeded run' h' (by omega) hs) hs

variable (registry runID) in
/-- The executions were read after the run was. -/
structure Snap (run : PipelineRun) (items : List Execution) (s : Server) : Prop where
  seen : Seen runID run s
  nodes : ∀ item ∈ items, SnapNode registry runID run item s

theorem Snap.stable {run : PipelineRun} {items : List Execution} {s s' : Server}
    (h : Snap registry runID run items s) (hrely : RunRely runID s s') :
    Snap registry runID run items s' :=
  ⟨h.seen.stable hrely, fun item hitem => (h.nodes item hitem).stable h.seen hrely⟩

/-- A complete view of the executions that were read covers every node of the definition. -/
theorem Snap.earned {run : PipelineRun} {items : List Execution} {view : View}
    {definition : CompiledDefinition} {s : Server} (h : Snap registry runID run items s)
    (hview : Rebuilt items view) (hfound : registry.find run = some definition)
    (hcomplete : (definition.nodes.isEmpty || view.complete definition) = true) {run' : PipelineRun}
    (h' : s.keys.runs.records.lookup runID = some run') (hrevision : run'.revision = run.revision) :
    NodesComplete registry runID s run' := by
  have hfound' : registry.find run' = some definition :=
    ((h.seen.run run' h').1.find registry).trans hfound
  refine ⟨definition, hfound', ?_⟩
  intro node hnode
  obtain ⟨item, hitem, hkey, hs⟩ := Pipeline.succeeded_of_view hview
    (fun item hitem => (h.nodes item hitem).declared run' definition h' hfound') hcomplete hnode
  exact ⟨item, (h.nodes item hitem).succeeded run' h' hrevision hs, hkey, hs⟩

/-- If the record of the identifier is still there, it is an execution of the run. -/
structure Belongs (runID : UUID) (s : Server) (id : UUID) : Prop where
  used : id ∈ s.used
  run : ∀ item, s.keys.executions.records.lookup id = some item → item.pipelineRunID = some runID

theorem Belongs.stable {s s' : Server} {id : UUID} (h : Belongs runID s id) (hlater : Later s s') :
    Belongs runID s' id where
  used := hlater.used id h.used
  run := by
    intro item' hl'
    cases hl : s.keys.executions.records.lookup id with
    | none => cases (hlater.gone id h.used hl).symm.trans hl'
    | some item => exact (hlater.same id item item' hl hl').pipelineRunID.trans (h.run item hl)

theorem belongs_of_index {s : Server} (hI : Invariant s) {id : UUID}
    (hid : id ∈ s.keys.zRange (runExecutionsKey runID)) : Belongs runID s id := by
  obtain ⟨item, hl, hscore⟩ := stored_of_mem_index hI.represented hid
  refine ⟨hI.known.executions id item hl, ?_⟩
  intro stored hstored
  cases hl.symm.trans hstored
  by_contra hrun
  rw [executionScore, if_neg hrun] at hscore
  cases hscore

/-! ## Rules -/

/-- The sessions of the server, in the runs in which new records get new identifiers. -/
abbrev sessions : System Server Unit (TxCall Watch Image Command (Query ⊕ Read))
    (TxReply (Sum.elim QueryReply ReadReply)) :=
  reader.system (liftAllowed FreshIDs)

variable (registry runID) in
/-- The invariant of the server while the engine coordinates the run. -/
structure Coordinated (s : Server) : Prop where
  invariant : Invariant s
  sound : RunSound registry runID s

variable (registry runID) in
/-- A session started where `P` holds keeps the invariant and respects the revision. -/
abbrev SessionRule {α : Type} (P : Server → Prop) (p : Session α) (Q : α → Server → Prop) : Prop :=
  Triple sessions (Coordinated registry runID) (RunRely runID) (RunRely runID) (fun _ s => P s) p
    fun a _ s => Q a s

theorem RunStep.coordinated {Creates : CreateExecution → Prop} {Sets : PipelineRun → RunStatus → Prop}
    {s s' : Server} (h : Coordinated registry runID s) (hI' : Invariant s') (hlater : Later s s')
    (hstep : RunStep runID Creates Sets s s')
    (hcreates : ∀ request, Creates request → Permitted registry runID s request)
    (hsets : ∀ run status, Sets run status → Earned registry runID s run status) :
    Coordinated registry runID s' ∧ RunRely runID s s' :=
  ⟨⟨hI', hstep.sound h.sound hlater hcreates hsets⟩, hstep.rely h.invariant.known hlater⟩

section Blocks

variable {α : Type} {P : Server → Prop} {Creates : CreateExecution → Prop}
  {Sets : PipelineRun → RunStatus → Prop}

/-- An operation that commits blocks, issued where what it creates is permitted and a success of the
run is earned. -/
theorem rule_blocks (hstable : ∀ s s', P s → RunRely runID s s' → P s') {p : Op α}
    (hkeeps : Keeps FreshIDs p) (hblocks : p.Issues (BlockCall Creates Sets))
    (hcreates : ∀ s, P s → ∀ request, Creates request → Permitted registry runID s request)
    (hsets : ∀ s, P s → ∀ run status, Sets run status → Earned registry runID s run status) :
    SessionRule registry runID P (lift p) fun _ => P := by
  intro g s hP
  apply safe_lift
  have hsafe : Safe (backend.system FreshIDs) (fun s => Coordinated registry runID s ∧ P s)
      (RunRely runID) (RunRely runID) (fun _ _ _ => True) p g s := by
    apply Safe.strengthen (fun s h => h.1.invariant) (fun s s' h => h.later) _ (hkeeps g s trivial)
      hblocks
    intro s g c r s' hs hc hfresh hstep hI' hlater
    have hrun : RunStep runID Creates Sets s s' :=
      runStep_of_blockCall hs.1.invariant hc hfresh hstep
    obtain ⟨hs', hrely⟩ := hrun.coordinated hs.1 hI' hlater (hcreates s hs.2) (hsets s hs.2)
    exact ⟨⟨hs', hstable s s' hs.2 hrely⟩, hrely⟩
  exact (Safe.carry (fun s s' hP hrely _ => hstable s s' hP hrely) hP hsafe).weaken fun _ _ _ h => h.2

/-- An operation that creates no execution of the run and does not mark it succeeded. -/
theorem rule_harmless {p : Op α} (hkeeps : Keeps FreshIDs p)
    (hblocks : p.Issues (BlockCall (fun request => request.pipelineRunID ≠ some runID)
      fun run status => run.id = runID → status ≠ .succeeded)) :
    SessionRule registry runID (fun _ => True) (lift p) fun _ _ => True := by
  apply rule_blocks (fun _ _ _ _ => trivial) hkeeps hblocks
  · exact fun s _ request hother hrun => absurd hrun hother
  · exact fun s _ run status hother _ hid hs => absurd hs (hother hid)

theorem rule_restartPipelineSubgraph (env : Env) (request : RestartSubgraph)
    (hkeys : (request.rootNodeKey :: request.descendantKeys).Nodup) :
    SessionRule registry runID (fun _ => True) (lift (restartPipelineSubgraph env request))
      fun _ _ => True := by
  intro g s _
  apply safe_lift
  have hnone : ∀ s, ∀ request : CreateExecution, False → Permitted registry runID s request :=
    fun _ _ h => h.elim
  have hkept : ∀ s, ∀ (run : PipelineRun) (status : RunStatus), False →
      Earned registry runID s run status := fun _ _ _ h => h.elim
  have hreads : ∀ keys, (lookupNodes request.runID keys).Issues
      (BlockCall (fun _ => False) fun _ _ => False) := by
    intro keys
    induction keys with
    | nil => trivial
    | cons key rest ih => exact blocks_read (fun _ => rfl) fun _ => ih.bind fun _ => trivial
  have hlookup : Safe (backend.system FreshIDs) (Coordinated registry runID) (RunRely runID)
      (RunRely runID) (fun ids _ s => ∃ keys' : List String, keys'.Nodup ∧
        List.Forall₂ (LeadsNode s request.runID) keys' ids)
      (lookupNodes request.runID (request.rootNodeKey :: request.descendantKeys)) g s := by
    have hrule := rule_lookupRunNodes request.runID (request.rootNodeKey :: request.descendantKeys)
      (fun _ _ (_ : True) _ => trivial) g s trivial
    refine Safe.weaken (Safe.strengthen (fun s h => h.invariant) (fun s s' h => h.later) ?_ hrule
      (hreads _)) ?_
    · intro s g c r s' hs hc hfresh hstep hI' hlater
      have hrun : RunStep runID (fun _ => False) (fun _ _ => False) s s' :=
        runStep_of_blockCall hs.invariant hc hfresh hstep
      exact hrun.coordinated hs hI' hlater (hnone s) (hkept s)
    · rintro ids _ s ⟨-, keys', hsub, hleads⟩
      exact ⟨keys', hkeys.sublist hsub, hleads⟩
  apply Safe.bind _ _ _ _ hlookup
  intro ids g s hids
  have hattempt : Triple (backend.system FreshIDs) (Coordinated registry runID) (RunRely runID)
      (RunRely runID) (fun _ s => ∃ keys' : List String, keys'.Nodup ∧
        List.Forall₂ (LeadsNode s request.runID) keys' ids)
      (watch ⟨ids, [request.runID], [], []⟩ fun _ image => restartTransaction env request image)
      fun result _ _ => ∀ a, result = .ok a → True := by
    apply triple_attempt
    · exact fun s _ => RunRely.refl s
    · rintro s s' ⟨keys', hnodup, hleads⟩ hrely -
      exact ⟨keys', hnodup, hleads.imp fun _ _ h => h.later hrely.later⟩
    · exact fun _ => Triple.done fun _ _ h => h
    · rintro _ n s root commands hs ⟨keys', hnodup, hleads⟩ hbody -
      have hblock := kept_restartTransaction hs.invariant hnodup (hleads.imp fun _ _ h => h.toLeads) hbody
      have hrun : RunStep runID (fun _ => False) (fun _ _ => False) s (s.applyAll commands) :=
        runStep_restartTransaction hs.invariant hleads hbody
      obtain ⟨hs', hrely⟩ := hrun.coordinated hs hblock.invariant hblock.later (hnone s) (hkept s)
      exact ⟨hs', hrely, trivial⟩
  exact (hattempt.bind fun _ => Triple.done fun _ _ _ => trivial) g s hids

end Blocks

/-! ## Reads -/

section Reads

variable {α : Type} {P : Server → Prop}

/-- A command that only reads. -/
theorem callRule_session (hstable : ∀ s s', P s → RunRely runID s s' → P s') {c : Query ⊕ Read}
    {Q : Sum.elim QueryReply ReadReply c → Server → Prop} (hread : ∀ s, (reader.exec s c).2 = s)
    (h : ∀ s, P s → Coordinated registry runID s → Q (reader.exec s c).1 s) :
    CallTriple sessions (Coordinated registry runID) (RunRely runID) (RunRely runID)
      (fun _ s => P s) (.other c) fun r _ s => Q r s := by
  apply callTriple_other
  intro s s' hP hrely hs _
  rw [hread s']
  exact ⟨hs, RunRely.refl s', h s' (hstable s s' hP hrely) hs⟩

/-- The session only reads. -/
def ReadCall : TxCall Watch Image Command (Query ⊕ Read) → Prop
  | .other c => ∀ s, (reader.exec s c).2 = s
  | .watch _ => True
  | .commit _ _ _ => False

theorem rule_reads {p : Session α} (hreads : p.Issues ReadCall) :
    SessionRule registry runID (fun _ => True) p fun _ _ => True := by
  intro g s _
  induction p generalizing g s with
  | done a => trivial
  | call c next ih =>
      rintro s' - hs - r s'' hstep
      have hsame : s'' = s' := by
        cases c with
        | other c =>
            have hexec : reader.exec s' c = (r, s'') := hstep
            have hread := hreads.1 s'
            rw [hexec] at hread
            exact hread
        | watch w => exact hstep.2.symm
        | commit w image commands => exact hreads.1.elim
      subst hsame
      exact ⟨hs, RunRely.refl s'', ih r (hreads.2 r) g s'' trivial⟩

theorem reads_getExecution (id : UUID) :
    (lift (getExecution id) : Session (Except GoError Execution)).Issues ReadCall :=
  ⟨fun _ => rfl, fun _ => trivial⟩

theorem reads_getPipelineRun (id : UUID) :
    (lift (getPipelineRun id) : Session (Except GoError PipelineRun)).Issues ReadCall :=
  ⟨fun _ => rfl, fun _ => trivial⟩

theorem reads_listExecutions (filter : ListFilter) :
    (Session.listExecutions filter).Issues ReadCall := by
  refine ⟨fun _ => rfl, fun ids => ?_⟩
  have hloop : ∀ (ids : List UUID) items, (Session.listLoop filter ids items).Issues ReadCall := by
    intro ids
    induction ids with
    | nil => exact fun _ => trivial
    | cons id rest ih =>
        intro items
        refine (reads_getExecution id).bind fun reply => ?_
        cases reply with
        | error err => trivial
        | ok item =>
            dsimp only
            split
            · split
              · trivial
              · exact ih _
            · exact ih _
  exact hloop ids []

theorem reads_getExecutions (ids : List UUID) : (Session.getExecutions ids).Issues ReadCall := by
  induction ids with
  | nil => trivial
  | cons id rest ih =>
      refine (reads_getExecution id).bind fun reply => ?_
      cases reply with
      | error err => trivial
      | ok item =>
          refine ih.bind fun reply => ?_
          cases reply <;> trivial

theorem reads_listPipelineRuns (order : RangeOrder UUID) (filter : RunFilter) :
    (Session.listPipelineRuns order filter).Issues ReadCall := by
  have hcollect : ∀ (keys : List ZKey) ids, (Session.collectIDs keys ids).Issues ReadCall := by
    intro keys
    induction keys with
    | nil => exact fun _ => trivial
    | cons key rest ih => exact fun _ => ⟨fun _ => rfl, fun _ => ih _⟩
  have hruns : ∀ ids : List UUID, (Session.getRuns ids).Issues ReadCall := by
    intro ids
    induction ids with
    | nil => trivial
    | cons id rest ih =>
        refine (reads_getPipelineRun id).bind fun reply => ?_
        cases reply with
        | error err => trivial
        | ok run =>
            refine ih.bind fun reply => ?_
            cases reply <;> trivial
  have hids : (Session.pipelineIDs filter.statuses).Issues ReadCall :=
    (hcollect _ []).bind fun _ => trivial
  refine hids.bind fun ids => (hruns _).bind fun reply => ?_
  cases reply <;> trivial

theorem reads_events (id : UUID) : (Session.events id).Issues ReadCall := by
  refine (reads_getExecution id).bind fun reply => ?_
  cases reply with
  | error err => trivial
  | ok item => exact ⟨fun _ => rfl, fun _ => trivial⟩

/-- A read of the run. -/
theorem rule_getPipelineRun (target : UUID) :
    SessionRule registry runID (fun _ => True) (lift (getPipelineRun target)) fun reply s =>
      ∀ run, reply = .ok run → target = runID → Seen runID run s := by
  have hget : CallTriple sessions (Coordinated registry runID) (RunRely runID) (RunRely runID)
      (fun _ _ => True) (.other (.inl (.getPipelineRun target)))
      fun (stored : Option PipelineRun) _ s => ∀ run, stored = some run → target = runID →
        Seen runID run s := by
    apply callRule_session (fun _ _ _ _ => trivial) fun _ => rfl
    rintro s - hs run hl rfl
    have hl : s.keys.runs.records.lookup target = some run := hl
    refine ⟨hs.invariant.known.runs _ _ hl, ?_⟩
    intro run' hl'
    cases hl.symm.trans hl'
    exact ⟨SameRun.refl run, le_rfl⟩
  refine Triple.call hget fun stored => Triple.done ?_
  rintro _ s hstored run hreply
  cases stored with
  | none => cases hreply
  | some stored =>
      cases hreply
      exact hstored run rfl

/-- Each record of the list is read after the run was. -/
theorem rule_getExecutions {run : PipelineRun} (ids : List UUID) {F : Server → Prop}
    (hF : ∀ s s', F s → RunRely runID s s' → F s') (hseen : ∀ s, F s → Seen runID run s) :
    SessionRule registry runID (fun s => F s ∧ ∀ id ∈ ids, Belongs runID s id)
      (Session.getExecutions ids) fun reply s => ∀ items, reply = .ok items →
        F s ∧ ∀ item ∈ items, SnapNode registry runID run item s := by
  induction ids generalizing F with
  | nil =>
      refine Triple.done ?_
      rintro _ s ⟨hs, -⟩ items hreply
      cases hreply
      exact ⟨hs, fun _ h => nomatch h⟩
  | cons id rest ih =>
      have hget : CallTriple sessions (Coordinated registry runID) (RunRely runID) (RunRely runID)
          (fun _ s => F s ∧ ∀ id' ∈ id :: rest, Belongs runID s id')
          (.other (.inl (.getExecution id))) fun (stored : Option Execution) _ s =>
            (F s ∧ ∀ item, stored = some item → SnapNode registry runID run item s) ∧
              ∀ id' ∈ rest, Belongs runID s id' := by
        apply callRule_session _ fun _ => rfl
        · rintro s ⟨hs, hids⟩ hI
          refine ⟨⟨hs, ?_⟩, fun id' hid' => hids id' (List.mem_cons_of_mem id hid')⟩
          intro item hl
          have hl : s.keys.executions.records.lookup id = some item := hl
          obtain rfl : item.id = id := hI.invariant.represented.executions.keyed id item hl
          have hnode : Node runID s item := ⟨hl, (hids item.id List.mem_cons_self).run item hl⟩
          refine ⟨?_, fun _ _ _ _ => hnode⟩
          intro run' definition hrun hfound
          exact hI.sound.declared item run' definition hnode hrun hfound
        · rintro s s' ⟨hs, hids⟩ hrely
          exact ⟨hF s s' hs hrely, fun id' hid' => (hids id' hid').stable hrely.later⟩
      refine Triple.call hget fun stored => ?_
      cases stored with
      | none =>
          refine Triple.done ?_
          rintro _ s - items hreply
          cases hreply
      | some item =>
          have hnext : ∀ s s', F s ∧ (∀ item', some item = some item' →
                SnapNode registry runID run item' s) → RunRely runID s s' →
              F s' ∧ ∀ item', some item = some item' → SnapNode registry runID run item' s' :=
            fun s s' h hrely => ⟨hF s s' h.1 hrely,
              fun item' heq => (h.2 item' heq).stable (hseen s h.1) hrely⟩
          refine (ih hnext fun s h => hseen s h.1).bind fun reply => ?_
          cases reply with
          | error err =>
              refine Triple.done ?_
              rintro _ s - items hreply
              cases hreply
          | ok items =>
              refine Triple.done ?_
              rintro _ s hitems all hreply
              cases hreply
              obtain ⟨⟨hs, hitem⟩, hrest⟩ := hitems items rfl
              refine ⟨hs, ?_⟩
              intro item' hmem
              rcases List.mem_cons.mp hmem with rfl | hmem
              · exact hitem item' rfl
              · exact hrest item' hmem

theorem rule_listRunExecutions (target : UUID) (run : PipelineRun) :
    SessionRule registry runID (fun s => target = runID → Seen runID run s)
      (Session.listRunExecutions target) fun reply s => ∀ items, reply = .ok items →
        target = runID → Snap registry runID run items s := by
  by_cases htarget : target = runID
  · subst htarget
    have hrange : CallTriple sessions (Coordinated registry target) (RunRely target) (RunRely target)
        (fun _ s => target = target → Seen target run s)
        (.other (.inr (.zRange (runExecutionsKey target))))
        fun (ids : List UUID) _ s => Seen target run s ∧ ∀ id ∈ ids, Belongs target s id := by
      apply callRule_session _ fun _ => rfl
      · exact fun s hseen hs => ⟨hseen rfl, fun id hid => belongs_of_index hs.invariant hid⟩
      · exact fun s s' hseen hrely heq => (hseen heq).stable hrely
    refine Triple.call hrange fun ids => ?_
    refine (rule_getExecutions ids (fun s s' h hrely => h.stable hrely) fun s h => h).weaken ?_
    rintro reply _ s hreply items hok -
    exact ⟨(hreply items hok).1, (hreply items hok).2⟩
  · have hreads : (Session.listRunExecutions target).Issues ReadCall :=
      ⟨fun _ => rfl, reads_getExecutions⟩
    refine ((rule_reads hreads).of fun _ _ _ => trivial).weaken ?_
    exact fun reply _ s _ items _ heq => absurd heq htarget

end Reads

/-- `Purge` in one step. -/
theorem rule_purge (before : Time) (limit : Int) (order : RangeOrder Candidate) :
    SessionRule registry runID (fun _ => True)
      (.call (.other (.inl (.purge before limit order))) .done : Session (Except GoError PurgeResult))
      fun _ _ => True := by
  rintro g s - s' hrely hs - r s'' hstep
  have hkeeps : Keeps FreshIDs (.single (.other (.purge before limit order)) : Op Unit) :=
    keeps_purge before limit order
  obtain ⟨hI', hlater, -⟩ := hkeeps g s' trivial s' (Later.refl s') hs.invariant trivial r s'' hstep
  have hexec : s'.exec (.purge before limit order) = (r, s'') := hstep
  have hrun : RunStep runID (fun _ => False) (fun _ _ => False) s'
      (s'.exec (.purge before limit order)).2 := runStep_purge hs.invariant before limit order
  rw [hexec] at hrun
  obtain ⟨hs'', hrely'⟩ := hrun.coordinated hs hI' hlater (fun _ h => h.elim)
    fun _ _ h => h.elim
  exact ⟨hs'', hrely', trivial⟩

end Run

end Ody.Redis
