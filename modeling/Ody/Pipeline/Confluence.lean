import Ody.Pipeline.AdvanceAttempts
import Ody.Pipeline.DataConsistency

/-!
# Confluence of `Advance`

However the store calls of several `Advance` calls on one run interleave, and
wherever they are abandoned, one uninterrupted call afterwards leaves the state
that a single call would have left from the start. The two states differ in what
the claim of equality abstracts from: the identifiers and times of the new
executions, the revision and the times of the run, and which of several failed
nodes its error text names.
-/

namespace Ody.Pipeline

open Library.Tables Library.Interleaving Library.DerivedIndexes Memory

/-! ## Equality up to identifiers and times -/

/-- An execution without its identifier and its times of creation and availability. -/
def content (item : Execution) : Execution :=
  { item with id := nilUUID, availableAt := zeroTime, createdAt := zeroTime }

/-- An event without the identifier of its execution and its time. -/
def eventContent (e : Event) : Event := { e with executionID := nilUUID, createdAt := zeroTime }

/-- Two records of one run with the same result. Each may name another failed node. -/
structure SameResult (s s' : MemoryStore) (run run' : PipelineRun) : Prop where
  identity : PipelineRun.identity run' = PipelineRun.identity run
  status : run'.status = run.status
  finished : run'.finishedAt.isSome = run.finishedAt.isSome
  error : run'.error = run.error ∨
    (NamesFailure s run.id run.error ∧ NamesFailure s' run'.id run'.error)

/-- The stores are equal up to generated identifiers, times, revisions and the failed nodes that
error texts name. -/
structure EqualUpTo (rename : UUID → UUID) (s s' : MemoryStore) : Prop where
  executions : Renames (fun item item' => content item' = content item) rename s.executions
    s'.executions
  events : ∀ id ∈ s.executions, (s'.events.lookup (rename id)).map (·.map eventContent) =
    (s.events.lookup id).map (·.map eventContent)
  idempotent : ∀ ref, s'.idempotent.lookup ref = (s.idempotent.lookup ref).map rename
  nodes : ∀ ref, s'.nodes.lookup ref = (s.nodes.lookup ref).map rename
  runs : ∀ id, Option.Rel (SameResult s s') (s.runs.lookup id) (s'.runs.lookup id)
  runIdempotent : ∀ ref, s'.runIdempotent.lookup ref = s.runIdempotent.lookup ref

theorem SameResult.refl (s : MemoryStore) (run : PipelineRun) : SameResult s s run run :=
  ⟨rfl, rfl, rfl, Or.inl rfl⟩

theorem EqualUpTo.refl (s : MemoryStore) : EqualUpTo id s s where
  executions := ⟨fun _ _ _ _ h => h, fun k hk => ⟨k, hk, rfl⟩, fun _ item hl => ⟨item, hl, rfl⟩⟩
  events := fun _ _ => rfl
  idempotent := fun _ => by simp
  nodes := fun _ => by simp
  runs := by
    intro id
    cases s.runs.lookup id with
    | none => exact Option.Rel.none
    | some run => exact Option.Rel.some (SameResult.refl s run)
  runIdempotent := fun _ => rfl

theorem nodeOf_content {item item' : Execution} (h : content item' = content item) :
    nodeOf item' = nodeOf item := by
  have hnode := congrArg nodeOf h
  exact hnode

theorem keyOf_content {item item' : Execution} (h : content item' = content item) :
    keyOf item' = keyOf item := by
  have hkey := congrArg keyOf h
  exact hkey

theorem events_eq_history {s : MemoryStore} (hs : Referenced s) {id : UUID}
    (hid : id ∈ s.executions) : s.events.lookup id = some (s.history id) := by
  obtain ⟨events, hl⟩ := Option.isSome_iff_exists.mp
    (AList.lookup_isSome.mpr ((hs.events id).mpr hid))
  rw [MemoryStore.history, hl]
  rfl

/-- The identifier that the second store has for an execution of the first one: an execution of
the run is found by its node, any other one has kept its identifier. -/
def counterpart (runID : UUID) (s s' : MemoryStore) (id : UUID) : UUID :=
  match s.executions.lookup id with
  | some item =>
      if item.pipelineRunID = some runID then (s'.nodes.lookup (runID, item.nodeKey)).getD id
      else id
  | none => id

theorem counterpart_member {runID : UUID} {s s' : MemoryStore} {item : Execution} {id : UUID}
    (hm : Member s runID item) (hindex : s'.nodes.lookup (runID, item.nodeKey) = some id) :
    counterpart runID s s' item.id = id := by
  unfold counterpart
  rw [hm.1]
  dsimp only
  rw [if_pos hm.2, hindex]
  rfl

theorem counterpart_other {runID : UUID} {s s' : MemoryStore} {item : Execution} {id : UUID}
    (hl : s.executions.lookup id = some item) (hrun : item.pipelineRunID ≠ some runID) :
    counterpart runID s s' id = id := by
  unfold counterpart
  rw [hl]
  exact if_neg hrun

section Matching

variable {registry : Registry} {runID : UUID} {base : World} {run₀ : PipelineRun}
  {definition : CompiledDefinition} {w w' : World}

/-- The execution of a planned node is determined. -/
theorem Version.content_eq (hindexed : Indexed registry runID base) {node : NodeDefinition}
    {input : RawMessage} {item item' : Execution} {history history' : List Event}
    (h : Version runID base node input item history)
    (h' : Version runID base node input item' history') :
    content item' = content item ∧ history'.map eventContent = history.map eventContent := by
  cases h with
  | released _ hm hkey _ =>
      cases h' with
      | released _ hm' hkey' _ =>
          cases hindexed.unique hm hm' (hkey.trans hkey'.symm)
          exact ⟨rfl, rfl⟩
      | created _ hnew => exact absurd hkey (hnew _ hm)
  | created _ hnew =>
      cases h' with
      | released _ hm hkey _ => exact absurd hkey (hnew _ hm)
      | created _ _ => exact ⟨rfl, rfl⟩

theorem Settled.allDone (h : Settled registry runID base run₀ definition w) :
    AllDone runID base run₀ definition w := by
  obtain ⟨run, -, hmarked | ⟨-, -, -, hall⟩⟩ := h.run
  · exact hmarked.all
  · exact hall

/-- What the run is in a settled state. -/
theorem Settled.outcome (h : Settled registry runID base run₀ definition w)
    (hsilent : run₀.error = "") : ∃ run, w.store.runs.lookup runID = some run ∧
      Outcome base.store runID run₀ definition run.status run.error ∧
      PipelineRun.identity run = PipelineRun.identity run₀ ∧
      run.finishedAt.isSome = (run.status.isTerminal || run₀.finishedAt.isSome) := by
  obtain ⟨run, hrun, hmarked | ⟨rfl, hrunning, houtcome, -⟩⟩ := h.run
  · exact ⟨run, hrun, hmarked.outcome, hmarked.same, hmarked.finished⟩
  · refine ⟨run, hrun, ?_, rfl, ?_⟩
    · rw [hrunning, hsilent]
      exact houtcome
    · rw [hrunning]
      rfl

theorem Between.namesFailure (h : Between registry runID base run₀ definition w) {text : String}
    (hnames : NamesFailure base.store runID text) : NamesFailure w.store runID text := by
  obtain ⟨item, hm, hfailed, rfl⟩ := hnames
  obtain ⟨item', hm', -, -, hsame⟩ := h.kept item hm
  have hs : item.status ≠ .blocked := by
    rcases hfailed with hs | hs <;> simp [hs]
  rw [hsame hs] at hm'
  exact ⟨item, hm', hfailed, rfl⟩

/-- Two settled states have the same executions of the run. -/
theorem Settled.match_member (h : Settled registry runID base run₀ definition w)
    (h' : Settled registry runID base run₀ definition w')
    (h₀ : Opened registry runID base run₀ definition) {item : Execution}
    (hm : Member w.store runID item) : ∃ item', Member w'.store runID item' ∧
      content item' = content item ∧
      (w'.store.history item'.id).map eventContent = (w.store.history item.id).map eventContent := by
  rcases h.between.members item hm with ⟨hbase, hhistory⟩ | ⟨node, input, hplanned, hversion⟩
  · obtain ⟨item', hm', hid, hkey, -⟩ := h'.between.kept item hbase
    rcases h'.between.members item' hm' with ⟨hbase', hhistory'⟩ | ⟨node, input, hplanned, hversion⟩
    · have hl := hbase'.1
      rw [hid, hbase.1, Option.some.injEq] at hl
      subst hl
      exact ⟨item, hm', rfl, by rw [hhistory, hhistory']⟩
    · -- the node was planned, so this execution would have been released in the first state too
      have hkeyed := hkey.symm.trans hversion.nodeKey
      obtain ⟨item₂, hm₂, hkey₂, hs₂⟩ := h.allDone node input hplanned
      obtain rfl := h.between.coordinated.indexed.unique hm₂ hm (hkey₂.trans hkeyed.symm)
      exact absurd (hplanned.wanted.idle _ hbase hkeyed) hs₂
  · obtain ⟨item', hm', hkey', hs'⟩ := h'.allDone node input hplanned
    have hversion' := h'.between.version h₀.coordinated.indexed hplanned hm' hkey' hs'
    exact ⟨item', hm', hversion.content_eq h₀.coordinated.indexed hversion'⟩

/-- Every stored execution has its counterpart, and that one leads back. -/
theorem Settled.counterpart_stored (h : Settled registry runID base run₀ definition w)
    (h' : Settled registry runID base run₀ definition w')
    (h₀ : Opened registry runID base run₀ definition) {id : UUID} {item : Execution}
    (hl : w.store.executions.lookup id = some item) :
    counterpart runID w'.store w.store (counterpart runID w.store w'.store id) = id ∧
      ∃ item', w'.store.executions.lookup (counterpart runID w.store w'.store id) = some item' ∧
        content item' = content item ∧
        (w'.store.history (counterpart runID w.store w'.store id)).map eventContent =
          (w.store.history id).map eventContent := by
  by_cases hrun : item.pipelineRunID = some runID
  · have hkeyed := w.store.executions_keyed id item hl
    have hm : Member w.store runID item := ⟨by rw [hkeyed]; exact hl, hrun⟩
    obtain ⟨item', hm', hcontent, hhistory⟩ := h.match_member h' h₀ hm
    have hkey : item.nodeKey = item'.nodeKey := congrArg (·.nodeKey) hcontent.symm
    have hindex := h.between.coordinated.indexed.indexed item hm
    rw [hkey] at hindex
    have hindex' := h'.between.coordinated.indexed.indexed item' hm'
    rw [← hkey] at hindex'
    rw [← hkeyed, counterpart_member hm hindex', counterpart_member hm' hindex]
    exact ⟨rfl, item', hm'.1, hcontent, hhistory⟩
  · have hl' : w'.store.executions.lookup id = some item :=
      (h'.between.others id item hrun).mpr ((h.between.others id item hrun).mp hl)
    rw [counterpart_other hl hrun, counterpart_other hl' hrun, h.between.histories id item hrun hl,
      h'.between.histories id item hrun hl']
    exact ⟨rfl, item, hl', rfl, rfl⟩

theorem Settled.renames (h : Settled registry runID base run₀ definition w)
    (h' : Settled registry runID base run₀ definition w')
    (h₀ : Opened registry runID base run₀ definition) :
    Renames (fun item item' => content item' = content item)
      (counterpart runID w.store w'.store) w.store.executions w'.store.executions := by
  have hback : ∀ {w w' : World}, Settled registry runID base run₀ definition w →
      Settled registry runID base run₀ definition w' → ∀ id ∈ w.store.executions,
      counterpart runID w'.store w.store (counterpart runID w.store w'.store id) = id := by
    intro w w' h h' id hid
    obtain ⟨item, hl⟩ := Option.isSome_iff_exists.mp (AList.lookup_isSome.mpr hid)
    exact (h.counterpart_stored h' h₀ hl).1
  refine ⟨?_, ?_, ?_⟩
  · intro id hid other hother heq
    rw [← hback h h' id hid, heq, hback h h' other hother]
  · intro id hid
    obtain ⟨item, hl⟩ := Option.isSome_iff_exists.mp (AList.lookup_isSome.mpr hid)
    obtain ⟨-, item', hl', -, -⟩ := h'.counterpart_stored h h₀ hl
    exact ⟨_, AList.lookup_isSome.mp (by rw [hl']; rfl), hback h' h id hid⟩
  · intro id item hl
    obtain ⟨-, item', hl', hcontent, -⟩ := h.counterpart_stored h' h₀ hl
    exact ⟨item', hl', hcontent⟩

/-- Two settled states have the same result for every run. -/
theorem Settled.sameResults (h : Settled registry runID base run₀ definition w)
    (h' : Settled registry runID base run₀ definition w')
    (h₀ : Opened registry runID base run₀ definition) (hsilent : run₀.error = "") (id : UUID) :
    Option.Rel (SameResult w.store w'.store) (w.store.runs.lookup id)
      (w'.store.runs.lookup id) := by
  by_cases hid : id = runID
  · subst hid
    obtain ⟨run, hrun, houtcome, hidentity, hfinished⟩ := h.outcome hsilent
    obtain ⟨run', hrun', houtcome', hidentity', hfinished'⟩ := h'.outcome hsilent
    obtain ⟨hstatus, htext⟩ := houtcome'.agree h₀.coordinated.indexed houtcome
    rw [hrun, hrun']
    refine Option.Rel.some ⟨hidentity'.trans hidentity.symm, hstatus, ?_, ?_⟩
    · rw [hfinished, hfinished', hstatus]
    · refine htext.imp_right fun hnames => ?_
      rw [w.store.runs_keyed _ _ hrun, w'.store.runs_keyed _ _ hrun']
      exact ⟨h.between.namesFailure hnames.2, h'.between.namesFailure hnames.1⟩
  · rw [h.between.otherRuns id hid, h'.between.otherRuns id hid]
    cases base.store.runs.lookup id with
    | none => exact Option.Rel.none
    | some run => exact Option.Rel.some ⟨rfl, rfl, rfl, Or.inl rfl⟩

/-- Two settled states are equal up to identifiers, times, revisions and failed nodes. -/
theorem Settled.equalUpTo (h : Settled registry runID base run₀ definition w)
    (h' : Settled registry runID base run₀ definition w')
    (h₀ : Opened registry runID base run₀ definition) (hsilent : run₀.error = "") :
    EqualUpTo (counterpart runID w.store w'.store) w.store w'.store := by
  have hs := h.between.coordinated.referenced
  have hs' := h'.between.coordinated.referenced
  have hrenames := h.renames h' h₀
  have hruns := h.sameResults h' h₀ hsilent
  refine ⟨hrenames, ?_, ?_, ?_, hruns, ?_⟩
  · intro id hid
    obtain ⟨item, hl⟩ := Option.isSome_iff_exists.mp (AList.lookup_isSome.mpr hid)
    obtain ⟨-, item', hl', -, hhistory⟩ := h.counterpart_stored h' h₀ hl
    have hid' : counterpart runID w.store w'.store id ∈ w'.store.executions :=
      AList.lookup_isSome.mp (by rw [hl']; rfl)
    rw [events_eq_history hs hid, events_eq_history hs' hid', Option.map_some, Option.map_some,
      hhistory]
  · exact hs.idempotent.rename hs'.idempotent hrenames fun _ _ => keyOf_content
  · exact hs.nodes.rename hs'.nodes hrenames fun _ _ => nodeOf_content
  · -- the runs keep their keys
    have hkeys : ∀ id, (w'.store.runs.lookup id).map runKeyOf =
        (w.store.runs.lookup id).map runKeyOf := by
      intro id
      have hrel := hruns id
      generalize w.store.runs.lookup id = run at hrel
      generalize w'.store.runs.lookup id = run' at hrel
      cases hrel with
      | none => rfl
      | some hsame =>
          have hkey := congrArg runKeyOf hsame.identity
          exact congrArg some hkey
    intro ref
    ext id
    rw [hs'.runIdempotent ref id, hs.runIdempotent.congr hkeys ref id]

end Matching

/-! ## Every interleaving -/

/-- Whatever the engine, its workers and its clients have done before, any interleaving of calls of
`Advance` on one run, each abandoned anywhere, and one more call that is not interrupted leave the
state that a single call leaves from the start, up to identifiers, times, revisions and the failed
node that an error text names. Each node then has one execution at most, with the same input, and
a further call changes nothing. -/
theorem advance_confluent {definitions : List Definition} {registry : Registry} {runID : UUID}
    (hbuilt : ∀ d ∈ definitions, d.Constructed) (hregistry : newRegistry definitions = .ok registry)
    {base middle final single : World} {before : List (Thread Unit Call Reply Unit)}
    {threads : List (Thread Unit Call Reply (Except GoError Unit))}
    {result result' : Except GoError Unit}
    (hreach : Reach storeSystem World.Initial (Caller registry runID) base before)
    (huuid : ∀ id ∈ base.issued, Unguessed registry id)
    (hmixed : Reach storeSystem (· = base) (· = advance registry runID) middle threads)
    (hfinal : Runs World.Step (advance registry runID) middle result final)
    (hsingle : Runs World.Step (advance registry runID) base result' single) :
    (∃ rename, EqualUpTo rename single.store final.store) ∧
      (∀ item other, Member final.store runID item → Member final.store runID other →
        item.nodeKey = other.nodeKey → item = other) ∧
      (∀ item other, Member single.store runID item → Member final.store runID other →
        item.nodeKey = other.nodeKey → other.input = item.input) ∧
      ∀ result'' again, Runs World.Step (advance registry runID) final result'' again →
        again.store = final.store := by
  have hindexed := (sound_of_reach (hreach.mono fun _ hp => hp.client)).indexed
  rcases still_or_open base.store with hstill | ⟨run₀, definition, hstored, hopen, hfound⟩
  · rw [← releaseSystem_false] at hmixed
    have hmiddle := (hstill.of_reach hmixed).1
    have hlast := (hstill.of_runs hmiddle hfinal).1
    have honly := (hstill.of_runs rfl hsingle).1
    rw [honly, hlast]
    refine ⟨⟨id, EqualUpTo.refl _⟩, fun _ _ hm hother => hindexed.unique hm hother, ?_,
      fun _ _ hagain => (hstill.of_runs hlast hagain).1⟩
    intro item other hm hother hkey
    rw [hindexed.unique hm hother hkey]
  · have h₀ := opened_of_reach hbuilt hregistry hreach huuid hstored hopen hfound
    have hsilent := (tidy_of_reach hreach).silent runID run₀ hstored hopen
    have hend := (h₀.between_of_reach hmixed).settled_of_runs h₀ hfinal
    have honce := h₀.between.settled_of_runs h₀ hsingle
    refine ⟨⟨_, honce.equalUpTo hend h₀ hsilent⟩,
      fun _ _ hm hother => hend.between.coordinated.indexed.unique hm hother, ?_,
      fun _ _ hagain => ((hend.still h₀).of_runs rfl hagain).1⟩
    intro item other hm hother hkey
    obtain ⟨item', hm', hcontent, -⟩ := honce.match_member hend h₀ hm
    have hsame : item'.nodeKey = item.nodeKey := congrArg (·.nodeKey) hcontent
    obtain rfl := hend.between.coordinated.indexed.unique hother hm' (hkey.symm.trans hsame.symm)
    exact congrArg (·.input) hcontent

/-! ## Two calls that are abandoned -/

/-- Two calls list the executions; both have scheduled the second node when they stop. -/
def abandonedMoves : List (Move Call Reply (Except GoError Unit)) :=
  [.spawn (advance etlRegistry 1), .spawn (advance etlRegistry 1), .step 0, .step 1, .step 0,
   .step 1, .step 0, .step 1]

/-- The second node is scheduled, and nobody has marked the run. -/
def halfway (base : World)
    (middle : World × List (Thread Unit Call Reply (Except GoError Unit))) : Bool :=
  decide (base.store.executions.keys.length = 1 ∧ middle.1.store.executions.keys.length = 2 ∧
    (middle.1.store.runs.lookup 1).map (·.revision) = (base.store.runs.lookup 1).map (·.revision))

theorem Participant.caller {registry : Registry} {runID : UUID} {p : Program Call Reply Unit}
    (h : Participant registry p) : Caller registry runID p := by
  refine .coordinator ?_
  cases h with
  | run definition input options => exact .run definition input options
  | advance target => exact .advance target
  | restart executionID => exact .restart executionID
  | worker c hc => exact .worker c hc

theorem extracted_caller : ∀ m ∈ extracted, m.Spawns (Caller etlRegistry 1) :=
  fun m hm => (extracted_participant m hm).mono fun _ hp => hp.caller

theorem advance_confluent_of_abandonedMoves :
    ∃ (base middle final single : World)
      (threads : List (Thread Unit Call Reply (Except GoError Unit)))
      (result result' : Except GoError Unit) (rename : UUID → UUID),
      halfway base (middle, threads) = true ∧
      Runs World.Step (advance etlRegistry 1) middle result final ∧
      Runs World.Step (advance etlRegistry 1) base result' single ∧
      EqualUpTo rename single.store final.store := by
  have hadvance : ∀ m ∈ abandonedMoves, m.Spawns (· = advance etlRegistry 1) := by
    simp [abandonedMoves, Move.Spawns]
  have hends : (storeExecution.drive extracted (World.init 5) []).any (fun start =>
      (storeExecution.drive abandonedMoves start.1 []).any (halfway start.1)) = true := by decide
  obtain ⟨base, before, middle, threads, hreach, hmixed, hhalf⟩ :=
    storeExecution.drive_again storeExecution extracted_caller hadvance (World.init_initial 5)
      hends
  have hfinal := storeExecution.eval_runs () (fun _ _ => rfl) (advance etlRegistry 1) middle
  have hsingle := storeExecution.eval_runs () (fun _ _ => rfl) (advance etlRegistry 1) base
  obtain ⟨⟨rename, hequal⟩, -⟩ := advance_confluent etl_constructed newRegistry_etl hreach
    (fun id _ => unguessed_etl id) hmixed hfinal hsingle
  exact ⟨base, middle, _, _, threads, _, _, rename, hhalf, hfinal, hsingle, hequal⟩

end Ody.Pipeline
