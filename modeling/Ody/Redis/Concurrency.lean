import Ody.Execution.Calls
import Ody.Redis.OperationRules
import Ody.Redis.Purge

/-!
# Concurrent clients of the Redis store

In every interleaving of the reads and blocks of any clients the keyspace stays
represented, as long as nothing happens between the listing of a `Purge` and its
block. The block of `Purge` watches nothing: a restart in between leaves a
reference to a record that is gone. What is needed is that each listed record is
still the one that was listed.
-/

namespace Ody.Redis

open Library.Tables Library.DerivedIndexes Library.Interleaving Library.Optimistic
open Memory (Env standaloneRequest)

/-! ## Operations -/

/-- The operations of the store other than `Purge`, with their arguments. -/
inductive Operation where
  | createExecution (env : Env) (request : CreateExecution)
  | claim (env : Env) (owner : String) (keys : List TaskKey) (limit : Int) (lease : Duration)
  | claimCandidate (env : Env) (draw : Nat) (id : UUID) (owner : String) (accepted : List TaskKey)
      (lease : Duration)
  | reapExpired (env : Env)
  | reapCandidate (env : Env) (id : UUID)
  | heartbeat (env : Env) (id token : UUID) (lease : Duration)
  | succeed (env : Env) (id token : UUID) (output : RawMessage)
  | retry (env : Env) (id token : UUID) (errorText : String) (delay : Duration)
  | fail (env : Env) (id token : UUID) (errorText : String)
  | cancelExecution (env : Env) (id : UUID) (reason : String)
  | restartExecution (env : Env) (id : UUID) (availableAt : Time)
  | restartPipelineSubgraph (env : Env) (request : RestartSubgraph)
      (distinct : (request.rootNodeKey :: request.descendantKeys).Nodup)
  | releaseExecution (env : Env) (id : UUID) (input : RawMessage) (availableAt : Time)
  | createPipelineRun (env : Env) (request : CreatePipelineRun)
  | setPipelineRunStatus (env : Env) (id : UUID) (expectedRevision : Nat) (status : RunStatus)
      (errorText : String)

/-- The client program of an operation. -/
def Operation.program : Operation → Op Unit
  | .createExecution env request => (Redis.createExecution env request).discard
  | .claim env owner keys limit lease => (Redis.claim env owner keys limit lease).discard
  | .claimCandidate env draw id owner accepted lease =>
      (Redis.claimCandidate env draw id owner accepted lease).discard
  | .reapExpired env => (Redis.reapExpired env).discard
  | .reapCandidate env id => (Redis.reapCandidate env id).discard
  | .heartbeat env id token lease => (Redis.heartbeat env id token lease).discard
  | .succeed env id token output => (Redis.succeed env id token output).discard
  | .retry env id token errorText delay => (Redis.retry env id token errorText delay).discard
  | .fail env id token errorText => (Redis.fail env id token errorText).discard
  | .cancelExecution env id reason => (Redis.cancelExecution env id reason).discard
  | .restartExecution env id availableAt => (Redis.restartExecution env id availableAt).discard
  | .restartPipelineSubgraph env request _ => (Redis.restartPipelineSubgraph env request).discard
  | .releaseExecution env id input availableAt =>
      (Redis.releaseExecution env id input availableAt).discard
  | .createPipelineRun env request => (Redis.createPipelineRun env request).discard
  | .setPipelineRunStatus env id expectedRevision status errorText =>
      (Redis.setPipelineRunStatus env id expectedRevision status errorText).discard

theorem keeps_program {allowed : Server → TxCall Watch Image Command Query → Prop}
    (hfresh : ∀ s c, allowed s c → FreshIDs s c) (op : Operation) : Keeps allowed op.program := by
  cases op with
  | createExecution env request => exact (keeps_createExecution hfresh env request).discard
  | claim env owner keys limit lease =>
      exact (keeps_claim hfresh env owner keys limit lease).discard
  | claimCandidate env draw id owner accepted lease =>
      exact (keeps_claimCandidate hfresh env draw id owner accepted lease).discard
  | reapExpired env => exact (keeps_reapExpired hfresh env).discard
  | reapCandidate env id => exact (keeps_reapCandidate hfresh env id).discard
  | heartbeat env id token lease => exact (keeps_heartbeat hfresh env id token lease).discard
  | succeed env id token output => exact (keeps_succeed hfresh env id token output).discard
  | retry env id token errorText delay =>
      exact (keeps_retry hfresh env id token errorText delay).discard
  | fail env id token errorText => exact (keeps_fail hfresh env id token errorText).discard
  | cancelExecution env id reason => exact (keeps_cancelExecution hfresh env id reason).discard
  | restartExecution env id availableAt =>
      exact (keeps_restartExecution hfresh env id availableAt).discard
  | restartPipelineSubgraph env request distinct =>
      exact (keeps_restartPipelineSubgraph hfresh env request distinct).discard
  | releaseExecution env id input availableAt =>
      exact (keeps_releaseExecution hfresh env id input availableAt).discard
  | createPipelineRun env request => exact (keeps_createPipelineRun hfresh env request).discard
  | setPipelineRunStatus env id expectedRevision status errorText =>
      exact (keeps_setPipelineRunStatus hfresh env id expectedRevision status errorText).discard

/-- The server before anything is stored. -/
def Server.empty : Server := ⟨Keyspace.empty, []⟩

/-- Runs start with an empty server. -/
def Server.Initial (s : Server) : Prop := s = Server.empty

theorem Invariant.empty : Invariant Server.empty where
  represented := Represented.empty
  known := by
    constructor <;> simp [Server.empty, Keyspace.empty, Indexed.empty]

/-- Programs that keep the invariant keep it in every interleaving. -/
theorem invariant_of_reach {allowed : Server → TxCall Watch Image Command Query → Prop}
    {Spawn : Op Unit → Prop} (hspawn : ∀ p, Spawn p → Keeps allowed p) {s : Server}
    {threads : List (Thread Unit (TxCall Watch Image Command Query) (TxReply QueryReply) Unit)}
    (run : Reach (backend.system allowed) Server.Initial Spawn s threads) : Invariant s := by
  apply (Reach.safe Later.refl _ (fun _ _ h => h) _ _ run).1
  · exact fun _ _ _ ha _ _ h h' => h.trans ha.known h'
  · rintro _ rfl
    exact Invariant.empty
  · exact fun p hp => (hspawn p hp).of fun _ _ _ => trivial

/-! ## Purges that nothing interrupts -/

/-- Clients call operations, and `Purge` in one step. -/
inductive Uninterrupted : Op Unit → Prop
  | operation (op : Operation) : Uninterrupted op.program
  | purge (before : Time) (limit : Int) (order : RangeOrder Candidate) :
      Uninterrupted (.single (.other (.purge before limit order)))

theorem Stored.removable {s : Keyspace} {r : Execution ⊕ PipelineRun} (h : Stored s r) :
    Removable s r := by
  cases r with
  | inl item => exact ⟨item, h, SameIdentity.refl item, rfl⟩
  | inr run => exact h

theorem callRule_purge {allowed : Server → TxCall Watch Image Command Query → Prop} (before : Time)
    (limit : Int) (order : RangeOrder Candidate) :
    CallTriple (backend.system allowed) Invariant Later Later (fun _ _ => True)
      (.other (.purge before limit order)) fun _ _ _ => True := by
  apply callTriple_other
  intro s s' _ _ hI _
  simp only [backend, Server.exec]
  cases hlist : listPurge s'.keys before limit order with
  | error err => exact ⟨hI, Later.refl s', trivial⟩
  | ok candidates =>
      obtain ⟨hstored, hdistinct⟩ := listPurge_removals hI.represented hlist
      have hkept := kept_purge hI (fun r hr => (hstored r hr).removable) hdistinct
      rw [← purge_commands] at hkept
      exact ⟨hkept.invariant, hkept.later, trivial⟩

theorem keeps_purge {allowed : Server → TxCall Watch Image Command Query → Prop} (before : Time)
    (limit : Int) (order : RangeOrder Candidate) :
    Keeps allowed (.single (.other (.purge before limit order)) : Op Unit) :=
  Triple.call (callRule_purge before limit order) fun _ => keeps_done _

theorem keeps_uninterrupted {p : Op Unit} (h : Uninterrupted p) : Keeps FreshIDs p := by
  cases h with
  | operation op => exact keeps_program (fun _ _ h => h) op
  | purge before limit order => exact keeps_purge before limit order

/-- In every interleaving of the operations the keyspace stays represented. -/
theorem representation_invariant {s : Server}
    {threads : List (Thread Unit (TxCall Watch Image Command Query) (TxReply QueryReply) Unit)}
    (run : Reach (backend.system FreshIDs) Server.Initial Uninterrupted s threads) :
    Represented s.keys :=
  (invariant_of_reach (fun _ hp => keeps_uninterrupted hp) run).represented

instance (s : Server) (c : TxCall Watch Image Command Query) : Decidable (FreshIDs s c) :=
  match c with
  | .other _ => isTrue trivial
  | .watch _ => isTrue trivial
  | .commit w _ commands => inferInstanceAs (Decidable (∀ c ∈ commands,
      (∀ id ∈ c.executionID, id ∈ w.executions ∨ id ∉ s.used) ∧
      (∀ id ∈ c.runID, id ∈ w.runs ∨ id ∉ s.used)))

/-- Concrete interleavings with new identifiers for new records. -/
def freshExecution : Library.Interleaving.Execution (backend.system FreshIDs) :=
  backend.execution (fun s c => decide (FreshIDs s c)) fun _ _ h => of_decide_eq_true h

/-- Two workers read one execution; the block of the second comes too late. -/
def claimRace : List (Move (TxCall Watch Image Command Query) (TxReply QueryReply) Unit) :=
  [.spawn (Operation.createExecution (Env.at 5 0) standaloneRequest).program, .step 0, .step 0,
    .spawn (Operation.claimCandidate (Env.at 6 1) 0 1 "a" [⟨"email", 1⟩] 10).program,
    .spawn (Operation.claimCandidate (Env.at 6 20) 0 1 "b" [⟨"email", 1⟩] 10).program,
    .step 1, .step 2, .step 1, .step 2, .step 2]

/-- The first execution is running for the first worker. -/
def heldByFirst (s : Server) : Bool :=
  (s.keys.executions.records.lookup 1).any fun item =>
    item.status == .running && item.leaseOwner == "a"

theorem representation_invariant_of_claimRace : ∃ s threads,
    Reach (backend.system FreshIDs) Server.Initial Uninterrupted s threads ∧
      heldByFirst s = true ∧ Represented s.keys := by
  have hmoves : ∀ m ∈ claimRace, m.Spawns Uninterrupted := by
    intro m hm
    simp only [claimRace, List.mem_cons, List.not_mem_nil, or_false] at hm
    rcases hm with rfl | rfl | rfl | rfl | rfl | rfl | rfl | rfl | rfl | rfl <;>
      first | exact trivial | exact Uninterrupted.operation _
  have hends : (freshExecution.drive claimRace Server.empty []).any
      (fun final => heldByFirst final.1) = true := by decide
  have hinitial : Server.Initial Server.empty := rfl
  obtain ⟨s, threads, run, htest⟩ := freshExecution.drive_reaches hmoves hinitial hends
  exact ⟨s, threads, run, htest, representation_invariant run⟩

/-! ## Purges that are interrupted -/

/-- Clients call operations, and `Purge` with its listing and its block as two steps. -/
inductive Interrupted : Op Unit → Prop
  | operation (op : Operation) : Interrupted op.program
  | purge (before : Time) (limit : Int) (order : RangeOrder Candidate) :
      Interrupted (purge before limit order).discard

/-- A listed record is stored as it was listed. Of an execution that was not terminal only the
status counts. -/
def StillListed (s : Keyspace) : Execution ⊕ PipelineRun → Prop
  | .inl item => ∃ now ∈ s.executions.records.lookup item.id, now.status = item.status ∧
      (item.status.isTerminal = true → now = item)
  | .inr run => s.runs.records.lookup run.id = some run

/-- The candidates of a block of `Purge`. -/
def purged : TxCall Watch Image Command Query → List Candidate
  | .other (.execPurge candidates) => candidates
  | _ => []

/-- The block of a `Purge` finds the records that it listed. -/
def Undisturbed (s : Server) (c : TxCall Watch Image Command Query) : Prop :=
  FreshIDs s c ∧ ∀ candidate ∈ purged c, ∀ r ∈ candidate.removals, StillListed s.keys r

/-- No index leads to a missing record, the counters are right, and lists can be read. -/
structure Sound (s : Keyspace) : Prop where
  status : ∀ status, ∀ id ∈ s.zRange (statusKey status),
    (s.executions.records.lookup id).isSome = true
  queue : ∀ name, ∀ id ∈ s.zRange (queueKey name), (s.executions.records.lookup id).isSome = true
  runStatus : ∀ status, ∀ id ∈ s.zRange (runStatusKey status),
    (s.runs.records.lookup id).isSome = true
  counts : ∀ name status, s.executions.counts (name, status) =
    tally (fun item => item.taskName = name ∧ item.status = status) s.executions.records
  runCounts : ∀ name status, s.runs.counts (name, status) =
    tally (fun run => run.pipelineName = name ∧ run.status = status) s.runs.records
  listExecutions : ∀ filter, ∃ items, listExecutions s filter = .ok items
  listPipelineRuns : ∀ filter, ∃ runs, listPipelineRuns s filter = .ok runs

theorem Represented.sound {s : Keyspace} (h : Represented s) : Sound s where
  status := by
    intro status id hid
    obtain ⟨item, hl, -⟩ := stored_of_mem_index h hid
    simp [hl]
  queue := by
    intro name id hid
    obtain ⟨item, hl, -⟩ := stored_of_mem_index h hid
    simp [hl]
  runStatus := by
    intro status id hid
    obtain ⟨run, hl⟩ := storedRun_of_mem_index h hid
    simp [hl]
  counts := by
    intro name status
    rw [h.executions.counts]
    congr 1
    funext item
    simp [Schema.counted, executionSchema]
  runCounts := by
    intro name status
    rw [h.runs.counts]
    congr 1
    funext run
    simp [Schema.counted, runSchema]
  listExecutions := listExecutions_stored h
  listPipelineRuns := listPipelineRuns_stored h

/-- What a `Purge` knows after its listing, whatever happens. -/
def Identified (s : Server) : Execution ⊕ PipelineRun → Prop
  | .inl item => item.id ∈ s.used ∧
      ∀ now, s.keys.executions.records.lookup item.id = some now → SameIdentity item now
  | .inr _ => True

theorem Identified.later {s s' : Server} {r : Execution ⊕ PipelineRun} (h : Identified s r)
    (hlater : Later s s') : Identified s' r := by
  cases r with
  | inr run => trivial
  | inl item =>
      refine ⟨hlater.used _ h.1, ?_⟩
      intro now' hl'
      cases hl : s.keys.executions.records.lookup item.id with
      | none => cases (hlater.gone _ h.1 hl).symm.trans hl'
      | some now => exact (h.2 now hl).trans (hlater.same _ now now' hl hl')

theorem Stored.identified {s : Server} (hknown : Known s) {r : Execution ⊕ PipelineRun}
    (h : Stored s.keys r) : Identified s r := by
  cases r with
  | inr run => trivial
  | inl item =>
      refine ⟨hknown.executions item.id item h, ?_⟩
      intro now hl
      cases h.symm.trans hl
      exact SameIdentity.refl item

theorem StillListed.removable {s : Server} {r : Execution ⊕ PipelineRun}
    (h : StillListed s.keys r) (hidentified : Identified s r) : Removable s.keys r := by
  cases r with
  | inr run => exact h
  | inl item =>
      obtain ⟨now, hl, hstatus, -⟩ := h
      exact ⟨now, hl, hidentified.2 now hl, hstatus⟩

/-- What a `Purge` has noted of its candidates. -/
structure Noted (s : Server) (candidates : List Candidate) : Prop where
  identified : ∀ r ∈ candidates.flatMap Candidate.removals, Identified s r
  distinct : (candidates.flatMap Candidate.removals).Pairwise
    fun r r' => recordKey r ≠ recordKey r'

theorem keeps_interruptedPurge (before : Time) (limit : Int) (order : RangeOrder Candidate) :
    Keeps Undisturbed (purge before limit order) := by
  have hlist : CallTriple (backend.system Undisturbed) Invariant Later Later (fun _ _ => True)
      (.other (.listPurge before limit order))
      fun listed _ s => ∀ candidates, listed = .ok candidates → Noted s candidates := by
    apply callRule_read fun _ => rfl
    intro s s' _ _ hI candidates hok
    obtain ⟨hstored, hdistinct⟩ := listPurge_removals hI.represented hok
    exact ⟨fun r hr => (hstored r hr).identified hI.known, hdistinct⟩
  refine Triple.call hlist fun listed => ?_
  cases listed with
  | error err => exact Triple.done fun _ _ _ => trivial
  | ok candidates =>
      have hexec : CallTriple (backend.system Undisturbed) Invariant Later Later
          (fun _ s => Noted s candidates) (.other (.execPurge candidates)) fun _ _ _ => True := by
        apply callTriple_other
        intro s s' hnoted hlater hI hallowed
        have hremovable : ∀ r ∈ candidates.flatMap Candidate.removals, Removable s'.keys r := by
          intro r hr
          obtain ⟨candidate, hcandidate, hmem⟩ := List.mem_flatMap.mp hr
          have hlisted := hallowed.2 candidate hcandidate r hmem
          exact hlisted.removable ((hnoted.identified r hr).later hlater)
        have hkept := kept_purge hI hremovable hnoted.distinct
        rw [← purge_commands] at hkept
        exact ⟨hkept.invariant, hkept.later, trivial⟩
      have hblock : Rule Undisturbed (fun s => Noted s candidates)
          (.call (.other (.execPurge candidates)) fun _ => .done (.ok (purgeResult candidates)) :
            Op (Except GoError PurgeResult)) fun _ _ => True :=
        Triple.call hexec fun _ => keeps_done _
      exact hblock.of fun _ s h => h candidates rfl

/-- The records that the block of a `Purge` removes are those that it listed, unchanged where they
were terminal. -/
structure RemovesListed (s : Keyspace) (candidates : List Candidate) : Prop where
  executions : ∀ id now, s.executions.records.lookup id = some now →
    (s.applyAll (candidates.flatMap purgeCandidate)).executions.records.lookup id = none →
    ∃ item, .inl item ∈ candidates.flatMap Candidate.removals ∧ now.status = item.status ∧
      (item.status.isTerminal = true → now = item)
  runs : ∀ id now, s.runs.records.lookup id = some now →
    (s.applyAll (candidates.flatMap purgeCandidate)).runs.records.lookup id = none →
    .inr now ∈ candidates.flatMap Candidate.removals

theorem removesListed {s : Keyspace} {candidates : List Candidate}
    (h : ∀ candidate ∈ candidates, ∀ r ∈ candidate.removals, StillListed s r) :
    RemovesListed s candidates := by
  have hlisted : ∀ r ∈ candidates.flatMap Candidate.removals, StillListed s r := by
    intro r hr
    obtain ⟨candidate, hcandidate, hmem⟩ := List.mem_flatMap.mp hr
    exact h candidate hcandidate r hmem
  constructor
  · intro id now hl hgone
    by_cases hitem : ∃ item, .inl item ∈ candidates.flatMap Candidate.removals ∧ item.id = id
    · obtain ⟨item, hmem, rfl⟩ := hitem
      obtain ⟨now', hl', hstatus, hsame⟩ := hlisted _ hmem
      cases hl.symm.trans hl'
      exact ⟨item, hmem, hstatus, hsame⟩
    · have hframe : ∀ c ∈ candidates.flatMap purgeCandidate, c.changedExecution ≠ some id := by
        intro c hc
        rw [purge_commands] at hc
        obtain ⟨r, hr, hcommand⟩ := List.mem_flatMap.mp hc
        cases r with
        | inl item =>
            have hid : id ≠ item.id := fun heq => hitem ⟨item, hr, heq.symm⟩
            exact (changed_purgeExecution item c hcommand).2.1 id hid
        | inr run =>
            rw [(changed_purgeRun run c hcommand).2.1]
            exact fun heq => nomatch heq
      rw [lookup_applyAll hframe, hl] at hgone
      cases hgone
  · intro id now hl hgone
    by_cases hrun : ∃ run, .inr run ∈ candidates.flatMap Candidate.removals ∧ run.id = id
    · obtain ⟨run, hmem, rfl⟩ := hrun
      have hl' : s.runs.records.lookup run.id = some run := hlisted _ hmem
      cases hl.symm.trans hl'
      exact hmem
    · have hframe : ∀ c ∈ candidates.flatMap purgeCandidate, c.changedRun ≠ some id := by
        intro c hc
        rw [purge_commands] at hc
        obtain ⟨r, hr, hcommand⟩ := List.mem_flatMap.mp hc
        cases r with
        | inl item =>
            rw [(changed_purgeExecution item c hcommand).2.2]
            exact fun heq => nomatch heq
        | inr run =>
            have hid : id ≠ run.id := fun heq => hrun ⟨run, hr, heq.symm⟩
            exact (changed_purgeRun run c hcommand).2.2 id hid
      rw [lookupRun_applyAll hframe, hl] at hgone
      cases hgone

/-- Under concurrency a `Purge` whose block finds what it listed is safe. -/
theorem purge_concurrent {s : Server}
    {threads : List (Thread Unit (TxCall Watch Image Command Query) (TxReply QueryReply) Unit)}
    (run : Reach (backend.system Undisturbed) Server.Initial Interrupted s threads) :
    Sound s.keys ∧ ∀ candidates, Undisturbed s (.other (.execPurge candidates)) →
      RemovesListed s.keys candidates := by
  have hspawn : ∀ p, Interrupted p → Keeps Undisturbed p := by
    intro p hp
    cases hp with
    | operation op => exact keeps_program (fun _ _ h => h.1) op
    | purge before limit order => exact (keeps_interruptedPurge before limit order).discard
  exact ⟨(invariant_of_reach hspawn run).represented.sound, fun _ h => removesListed h.2⟩

/-! ## Concrete interruptions -/

instance (s : Keyspace) (r : Execution ⊕ PipelineRun) : Decidable (StillListed s r) :=
  match r with
  | .inl item => inferInstanceAs (Decidable (∃ now ∈ s.executions.records.lookup item.id,
      now.status = item.status ∧ (item.status.isTerminal = true → now = item)))
  | .inr run => inferInstanceAs (Decidable (s.runs.records.lookup run.id = some run))

instance (s : Server) (c : TxCall Watch Image Command Query) : Decidable (Undisturbed s c) :=
  inferInstanceAs (Decidable (FreshIDs s c ∧ _))

/-- Concrete interleavings in which blocks of `Purge` find what was listed. -/
def undisturbedExecution : Library.Interleaving.Execution (backend.system Undisturbed) :=
  backend.execution (fun s c => decide (Undisturbed s c)) fun _ _ h => of_decide_eq_true h

/-- One execution succeeds, and a `Purge` lists it. -/
def listedByPurge : List (Move (TxCall Watch Image Command Query) (TxReply QueryReply) Unit) :=
  [.spawn (Operation.createExecution (Env.at 5 0) standaloneRequest).program, .step 0, .step 0,
    .spawn (Operation.claimCandidate (Env.at 6 1) 0 1 "a" [⟨"email", 1⟩] 10).program,
    .step 1, .step 1,
    .spawn (Operation.succeed (Env.at 7 20) 1 17 "2").program, .step 2, .step 2,
    .spawn (purge 100 0 (RangeOrder.stored _)).discard, .step 3]

/-- An operation takes effect before the block of the `Purge`. -/
def interruptedBy (op : Operation) :
    List (Move (TxCall Watch Image Command Query) (TxReply QueryReply) Unit) :=
  listedByPurge ++ [.spawn op.program, .step 4, .step 4, .step 3]

theorem interruptedBy_spawns (op : Operation) : ∀ m ∈ interruptedBy op, m.Spawns Interrupted := by
  intro m hm
  simp only [interruptedBy, listedByPurge, List.cons_append, List.nil_append, List.mem_cons,
    List.not_mem_nil, or_false] at hm
  rcases hm with rfl | rfl | rfl | rfl | rfl | rfl | rfl | rfl | rfl | rfl | rfl | rfl | rfl | rfl |
    rfl <;>
    first | exact trivial | exact Interrupted.operation _ | exact Interrupted.purge _ _ _

/-- The first execution is gone and another one is there. -/
def firstPurged (s : Server) : Bool :=
  (s.keys.executions.records.lookup 1).isNone && (s.keys.executions.records.lookup 21).isSome

/-- The block of the `Purge` would find the first execution as it is. -/
def firstListed (s : Server) : Bool :=
  (s.keys.executions.records.lookup 1).any fun item =>
    decide (Undisturbed s (.other (.execPurge [.execution 7 item])))

theorem purge_concurrent_of_create :
    (∃ s threads, Reach (backend.system Undisturbed) Server.Initial Interrupted s threads ∧
      firstPurged s = true ∧ Sound s.keys) ∧
    (∃ s threads item, Reach (backend.system Undisturbed) Server.Initial Interrupted s threads ∧
      Undisturbed s (.other (.execPurge [.execution 7 item])) ∧
      RemovesListed s.keys [.execution 7 item]) := by
  have hinitial : Server.Initial Server.empty := rfl
  constructor
  · have hends : (undisturbedExecution.drive (interruptedBy (.createExecution (Env.at 8 20)
        standaloneRequest)) Server.empty []).any (fun final => firstPurged final.1) = true := by
      decide
    obtain ⟨s, threads, run, htest⟩ :=
      undisturbedExecution.drive_reaches (interruptedBy_spawns _) hinitial hends
    exact ⟨s, threads, run, htest, (purge_concurrent run).1⟩
  · have hlisted : ∀ m ∈ listedByPurge, m.Spawns Interrupted := fun m hm =>
      interruptedBy_spawns (.reapExpired (Env.at 8 20)) m (List.mem_append_left _ hm)
    have hends : (undisturbedExecution.drive listedByPurge Server.empty []).any
        (fun final => firstListed final.1) = true := by decide
    obtain ⟨s, threads, run, htest⟩ := undisturbedExecution.drive_reaches hlisted hinitial hends
    obtain ⟨item, -, hitem⟩ := (Option.any_eq_true _ _).mp htest
    have hundisturbed := of_decide_eq_true hitem
    exact ⟨s, threads, item, run, hundisturbed, (purge_concurrent run).2 _ hundisturbed⟩

/-- A pending execution is gone, but not from the index of its status and the counters. -/
def pendingLost (s : Server) : Bool :=
  (s.keys.executions.records.lookup 1).isNone && decide (1 ∈ s.keys.zRange (statusKey .pending)) &&
  decide (s.keys.executions.counts ("email", .pending) = 1) &&
  decide (s.keys.executions.counts ("email", .succeeded) = -1) &&
  match listExecutions s.keys ⟨"", some .pending, none, 0, none⟩ with
  | .error err => err == .notFound
  | .ok _ => false

/-- The block of a `Purge` removes an execution that was restarted after the listing. -/
theorem pending_lost_of_restart : ∃ s threads,
    Reach (backend.system FreshIDs) Server.Initial Interrupted s threads ∧
      pendingLost s = true ∧ ¬ Sound s.keys := by
  have hends : (freshExecution.drive (interruptedBy (.restartExecution (Env.at 8 20) 1 zeroTime))
      Server.empty []).any (fun final => pendingLost final.1) = true := by decide
  have hinitial : Server.Initial Server.empty := rfl
  obtain ⟨s, threads, run, htest⟩ :=
    freshExecution.drive_reaches (interruptedBy_spawns _) hinitial hends
  refine ⟨s, threads, run, htest, ?_⟩
  intro hsound
  simp only [pendingLost, Bool.and_eq_true, decide_eq_true_eq, Option.isNone_iff_eq_none] at htest
  have hstored := hsound.status .pending 1 htest.1.1.1.2
  rw [htest.1.1.1.1] at hstored
  cases hstored

end Ody.Redis
