import Ody.Redis.Blocks
import Ody.Redis.Refinement

/-!
# Executions in the Redis store

In every interleaving of the commands of any clients each execution lives as in the
in-memory store: a step leaves it alone, creates it under a new identifier, moves it
as some call of the in-memory store would, or deletes it. The fields of a stored
record therefore stay consistent with its status, and its event list replays to it,
although the clients decide on records that they read some commands earlier.
-/

namespace Ody.Redis

open Library.Tables Library.DerivedIndexes Library.Interleaving Library.Optimistic
open Memory (Env standaloneRequest)

/-! ## What a step does to one execution -/

/-- What happens to one execution between two states of the server. -/
inductive Change (s s' : Server) (id : UUID) : Prop
  | same (h : s'.keys.executions.records.lookup id = s.keys.executions.records.lookup id)
      (hh : s'.keys.history id = s.keys.history id)
  | created (env : Env) (request : CreateExecution) (hnew : id ∉ s.used)
      (h : s'.keys.executions.records.lookup id = some (Memory.created env request))
      (hh : s'.keys.history id =
        s.keys.history id ++ [Memory.event env (Memory.created env request) .created ""])
  | moved {item item' : Execution} {evs : List Event}
      (hold : s.keys.executions.records.lookup id = some item)
      (h : s'.keys.executions.records.lookup id = some item')
      (hh : s'.keys.history id = s.keys.history id ++ evs) (hmoves : Memory.Moves item item' evs)
  | deleted (h : s'.keys.executions.records.lookup id = none) (hh : s'.keys.history id = [])

/-- What a step does to the executions. -/
def Changes (s s' : Server) : Prop := ∀ id, Change s s' id

theorem Changes.of_same {s s' : Server}
    (hrecords : s'.keys.executions.records = s.keys.executions.records)
    (hevents : s'.keys.events = s.keys.events) : Changes s s' := by
  intro id
  refine Change.same (by rw [hrecords]) ?_
  rw [Keyspace.history, hevents]
  rfl

/-- A block that writes one record moves this execution and no other. -/
theorem Changes.of_writes {s s' : Server} {item item' : Execution} {entry : Option Event}
    (hl : s.keys.executions.records.lookup item'.id = some item)
    (hmoves : Memory.Moves item item' entry.toList) (hwrites : Writes s.keys s'.keys item' entry) :
    Changes s s' := by
  have hhistory : ∀ id, s'.keys.history id =
      if id = item'.id then s.keys.history id ++ entry.toList else s.keys.history id := by
    intro id
    rw [Keyspace.history, hwrites.events]
    cases entry with
    | none => simp [Keyspace.history]
    | some event =>
        rw [lookup_insert_ite]
        by_cases hid : id = item'.id
        · simp [hid]
        · simp [hid, Keyspace.history]
  intro id
  by_cases hid : id = item'.id
  · subst hid
    refine Change.moved hl ?_ ((hhistory _).trans (if_pos rfl)) hmoves
    rw [hwrites.records, lookup_insert_ite, if_pos rfl]
  · refine Change.same ?_ ((hhistory id).trans (if_neg hid))
    rw [hwrites.records, lookup_insert_ite, if_neg hid]

/-- The identifier of a record never changes. -/
theorem Moves.id {item item' : Execution} {evs : List Event} (h : Memory.Moves item item' evs) :
    item'.id = item.id := by
  obtain ⟨env, s, c, t⟩ := h
  cases t <;> rfl

/-- A block on one record changes one execution. -/
theorem changes_of_block {s : Server} {w : Watch} {image : Image} {commands : List Command}
    (hfresh : FreshIDs s (.commit w image commands))
    (hblock : Block (fun _ => True) (fun _ _ => True) w s.keys commands) :
    Changes s (s.applyAll commands) := by
  cases hblock with
  | @create env request _ hw hfree =>
      have hnew : env.newUUID 0 ∉ s.used := by
        have hid := (hfresh (.set (env.newUUID 0) (newExecution env request)) (.head _)).1 _ rfl
        rw [hw] at hid
        exact hid.resolve_left List.not_mem_nil
      have hexecutions : (s.keys.applyAll (createCommands env (newExecution env request))).executions =
          afterCreate s.keys.executions env (newExecution env request) := executions_applyAll s.keys _
      intro id
      by_cases hid : id = env.newUUID 0
      · subst hid
        refine Change.created env request hnew ?_ ?_ <;> rw [keys_applyAll]
        · rw [hexecutions, afterCreate_records, lookup_insert_ite]
          exact if_pos rfl
        · rw [history_createCommands]
          exact if_pos rfl
      · refine Change.same ?_ ?_ <;> rw [keys_applyAll]
        · rw [hexecutions, afterCreate_records, lookup_insert_ite]
          exact if_neg hid
        · rw [history_createCommands]
          exact if_neg hid
  | @move item item' entry commands hl _ hmoves hwrites =>
      rw [← keys_applyAll] at hwrites
      rw [← Moves.id hmoves] at hl
      exact Changes.of_writes hl hmoves hwrites
  | unindex id => exact Changes.of_same (by rw [keys_applyAll]; rfl) (by rw [keys_applyAll]; rfl)
  | @createRun env request hw hfree =>
      apply Changes.of_same <;> rw [keys_applyAll] <;> unfold createRunCommands runReferences <;>
        split <;> rfl
  | status _ hl =>
      apply Changes.of_same <;> rw [keys_applyAll] <;> unfold moveRun <;> split <;> rfl

/-! ## Removals -/

/-- The execution is as before, or it is gone. -/
def Shrinks (s s' : Keyspace) (id : UUID) : Prop :=
  (s'.executions.records.lookup id = s.executions.records.lookup id ∧ s'.history id = s.history id) ∨
    (s'.executions.records.lookup id = none ∧ s'.history id = [])

theorem Shrinks.trans {a b c : Keyspace} {id : UUID} (h : Shrinks a b id) (h' : Shrinks b c id) :
    Shrinks a c id := by
  rcases h' with ⟨hr, hh⟩ | hgone
  · rcases h with ⟨hr', hh'⟩ | ⟨hr', hh'⟩
    · exact Or.inl ⟨hr.trans hr', hh.trans hh'⟩
    · exact Or.inr ⟨hr.trans hr', hh.trans hh'⟩
  · exact Or.inr hgone

/-- The command stores nothing about an execution. -/
def Command.Removes : Command → Prop
  | .set _ _ => False
  | .rPush _ _ => False
  | _ => True

theorem shrinks_apply (s : Keyspace) {c : Command} (hc : c.Removes) (id : UUID) :
    Shrinks s (s.apply c) id := by
  cases c with
  | set id' item => exact hc.elim
  | rPush id' event => exact hc.elim
  | del id' =>
      by_cases hid : id = id'
      · subst hid
        refine Or.inr ⟨AList.lookup_erase _ _, ?_⟩
        simp [Keyspace.history, Keyspace.apply]
      · refine Or.inl ⟨AList.lookup_erase_ne hid, ?_⟩
        simp [Keyspace.history, Keyspace.apply, AList.lookup_erase_ne hid]
  | zAdd key score member => cases key <;> exact Or.inl ⟨rfl, rfl⟩
  | zRem key member => cases key <;> exact Or.inl ⟨rfl, rfl⟩
  | _ => exact Or.inl ⟨rfl, rfl⟩

theorem shrinks_applyAll (s : Keyspace) {commands : List Command}
    (hcommands : ∀ c ∈ commands, c.Removes) (id : UUID) : Shrinks s (s.applyAll commands) id := by
  induction commands generalizing s with
  | nil => exact Or.inl ⟨rfl, rfl⟩
  | cons c rest ih =>
      have hrest := ih (s.apply c) fun c' hc' => hcommands c' (List.mem_cons_of_mem c hc')
      exact (shrinks_apply s (hcommands c (List.mem_cons_self ..)) id).trans hrest

theorem removes_purge (candidates : List Candidate) :
    ∀ c ∈ candidates.flatMap purgeCandidate, c.Removes := by
  have hexecution : ∀ item, ∀ c ∈ purgeExecution item, c.Removes := by
    intro item
    unfold purgeExecution
    cases item.pipelineRunID <;> split_ifs <;> simp [Command.Removes]
  have hrun : ∀ run, ∀ c ∈ purgeRun run, c.Removes := by
    intro run
    unfold purgeRun
    split_ifs <;> simp [Command.Removes]
  intro c hc
  obtain ⟨candidate, -, hmem⟩ := List.mem_flatMap.mp hc
  cases candidate with
  | execution finished item => exact hexecution item c hmem
  | run finished run nodes =>
      rcases List.mem_append.mp hmem with hnode | hown
      · obtain ⟨item, -, hitem⟩ := List.mem_flatMap.mp hnode
        exact hexecution item c hitem
      · exact hrun run c hown

theorem shrinks_purge (s : Server) (before : Time) (limit : Int) (order : RangeOrder Candidate)
    (id : UUID) : Shrinks s.keys (s.exec (.purge before limit order)).2.keys id := by
  simp only [Server.exec]
  cases listPurge s.keys before limit order with
  | error err => exact Or.inl ⟨rfl, rfl⟩
  | ok candidates =>
      have hshrinks := shrinks_applyAll s.keys (removes_purge candidates) id
      rw [← keys_applyAll] at hshrinks
      exact hshrinks

theorem changes_purge (s : Server) (before : Time) (limit : Int) (order : RangeOrder Candidate) :
    Changes s (s.exec (.purge before limit order)).2 := by
  intro id
  rcases shrinks_purge s before limit order id with ⟨hr, hh⟩ | ⟨hr, hh⟩
  · exact Change.same hr hh
  · exact Change.deleted hr hh

/-! ## Restarted subgraphs -/

/-- The block of a restarted subgraph resets its executions and leaves the others. -/
theorem subgraph_records {s : Server} (h : Invariant s) (env : Env) (request : RestartSubgraph)
    {items : List Execution} (run : PipelineRun) (hdistinct : items.Pairwise fun a b => a.id ≠ b.id)
    {s' : Server} (hs' : s' = s.applyAll (items.flatMap (subgraphCommands env request) ++
      moveRun run.id (reopenedRun env run) run.status)) (id : UUID) :
    (s'.keys.executions.records.lookup id = s.keys.executions.records.lookup id ∧
      s'.keys.history id = s.keys.history id) ∨
    ∃ item ∈ items, item.id = id ∧
      s'.keys.executions.records.lookup id = some (subgraphItem env request item) ∧
      s'.keys.history id = s.keys.history id ++
        [Memory.event env (subgraphItem env request item) .restarted ""] := by
  have hreopened : (reopenedRun env run).id = run.id := rfl
  have hblock : Abstracts (s.keys.applyAll (items.flatMap (subgraphCommands env request)))
      (Memory.saveAll env .restarted (fun _ => "") (abstraction s.keys h.represented)
        (items.map (subgraphItem env request))) :=
    (abstracts_abstraction h.represented).subgraph request items
  have habstracts := hblock.moveRun hreopened run.status
  have happend : s'.keys = (s.keys.applyAll (items.flatMap (subgraphCommands env request))).applyAll
      (moveRun run.id (reopenedRun env run) run.status) := by
    rw [hs', keys_applyAll]
    exact List.foldl_append
  rw [← happend] at habstracts
  have hids : ((items.map (subgraphItem env request)).map (·.id)).Nodup := by
    rw [List.map_map]
    exact List.pairwise_map.mpr hdistinct
  by_cases hid : id ∈ (items.map (subgraphItem env request)).map (·.id)
  · obtain ⟨reset, hreset, rfl⟩ := List.mem_map.mp hid
    obtain ⟨hl, hh⟩ := Memory.saveAll_saved env .restarted (fun _ => "")
      (abstraction s.keys h.represented) _ hids reset hreset
    obtain ⟨item, hitem, rfl⟩ := List.mem_map.mp hreset
    exact Or.inr ⟨item, hitem, rfl, (habstracts.executions _).symm.trans hl,
      (habstracts.history _).symm.trans hh⟩
  · obtain ⟨hl, hh⟩ := Memory.saveAll_other env .restarted (fun _ => "")
      (abstraction s.keys h.represented) _ id hid
    exact Or.inl ⟨(habstracts.executions id).symm.trans hl, (habstracts.history id).symm.trans hh⟩

/-- The execution that a node key of a run led to: if its record is still there, it is that node. -/
structure LeadsNode (s : Server) (runID : UUID) (key : String) (id : UUID) : Prop
    extends Leads s key id where
  run : ∀ item, s.keys.executions.records.lookup id = some item → item.pipelineRunID = some runID

theorem LeadsNode.later {s s' : Server} {runID : UUID} {key : String} {id : UUID}
    (h : LeadsNode s runID key id) (hlater : Later s s') : LeadsNode s' runID key id := by
  refine ⟨h.toLeads.later hlater, ?_⟩
  intro item' hl'
  cases hl : s.keys.executions.records.lookup id with
  | none => cases (hlater.gone id h.used hl).symm.trans hl'
  | some item => exact (hlater.same id item item' hl hl').pipelineRunID.trans (h.run item hl)

theorem leadsNode_of_ref {s : Server} (h : Invariant s) {runID : UUID} {key : String} {id : UUID}
    (href : s.keys.executions.refs.lookup (nodeKey runID key) = some id) :
    LeadsNode s runID key id := by
  refine ⟨leads_of_ref h href, ?_⟩
  obtain ⟨item, hl, hmem⟩ := (h.represented.executions.refs (nodeKey runID key) id).mp href
  intro stored hstored
  cases hl.symm.trans hstored
  exact (mem_references_node.mp hmem).1

/-- The lookups of a restart find nodes of the run under different keys. -/
theorem rule_lookupRunNodes (runID : UUID) (keys : List String) {F : Server → Prop}
    (hF : ∀ s s', F s → Later s s' → F s') :
    Rule FreshIDs F (lookupNodes runID keys) fun ids s => F s ∧ ∃ keys' : List String,
      keys'.Sublist keys ∧ List.Forall₂ (LeadsNode s runID) keys' ids := by
  induction keys generalizing F with
  | nil => exact Triple.done fun _ s hs => ⟨hs, [], List.Sublist.refl [], .nil⟩
  | cons key rest ih =>
      have hget : CallTriple (backend.system FreshIDs) Invariant Later Later (fun _ s => F s)
          (.other (.getRef (nodeKey runID key)))
          fun ref _ s => F s ∧ ∀ id ∈ ref, LeadsNode s runID key id := by
        apply callRule_read fun _ => rfl
        intro s s' hs hlater hI
        exact ⟨hF s s' hs hlater, fun id hid => leadsNode_of_ref hI hid⟩
      refine Triple.call hget fun ref => ?_
      have hstable : ∀ s s' : Server, (F s ∧ ∀ id ∈ ref, LeadsNode s runID key id) → Later s s' →
          F s' ∧ ∀ id ∈ ref, LeadsNode s' runID key id :=
        fun s s' h hlater => ⟨hF s s' h.1 hlater, fun id hid => (h.2 id hid).later hlater⟩
      refine (ih hstable).bind fun ids => Triple.done ?_
      rintro _ s ⟨⟨hs, href⟩, keys', hsub, hleads⟩
      refine ⟨hs, ?_⟩
      cases ref with
      | none => exact ⟨keys', hsub.cons key, hleads⟩
      | some id => exact ⟨key :: keys', hsub.cons_cons key, .cons (href id rfl) hleads⟩

theorem exists_leadsNode {s : Server} {runID id : UUID} {keys : List String} {ids : List UUID}
    (h : List.Forall₂ (LeadsNode s runID) keys ids) (hid : id ∈ ids) :
    ∃ key ∈ keys, LeadsNode s runID key id := by
  induction h with
  | nil => cases hid
  | cons hnode _ ih =>
      rcases List.mem_cons.mp hid with rfl | hrest
      · exact ⟨_, List.mem_cons_self .., hnode⟩
      · obtain ⟨key, hkey, hlead⟩ := ih hrest
        exact ⟨key, List.mem_cons_of_mem _ hkey, hlead⟩

/-- What the block of a restarted subgraph finds: idle nodes of the run under the keys. -/
structure Restarts (s : Server) (runID : UUID) (keys : List String) (items : List Execution) :
    Prop where
  stored : ∀ item ∈ items, s.keys.executions.records.lookup item.id = some item
  distinct : items.Pairwise fun a b => a.id ≠ b.id
  idle : ∀ item ∈ items, item.status.isActive = false
  nodes : ∀ item ∈ items, item.pipelineRunID = some runID ∧ item.nodeKey ∈ keys

theorem restartTransaction_ok {s : Server} (h : Invariant s) {env : Env}
    {request : RestartSubgraph} {runID : UUID} {keys : List String} {ids : List UUID}
    (hkeys : keys.Nodup) (hleads : List.Forall₂ (LeadsNode s runID) keys ids) {root : Execution}
    {commands : List Command}
    (hbody : restartTransaction env request (s.keys.view ⟨ids, [request.runID], [], []⟩) =
      .ok (root, commands)) :
    ∃ items run, Restarts s runID keys items ∧
      commands = items.flatMap (subgraphCommands env request) ++
        moveRun run.id (reopenedRun env run) run.status := by
  unfold restartTransaction at hbody
  split at hbody
  · next run _ =>
    split at hbody
    · cases hbody
    · next items hload =>
      split at hbody
      · cases hbody
      · cases hbody
        obtain ⟨hitems, hidle⟩ := loadItems_ok hload
        have hlead : List.Forall₂ (Leads s) keys ids := hleads.imp fun _ _ hlead => hlead.toLeads
        obtain ⟨hstored, hdistinct⟩ := distinct_of_leads h hkeys hlead hitems
        refine ⟨items, run, ⟨hstored, hdistinct, hidle, ?_⟩, rfl⟩
        intro item hitem
        have hmem : some item ∈ ids.map s.keys.executions.records.lookup := by
          have hview : (s.keys.view ⟨ids, [request.runID], [], []⟩).executions =
              ids.map s.keys.executions.records.lookup := rfl
          rw [← hview, hitems]
          exact List.mem_map_of_mem hitem
        obtain ⟨id, hid, hl⟩ := List.mem_map.mp hmem
        obtain ⟨key, hkey, hnode⟩ := exists_leadsNode hleads hid
        exact ⟨hnode.run item hl, hnode.node item hl ▸ hkey⟩
  · cases hbody

/-- The block of a restarted subgraph, in the state in which it takes effect. -/
theorem changes_restartTransaction {s : Server} (h : Invariant s) {env : Env}
    {request : RestartSubgraph} {runID : UUID} {keys : List String} {ids : List UUID}
    (hkeys : keys.Nodup) (hleads : List.Forall₂ (LeadsNode s runID) keys ids) {root : Execution}
    {commands : List Command}
    (hbody : restartTransaction env request (s.keys.view ⟨ids, [request.runID], [], []⟩) =
      .ok (root, commands)) : Changes s (s.applyAll commands) := by
  obtain ⟨items, run, hrestarts, rfl⟩ := restartTransaction_ok h hkeys hleads hbody
  intro id
  rcases subgraph_records h env request run hrestarts.distinct rfl id with
    ⟨hl, hh⟩ | ⟨item, hitem, rfl, hl, hh⟩
  · exact Change.same hl hh
  · refine Change.moved (hrestarts.stored item hitem) hl hh ?_
    refine ⟨env, Memory.newMemoryStore,
      .restartPipelineSubgraph { request with
        runID := runID
        descendantKeys := item.nodeKey :: request.descendantKeys }, ?_⟩
    exact Memory.Transition.reset (by simp [Memory.affected, (hrestarts.nodes item hitem).1])
      (hrestarts.idle item hitem)

/-! ## Every operation -/

/-- An operation keeps the invariant and changes each execution as `Changes` says. -/
abbrev Lives {α : Type} (p : Op α) : Prop :=
  Triple (backend.system FreshIDs) Invariant Later (fun s s' => Later s s' ∧ Changes s s')
    (fun _ _ => True) p fun _ _ _ => True

/-- A call that commits blocks changes one execution. -/
theorem changes_of_blockCall {s s' : Server} {c : TxCall Watch Image Command Query}
    {r : TxReply QueryReply c} (h : Invariant s) (hc : AnyBlockCall c) (hfresh : FreshIDs s c)
    (hstep : backend.Step s c r s') : Changes s s' := by
  cases c with
  | other c =>
      have hexec : s.exec c = (r, s') := hstep
      have hsame := hc s
      rw [hexec] at hsame
      exact Changes.of_same hsame.records hsame.events
  | watch w =>
      obtain ⟨-, rfl⟩ := hstep
      exact Changes.of_same rfl rfl
  | commit w image commands =>
      rcases hstep with ⟨-, hview, rfl⟩ | ⟨-, rfl⟩
      · exact changes_of_block hfresh (hc s.keys h.represented hview)
      · exact Changes.of_same rfl rfl

theorem lives_of_blocks {α : Type} {p : Op α} (h : Keeps FreshIDs p) (hp : p.Issues AnyBlockCall) :
    Lives p := by
  intro g s _
  refine Safe.issues (fun _ _ h => h) ?_ (h g s trivial) hp
  intro s g c r s' hI hc hallowed hstep
  exact changes_of_blockCall hI hc hallowed hstep

theorem lives_restartPipelineSubgraph (env : Env) (request : RestartSubgraph)
    (hkeys : (request.rootNodeKey :: request.descendantKeys).Nodup) :
    Lives (restartPipelineSubgraph env request) := by
  have hreads : ∀ keys, (lookupNodes request.runID keys).Issues AnyBlockCall := by
    intro keys
    induction keys with
    | nil => trivial
    | cons key rest ih => exact blocks_read (fun _ => rfl) fun _ => ih.bind fun _ => trivial
  have hlookup : Triple (backend.system FreshIDs) Invariant Later
      (fun s s' => Later s s' ∧ Changes s s') (fun _ _ => True)
      (lookupNodes request.runID (request.rootNodeKey :: request.descendantKeys))
      fun ids _ s => ∃ keys' : List String, keys'.Nodup ∧
        List.Forall₂ (LeadsNode s request.runID) keys' ids := by
    intro g s _
    have hrule := rule_lookupRunNodes request.runID (request.rootNodeKey :: request.descendantKeys)
      (fun _ _ (_ : True) _ => trivial) g s trivial
    refine Safe.weaken (Safe.issues (fun _ _ h => h) ?_ hrule (hreads _)) ?_
    · intro s g c r s' hI hc hallowed hstep
      exact changes_of_blockCall hI hc hallowed hstep
    · rintro ids _ s ⟨-, keys', hsub, hleads⟩
      exact ⟨keys', hkeys.sublist hsub, hleads⟩
  refine hlookup.bind fun ids => Triple.bind (Q := fun _ _ _ => True) ?_ fun _ =>
    Triple.done fun _ _ _ => trivial
  rw [watch, watchFrom]
  refine Triple.weaken (triple_attempt (Q := fun _ _ => True) ?_ ?_ ?_ ?_ 16 none)
    fun _ _ _ _ => trivial
  · exact fun s _ => ⟨Later.refl s, Changes.of_same rfl rfl⟩
  · rintro s s' ⟨keys', hnodup, hleads⟩ hlater -
    exact ⟨keys', hnodup, hleads.imp fun _ _ h => h.later hlater⟩
  · exact fun _ => Triple.done fun _ _ h => h
  · rintro _ n s root commands hI ⟨keys', hnodup, hleads⟩ hbody -
    have hkept := kept_restartTransaction hI hnodup (hleads.imp fun _ _ h => h.toLeads) hbody
    exact ⟨hkept.invariant, ⟨hkept.later, changes_restartTransaction hI hnodup hleads hbody⟩, trivial⟩

theorem lives_purge (before : Time) (limit : Int) (order : RangeOrder Candidate) :
    Lives (.single (.other (.purge before limit order)) : Op Unit) := by
  intro g s _ s' hlater hI hallowed r s'' hstep
  obtain ⟨hI', hlater', -⟩ := keeps_purge before limit order g s trivial s' hlater hI hallowed r s'' hstep
  refine ⟨hI', ⟨hlater', ?_⟩, trivial⟩
  have hexec : s'.exec (.purge before limit order) = (r, s'') := hstep
  have hchanges := changes_purge s' before limit order
  rwa [hexec] at hchanges

theorem lives_uninterrupted {p : Op Unit} (h : Uninterrupted p) : Lives p := by
  cases h with
  | purge before limit order => exact lives_purge before limit order
  | operation op =>
      cases op with
      | restartPipelineSubgraph env request hkeys =>
          exact (lives_restartPipelineSubgraph env request hkeys).discard
      | _ => exact lives_of_blocks (keeps_program (fun _ _ h => h) _) (blocks_program trivial)

/-! ## Whole runs -/

/-- Every record satisfies its invariant and has a history that replays to it. -/
structure Lived (s : Server) : Prop where
  records : ∀ id item, s.keys.executions.records.lookup id = some item →
    Memory.RecordInvariant item ∧ Memory.Replays (s.keys.history id) item
  histories : ∀ id, s.keys.history id ≠ [] → id ∈ s.used

theorem Lived.empty : Lived Server.empty := by
  constructor <;> simp [Server.empty, Keyspace.empty, Keyspace.history, Indexed.empty]

/-- The steps of a run keep histories and records consistent. -/
theorem Lived.after {s s' : Server} (h : Lived s) (hI' : Invariant s') (hlater : Later s s')
    (hchanges : Changes s s') : Lived s' := by
  constructor
  · intro id item hl
    cases hchanges id with
    | same hsame hh =>
        rw [hh]
        exact h.records id item (hsame ▸ hl)
    | created env request hnew hcreated hh =>
        have hempty : s.keys.history id = [] := by
          by_contra hne
          exact hnew (h.histories id hne)
        rw [hh, hempty]
        cases hcreated.symm.trans hl
        exact ⟨Memory.created_recordInvariant env request, Memory.created_replays env request⟩
    | moved hold hmoved hh hmoves =>
        rw [hh]
        cases hmoved.symm.trans hl
        obtain ⟨hrecord, hreplays⟩ := h.records id _ hold
        exact ⟨hmoves.recordInvariant hrecord, hmoves.replays hreplays⟩
    | deleted hgone _ => cases hgone.symm.trans hl
  · intro id hne
    cases hchanges id with
    | same _ hh =>
        rw [hh] at hne
        exact hlater.used id (h.histories id hne)
    | created _ _ _ hcreated _ => exact hI'.known.executions id _ hcreated
    | moved _ hmoved _ _ => exact hI'.known.executions id _ hmoved
    | deleted _ hempty => exact absurd hempty hne

/-- In every interleaving of the operations each record satisfies its invariant, and its event list
replays to it. -/
theorem redis_lifecycle {s : Server}
    {threads : List (Thread Unit (TxCall Watch Image Command Query) (TxReply QueryReply) Unit)}
    (run : Reach (backend.system FreshIDs) Server.Initial Uninterrupted s threads) (id : UUID)
    (item : Execution) (hl : s.keys.executions.records.lookup id = some item) :
    Memory.RecordInvariant item ∧ Memory.Replays (s.keys.history id) item := by
  have hlived : Lived s := by
    refine run.guaranteed Later.refl (fun _ _ _ ha _ _ h h' => h.trans ha.known h')
      (fun _ _ h => h.1) ?_ (fun p hp => (lives_uninterrupted hp).of fun _ _ _ => trivial) ?_
    · rintro s rfl
      exact ⟨Invariant.empty, Lived.empty⟩
    · exact fun s s' _ hI' hchange hlived => hlived.after hI' hchange.1 hchange.2
  exact hlived.records id item hl

/-- The execution that the first worker of a race holds. -/
def claimedInRace : Execution :=
  Memory.claimed (Env.at 6 1) "a" 10 17 (newExecution (Env.at 5 0) standaloneRequest)

/-- The first worker holds the execution. -/
def wonRace (s : Server) : Bool := s.keys.executions.records.lookup 1 == some claimedInRace

theorem redis_lifecycle_of_claimRace : ∃ s threads,
    Reach (backend.system FreshIDs) Server.Initial Uninterrupted s threads ∧
      Memory.Replays (s.keys.history 1) claimedInRace := by
  have hmoves : ∀ m ∈ claimRace, m.Spawns Uninterrupted := by
    intro m hm
    simp only [claimRace, List.mem_cons, List.not_mem_nil, or_false] at hm
    rcases hm with rfl | rfl | rfl | rfl | rfl | rfl | rfl | rfl | rfl | rfl <;>
      first | exact trivial | exact Uninterrupted.operation _
  have hends : (freshExecution.drive claimRace Server.empty []).any
      (fun final => wonRace final.1) = true := by decide
  have hinitial : Server.Initial Server.empty := rfl
  obtain ⟨s, threads, run, htest⟩ := freshExecution.drive_reaches hmoves hinitial hends
  exact ⟨s, threads, run, (redis_lifecycle run 1 claimedInRace (beq_iff_eq.mp htest)).2⟩

end Ody.Redis
