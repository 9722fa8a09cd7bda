import Ody.Redis.Representation

/-!
# Interference between clients of the Redis store

Whatever the other clients do between two steps of an operation, an identifier
that was written stays known, a record that is gone stays gone, and a record that
is still there has kept its identity. Under this interference every operation
keeps the representation invariant: a block that takes effect rewrites records
that are what the operation has read.
-/

namespace Ody.Redis

open Library.Tables Library.DerivedIndexes Library.Interleaving Library.Optimistic
open Memory (Env)

/-! ## Records and identifiers -/

/-- Records are stored only under identifiers that were written. -/
structure Known (s : Server) : Prop where
  executions : ∀ id item, s.keys.executions.records.lookup id = some item → id ∈ s.used
  runs : ∀ id run, s.keys.runs.records.lookup id = some run → id ∈ s.used

theorem Known.no_execution {s : Server} (h : Known s) {id : UUID} (hnew : id ∉ s.used) :
    s.keys.executions.records.lookup id = none :=
  Option.eq_none_iff_forall_not_mem.mpr fun item hl => hnew (h.executions id item hl)

theorem Known.no_run {s : Server} (h : Known s) {id : UUID} (hnew : id ∉ s.used) :
    s.keys.runs.records.lookup id = none :=
  Option.eq_none_iff_forall_not_mem.mpr fun run hl => hnew (h.runs id run hl)

/-- The fields of a run that no operation changes. -/
structure SameRunIdentity (run run' : PipelineRun) : Prop where
  id : run'.id = run.id
  pipelineName : run'.pipelineName = run.pipelineName
  idempotencyKey : run'.idempotencyKey = run.idempotencyKey
  createdAt : run'.createdAt = run.createdAt

theorem SameRunIdentity.refl (run : PipelineRun) : SameRunIdentity run run := ⟨rfl, rfl, rfl, rfl⟩

theorem SameRunIdentity.trans {run run' run'' : PipelineRun} (h : SameRunIdentity run run')
    (h' : SameRunIdentity run' run'') : SameRunIdentity run run'' :=
  ⟨h'.id.trans h.id, h'.pipelineName.trans h.pipelineName,
    h'.idempotencyKey.trans h.idempotencyKey, h'.createdAt.trans h.createdAt⟩

/-- A written identifier without a record stays without one, and what is still stored has kept its
identity. -/
structure Lasting {V : Type} (Same : V → V → Prop) (used : List UUID) (t t' : Table UUID V) :
    Prop where
  gone : ∀ id ∈ used, t.lookup id = none → t'.lookup id = none
  same : ∀ id v v', t.lookup id = some v → t'.lookup id = some v' → Same v v'

section Lasting

variable {V : Type} {Same : V → V → Prop} {used : List UUID} {t t' t'' : Table UUID V}

/-- A record may be written where no record ever was, or over one with the same identity. -/
def Writable (Same : V → V → Prop) (used : List UUID) (t : Table UUID V) (id : UUID) (v' : V) :
    Prop :=
  id ∉ used ∨ ∃ v, t.lookup id = some v ∧ Same v v'

theorem Lasting.refl (hrefl : ∀ v, Same v v) : Lasting Same used t t where
  gone := fun _ _ h => h
  same := by
    intro id v v' hl hl'
    cases hl.symm.trans hl'
    exact hrefl v

theorem Lasting.trans {used' : List UUID} (htrans : ∀ a b c, Same a b → Same b c → Same a c)
    (hknown : ∀ id v, t.lookup id = some v → id ∈ used) (hused : ∀ id ∈ used, id ∈ used')
    (h : Lasting Same used t t') (h' : Lasting Same used' t' t'') : Lasting Same used t t'' where
  gone := fun id hid hl => h'.gone id (hused id hid) (h.gone id hid hl)
  same := by
    intro id v v'' hl hl''
    cases hl' : t'.lookup id with
    | none =>
        have hgone := h'.gone id (hused id (hknown id v hl)) hl'
        cases hgone.symm.trans hl''
    | some v' => exact htrans v v' v'' (h.same id v v' hl hl') (h'.same id v' v'' hl' hl'')

theorem Lasting.insert (hrefl : ∀ v, Same v v) (hknown : ∀ id v, t.lookup id = some v → id ∈ used)
    {id : UUID} {v' : V} (hwrite : Writable Same used t id v') :
    Lasting Same used t (t.insert id v') := by
  constructor
  · intro id' hused hnone
    rw [lookup_insert_ite]
    split
    · next heq =>
      subst heq
      rcases hwrite with hnew | ⟨v, hl, -⟩
      · exact absurd hused hnew
      · cases hnone.symm.trans hl
    · exact hnone
  · intro id' old new hl hl'
    rw [lookup_insert_ite] at hl'
    split at hl'
    · next heq =>
      subst heq
      cases hl'
      rcases hwrite with hnew | ⟨v, hv, hsame⟩
      · exact absurd (hknown id' old hl) hnew
      · cases hl.symm.trans hv
        exact hsame
    · cases hl.symm.trans hl'
      exact hrefl old

theorem Lasting.erase (hrefl : ∀ v, Same v v) (id : UUID) : Lasting Same used t (t.erase id) := by
  constructor
  · intro id' _ hnone
    rw [lookup_erase_ite, hnone, ite_self]
  · intro id' old new hl hl'
    rw [lookup_erase_ite] at hl'
    split at hl'
    · cases hl'
    · cases hl.symm.trans hl'
      exact hrefl old

end Lasting

/-- What happens to executions and runs while clients take steps. -/
structure Later (s s' : Server) : Prop where
  used : ∀ id ∈ s.used, id ∈ s'.used
  executions : Lasting SameIdentity s.used s.keys.executions.records s'.keys.executions.records
  runs : Lasting SameRunIdentity s.used s.keys.runs.records s'.keys.runs.records

section Later

variable {s s' s'' : Server}

theorem Later.gone (h : Later s s') : ∀ id ∈ s.used, s.keys.executions.records.lookup id = none →
    s'.keys.executions.records.lookup id = none := h.executions.gone

theorem Later.same (h : Later s s') : ∀ id item item',
    s.keys.executions.records.lookup id = some item →
    s'.keys.executions.records.lookup id = some item' → SameIdentity item item' :=
  h.executions.same

theorem Later.refl (s : Server) : Later s s :=
  ⟨fun _ h => h, Lasting.refl SameIdentity.refl, Lasting.refl SameRunIdentity.refl⟩

theorem Later.trans (hknown : Known s) (h : Later s s') (h' : Later s' s'') : Later s s'' where
  used := fun id hid => h'.used id (h.used id hid)
  executions := h.executions.trans (fun _ _ _ => SameIdentity.trans) hknown.executions h.used
    h'.executions
  runs := h.runs.trans (fun _ _ _ => SameRunIdentity.trans) hknown.runs h.used h'.runs

end Later

theorem keys_applyAll (s : Server) (commands : List Command) :
    (s.applyAll commands).keys = s.keys.applyAll commands := by
  induction commands generalizing s with
  | nil => rfl
  | cons c rest ih => exact ih (s.apply c)

theorem applyAll_append (s : Server) (a b : List Command) :
    s.applyAll (a ++ b) = (s.applyAll a).applyAll b := List.foldl_append

theorem used_apply (s : Server) (c : Command) : ∀ id ∈ s.used, id ∈ (s.apply c).used := by
  intro id hid
  simp [Server.apply, hid]

/-- Every command keeps records under written identifiers. -/
theorem Known.apply {s : Server} (h : Known s) (c : Command) : Known (s.apply c) := by
  cases c with
  | set id item =>
      constructor
      · intro id' item' hl
        have hinsert : (s.keys.executions.records.insert id item).lookup id' = some item' := hl
        rw [lookup_insert_ite] at hinsert
        split at hinsert
        · next heq => simp [Server.apply, Command.executionID, heq]
        · exact used_apply s _ id' (h.executions id' item' hinsert)
      · exact fun id' run hl => used_apply s _ id' (h.runs id' run hl)
  | hSet id run =>
      constructor
      · exact fun id' item hl => used_apply s _ id' (h.executions id' item hl)
      · intro id' run' hl
        have hinsert : (s.keys.runs.records.insert id run).lookup id' = some run' := hl
        rw [lookup_insert_ite] at hinsert
        split at hinsert
        · next heq => simp [Server.apply, Command.runID, heq]
        · exact used_apply s _ id' (h.runs id' run' hinsert)
  | del id =>
      constructor
      · intro id' item' hl
        have herase : (s.keys.executions.records.erase id).lookup id' = some item' := hl
        rw [lookup_erase_ite] at herase
        split at herase
        · cases herase
        · exact used_apply s _ id' (h.executions id' item' herase)
      · exact fun id' run hl => used_apply s _ id' (h.runs id' run hl)
  | delRun id =>
      constructor
      · exact fun id' item hl => used_apply s _ id' (h.executions id' item hl)
      · intro id' run' hl
        have herase : (s.keys.runs.records.erase id).lookup id' = some run' := hl
        rw [lookup_erase_ite] at herase
        split at herase
        · cases herase
        · exact used_apply s _ id' (h.runs id' run' herase)
  | zAdd key value member =>
      cases key <;> exact ⟨fun id item hl => used_apply s _ id (h.executions id item hl),
        fun id run hl => used_apply s _ id (h.runs id run hl)⟩
  | zRem key member =>
      cases key <;> exact ⟨fun id item hl => used_apply s _ id (h.executions id item hl),
        fun id run hl => used_apply s _ id (h.runs id run hl)⟩
  | _ =>
      exact ⟨fun id item hl => used_apply s _ id (h.executions id item hl),
        fun id run hl => used_apply s _ id (h.runs id run hl)⟩

theorem Known.applyAll {s : Server} (h : Known s) (commands : List Command) :
    Known (s.applyAll commands) := by
  induction commands generalizing s with
  | nil => exact h
  | cons c rest ih => exact ih (h.apply c)

theorem Later.set {s : Server} (h : Known s) {id : UUID} {item' : Execution}
    (hwrite : Writable SameIdentity s.used s.keys.executions.records id item') :
    Later s (s.apply (.set id item')) :=
  ⟨used_apply s _, Lasting.insert SameIdentity.refl h.executions hwrite,
    Lasting.refl SameRunIdentity.refl⟩

theorem Later.hSet {s : Server} (h : Known s) {id : UUID} {run' : PipelineRun}
    (hwrite : Writable SameRunIdentity s.used s.keys.runs.records id run') :
    Later s (s.apply (.hSet id run')) :=
  ⟨used_apply s _, Lasting.refl SameIdentity.refl,
    Lasting.insert SameRunIdentity.refl h.runs hwrite⟩

/-- The command writes no record. -/
def Command.WritesNone (c : Command) : Prop := c.executionID = none ∧ c.runID = none

theorem Later.other {s : Server} {c : Command} (hc : c.WritesNone) : Later s (s.apply c) := by
  have hrefl := Later.refl s
  cases c with
  | set id item => cases hc.1
  | hSet id run => cases hc.2
  | del id => exact ⟨used_apply s _, Lasting.erase SameIdentity.refl id, hrefl.runs⟩
  | delRun id => exact ⟨used_apply s _, hrefl.executions, Lasting.erase SameRunIdentity.refl id⟩
  | zAdd key value member => cases key <;> exact ⟨used_apply s _, hrefl.executions, hrefl.runs⟩
  | zRem key member => cases key <;> exact ⟨used_apply s _, hrefl.executions, hrefl.runs⟩
  | _ => exact ⟨used_apply s _, hrefl.executions, hrefl.runs⟩

theorem Later.others {s : Server} (h : Known s) {commands : List Command}
    (hcommands : ∀ c ∈ commands, c.WritesNone) : Later s (s.applyAll commands) := by
  induction commands generalizing s with
  | nil => exact Later.refl s
  | cons c rest ih =>
      have hfirst : Later s (s.apply c) := Later.other (hcommands c (by simp))
      have hrest := ih (h.apply c) fun c' hc' => hcommands c' (List.mem_cons_of_mem c hc')
      exact hfirst.trans h hrest

/-- The execution whose record the command changes. -/
def Command.changedExecution : Command → Option UUID
  | .set id _ => some id
  | .del id => some id
  | _ => none

/-- The run whose record the command changes. -/
def Command.changedRun : Command → Option UUID
  | .hSet id _ => some id
  | .delRun id => some id
  | _ => none

/-- Other executions keep their records. -/
theorem lookup_applyAll {commands : List Command} {id : UUID}
    (h : ∀ c ∈ commands, c.changedExecution ≠ some id) (s : Keyspace) :
    (s.applyAll commands).executions.records.lookup id = s.executions.records.lookup id := by
  refine foldl_frame_of_mem Keyspace.apply (fun s => s.executions.records.lookup id) ?_ s
  intro c hmem s
  have hc := h c hmem
  cases c with
  | set id' item =>
      have hne : id ≠ id' := fun heq => hc (congrArg some heq.symm)
      exact AList.lookup_insert_ne hne
  | del id' =>
      have hne : id ≠ id' := fun heq => hc (congrArg some heq.symm)
      exact AList.lookup_erase_ne hne
  | zAdd key value member => cases key <;> rfl
  | zRem key member => cases key <;> rfl
  | _ => rfl

/-- Other runs keep their records. -/
theorem lookupRun_applyAll {commands : List Command} {id : UUID}
    (h : ∀ c ∈ commands, c.changedRun ≠ some id) (s : Keyspace) :
    (s.applyAll commands).runs.records.lookup id = s.runs.records.lookup id := by
  refine foldl_frame_of_mem Keyspace.apply (fun s => s.runs.records.lookup id) ?_ s
  intro c hmem s
  have hc := h c hmem
  cases c with
  | hSet id' run =>
      have hne : id ≠ id' := fun heq => hc (congrArg some heq.symm)
      exact AList.lookup_insert_ne hne
  | delRun id' =>
      have hne : id ≠ id' := fun heq => hc (congrArg some heq.symm)
      exact AList.lookup_erase_ne hne
  | zAdd key value member => cases key <;> rfl
  | zRem key member => cases key <;> rfl
  | _ => rfl

/-! ## Blocks -/

/-- The invariant of the server. -/
structure Invariant (s : Server) : Prop where
  represented : Represented s.keys
  known : Known s

/-- A block keeps the invariant and is interference that the other clients expect. -/
structure Kept (s : Server) (commands : List Command) : Prop where
  invariant : Invariant (s.applyAll commands)
  later : Later s (s.applyAll commands)

theorem Kept.append {s : Server} {a b : List Command} (h : Invariant s) (ha : Kept s a)
    (hb : Kept (s.applyAll a) b) : Kept s (a ++ b) := by
  constructor <;> rw [applyAll_append]
  · exact hb.invariant
  · exact ha.later.trans h.known hb.later

/-- A block that writes no record. -/
theorem Kept.others {s : Server} (h : Invariant s) {commands : List Command}
    (hcommands : ∀ c ∈ commands, c.WritesNone)
    (hrepresented : Represented (s.keys.applyAll commands)) : Kept s commands where
  invariant := ⟨keys_applyAll s commands ▸ hrepresented, h.known.applyAll commands⟩
  later := Later.others h.known hcommands

/-- A block that starts by writing one execution record. -/
theorem Kept.write {s : Server} (h : Invariant s) {commands : List Command} {id : UUID}
    {item' : Execution} (hhead : commands.head? = some (.set id item'))
    (htail : ∀ c ∈ commands.tail, c.WritesNone)
    (hwrite : Writable SameIdentity s.used s.keys.executions.records id item')
    (hrepresented : Represented (s.keys.applyAll commands)) : Kept s commands where
  invariant := ⟨keys_applyAll s commands ▸ hrepresented, h.known.applyAll commands⟩
  later := by
    obtain ⟨rest, rfl⟩ := List.head?_eq_some_iff.mp hhead
    have hset : Later s (s.apply (.set id item')) := Later.set h.known hwrite
    exact hset.trans h.known (Later.others (h.known.apply _) htail)

/-- A block that starts by writing one run record. -/
theorem Kept.writeRun {s : Server} (h : Invariant s) {commands : List Command} {id : UUID}
    {run' : PipelineRun} (hhead : commands.head? = some (.hSet id run'))
    (htail : ∀ c ∈ commands.tail, c.WritesNone)
    (hwrite : Writable SameRunIdentity s.used s.keys.runs.records id run')
    (hrepresented : Represented (s.keys.applyAll commands)) : Kept s commands where
  invariant := ⟨keys_applyAll s commands ▸ hrepresented, h.known.applyAll commands⟩
  later := by
    obtain ⟨rest, rfl⟩ := List.head?_eq_some_iff.mp hhead
    have hset : Later s (s.apply (.hSet id run')) := Later.hSet h.known hwrite
    exact hset.trans h.known (Later.others (h.known.apply _) htail)

section Blocks

variable {s : Server} {item : Execution}

theorem kept_create (h : Invariant s) (env : Env) (hpending : item.status = .pending)
    (hnew : item.id ∉ s.used)
    (hrefs : ∀ ref ∈ references item, s.keys.executions.refs.lookup ref = none) :
    Kept s (createCommands env item) := by
  have hmissing := h.known.no_execution hnew
  apply Kept.write h rfl _ (Or.inl hnew)
    (represented_create h.represented env hmissing hpending hrefs)
  unfold createCommands
  cases item.pipelineRunID <;>
    simp [Command.WritesNone, Command.executionID, Command.runID, or_imp, forall_and]

theorem kept_saveTransition (h : Invariant s)
    (hl : s.keys.executions.records.lookup item.id = some item) (env : Env) {item' : Execution}
    (hsame : SameIdentity item item') (eventType : EventType) (errorText : String)
    {keepInQueue : Bool} (hqueue : keepInQueue = item'.status.isActive) :
    Kept s (saveTransition env item' item.status eventType errorText keepInQueue) := by
  refine Kept.write h rfl ?_ (Or.inr ⟨item, hsame.id.symm ▸ hl, hsame⟩)
    (represented_saveTransition h.represented env hl hsame eventType errorText hqueue)
  unfold saveTransition
  split <;> split <;> try split
  all_goals simp [Command.WritesNone, Command.executionID, Command.runID]

theorem kept_removeLease (h : Invariant s) {id : UUID}
    (hstale : ∀ item, s.keys.executions.records.lookup id = some item → item.status = .running →
      item.attempt < item.maxAttempts) : Kept s (removeLeaseIndex id) := by
  apply Kept.others h _ (represented_removeLease h.represented id hstale)
  simp [removeLeaseIndex, Command.WritesNone, Command.executionID, Command.runID]

theorem kept_heartbeat (h : Invariant s)
    (hl : s.keys.executions.records.lookup item.id = some item) (hrunning : item.status = .running)
    (leaseUntil : Time) :
    Kept s (heartbeatCommands item.id { item with leaseUntil := leaseUntil }) := by
  have hsame : SameIdentity item { item with leaseUntil := leaseUntil } :=
    ⟨rfl, rfl, rfl, rfl, rfl, rfl⟩
  apply Kept.write h rfl _ (Or.inr ⟨item, hl, hsame⟩)
    (represented_heartbeat h.represented hl hsame hrunning hrunning)
  simp [heartbeatCommands, Command.WritesNone, Command.executionID, Command.runID]

theorem kept_restart (h : Invariant s)
    (hl : s.keys.executions.records.lookup item.id = some item)
    (hidle : item.status.isActive = false) (env : Env) (availableAt : Time) :
    Kept s (restartCommands env item.id (reset .pending availableAt item) item.status) := by
  have hsame : SameIdentity item (reset .pending availableAt item) := ⟨rfl, rfl, rfl, rfl, rfl, rfl⟩
  apply Kept.write h rfl _ (Or.inr ⟨item, hl, hsame⟩)
    (represented_restart h.represented env hl hsame hidle rfl)
  simp [restartCommands, Command.WritesNone, Command.executionID, Command.runID]

theorem kept_release (h : Invariant s)
    (hl : s.keys.executions.records.lookup item.id = some item) {item' : Execution}
    (hsame : SameIdentity item item') (hblocked : item.status = .blocked)
    (hpending : item'.status = .pending) : Kept s (releaseCommands item.id item') := by
  apply Kept.write h rfl _ (Or.inr ⟨item, hl, hsame⟩)
    (represented_release h.represented hl hsame hblocked hpending)
  simp [releaseCommands, Command.WritesNone, Command.executionID, Command.runID]

theorem kept_subgraphCommands (h : Invariant s)
    (hl : s.keys.executions.records.lookup item.id = some item) (env : Env)
    (request : RestartSubgraph) : Kept s (subgraphCommands env request item) := by
  have hsame : SameIdentity item (subgraphItem env request item) := ⟨rfl, rfl, rfl, rfl, rfl, rfl⟩
  apply Kept.write h rfl _ (Or.inr ⟨item, hl, hsame⟩)
    (represented_subgraph h.represented env request hl)
  unfold subgraphCommands
  dsimp only
  split <;> split <;> simp [Command.WritesNone, Command.executionID, Command.runID]

theorem changed_subgraphCommands (env : Env) (request : RestartSubgraph) (item : Execution) :
    ∀ c ∈ subgraphCommands env request item,
      (∀ id, id ≠ item.id → c.changedExecution ≠ some id) ∧ c.changedRun = none := by
  have hid : (subgraphItem env request item).id = item.id := rfl
  unfold subgraphCommands
  dsimp only
  split <;> split <;> simp [Command.changedExecution, Command.changedRun, hid, eq_comm]

/-- The commands for all executions of a restarted subgraph. -/
theorem kept_subgraph (h : Invariant s) (env : Env) (request : RestartSubgraph)
    {items : List Execution}
    (hstored : ∀ item ∈ items, s.keys.executions.records.lookup item.id = some item)
    (hdistinct : items.Pairwise fun a b => a.id ≠ b.id) :
    Kept s (items.flatMap (subgraphCommands env request)) := by
  induction items generalizing s with
  | nil => exact ⟨h, Later.refl s⟩
  | cons item rest ih =>
      obtain ⟨hother, hrest⟩ := List.pairwise_cons.mp hdistinct
      have hfirst := kept_subgraphCommands h (hstored item (by simp)) env request
      rw [List.flatMap_cons]
      apply hfirst.append h
      apply ih hfirst.invariant _ hrest
      intro item' hitem'
      rw [keys_applyAll, lookup_applyAll]
      · exact hstored item' (List.mem_cons_of_mem item hitem')
      · intro c hc
        exact (changed_subgraphCommands env request item c hc).1 item'.id (hother item' hitem').symm

variable {run : PipelineRun}

theorem kept_createRun (h : Invariant s) (hnew : run.id ∉ s.used)
    (hrefs : ∀ ref ∈ runReferences run, s.keys.runs.refs.lookup ref = none) :
    Kept s (createRunCommands run) := by
  have hmissing := h.known.no_run hnew
  apply Kept.writeRun h rfl _ (Or.inl hnew) (represented_createRun h.represented hmissing hrefs)
  simp [createRunCommands, Command.WritesNone, Command.executionID, Command.runID, or_imp,
    forall_and]

theorem kept_moveRun (h : Invariant s) (hl : s.keys.runs.records.lookup run.id = some run)
    {run' : PipelineRun} (hid : run'.id = run.id) (hname : run'.pipelineName = run.pipelineName)
    (hkey : run'.idempotencyKey = run.idempotencyKey) (hcreated : run'.createdAt = run.createdAt) :
    Kept s (moveRun run.id run' run.status) := by
  apply Kept.writeRun h rfl _ (Or.inr ⟨run, hl, hid, hname, hkey, hcreated⟩)
    (represented_moveRun h.represented hl hid hname hkey hcreated)
  unfold moveRun
  split <;> simp [Command.WritesNone, Command.executionID, Command.runID]

/-- The queue entry of a missing record is already gone. -/
theorem kept_removeMissing (h : Invariant s) {id : UUID}
    (hmissing : s.keys.executions.records.lookup id = none) (name : String) :
    Kept s [.zRem (queueKey name) id] := by
  apply Kept.others h
  · simp [Command.WritesNone, Command.executionID, Command.runID]
  · have hentry : ∀ i id', (s.keys.executions.apply (.remove (.queue name) id)).entry i id' =
        s.keys.executions.entry i id' := by
      intro i id'
      rw [Indexed.entry_apply]
      dsimp only
      split
      · next heq =>
        rw [h.represented.executions.index, heq.2, hmissing]
        rfl
      · rfl
    have hderived := h.represented.executions
    exact ⟨⟨hderived.keyed, fun i id' => (hentry i id').trans (hderived.index i id'),
      hderived.counts, hderived.refs⟩, h.represented.runs, h.represented.leases⟩

end Blocks

end Ody.Redis
