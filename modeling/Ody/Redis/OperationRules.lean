import Ody.Redis.Interference

/-!
# The operations of the Redis store keep its invariant

One rule for a transaction, one for a transaction on a single execution, and from
them one lemma for each operation: under the interference of other clients it keeps
the invariant of the server and is itself such interference.
-/

namespace Ody.Redis

open Library.Tables Library.DerivedIndexes Library.Interleaving Library.Optimistic
open Memory (Env)

/-- New records get identifiers that were never written. A block writes either a record that its
transaction has watched, or one under a value of `uuid.New`. -/
def FreshIDs (s : Server) : TxCall Watch Image Command Query → Prop
  | .commit w _ commands => ∀ c ∈ commands,
      (∀ id ∈ c.executionID, id ∈ w.executions ∨ id ∉ s.used) ∧
      (∀ id ∈ c.runID, id ∈ w.runs ∨ id ∉ s.used)
  | _ => True

variable {α : Type} {allowed : Server → TxCall Watch Image Command Query → Prop}

variable (allowed) in
/-- An operation started where `P` holds keeps the invariant under interference. -/
abbrev Rule (P : Server → Prop) (p : Op α) (Q : α → Server → Prop) : Prop :=
  Triple (backend.system allowed) Invariant Later Later (fun _ s => P s) p fun a _ s => Q a s

variable (allowed) in
/-- An operation keeps the invariant wherever it starts. -/
abbrev Keeps (p : Op α) : Prop := Rule allowed (fun _ => True) p fun _ _ => True

/-! ## Rules -/

/-- A call that does not change the server. -/
theorem callRule_read {P : Server → Prop} {c : Query} {Q : QueryReply c → Server → Prop}
    (hread : ∀ s : Server, (s.exec c).2 = s)
    (h : ∀ s s', P s → Later s s' → Invariant s' → Q (s'.exec c).1 s') :
    CallTriple (backend.system allowed) Invariant Later Later (fun _ s => P s) (.other c)
      fun r _ s => Q r s := by
  apply callTriple_other
  intro s s' hP hlater hI _
  have hsame : (backend.exec s' c).2 = s' := hread s'
  rw [hsame]
  exact ⟨hI, Later.refl s', h s s' hP hlater hI⟩

/-- A transaction keeps the invariant if each block does that it sends. -/
theorem rule_watchFrom {P : Server → Prop} (hfresh : ∀ s c, allowed s c → FreshIDs s c)
    (hstable : ∀ s s', P s → Later s s' → P s') {w : Watch} {read : Image → Op Image}
    (hread : ∀ seen, Rule allowed P (read seen) fun _ => P)
    {operation : Option α → Nat → Image → Except TxError (α × List Command)}
    (h : ∀ lost n s a commands, Invariant s → P s →
      operation lost n (s.keys.view w) = .ok (a, commands) →
      FreshIDs s (.commit w (s.keys.view w) commands) → Kept s commands) :
    Rule allowed P (watchFrom w read operation) fun _ _ => True := by
  have hattempt : Rule allowed P (watchFrom w read operation)
      fun result _ => ∀ a, result = .ok a → True := by
    apply triple_attempt
    · exact fun s _ => Later.refl s
    · exact fun s s' hP hlater _ => hstable s s' hP hlater
    · exact hread
    · intro lost n s a commands hI hP hbody hallowed
      have hkept := h lost n s a commands hI hP hbody (hfresh s _ hallowed)
      exact ⟨hkept.invariant, hkept.later, trivial⟩
  exact Triple.weaken hattempt fun _ _ _ _ => trivial

theorem rule_watch {P : Server → Prop} (hfresh : ∀ s c, allowed s c → FreshIDs s c)
    (hstable : ∀ s s', P s → Later s s' → P s') {w : Watch}
    {operation : Nat → Image → Except TxError (α × List Command)}
    (h : ∀ n s a commands, Invariant s → P s → operation n (s.keys.view w) = .ok (a, commands) →
      FreshIDs s (.commit w (s.keys.view w) commands) → Kept s commands) :
    Rule allowed P (watch w operation) fun _ _ => True :=
  rule_watchFrom hfresh hstable (fun _ => Triple.done fun _ _ hP => hP) fun _ => h

/-- A transaction on one execution. -/
theorem keeps_watchExecutionFrom (hfresh : ∀ s c, allowed s c → FreshIDs s c) {id : UUID}
    {missing : Option α → Except TxError (α × List Command)}
    {operation : Option α → Nat → Execution → Except TxError (α × List Command)}
    (hmissing : ∀ lost s a commands, Invariant s → s.keys.executions.records.lookup id = none →
      missing lost = .ok (a, commands) → Kept s commands)
    (hoperation : ∀ lost n s item a commands, Invariant s →
      s.keys.executions.records.lookup item.id = some item → item.id = id →
      operation lost n item = .ok (a, commands) → Kept s commands) :
    Keeps allowed (watchExecutionFrom id missing operation) := by
  apply rule_watchFrom hfresh (fun _ _ h _ => h) fun _ => Triple.done fun _ _ hP => hP
  intro lost n s a commands hI _ hbody _
  have hview : (s.keys.view ⟨[id], [], [], []⟩).executions =
      [s.keys.executions.records.lookup id] := rfl
  rw [hview] at hbody
  cases hl : s.keys.executions.records.lookup id with
  | none =>
      rw [hl] at hbody
      exact hmissing lost s a commands hI hl hbody
  | some item =>
      rw [hl] at hbody
      have hid : item.id = id := hI.represented.executions.keyed id item hl
      exact hoperation lost n s item a commands hI (hid.symm ▸ hl) hid hbody

theorem keeps_watchExecution (hfresh : ∀ s c, allowed s c → FreshIDs s c) {id : UUID}
    {missing : Except TxError (α × List Command)}
    {operation : Nat → Execution → Except TxError (α × List Command)}
    (hmissing : ∀ s a commands, Invariant s → s.keys.executions.records.lookup id = none →
      missing = .ok (a, commands) → Kept s commands)
    (hoperation : ∀ n s item a commands, Invariant s →
      s.keys.executions.records.lookup item.id = some item → item.id = id →
      operation n item = .ok (a, commands) → Kept s commands) :
    Keeps allowed (watchExecution id missing operation) :=
  keeps_watchExecutionFrom hfresh (fun _ => hmissing) fun _ => hoperation

theorem keeps_done (a : α) : Keeps allowed (.done a : Op α) := Triple.done fun _ _ _ => trivial

theorem rule_returned {P : Server → Prop} {p : Op (Except TxError α)}
    (h : Rule allowed P p fun _ _ => True) : Rule allowed P (returned p) fun _ _ => True :=
  h.bind fun _ => keeps_done _

/-- A read whose reply is only looked at. -/
theorem keeps_read {c : Query} (hread : ∀ s : Server, (s.exec c).2 = s)
    {next : QueryReply c → Op α} (hnext : ∀ r, Keeps allowed (next r)) :
    Keeps allowed (.call (.other c) next) := by
  have hcall : CallTriple (backend.system allowed) Invariant Later Later (fun _ _ => True) (.other c)
      fun _ _ _ => True := callRule_read hread fun _ _ _ _ _ => trivial
  exact Triple.call hcall hnext

theorem keeps_getExecution (id : UUID) : Keeps allowed (getExecution id) :=
  keeps_read (fun _ => rfl) fun _ => keeps_done _

theorem keeps_getPipelineRun (id : UUID) : Keeps allowed (getPipelineRun id) :=
  keeps_read (fun _ => rfl) fun _ => keeps_done _

theorem keeps_getRefs (refs : List RefKey) (values : List (Option UUID)) :
    Keeps allowed (getRefs refs values) := by
  induction refs generalizing values with
  | nil => exact keeps_done _
  | cons key rest ih =>
      refine keeps_read (fun _ => rfl) fun value => ?_
      cases value with
      | none => exact ih _
      | some existing => exact keeps_done _

/-! ## Reads before transactions -/

/-- The records of identifiers that were written are read, and entries without one removed. -/
theorem rule_loadRecords (name : String) (ids : List UUID) (candidates : Table UUID Execution) :
    Rule allowed (fun s => ∀ id ∈ ids, id ∈ s.used) (loadRecords name ids candidates)
      fun _ _ => True := by
  induction ids generalizing candidates with
  | nil => exact Triple.done fun _ _ _ => trivial
  | cons id rest ih =>
      have hget : CallTriple (backend.system allowed) Invariant Later Later
          (fun _ s => ∀ id' ∈ id :: rest, id' ∈ s.used) (.other (.getExecution id))
          fun stored _ s => (∀ id' ∈ id :: rest, id' ∈ s.used) ∧
            s.keys.executions.records.lookup id = stored := by
        apply callRule_read fun _ => rfl
        intro s s' hP hlater _
        exact ⟨fun id' hid' => hlater.used id' (hP id' hid'), rfl⟩
      refine Triple.call hget fun stored => ?_
      cases stored with
      | some item => exact (ih _).of fun _ s h id' hid' => h.1 id' (List.mem_cons_of_mem id hid')
      | none =>
          -- a record that is missing stays missing, so its entry has left the queue
          have hremove : CallTriple (backend.system allowed) Invariant Later Later
              (fun _ s => (∀ id' ∈ id :: rest, id' ∈ s.used) ∧
                s.keys.executions.records.lookup id = none) (.other (.zRem (queueKey name) id))
              fun _ _ s => ∀ id' ∈ rest, id' ∈ s.used := by
            apply callTriple_other
            rintro s s' ⟨hused, hmissing⟩ hlater hI -
            have hgone := hlater.gone id (hused id (by simp)) hmissing
            have hkept : Kept s' [.zRem (queueKey name) id] := kept_removeMissing hI hgone name
            refine ⟨hkept.invariant, hkept.later, ?_⟩
            intro id' hid'
            exact hkept.later.used id' (hlater.used id' (hused id' (List.mem_cons_of_mem id hid')))
          exact Triple.call hremove fun _ => ih candidates

theorem keeps_loadQueues (limit : Int) (now : Time) (names : List String)
    (candidates : Table UUID Execution) : Keeps allowed (loadQueues limit now names candidates) := by
  induction names generalizing candidates with
  | nil => exact keeps_done _
  | cons name rest ih =>
      have hrange : CallTriple (backend.system allowed) Invariant Later Later (fun _ _ => True)
          (.other (.zRangeByScore (queueKey name) (score now) (some (max (limit * 8) 128).toNat)))
          fun ids _ s => ∀ id ∈ ids, id ∈ s.used := by
        apply callRule_read fun _ => rfl
        intro s s' _ _ hI id hid
        have hdue : id ∈ s'.keys.zRangeByScore (queueKey name) (score now) none :=
          zRangeByScore_subset s'.keys _ _ (some (max (limit * 8) 128).toNat) hid
        obtain ⟨value, hentry, -⟩ := mem_zRangeByScore.mp hdue
        obtain ⟨item, hl, -⟩ := hI.represented.executions.mem_index hentry
        exact hI.known.executions id item hl
      refine Triple.call hrange fun ids => ?_
      exact (rule_loadRecords name ids candidates).bind fun _ => ih _

section Discovery

variable {ok : TxCall Watch Image Command Query → Prop} (hquery : ∀ c, ok (.other c))

include hquery

theorem issues_loadRecords (name : String) (ids : List UUID) (candidates : Table UUID Execution) :
    (loadRecords name ids candidates).Issues ok := by
  induction ids generalizing candidates with
  | nil => trivial
  | cons id rest ih =>
      refine ⟨hquery _, fun stored => ?_⟩
      cases stored with
      | none => exact ⟨hquery _, fun _ => ih candidates⟩
      | some item => exact ih _

/-- The discovery of candidates only issues queries. -/
theorem issues_loadDueCandidates (env : Env) (names : List String) (limit : Int) :
    (loadDueCandidates env names limit).Issues ok := by
  have hqueues : ∀ candidates, (loadQueues limit env.now names candidates).Issues ok := by
    induction names with
    | nil => exact fun _ => trivial
    | cons name rest ih =>
        exact fun candidates =>
          ⟨hquery _, fun ids => (issues_loadRecords hquery name ids candidates).bind ih⟩
  exact (hqueues ∅).bind fun _ => trivial

end Discovery

/-- The execution that a node key led to: if its record is still there, it is that node. -/
structure Leads (s : Server) (key : String) (id : UUID) : Prop where
  used : id ∈ s.used
  node : ∀ item, s.keys.executions.records.lookup id = some item → item.nodeKey = key

theorem leads_of_ref {s : Server} (h : Invariant s) {runID : UUID} {key : String} {id : UUID}
    (href : s.keys.executions.refs.lookup (nodeKey runID key) = some id) : Leads s key id := by
  obtain ⟨item, hl, hmem⟩ := (h.represented.executions.refs (nodeKey runID key) id).mp href
  refine ⟨h.known.executions id item hl, ?_⟩
  intro stored hstored
  cases hl.symm.trans hstored
  exact (mem_references_node.mp hmem).2.1

/-- A node key that led to an execution leads to no other node later. -/
theorem Leads.later {s s' : Server} {key : String} {id : UUID} (h : Leads s key id)
    (hlater : Later s s') : Leads s' key id := by
  refine ⟨hlater.used id h.used, ?_⟩
  intro item' hl'
  cases hl : s.keys.executions.records.lookup id with
  | none => cases (hlater.gone id h.used hl).symm.trans hl'
  | some item => exact (hlater.same id item item' hl hl').nodeKey.trans (h.node item hl)

/-- The executions that the node keys lead to, and a condition that interference keeps. -/
theorem rule_lookupNodes (runID : UUID) (keys : List String) {F : Server → Prop}
    (hF : ∀ s s', F s → Later s s' → F s') :
    Rule allowed F (lookupNodes runID keys) fun ids s =>
      F s ∧ ∃ keys' : List String, keys'.Sublist keys ∧ List.Forall₂ (Leads s) keys' ids := by
  induction keys generalizing F with
  | nil => exact Triple.done fun _ s hs => ⟨hs, [], List.Sublist.refl [], .nil⟩
  | cons key rest ih =>
      have hget : CallTriple (backend.system allowed) Invariant Later Later (fun _ s => F s)
          (.other (.getRef (nodeKey runID key)))
          fun ref _ s => F s ∧ ∀ id ∈ ref, Leads s key id := by
        apply callRule_read fun _ => rfl
        intro s s' hs hlater hI
        refine ⟨hF s s' hs hlater, ?_⟩
        intro id hid
        exact leads_of_ref hI hid
      refine Triple.call hget fun ref => ?_
      have hstable : ∀ s s' : Server, (F s ∧ ∀ id ∈ ref, Leads s key id) → Later s s' →
          F s' ∧ ∀ id ∈ ref, Leads s' key id :=
        fun s s' h hlater => ⟨hF s s' h.1 hlater, fun id hid => (h.2 id hid).later hlater⟩
      refine (ih hstable).bind fun ids => Triple.done ?_
      rintro _ s ⟨⟨hs, href⟩, keys', hsub, hleads⟩
      refine ⟨hs, ?_⟩
      cases ref with
      | none => exact ⟨keys', hsub.cons key, hleads⟩
      | some id => exact ⟨key :: keys', hsub.cons_cons key, .cons (href id rfl) hleads⟩

theorem loadItems_ok {stored : List (Option Execution)} {items : List Execution}
    (h : loadItems stored = .ok items) :
    stored = items.map some ∧ ∀ item ∈ items, item.status.isActive = false := by
  induction stored generalizing items with
  | nil =>
      cases h
      simp
  | cons first rest ih =>
      cases first with
      | none => cases h
      | some item =>
          rw [loadItems] at h
          split at h
          · cases h
          · next hidle =>
            cases hrest : loadItems rest with
            | error err =>
                rw [hrest] at h
                cases h
            | ok tail =>
                rw [hrest] at h
                cases h
                obtain ⟨hstored, htail⟩ := ih hrest
                refine ⟨by simp [hstored], ?_⟩
                simpa [hidle] using htail

/-- Stored executions with distinct node keys are distinct. -/
theorem distinct_of_nodeKeys {s : Keyspace} {items : List Execution}
    (hstored : ∀ item ∈ items, s.executions.records.lookup item.id = some item)
    (hkeys : (items.map (·.nodeKey)).Nodup) : items.Pairwise fun a b => a.id ≠ b.id := by
  have hpairwise : items.Pairwise fun a b => a.nodeKey ≠ b.nodeKey := List.pairwise_map.mp hkeys
  apply hpairwise.imp_of_mem
  intro a b ha hb hne heq
  have hl := hstored a ha
  rw [heq, hstored b hb] at hl
  cases hl
  exact hne rfl

/-- Executions found by distinct node keys are distinct. -/
theorem distinct_of_leads {s : Server} (h : Invariant s) {keys : List String} {ids : List UUID}
    {items : List Execution} (hkeys : keys.Nodup) (hleads : List.Forall₂ (Leads s) keys ids)
    (hitems : ids.map s.keys.executions.records.lookup = items.map some) :
    (∀ item ∈ items, s.keys.executions.records.lookup item.id = some item) ∧
      items.Pairwise fun a b => a.id ≠ b.id := by
  have hnodes : items.map (·.nodeKey) = keys ∧
      ∀ item ∈ items, s.keys.executions.records.lookup item.id = some item := by
    clear hkeys
    induction hleads generalizing items with
    | nil =>
        obtain rfl : items = [] := by simpa using hitems.symm
        simp
    | @cons key id keys ids hlead _ ih =>
        cases items with
        | nil => cases hitems
        | cons item rest =>
            rw [List.map_cons, List.map_cons, List.cons.injEq] at hitems
            obtain ⟨hkeysRest, hstored⟩ := ih hitems.2
            have hid : item.id = id := h.represented.executions.keyed id item hitems.1
            have hl : s.keys.executions.records.lookup item.id = some item := hid.symm ▸ hitems.1
            refine ⟨by simp [hlead.node item hitems.1, hkeysRest], ?_⟩
            simpa [hl] using hstored
  exact ⟨hnodes.2, distinct_of_nodeKeys hnodes.2 (hnodes.1.symm ▸ hkeys)⟩

/-- The commands for the executions and the run of a restarted subgraph. -/
theorem kept_restartSubgraph {s : Server} (h : Invariant s) (env : Env) (request : RestartSubgraph)
    {items : List Execution} {run : PipelineRun}
    (hstored : ∀ item ∈ items, s.keys.executions.records.lookup item.id = some item)
    (hdistinct : items.Pairwise fun a b => a.id ≠ b.id)
    (hrun : s.keys.runs.records.lookup run.id = some run) :
    Kept s (items.flatMap (subgraphCommands env request) ++
      moveRun run.id (reopenedRun env run) run.status) := by
  have hnodes := kept_subgraph h env request hstored hdistinct
  have hstill : (s.applyAll (items.flatMap (subgraphCommands env request))).keys.runs.records.lookup
      run.id = some run := by
    rw [keys_applyAll, lookupRun_applyAll]
    · exact hrun
    · intro c hc
      obtain ⟨item, -, hmem⟩ := List.mem_flatMap.mp hc
      rw [(changed_subgraphCommands env request item c hmem).2]
      simp
  exact hnodes.append h (kept_moveRun hnodes.invariant hstill rfl rfl rfl rfl)

/-- The block of a restarted subgraph, in the state in which it takes effect. -/
theorem kept_restartTransaction {s : Server} (h : Invariant s) {env : Env}
    {request : RestartSubgraph} {keys : List String} {ids : List UUID} (hkeys : keys.Nodup)
    (hleads : List.Forall₂ (Leads s) keys ids) {root : Execution} {commands : List Command}
    (hbody : restartTransaction env request (s.keys.view ⟨ids, [request.runID], [], []⟩) =
      .ok (root, commands)) : Kept s commands := by
  have hview : (s.keys.view ⟨ids, [request.runID], [], []⟩).runs =
      [s.keys.runs.records.lookup request.runID] := rfl
  unfold restartTransaction at hbody
  rw [hview] at hbody
  cases hrun : s.keys.runs.records.lookup request.runID with
  | none =>
      rw [hrun] at hbody
      cases hbody
  | some run =>
      rw [hrun] at hbody
      dsimp only at hbody
      split at hbody
      · cases hbody
      · next items hload =>
        split at hbody
        · cases hbody
        · cases hbody
          obtain ⟨hitems, -⟩ := loadItems_ok hload
          obtain ⟨hstored, hdistinct⟩ := distinct_of_leads h hkeys hleads hitems
          have hid : run.id = request.runID := h.represented.runs.keyed _ run hrun
          exact kept_restartSubgraph h env request hstored hdistinct (hid.symm ▸ hrun)

/-! ## Operations on one execution -/

section Operations

variable (hfresh : ∀ s c, allowed s c → FreshIDs s c)
include hfresh

theorem keeps_createExecution (env : Env) (request : CreateExecution) :
    Keeps allowed (createExecution env request) := by
  unfold createExecution
  split
  · exact keeps_done _
  · refine Triple.bind (rule_watchFrom hfresh (fun _ _ h _ => h) (fun _ => keeps_getRefs _ _) ?_) ?_
    · intro lost n s a commands hI _ hbody hids
      split at hbody
      · cases hbody
      · next hfree =>
        cases hbody
        have hnew : (newExecution env request).id ∉ s.used := by
          have hid := (hids (.set (env.newUUID 0) (newExecution env request)) (.head _)).1 _ rfl
          exact hid.resolve_left List.not_mem_nil
        apply kept_create hI env rfl hnew
        intro ref href
        exact List.findSome?_eq_none_iff.mp hfree _ (List.mem_map_of_mem href)
    · intro result
      split
      · exact keeps_done _
      · exact keeps_getExecution _
      · exact keeps_done _

theorem keeps_claimCandidate (env : Env) (draw : Nat) (id : UUID) (owner : String)
    (accepted : List TaskKey) (lease : Duration) :
    Keeps allowed (claimCandidate env draw id owner accepted lease) := by
  refine Triple.bind (keeps_watchExecution hfresh ?_ ?_) fun _ => keeps_done _
  · exact fun _ _ _ _ _ hbody => nomatch hbody
  · intro n s item a commands hI hl _ hbody
    split at hbody
    · cases hbody
      refine kept_saveTransition hI hl env ?_ _ _ rfl
      exact ⟨rfl, rfl, rfl, rfl, rfl, rfl⟩
    · cases hbody

theorem keeps_reapCandidate (env : Env) (id : UUID) : Keeps allowed (reapCandidate env id) := by
  refine Triple.bind (keeps_watchExecutionFrom hfresh ?_ ?_) fun _ => keeps_done _
  · intro lost s a commands hI hl hbody
    cases hbody
    apply kept_removeLease hI
    intro item hitem
    cases hl.symm.trans hitem
  · intro lost n s item a commands hI hl hid hbody
    subst hid
    split at hbody
    · next hidle =>
      cases hbody
      apply kept_removeLease hI
      intro stored hstored hrunning
      cases hl.symm.trans hstored
      exact absurd hrunning hidle
    · split at hbody
      · cases hbody
      · split at hbody
        · next hleft =>
          cases hbody
          apply kept_removeLease hI
          intro stored hstored _
          cases hl.symm.trans hstored
          exact hleft
        · cases hbody
          refine kept_saveTransition hI hl env ?_ _ _ rfl
          exact ⟨rfl, rfl, rfl, rfl, rfl, rfl⟩

theorem keeps_heartbeat (env : Env) (id token : UUID) (lease : Duration) :
    Keeps allowed (heartbeat env id token lease) := by
  apply rule_returned
  apply keeps_watchExecution hfresh
  · exact fun _ _ _ _ _ hbody => nomatch hbody
  · intro n s item a commands hI hl hid hbody
    subst hid
    split at hbody
    · next howned =>
      cases hbody
      have hrunning : item.status = .running := by
        simp only [ownedBy, Bool.and_eq_true, beq_iff_eq] at howned
        exact howned.1.1
      exact kept_heartbeat hI hl hrunning _
    · cases hbody

/-- A mutation keeps the identity and says whether the execution stays in its queue. -/
theorem keeps_transition (env : Env) (id token : UUID) {mutate : Execution → Mutation}
    (hsame : ∀ item, SameIdentity item (mutate item).item)
    (hqueue : ∀ item, (mutate item).queued = (mutate item).item.status.isActive) :
    Keeps allowed (transition env id token mutate) := by
  apply rule_returned
  apply keeps_watchExecution hfresh
  · exact fun _ _ _ _ _ hbody => nomatch hbody
  · intro n s item a commands hI hl _ hbody
    split at hbody
    · cases hbody
      exact kept_saveTransition hI hl env (hsame item) _ _ (hqueue item)
    · cases hbody

theorem keeps_succeed (env : Env) (id token : UUID) (output : RawMessage) :
    Keeps allowed (succeed env id token output) :=
  keeps_transition hfresh env id token (fun _ => ⟨rfl, rfl, rfl, rfl, rfl, rfl⟩) fun _ => rfl

theorem keeps_retry (env : Env) (id token : UUID) (errorText : String) (delay : Duration) :
    Keeps allowed (retry env id token errorText delay) := by
  apply keeps_transition hfresh
  · intro item
    unfold retryMutation
    dsimp only
    split <;> exact ⟨rfl, rfl, rfl, rfl, rfl, rfl⟩
  · intro item
    unfold retryMutation
    dsimp only
    split <;> rfl

theorem keeps_fail (env : Env) (id token : UUID) (errorText : String) :
    Keeps allowed (fail env id token errorText) :=
  keeps_transition hfresh env id token (fun _ => ⟨rfl, rfl, rfl, rfl, rfl, rfl⟩) fun _ => rfl

theorem keeps_cancelExecution (env : Env) (id : UUID) (reason : String) :
    Keeps allowed (cancelExecution env id reason) := by
  apply rule_returned
  apply keeps_watchExecution hfresh
  · exact fun _ _ _ _ _ hbody => nomatch hbody
  · intro n s item a commands hI hl _ hbody
    split at hbody
    · cases hbody
    · cases hbody
      refine kept_saveTransition hI hl env ?_ _ _ rfl
      exact ⟨rfl, rfl, rfl, rfl, rfl, rfl⟩

theorem keeps_restartExecution (env : Env) (id : UUID) (availableAt : Time) :
    Keeps allowed (restartExecution env id availableAt) := by
  apply rule_returned
  apply keeps_watchExecution hfresh
  · exact fun _ _ _ _ _ hbody => nomatch hbody
  · intro n s item a commands hI hl hid hbody
    subst hid
    split at hbody
    · cases hbody
    · next hactive =>
      split at hbody
      · cases hbody
      · cases hbody
        exact kept_restart hI hl (Bool.eq_false_iff.mpr hactive) env _

theorem keeps_releaseExecution (env : Env) (id : UUID) (input : RawMessage) (availableAt : Time) :
    Keeps allowed (releaseExecution env id input availableAt) := by
  apply rule_returned
  apply keeps_watchExecution hfresh
  · exact fun _ _ _ _ _ hbody => nomatch hbody
  · intro n s item a commands hI hl hid hbody
    subst hid
    split at hbody
    · cases hbody
    · next hblocked =>
      cases hbody
      exact kept_release hI hl ⟨rfl, rfl, rfl, rfl, rfl, rfl⟩ (not_not.mp hblocked) rfl

/-! ## Operations on one run -/

theorem keeps_createPipelineRun (env : Env) (request : CreatePipelineRun) :
    Keeps allowed (createPipelineRun env request) := by
  refine Triple.bind (rule_watch hfresh (fun _ _ h _ => h) ?_) ?_
  · intro n s a commands hI _ hbody hids
    split at hbody
    · cases hbody
    · next hfree =>
      cases hbody
      have hnew : (newRun env request).id ∉ s.used := by
        have hid := (hids (.hSet (env.newUUID 0) (newRun env request)) (.head _)).2 _ rfl
        exact hid.resolve_left List.not_mem_nil
      apply kept_createRun hI hnew
      intro ref href
      exact List.findSome?_eq_none_iff.mp hfree _ (List.mem_map_of_mem href)
  · intro result
    split
    · exact keeps_done _
    · exact keeps_getPipelineRun _
    · exact keeps_done _

theorem keeps_setPipelineRunStatus (env : Env) (id : UUID) (expectedRevision : Nat)
    (status : RunStatus) (errorText : String) :
    Keeps allowed (setPipelineRunStatus env id expectedRevision status errorText) := by
  apply rule_returned
  apply rule_watch hfresh fun _ _ h _ => h
  intro n s a commands hI _ hbody _
  have hview : (s.keys.view ⟨[], [id], [], []⟩).runs = [s.keys.runs.records.lookup id] := rfl
  rw [hview] at hbody
  cases hl : s.keys.runs.records.lookup id with
  | none =>
      rw [hl] at hbody
      cases hbody
  | some run =>
      rw [hl] at hbody
      dsimp only at hbody
      split at hbody
      · cases hbody
      · cases hbody
        obtain rfl : run.id = id := hI.represented.runs.keyed id run hl
        exact kept_moveRun hI hl rfl rfl rfl rfl

/-! ## Claims and expired leases -/

theorem keeps_claimLoop (env : Env) (owner : String) (accepted : List TaskKey) (limit : Int)
    (lease : Duration) (candidates : List Execution) (draw : Nat) (claimed : List Execution) :
    Keeps allowed (claimLoop env owner accepted limit lease candidates draw claimed) := by
  induction candidates generalizing draw claimed with
  | nil => exact keeps_done _
  | cons candidate rest ih =>
      rw [claimLoop]
      split
      · exact keeps_done _
      · refine (keeps_claimCandidate hfresh env draw candidate.id owner accepted lease).bind ?_
        intro result
        split
        · exact keeps_done _
        · exact ih _ _
        · exact ih _ _

theorem keeps_claim (env : Env) (owner : String) (keys : List TaskKey) (limit : Int)
    (lease : Duration) : Keeps allowed (claim env owner keys limit lease) := by
  have hload : Keeps allowed (loadDueCandidates env (keys.map (·.name)).eraseDups
      (if limit ≤ 0 then 1 else limit)) :=
    (keeps_loadQueues _ _ _ _).bind fun _ => keeps_done _
  exact hload.bind fun ordered => keeps_claimLoop hfresh env owner keys _ lease ordered 0 []

theorem keeps_reapLoop (env : Env) (ids runs : List UUID) :
    Keeps allowed (reapLoop env ids runs) := by
  induction ids generalizing runs with
  | nil => exact keeps_done _
  | cons id rest ih =>
      refine (keeps_reapCandidate hfresh env id).bind fun result => ?_
      split
      · exact keeps_done _
      · exact ih _
      · exact ih _

theorem keeps_reapExpired (env : Env) : Keeps allowed (reapExpired env) :=
  keeps_read (fun _ => rfl) fun ids => keeps_reapLoop hfresh env ids []

/-! ## Restart of a subgraph -/

theorem keeps_restartPipelineSubgraph (env : Env) (request : RestartSubgraph)
    (hkeys : (request.rootNodeKey :: request.descendantKeys).Nodup) :
    Keeps allowed (restartPipelineSubgraph env request) := by
  have hlookup : Rule allowed (fun _ => True) (lookupNodes request.runID
      (request.rootNodeKey :: request.descendantKeys)) fun ids s => ∃ keys' : List String,
        keys'.Nodup ∧ List.Forall₂ (Leads s) keys' ids := by
    refine Triple.weaken (rule_lookupNodes _ _ fun _ _ h _ => h) ?_
    rintro ids _ s ⟨-, keys', hsub, hleads⟩
    exact ⟨keys', hkeys.sublist hsub, hleads⟩
  refine hlookup.bind fun ids => rule_returned (rule_watch hfresh ?_ ?_)
  · rintro s s' ⟨keys', hnodup, hleads⟩ hlater
    exact ⟨keys', hnodup, hleads.imp fun _ _ h => h.later hlater⟩
  · rintro n s root commands hI ⟨keys', hnodup, hleads⟩ hbody -
    exact kept_restartTransaction hI hnodup hleads hbody

end Operations

end Ody.Redis
