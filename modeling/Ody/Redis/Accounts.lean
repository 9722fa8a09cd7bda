import Ody.Execution.Lifecycle
import Ody.Execution.LeaseFencing
import Ody.Redis.Lifecycle
import Ody.Redis.Linearizability

/-!
# What clients of the Redis store are told about one execution

Workers and pipelines call the methods, restart subgraphs and purge. The lookups of
a restart and its block are not one step, and a purge removes records while others
read them, so that the in-memory store does not explain their answers. A smaller
object does: the last record that was stored under one identifier, with its attempts
and its lease, and what each answer did to it.
-/

namespace Ody.Redis

open Library.Tables Library.DerivedIndexes Library.Interleaving Library.Optimistic
open Memory (Env MemoryStore standaloneRequest Holds)

/-! ## What a client was told -/

/-- The answer of a call, with the request of a restarted subgraph. -/
inductive Told where
  | call (answer : Answer)
  | subgraph (request : RestartSubgraph) (result : Except GoError Execution)
  | purged (result : Except GoError PurgeResult)

/-- Clients call methods, restart subgraphs, whose node keys are different, and purge in one step. -/
inductive Clients : Op Told → Prop
  | call (env : Env) (method : Method) : Clients ((method.program env).map Told.call)
  | restartPipelineSubgraph (env : Env) (request : RestartSubgraph)
      (distinct : (request.rootNodeKey :: request.descendantKeys).Nodup) :
      Clients ((restartPipelineSubgraph env request).map (Told.subgraph request))
  | purge (before : Time) (limit : Int) (order : RangeOrder Candidate) :
      Clients (.call (.other (.purge before limit order)) fun result => .done (.purged result))

/-- The call of the in-memory store that is the same method. The two loops and the status of a run
have operations of their own. -/
def Method.call : Method → Option Memory.Call
  | .createExecution request => some (.createExecution request)
  | .getExecution id => some (.getExecution id)
  | .claimCandidate .. => none
  | .reapCandidate _ => none
  | .heartbeat id token lease => some (.heartbeat id token lease)
  | .succeed id token output => some (.succeed id token output)
  | .retry id token errorText delay => some (.retry id token errorText delay)
  | .fail id token errorText => some (.fail id token errorText)
  | .cancelExecution id reason => some (.cancelExecution id reason)
  | .restartExecution id availableAt => some (.restartExecution id availableAt)
  | .releaseExecution id input availableAt => some (.releaseExecution id input availableAt)
  | .createPipelineRun request => some (.createPipelineRun request)
  | .getPipelineRun id => some (.getPipelineRun id)
  | .setPipelineRunStatus .. => none

/-- An outcome was accepted under the lease. -/
def Answer.accepted (id token : UUID) (answer : Answer) : Bool :=
  answer.method.call.bind Memory.outcomeOf == some (id, token) && answer.result.isOk

/-- The record that was delivered. -/
def Answer.delivery (answer : Answer) : Option Execution :=
  match answer.method, answer.result with
  | .claimCandidate .., .ok (.delivery item) => item
  | _, _ => none

/-- The execution was delivered under the lease. -/
def Answer.delivered (id token : UUID) (answer : Answer) : Bool :=
  answer.delivery.any fun item => item.id == id && item.leaseToken == token

/-- The execution was restarted. -/
def Answer.restarted (id : UUID) (answer : Answer) : Bool :=
  match answer.method with
  | .restartExecution target _ => target == id && answer.result.isOk
  | _ => false

/-- The execution was delivered under some lease. -/
def Answer.deliveredAny (id : UUID) (answer : Answer) : Bool :=
  answer.delivery.any fun item => item.id == id

/-- The client gave up, or its restart of a subgraph failed. -/
def Told.gaveUp : Told → Bool
  | .call answer => answer.gaveUp
  | .subgraph _ (.error _) => true
  | _ => false

/-- An outcome was accepted under the lease. -/
def Told.accepted (id token : UUID) : Told → Bool
  | .call answer => answer.accepted id token
  | _ => false

/-- The execution was delivered under the lease. -/
def Told.delivered (id token : UUID) : Told → Bool
  | .call answer => answer.delivered id token
  | _ => false

/-- The execution was delivered under some lease. -/
def Told.deliveredAny (id : UUID) : Told → Bool
  | .call answer => answer.deliveredAny id
  | _ => false

/-- The execution was restarted, by itself or as a node of a subgraph. -/
def Told.restarted (id : UUID) (item : Execution) : Told → Bool
  | .call answer => answer.restarted id
  | .subgraph request (.ok _) => item.pipelineRunID == some request.runID &&
      (request.rootNodeKey :: request.descendantKeys).contains item.nodeKey
  | _ => false

/-! ## Methods of the in-memory store -/

section Calls

variable {env : Env} {method : Method} {c : Memory.Call} {result : Except GoError Value} {i : Nat}
  {m : MemoryStore}

theorem onMemory_eq_exec (h : method.call = some c) (env : Env) (i : Nat) (m : MemoryStore) :
    (method.onMemory env i m).2 = (Memory.exec env m c).2 := by
  cases method <;> cases h <;> rfl

theorem delivery_of_call (h : method.call = some c) :
    (Answer.mk env method result).delivery = none := by
  cases method <;> cases h <;> rfl

theorem isOk_of_agree {a b : Except GoError Value} (h : Agree Eq a b) : a.isOk = b.isOk := by
  cases a <;> cases b <;> first | rfl | exact h.elim

theorem isOk_map {α β : Type} (f : α → β) (a : Except GoError α) : (a.map f).isOk = a.isOk := by
  cases a <;> rfl

/-- An outcome that the store accepts is one that the in-memory store accepts. -/
theorem returnsNil_of_agree {lease : UUID × UUID} (h : method.call = some c)
    (hc : Memory.outcomeOf c = some lease) (hagree : Agree Eq result (method.onMemory env i m).1) :
    result.isOk = Memory.returnsNil env m c := by
  rw [isOk_of_agree hagree]
  cases method <;> cases h <;> first | exact isOk_map _ _ | cases hc

end Calls

/-! ## Leases -/

section Lease

variable {m m' : MemoryStore} {id token : UUID}

theorem accepted_iff {env : Env} {method : Method} {result : Except GoError Value} :
    (Answer.mk env method result).accepted id token = true ↔
      ∃ c, method.call = some c ∧ Memory.outcomeOf c = some (id, token) ∧ result.isOk = true := by
  simp only [Answer.accepted, Bool.and_eq_true, beq_iff_eq, Option.bind_eq_some_iff]
  constructor
  · rintro ⟨⟨c, hcall, hc⟩, hok⟩
    exact ⟨c, hcall, hc, hok⟩
  · rintro ⟨c, hcall, hc, hok⟩
    exact ⟨⟨c, hcall, hc⟩, hok⟩

/-- An accepted outcome needs the lease and ends it. -/
theorem accepted_holds {answer : Answer} (h : Answers answer m m')
    (haccepted : answer.accepted id token = true) : Holds m id token ∧ ¬Holds m' id token := by
  cases h with
  | call i hnew hagree =>
      obtain ⟨c, hcall, hc, hok⟩ := accepted_iff.mp haccepted
      rw [returnsNil_of_agree hcall hc hagree] at hok
      rw [onMemory_eq_exec hcall]
      exact ⟨Memory.holds_of_returnsNil (Memory.leaseOf_outcome hc) hok,
        Memory.outcome_releases hc hok⟩
  | foundNode h =>
      obtain ⟨c, hcall, hc, -⟩ := accepted_iff.mp haccepted
      cases hcall
      cases hc
  | foundExpired _ =>
      obtain ⟨c, hcall, -⟩ := accepted_iff.mp haccepted
      cases hcall

theorem holds_deliver {env : Env} {target : UUID} {owner : String} {accepted : List TaskKey}
    {lease : Duration} {key : UUID}
    (h : Holds (deliver env m target owner accepted lease key).2 id token) :
    Holds m id token ∨ ∃ item, (deliver env m target owner accepted lease key).1 = some item ∧
      item.id = id ∧ item.leaseToken = token := by
  cases hfound : (m.executions.lookup target).filter (Memory.claimable accepted env.now) with
  | none =>
      rw [deliver, hfound] at h
      exact Or.inl h
  | some stored =>
      rw [deliver, hfound] at h ⊢
      obtain ⟨item, hl, hs, hnil, htoken⟩ := h
      rw [Memory.appendEvent_executions, Memory.put_lookup] at hl
      split at hl
      · next hid =>
        cases hl
        exact Or.inr ⟨_, rfl, hid.symm, htoken⟩
      · exact Or.inl ⟨item, hl, hs, hnil, htoken⟩

theorem holds_expire {env : Env} {target : UUID} (h : Holds (expire env m target).2 id token) :
    Holds m id token := by
  cases hfound : (m.executions.lookup target).filter (Memory.reapable env.now) with
  | none =>
      rw [expire, hfound] at h
      exact h
  | some stored =>
      rw [expire, hfound] at h
      obtain ⟨item, hl, hs, hnil, htoken⟩ := h
      rw [Memory.appendEvent_executions, Memory.put_lookup] at hl
      split at hl
      · cases hl
        cases hs
      · exact ⟨item, hl, hs, hnil, htoken⟩

theorem executions_setStatus (env : Env) (m : MemoryStore) (target : UUID) (expectedRevision : Nat)
    (status : RunStatus) (errorText : String) :
    (setStatus env m target expectedRevision status errorText).2.executions = m.executions := by
  unfold setStatus
  split
  · rfl
  · split <;> rfl

/-- A lease comes from a delivery. -/
theorem holds_answers {answer : Answer} (h : Answers answer m m') (hholds : Holds m' id token) :
    Holds m id token ∨ answer.delivered id token = true := by
  cases h with
  | foundNode _ => exact Or.inl hholds
  | foundExpired _ => exact Or.inl hholds
  | @call env method result m i hnew hagree =>
      cases hcall : method.call with
      | some c =>
          rw [onMemory_eq_exec hcall] at hholds
          rcases Memory.holds_after hholds with hold | ⟨_, _, _, _, _, _, rfl, -⟩
          · exact Or.inl hold
          · cases method <;> cases hcall
      | none =>
          cases method with
          | claimCandidate draw target owner accepted lease =>
              rcases holds_deliver hholds with hold | ⟨item, hitem, hid, htoken⟩
              · exact Or.inl hold
              · have hreply : Agree Eq result (.ok (.delivery (deliver env m target owner accepted
                    lease (env.newUUID i)).1)) := hagree
                rw [hitem] at hreply
                cases result with
                | error err => exact hreply.elim
                | ok value =>
                    cases hreply
                    exact Or.inr (by simp [Answer.delivered, Answer.delivery, hid, htoken])
          | reapCandidate target => exact Or.inl (holds_expire hholds)
          | setPipelineRunStatus target expectedRevision status errorText =>
              obtain ⟨item, hl, hown⟩ := hholds
              have hsame := executions_setStatus env m target expectedRevision status errorText
              exact Or.inl ⟨item, (congrArg (AList.lookup id) hsame).symm.trans hl, hown⟩
          | _ => cases hcall

/-- A call that gave up reported nothing. -/
theorem gaveUp_eq_false {answer : Answer} (h : answer.result.isOk = true) : answer.gaveUp = false := by
  unfold Answer.gaveUp
  cases hresult : answer.result with
  | error err =>
      rw [hresult] at h
      cases h
  | ok value => rfl

theorem loud_of_delivery {answer : Answer} {p : Execution → Bool}
    (h : answer.delivery.any p = true) : answer.gaveUp = false := by
  apply gaveUp_eq_false
  unfold Answer.delivery at h
  split at h
  · next hresult =>
    rw [hresult]
    rfl
  · cases h

end Lease

/-! ## Attempts -/

/-- What an answer does to the record of one execution. -/
inductive Turn (told : Told) (id : UUID) : Option Execution → Option Execution → Prop
  | same {stored} (h : told.deliveredAny id = false) : Turn told id stored stored
  | created {item} (h : told.deliveredAny id = false) (hattempt : item.attempt = 0)
      (hmax : 0 ≤ item.maxAttempts) : Turn told id none (some item)
  | claimed {item item'} (h : item.attempt < item.maxAttempts)
      (hattempt : item'.attempt = item.attempt + 1) (hmax : item'.maxAttempts = item.maxAttempts)
      (hsame : SameIdentity item item') : Turn told id (some item) (some item')
  | moved {item item'} (h : told.deliveredAny id = false) (hattempt : item'.attempt = item.attempt)
      (hmax : item'.maxAttempts = item.maxAttempts) (hsame : SameIdentity item item') :
      Turn told id (some item) (some item')
  | restarted {item item'} (h : told.deliveredAny id = false) (hr : told.restarted id item = true)
      (hattempt : item'.attempt = 0) (hmax : item'.maxAttempts = item.maxAttempts)
      (hsame : SameIdentity item item') : Turn told id (some item) (some item')

section Turns

variable {env : Env} {m m' : MemoryStore}

theorem restartExecution_error {id : UUID} {availableAt : Time} {err : GoError}
    (h : (Memory.restartExecution env m id availableAt).1 = .error err) :
    (Memory.restartExecution env m id availableAt).2 = m := by
  unfold Memory.restartExecution at h ⊢
  split
  · rfl
  · next item hl =>
    rw [hl] at h
    dsimp only at h ⊢
    split
    · rfl
    · next hrun =>
      rw [if_neg hrun] at h
      split
      · rfl
      · next hactive =>
        rw [if_neg hactive] at h
        cases h

/-- A restart that returns an error has changed nothing. -/
theorem turn_restart {i : Nat} {target id : UUID} {availableAt at' : Time} {item : Execution}
    {result : Except GoError Value}
    (hagree : Agree Eq result ((Method.restartExecution target availableAt).onMemory env i m).1)
    (hquiet : (Answer.mk env (.restartExecution target availableAt) result).deliveredAny id = false)
    (hid : target = id) (hold : m.executions.lookup id = some item)
    (hstored : (Memory.restartExecution env m target availableAt).2.executions.lookup id =
      some (Memory.restarted .pending at' item)) :
    Turn (.call ⟨env, .restartExecution target availableAt, result⟩) id (some item)
      (some (Memory.restarted .pending at' item)) := by
  cases result with
  | ok value =>
      have hok : (Answer.mk env (.restartExecution target availableAt) (.ok value)).restarted id =
          true := by
        simp [Answer.restarted, hid, Except.isOk, Except.toBool]
      exact Turn.restarted hquiet hok rfl rfl ⟨rfl, rfl, rfl, rfl, rfl, rfl⟩
  | error err =>
      have hfailed : ∃ err', (Memory.restartExecution env m target availableAt).1 = .error err' := by
        cases hreply : (Memory.restartExecution env m target availableAt).1 with
        | error err' => exact ⟨err', rfl⟩
        | ok restarted =>
            simp only [Method.onMemory, valued, hreply] at hagree
            exact hagree.elim
      obtain ⟨err', hreply⟩ := hfailed
      rw [restartExecution_error hreply, hold] at hstored
      rw [← hstored]
      exact Turn.moved hquiet rfl rfl (SameIdentity.refl item)

/-- A method of the in-memory store as it is. -/
theorem turn_call {method : Method} {c : Memory.Call} {result : Except GoError Value} {i : Nat}
    (hcall : method.call = some c) (hnew : method.New env m)
    (hagree : Agree Eq result (method.onMemory env i m).1) (id : UUID) :
    Turn (.call ⟨env, method, result⟩) id (m.executions.lookup id)
      ((method.onMemory env i m).2.executions.lookup id) := by
  have hquiet : (Answer.mk env method result).deliveredAny id = false := by
    simp [Answer.deliveredAny, delivery_of_call hcall]
  rw [onMemory_eq_exec hcall]
  cases Memory.exec_effect env m c id with
  | same hsame _ =>
      rw [hsame]
      exact Turn.same hquiet
  | inserted hname hfree hstored _ =>
      cases method <;> cases hcall
      rw [hnew hfree, hstored]
      exact Turn.created hquiet rfl
        (le_trans (by decide) (Memory.created_recordInvariant env _).maxAttempts)
  | moved hold hstored _ t =>
      rw [hold, hstored]
      cases t with
      | restart hrun hactive =>
          cases method <;> cases hcall
          exact turn_restart hagree hquiet (m.executions_keyed _ _ hold) hold hstored
      | claim _ _ => cases method <;> cases hcall
      | reap _ => cases method <;> cases hcall
      | reset _ _ => cases method <;> cases hcall
      | _ => exact Turn.moved hquiet rfl rfl ⟨rfl, rfl, rfl, rfl, rfl, rfl⟩
  | deleted _ _ => cases method <;> cases hcall

theorem turn_deliver {draw i : Nat} {target : UUID} {owner : String} {accepted : List TaskKey}
    {lease : Duration} {result : Except GoError Value}
    (hagree : Agree Eq result
      (.ok (.delivery (deliver env m target owner accepted lease (env.newUUID i)).1))) (id : UUID) :
    Turn (.call ⟨env, .claimCandidate draw target owner accepted lease, result⟩) id
      (m.executions.lookup id)
      ((deliver env m target owner accepted lease (env.newUUID i)).2.executions.lookup id) := by
  cases result with
  | error err => exact hagree.elim
  | ok value =>
      cases hagree
      cases hfound : (m.executions.lookup target).filter (Memory.claimable accepted env.now) with
      | none =>
          have hdeliver : deliver env m target owner accepted lease (env.newUUID i) = (none, m) := by
            rw [deliver, hfound]
          rw [hdeliver]
          exact Turn.same rfl
      | some item =>
          obtain ⟨hl, hpass⟩ := Option.filter_eq_some_iff.mp hfound
          obtain rfl := m.executions_keyed _ _ hl
          rw [deliver_of_claimable env hl hpass, Memory.appendEvent_executions, Memory.put_lookup]
          split
          · next hid =>
            obtain rfl : id = item.id := hid
            rw [hl]
            exact Turn.claimed (of_decide_eq_true (Bool.and_eq_true_iff.mp hpass).2) rfl rfl
              ⟨rfl, rfl, rfl, rfl, rfl, rfl⟩
          · next hid =>
            have hother : item.id ≠ id := fun h => hid h.symm
            exact Turn.same (beq_false_of_ne hother)

theorem turn_expire {target : UUID} {result : Except GoError Value} (id : UUID) :
    Turn (.call ⟨env, .reapCandidate target, result⟩) id (m.executions.lookup id)
      ((expire env m target).2.executions.lookup id) := by
  cases hfound : (m.executions.lookup target).filter (Memory.reapable env.now) with
  | none =>
      have hexpire : expire env m target = (none, m) := by rw [expire, hfound]
      rw [hexpire]
      exact Turn.same rfl
  | some item =>
      obtain ⟨hl, -⟩ := Option.filter_eq_some_iff.mp hfound
      obtain rfl := m.executions_keyed _ _ hl
      rw [expire, hfound]
      dsimp only
      rw [Memory.appendEvent_executions, Memory.put_lookup]
      split
      · next hid =>
        obtain rfl : id = item.id := hid
        rw [hl]
        exact Turn.moved rfl rfl rfl ⟨rfl, rfl, rfl, rfl, rfl, rfl⟩
      · exact Turn.same rfl

theorem answers_turn {answer : Answer} (h : Answers answer m m') (id : UUID) :
    Turn (.call answer) id (m.executions.lookup id) (m'.executions.lookup id) := by
  cases h with
  | foundNode _ => exact Turn.same rfl
  | foundExpired _ => exact Turn.same rfl
  | @call env method result m i hnew hagree =>
      cases hcall : method.call with
      | some c => exact turn_call hcall hnew hagree id
      | none =>
          cases method with
          | claimCandidate draw target owner accepted lease => exact turn_deliver hagree id
          | reapCandidate target => exact turn_expire id
          | setPipelineRunStatus target expectedRevision status errorText =>
              have hsame : (Method.onMemory env i m (.setPipelineRunStatus target expectedRevision
                  status errorText)).2.executions = m.executions :=
                executions_setStatus env m target expectedRevision status errorText
              rw [hsame]
              exact Turn.same rfl
          | _ => cases hcall

end Turns

/-! ## The last record of one execution -/

/-- The record is leased under the token. -/
def Leased (stored : Option Execution) (token : UUID) : Prop :=
  ∃ item, stored = some item ∧ Memory.Owned item token

/-- What an answer does to the record of one execution and to its lease. -/
structure Accounts (id : UUID) (told : Told) (stored stored' : Option Execution) : Prop where
  turn : Turn told id stored stored'
  accepted : ∀ token, told.accepted id token = true → Leased stored token ∧ ¬Leased stored' token
  leased : ∀ token, Leased stored' token → Leased stored token ∨ told.delivered id token = true

theorem accounts_answers {answer : Answer} {m m' : MemoryStore} (h : Answers answer m m') (id : UUID) :
    Accounts id (.call answer) (m.executions.lookup id) (m'.executions.lookup id) :=
  ⟨answers_turn h id, fun _ => accepted_holds h, fun _ => holds_answers h⟩

/-- The answer delivers the execution to nobody and accepts no outcome of it. -/
structure Idle (told : Told) (id : UUID) : Prop where
  delivered : told.deliveredAny id = false
  accepted : ∀ token, told.accepted id token = false

section Idle

variable {told : Told} {id : UUID} {item item' : Execution}

theorem Accounts.idle {stored : Option Execution} (h : Accounts id told none stored) :
    Idle told id where
  delivered := by
    cases h.turn with
    | same hquiet => exact hquiet
    | created hquiet _ _ => exact hquiet
  accepted := by
    intro token
    by_contra haccepted
    obtain ⟨⟨item, hl, -⟩, -⟩ := h.accepted token (Bool.eq_true_of_not_eq_false haccepted)
    cases hl

/-- An answer that accepts no outcome may end a lease, but it grants none. -/
theorem Idle.accounts (h : Idle told id) {stored stored' : Option Execution}
    (hturn : Turn told id stored stored')
    (hleased : ∀ token, Leased stored' token → Leased stored token) :
    Accounts id told stored stored' where
  turn := hturn
  accepted := fun token haccepted => by
    rw [h.accepted token] at haccepted
    cases haccepted
  leased := fun token hl => Or.inl (hleased token hl)

theorem Idle.same (h : Idle told id) (stored : Option Execution) : Accounts id told stored stored :=
  h.accounts (Turn.same h.delivered) fun _ hl => hl

/-- A record that is not running is leased to nobody. -/
theorem not_leased {stored : Option Execution} (hidle : item'.status ≠ .running) (token : UUID)
    (h : Leased (some item') token) : Leased stored token := by
  obtain ⟨_, ⟨⟩, howned⟩ := h
  exact absurd howned.1 hidle

end Idle

/-- The last record that was stored under an identifier: the one that is there, or one that was
removed. -/
inductive Recorded (id : UUID) (s : Server) : Option Execution → Prop
  | stored : Recorded id s (s.keys.executions.records.lookup id)
  | removed (item : Execution) (hused : id ∈ s.used)
      (hgone : s.keys.executions.records.lookup id = none) : Recorded id s (some item)

theorem Recorded.of_same {id : UUID} {s s' : Server} {stored : Option Execution} (hlater : Later s s')
    (hsame : s'.keys.executions.records.lookup id = s.keys.executions.records.lookup id)
    (h : Recorded id s stored) : Recorded id s' stored := by
  cases h with
  | stored =>
      rw [← hsame]
      exact Recorded.stored
  | removed item hused hgone =>
      exact Recorded.removed item (hlater.used id hused) (hsame.trans hgone)

/-- A program whose answer is right about the record of one execution. -/
abbrev LinearRecord (id : UUID) (p : Op Told) (s : Server) : Prop :=
  Linear (backend.system FreshIDs) Invariant Later (Recorded id) (Accounts id) Told.gaveUp p () s

abbrev EffectRecord (id : UUID) (told : Told) (s s' : Server) : Prop :=
  Effect (Recorded id) (Accounts id) Told.gaveUp told s s'

/-- An answer is right about the last record if it is right about the record that is there, or leaves
that record until it is removed. A record that is gone is not touched again. -/
theorem effect_record {id : UUID} {told : Told} {s s' : Server} (hI : Invariant s)
    (hlater : Later s s') (hloud : told.gaveUp = false)
    (h : Accounts id told (s.keys.executions.records.lookup id)
        (s'.keys.executions.records.lookup id) ∨
      s'.keys.executions.records.lookup id = none ∧ Idle told id) : EffectRecord id told s s' := by
  refine ⟨hloud, fun stored hstored => ?_⟩
  cases hstored with
  | stored =>
      rcases h with haccounts | ⟨hgone, hidle⟩
      · exact ⟨_, haccounts, Recorded.stored⟩
      · refine ⟨_, hidle.same _, ?_⟩
        cases hl : s.keys.executions.records.lookup id with
        | none =>
            rw [← hgone]
            exact Recorded.stored
        | some item =>
            exact Recorded.removed item (hlater.used id (hI.known.executions id item hl)) hgone
  | removed item hused hgone =>
      have hidle : Idle told id := by
        rcases h with haccounts | ⟨-, hidle⟩
        · rw [hgone] at haccounts
          exact haccounts.idle
        · exact hidle
      exact ⟨_, hidle.same _, Recorded.removed item (hlater.used id hused) (hlater.gone id hused hgone)⟩

/-- An answer of the in-memory store is right about every record. -/
theorem effect_of_answers {id : UUID} {answer : Answer} {s s' : Server} (hI : Invariant s)
    (hlater : Later s s') (h : EffectOp answer s s') : EffectRecord id (.call answer) s s' := by
  obtain ⟨hloud, heffect⟩ := h
  have ha := abstracts_abstraction hI.represented
  obtain ⟨m', hanswers, ha'⟩ := heffect _ ha
  have haccounts := accounts_answers hanswers id
  rw [ha.executions, ha'.executions] at haccounts
  exact effect_record hI hlater hloud (Or.inl haccounts)

/-- What takes effect as the in-memory store is right about every record. -/
theorem LinearOp.record {p : Op Answer} {s : Server} (hkeeps : Keeps FreshIDs p)
    (h : LinearOp Later p s) (id : UUID) : LinearRecord id (p.map Told.call) s := by
  refine Linear.translate Told.call (fun _ h => h) ?_ ?_ (hkeeps () s trivial) h
  · intro s s' hI _ hlater hsame stored hstored
    have ha := abstracts_abstraction hI.represented
    have hlookup := ((hsame _ ha).executions id).symm.trans (ha.executions id)
    exact hstored.of_same hlater hlookup
  · exact fun answer s s' hI _ hlater heffect => effect_of_answers hI hlater heffect

/-! ## Every client -/

section Clients

variable (env : Env) (id : UUID) (s : Server)

theorem idle_answer {method : Method} {c : Memory.Call} (hcall : method.call = some c)
    (houtcome : Memory.outcomeOf c = none) (result : Except GoError Value) (id : UUID) :
    Idle (.call ⟨env, method, result⟩) id where
  delivered := by simp [Told.deliveredAny, Answer.deliveredAny, delivery_of_call hcall]
  accepted := by
    intro token
    simp [Told.accepted, Answer.accepted, hcall, houtcome]

/-- A read that ends a program changes no record. -/
theorem record_read {c : Query} {next : QueryReply c → Op Told}
    (hread : ∀ s : Server, (s.exec c).2 = s)
    (hnext : ∀ r, ∃ told, next r = .done told ∧ told.gaveUp = false ∧ Idle told id) :
    LinearRecord id (.call (.other c) next) s := by
  apply linear_other
  intro s' _ hI _
  obtain ⟨told, hdone, hloud, hidle⟩ := hnext (backend.exec s' c).1
  refine ⟨told, hdone, ?_⟩
  rw [show (backend.exec s' c).2 = s' from hread s']
  exact effect_record hI (Later.refl s') hloud (Or.inl (hidle.same _))

theorem record_createExecution (request : CreateExecution) :
    LinearRecord id (((Method.createExecution request).program env).map Told.call) s := by
  by_cases hname : request.taskName = ""
  · have hprogram : (Method.createExecution request).program env =
        .done ⟨env, .createExecution request, .error (.text "task name is empty")⟩ := by
      simp only [Method.program, Method.onRedis, createExecution, if_pos hname]
      rfl
    rw [hprogram]
    exact rfl
  have hidle : ∀ result, Idle (.call ⟨env, .createExecution request, result⟩) id :=
    fun result => idle_answer env rfl rfl result id
  simp only [Method.program, Method.onRedis, createExecution, if_neg hname, Program.map,
    Program.bind_assoc]
  apply linear_attempt (P := fun _ _ => True) (K := fun _ _ => True)
  · exact fun _ _ _ _ _ _ => trivial
  · exact fun _ s _ _ => (safe_getRefs s _ (fun _ h => h) rfl).weaken fun _ _ _ _ => ⟨trivial, trivial⟩
  · exact fun _ _ _ _ _ _ _ _ _ _ => trivial
  · intro _ n s a commands hI _ hbody hallowed
    split at hbody
    · cases hbody
    · next hfree =>
      cases hbody
      have hnew : (newExecution env request).id ∉ s.used := by
        have hid := (hallowed (.set (env.newUUID 0) (newExecution env request)) (.head _)).1 _ rfl
        exact hid.resolve_left List.not_mem_nil
      have hrefs : ∀ ref ∈ references (newExecution env request),
          s.keys.executions.refs.lookup ref = none := fun ref href =>
        List.findSome?_eq_none_iff.mp hfree _ (List.mem_map_of_mem href)
      have hkept := kept_create hI env rfl hnew hrefs
      refine ⟨_, rfl, effect_record hI hkept.later rfl (Or.inl ?_)⟩
      have hrecords :
          (s.applyAll (createCommands env (newExecution env request))).keys.executions.records =
          s.keys.executions.records.insert (env.newUUID 0) (newExecution env request) := by
        rw [keys_applyAll, executions_applyAll]
        exact afterCreate_records _ _ _
      have happly : backend.applyAll s (createCommands env (newExecution env request)) =
          s.applyAll (createCommands env (newExecution env request)) := rfl
      rw [happly, hrecords, lookup_insert_ite]
      split
      · next hid =>
        subst hid
        have hmissing : s.keys.executions.records.lookup (env.newUUID 0) = none :=
          hI.known.no_execution hnew
        have hpending : (newExecution env request).status ≠ .running := by simp [newExecution]
        rw [hmissing]
        refine (hidle _).accounts (Turn.created (hidle _).delivered rfl ?_) (not_leased hpending)
        exact le_trans (by decide) (Memory.created_recordInvariant env request).maxAttempts
      · exact (hidle _).same _
  · intro _ n s image err _ _ hbody
    split at hbody
    · cases hbody
      left
      refine record_read id s (fun _ => rfl) fun stored => ⟨_, rfl, ?_, hidle _⟩
      cases stored <;> rfl
    · cases hbody
  · exact ⟨_, rfl, rfl⟩
  · trivial

theorem record_createPipelineRun (request : CreatePipelineRun) :
    LinearRecord id (((Method.createPipelineRun request).program env).map Told.call) s := by
  have hidle : ∀ result, Idle (.call ⟨env, .createPipelineRun request, result⟩) id :=
    fun result => idle_answer env rfl rfl result id
  simp only [Method.program, Method.onRedis, createPipelineRun, Program.map, Program.bind_assoc]
  apply linear_attempt_seen
  · intro n s a commands hI hbody hallowed
    split at hbody
    · cases hbody
    · next hfree =>
      cases hbody
      have hnew : (newRun env request).id ∉ s.used := by
        have hid := (hallowed (.hSet (env.newUUID 0) (newRun env request)) (.head _)).2 _ rfl
        exact hid.resolve_left List.not_mem_nil
      have hrefs : ∀ ref ∈ runReferences (newRun env request),
          s.keys.runs.refs.lookup ref = none := fun ref href =>
        List.findSome?_eq_none_iff.mp hfree _ (List.mem_map_of_mem href)
      have hkept := kept_createRun hI hnew hrefs
      refine ⟨_, rfl, effect_record hI hkept.later rfl (Or.inl ?_)⟩
      have hrecords : (s.applyAll (createRunCommands (newRun env request))).keys.executions.records =
          s.keys.executions.records := by
        rw [keys_applyAll]
        unfold createRunCommands runReferences
        split <;> rfl
      have happly : backend.applyAll s (createRunCommands (newRun env request)) =
          s.applyAll (createRunCommands (newRun env request)) := rfl
      rw [happly, hrecords]
      exact (hidle _).same _
  · intro n s err _ hbody
    split at hbody
    · cases hbody
      left
      refine record_read id s (fun _ => rfl) fun stored => ⟨_, rfl, ?_, hidle _⟩
      cases stored <;> rfl
    · cases hbody
  · exact ⟨_, rfl, rfl⟩

theorem record_reapCandidate (target : UUID) :
    LinearRecord id (((Method.reapCandidate target).program env).map Told.call) s := by
  have hidle : ∀ result, Idle (.call ⟨env, .reapCandidate target, result⟩) id :=
    fun result => ⟨rfl, fun _ => rfl⟩
  simp only [Method.program, Method.onRedis, Program.map, Program.bind_assoc]
  apply linear_reap env s (P := fun _ _ => True)
    fun reply => Told.call ⟨env, .reapCandidate target, reply.map Value.reaped⟩
  · exact fun _ _ _ _ _ _ => trivial
  · exact fun _ _ _ _ => trivial
  · intro s item hI hl hpass
    obtain rfl : item.id = target := hI.represented.executions.keyed target item hl
    have hsame : SameIdentity item (Memory.reaped env item) := ⟨rfl, rfl, rfl, rfl, rfl, rfl⟩
    have hkept : Kept s (saveTransition env (Memory.reaped env item) item.status .failed
        (Memory.reaped env item).lastError false) := kept_saveTransition hI hl env hsame _ _ rfl
    refine effect_record hI hkept.later rfl (Or.inl ?_)
    have hrecords := (writes_saveTransition s.keys (Memory.reaped env item) env item.status .failed
      (Memory.reaped env item).lastError false).records
    rw [keys_applyAll, hrecords, lookup_insert_ite]
    split
    · next hid =>
      obtain rfl : id = item.id := hid
      rw [hl]
      refine (hidle _).accounts (Turn.moved (hidle _).delivered rfl rfl hsame) (not_leased ?_)
      simp [Memory.reaped]
    · exact (hidle _).same _
  · intro runID s hI _ hleft
    refine effect_record hI ?_ rfl (Or.inl ?_)
    · exact Later.others hI.known (by
        simp [removeLeaseIndex, Command.WritesNone, Command.executionID, Command.runID])
    · rw [keys_applyAll]
      exact (hidle _).same _
  · exact fun s hI _ => effect_record hI (Later.refl s) rfl (Or.inl ((hidle _).same _))
  · rfl
  · trivial

/-- What a restart knows of the executions that it has looked up. -/
def Found (request : RestartSubgraph) (ids : List UUID) (s : Server) : Prop :=
  ∃ keys : List String, keys.Sublist (request.rootNodeKey :: request.descendantKeys) ∧
    List.Forall₂ (LeadsNode s request.runID) keys ids

theorem Found.later {request : RestartSubgraph} {ids : List UUID} {s s' : Server}
    (h : Found request ids s) (hlater : Later s s') : Found request ids s' := by
  obtain ⟨keys, hsub, hleads⟩ := h
  exact ⟨keys, hsub, hleads.imp fun _ _ h => h.later hlater⟩

/-- The lookups of a restart only read. -/
theorem safe_lookupNodes (request : RestartSubgraph) :
    Safe (backend.system FreshIDs) Invariant Later (fun s s' => Later s s' ∧ s = s')
      (fun ids _ s => Found request ids s)
      (lookupNodes request.runID (request.rootNodeKey :: request.descendantKeys)) () s := by
  have hreads : ∀ keys, (lookupNodes request.runID keys).Issues fun c =>
      ∀ s r s', backend.Step s c r s' → s = s' := by
    intro keys
    induction keys with
    | nil => trivial
    | cons key rest ih =>
        refine ⟨?_, fun _ => ih.bind fun _ => trivial⟩
        intro s r s' hstep
        exact congrArg Prod.snd hstep
  have hrule := rule_lookupRunNodes request.runID (request.rootNodeKey :: request.descendantKeys)
    (fun _ _ (_ : True) _ => trivial) () s trivial
  refine Safe.weaken (Safe.issues (fun _ _ h => h) ?_ hrule (hreads _)) fun _ _ _ h => h.2
  exact fun s _ c r s' _ hc _ hstep => hc s r s' hstep

theorem record_restartPipelineSubgraph (request : RestartSubgraph)
    (hkeys : (request.rootNodeKey :: request.descendantKeys).Nodup) (hI : Invariant s) :
    LinearRecord id ((restartPipelineSubgraph env request).map (Told.subgraph request)) s := by
  have hidle : ∀ result, Idle (.subgraph request result) id := fun _ => ⟨rfl, fun _ => rfl⟩
  have hsettles : Settles (backend.system FreshIDs) Invariant Later (Recorded id) (Accounts id)
      Told.gaveUp ((restartPipelineSubgraph env request).map (Told.subgraph request)) () s := by
    rw [restartPipelineSubgraph, Program.map, Program.bind_assoc]
    refine Settles.read (fun _ _ h => h.2) (safe_lookupNodes s request) hI ?_
    rintro ids ⟨⟩ s _ hfound
    left
    rw [returned, Program.bind_assoc]
    apply linear_attempt (P := fun _ => Found request ids)
      (K := fun image s => backend.view ⟨ids, [request.runID], [], []⟩ s = image)
    · exact fun _ s s' h hlater _ => h.later hlater
    · exact fun _ _ _ h => ⟨h, rfl⟩
    · exact fun _ _ _ _ _ _ _ h _ _ => h
    · rintro _ n s root commands hI ⟨keys, hsub, hleads⟩ hbody _
      have hnodup := hkeys.sublist hsub
      have hkept := kept_restartTransaction hI hnodup (hleads.imp fun _ _ h => h.toLeads) hbody
      obtain ⟨items, run, hrestarts, rfl⟩ := restartTransaction_ok hI hnodup hleads hbody
      refine ⟨_, rfl, effect_record hI hkept.later rfl (Or.inl ?_)⟩
      rcases subgraph_records hI env request run hrestarts.distinct rfl id with
        ⟨hl, -⟩ | ⟨item, hitem, rfl, hl, -⟩
      · have hsame : (backend.applyAll s (items.flatMap (subgraphCommands env request) ++
            moveRun run.id (reopenedRun env run) run.status)).keys.executions.records.lookup id =
            s.keys.executions.records.lookup id := hl
        rw [hsame]
        exact (hidle _).same _
      · have hreset : (backend.applyAll s (items.flatMap (subgraphCommands env request) ++
            moveRun run.id (reopenedRun env run) run.status)).keys.executions.records.lookup item.id =
            some (subgraphItem env request item) := hl
        rw [hreset, hrestarts.stored item hitem]
        obtain ⟨hrun, hnode⟩ := hrestarts.nodes item hitem
        have hrestarted : (Told.subgraph request (.ok root)).restarted item.id item = true := by
          simp only [Told.restarted, hrun, beq_self_eq_true, Bool.true_and, List.contains_iff_mem]
          exact hsub.subset hnode
        have hstatus : (subgraphItem env request item).status ≠ .running := by
          unfold subgraphItem reset clearLease
          dsimp only
          split <;> simp
        refine (hidle _).accounts ?_ (not_leased hstatus)
        exact Turn.restarted rfl hrestarted rfl rfl ⟨rfl, rfl, rfl, rfl, rfl, rfl⟩
    · exact fun _ _ _ _ _ _ _ _ => Or.inl rfl
    · exact ⟨_, rfl, rfl⟩
    · exact hfound
  rcases hsettles with hlinear | ⟨told, hdone, -⟩
  · exact hlinear
  · cases hdone

theorem record_purge (before : Time) (limit : Int) (order : RangeOrder Candidate) :
    LinearRecord id (.call (.other (.purge before limit order)) fun result =>
      .done (.purged result)) s := by
  apply linear_other
  intro s' _ hI hallowed
  refine ⟨_, rfl, ?_⟩
  have hidle : ∀ result, Idle (.purged result) id := fun _ => ⟨rfl, fun _ => rfl⟩
  have hcall : CallTriple (backend.system FreshIDs) Invariant Later Later (fun _ _ => True) _ _ :=
    callRule_purge before limit order
  obtain ⟨-, hlater, -⟩ := hcall () s' trivial s' (Later.refl s') hI hallowed _ _ rfl
  refine effect_record hI hlater rfl ?_
  rcases shrinks_purge s' before limit order id with ⟨hl, -⟩ | ⟨hl, -⟩
  · have hsame : (backend.exec s' (.purge before limit order)).2.keys.executions.records.lookup id =
        s'.keys.executions.records.lookup id := hl
    rw [hsame]
    exact Or.inl ((hidle _).same _)
  · exact Or.inr ⟨hl, hidle _⟩

theorem record_method (method : Method) :
    LinearRecord id ((method.program env).map Told.call) s := by
  have hmemory : LinearOp Later (method.program env) s →
      LinearRecord id ((method.program env).map Told.call) s :=
    fun h => LinearOp.record (keeps_method env method) h id
  cases method with
  | createExecution request => exact record_createExecution env id s request
  | createPipelineRun request => exact record_createPipelineRun env id s request
  | reapCandidate target => exact record_reapCandidate env id s target
  | getExecution target => exact hmemory (linear_getExecution env s target)
  | claimCandidate draw target owner accepted lease =>
      exact hmemory (linear_claimCandidate env s draw target owner accepted lease)
  | heartbeat target token lease => exact hmemory (linear_heartbeat env s target token lease)
  | succeed target token output => exact hmemory (linear_succeed env s target token output)
  | retry target token errorText delay =>
      exact hmemory (linear_retry env s target token errorText delay)
  | fail target token errorText => exact hmemory (linear_fail env s target token errorText)
  | cancelExecution target reason => exact hmemory (linear_cancelExecution env s target reason)
  | restartExecution target availableAt =>
      exact hmemory (linear_restartExecution env s target availableAt)
  | releaseExecution target input availableAt =>
      exact hmemory (linear_releaseExecution env s target input availableAt)
  | getPipelineRun target => exact hmemory (linear_getPipelineRun env s target)
  | setPipelineRunStatus target expectedRevision status errorText =>
      exact hmemory (linear_setPipelineRunStatus env s target expectedRevision status errorText)

end Clients

/-- Clients keep the invariant of the server. -/
theorem clients_keep {p : Op Told} (h : Clients p) : Keeps FreshIDs p := by
  have hfresh : ∀ s c, FreshIDs s c → FreshIDs s c := fun _ _ h => h
  cases h with
  | call env method => exact (keeps_method env method).map
  | restartPipelineSubgraph env request distinct =>
      exact (keeps_restartPipelineSubgraph hfresh env request distinct).map
  | purge before limit order =>
      exact Triple.call (callRule_purge before limit order) fun _ => keeps_done _

/-- The answers of clients are right about the record of every execution. -/
theorem clients_record (id : UUID) {p : Op Told} (h : Clients p) (s : Server) (hI : Invariant s) :
    LinearRecord id p s := by
  cases h with
  | call env method => exact record_method env id s method
  | restartPipelineSubgraph env request distinct =>
      exact record_restartPipelineSubgraph env id s request distinct hI
  | purge before limit order => exact record_purge id s before limit order

end Ody.Redis
