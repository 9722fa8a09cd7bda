import Ody.Execution.Freshness

/-!
# Lease fencing

A claim hands out an execution under a fresh lease token. The token is good for
one outcome, is dead once the execution has left the delivery, and keeps other
workers away until the deadline that the owner last wrote, unless the delivery
is resolved or cancelled before.
-/

namespace Ody.Memory

open Library.Tables

/-! ## Steps of a run -/

/-- Some step of the sequence passes the test. -/
def Eventually (p : World → Call → Env → Bool) : Trace → World → Bool
  | [], _ => false
  | step :: rest, w => p w step.1 step.2 || Eventually p rest (w.after step.2 step.1)

/-- Some step passes the first test and a later one the second. -/
def Followed (p q : World → Call → Env → Bool) : Trace → World → Bool
  | [], _ => false
  | step :: rest, w =>
      (p w step.1 step.2 && Eventually q rest (w.after step.2 step.1)) ||
        Followed p q rest (w.after step.2 step.1)

/-- The execution and the token that a worker call names. -/
def leaseOf : Call → Option (UUID × UUID)
  | .heartbeat id token _ => some (id, token)
  | .succeed id token _ => some (id, token)
  | .retry id token _ _ => some (id, token)
  | .fail id token _ => some (id, token)
  | _ => none

/-- The execution and the token of a call that reports an outcome. -/
def outcomeOf : Call → Option (UUID × UUID)
  | .heartbeat _ _ _ => none
  | c => leaseOf c

/-- A worker call returns nil. -/
def returnsNil (env : Env) (s : MemoryStore) : Call → Bool
  | .heartbeat id token lease => (heartbeat env s id token lease).1.isOk
  | .succeed id token output => (succeed env s id token output).1.isOk
  | .retry id token errorText delay => (retry env s id token errorText delay).1.isOk
  | .fail id token errorText => (fail env s id token errorText).1.isOk
  | _ => false

/-- The status stored for an execution. -/
def statusOf (s : MemoryStore) (id : UUID) : Option Status :=
  (s.executions.lookup id).map (·.status)

/-- The stored status is a resolved one. -/
def isResolved (s : MemoryStore) (id : UUID) : Bool := (statusOf s id).any (·.isTerminal)

/-- The owner of the token reports an error and the execution waits for its next attempt. -/
def retriedBy (id token : UUID) (w : World) (c : Call) (env : Env) : Bool :=
  outcomeOf c == some (id, token) && returnsNil env w.store c &&
    statusOf (w.after env c).store id == some .retry

/-- The owner of the token reports an outcome that resolves the execution. -/
def resolvedBy (id token : UUID) (w : World) (c : Call) (env : Env) : Bool :=
  outcomeOf c == some (id, token) && returnsNil env w.store c &&
    isResolved (w.after env c).store id

/-- An operator cancels the execution. -/
def cancels (id : UUID) (w : World) (c : Call) (env : Env) : Bool :=
  match c with
  | .cancelExecution target reason =>
      target == id && (cancelExecution env w.store target reason).1.isOk
  | _ => false

/-- One of the two restart operations reopens the resolved execution. -/
def restarts (id : UUID) (w : World) (c : Call) (env : Env) : Bool :=
  (match c with
    | .restartExecution _ _ => true
    | .restartPipelineSubgraph _ => true
    | _ => false) &&
  isResolved w.store id && !isResolved (w.after env c).store id

/-- Anything but a heartbeat changes or removes the record. -/
def leaves (id : UUID) (w : World) (c : Call) (env : Env) : Bool :=
  (match c with
    | .heartbeat target _ _ => target != id
    | _ => true) &&
  (w.after env c).store.executions.lookup id != w.store.executions.lookup id

/-- The deadline after one call: an accepted heartbeat under the token sets a new one. -/
def extended (id token : UUID) (w : World) (c : Call) (env : Env) (until' : Time) : Time :=
  match c with
  | .heartbeat target key lease =>
      if target = id ∧ key = token ∧ returnsNil env w.store c = true
      then env.now + lease else until'
  | _ => until'

/-- The deadline of a delivery after a sequence of calls. -/
def deadline (id token : UUID) : Trace → World → Time → Time
  | [], _, until' => until'
  | step :: rest, w, until' =>
      deadline id token rest (w.after step.2 step.1) (extended id token w step.1 step.2 until')

/-- How many outcomes the store accepts under a token. -/
def acceptedOutcomes (token : UUID) : Trace → World → Nat
  | [], _ => 0
  | step :: rest, w =>
      (if (outcomeOf step.1).any (·.2 == token) && returnsNil step.2 w.store step.1 then 1 else 0) +
        acceptedOutcomes token rest (w.after step.2 step.1)

/-- A claim with fresh tokens delivers a record. -/
def Delivers (w : World) (env : Env) (item : Execution) (w' : World) : Prop :=
  ∃ owner keys limit lease, env.Fresh w ∧ item ∈ (claim env w.store owner keys limit lease).1 ∧
    w' = w.after env (.claim owner keys limit lease)

/-- The worlds that calls with fresh UUIDs lead to. -/
def World.Reachable (w : World) : Prop :=
  ∃ clock trace, FreshTrace trace (World.init clock) ∧ w = (World.init clock).replay trace

/-! ## Who holds a token -/

/-- The execution is delivered under the token. -/
def Holds (s : MemoryStore) (id token : UUID) : Prop :=
  ∃ item, s.executions.lookup id = some item ∧ Owned item token

theorem owned_of_not_holds {s : MemoryStore} {id token : UUID} (h : ¬Holds s id token) :
    ∃ err, owned s id token = .error err := by
  cases hown : owned s id token with
  | error err => exact ⟨err, rfl⟩
  | ok item =>
      obtain ⟨hl, -, hitem⟩ := owned_ok hown
      exact absurd ⟨item, hl, hitem⟩ h

/-- Without the lease a worker call fails and leaves the store alone. -/
theorem refused {env : Env} {s : MemoryStore} {c : Call} {id token : UUID}
    (hc : leaseOf c = some (id, token)) (h : ¬Holds s id token) :
    returnsNil env s c = false ∧ (exec env s c).2 = s := by
  obtain ⟨err, herr⟩ := owned_of_not_holds h
  cases c with
  | heartbeat target key lease =>
      cases hc
      simp [returnsNil, exec, heartbeat, herr, Except.isOk, Except.toBool]
  | succeed target key output =>
      cases hc
      simp [returnsNil, exec, succeed, herr, Except.isOk, Except.toBool]
  | retry target key errorText delay =>
      cases hc
      simp [returnsNil, exec, retry, herr, Except.isOk, Except.toBool]
  | fail target key errorText =>
      cases hc
      simp [returnsNil, exec, fail, herr, Except.isOk, Except.toBool]
  | _ => cases hc

/-- Under the lease a worker call is accepted. -/
theorem returnsNil_of_holds {env : Env} {s : MemoryStore} {c : Call} {id token : UUID}
    (hc : leaseOf c = some (id, token)) (h : Holds s id token) : returnsNil env s c = true := by
  obtain ⟨item, hl, hitem⟩ := h
  have hown := owned_eq_ok hl hitem
  cases c with
  | heartbeat target key lease =>
      cases hc
      simp [returnsNil, heartbeat, hown, Except.isOk, Except.toBool]
  | succeed target key output =>
      cases hc
      simp [returnsNil, succeed, hown, Except.isOk, Except.toBool]
  | retry target key errorText delay =>
      cases hc
      simp only [returnsNil, retry, hown]
      split <;> rfl
  | fail target key errorText =>
      cases hc
      simp [returnsNil, fail, hown, Except.isOk, Except.toBool]
  | _ => cases hc

/-- An accepted worker call holds the lease. -/
theorem holds_of_returnsNil {env : Env} {s : MemoryStore} {c : Call} {id token : UUID}
    (hc : leaseOf c = some (id, token)) (h : returnsNil env s c = true) : Holds s id token := by
  by_contra hnot
  rw [(refused hc hnot).1] at h
  cases h

theorem leaseOf_outcome {c : Call} {lease : UUID × UUID} (h : outcomeOf c = some lease) :
    leaseOf c = some lease := by
  cases c <;> first | exact h | cases h

/-- A call gives a token to an execution only by claiming it. -/
theorem holds_after {env : Env} {s : MemoryStore} {c : Call} {id token : UUID}
    (h : Holds (exec env s c).2 id token) :
    Holds s id token ∨ ∃ owner keys limit lease i item, c = .claim owner keys limit lease ∧
      (candidates env s keys limit)[i]? = some item ∧ item.id = id ∧ token = env.newUUID i := by
  obtain ⟨item', hl, hs, hnil, htoken⟩ := h
  cases exec_effect env s c id with
  | same hsame _ => exact Or.inl ⟨item', hsame ▸ hl, hs, hnil, htoken⟩
  | inserted _ _ hnew _ =>
      cases hnew.symm.trans hl
      cases hs
  | moved hold hnew _ t =>
      cases hnew.symm.trans hl
      cases t with
      | claim _ hi =>
          exact Or.inr ⟨_, _, _, _, _, _, rfl, hi, s.executions_keyed _ _ hold, htoken.symm⟩
      | heartbeat hown => exact Or.inl ⟨_, hold, hown.1, hnil, htoken⟩
      | reset _ _ =>
          simp only [subgraphReset, restarted] at hs
          split at hs <;> cases hs
      | _ => cases hs
  | deleted hgone _ => exact absurd (hgone.symm.trans hl) (by simp)

/-- The token was handed out and the execution is not delivered under it. -/
def Lost (w : World) (id token : UUID) : Prop := token ∈ w.issued ∧ ¬Holds w.store id token

theorem Lost.after {w : World} {id token : UUID} (h : Lost w id token) {env : Env}
    (hfresh : env.Fresh w) (c : Call) : Lost (w.after env c) id token := by
  refine ⟨w.issued_subset env c h.1, ?_⟩
  intro hholds
  rcases holds_after hholds with hold | ⟨_, _, _, _, i, _, _, _, _, rfl⟩
  · exact h.2 hold
  · exact hfresh i h.1

theorem Lost.replay {w : World} {id token : UUID} (h : Lost w id token) (trace : Trace)
    (hfresh : FreshTrace trace w) : Lost (w.replay trace) id token := by
  induction trace generalizing w with
  | nil => exact h
  | cons step rest ih => exact ih (h.after hfresh.1 step.1) hfresh.2

/-- No two executions are delivered under one token. -/
def World.Exclusive (w : World) : Prop :=
  ∀ id id' token, Holds w.store id token → Holds w.store id' token → id = id'

theorem World.Exclusive.after {w : World} (h : w.Exclusive) (hknown : w.Known) {env : Env}
    (hfresh : env.Fresh w) (c : Call) : (w.after env c).Exclusive := by
  have hissued : ∀ id token, Holds w.store id token → token ∈ w.issued := by
    rintro id token ⟨item, hl, -, hnil, rfl⟩
    exact hknown.tokens id item hl hnil
  intro id id' token hid hid'
  rcases holds_after hid with hold | ⟨_, keys, limit, _, i, item, hc, hi, rfl, rfl⟩
  · rcases holds_after hid' with hold' | ⟨_, _, _, _, i, _, _, _, _, rfl⟩
    · exact h id id' token hold hold'
    · exact absurd (hissued id _ hold) (hfresh i)
  · rcases holds_after hid' with hold' | ⟨_, keys', limit', _, i', item', hc', hi', rfl, heq⟩
    · exact absurd (hissued id' _ hold') (hfresh i)
    · -- one claim hands out each of its tokens once
      cases hc.symm.trans hc'
      obtain rfl := env.newUUID_injective heq
      cases hi.symm.trans hi'
      rfl

theorem replay_exclusive (trace : Trace) (w : World) (hfresh : FreshTrace trace w)
    (hknown : w.Known) (h : w.Exclusive) :
    (w.replay trace).Known ∧ (w.replay trace).Exclusive := by
  induction trace generalizing w with
  | nil => exact ⟨hknown, h⟩
  | cons step rest ih =>
      exact ih (w.after step.2 step.1) hfresh.2 (hknown.after step.2 step.1)
        (h.after hknown hfresh.1 step.1)

theorem World.init_exclusive (clock : Time) : (World.init clock).Exclusive := by
  rintro id id' token ⟨item, hl, -⟩
  simp [World.init, newMemoryStore] at hl

/-! ## One outcome for each token -/

/-- An accepted outcome ends the delivery. -/
theorem outcome_releases {env : Env} {s : MemoryStore} {c : Call} {id token : UUID}
    (hc : outcomeOf c = some (id, token)) (h : returnsNil env s c = true) :
    ¬Holds (exec env s c).2 id token := by
  obtain ⟨item, hl, hitem⟩ := holds_of_returnsNil (leaseOf_outcome hc) h
  have hown := owned_eq_ok hl hitem
  obtain rfl := s.executions_keyed _ _ hl
  rintro ⟨item', hl', hs, -⟩
  cases c with
  | succeed target key output =>
      cases hc
      simp only [exec, succeed, hown, appendEvent_executions, put_lookup] at hl'
      cases (if_pos rfl).symm.trans hl'
      cases hs
  | retry target key errorText delay =>
      cases hc
      simp only [exec, retry, hown] at hl'
      split at hl'
      · rw [appendEvent_executions, put_lookup] at hl'
        cases (if_pos rfl).symm.trans hl'
        cases hs
      · rw [appendEvent_executions, put_lookup] at hl'
        cases (if_pos rfl).symm.trans hl'
        cases hs
  | fail target key errorText =>
      cases hc
      simp only [exec, fail, hown, appendEvent_executions, put_lookup] at hl'
      cases (if_pos rfl).symm.trans hl'
      cases hs
  | _ => cases hc

/-- A token that no execution is delivered under accepts nothing any more. -/
theorem outcomeOf_of_any {c : Call} {token : UUID}
    (h : (outcomeOf c).any (·.2 == token) = true) : ∃ id, outcomeOf c = some (id, token) := by
  obtain ⟨⟨id, key⟩, hc, hkey⟩ := (Option.any_eq_true _ _).mp h
  obtain rfl : key = token := beq_iff_eq.mp hkey
  exact ⟨id, hc⟩

theorem acceptedOutcomes_lost (token : UUID) (trace : Trace) (w : World)
    (hfresh : FreshTrace trace w) (h : ∀ id, Lost w id token) :
    acceptedOutcomes token trace w = 0 := by
  induction trace generalizing w with
  | nil => rfl
  | cons step rest ih =>
      have hrest := ih (w.after step.2 step.1) hfresh.2 fun id => (h id).after hfresh.1 step.1
      rw [acceptedOutcomes, hrest, if_neg]
      rw [Bool.and_eq_true]
      rintro ⟨htoken, hnil⟩
      obtain ⟨id, hc⟩ := outcomeOf_of_any htoken
      exact (h id).2 (holds_of_returnsNil (leaseOf_outcome hc) hnil)

theorem acceptedOutcomes_le_one (token : UUID) (trace : Trace) (w : World)
    (hfresh : FreshTrace trace w) (hknown : w.Known) (h : w.Exclusive) :
    acceptedOutcomes token trace w ≤ 1 := by
  induction trace generalizing w with
  | nil => exact Nat.zero_le 1
  | cons step rest ih =>
      have hrest := ih (w.after step.2 step.1) hfresh.2 (hknown.after step.2 step.1)
        (h.after hknown hfresh.1 step.1)
      rw [acceptedOutcomes]
      split
      · next haccepted =>
        rw [Bool.and_eq_true] at haccepted
        obtain ⟨htoken, hnil⟩ := haccepted
        obtain ⟨id, hc⟩ := outcomeOf_of_any htoken
        have hholds := holds_of_returnsNil (leaseOf_outcome hc) hnil
        obtain ⟨item, hl, -, hne, rfl⟩ := hholds
        have hissued := hknown.tokens id item hl hne
        -- after the accepted outcome no execution is delivered under the token
        have hlost : ∀ other, Lost (w.after step.2 step.1) other item.leaseToken := by
          intro other
          by_cases heq : other = id
          · subst heq
            exact ⟨w.issued_subset _ _ hissued, outcome_releases hc hnil⟩
          · have hother : ¬Holds w.store other item.leaseToken := fun hh =>
              heq (h other id _ hh (holds_of_returnsNil (leaseOf_outcome hc) hnil))
            exact Lost.after ⟨hissued, hother⟩ hfresh.1 step.1
        rw [acceptedOutcomes_lost _ rest _ hfresh.2 hlost]
      · omega

/-! ## A delivery that was left -/

theorem leaves_lost {w : World} {env : Env} {c : Call} {id token : UUID} (hfresh : env.Fresh w)
    (hissued : token ∈ w.issued) (h : leaves id w c env = true) :
    Lost (w.after env c) id token := by
  refine ⟨w.issued_subset env c hissued, ?_⟩
  simp only [leaves, Bool.and_eq_true, bne_iff_ne, ne_eq] at h
  obtain ⟨hbeat, hchanged⟩ := h
  rintro ⟨item', hl, hs, hnil, htoken⟩
  have hl' : (exec env w.store c).2.executions.lookup id = some item' := hl
  cases exec_effect env w.store c id with
  | same hsame _ => exact hchanged hsame
  | inserted _ _ hnew _ =>
      cases hnew.symm.trans hl'
      cases hs
  | moved hold hnew _ t =>
      cases hnew.symm.trans hl'
      cases t with
      | claim _ hi =>
          rw [← htoken] at hissued
          exact hfresh _ hissued
      | heartbeat hown =>
          have hid := w.store.executions_keyed _ _ hold
          simp [hid] at hbeat
      | reset _ _ =>
          simp only [subgraphReset, restarted] at hs
          split at hs <;> cases hs
      | _ => cases hs
  | deleted hgone _ => exact absurd (hgone.symm.trans hl') (by simp)

theorem eventually_leaves_lost {w : World} {id token : UUID} (trace : Trace)
    (hfresh : FreshTrace trace w) (hissued : token ∈ w.issued)
    (h : Eventually (leaves id) trace w = true) : Lost (w.replay trace) id token := by
  induction trace generalizing w with
  | nil => cases h
  | cons step rest ih =>
      rw [Eventually, Bool.or_eq_true] at h
      rcases h with hnow | hlater
      · exact (leaves_lost hfresh.1 hissued hnow).replay rest hfresh.2
      · exact ih hfresh.2 (w.issued_subset _ _ hissued) hlater

/-! ## The next delivery -/

theorem clock_le_replay (trace : Trace) (w : World) (h : MonotoneTrace trace w.clock) :
    w.clock ≤ (w.replay trace).clock := by
  induction trace generalizing w with
  | nil => exact le_rfl
  | cons step rest ih => exact h.1.trans (ih (w.after step.2 step.1) h.2)

/-- A removed execution never comes back. -/
theorem missing_replay {id : UUID} (trace : Trace) (w : World) (hfresh : FreshTrace trace w)
    (hissued : id ∈ w.issued) (h : w.store.executions.lookup id = none) :
    (w.replay trace).store.executions.lookup id = none := by
  induction trace generalizing w with
  | nil => exact h
  | cons step rest ih =>
      obtain ⟨c, env⟩ := step
      refine ih (w.after env c) hfresh.2 (w.issued_subset _ _ hissued) ?_
      change (exec env w.store c).2.executions.lookup id = none
      cases exec_effect env w.store c id with
      | same hsame _ => exact hsame.trans h
      | inserted _ _ _ _ => exact absurd hissued (hfresh.1 0)
      | moved hold _ _ _ => exact absurd (hold.symm.trans h) (by simp)
      | deleted hgone _ => exact hgone

theorem isResolved_iff {s : MemoryStore} {id : UUID} {item : Execution}
    (h : s.executions.lookup id = some item) : isResolved s id = item.status.isTerminal := by
  simp [isResolved, statusOf, h]

/-- A resolved execution is delivered again only after a restart. -/
theorem resolved_restarts {id : UUID} {item last : Execution} (trace : Trace) (w : World)
    (hfresh : FreshTrace trace w) (hissued : id ∈ w.issued)
    (hl : w.store.executions.lookup id = some item) (h : item.status.isTerminal = true)
    (hend : (w.replay trace).store.executions.lookup id = some last)
    (hopen : last.status.isTerminal = false) : Eventually (restarts id) trace w = true := by
  induction trace generalizing w item with
  | nil =>
      cases hl.symm.trans hend
      rw [h] at hopen
      cases hopen
  | cons step rest ih =>
      obtain ⟨c, env⟩ := step
      have hissued' := w.issued_subset env c hissued
      rw [Eventually, Bool.or_eq_true]
      cases exec_effect env w.store c id with
      | same hsame _ =>
          exact Or.inr (ih (w.after env c) hfresh.2 hissued' (hsame.trans hl) h hend)
      | inserted _ _ _ _ => exact absurd hissued (hfresh.1 0)
      | moved hold hnew _ t =>
          cases hl.symm.trans hold
          obtain ⟨hreopened, hcall⟩ := t.of_terminal h
          have hbefore : isResolved w.store id = true := (isResolved_iff hl).trans h
          have hafter : isResolved (w.after env c).store id = false :=
            (isResolved_iff hnew).trans hreopened
          left
          rcases hcall with ⟨-, at', rfl⟩ | ⟨request, rfl, -⟩
          · simp [restarts, hbefore, hafter]
          · simp [restarts, hbefore, hafter]
      | deleted hgone _ =>
          have hnone := missing_replay rest (w.after env _) hfresh.2 hissued' hgone
          exact absurd (hnone.symm.trans hend) (by simp)

/-- Only a heartbeat under the lease moves the deadline. -/
theorem extended_eq {id token : UUID} {w : World} {c : Call} {env : Env} (until' : Time)
    (h : ∀ lease, c = .heartbeat id token lease → ¬Holds w.store id token) :
    extended id token w c env until' = until' := by
  unfold extended
  split
  · refine if_neg ?_
    rintro ⟨rfl, rfl, hnil⟩
    exact h _ rfl (holds_of_returnsNil rfl hnil)
  · rfl

theorem deadline_lost {id token : UUID} (trace : Trace) (w : World) (hfresh : FreshTrace trace w)
    (h : Lost w id token) (until' : Time) : deadline id token trace w until' = until' := by
  induction trace generalizing w with
  | nil => rfl
  | cons step rest ih =>
      rw [deadline, extended_eq until' fun _ _ => h.2]
      exact ih (w.after step.2 step.1) hfresh.2 (h.after hfresh.1 step.1)

/-- While the delivery lasts its stored deadline is the one that the heartbeats set. -/
theorem held_deadline {w : World} {env : Env} {c : Call} {id token : UUID}
    {item item' : Execution} (hfresh : env.Fresh w) (hknown : w.Known)
    (hl : w.store.executions.lookup id = some item) (hown : Owned item token)
    (hl' : (w.after env c).store.executions.lookup id = some item') (hown' : Owned item' token) :
    item'.leaseUntil = extended id token w c env item.leaseUntil := by
  have hl'' : (exec env w.store c).2.executions.lookup id = some item' := hl'
  by_cases hbeat : ∃ lease, c = .heartbeat id token lease
  · obtain ⟨lease, rfl⟩ := hbeat
    have hok := owned_eq_ok hl hown
    obtain rfl := w.store.executions_keyed _ _ hl
    simp only [exec, heartbeat, hok, put_lookup, if_true] at hl''
    cases hl''
    simp [extended, returnsNil, heartbeat, hok, Except.isOk, Except.toBool]
  · rw [extended_eq item.leaseUntil fun lease hc => absurd ⟨lease, hc⟩ hbeat]
    obtain ⟨hs, hnil, rfl⟩ := hown
    obtain ⟨hs', -, htoken'⟩ := hown'
    cases exec_effect env w.store c id with
    | same hsame _ =>
        cases (hsame.trans hl).symm.trans hl''
        rfl
    | inserted _ _ hnew _ =>
        cases hnew.symm.trans hl''
        cases hs'
    | moved hold hnew _ t =>
        cases hl.symm.trans hold
        cases hnew.symm.trans hl''
        cases t with
        | claim _ hi =>
            have hissued := hknown.tokens id item hl hnil
            rw [← htoken'] at hissued
            exact absurd hissued (hfresh _)
        | heartbeat hheld =>
            obtain rfl := w.store.executions_keyed _ _ hl
            exact absurd ⟨_, by rw [hheld.2.2]⟩ hbeat
        | reset _ _ =>
            simp only [subgraphReset, restarted] at hs'
            split at hs' <;> cases hs'
        | _ => cases hs'
    | deleted hgone _ => exact absurd (hgone.symm.trans hl'') (by simp)

/-- How a delivery can end. -/
inductive Ends (id token : UUID) (w : World) (c : Call) (env : Env) (until' : Time) : Prop
  | retried (h : retriedBy id token w c env = true)
  | resolved (h : resolvedBy id token w c env = true)
  | cancelled (h : cancels id w c env = true) (hr : isResolved (w.after env c).store id = true)
  | expired (h : until' ≤ env.now) (hc : leaseOf c = none)
  | removed (h : (w.after env c).store.executions.lookup id = none)

/-- An accepted outcome that leaves the execution resolved. -/
theorem resolvedBy_of_owned {w : World} {env : Env} {c : Call} {id token : UUID}
    {item item' : Execution} (hc : outcomeOf c = some (id, token))
    (hl : w.store.executions.lookup id = some item) (hown : Owned item token)
    (hnew : (w.after env c).store.executions.lookup id = some item')
    (ht : item'.status.isTerminal = true) : resolvedBy id token w c env = true := by
  have hnil : returnsNil env w.store c = true :=
    returnsNil_of_holds (leaseOf_outcome hc) ⟨item, hl, hown⟩
  simp [resolvedBy, hc, hnil, isResolved_iff hnew, ht]

theorem delivery_ends {w : World} {env : Env} {c : Call} {id token : UUID} {item : Execution}
    (hfresh : env.Fresh w) (hknown : w.Known) (hl : w.store.executions.lookup id = some item)
    (hown : Owned item token) (hgone : ¬Holds (w.after env c).store id token) :
    Ends id token w c env item.leaseUntil := by
  have hs := hown.1
  cases exec_effect env w.store c id with
  | same hsame _ => exact absurd ⟨item, hsame.trans hl, hown⟩ hgone
  | inserted _ _ _ _ => exact absurd (hknown.executions _ _ hl) (hfresh 0)
  | moved hold hnew _ t =>
      cases hl.symm.trans hold
      obtain rfl := w.store.executions_keyed _ _ hl
      have htoken : ∀ key, Owned item key → key = token := fun _ hkey =>
        hkey.2.2.symm.trans hown.2.2
      cases t with
      | claim hc _ =>
          refine Ends.expired ?_ rfl
          rcases (claimable_iff.mp hc).2.2.1 with h | h | ⟨-, h⟩
          · simp [hs] at h
          · simp [hs] at h
          · exact h
      | reap hc => exact Ends.expired (reapable_iff.mp hc).2.1 rfl
      | heartbeat _ => exact absurd ⟨_, hnew, hs, hown.2⟩ hgone
      | succeed hheld =>
          obtain rfl := htoken _ hheld
          exact Ends.resolved (resolvedBy_of_owned rfl hl hheld hnew rfl)
      | exhaust hheld _ =>
          obtain rfl := htoken _ hheld
          exact Ends.resolved (resolvedBy_of_owned rfl hl hheld hnew rfl)
      | retry hheld _ =>
          obtain rfl := htoken _ hheld
          refine Ends.retried ?_
          simp only [retriedBy, Bool.and_eq_true, beq_iff_eq]
          exact ⟨⟨rfl, returnsNil_of_holds rfl ⟨item, hl, hheld⟩⟩,
            congrArg (Option.map Execution.status) hnew⟩
      | fail hheld =>
          obtain rfl := htoken _ hheld
          exact Ends.resolved (resolvedBy_of_owned rfl hl hheld hnew rfl)
      | cancel ht =>
          refine Ends.cancelled ?_ (isResolved_iff hnew)
          simp [cancels, cancelExecution, hl, ht, Except.isOk, Except.toBool]
      | restart _ hidle => simp [hs, Status.isActive] at hidle
      | reset _ hidle => simp [hs, Status.isActive] at hidle
      | release hb => simp [hs] at hb
  | deleted hgone _ => exact Ends.removed hgone

/-- A delivery that ends with a call is retried, resolved and restarted, cancelled and restarted,
or past its deadline, if the execution is unresolved later. -/
theorem delivery_over {id token : UUID} {item last : Execution} {now : Time} {c : Call} {env : Env}
    {rest : Trace} {w : World} (hfresh : FreshTrace ((c, env) :: rest) w)
    (hmono : MonotoneTrace ((c, env) :: rest) w.clock) (hknown : w.Known)
    (hl : w.store.executions.lookup id = some item) (hown : Owned item token)
    (hend : (w.replay ((c, env) :: rest)).store.executions.lookup id = some last)
    (hopen : last.status.isTerminal = false) (hnow : (w.replay ((c, env) :: rest)).clock ≤ now)
    (hgone : ¬Holds (w.after env c).store id token) :
    retriedBy id token w c env = true ∨
      (resolvedBy id token w c env = true ∧
        Eventually (restarts id) rest (w.after env c) = true) ∨
      (cancels id w c env = true ∧ Eventually (restarts id) rest (w.after env c) = true) ∨
      deadline id token rest (w.after env c) (extended id token w c env item.leaseUntil) ≤ now := by
  have hissued := w.issued_subset env c (hknown.executions id item hl)
  have hrestarts : isResolved (w.after env c).store id = true →
      Eventually (restarts id) rest (w.after env c) = true := by
    intro hr
    cases hl' : (w.after env c).store.executions.lookup id with
    | none => simp [isResolved, statusOf, hl'] at hr
    | some item' =>
        rw [isResolved_iff hl'] at hr
        exact resolved_restarts rest _ hfresh.2 hissued hl' hr hend hopen
  cases delivery_ends hfresh.1 hknown hl hown hgone with
  | retried h => exact Or.inl h
  | resolved h =>
      have hr : isResolved (w.after env c).store id = true := by
        simp only [resolvedBy, Bool.and_eq_true] at h
        exact h.2
      exact Or.inr (Or.inl ⟨h, hrestarts hr⟩)
  | cancelled h hr => exact Or.inr (Or.inr (Or.inl ⟨h, hrestarts hr⟩))
  | expired h hc =>
      right; right; right
      -- the token is lost, so no heartbeat moves the deadline any more
      have htoken := hknown.tokens id item hl (hown.2.2 ▸ hown.2.1)
      have hlost : Lost (w.after env c) id token :=
        ⟨w.issued_subset env c (hown.2.2 ▸ htoken), hgone⟩
      rw [deadline_lost rest _ hfresh.2 hlost, extended_eq]
      · have hclock := clock_le_replay rest (w.after env c) hmono.2
        exact (h.trans hclock).trans hnow
      · rintro lease rfl
        cases hc
  | removed h =>
      have hnone := missing_replay rest (w.after env c) hfresh.2 hissued h
      exact absurd (hnone.symm.trans hend) (by simp)

/-- A later claim finds a delivery retried, resolved and restarted, cancelled and
restarted, or past its deadline. -/
theorem next_delivery {id token : UUID} {item last : Execution} {keys : List TaskKey} {now : Time}
    (trace : Trace) (w : World) (hfresh : FreshTrace trace w)
    (hmono : MonotoneTrace trace w.clock) (hknown : w.Known)
    (hl : w.store.executions.lookup id = some item) (hown : Owned item token)
    (hend : (w.replay trace).store.executions.lookup id = some last)
    (hclaim : claimable keys now last = true) (hnow : (w.replay trace).clock ≤ now) :
    Eventually (retriedBy id token) trace w = true ∨
      Followed (resolvedBy id token) (restarts id) trace w = true ∨
      Followed (cancels id) (restarts id) trace w = true ∨
      deadline id token trace w item.leaseUntil ≤ now := by
  have hopen : last.status.isTerminal = false := by
    rcases (claimable_iff.mp hclaim).2.2.1 with hs | hs | ⟨hs, -⟩ <;> simp [hs, Status.isTerminal]
  induction trace generalizing w item with
  | nil =>
      cases hl.symm.trans hend
      right; right; right
      rcases (claimable_iff.mp hclaim).2.2.1 with hs | hs | ⟨-, hs⟩
      · simp [hown.1] at hs
      · simp [hown.1] at hs
      · exact hs
  | cons step rest ih =>
      obtain ⟨c, env⟩ := step
      rw [Eventually, Followed, Followed, deadline]
      by_cases hholds : Holds (w.after env c).store id token
      · -- the delivery goes on
        obtain ⟨item', hl', hown'⟩ := hholds
        have huntil := held_deadline hfresh.1 hknown hl hown hl' hown'
        have hrest := ih (w.after env c) hfresh.2 hmono.2 (hknown.after env c) hl' hown' hend hnow
        rw [huntil] at hrest
        rcases hrest with h | h | h | h
        · exact Or.inl (by simp [h])
        · exact Or.inr (Or.inl (by simp [h]))
        · exact Or.inr (Or.inr (Or.inl (by simp [h])))
        · exact Or.inr (Or.inr (Or.inr h))
      · rcases delivery_over hfresh hmono hknown hl hown hend hopen hnow hholds with
          h | ⟨h, hr⟩ | ⟨h, hr⟩ | h
        · exact Or.inl (by simp [h])
        · exact Or.inr (Or.inl (by simp [h, hr]))
        · exact Or.inr (Or.inr (Or.inl (by simp [h, hr])))
        · exact Or.inr (Or.inr (Or.inr h))

/-! ## Fencing along every run -/

theorem Delivers.held {w w' : World} {env : Env} {item : Execution} (h : Delivers w env item w') :
    w'.store.executions.lookup item.id = some item ∧ Owned item item.leaseToken := by
  obtain ⟨owner, keys, limit, lease, -, hmem, rfl⟩ := h
  have hnodup : ((claim env w.store owner keys limit lease).1.map (·.id)).Nodup := by
    rw [claim_ids]
    exact candidates_ids_nodup env w.store keys limit
  refine ⟨(saveAll_saved env .started (fun _ => "") w.store _ hnodup item hmem).1, ?_⟩
  obtain ⟨i, candidate, -, rfl⟩ := mem_claim env w.store hmem
  exact ⟨rfl, env.newUUID_ne_nil i, rfl⟩

/-- The worlds of a run mention only issued UUIDs, and tokens are exclusive. -/
theorem World.Reachable.known {w : World} (h : w.Reachable) : w.Known ∧ w.Exclusive := by
  obtain ⟨clock, trace, hfresh, rfl⟩ := h
  exact replay_exclusive trace _ hfresh (World.init_known clock) (World.init_exclusive clock)

/-- Lease fencing. A token accepts at most one outcome; once the execution has left the
delivery every call under its token fails and changes nothing; and between two deliveries
the first one was resolved by its owner, cancelled and restarted, or its deadline passed. -/
theorem lease_fencing :
    (∀ clock trace token, FreshTrace trace (World.init clock) →
      acceptedOutcomes token trace (World.init clock) ≤ 1) ∧
    (∀ w env item w', w.Reachable → Delivers w env item w' → ∀ trace, FreshTrace trace w' →
      (Eventually (leaves item.id) trace w' = true → ∀ env' c,
        leaseOf c = some (item.id, item.leaseToken) →
          returnsNil env' (w'.replay trace).store c = false ∧
            (exec env' (w'.replay trace).store c).2 = (w'.replay trace).store) ∧
      (MonotoneTrace trace w'.clock → ∀ env' item' w'', (w'.replay trace).clock ≤ env'.now →
        Delivers (w'.replay trace) env' item' w'' → item'.id = item.id →
          Eventually (retriedBy item.id item.leaseToken) trace w' = true ∨
            Followed (resolvedBy item.id item.leaseToken) (restarts item.id) trace w' = true ∨
            Followed (cancels item.id) (restarts item.id) trace w' = true ∨
            deadline item.id item.leaseToken trace w' item.leaseUntil ≤ env'.now)) := by
  refine ⟨?_, ?_⟩
  · intro clock trace token hfresh
    exact acceptedOutcomes_le_one token trace _ hfresh (World.init_known clock)
      (World.init_exclusive clock)
  · intro w env item w' hw hdelivers trace hfresh
    obtain ⟨hl, hown⟩ := hdelivers.held
    obtain ⟨owner, keys, limit, lease, -, -, rfl⟩ := hdelivers
    have hknown := hw.known.1.after env (.claim owner keys limit lease)
    refine ⟨?_, ?_⟩
    · intro hleft env' c hc
      have hissued := hknown.tokens _ _ hl hown.2.1
      exact refused hc (eventually_leaves_lost trace hfresh hissued hleft).2
    · rintro hmono env' item' w'' hnow ⟨owner', keys', limit', lease', -, hmem, -⟩ hid
      obtain ⟨i, candidate, hi, rfl⟩ := mem_claim env' _ hmem
      obtain ⟨hlast, hclaimable⟩ := mem_candidates env' _ (List.mem_of_getElem? hi)
      have hend : _ = some candidate := hlast
      rw [show candidate.id = item.id from hid] at hend
      exact next_delivery trace _ hfresh hmono hknown hl hown hend hclaimable hnow

/-! ## A delivery that an operator cancels -/

/-- One execution waits in the store. -/
def waitingWorld : World :=
  (World.init 5).replay [(.createExecution standaloneRequest, Env.at 5 0)]

/-- The execution is delivered until time 16. -/
def deliveredWorld : World :=
  waitingWorld.after (Env.at 6 1) (.claim "worker" [⟨"email", 1⟩] 1 10)

/-- An operator cancels the delivery and restarts the execution. -/
def cancelTrace : Trace :=
  [(.cancelExecution 1 "stop", Env.at 7 2), (.restartExecution 1 zeroTime, Env.at 8 2)]

/-- The record of the first delivery. -/
def firstDelivery : Execution :=
  claimed (Env.at 6 1) "worker" 10 2 (created (Env.at 5 0) standaloneRequest)

/-- The record of the delivery after the restart. -/
def nextDelivery : Execution :=
  claimed (Env.at 9 2) "worker" 10 3 (restarted .pending 8
    (cancelled (Env.at 7 2) "stop" firstDelivery))

theorem waitingWorld_reachable : waitingWorld.Reachable :=
  ⟨5, [(.createExecution standaloneRequest, Env.at 5 0)],
    ⟨Env.at_fresh 5 (by decide), trivial⟩, rfl⟩

theorem firstDelivery_delivers :
    Delivers waitingWorld (Env.at 6 1) firstDelivery deliveredWorld :=
  ⟨"worker", [⟨"email", 1⟩], 1, 10, Env.at_fresh 6 (by decide), by decide, rfl⟩

theorem cancelTrace_fresh : FreshTrace cancelTrace deliveredWorld :=
  ⟨Env.at_fresh 7 (by decide), Env.at_fresh 8 (by decide), trivial⟩

theorem nextDelivery_delivers :
    Delivers (deliveredWorld.replay cancelTrace) (Env.at 9 2) nextDelivery
      ((deliveredWorld.replay cancelTrace).after (Env.at 9 2)
        (.claim "worker" [⟨"email", 1⟩] 1 10)) :=
  ⟨"worker", [⟨"email", 1⟩], 1, 10, Env.at_fresh 9 (by decide), by decide, rfl⟩

theorem cancelTrace_monotone : MonotoneTrace cancelTrace deliveredWorld.clock :=
  ⟨by decide, by decide, trivial⟩

/-- The owner of the first delivery resolved nothing, and its deadline has not passed. -/
theorem redelivery_without_resolution :
    ¬∀ w env item w', w.Reachable → Delivers w env item w' → ∀ trace, FreshTrace trace w' →
      MonotoneTrace trace w'.clock → ∀ env' item' w'', (w'.replay trace).clock ≤ env'.now →
        Delivers (w'.replay trace) env' item' w'' → item'.id = item.id →
          Eventually (retriedBy item.id item.leaseToken) trace w' = true ∨
            Followed (resolvedBy item.id item.leaseToken) (restarts item.id) trace w' = true ∨
            deadline item.id item.leaseToken trace w' item.leaseUntil ≤ env'.now := by
  intro h
  have hclaimed := h _ _ _ _ waitingWorld_reachable firstDelivery_delivers cancelTrace
    cancelTrace_fresh cancelTrace_monotone _ _ _ (by decide) nextDelivery_delivers rfl
  revert hclaimed
  decide

/-- The owner reports the same outcome twice. -/
def doubleOutcome : Trace :=
  [(.createExecution standaloneRequest, Env.at 5 0),
   (.claim "worker" [⟨"email", 1⟩] 1 10, Env.at 6 1),
   (.succeed 1 2 "1", Env.at 7 2), (.succeed 1 2 "1", Env.at 8 2)]

theorem lease_fencing_of_cancelTrace :
    acceptedOutcomes 2 doubleOutcome (World.init 5) ≤ 1 ∧
      (returnsNil (Env.at 9 2) (deliveredWorld.replay cancelTrace).store (.succeed 1 2 "1") = false ∧
        (exec (Env.at 9 2) (deliveredWorld.replay cancelTrace).store (.succeed 1 2 "1")).2 =
          (deliveredWorld.replay cancelTrace).store) ∧
      (Eventually (retriedBy 1 2) cancelTrace deliveredWorld = true ∨
        Followed (resolvedBy 1 2) (restarts 1) cancelTrace deliveredWorld = true ∨
        Followed (cancels 1) (restarts 1) cancelTrace deliveredWorld = true ∨
        deadline 1 2 cancelTrace deliveredWorld 16 ≤ 9) := by
  obtain ⟨hleft, hnext⟩ := lease_fencing.2 _ _ _ _ waitingWorld_reachable firstDelivery_delivers
    cancelTrace cancelTrace_fresh
  have hfresh : FreshTrace doubleOutcome (World.init 5) :=
    ⟨Env.at_fresh 5 (by decide), Env.at_fresh 6 (by decide), Env.at_fresh 7 (by decide),
      Env.at_fresh 8 (by decide), trivial⟩
  refine ⟨lease_fencing.1 5 doubleOutcome 2 hfresh,
    hleft (by decide) (Env.at 9 2) (.succeed 1 2 "1") rfl, ?_⟩
  exact hnext cancelTrace_monotone (Env.at 9 2) nextDelivery _ (by decide) nextDelivery_delivers rfl

end Ody.Memory
