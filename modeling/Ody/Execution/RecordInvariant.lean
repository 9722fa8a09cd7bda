import Ody.Execution.Effects

/-!
# The invariant of an execution record

Each mutating method resets its own subset of the record's fields. The fields
stay consistent with the status along every sequence of calls, whatever their
arguments, and an expired delivery is always left to exactly one of the two
operations that recover it.
-/

namespace Ody.Memory

open Library.Tables

/-- The fields of a stored record that its status determines. -/
structure RecordInvariant (item : Execution) : Prop where
  token : item.leaseToken ≠ nilUUID ↔ item.status = .running
  lease : item.status ≠ .running → item.leaseOwner = "" ∧ item.leaseUntil = zeroTime
  finished : item.finishedAt ≠ none ↔ item.status.isTerminal = true
  maxAttempts : 1 ≤ item.maxAttempts
  attempt : 0 ≤ item.attempt ∧ item.attempt ≤ item.maxAttempts
  waiting : item.status = .pending ∨ item.status = .blocked → item.attempt = 0
  retrying : item.status = .retry → 1 ≤ item.attempt ∧ item.attempt < item.maxAttempts
  running : item.status = .running → 1 ≤ item.attempt
  started : item.startedAt = none ↔ item.attempt = 0
  output : item.output ≠ "" → item.status = .succeeded
  blocked : item.status = .blocked → item.pipelineRunID ≠ none

theorem created_recordInvariant (env : Env) (request : CreateExecution) :
    RecordInvariant (created env request) := by
  have hmax : 1 ≤ (created env request).maxAttempts := by
    simp only [created]
    split <;> omega
  refine ⟨?_, ?_, ?_, hmax, ?_, ?_, ?_, ?_, ?_, ?_, ?_⟩
  case refine_4 =>
    have hzero : (created env request).attempt = 0 := rfl
    omega
  all_goals simp [created, Status.isTerminal]

namespace RecordInvariant

variable {item item' : Execution}

/-- Only a succeeded execution has an output. -/
theorem output_eq_empty (h : RecordInvariant item) (hs : item.status ≠ .succeeded) :
    item.output = "" := by
  by_contra hne
  exact hs (h.output hne)

/-- An unresolved execution has no finish time. -/
theorem finishedAt_eq_none (h : RecordInvariant item) (hs : item.status.isTerminal = false) :
    item.finishedAt = none := by
  by_contra hne
  rw [h.finished.mp hne] at hs
  cases hs

/-- A resolution that clears the lease and keeps the attempt fields. -/
theorem resolved (h : RecordInvariant item) (hstatus : item'.status.isTerminal = true)
    (hlease : item'.leaseToken = nilUUID ∧ item'.leaseOwner = "" ∧ item'.leaseUntil = zeroTime)
    (hfinished : item'.finishedAt ≠ none)
    (hkept : item'.attempt = item.attempt ∧ item'.maxAttempts = item.maxAttempts ∧
      item'.startedAt = item.startedAt)
    (houtput : item'.output ≠ "" → item'.status = .succeeded) : RecordInvariant item' := by
  obtain ⟨htoken, howner, huntil⟩ := hlease
  obtain ⟨hattempt, hmax, hstart⟩ := hkept
  have hcases : item'.status = .succeeded ∨ item'.status = .failed ∨ item'.status = .cancelled := by
    simpa [Status.isTerminal, or_assoc] using hstatus
  have hnot : ∀ status, status = Status.pending ∨ status = .blocked ∨ status = .retry ∨
      status = .running → item'.status ≠ status := by
    rintro status hs rfl
    rcases hs with hs | hs | hs | hs <;> simp [hs] at hcases
  refine ⟨?_, fun _ => ⟨howner, huntil⟩, ?_, hmax ▸ h.maxAttempts, ?_, ?_, ?_, ?_, ?_, houtput, ?_⟩
  · simp [htoken, hnot .running (by simp)]
  · simp [hfinished, hstatus]
  · rw [hattempt, hmax]
    exact h.attempt
  · rintro (hs | hs)
    · exact absurd hs (hnot .pending (by simp))
    · exact absurd hs (hnot .blocked (by simp))
  · exact fun hs => absurd hs (hnot .retry (by simp))
  · exact fun hs => absurd hs (hnot .running (by simp))
  · rw [hstart, hattempt]
    exact h.started
  · exact fun hs => absurd hs (hnot .blocked (by simp))

/-- A restart puts every field that depends on the status back to its first value. -/
theorem restarted (h : RecordInvariant item) {status : Status} (at' : Time)
    (hstatus : status = .pending ∨ (status = .blocked ∧ item.pipelineRunID ≠ none)) :
    RecordInvariant (Memory.restarted status at' item) := by
  have hmax := h.maxAttempts
  refine ⟨?_, fun _ => ⟨rfl, rfl⟩, ?_, hmax, ⟨le_rfl, ?_⟩, fun _ => rfl, ?_, ?_, ?_, ?_, ?_⟩
  · rcases hstatus with rfl | ⟨rfl, -⟩ <;> simp [Memory.restarted]
  · rcases hstatus with rfl | ⟨rfl, -⟩ <;> simp [Memory.restarted, Status.isTerminal]
  · simp only [Memory.restarted]
    omega
  · rcases hstatus with rfl | ⟨rfl, -⟩ <;> simp [Memory.restarted]
  · rcases hstatus with rfl | ⟨rfl, -⟩ <;> simp [Memory.restarted]
  · simp [Memory.restarted]
  · simp [Memory.restarted]
  · rcases hstatus with rfl | ⟨rfl, hrun⟩
    · simp [Memory.restarted]
    · exact fun _ => hrun

end RecordInvariant

/-- A delivery keeps the invariant. -/
theorem claimed_recordInvariant (env : Env) (owner : String) (lease : Duration) (i : Nat)
    {keys : List TaskKey} {item : Execution} (hc : claimable keys env.now item = true)
    (h : RecordInvariant item) :
    RecordInvariant (claimed env owner lease (env.newUUID i) item) := by
  obtain ⟨-, -, hstatus, hleft⟩ := claimable_iff.mp hc
  have hopen : item.status ≠ .succeeded ∧ item.status.isTerminal = false := by
    rcases hstatus with hs | hs | ⟨hs, -⟩ <;> simp [hs, Status.isTerminal]
  have hattempt := h.attempt
  refine ⟨?_, ?_, ?_, h.maxAttempts, ?_, ?_, ?_, ?_, ?_, ?_, ?_⟩
  all_goals simp only [claimed]
  case refine_1 => simp [env.newUUID_ne_nil i]
  case refine_3 => simp [h.finishedAt_eq_none hopen.2, Status.isTerminal]
  case refine_4 => omega
  case refine_7 => omega
  case refine_8 =>
    simp only [reduceCtorEq, false_iff]
    omega
  case refine_9 => simp [h.output_eq_empty hopen.1]
  all_goals simp

/-- Every transition of a record keeps the invariant. -/
theorem Transition.recordInvariant {env : Env} {s : MemoryStore} {c : Call}
    {item item' : Execution} {evs : List Event} (t : Transition env s c item item' evs)
    (h : RecordInvariant item) : RecordInvariant item' := by
  have hempty : item.status = .running → item.output = "" := by
    intro hs
    exact h.output_eq_empty (by simp [hs])
  cases t with
  | claim hc _ => exact claimed_recordInvariant env _ _ _ hc h
  | reap hc =>
      obtain ⟨hs, -, -⟩ := reapable_iff.mp hc
      exact h.resolved rfl ⟨rfl, rfl, rfl⟩ (by simp [reaped]) ⟨rfl, rfl, rfl⟩
        (by simp [reaped, hempty hs])
  | heartbeat hown =>
      obtain ⟨hs, -, -⟩ := hown
      exact ⟨h.token, fun hne => absurd hs hne, h.finished, h.maxAttempts, h.attempt, h.waiting,
        h.retrying, h.running, h.started, h.output, h.blocked⟩
  | succeed _ =>
      exact h.resolved rfl ⟨rfl, rfl, rfl⟩ (by simp [succeeded]) ⟨rfl, rfl, rfl⟩ (fun _ => rfl)
  | exhaust hown _ =>
      exact h.resolved rfl ⟨rfl, rfl, rfl⟩ (by simp [exhausted]) ⟨rfl, rfl, rfl⟩
        (by simp [exhausted, hempty hown.1])
  | retry hown ha =>
      obtain ⟨hs, -, -⟩ := hown
      have hone := h.running hs
      have hfin := h.finishedAt_eq_none (by simp [hs, Status.isTerminal])
      refine ⟨?_, fun _ => ⟨rfl, rfl⟩, ?_, h.maxAttempts, h.attempt, ?_, fun _ => ⟨hone, ha⟩, ?_,
        h.started, ?_, ?_⟩
      all_goals simp [retried, hfin, hempty hs, Status.isTerminal]
  | fail hown =>
      exact h.resolved rfl ⟨rfl, rfl, rfl⟩ (by simp [failed]) ⟨rfl, rfl, rfl⟩
        (by simp [failed, hempty hown.1])
  | cancel ht =>
      have hout : item.output = "" := by
        refine h.output_eq_empty ?_
        intro hs
        simp [hs, Status.isTerminal] at ht
      exact h.resolved rfl ⟨rfl, rfl, rfl⟩ (by simp [cancelled]) ⟨rfl, rfl, rfl⟩
        (by simp [cancelled, hout])
  | restart _ _ => exact h.restarted _ (Or.inl rfl)
  | @reset _ request haff _ =>
      refine h.restarted _ ?_
      split
      · exact Or.inl rfl
      · right
        refine ⟨rfl, ?_⟩
        intro hnone
        simp [affected, hnone] at haff
  | release hb =>
      have hzero := h.waiting (Or.inr hb)
      have hlease := h.lease (by simp [hb])
      have htoken : item.leaseToken = nilUUID := by
        by_contra hne
        have := h.token.mp hne
        simp [hb] at this
      have hfin := h.finishedAt_eq_none (by simp [hb, Status.isTerminal])
      have hout := h.output_eq_empty (by simp [hb])
      refine ⟨?_, fun _ => hlease, ?_, h.maxAttempts, h.attempt, fun _ => hzero, ?_, ?_,
        h.started, ?_, ?_⟩
      all_goals simp [released, htoken, hfin, hout, Status.isTerminal]

/-- Every call keeps the invariant of every stored record. -/
theorem exec_recordInvariant (env : Env) (s : MemoryStore) (c : Call)
    (h : ∀ id item, s.executions.lookup id = some item → RecordInvariant item) (id : UUID)
    (item : Execution) (hl : (exec env s c).2.executions.lookup id = some item) :
    RecordInvariant item := by
  cases exec_effect env s c id with
  | same hsame _ => exact h id item (hsame ▸ hl)
  | inserted _ _ hnew _ =>
      rw [hnew] at hl
      cases hl
      exact created_recordInvariant env _
  | moved hold hnew _ t =>
      rw [hnew] at hl
      cases hl
      exact t.recordInvariant (h id _ hold)
  | deleted hgone _ =>
      rw [hgone] at hl
      cases hl

theorem replay_recordInvariant (trace : Trace) (s : MemoryStore)
    (h : ∀ id item, s.executions.lookup id = some item → RecordInvariant item) (id : UUID)
    (item : Execution) (hl : (replay trace s).executions.lookup id = some item) :
    RecordInvariant item := by
  induction trace generalizing s with
  | nil => exact h id item hl
  | cons step rest ih => exact ih _ (exec_recordInvariant step.2 s step.1 h) hl

/-! ## Recovery of expired deliveries -/

/-- A delivered execution was available when it was claimed. -/
def Delivered (clock : Time) (s : MemoryStore) : Prop :=
  ∀ id item, s.executions.lookup id = some item → item.status = .running → item.availableAt ≤ clock

theorem Transition.delivered {env : Env} {s : MemoryStore} {c : Call} {item item' : Execution}
    {evs : List Event} (t : Transition env s c item item' evs)
    (h : item.status = .running → item.availableAt ≤ env.now) (hs : item'.status = .running) :
    item'.availableAt ≤ env.now := by
  cases t with
  | claim hc _ => exact (claimable_iff.mp hc).2.1
  | heartbeat hown => exact h hown.1
  | reset _ _ =>
      simp only [subgraphReset, restarted] at hs
      split at hs <;> cases hs
  | _ => cases hs

theorem exec_delivered {env : Env} {s : MemoryStore} {clock : Time} (c : Call)
    (hclock : clock ≤ env.now) (h : Delivered clock s) : Delivered env.now (exec env s c).2 := by
  intro id item hl hs
  cases exec_effect env s c id with
  | same hsame _ => exact (h id item (hsame ▸ hl) hs).trans hclock
  | inserted _ _ hnew _ =>
      rw [hnew] at hl
      cases hl
      cases hs
  | moved hold hnew _ t =>
      rw [hnew] at hl
      cases hl
      exact t.delivered (fun hrun => (h id _ hold hrun).trans hclock) hs
  | deleted hgone _ =>
      rw [hgone] at hl
      cases hl

theorem replay_delivered (trace : Trace) (w : World) (hmono : MonotoneTrace trace w.clock)
    (h : Delivered w.clock w.store) : Delivered (w.replay trace).clock (w.replay trace).store := by
  induction trace generalizing w with
  | nil => exact h
  | cons step rest ih => exact ih (w.after step.2 step.1) hmono.2 (exec_delivered step.1 hmono.1 h)

/-- The record invariant after every sequence of calls, and its consequence for
a clock that never goes back: an expired delivery is recovered either by the
next claim of its task or by `ReapExpired`, never by both and never by neither. -/
theorem record_invariant_of_replay (trace : Trace) (clock : Time) :
    (∀ id item, (replay trace newMemoryStore).executions.lookup id = some item →
      RecordInvariant item) ∧
    (MonotoneTrace trace clock → ∀ id item now keys,
      (replay trace newMemoryStore).executions.lookup id = some item →
      ((World.init clock).replay trace).clock ≤ now → item.status = .running →
      item.leaseUntil ≤ now → item.taskKey ∈ keys →
      Xor (claimable keys now item = true) (reapable now item = true)) := by
  refine ⟨replay_recordInvariant trace newMemoryStore (by simp [newMemoryStore]), ?_⟩
  intro hmono id item now keys hl hnow hs hexpired hkey
  have hdelivered := replay_delivered trace (World.init clock) hmono
    (by simp [Delivered, World.init, newMemoryStore])
  rw [World.replay_store] at hdelivered
  have havailable : item.availableAt ≤ now := (hdelivered id item hl hs).trans hnow
  rw [claimable_iff, reapable_iff]
  by_cases hleft : item.attempt < item.maxAttempts
  · left
    exact ⟨⟨hkey, havailable, Or.inr (Or.inr ⟨hs, hexpired⟩), hleft⟩, fun h => by omega⟩
  · right
    exact ⟨⟨hs, hexpired, not_lt.mp hleft⟩, fun h => hleft h.2.2.2⟩

/-- One execution is created and delivered under a lease of ten time units. -/
def deliveryTrace : Trace :=
  [(.createExecution standaloneRequest, Env.at 5 0), (.claim "worker" [⟨"email", 1⟩] 1 10, Env.at 6 1)]

/-- The record that `deliveryTrace` leaves. -/
def delivery : Execution :=
  claimed (Env.at 6 1) "worker" 10 2 (created (Env.at 5 0) standaloneRequest)

theorem record_invariant_of_deliveryTrace :
    RecordInvariant delivery ∧
      Xor (claimable [⟨"email", 1⟩] 20 delivery = true) (reapable 20 delivery = true) := by
  have hl : (replay deliveryTrace newMemoryStore).executions.lookup 1 = some delivery := by decide
  obtain ⟨hrecord, hrecovery⟩ := record_invariant_of_replay deliveryTrace 5
  refine ⟨hrecord 1 delivery hl, ?_⟩
  have hmono : MonotoneTrace deliveryTrace 5 := ⟨by decide, by decide, trivial⟩
  exact hrecovery hmono 1 delivery 20 _ hl (by decide) rfl (by decide) (by decide)

end Ody.Memory
