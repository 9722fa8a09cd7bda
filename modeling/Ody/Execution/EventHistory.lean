import Mathlib.Data.List.Chain
import Mathlib.Data.List.DropRight
import Ody.Execution.Freshness

/-!
# The event history of an execution

The history of an execution is append-only while its record is overwritten in
place. The status, the attempt counter and the last error of the record can
still be read back from the history after every sequence of calls, although a
release and a heartbeat change the record without an event.
-/

namespace Ody.Memory

open Library.Tables

/-! ## Reading a history -/

/-- The event types that resolve an execution. -/
def isTerminalEvent (eventType : EventType) : Bool :=
  eventType == .succeeded || eventType == .failed || eventType == .cancelled

/-- The event types that carry an error text. -/
def isErrorEvent (eventType : EventType) : Bool :=
  eventType == .retried || eventType == .failed || eventType == .cancelled

/-- The statuses a record may have after an event of this type. -/
def statusesAfter : EventType → List Status
  | .created => [.pending]
  | .started => [.running]
  | .retried => [.retry]
  | .succeeded => [.succeeded]
  | .failed => [.failed]
  | .cancelled => [.cancelled]
  | .restarted => [.pending, .blocked]

/-- The events after the last restart, or all of them. -/
def sinceRestart (history : List Event) : List Event :=
  history.rtakeWhile fun e => e.type != .restarted

/-- The deliveries since the last restart. -/
def startedSince (history : List Event) : List Event :=
  (sinceRestart history).filter fun e => e.type == .started

/-- The error of the latest event since the last restart that carries one. -/
def errorSince (history : List Event) : String :=
  ((sinceRestart history).filter fun e => isErrorEvent e.type).getLast?.elim "" (·.error)

/-- A history that replays to a record. -/
structure Replays (history : List Event) (item : Execution) : Prop where
  created : ∃ first rest, history = first :: rest ∧ first.type = .created ∧
    ∀ e ∈ rest, e.type ≠ .created
  status : ∃ last, history.getLast? = some last ∧ item.status ∈ statusesAfter last.type
  attempt : item.attempt = (startedSince history).length
  attempts : (startedSince history).map (·.attempt) =
    (List.range (startedSince history).length).map fun i : Nat => (i : Int) + 1
  lastError : item.lastError = errorSince history
  restarts : history.IsChain fun before e =>
    e.type = .restarted → isTerminalEvent before.type = true ∨ before.type = .restarted

/-! ## Appending one event -/

section Append

variable {history : List Event} {item item' : Execution} {e : Event}

theorem sinceRestart_append (h : e.type ≠ .restarted) :
    sinceRestart (history ++ [e]) = sinceRestart history ++ [e] :=
  List.rtakeWhile_concat_pos _ history e (by simpa using h)

theorem sinceRestart_append_restarted (h : e.type = .restarted) :
    sinceRestart (history ++ [e]) = [] :=
  List.rtakeWhile_concat_neg _ history e (by simp [h])

theorem created_append
    (h : ∃ first rest, history = first :: rest ∧ first.type = .created ∧
      ∀ e ∈ rest, e.type ≠ .created)
    (he : e.type ≠ .created) :
    ∃ first rest, history ++ [e] = first :: rest ∧ first.type = .created ∧
      ∀ e ∈ rest, e.type ≠ .created := by
  obtain ⟨first, rest, rfl, hfirst, hrest⟩ := h
  refine ⟨first, rest ++ [e], rfl, hfirst, ?_⟩
  intro other hmem
  rcases List.mem_append.mp hmem with hmem | hmem
  · exact hrest other hmem
  · rw [List.mem_singleton.mp hmem]
    exact he

/-- A transition whose record differs in no field that the history determines. -/
theorem Replays.congr (h : Replays history item)
    (hstatus : ∃ last, history.getLast? = some last ∧ item'.status ∈ statusesAfter last.type)
    (hattempt : item'.attempt = item.attempt) (herror : item'.lastError = item.lastError) :
    Replays history item' :=
  ⟨h.created, hstatus, hattempt.trans h.attempt, h.attempts, herror.trans h.lastError, h.restarts⟩

/-- A delivery appends the next attempt number. -/
theorem Replays.started (h : Replays history item) (htype : e.type = .started)
    (hattempt : item'.attempt = item.attempt + 1) (hevent : e.attempt = item'.attempt)
    (hstatus : item'.status = .running) (herror : item'.lastError = item.lastError) :
    Replays (history ++ [e]) item' := by
  have hsince : sinceRestart (history ++ [e]) = sinceRestart history ++ [e] :=
    sinceRestart_append (by simp [htype])
  have hstarted : startedSince (history ++ [e]) = startedSince history ++ [e] := by
    simp [startedSince, hsince, htype]
  refine ⟨created_append h.created (by simp [htype]), ⟨e, by simp, ?_⟩, ?_, ?_, ?_, ?_⟩
  · simp [htype, hstatus, statusesAfter]
  · rw [hattempt, h.attempt, hstarted]
    simp
  · rw [hstarted, List.map_append, h.attempts, List.length_append, List.length_singleton,
      List.range_succ, List.map_append]
    simp [hevent, hattempt, h.attempt]
  · rw [herror, h.lastError]
    simp [errorSince, hsince, htype, isErrorEvent]
  · refine h.restarts.append (List.isChain_singleton e) ?_
    simp [htype]

/-- Any other event that is not a restart keeps the attempt counter. -/
theorem Replays.outcome (h : Replays history item)
    (htype : e.type = .retried ∨ isTerminalEvent e.type = true)
    (hattempt : item'.attempt = item.attempt)
    (hstatus : item'.status ∈ statusesAfter e.type)
    (herror : item'.lastError = if isErrorEvent e.type then e.error else item.lastError) :
    Replays (history ++ [e]) item' := by
  have hcases : e.type ≠ .created ∧ e.type ≠ .started ∧ e.type ≠ .restarted := by
    refine ⟨?_, ?_, ?_⟩ <;> intro heq <;> simp [heq, isTerminalEvent] at htype
  obtain ⟨hcreated, hstart, hrestart⟩ := hcases
  have hsince : sinceRestart (history ++ [e]) = sinceRestart history ++ [e] :=
    sinceRestart_append hrestart
  have hstarted : startedSince (history ++ [e]) = startedSince history := by
    simp [startedSince, hsince, hstart]
  refine ⟨created_append h.created hcreated, ⟨e, by simp, hstatus⟩, ?_, ?_, ?_, ?_⟩
  · rw [hstarted, hattempt, h.attempt]
  · rw [hstarted, h.attempts]
  · rw [herror]
    cases hcarries : isErrorEvent e.type with
    | true => simp [errorSince, hsince, hcarries]
    | false =>
        rw [h.lastError]
        simp [errorSince, hsince, hcarries]
  · refine h.restarts.append (List.isChain_singleton e) ?_
    simp [hrestart]

/-- A restart begins a new segment; it follows a resolution or another restart. -/
theorem Replays.restarted (h : Replays history item) (htype : e.type = .restarted)
    (hidle : item.status.isActive = false) (hattempt : item'.attempt = 0)
    (hstatus : item'.status = .pending ∨ item'.status = .blocked) (herror : item'.lastError = "") :
    Replays (history ++ [e]) item' := by
  have hsince : sinceRestart (history ++ [e]) = [] := sinceRestart_append_restarted htype
  refine ⟨created_append h.created (by simp [htype]), ⟨e, by simp, ?_⟩, ?_, ?_, ?_, ?_⟩
  · simpa [htype, statusesAfter] using hstatus
  · simp [startedSince, hsince, hattempt]
  · simp [startedSince, hsince]
  · simp [errorSince, hsince, herror]
  · refine h.restarts.append (List.isChain_singleton e) ?_
    intro last hlast _ _ _
    obtain ⟨last', hlast', hafter⟩ := h.status
    obtain rfl : last' = last := Option.some.inj (hlast'.symm.trans hlast)
    -- a created, started or retried execution would still be active
    cases hl : last'.type <;>
      simp_all [statusesAfter, Status.isActive, isTerminalEvent]

end Append

/-! ## Every call -/

theorem created_replays (env : Env) (request : CreateExecution) :
    Replays [event env (created env request) .created ""] (created env request) := by
  refine ⟨⟨_, [], rfl, rfl, by simp⟩, ⟨_, rfl, ?_⟩, rfl, rfl, rfl, List.isChain_singleton _⟩
  exact List.mem_singleton.mpr rfl

/-- Every transition appends events that replay to the new record. -/
theorem Transition.replays {env : Env} {s : MemoryStore} {c : Call} {item item' : Execution}
    {evs history : List Event} (t : Transition env s c item item' evs)
    (h : Replays history item) : Replays (history ++ evs) item' := by
  cases t with
  | claim _ _ => exact h.started rfl rfl rfl rfl rfl
  | reap _ => exact h.outcome (Or.inr rfl) rfl (by simp [reaped, event, statusesAfter]) rfl
  | heartbeat _ =>
      rw [List.append_nil]
      exact h.congr h.status rfl rfl
  | succeed _ => exact h.outcome (Or.inr rfl) rfl (by simp [succeeded, event, statusesAfter]) rfl
  | exhaust _ _ => exact h.outcome (Or.inr rfl) rfl (by simp [exhausted, event, statusesAfter]) rfl
  | retry _ _ => exact h.outcome (Or.inl rfl) rfl (by simp [retried, event, statusesAfter]) rfl
  | fail _ => exact h.outcome (Or.inr rfl) rfl (by simp [failed, event, statusesAfter]) rfl
  | cancel _ => exact h.outcome (Or.inr rfl) rfl (by simp [cancelled, event, statusesAfter]) rfl
  | restart _ hidle => exact h.restarted rfl hidle rfl (Or.inl rfl) rfl
  | reset _ hidle =>
      refine h.restarted rfl hidle rfl ?_ rfl
      simp only [subgraphReset, Memory.restarted]
      split
      · exact Or.inl rfl
      · exact Or.inr rfl
  | release hb =>
      rw [List.append_nil]
      obtain ⟨last, hlast, hafter⟩ := h.status
      refine h.congr ⟨last, hlast, ?_⟩ rfl rfl
      -- only a restart leaves an execution blocked
      rw [hb] at hafter
      cases hl : last.type <;> simp_all [statusesAfter, released]

/-- Every stored execution has a history that replays to it. -/
def Replayable (s : MemoryStore) : Prop :=
  ∀ id item, s.executions.lookup id = some item → Replays (s.history id) item

theorem exec_replayable {w : World} {env : Env} (hknown : w.Known) (hfresh : env.Fresh w)
    (c : Call) (h : Replayable w.store) : Replayable (exec env w.store c).2 := by
  intro id item hl
  cases exec_effect env w.store c id with
  | same hsame hh =>
      rw [hh]
      exact h id item (hsame ▸ hl)
  | inserted _ _ hnew hh =>
      have hempty : w.store.history (env.newUUID 0) = [] := by
        by_contra hne
        exact hfresh 0 (hknown.histories _ hne)
      rw [hh, hempty]
      cases hnew.symm.trans hl
      exact created_replays env _
  | moved hold hnew hh t =>
      rw [hh]
      cases hnew.symm.trans hl
      exact t.replays (h id _ hold)
  | deleted hgone _ => exact absurd (hgone.symm.trans hl) (by simp)

theorem replay_replayable (trace : Trace) (w : World) (hknown : w.Known)
    (hfresh : FreshTrace trace w) (h : Replayable w.store) :
    Replayable (replay trace w.store) := by
  induction trace generalizing w with
  | nil => exact h
  | cons step rest ih =>
      exact ih (w.after step.2 step.1) (hknown.after step.2 step.1) hfresh.2
        (exec_replayable hknown hfresh.1 step.1 h)

/-- After every sequence of calls the history of each stored execution replays to its record. -/
theorem event_history_of_replay (trace : Trace) (clock : Time)
    (hfresh : FreshTrace trace (World.init clock)) (id : UUID) (item : Execution)
    (hl : (replay trace newMemoryStore).executions.lookup id = some item) :
    ∃ history, events (replay trace newMemoryStore) id = .ok history ∧ Replays history item := by
  refine ⟨(replay trace newMemoryStore).history id, by simp [events, hl], ?_⟩
  exact replay_replayable trace (World.init clock) (World.init_known clock) hfresh
    (by simp [Replayable, World.init, newMemoryStore]) id item hl

/-- An execution is delivered, retried after an error and delivered again. -/
def retryTrace : Trace :=
  [(.createExecution standaloneRequest, Env.at 5 0),
   (.claim "worker" [⟨"email", 1⟩] 1 10, Env.at 6 1),
   (.retry 1 2 "timeout" 1, Env.at 7 2),
   (.claim "worker" [⟨"email", 1⟩] 1 10, Env.at 9 2)]

/-- The record that `retryTrace` leaves. -/
def secondDelivery : Execution :=
  claimed (Env.at 9 2) "worker" 10 3 (retried (Env.at 7 2) "timeout" 1
    (claimed (Env.at 6 1) "worker" 10 2 (created (Env.at 5 0) standaloneRequest)))

theorem event_history_of_retryTrace :
    ∃ history, events (replay retryTrace newMemoryStore) 1 = .ok history ∧
      Replays history secondDelivery := by
  have hfresh : FreshTrace retryTrace (World.init 5) :=
    ⟨Env.at_fresh 5 (by decide), Env.at_fresh 6 (by decide), Env.at_fresh 7 (by decide),
      Env.at_fresh 9 (by decide), trivial⟩
  exact event_history_of_replay retryTrace 5 hfresh 1 secondDelivery (by decide)

end Ody.Memory
