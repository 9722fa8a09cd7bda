import Ody.Worker.Execute

/-!
# Shutdown of a worker

A cancelled worker is to leave its delivery to lease recovery. The cancellation
also ends the handler's context, and often the handler, so up to three cases of
the `select` are ready together. The delivery stays as it is in the runs whose
`select` decides before the cancellation has gone that far; in the others the
worker may report a retry, or a failure in the last attempt.
-/

namespace Ody.Worker

open Library.Tables Library.Interleaving Memory

/-! ## Turns -/

/-- No outcome was reported and the execution is delivered under its token. -/
structure Untouched (item : Execution) (σ : State) : Prop where
  quiet : ∀ c ∈ σ.calls, outcomeOf c = none
  held : Holds σ.store item.id item.leaseToken

/-- What a turn does to the delivery. -/
inductive TurnEffect (item : Execution) (σ τ : State) : Turn → Prop
  | outside {turn} (hphase : τ.phase = σ.phase) (h : Untouched item σ → Untouched item τ) :
      TurnEffect item σ τ turn
  | left {turn} (hσ : σ.phase = .selecting)
      (hτ : τ.phase = .selecting ∨ ∃ reports, τ.phase = .finished reports)
      (h : Untouched item σ → Untouched item τ) : TurnEffect item σ τ turn
  | resolves {case} (hσ : σ.phase = .selecting) (hτ : τ.phase ≠ .selecting)
      (hready : σ.handlerErr ≠ none ∨ σ.returned ≠ none) : TurnEffect item σ τ (.take case)
  | resolving {turn rest} (hσ : σ.phase = .resolving rest) (hτ : τ.phase ≠ .selecting) :
      TurnEffect item σ τ turn

section Turns

variable {w : Worker} {item : Execution} {σ τ : State}

theorem holds_heartbeat {env : Env} {s : MemoryStore} {id token : UUID} (lease : Duration)
    (h : Holds s id token) : Holds (heartbeat env s id token lease).2 id token := by
  obtain ⟨item, hl, hown⟩ := h
  have hid := s.executions_keyed id item hl
  rw [heartbeat, owned_eq_ok hl hown]
  refine ⟨{ item with leaseUntil := env.now + lease }, ?_, hown⟩
  rw [put_lookup]
  exact if_pos hid.symm

/-- A tick extends the lease and reports no outcome. -/
theorem Untouched.tick (h : Untouched item σ) (env : Env) (lease : Duration) :
    (∀ c ∈ σ.calls ++ [.heartbeat item.id item.leaseToken lease], outcomeOf c = none) ∧
      Holds (heartbeat env σ.store item.id item.leaseToken lease).2 item.id item.leaseToken := by
  refine ⟨fun c hc => ?_, holds_heartbeat lease h.held⟩
  rcases List.mem_append.mp hc with hold | hnew
  · exact h.quiet c hold
  · rw [List.mem_singleton.mp hnew]
    rfl

theorem select_effect {case : Case} (hσ : σ.phase = .selecting)
    (h : select w item σ case = some τ) : TurnEffect item σ τ (.take case) := by
  cases case with
  | workerDone =>
      simp only [select] at h
      split at h
      · cases h
        exact .left hσ (Or.inr ⟨[], rfl⟩) fun hσ => ⟨hσ.quiet, hσ.held⟩
      · cases h
  | handlerDone =>
      obtain ⟨err, herr, rfl⟩ := Option.map_eq_some_iff.mp h
      exact .resolves hσ nofun (Or.inl (by simp [herr]))
  | result =>
      obtain ⟨value, hvalue, rfl⟩ := Option.map_eq_some_iff.mp h
      exact .resolves hσ nofun (Or.inr (by simp [hvalue]))
  | tick env =>
      simp only [select] at h
      split at h
      · cases h
        refine .left hσ (Or.inl hσ) fun hσ => ?_
        exact ⟨(hσ.tick env w.leaseDuration).1, (hσ.tick env w.leaseDuration).2⟩
      · cases h
        refine .left hσ (Or.inr ⟨_, rfl⟩) fun hσ => ?_
        exact ⟨(hσ.tick env w.leaseDuration).1, (hσ.tick env w.leaseDuration).2⟩

theorem step_effect {turn : Turn} (h : step w item σ turn = some τ) :
    TurnEffect item σ τ turn := by
  cases turn with
  | cancelWorker =>
      cases h
      exact .outside rfl fun hσ => ⟨hσ.quiet, hσ.held⟩
  | spread | deadline | handlerReturns value =>
      simp only [step] at h
      split at h
      · cases h
        exact .outside rfl fun hσ => ⟨hσ.quiet, hσ.held⟩
      · cases h
  | other env c =>
      simp only [step] at h
      split at h
      · next hkept =>
        cases h
        refine .outside rfl fun hσ => ⟨hσ.quiet, ?_⟩
        obtain ⟨stored, hl, hown⟩ := hσ.held
        exact ⟨stored, hkept.trans hl, hown⟩
      · cases h
  | take case =>
      simp only [step] at h
      split at h
      · next hσ => exact select_effect hσ h
      · cases h
  | call env | returns =>
      simp only [step] at h
      split at h
      · next hσ =>
        cases h
        exact .resolving hσ nofun
      · cases h

theorem select_workerDone {case : Case} (hdone : σ.workerDone = true)
    (h : select w item σ case = some τ) : τ.workerDone = true := by
  cases case with
  | handlerDone =>
      obtain ⟨err, -, rfl⟩ := Option.map_eq_some_iff.mp h
      exact hdone
  | result =>
      obtain ⟨value, -, rfl⟩ := Option.map_eq_some_iff.mp h
      exact hdone
  | _ =>
      simp only [select] at h
      split at h <;> cases h
      all_goals exact hdone

/-- The worker's context stays cancelled. -/
theorem step_workerDone {turn : Turn} (hdone : σ.workerDone = true)
    (h : step w item σ turn = some τ) : τ.workerDone = true := by
  cases turn with
  | cancelWorker =>
      cases h
      rfl
  | take case =>
      simp only [step] at h
      split at h
      · exact select_workerDone hdone h
      · cases h
  | _ =>
      simp only [step] at h
      split at h <;> cases h
      all_goals exact hdone

end Turns

/-! ## Runs -/

/-- A `select` of a cancelled worker is taken before the cancellation has ended the handler's
context and before the handler has returned. -/
def promptTurn (σ : State) : Turn → Bool
  | .take _ => !σ.workerDone || (σ.handlerErr.isNone && σ.returned.isNone)
  | _ => true

/-- Every turn of the run is prompt. -/
def prompt (w : Worker) (item : Execution) : State → List Turn → Bool
  | _, [] => true
  | σ, turn :: rest =>
      promptTurn σ turn &&
        match step w item σ turn with
        | none => true
        | some τ => prompt w item τ rest

section Runs

variable {w : Worker} {item : Execution} {σ τ : State}

/-- As long as `execute` waits, it has reported nothing. -/
theorem untouched_of_selecting {turns : List Turn}
    (hσ : σ.phase = .selecting → Untouched item σ) (h : run w item σ turns = some τ)
    (hτ : τ.phase = .selecting) : Untouched item τ := by
  induction turns generalizing σ with
  | nil =>
      cases h
      exact hσ hτ
  | cons turn rest ih =>
      obtain ⟨middle, hstep, hrest⟩ := Option.bind_eq_some_iff.mp h
      refine ih (fun hmiddle => ?_) hrest
      cases step_effect hstep with
      | outside hphase hkept => exact hkept (hσ (hphase.symm.trans hmiddle))
      | left hselecting _ hkept => exact hkept (hσ hselecting)
      | resolves _ hne _ => exact absurd hmiddle hne
      | resolving _ hne => exact absurd hmiddle hne

/-- A cancelled worker whose `select` is prompt reports nothing. -/
theorem untouched_of_prompt {turns : List Turn} (hσ : Untouched item σ)
    (hdone : σ.workerDone = true)
    (hphase : σ.phase = .selecting ∨ ∃ reports, σ.phase = .finished reports)
    (h : run w item σ turns = some τ) (hprompt : prompt w item σ turns = true) :
    Untouched item τ := by
  induction turns generalizing σ with
  | nil =>
      cases h
      exact hσ
  | cons turn rest ih =>
      obtain ⟨middle, hstep, hrest⟩ := Option.bind_eq_some_iff.mp h
      rw [prompt, hstep, Bool.and_eq_true] at hprompt
      obtain ⟨hturn, hprompt⟩ := hprompt
      have hstill := step_workerDone hdone hstep
      cases step_effect hstep with
      | outside hsame hkept => exact ih (hkept hσ) hstill (hsame ▸ hphase) hrest hprompt
      | left _ hnext hkept => exact ih (hkept hσ) hstill hnext hrest hprompt
      | resolves _ _ hready =>
          simp only [promptTurn, hdone, Bool.not_true, Bool.false_or, Bool.and_eq_true,
            Option.isNone_iff_eq_none] at hturn
          rcases hready with hready | hready
          · exact absurd hturn.1 hready
          · exact absurd hturn.2 hready
      | resolving hresolving _ =>
          rcases hphase with hphase | ⟨reports, hphase⟩ <;>
            cases hphase.symm.trans hresolving

end Runs

/-- In every run in which the worker is cancelled while `execute` waits, and every later `select` is
prompt, no outcome is ever reported and the execution stays delivered under its token. -/
theorem shutdown_leaves_delivery (w : Worker) {item : Execution} {s : MemoryStore}
    (hclaimed : Holds s item.id item.leaseToken) {before after : List Turn} {σ τ : State}
    (hbefore : run w item (.start s) before = some σ) (hdone : σ.workerDone = true)
    (hwaits : σ.phase = .selecting) (hafter : run w item σ after = some τ)
    (hprompt : prompt w item σ after = true) :
    (∀ c ∈ τ.calls, outcomeOf c = none) ∧ Holds τ.store item.id item.leaseToken := by
  have hstart : Untouched item (.start s) := ⟨by simp [State.start], hclaimed⟩
  have hσ := untouched_of_selecting (fun _ => hstart) hbefore hwaits
  have hτ := untouched_of_prompt hσ hdone (Or.inl hwaits) hafter hprompt
  exact ⟨hτ.quiet, hτ.held⟩

/-! ## The last attempt of a task -/

/-- A worker for tasks without a timeout that are retried at once. -/
def sampleWorker : Worker := ⟨10, fun _ _ => some ⟨0, fun _ => 0⟩, none⟩

/-- A task with one attempt is created and claimed. -/
def lastDelivery : Execution :=
  claimed (Env.at 6 1) "worker" 10 2 (created (Env.at 5 0) ⟨"job", 1, "", 1, 0, "", none, ""⟩)

def claimedStore : MemoryStore :=
  (claim (Env.at 6 1) (createExecution (Env.at 5 0) newMemoryStore
    ⟨"job", 1, "", 1, 0, "", none, ""⟩).2 "worker" [⟨"job", 1⟩] 1 10).2

theorem claimedStore_holds : Holds claimedStore lastDelivery.id lastDelivery.leaseToken :=
  ⟨lastDelivery, by decide, rfl, by decide, rfl⟩

/-- The worker extends the lease once more and returns; the handler ends later. -/
def promptTurns : List Turn :=
  [.take (.tick (Env.at 7 5)), .take .workerDone,
    .handlerReturns ⟨"", some ContextError.canceled.handlerError⟩]

theorem shutdown_leaves_delivery_of_promptTurns :
    ∃ τ, run sampleWorker lastDelivery (.start claimedStore) (.cancelWorker :: promptTurns) =
        some τ ∧
      (∀ c ∈ τ.calls, outcomeOf c = none) ∧ Holds τ.store 1 2 := by
  have hbefore : run sampleWorker lastDelivery (.start claimedStore) [.cancelWorker] =
      some { State.start claimedStore with workerDone := true } := rfl
  have hprompt : prompt sampleWorker lastDelivery
      { State.start claimedStore with workerDone := true } promptTurns = true := by decide
  refine ⟨_, rfl, ?_⟩
  exact shutdown_leaves_delivery sampleWorker claimedStore_holds hbefore rfl rfl rfl hprompt

/-- The worker is cancelled while the handler runs, and the `select` takes the handler's context:
the execution is marked failed. -/
theorem shutdown_fails_last_attempt :
    Holds claimedStore 1 2 ∧ ∃ σ τ,
      run sampleWorker lastDelivery (.start claimedStore) [.cancelWorker] = some σ ∧
      σ.phase = .selecting ∧ σ.returned = none ∧
      run sampleWorker lastDelivery σ
        [.spread, .take .handlerDone, .call (Env.at 8 6), .call (Env.at 8 6), .returns] = some τ ∧
      τ.returned = none ∧ τ.calls = [.retry 1 2 "context canceled" 0, .getExecution 1] ∧
      statusOf τ.store 1 = some .failed := by
  exact ⟨claimedStore_holds, _, _, rfl, rfl, rfl, rfl, rfl, rfl, by decide⟩

end Ody.Worker
