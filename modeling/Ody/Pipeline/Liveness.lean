import Ody.Pipeline.CoordinationRaces

/-!
# No run is left behind

A run that `Advance` leaves unfinished is worked on: one of its executions waits
for a worker or is with one. The first node in declaration order that has not
succeeded depends on nodes before it, which have. Its execution is active, or it
was missing or blocked, and then the plan has created or released it.
-/

namespace Ody.Pipeline

open Library.Interleaving Memory

section Progress

variable {registry : Registry} {runID : UUID} {base : World} {run₀ : PipelineRun}
  {definition : CompiledDefinition} {w : World} {run : PipelineRun}

/-- Where the plan is fulfilled and the run goes on, an execution is active. -/
theorem Settled.exists_active (h : Settled registry runID base run₀ definition w)
    (h₀ : Opened registry runID base run₀ definition)
    (hrun : w.store.runs.lookup runID = some run) (hopen : run.status.isTerminal = false) :
    ∃ item, Member w.store runID item ∧ item.status.isActive = true := by
  obtain ⟨-, houtcome, hall⟩ := h.running hrun hopen
  rcases houtcome.active_or_planned with ⟨item, hm, hactive⟩ | ⟨node, input, hplanned⟩
  · -- it was active at the start, and `Advance` left it
    obtain ⟨item', hm', -, -, hkept⟩ := h.between.kept item hm
    have hblocked : item.status ≠ .blocked := fun hs => by simp [hs, Status.isActive] at hactive
    rw [hkept hblocked] at hm'
    exact ⟨item, hm', hactive⟩
  · -- it was created or released, and waits for a worker
    obtain ⟨item, hm, hkey, hs⟩ := hall node input hplanned
    have hversion := h.between.version h₀.coordinated.indexed hplanned hm hkey hs
    exact ⟨item, hm, by simp [hversion.pending, Status.isActive]⟩

end Progress

/-- Whatever the engine, its workers and its clients have done before, a call of `Advance` on an
unfinished run that returns nil leaves the run finished, or an execution of it that waits for a
worker or is with one. -/
theorem never_stuck {definitions : List Definition} {registry : Registry} {runID : UUID}
    (hbuilt : ∀ d ∈ definitions, d.Constructed) (hregistry : newRegistry definitions = .ok registry)
    {base final : World} {before : List (Thread Unit Call Reply Unit)}
    (hreach : Reach storeSystem World.Initial (Caller registry runID) base before)
    (huuid : ∀ id ∈ base.issued, Unguessed registry id)
    {run : PipelineRun} (hrun : base.store.runs.lookup runID = some run)
    (hopen : run.status.isTerminal = false)
    (hadvance : Runs World.Step (advance registry runID) base (.ok ()) final) :
    ∃ run', final.store.runs.lookup runID = some run' ∧
      (run'.status.isTerminal = true ∨ ∃ item, Member final.store runID item ∧
        (item.status = .pending ∨ item.status = .retry ∨ item.status = .running)) := by
  cases hfound : registry.find run with
  | none =>
      -- `Advance` would not have returned nil
      have hstill : Still registry runID base.store := by
        intro run' hrun'
        cases hrun.symm.trans hrun'
        exact Or.inr (Or.inl hfound)
      obtain ⟨run', hrun', hcases⟩ := (hstill.of_runs rfl hadvance).2.mp rfl
      cases hrun.symm.trans hrun'
      simp [hopen, hfound] at hcases
  | some definition =>
      have h₀ := opened_of_reach hbuilt hregistry hreach huuid hrun hopen hfound
      have hsettled := h₀.between.settled_of_runs h₀ hadvance
      obtain ⟨run', hrun', -⟩ := hsettled.run
      refine ⟨run', hrun', ?_⟩
      cases hopen' : run'.status.isTerminal with
      | true => exact Or.inl rfl
      | false =>
          obtain ⟨item, hm, hactive⟩ := hsettled.exists_active h₀ hrun' hopen'
          refine Or.inr ⟨item, hm, ?_⟩
          simpa [Status.isActive, or_assoc] using hactive

/-- The run is unfinished and its second node is blocked; a call of `Advance` returns nil. -/
def waits (w : World) : Bool :=
  (w.store.runs.lookup 1).any (fun run => !run.status.isTerminal) &&
    (w.store.executions.lookup 4).any (·.status == .blocked) &&
    decide ((storeExecution.eval (advance etlRegistry 1) w).1 = .ok ())

/-- After the first node of a finished run was restarted, `Advance` goes on with the second one. -/
theorem never_stuck_of_reblocked :
    ∃ base final run', waits base = true ∧
      Runs World.Step (advance etlRegistry 1) base (.ok ()) final ∧
      final.store.runs.lookup 1 = some run' ∧
      (run'.status.isTerminal = true ∨ ∃ item, Member final.store 1 item ∧
        (item.status = .pending ∨ item.status = .retry ∨ item.status = .running)) := by
  have hends : (storeExecution.drive reblocked (World.init 5) []).any
      (fun final => waits final.1) = true := by decide
  obtain ⟨base, before, hreach, hwaits⟩ :=
    storeExecution.drive_reaches reblocked_caller (World.init_initial 5) hends
  have hparts := hwaits
  simp only [waits, Bool.and_eq_true, Option.any_eq_true, Bool.not_eq_true',
    decide_eq_true_eq] at hparts
  obtain ⟨⟨⟨run, hrun, hopen⟩, -⟩, hok⟩ := hparts
  have hadvance := storeExecution.eval_runs () (fun _ _ => rfl) (advance etlRegistry 1) base
  rw [hok] at hadvance
  obtain ⟨run', hrun', hcases⟩ := never_stuck etl_constructed newRegistry_etl hreach
    (fun id _ => unguessed_etl id) hrun hopen hadvance
  exact ⟨base, _, run', hwaits, hadvance, hrun', hcases⟩

end Ody.Pipeline
