import Ody.Execution.Model
import Ody.Library.Interleaving

/-!
# The polling loops of a worker

`Run` starts loops that reap, claim and execute until their context is done. A
loop counts the infrastructure failures since its last round without one, and
`MaxConsecutiveErrors` of them make it return an error that cancels the context
of all loops. The loops share the health and the context, and keep a counter
each.

## Implementation notes

The store, the advancer and the handlers answer as they like, and any number of
loops is started at any time. A loop is cut off after a number of rounds, which is
any number. What a loop did in each round is recorded in the ghost value of its
thread, the newest entry first. `context.Canceled` is known by its text.
-/

namespace Ody.Worker.Polling

open Library.Interleaving

/-! ## The loop -/

/-- The operations of a loop that report errors. -/
inductive Operation where
  | claim
  | reap
  | advance
  | reconcile
  deriving DecidableEq, Repr

/-- What the error of a loop says before the error that stopped it. -/
def Operation.context : Operation → String
  | .claim => "claim execution"
  | .reap => "reap expired executions"
  | .advance => "advance reaped pipeline"
  | .reconcile => "reconcile pipelines"

/-- The error with which a loop returns. -/
def Operation.wrap (operation : Operation) (err : GoError) : GoError :=
  .wrapped operation.context err

def contextCanceled : GoError := .text "context canceled"

def errShutdownTimeout : GoError := .text "worker shutdown grace period elapsed"

inductive HealthStatus where
  | ready
  | degraded
  deriving DecidableEq, Repr

structure Health where
  status : HealthStatus
  consecutiveFailures : Nat
  lastError : String
  lastFailureAt : Time
  deriving DecidableEq, Repr

def Health.ready : Health := ⟨.ready, 0, "", 0⟩

/-- An advancer may also be a `reconciler`. -/
inductive Advancer where
  | plain
  | reconciler
  deriving DecidableEq, Repr

structure Options where
  maxConsecutiveErrors : Int
  advancer : Option Advancer
  deriving DecidableEq, Repr

inductive Call where
  /-- The condition `ctx.Err() == nil` of the loop. -/
  | live
  /-- The condition `ctx.Err() != nil` of `infrastructureFailure`. -/
  | cancelled
  | reapExpired
  | advance (runID : UUID)
  | claim
  | reconcile
  | execute (item : Execution)
  | wait
  /-- The health is set under its mutex. -/
  | degrade (consecutive : Nat) (err : GoError)
  | recover
  | infrastructureError (operation : Operation) (err : GoError)
  /-- `cancel(err)` in `Run`. -/
  | cancel (err : GoError)
  /-- The context given to `Run` ends, and then the context of the loops. -/
  | stop (err : GoError)
  | spread

@[reducible] def Reply : Call → Type
  | .live | .cancelled | .wait => Bool
  | .reapExpired => Except GoError (List UUID)
  | .claim => Except GoError (List Execution)
  | .advance _ | .reconcile => Except GoError Unit
  | .execute _ | .degrade _ _ | .recover | .infrastructureError _ _ => Unit
  | .cancel _ | .stop _ | .spread => Unit

abbrev Routine := Program Call Reply

/-- How a loop ends: cut off between two rounds, or with the error it returns. -/
inductive LoopEnd where
  | running
  | returned (err : Option GoError)
  deriving DecidableEq, Repr

section Loop

variable (options : Options)

/-- A failure is counted, and the answer is whether the loop must stop. -/
def countFailure (operation : Operation) (err : GoError) (consecutive : Nat) :
    Routine (Bool × Nat) :=
  .call (.degrade (consecutive + 1) err) fun _ =>
    .call (.infrastructureError operation err) fun _ =>
      .done (decide (0 < options.maxConsecutiveErrors ∧
        options.maxConsecutiveErrors ≤ (consecutive + 1 : Nat)), consecutive + 1)

/-- The answer with the value of the counter after the call. -/
def infrastructureFailure (operation : Operation) (err : GoError) (consecutive : Nat) :
    Routine (Bool × Nat) :=
  if err.is contextCanceled then
    .call .cancelled fun cancelled =>
      if cancelled then .done (false, consecutive)
      else countFailure options operation err consecutive
  else countFailure options operation err consecutive

/-- Return the error if `infrastructureFailure` says so. -/
def failing (operation : Operation) (err : GoError) (consecutive : Nat)
    (next : Nat → Routine LoopEnd) : Routine LoopEnd :=
  (infrastructureFailure options operation err consecutive).bind fun (stop, consecutive) =>
    if stop then .done (.returned (some (operation.wrap err))) else next consecutive

def advanceRuns : List UUID → Bool → Nat → (Bool → Nat → Routine LoopEnd) → Routine LoopEnd
  | [], hadInfrastructureError, consecutive, next => next hadInfrastructureError consecutive
  | runID :: runs, hadInfrastructureError, consecutive, next =>
      if options.advancer.isSome then
        .call (.advance runID) fun
          | .ok () => advanceRuns runs hadInfrastructureError consecutive next
          | .error err => failing options .advance err consecutive fun consecutive =>
              advanceRuns runs true consecutive next
      else advanceRuns runs hadInfrastructureError consecutive next

def reconcileRuns (hadInfrastructureError : Bool) (consecutive : Nat)
    (next : Bool → Nat → Routine LoopEnd) : Routine LoopEnd :=
  if options.advancer = some .reconciler then
    .call .reconcile fun
      | .ok () => next hadInfrastructureError consecutive
      | .error err => failing options .reconcile err consecutive (next true)
  else next hadInfrastructureError consecutive

/-- `healthy` is called at the end of a round without a failure. -/
def healthy (hadInfrastructureError : Bool) (consecutive : Nat) (next : Nat → Routine LoopEnd) :
    Routine LoopEnd :=
  if hadInfrastructureError then next consecutive else .call .recover fun _ => next 0

/-- Leave the loop if its context ends during the wait. -/
def waiting (next : Routine LoopEnd) : Routine LoopEnd :=
  .call .wait fun proceed => if proceed then next else .done (.returned none)

/-- The rest of a round that has no execution to work on. -/
def idle (hadInfrastructureError : Bool) (consecutive : Nat) (next : Nat → Routine LoopEnd) :
    Routine LoopEnd :=
  reconcileRuns options hadInfrastructureError consecutive fun hadInfrastructureError consecutive =>
    healthy hadInfrastructureError consecutive fun consecutive => waiting (next consecutive)

/-- The loop, cut off after a number of rounds. -/
def loop : Nat → Nat → Routine LoopEnd
  | 0, _ => .done .running
  | rounds + 1, consecutive =>
      .call .live fun live =>
        if live then
          .call .reapExpired fun
            | .error err => failing options .reap err consecutive fun consecutive =>
                waiting (loop rounds consecutive)
            | .ok runs => advanceRuns options runs false consecutive fun had consecutive =>
                .call .claim fun
                  | .error err => failing options .claim err consecutive fun consecutive =>
                      idle options true consecutive (loop rounds)
                  | .ok [] => idle options had consecutive (loop rounds)
                  | .ok (item :: _) => healthy had consecutive fun consecutive =>
                      .call (.execute item) fun _ => loop rounds consecutive
        else .done (.returned none)

/-- A goroutine of `Run`. -/
def goroutine (rounds : Nat) : Routine LoopEnd :=
  (loop options rounds 0).bind fun
    | .returned (some err) => .call (.cancel err) fun _ => .done (.returned (some err))
    | ended => .done ended

/-- The caller of `Run` ends its context. -/
def stopping (err : GoError) : Routine (Option LoopEnd) :=
  .call (.stop err) fun _ => .call .spread fun _ => .done none

end Loop

/-! ## The pool of loops -/

/-- What the loops share: the errors of the two contexts, the health, and what the observer was
told. -/
structure Pool where
  parentErr : Option GoError
  cause : Option GoError
  health : Health
  reports : List (Operation × GoError)
  deriving DecidableEq, Repr

def Pool.new : Pool := ⟨none, none, Health.ready, []⟩

/-- What `Run` returns when its loops have returned; `drained` is the answer of
`waitForHandlers`. -/
def Pool.result (s : Pool) (drained : Bool) : Option GoError :=
  if !drained then some errShutdownTimeout
  else match s.parentErr with
    | some err => some err
    | none => s.cause

inductive Step : Pool → (c : Call) → Reply c → Pool → Prop
  | live (s) : Step s .live s.cause.isNone s
  | cancelled (s) : Step s .cancelled s.cause.isSome s
  | reapExpired (s r) : Step s .reapExpired r s
  | advance (s runID r) : Step s (.advance runID) r s
  | claim (s r) : Step s .claim r s
  | reconcile (s r) : Step s .reconcile r s
  | execute (s item) : Step s (.execute item) () s
  -- a timer that fires together with the end of the context may win the `select`
  | wait (s proceed) (h : proceed = false → s.cause.isSome = true) : Step s .wait proceed s
  | degrade (s consecutive err now) : Step s (.degrade consecutive err) ()
      { s with health := ⟨.degraded, consecutive, err.message, now⟩ }
  | recover (s) : Step s .recover () { s with health := Health.ready }
  | infrastructureError (s operation err) : Step s (.infrastructureError operation err) ()
      { s with reports := s.reports ++ [(operation, err)] }
  -- only the first cancellation sets the cause of a context
  | cancel (s err) : Step s (.cancel err) () { s with cause := s.cause.or (some err) }
  | stop (s err) : Step s (.stop err) () { s with parentErr := s.parentErr.or (some err) }
  | spread (s) : Step s .spread () { s with cause := s.cause.or s.parentErr }

/-- What a loop did: it began a round, reported a failure or found the round healthy. -/
inductive Entry where
  | round
  | failed (operation : Operation) (err : GoError)
  | ready
  deriving DecidableEq, Repr

def observe (s : Pool) : Call → List Entry → List Entry
  | .live, entries => if s.cause.isNone then .round :: entries else entries
  | .infrastructureError operation err, entries => .failed operation err :: entries
  | .recover, entries => .ready :: entries
  | _, entries => entries

def pool : System Pool (List Entry) Call Reply where
  step := Step
  start := []
  observe := observe
  allowed _ _ _ := True

/-- Any number of loops and ends of the caller's context. -/
inductive Spawned (options : Options) : Routine (Option LoopEnd) → Prop
  | loop (rounds : Nat) : Spawned options ((goroutine options rounds).map some)
  | stop (err : GoError) : Spawned options (stopping err)

/-- The calls that leave the pool. -/
def Call.outside : Call → Bool
  | .reapExpired | .advance _ | .claim | .reconcile | .execute _ => true
  | _ => false

theorem Step.eq_of_outside {s s' : Pool} {c : Call} {r : Reply c} (h : Step s c r s')
    (hc : c.outside = true) : s' = s := by
  cases h <;> first | rfl | cases hc

theorem observe_outside {s : Pool} {c : Call} {entries : List Entry} (hc : c.outside = true) :
    observe s c entries = entries := by
  cases c <;> first | rfl | cases hc

/-! ## Histories of a loop -/

/-- The failures since the last healthy round. -/
def failuresInARow : List Entry → Nat
  | [] => 0
  | .round :: rest => failuresInARow rest
  | .failed _ _ :: rest => failuresInARow rest + 1
  | .ready :: _ => 0

/-- A round reports failures or is healthy, and nothing is recorded outside a round. -/
def Follows (previous : Option Entry) : Entry → Prop
  | .round => previous ≠ some .round
  | .failed _ _ => previous ≠ none ∧ previous ≠ some .ready
  | .ready => previous = some .round

def Told : List Entry → Prop
  | [] => True
  | entry :: rest => Follows rest.head? entry ∧ Told rest

/-- The counter shows failures that do not stop a loop. -/
def Below (max : Int) (failures : Nat) : Prop := 0 < max → (failures : Int) < max

/-- A degraded health shows a number of failures with which a loop goes on or stops. -/
def Health.Fits (max : Int) (health : Health) : Prop :=
  health = Health.ready ∨ health.status = .degraded ∧ 1 ≤ health.consecutiveFailures ∧
    (0 < max → (health.consecutiveFailures : Int) ≤ max)

/-- The error is that of a loop which was stopped by a reported failure. -/
def StoppedBy (max : Int) (s : Pool) (err : GoError) : Prop :=
  0 < max ∧ ∃ operation cause, (operation, cause) ∈ s.reports ∧ err = operation.wrap cause

structure Sound (max : Int) (s : Pool) : Prop where
  health : s.health.Fits max
  cause : ∀ err, s.cause = some err → s.parentErr = some err ∨ StoppedBy max s err

/-- What the loops keep for each other. -/
structure Kept (s s' : Pool) : Prop where
  parentErr : ∀ err, s.parentErr = some err → s'.parentErr = some err
  cause : ∀ err, s.cause = some err → s'.cause = some err
  reports : s.reports ⊆ s'.reports

/-- What the end of a loop says about its history. -/
structure Explained (max : Int) (ended : LoopEnd) (entries : List Entry) (s : Pool) : Prop where
  told : Told entries
  below : (∀ err, ended ≠ .returned (some err)) → Below max (failuresInARow entries)
  reached : ∀ err, ended = .returned (some err) → 0 < max ∧ (failuresInARow entries : Int) = max ∧
    ∃ operation cause, entries.head? = some (.failed operation cause) ∧
      (operation, cause) ∈ s.reports ∧ err = operation.wrap cause
  cancelled : ended = .returned none → s.cause.isSome = true

theorem Kept.refl (s : Pool) : Kept s s := ⟨fun _ h => h, fun _ h => h, fun _ h => h⟩

theorem Kept.trans {a b c : Pool} (h : Kept a b) (h' : Kept b c) : Kept a c :=
  ⟨fun err he => h'.parentErr err (h.parentErr err he), fun err he => h'.cause err (h.cause err he),
    fun _ hr => h'.reports (h.reports hr)⟩

theorem Kept.setHealth (s : Pool) (health : Health) : Kept s { s with health := health } :=
  ⟨fun _ h => h, fun _ h => h, fun _ h => h⟩

theorem Kept.report (s : Pool) (report : Operation × GoError) :
    Kept s { s with reports := s.reports ++ [report] } :=
  ⟨fun _ h => h, fun _ h => h, List.subset_append_left _ _⟩

theorem Kept.setParentErr (s : Pool) (err : Option GoError) :
    Kept s { s with parentErr := s.parentErr.or err } :=
  ⟨fun _ h => by simp [h], fun _ h => h, fun _ h => h⟩

theorem Kept.setCause (s : Pool) (err : Option GoError) :
    Kept s { s with cause := s.cause.or err } :=
  ⟨fun _ h => h, fun _ h => by simp [h], fun _ h => h⟩

/-- A context that has ended stays so. -/
theorem Kept.cancelled {s s' : Pool} (h : Kept s s') (hs : s.cause.isSome = true) :
    s'.cause.isSome = true := by
  obtain ⟨err, herr⟩ := Option.isSome_iff_exists.mp hs
  rw [h.cause err herr]
  rfl

theorem StoppedBy.kept {max : Int} {s s' : Pool} {err : GoError} (h : Kept s s')
    (hs : StoppedBy max s err) : StoppedBy max s' err := by
  obtain ⟨hmax, operation, cause, hreport, rfl⟩ := hs
  exact ⟨hmax, operation, cause, h.reports hreport, rfl⟩

/-- A context keeps its first cause, so a later one needs no origin of its own. -/
theorem Sound.setCause {max : Int} {s : Pool} (hs : Sound max s) {err : Option GoError}
    (h : ∀ cause, err = some cause → s.parentErr = some cause ∨ StoppedBy max s cause) :
    Sound max { s with cause := s.cause.or err } := by
  refine ⟨hs.health, fun cause hcause => ?_⟩
  rcases Option.or_eq_some_iff.mp hcause with hold | ⟨-, hnew⟩
  · exact hs.cause cause hold
  · exact h cause hnew

theorem Explained.kept {max : Int} {ended : LoopEnd} {entries : List Entry} {s s' : Pool}
    (h : Kept s s') (hs : Explained max ended entries s) : Explained max ended entries s' where
  told := hs.told
  below := hs.below
  reached err herr := by
    obtain ⟨hmax, hrow, operation, cause, hhead, hreport, hwrap⟩ := hs.reached err herr
    exact ⟨hmax, hrow, operation, cause, hhead, h.reports hreport, hwrap⟩
  cancelled hended := h.cancelled (hs.cancelled hended)

/-! ## One round -/

/-- Inside a round, after failures or before the first one. A failure is not reported if the context
has ended. -/
structure InRound (max : Int) (hadInfrastructureError : Bool) (consecutive : Nat)
    (entries : List Entry) (s : Pool) : Prop where
  told : Told entries
  row : failuresInARow entries = consecutive
  below : Below max consecutive
  opened : entries.head? ≠ none ∧ entries.head? ≠ some .ready
  clean : hadInfrastructureError = false → entries.head? = some .round
  noted : hadInfrastructureError = true → entries.head? ≠ some .round ∨ s.cause.isSome = true

/-- Between two rounds. -/
structure Between (max : Int) (consecutive : Nat) (entries : List Entry) (s : Pool) : Prop where
  told : Told entries
  row : failuresInARow entries = consecutive
  below : Below max consecutive
  closed : entries.head? ≠ some .round ∨ s.cause.isSome = true

/-- What the answer of `infrastructureFailure` stands for. -/
def Judged (max : Int) (operation : Operation) (err : GoError) (answer : Bool × Nat)
    (entries : List Entry) (s : Pool) : Prop :=
  if answer.1 then Explained max (.returned (some (operation.wrap err))) entries s
  else InRound max true answer.2 entries s

section Round

variable {max : Int} {had : Bool} {consecutive : Nat} {entries : List Entry} {s s' : Pool}

theorem InRound.kept (h : Kept s s') (hs : InRound max had consecutive entries s) :
    InRound max had consecutive entries s' :=
  { hs with noted := fun hhad => (hs.noted hhad).imp_right h.cancelled }

theorem Between.kept (h : Kept s s') (hs : Between max consecutive entries s) :
    Between max consecutive entries s' :=
  { hs with closed := hs.closed.imp_right h.cancelled }

theorem Between.ends (hs : Between max consecutive entries s) {ended : LoopEnd}
    (hended : ∀ err, ended ≠ .returned (some err))
    (hcause : ended = .returned none → s.cause.isSome = true) : Explained max ended entries s where
  told := hs.told
  below _ := hs.row ▸ hs.below
  reached err herr := absurd herr (hended err)
  cancelled := hcause

theorem Between.begin (hs : Between max consecutive entries s) (hlive : s.cause.isNone = true) :
    InRound max false consecutive (.round :: entries) s where
  told := by
    refine ⟨hs.closed.resolve_right ?_, hs.told⟩
    rw [Option.isNone_iff_eq_none.mp hlive]
    exact Bool.false_ne_true
  row := hs.row
  below := hs.below
  opened := ⟨nofun, nofun⟩
  clean _ := rfl
  noted := nofun

/-- A reported failure is the next one in a row. -/
theorem InRound.fail (hs : InRound max had consecutive entries s) (operation : Operation)
    (err : GoError) (hreport : (operation, err) ∈ s.reports) :
    Judged max operation err
      (decide (0 < max ∧ max ≤ (consecutive + 1 : Nat)), consecutive + 1)
      (.failed operation err :: entries) s := by
  have htold : Told (.failed operation err :: entries) := ⟨hs.opened, hs.told⟩
  have hrow : failuresInARow (.failed operation err :: entries) = consecutive + 1 :=
    congrArg (· + 1) hs.row
  have hbelow := hs.below
  unfold Below at hbelow
  unfold Judged
  split
  · next hstop =>
    obtain ⟨hmax, hreached⟩ := of_decide_eq_true hstop
    refine ⟨htold, fun hnot => absurd rfl (hnot _), fun err' herr' => ?_, nofun⟩
    have hfull : ((consecutive + 1 : Nat) : Int) = max := by
      have := hbelow hmax
      omega
    cases herr'
    exact ⟨hmax, hrow ▸ hfull, operation, err, rfl, hreport, rfl⟩
  · next hgo =>
    have hnot : ¬(0 < max ∧ max ≤ (consecutive + 1 : Nat)) := fun h => hgo (decide_eq_true h)
    refine ⟨htold, hrow, fun hmax => ?_, ⟨nofun, nofun⟩, nofun, fun _ => Or.inl nofun⟩
    by_contra hge
    exact hnot ⟨hmax, by omega⟩

/-- A failure that only shows the end of the context is not counted. -/
theorem InRound.ignore (hs : InRound max had consecutive entries s)
    (hcause : s.cause.isSome = true) : InRound max true consecutive entries s :=
  { hs with clean := nofun, noted := fun _ => Or.inr hcause }

theorem InRound.recover (hs : InRound max false consecutive entries s) :
    Between max 0 (.ready :: entries) s where
  told := ⟨hs.clean rfl, hs.told⟩
  row := rfl
  below hmax := hmax
  closed := Or.inl nofun

theorem InRound.leave (hs : InRound max true consecutive entries s) :
    Between max consecutive entries s :=
  ⟨hs.told, hs.row, hs.below, hs.noted rfl⟩

end Round

/-! ## Rules -/

/-- A routine that keeps the health and the context in order, whatever the others do. -/
abbrev Rule {α : Type} (max : Int) (P : List Entry → Pool → Prop) (p : Routine α)
    (Q : α → List Entry → Pool → Prop) : Prop :=
  Triple pool (Sound max) Kept Kept P p Q

section Rules

variable {α : Type} {max : Int} {P : List Entry → Pool → Prop} {Q : α → List Entry → Pool → Prop}

/-- A call that changes nothing and is not recorded, with what its reply says. -/
theorem rule_quiet {c : Call} {next : Reply c → Routine α} {M : Reply c → Pool → Prop}
    (hquiet : ∀ s entries, observe s c entries = entries)
    (hstep : ∀ s r s', Step s c r s' → s' = s ∧ M r s)
    (hstable : ∀ entries s s', Kept s s' → P entries s → P entries s')
    (hnext : ∀ r, Rule max (fun entries s => P entries s ∧ M r s) (next r) Q) :
    Rule max P (.call c next) Q := by
  intro entries s hP s' hR hI _ r s'' hs
  obtain ⟨rfl, hM⟩ := hstep s' r s'' hs
  refine ⟨hI, Kept.refl _, ?_⟩
  change Safe pool _ _ _ _ _ (observe _ c entries) _
  rw [hquiet]
  exact hnext r entries _ ⟨hstable entries s _ hR hP, hM⟩

/-- A call of the store, the advancer or a handler may have any reply. -/
theorem rule_outside {c : Call} {next : Reply c → Routine α} (hc : c.outside = true)
    (hstable : ∀ entries s s', Kept s s' → P entries s → P entries s')
    (hnext : ∀ r, Rule max P (next r) Q) : Rule max P (.call c next) Q :=
  rule_quiet (M := fun _ _ => True) (fun _ _ => observe_outside hc)
    (fun _ _ _ h => ⟨h.eq_of_outside hc, trivial⟩) hstable fun r => (hnext r).of fun _ _ h => h.1

end Rules

section Parts

variable {options : Options} {had : Bool} {consecutive : Nat}
  {Q : LoopEnd → List Entry → Pool → Prop}

theorem rule_countFailure (operation : Operation) (err : GoError) :
    Rule options.maxConsecutiveErrors (InRound options.maxConsecutiveErrors had consecutive)
      (countFailure options operation err consecutive)
      (Judged options.maxConsecutiveErrors operation err) := by
  intro entries s hP s₁ hR hI _ r s₂ hs
  have hround := hP.kept hR
  have hshown : 0 < options.maxConsecutiveErrors →
      ((consecutive + 1 : Nat) : Int) ≤ options.maxConsecutiveErrors := by
    intro hmax
    have := hround.below hmax
    omega
  cases hs with
  | degrade _ _ now =>
      have hdegrade := Kept.setHealth s₁ ⟨.degraded, consecutive + 1, err.message, now⟩
      refine ⟨⟨Or.inr ⟨rfl, Nat.succ_pos _, hshown⟩, hI.cause⟩, hdegrade, ?_⟩
      -- the health is set before the observer is told, and other loops may come in between
      intro s₃ hR₃ hI₃ _ r₃ s₄ hs₃
      cases hs₃
      have hreport := Kept.report s₃ (operation, err)
      refine ⟨⟨hI₃.health, fun cause hcause => ?_⟩, hreport, ?_⟩
      · exact (hI₃.cause cause hcause).imp_right (StoppedBy.kept hreport)
      · exact (((hround.kept hdegrade).kept hR₃).kept hreport).fail operation err (by simp)

theorem rule_infrastructureFailure (operation : Operation) (err : GoError) :
    Rule options.maxConsecutiveErrors (InRound options.maxConsecutiveErrors had consecutive)
      (infrastructureFailure options operation err consecutive)
      (Judged options.maxConsecutiveErrors operation err) := by
  unfold infrastructureFailure
  split
  · refine rule_quiet (M := fun r s => r = s.cause.isSome) (fun _ _ => rfl) ?_
      (fun _ _ _ h hs => hs.kept h) ?_
    · intro s r s' h
      cases h
      exact ⟨rfl, rfl⟩
    · intro cancelled
      cases cancelled with
      | true => exact Triple.done fun entries s h => h.1.ignore h.2.symm
      | false => exact (rule_countFailure operation err).of fun _ _ h => h.1
  · exact rule_countFailure operation err

theorem rule_failing (operation : Operation) (err : GoError) {next : Nat → Routine LoopEnd}
    (hnext : ∀ n, Rule options.maxConsecutiveErrors (InRound options.maxConsecutiveErrors true n)
      (next n) (Explained options.maxConsecutiveErrors)) :
    Rule options.maxConsecutiveErrors (InRound options.maxConsecutiveErrors had consecutive)
      (failing options operation err consecutive next) (Explained options.maxConsecutiveErrors) := by
  refine (rule_infrastructureFailure operation err).bind fun answer => ?_
  obtain ⟨stop, n⟩ := answer
  cases stop with
  | true => exact Triple.done fun _ _ h => h
  | false => exact hnext n

theorem rule_advanceRuns (runs : List UUID) {next : Bool → Nat → Routine LoopEnd}
    (hnext : ∀ had n, Rule options.maxConsecutiveErrors
      (InRound options.maxConsecutiveErrors had n) (next had n)
      (Explained options.maxConsecutiveErrors)) :
    Rule options.maxConsecutiveErrors (InRound options.maxConsecutiveErrors had consecutive)
      (advanceRuns options runs had consecutive next)
      (Explained options.maxConsecutiveErrors) := by
  induction runs generalizing had consecutive with
  | nil => exact hnext had consecutive
  | cons runID runs ih =>
      unfold advanceRuns
      split
      · refine rule_outside rfl (fun _ _ _ h hs => hs.kept h) fun r => ?_
        cases r with
        | ok _ => exact ih
        | error err => exact rule_failing .advance err fun n => ih
      · exact ih

theorem rule_reconcileRuns {next : Bool → Nat → Routine LoopEnd}
    (hnext : ∀ had n, Rule options.maxConsecutiveErrors
      (InRound options.maxConsecutiveErrors had n) (next had n)
      (Explained options.maxConsecutiveErrors)) :
    Rule options.maxConsecutiveErrors (InRound options.maxConsecutiveErrors had consecutive)
      (reconcileRuns options had consecutive next) (Explained options.maxConsecutiveErrors) := by
  unfold reconcileRuns
  split
  · refine rule_outside rfl (fun _ _ _ h hs => hs.kept h) fun r => ?_
    cases r with
    | ok _ => exact hnext had consecutive
    | error err => exact rule_failing .reconcile err (hnext true)
  · exact hnext had consecutive

variable {max : Int}

theorem rule_healthy {next : Nat → Routine LoopEnd}
    (hnext : ∀ n, Rule max (Between max n) (next n) (Explained max)) :
    Rule max (InRound max had consecutive) (healthy had consecutive next) (Explained max) := by
  cases had with
  | true => exact (hnext consecutive).of fun _ _ h => h.leave
  | false =>
      intro entries s hP s₁ hR hI _ r s₂ hs
      cases hs
      have hrecover := Kept.setHealth s₁ Health.ready
      refine ⟨⟨Or.inl rfl, hI.cause⟩, hrecover, ?_⟩
      exact hnext 0 _ _ ((hP.kept hR).kept hrecover).recover

theorem rule_waiting {next : Routine LoopEnd}
    (hnext : Rule max (Between max consecutive) next (Explained max)) :
    Rule max (Between max consecutive) (waiting next) (Explained max) := by
  refine rule_quiet (M := fun r s => r = false → s.cause.isSome = true) (fun _ _ => rfl) ?_
    (fun _ _ _ h hs => hs.kept h) fun proceed => ?_
  · intro s r s' h
    cases h with
    | wait _ hend => exact ⟨rfl, hend⟩
  · cases proceed with
    | true => exact hnext.of fun _ _ h => h.1
    | false => exact Triple.done fun _ _ h => h.1.ends nofun fun _ => h.2 rfl

theorem rule_idle {next : Nat → Routine LoopEnd}
    (hnext : ∀ n, Rule options.maxConsecutiveErrors (Between options.maxConsecutiveErrors n)
      (next n) (Explained options.maxConsecutiveErrors)) :
    Rule options.maxConsecutiveErrors (InRound options.maxConsecutiveErrors had consecutive)
      (idle options had consecutive next) (Explained options.maxConsecutiveErrors) :=
  rule_reconcileRuns fun _ _ => rule_healthy fun n => rule_waiting (hnext n)

/-- The condition of the loop begins a round or ends the loop. -/
theorem rule_live {body : Routine LoopEnd}
    (hbody : Rule max (InRound max false consecutive) body (Explained max)) :
    Rule max (Between max consecutive)
      (.call .live fun live => if live then body else .done (.returned none)) (Explained max) := by
  intro entries s hP s₁ hR hI _ r s₂ hs
  have hbetween := hP.kept hR
  cases hs
  refine ⟨hI, Kept.refl _, ?_⟩
  change Safe pool _ _ _ _ (if s₁.cause.isNone then body else .done (.returned none))
    (if s₁.cause.isNone then .round :: entries else entries) _
  by_cases hlive : s₁.cause.isNone = true
  · rw [if_pos hlive, if_pos hlive]
    exact hbody _ _ (hbetween.begin hlive)
  · rw [if_neg hlive, if_neg hlive]
    refine hbetween.ends nofun fun _ => ?_
    exact Option.isSome_iff_ne_none.mpr fun h => hlive (Option.isNone_iff_eq_none.mpr h)

theorem rule_loop (rounds : Nat) :
    Rule options.maxConsecutiveErrors (Between options.maxConsecutiveErrors consecutive)
      (loop options rounds consecutive) (Explained options.maxConsecutiveErrors) := by
  induction rounds generalizing consecutive with
  | zero => exact Triple.done fun _ _ h => h.ends nofun nofun
  | succ rounds ih =>
      refine rule_live (rule_outside rfl (fun _ _ _ h hs => hs.kept h) fun reaped => ?_)
      cases reaped with
      | error err =>
          exact rule_failing .reap err fun n => (rule_waiting ih).of fun _ _ h => h.leave
      | ok runs =>
          refine rule_advanceRuns runs fun had n => ?_
          refine rule_outside rfl (fun _ _ _ h hs => hs.kept h) fun claimed => ?_
          match claimed with
          | .error err => exact rule_failing .claim err fun n => rule_idle fun n => ih
          | .ok [] => exact rule_idle fun n => ih
          | .ok (item :: _) =>
              refine rule_healthy fun n => ?_
              exact rule_outside rfl (fun _ _ _ h hs => hs.kept h) fun _ => ih

/-- What holds of a thread that has returned; the caller's own threads return nothing. -/
def Returned (max : Int) (result : Option LoopEnd) (entries : List Entry) (s : Pool) : Prop :=
  ∀ ended, result = some ended →
    Explained max ended entries s ∧ (ended ≠ .running → s.cause.isSome = true)

theorem rule_goroutine (rounds : Nat) :
    Rule options.maxConsecutiveErrors (Between options.maxConsecutiveErrors 0)
      ((goroutine options rounds).map some) (Returned options.maxConsecutiveErrors) := by
  refine Triple.map ((rule_loop rounds).bind fun ended => ?_)
  match ended with
  | .running =>
      refine Triple.done fun _ _ h => ?_
      rintro _ ⟨⟩
      exact ⟨h, fun hne => absurd rfl hne⟩
  | .returned none =>
      refine Triple.done fun _ _ h => ?_
      rintro _ ⟨⟩
      exact ⟨h, fun _ => h.cancelled rfl⟩
  | .returned (some err) =>
      intro entries s hP s₁ hR hI _ r s₂ hs
      have hended := hP.kept hR
      obtain ⟨hmax, -, operation, cause, -, hreport, hwrap⟩ := hended.reached err rfl
      have hstopped : StoppedBy options.maxConsecutiveErrors s₁ err :=
        ⟨hmax, operation, cause, hreport, hwrap⟩
      cases hs
      refine ⟨hI.setCause ?_, Kept.setCause s₁ (some err), ?_⟩
      · rintro _ ⟨⟩
        exact Or.inr hstopped
      · rintro _ ⟨⟩
        exact ⟨hended.kept (Kept.setCause s₁ (some err)), fun _ => by simp⟩

theorem rule_stopping (err : GoError) :
    Rule max (fun _ _ => True) (stopping err) (Returned max) := by
  intro entries s _ s₁ _ hI _ r s₂ hs
  cases hs
  have hparent := Kept.setParentErr s₁ (some err)
  refine ⟨⟨hI.health, fun cause hcause => ?_⟩, hparent, ?_⟩
  · exact (hI.cause cause hcause).imp (hparent.parentErr cause) (StoppedBy.kept hparent)
  · intro s₃ _ hI₃ _ r₃ s₄ hs₃
    cases hs₃
    exact ⟨hI₃.setCause fun _ h => Or.inl h, Kept.setCause s₃ s₃.parentErr, nofun⟩

end Parts

/-! ## The pool -/

theorem pool_promises {options : Options} {s : Pool}
    {threads : List (Thread (List Entry) Call Reply (Option LoopEnd))}
    (run : Reach pool (Pool.new = ·) (Spawned options) s threads) :
    Sound options.maxConsecutiveErrors s ∧ ∀ t ∈ threads,
      Safe pool (Sound options.maxConsecutiveErrors) Kept Kept
        (Returned options.maxConsecutiveErrors) t.program t.ghost s := by
  refine run.promises Kept.refl (fun _ _ _ _ _ _ h h' => h.trans h') (fun _ _ h => h) ?_ ?_ ?_
  · intro result entries s s' _ _ h hs ended hended
    obtain ⟨hexplained, hcause⟩ := hs ended hended
    exact ⟨hexplained.kept h, fun hne => h.cancelled (hcause hne)⟩
  · rintro s rfl
    exact ⟨Or.inl rfl, nofun⟩
  · intro p hp
    cases hp with
    | loop rounds =>
        refine (rule_goroutine rounds).of fun entries s h => ?_
        obtain ⟨rfl, -⟩ := h
        exact ⟨trivial, rfl, fun hmax => hmax, Or.inl nofun⟩
    | stop err => exact (rule_stopping err).of fun _ _ _ => trivial

/-- The error of `Run` has one of three origins. -/
theorem Sound.result {max : Int} {s : Pool} (hs : Sound max s) {drained : Bool} {err : GoError}
    (h : s.result drained = some err) : drained = false ∧ err = errShutdownTimeout ∨
      s.parentErr = some err ∨ StoppedBy max s err := by
  cases drained with
  | false => exact Or.inl ⟨rfl, (Option.some.inj h).symm⟩
  | true =>
      refine Or.inr ?_
      cases hparent : s.parentErr with
      | some parentErr =>
          simp only [Pool.result, hparent] at h
          exact Or.inl h
      | none =>
          simp only [Pool.result, hparent] at h
          exact (hs.cause err h).imp_left fun hp => hparent ▸ hp

theorem Pool.result_ne_none {s : Pool} (h : s.cause.isSome = true) (drained : Bool) :
    s.result drained ≠ none := by
  unfold Pool.result
  split
  · nofun
  · split
    · nofun
    · exact Option.isSome_iff_ne_none.mp h

/-- In every interleaving of the loops the health is ready or shows failures of a loop, a loop
returns an error after exactly `MaxConsecutiveErrors` failures in a row and names the last one, and
it returns without an error only when its context has ended. `Run` returns the error of the context
it was given, that of a loop which was stopped so, or the end of the grace period, and once a loop
has returned it does not return without an error. -/
theorem loops_stop_after_consecutive_failures {options : Options} {s : Pool}
    {threads : List (Thread (List Entry) Call Reply (Option LoopEnd))}
    (run : Reach pool (Pool.new = ·) (Spawned options) s threads) :
    s.health.Fits options.maxConsecutiveErrors ∧
      (∀ drained err, s.result drained = some err → drained = false ∧ err = errShutdownTimeout ∨
        s.parentErr = some err ∨ StoppedBy options.maxConsecutiveErrors s err) ∧
      ∀ t ∈ threads, ∀ ended, t.program = .done (some ended) →
        Explained options.maxConsecutiveErrors ended t.ghost s ∧
        (ended ≠ .running → ∀ drained, s.result drained ≠ none) := by
  obtain ⟨hsound, hthreads⟩ := pool_promises run
  refine ⟨hsound.health, fun _ _ h => hsound.result h, ?_⟩
  intro t ht ended hended
  have hreturned := hthreads t ht
  rw [hended] at hreturned
  obtain ⟨hexplained, hcause⟩ := hreturned ended rfl
  exact ⟨hexplained, fun hne => Pool.result_ne_none (hcause hne)⟩

def refused : GoError := .text "connection refused"

/-- A store that cannot be reached, at the zero time. -/
def unreachable : Library.Interleaving.Execution pool where
  exec s
    | .live => (s.cause.isNone, s)
    | .cancelled => (s.cause.isSome, s)
    | .reapExpired => (.error refused, s)
    | .advance _ => (.error refused, s)
    | .claim => (.error refused, s)
    | .reconcile => (.error refused, s)
    | .execute _ => ((), s)
    | .wait => (true, s)
    | .degrade consecutive err => ((), { s with health := ⟨.degraded, consecutive, err.message, 0⟩ })
    | .recover => ((), { s with health := Health.ready })
    | .infrastructureError operation err =>
        ((), { s with reports := s.reports ++ [(operation, err)] })
    | .cancel err => ((), { s with cause := s.cause.or (some err) })
    | .stop err => ((), { s with parentErr := s.parentErr.or (some err) })
    | .spread => ((), { s with cause := s.cause.or s.parentErr })
  ready _ _ _ := true
  allowed _ _ _ _ := trivial
  step s _ c _ := by
    cases c with
    | wait => exact Step.wait s true nofun
    | _ => constructor

def twoErrors : Options := ⟨2, none⟩

/-- Each of two loops fails once before the first one fails again. -/
def refusedMoves : List (Move Call Reply (Option LoopEnd)) :=
  [.spawn ((goroutine twoErrors 3).map some), .spawn ((goroutine twoErrors 3).map some)] ++
    List.replicate 5 (.step 0) ++ List.replicate 5 (.step 1) ++ List.replicate 5 (.step 0) ++
    [.step 1]

/-- The histories and the ends of the two loops. -/
def refusedEnds : List (List Entry × Option (Option LoopEnd)) :=
  [([.failed .reap refused, .round, .failed .reap refused, .round],
      some (some (.returned (some (Operation.reap.wrap refused))))),
    ([.failed .reap refused, .round], some (some (.returned none)))]

theorem refusedMoves_reach :
    ∃ s threads, Reach pool (Pool.new = ·) (Spawned twoErrors) s threads ∧
      threads.map (fun t => (t.ghost, t.program.result?)) = refusedEnds ∧
      s.result true = some (Operation.reap.wrap refused) := by
  have hmoves : ∀ m ∈ refusedMoves, m.Spawns (Spawned twoErrors) := by
    simp only [refusedMoves, List.replicate, List.cons_append, List.nil_append, List.forall_mem_cons,
      Move.Spawns, List.not_mem_nil, false_implies, implies_true, and_true]
    exact ⟨Spawned.loop 3, Spawned.loop 3⟩
  have hdrive : (unreachable.drive refusedMoves Pool.new []).any (fun final =>
      decide (final.2.map (fun t => (t.ghost, t.program.result?)) = refusedEnds ∧
        final.1.result true = some (Operation.reap.wrap refused))) = true := by
    decide +kernel
  obtain ⟨s, threads, run, htest⟩ := unreachable.drive_configuration hmoves rfl hdrive
  exact ⟨s, threads, run, of_decide_eq_true htest⟩

/-- The failure of the second loop does not count for the first one, and the second one returns
because the first one has stopped. -/
theorem loops_stop_after_consecutive_failures_of_refused :
    ∃ s threads, Reach pool (Pool.new = ·) (Spawned twoErrors) s threads ∧
      threads.map (fun t => (t.ghost, t.program.result?)) = refusedEnds ∧
      s.result true = some (Operation.reap.wrap refused) ∧ s.health.Fits 2 ∧
      ∀ t ∈ threads, ∀ ended, t.program = .done (some ended) →
        Explained 2 ended t.ghost s ∧ (ended ≠ .running → ∀ drained, s.result drained ≠ none) := by
  obtain ⟨s, threads, run, hends, hresult⟩ := refusedMoves_reach
  obtain ⟨hhealth, -, hended⟩ := loops_stop_after_consecutive_failures run
  exact ⟨s, threads, run, hends, hresult, hhealth, hended⟩

end Ody.Worker.Polling
