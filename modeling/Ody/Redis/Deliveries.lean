import Ody.Redis.Accounts

/-!
# Leases and deliveries of the Redis store

Every outcome that the store accepts under a lease uses up one delivery of that
lease, and an execution is delivered at most `MaxAttempts` times for its creation
and for each restart, in every interleaving of the methods with restarts of
subgraphs and purges.
-/

namespace Ody.Redis

open Library.Tables Library.DerivedIndexes Library.Interleaving Library.Optimistic
open Memory (Env MemoryStore standaloneRequest)

/-! ## Whole runs -/

theorem later_trans (a b c : Server) (ha : Invariant a) (_ : Invariant b) (_ : Invariant c)
    (h : Later a b) (h' : Later b c) : Later a c := h.trans ha.known h'

section Runs

variable {s : Server} {threads :
  List (Thread Unit (TxCall Watch Image Command Query) (TxReply QueryReply) Told)}

/-- The answers of the clients, in the order of their effects, account for the record of one
execution. -/
theorem exists_account (run : Reach (backend.system FreshIDs) Server.Initial Clients s threads)
    (id : UUID) :
    ∃ history, Explains (Recorded id) (Accounts id) Told.gaveUp (· = none) s threads history := by
  have hstart : ∀ s, Server.Initial s → ∃ stored, stored = none ∧ Recorded id s stored := by
    rintro _ rfl
    exact ⟨_, rfl, Recorded.stored⟩
  exact run.explains Later.refl later_trans (fun p hp => (clients_keep hp).of fun _ _ _ => trivial)
    (fun p hp => clients_record id hp) initial_invariant hstart

theorem accepted_loud {id token : UUID} (told : Told) (h : told.accepted id token = true) :
    told.gaveUp = false := by
  cases told with
  | call answer => exact gaveUp_eq_false (Bool.and_eq_true_iff.mp h).2
  | subgraph request result => cases h
  | purged result => cases h

theorem deliveredAny_loud (id : UUID) (told : Told) (h : told.deliveredAny id = true) :
    told.gaveUp = false := by
  cases told with
  | call answer => exact loud_of_delivery h
  | subgraph request result => cases h
  | purged result => cases h

theorem delivered_loud {id token : UUID} (told : Told) (h : told.delivered id token = true) :
    told.gaveUp = false := by
  cases told with
  | call answer => exact loud_of_delivery h
  | subgraph request result => cases h
  | purged result => cases h

theorem restarted_loud (id : UUID) (item : Execution) (told : Told)
    (h : told.restarted id item = true) : told.gaveUp = false := by
  cases told with
  | call answer =>
      have hanswer : answer.restarted id = true := h
      unfold Answer.restarted at hanswer
      split at hanswer
      · exact gaveUp_eq_false (Bool.and_eq_true_iff.mp hanswer).2
      · cases hanswer
  | subgraph request result =>
      cases result with
      | error err => cases h
      | ok root => rfl
  | purged result => cases h

open Classical in
/-- In every interleaving the outcomes that were accepted under a lease are at most as many as the
deliveries under it: with tokens that are handed out once, a lease reports one outcome. -/
theorem outcomes_le_deliveries
    (run : Reach (backend.system FreshIDs) Server.Initial Clients s threads) (id token : UUID) :
    (threads.filterMap (·.program.returned)).countP (Told.accepted id token) ≤
      (threads.filterMap (·.program.returned)).countP (Told.delivered id token) := by
  obtain ⟨history, hhistory⟩ := exists_account run id
  obtain ⟨stored, hlegal, -⟩ := hhistory.legal
  rw [← hhistory.countP_eq accepted_loud, ← hhistory.countP_eq delivered_loud]
  have hcount : (if Leased stored token then 1 else 0) + history.countP (Told.accepted id token) ≤
      history.countP (Told.delivered id token) := by
    refine hlegal.countP_le (fun stored => if Leased stored token then 1 else 0) ?_ ?_
    · rintro _ rfl
      refine if_neg ?_
      rintro ⟨item, hl, -⟩
      cases hl
    · intro told stored stored' h
      by_cases haccepted : told.accepted id token = true
      · obtain ⟨hbefore, hafter⟩ := h.accepted token haccepted
        simp only [if_neg hafter, if_pos hbefore, if_pos haccepted]
        omega
      · rw [if_neg haccepted]
        by_cases hafter : Leased stored' token
        · rcases h.leased token hafter with hbefore | hdelivered
          · simp [hafter, hbefore]
          · simp [hafter, hdelivered]
        · simp [hafter]
  omega

end Runs

/-- A node of a run is delivered to one of two workers, succeeds, is restarted and delivered again. A
purge removes another execution. -/
def restartRace : List (Move (TxCall Watch Image Command Query) (TxReply QueryReply) Told) :=
  [.spawn ((Method.program (Env.at 5 0) (.createPipelineRun ⟨"signup", 1, "", ""⟩)).map .call),
    .step 0, .step 0,
    .spawn ((Method.program (Env.at 5 1) (.createExecution
      ⟨"email", 1, "", 1, zeroTime, "", some 1, "welcome"⟩)).map .call), .step 1, .step 1, .step 1,
    .spawn ((Method.program (Env.at 6 2) (.claimCandidate 0 2 "a" [⟨"email", 1⟩] 10)).map .call),
    .spawn ((Method.program (Env.at 6 30) (.claimCandidate 0 2 "b" [⟨"email", 1⟩] 10)).map .call),
    .step 2, .step 3, .step 2, .step 3, .step 3,
    .spawn ((Method.program (Env.at 7 60) (.succeed 2 18 "done")).map .call), .step 4, .step 4,
    .spawn ((restartPipelineSubgraph (Env.at 8 70) ⟨1, "welcome", [], zeroTime⟩).map
      (.subgraph ⟨1, "welcome", [], zeroTime⟩)), .step 5, .step 5, .step 5,
    .spawn ((Method.program (Env.at 9 80) (.createExecution standaloneRequest)).map .call),
    .spawn ((Method.program (Env.at 9 90) (.claimCandidate 0 2 "b" [⟨"email", 1⟩] 10)).map .call),
    .step 6, .step 7, .step 6, .step 7,
    .spawn ((Method.program (Env.at 9 110) (.cancelExecution 81 "")).map .call), .step 8, .step 8,
    .spawn (.call (.other (.purge 100 0 (RangeOrder.stored _))) fun result => .done (.purged result)),
    .step 9]

theorem restartRace_spawns : ∀ m ∈ restartRace, m.Spawns Clients := by
  have hrestart : Clients ((restartPipelineSubgraph (Env.at 8 70) ⟨1, "welcome", [], zeroTime⟩).map
      (.subgraph ⟨1, "welcome", [], zeroTime⟩)) := .restartPipelineSubgraph _ _ (by decide)
  simp [restartRace, Move.Spawns, Clients.call, Clients.purge, hrestart]

/-- An outcome was accepted under the first lease, and the purge has removed the other execution. -/
def acceptedOnce (final : Server ×
    List (Thread Unit (TxCall Watch Image Command Query) (TxReply QueryReply) Told)) : Bool :=
  (final.2.filterMap (·.program.returned)).countP (Told.accepted 2 18) == 1 &&
    (final.1.keys.executions.records.lookup 81).isNone

theorem outcomes_le_deliveries_of_restartRace : ∃ s threads,
    Reach (backend.system FreshIDs) Server.Initial Clients s threads ∧
      acceptedOnce (s, threads) = true ∧
      (threads.filterMap (·.program.returned)).countP (Told.accepted 2 18) ≤
        (threads.filterMap (·.program.returned)).countP (Told.delivered 2 18) := by
  have hends : (freshExecution.drive restartRace Server.empty []).any acceptedOnce = true := by
    decide +kernel
  have hinitial : Server.Initial Server.empty := rfl
  obtain ⟨s, threads, run, htest⟩ :=
    freshExecution.drive_configuration restartRace_spawns hinitial hends
  exact ⟨s, threads, run, htest, outcomes_le_deliveries run 2 18⟩

/-! ## Deliveries of one execution -/

/-- Whether an execution was restarted depends on the node that it is. -/
theorem restarted_congr (id : UUID) {item item' : Execution} (h : SameIdentity item item') :
    Told.restarted id item' = Told.restarted id item := by
  funext told
  unfold Told.restarted
  rw [h.pipelineRunID, h.nodeKey]

/-- The deliveries of an execution in a history are paid by its attempts and its restarts. -/
def Paid (history : List Told) (id : UUID) : Option Execution → Prop
  | none => history.countP (Told.deliveredAny id) = 0
  | some item => 0 ≤ item.maxAttempts ∧ item.attempt ≤ item.maxAttempts ∧
      (history.countP (Told.deliveredAny id) : Int) ≤
        item.attempt + item.maxAttempts * history.countP (Told.restarted id item)

theorem Paid.turn {history : List Told} {id : UUID} {told : Told}
    {stored stored' : Option Execution} (h : Paid history id stored)
    (hturn : Turn told id stored stored') : Paid (history ++ [told]) id stored' := by
  have hdelivered : (history ++ [told]).countP (Told.deliveredAny id) =
      history.countP (Told.deliveredAny id) + if told.deliveredAny id then 1 else 0 := by
    rw [List.countP_append, List.countP_singleton]
  -- a restart pays as many deliveries as the execution has attempts
  have hpays : ∀ item : Execution, item.maxAttempts * history.countP (Told.restarted id item) +
      (if told.restarted id item then item.maxAttempts else 0) =
        item.maxAttempts * (history ++ [told]).countP (Told.restarted id item) := by
    intro item
    rw [List.countP_append, List.countP_singleton]
    split
    · push_cast
      ring
    · simp
  cases hturn with
  | same hquiet =>
      rw [if_neg (by simp [hquiet]), Nat.add_zero] at hdelivered
      cases stored with
      | none => exact hdelivered.trans h
      | some item =>
          obtain ⟨hmax, hattempt, hcount⟩ := h
          refine ⟨hmax, hattempt, ?_⟩
          rw [hdelivered, ← hpays]
          split <;> omega
  | created hquiet hzero hmax =>
      rw [if_neg (by simp [hquiet]), Nat.add_zero] at hdelivered
      refine ⟨hmax, hzero ▸ hmax, ?_⟩
      rw [hdelivered, show history.countP (Told.deliveredAny id) = 0 from h, hzero, Int.zero_add]
      exact Int.mul_nonneg hmax (Int.natCast_nonneg _)
  | @claimed item item' hless hsucc hlimit hsame =>
      obtain ⟨hmax, hattempt, hcount⟩ := h
      refine ⟨hlimit ▸ hmax, by omega, ?_⟩
      rw [hdelivered, restarted_congr id hsame, hlimit, hsucc, ← hpays]
      split <;> split <;> push_cast <;> omega
  | @moved item item' hquiet hsucc hlimit hsame =>
      obtain ⟨hmax, hattempt, hcount⟩ := h
      rw [if_neg (by simp [hquiet]), Nat.add_zero] at hdelivered
      refine ⟨hlimit ▸ hmax, by omega, ?_⟩
      rw [hdelivered, restarted_congr id hsame, hlimit, hsucc, ← hpays]
      split <;> omega
  | @restarted item item' hquiet hr hzero hlimit hsame =>
      obtain ⟨hmax, hattempt, hcount⟩ := h
      rw [if_neg (by simp [hquiet]), Nat.add_zero] at hdelivered
      refine ⟨hlimit ▸ hmax, by omega, ?_⟩
      rw [hdelivered, restarted_congr id hsame, hlimit, hzero, ← hpays, if_pos hr]
      omega

theorem Paid.legal {history : List Told} {id : UUID} {stored : Option Execution}
    (h : Legal (· = none) (Accounts id) history stored) : Paid history id stored := by
  induction h with
  | start h =>
      subst h
      exact rfl
  | answer past h ih => exact ih.turn h.turn

section Runs

variable {s : Server} {threads :
  List (Thread Unit (TxCall Watch Image Command Query) (TxReply QueryReply) Told)}

/-- In every interleaving an execution was delivered at most `MaxAttempts` times, and as many times
more for each restart, by itself or in a subgraph. -/
theorem deliveries_bounded (run : Reach (backend.system FreshIDs) Server.Initial Clients s threads)
    (id : UUID) (item : Execution) (hl : s.keys.executions.records.lookup id = some item) :
    ((threads.filterMap (·.program.returned)).countP (Told.deliveredAny id) : Int) ≤
      item.maxAttempts *
        (1 + (threads.filterMap (·.program.returned)).countP (Told.restarted id item)) := by
  obtain ⟨history, hhistory⟩ := exists_account run id
  obtain ⟨stored, hlegal, hrecorded⟩ := hhistory.legal
  rw [← hhistory.countP_eq (deliveredAny_loud id), ← hhistory.countP_eq (restarted_loud id item)]
  have hpaid := Paid.legal hlegal
  have hstored : stored = some item := by
    cases hrecorded with
    | stored => exact hl
    | removed _ _ hgone => cases hgone.symm.trans hl
  rw [hstored] at hpaid
  obtain ⟨-, hattempt, hcount⟩ := hpaid
  calc (history.countP (Told.deliveredAny id) : Int)
      ≤ item.attempt + item.maxAttempts * history.countP (Told.restarted id item) := hcount
    _ ≤ item.maxAttempts + item.maxAttempts * history.countP (Told.restarted id item) := by omega
    _ = item.maxAttempts * (1 + history.countP (Told.restarted id item)) := by ring

end Runs

/-- The node that was delivered again. -/
def deliveredAgain : Execution :=
  Memory.claimed (Env.at 9 90) "b" 10 106 (subgraphItem (Env.at 8 70) ⟨1, "welcome", [], zeroTime⟩
    (newExecution (Env.at 5 1) ⟨"email", 1, "", 1, zeroTime, "", some 1, "welcome"⟩))

/-- The node was delivered twice. -/
def deliveredTwice (final : Server ×
    List (Thread Unit (TxCall Watch Image Command Query) (TxReply QueryReply) Told)) : Bool :=
  final.1.keys.executions.records.lookup 2 == some deliveredAgain &&
    (final.2.filterMap (·.program.returned)).countP (Told.deliveredAny 2) == 2

theorem deliveries_bounded_of_restartRace : ∃ s threads,
    Reach (backend.system FreshIDs) Server.Initial Clients s threads ∧
      deliveredTwice (s, threads) = true ∧
      ((threads.filterMap (·.program.returned)).countP (Told.deliveredAny 2) : Int) ≤
        deliveredAgain.maxAttempts *
          (1 + (threads.filterMap (·.program.returned)).countP (Told.restarted 2 deliveredAgain)) := by
  have hends : (freshExecution.drive restartRace Server.empty []).any deliveredTwice = true := by
    decide +kernel
  have hinitial : Server.Initial Server.empty := rfl
  obtain ⟨s, threads, run, htest⟩ :=
    freshExecution.drive_configuration restartRace_spawns hinitial hends
  have hl := beq_iff_eq.mp (Bool.and_eq_true_iff.mp htest).1
  exact ⟨s, threads, run, htest, deliveries_bounded run 2 deliveredAgain hl⟩

end Ody.Redis
