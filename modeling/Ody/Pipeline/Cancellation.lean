import Ody.Pipeline.RunSettlement

/-!
# Cancellation of a run

`Cancel` lists the executions of a run, cancels the active ones one by one and
writes the status of the run last, at the revision it read first. Nothing but
that write is guarded. A node that `advanceOnce` creates or releases meanwhile is
not in the list and stays active in the cancelled run, and a node that finishes
meanwhile makes `Cancel` return after it has cancelled others.

Cancellation is final as long as no node was created or released between the
listing and the write, nor after it. A failed cancellation has changed nothing as
long as it meets no obstacle once it has cancelled something.
-/

namespace Ody.Pipeline

open Library.Tables Library.Interleaving Memory

/-! ## The clients -/

/-- The programs that run at the same time. Only `Cancel` reports what it returned. -/
inductive Contender (registry : Registry) (runID : UUID) :
    Program Call Reply (Option (Except GoError Unit)) → Prop
  | cancel (reason : String) : Contender registry runID ((cancel runID reason).map some)
  | run (definition : Definition) (input : Except GoError RawMessage)
      (options : List (CreatePipelineRun → CreatePipelineRun)) :
      Contender registry runID ((run registry definition input options).map fun _ => none)
  | advance (target : UUID) :
      Contender registry runID ((advance registry target).map fun _ => none)
  | reconcile : Contender registry runID ((reconcile registry).map fun _ => none)
  | worker (c : Call) (h : workerCall c = true) :
      Contender registry runID ((Program.single c).map fun _ => none)

/-! ## A cancelled run stays closed -/

section Final

variable (runID : UUID)

/-- The run is cancelled and none of its executions can be delivered. -/
structure Closed (s : MemoryStore) : Prop where
  run : ∃ run, s.runs.lookup runID = some run ∧ run.status = .cancelled
  inactive : ∀ item, Member s runID item → item.status.isActive = false

/-- A call that gives a node of the run its input finds the run not cancelled. -/
def SuppliesUncancelled (s : MemoryStore) (c : Call) : Prop :=
  (suppliedNode runID s c).isSome = true → ∀ run ∈ s.runs.lookup runID, run.status ≠ .cancelled

/-- Every execution of the run was in the listing, and was not released since. -/
def ListingKept (snapshot s : MemoryStore) : Prop :=
  ∀ item, Member s runID item → ∃ old, Member snapshot runID old ∧
    (old.id = item.id ∧ (old.status = .blocked → item.status = .blocked))

/-- If the call cancels the run, it finds the executions that the thread listed. -/
def CancelsListed (snapshot s : MemoryStore) (c : Call) : Prop :=
  ∀ mark ∈ cancelMark c, mark.1 = runID → ∀ run ∈ s.runs.lookup runID,
    run.revision = mark.2 → ListingKept runID snapshot s

instance (s : MemoryStore) (c : Call) : Decidable (SuppliesUncancelled runID s c) :=
  inferInstanceAs (Decidable ((suppliedNode runID s c).isSome = true → _))

instance (snapshot s : MemoryStore) : Decidable (ListingKept runID snapshot s) :=
  inferInstanceAs (Decidable (∀ item, Member s runID item → _))

instance (snapshot s : MemoryStore) (c : Call) : Decidable (CancelsListed runID snapshot s c) :=
  inferInstanceAs (Decidable (∀ _ ∈ cancelMark c, _))

/-- The store, in the interleavings in which no node is created or released behind the back of a
cancellation. Each thread remembers the store of its last listing. -/
def finalSystem : System World MemoryStore Call Reply where
  step := World.Step
  start := newMemoryStore
  observe := lastListing
  allowed := fun w snapshot c => SparesRun runID c ∧ SuppliesUncancelled runID w.store c ∧
    CancelsListed runID snapshot w.store c

/-- What the clients do not undo: a closed run, and resolved executions. -/
structure Closes (w w' : World) : Prop where
  rely : Rely runID w w'
  closed : Closed runID w.store → Closed runID w'.store
  resolved : ∀ item, Member w.store runID item → item.status.isTerminal = true →
    Member w'.store runID item
  listed : ∀ items, Listed runID items w → Listed runID items w'

variable {registry : Registry} {runID}

theorem Closes.refl (w : World) : Closes runID w w :=
  ⟨Rely.refl w, fun h => h, fun _ h _ => h, fun _ h => h⟩

theorem Closes.trans {a b c : World} (ha : a.Known) (hab : Closes runID a b)
    (hbc : Closes runID b c) : Closes runID a c where
  rely := hab.rely.trans ha hbc.rely
  closed := fun h => hbc.closed (hab.closed h)
  resolved := fun item h hs => hbc.resolved item (hab.resolved item h hs) hs
  listed := fun items h => hbc.listed items (hab.listed items h)

variable (runID) in
/-- A call that keeps a closed run closed. -/
structure Closing (w : World) (c : Call) : Prop where
  mark : ∀ revision status text, c = .setPipelineRunStatus runID revision status text →
    status = .cancelled ∨ ∀ run, w.store.runs.lookup runID = some run → run.revision = revision →
      run.status.isTerminal = false
  supplies : SuppliesUncancelled runID w.store c
  restart : SparesRun runID c
  purge : ∀ before limit, c ≠ .purge before limit

theorem Closing.run_after {w : World} (hknown : w.Known) {env : Env} (hfresh : env.Fresh w)
    {c : Call} (hc : Closing runID w c) {run : PipelineRun}
    (hrun : w.store.runs.lookup runID = some run) (hs : run.status = .cancelled) :
    ∃ run', (w.after env c).store.runs.lookup runID = some run' ∧ run'.status = .cancelled := by
  cases exec_runEffect env w.store c runID with
  | same hsame => exact ⟨run, hsame.trans hrun, hs⟩
  | inserted _ _ => exact absurd (hknown.runs _ _ hrun) (hfresh 0)
  | status hold hnew =>
      cases hrun.symm.trans hold
      rcases hc.mark _ _ _ rfl with rfl | hopen
      · exact ⟨_, hnew, rfl⟩
      · have hterminal := hopen run hold rfl
        simp [hs, RunStatus.isTerminal] at hterminal
  | reopened _ _ => exact absurd rfl (hc.restart _ rfl)
  | deleted _ => exact absurd rfl (hc.purge _ _)

/-- An execution of a cancelled run does not become active. -/
theorem Closing.inactive_after {w : World} {env : Env} {c : Call} (hc : Closing runID w c)
    (hclosed : Closed runID w.store) {item : Execution}
    (hm : Member (w.after env c).store runID item) : item.status.isActive = false := by
  obtain ⟨run, hrun, hs⟩ := hclosed.run
  cases member_origin hm with
  | kept hm => exact hclosed.inactive _ hm
  | @moved _ old item' evs hold t =>
      have hidle := hclosed.inactive old hold
      have hrunID : old.pipelineRunID ≠ none := by simp [hold.2]
      by_contra hactive
      rw [Bool.not_eq_false] at hactive
      have hloud : quiet c = false := by
        by_contra hquiet
        rw [Bool.not_eq_false] at hquiet
        have hbefore := active_before hquiet t hrunID hactive
        exact absurd (hidle.symm.trans hbefore) (by simp)
      cases t with
      | reset haff _ =>
          apply hc.restart _ rfl
          simp only [affected, Bool.and_eq_true, beq_iff_eq] at haff
          exact Option.some.inj (haff.1.symm.trans hold.2)
      | release hblocked =>
          refine hc.supplies ?_ run hrun hs
          simp [suppliedNode, hold.1, hold.2, hblocked]
      | _ => cases hloud
  | created _ hnew hrunID =>
      refine absurd hs (hc.supplies ?_ run hrun)
      simp [suppliedNode, hrunID, hnew]

theorem Closing.after {w : World} (hknown : w.Known) {env : Env} (hfresh : env.Fresh w) {c : Call}
    (hc : Closing runID w c) : Closes runID w (w.after env c) where
  rely := rely_after hknown hfresh c
  closed := by
    intro hclosed
    obtain ⟨run, hrun, hs⟩ := hclosed.run
    exact ⟨hc.run_after hknown hfresh hrun hs, fun _ hm => hc.inactive_after hclosed hm⟩
  resolved := by
    intro item hm hterminal
    rcases resolved_after (c := c) hfresh hknown hm hterminal with
      hkept | ⟨request, rfl, hrunID, -⟩ | ⟨⟨_, _, rfl⟩, -⟩
    · exact hkept
    · exact absurd hrunID (hc.restart request rfl)
    · exact absurd rfl (hc.purge _ _)
  listed := fun _ h => h.after hknown hfresh hc.purge

/-- A call that neither writes a status nor purges. -/
theorem closing_of_allowed {w : World} {c : Call}
    (hmark : ∀ id revision status text, c ≠ .setPipelineRunStatus id revision status text)
    (hpurge : ∀ before limit, c ≠ .purge before limit) (hspares : SparesRun runID c)
    (hsupplies : SuppliesUncancelled runID w.store c) : Closing runID w c :=
  ⟨fun _ _ _ hc => absurd hc (hmark _ _ _ _), hsupplies, hspares, hpurge⟩

theorem AttemptCall.closing {target : UUID} {w : World} {c : Call}
    (h : AttemptCall runID target w c) (hspares : SparesRun runID c)
    (hsupplies : SuppliesUncancelled runID w.store c) : Closing runID w c := by
  have hsettling := h.settling hspares
  exact ⟨fun revision status text hc => Or.inr (hsettling.mark revision status text hc), hsupplies,
    hspares, hsettling.purge⟩

variable (runID) in
theorem final_knows : KnowsRun runID (finalSystem runID) World.Known (Closes runID) :=
  ⟨rfl, fun _ h => h, fun _ _ h => h.rely⟩

theorem tolerated_of_closing {w : World} {c : Call}
    (h : SparesRun runID c → SuppliesUncancelled runID w.store c → Closing runID w c) :
    Tolerated (finalSystem runID) World.Known (Closes runID) w c :=
  fun _ env hknown hfresh ha => ⟨hknown.after env c, (h ha.1 ha.2.1).after hknown hfresh⟩

variable (registry runID) in
/-- The operations of the engine keep a cancelled run closed. -/
def closingOperations :
    OperationRules (finalSystem runID) World.Known (Closes runID) (Closes runID) registry :=
  (final_knows runID).operations registry
    (fun _ _ _ h => tolerated_of_closing h.closing)
    (fun _ c hc => tolerated_of_closing
      (closing_of_allowed (by rintro _ _ _ _ rfl; cases hc) (by rintro _ _ rfl; cases hc)))
    (fun _ _ => tolerated_of_closing (closing_of_allowed (by simp) (by simp)))

/-! ## The loop of `Cancel` -/

variable (runID) in
/-- `Cancel` has listed these executions and has the rest of them before it. -/
structure Cancelling (items rest : List Execution) (snapshot : MemoryStore) (w : World) : Prop where
  listing : ∀ old, Member snapshot runID old → old ∈ items
  listed : Listed runID items w
  resolved : ∀ old ∈ items, old.status.isTerminal = true → Member w.store runID old
  stopped : ∀ old ∈ items, old.status.isActive = true → old ∈ rest ∨
    ∃ now, Member w.store runID now ∧ now.id = old.id ∧ now.status.isTerminal = true

theorem Cancelling.stable {items rest : List Execution} {snapshot : MemoryStore} {w w' : World}
    (h : Cancelling runID items rest snapshot w) (hcloses : Closes runID w w') :
    Cancelling runID items rest snapshot w' where
  listing := h.listing
  listed := hcloses.listed items h.listed
  resolved := fun old hmem hs => hcloses.resolved old (h.resolved old hmem hs) hs
  stopped := by
    intro old hmem hactive
    rcases h.stopped old hmem hactive with hrest | ⟨now, hnow, hid, hterminal⟩
    · exact Or.inl hrest
    · exact Or.inr ⟨now, hcloses.resolved now hnow hterminal, hid, hterminal⟩

/-- An execution that is not active needs no call. -/
theorem Cancelling.pass {items rest : List Execution} {item : Execution} {snapshot : MemoryStore}
    {w : World} (h : Cancelling runID items (item :: rest) snapshot w)
    (hidle : item.status.isActive = false) : Cancelling runID items rest snapshot w := by
  refine ⟨h.listing, h.listed, h.resolved, ?_⟩
  intro old hmem hactive
  rcases h.stopped old hmem hactive with hrest | hstopped
  · rcases List.mem_cons.mp hrest with rfl | hrest
    · exact absurd (hidle.symm.trans hactive) (by simp)
    · exact Or.inl hrest
  · exact Or.inr hstopped

/-- What a cancellation that is not refused stores. -/
theorem cancelExecution_ok {env : Env} {s : MemoryStore} {id : UUID} {reason : String}
    (h : (cancelExecution env s id reason).1 = .ok ()) :
    ∃ item, s.executions.lookup id = some item ∧
      (cancelExecution env s id reason).2.executions.lookup id =
        some (cancelled env reason item) := by
  unfold cancelExecution at h ⊢
  split at h
  · cases h
  · next item hl =>
    split at h
    · cases h
    · next hopen =>
      refine ⟨item, hl, ?_⟩
      simp only [hopen, Bool.false_eq_true, if_false, appendEvent_executions]
      rw [put_lookup]
      exact if_pos (s.executions_keyed id item hl).symm

theorem Cancelling.cancelled {items rest : List Execution} {item : Execution}
    {snapshot : MemoryStore} {w : World} {env : Env} {reason : String}
    (h : Cancelling runID items (item :: rest) snapshot w) (hitem : item ∈ items)
    (hcloses : Closes runID w (w.after env (.cancelExecution item.id reason)))
    (hok : (cancelExecution env w.store item.id reason).1 = .ok ()) :
    Cancelling runID items rest snapshot (w.after env (.cancelExecution item.id reason)) := by
  obtain ⟨hlisting, hlisted, hresolved, hstopped⟩ := h.stable hcloses
  refine ⟨hlisting, hlisted, hresolved, ?_⟩
  intro old hmem hactive
  rcases hstopped old hmem hactive with hrest | hdone
  · rcases List.mem_cons.mp hrest with rfl | hrest
    · right
      obtain ⟨stored, hl, hnew⟩ := cancelExecution_ok hok
      obtain ⟨now, hnow, hid, -⟩ := hlisted old hitem
      have hsame : some now = some (Memory.cancelled env reason stored) := by
        rw [← hnow.1, hid]
        exact hnew
      cases hsame
      exact ⟨_, hnow, hid, rfl⟩
    · exact Or.inl hrest
  · exact Or.inr hdone

theorem cancelItems_triple (reason : String) (items rest : List Execution)
    (hsub : ∀ item ∈ rest, item ∈ items) :
    Triple (finalSystem runID) World.Known (Closes runID) (Closes runID)
      (Cancelling runID items rest) (cancelItems reason rest)
      fun result snapshot w => result = .ok () → Cancelling runID items [] snapshot w := by
  induction rest with
  | nil => exact Triple.done fun _ _ h _ => h
  | cons item rest ih =>
      have hrest := ih fun other hmem => hsub other (List.mem_cons_of_mem _ hmem)
      rw [cancelItems]
      split
      · refine Triple.call ((final_knows runID).triple (fun _ _ _ h => h.stable)
          (Q := fun (reply : Except GoError Unit) snapshot w =>
            reply = .ok () → Cancelling runID items rest snapshot w) ?_ ?_) fun reply => ?_
        · exact fun _ _ _ => tolerated_of_closing (closing_of_allowed (by simp) (by simp))
        · intro snapshot w env hknown hfresh ha h hok
          have hclosing : Closing runID w (.cancelExecution item.id reason) :=
            closing_of_allowed (by simp) (by simp) ha.1 ha.2.1
          exact h.cancelled (hsub item (by simp)) (hclosing.after hknown hfresh) hok
        · cases reply with
          | error err =>
              apply Triple.done
              rintro _ _ _ ⟨⟩
          | ok _ => exact hrest.of fun _ _ h => h rfl
      · next hidle => exact hrest.of fun _ _ h => h.pass (Bool.eq_false_iff.mpr hidle)

/-- What a write of the status that is not refused stores. -/
theorem setPipelineRunStatus_ok {env : Env} {s : MemoryStore} {runID : UUID} {revision : Nat}
    {status : RunStatus} {text : String}
    (h : (setPipelineRunStatus env s runID revision status text).1 = .ok ()) :
    ∃ run, s.runs.lookup runID = some run ∧ run.revision = revision ∧
      (setPipelineRunStatus env s runID revision status text).2 =
        s.putRun (withStatus env status text run) := by
  unfold setPipelineRunStatus at h ⊢
  split at h
  · cases h
  · next run hrun =>
    split at h
    · cases h
    · next hrevision =>
      refine ⟨run, hrun, not_not.mp hrevision, ?_⟩
      simp only [hrevision, if_false]

/-- When all listed executions are stopped and none was added, the run is closed. -/
theorem Cancelling.closed {items : List Execution} {snapshot : MemoryStore} {w : World} {env : Env}
    {revision : Nat} {reason : String} (h : Cancelling runID items [] snapshot w)
    (hlisted : CancelsListed runID snapshot w.store
      (.setPipelineRunStatus runID revision .cancelled reason))
    (hok : (setPipelineRunStatus env w.store runID revision .cancelled reason).1 = .ok ()) :
    Closed runID (w.after env (.setPipelineRunStatus runID revision .cancelled reason)).store := by
  obtain ⟨run, hrun, hrevision, hstore⟩ := setPipelineRunStatus_ok hok
  have hkept := hlisted _ rfl rfl run hrun hrevision
  change Closed runID (setPipelineRunStatus env w.store runID revision .cancelled reason).2
  rw [hstore]
  constructor
  · refine ⟨withStatus env .cancelled reason run, ?_, rfl⟩
    rw [putRun_lookup]
    exact if_pos (w.store.runs_keyed runID run hrun).symm
  · intro item hm
    have hmember : Member w.store runID item := hm
    obtain ⟨old, hold, hid, hblocked⟩ := hkept item hmember
    have hmem := h.listing old hold
    -- an execution that was not blocked has been resolved under the same identifier
    have hsame : ∀ now, Member w.store runID now → now.id = old.id →
        now.status.isTerminal = true → item.status.isActive = false := by
      intro now hnow hid' hterminal
      have hl := hnow.1
      rw [hid', hid, hmember.1] at hl
      cases hl
      exact Status.inactive_of_terminal hterminal
    rcases old.status.trichotomy with hs | hactive | hterminal
    · simp [hblocked hs, Status.isActive]
    · rcases h.stopped old hmem hactive with hrest | ⟨now, hnow, hid', hterminal⟩
      · cases hrest
      · exact hsame now hnow hid' hterminal
    · exact hsame old (h.resolved old hmem hterminal) rfl hterminal

/-- When `Cancel` returns nil, the run is closed. -/
theorem cancel_triple (reason : String) :
    Triple (finalSystem runID) World.Known (Closes runID) (Closes runID) (fun _ _ => True)
      (cancel runID reason) fun result _ w => result = .ok () → Closed runID w.store := by
  have hfailed : ∀ (err : GoError) (P : MemoryStore → World → Prop),
      Triple (finalSystem runID) World.Known (Closes runID) (Closes runID) P
        (.done (.error err) : Operation Unit) fun result _ w => result = .ok () →
          Closed runID w.store := fun _ _ => Triple.done fun _ _ _ hok => nomatch hok
  have rules := closingOperations runID ⟨∅⟩
  refine rules.prepare rfl fun reply => ?_
  cases reply with
  | error err => exact hfailed err _
  | ok run =>
      refine Triple.call ((final_knows runID).triple (P := fun _ _ => True)
        (Q := fun (items : List Execution) => Cancelling runID items items)
        (fun _ _ _ _ _ => trivial) ?_ ?_) fun items => ?_
      · exact fun _ _ _ => tolerated_of_closing (closing_of_allowed (by simp) (by simp))
      · intro snapshot w env hknown hfresh _ _
        refine ⟨fun old hold => mem_listRunExecutions.mpr hold, ?_, ?_, ?_⟩
        · exact fun item hmem => ⟨item, mem_listRunExecutions.mp hmem, rfl, rfl⟩
        · exact fun item hmem _ => mem_listRunExecutions.mp hmem
        · exact fun old hmem _ => Or.inl hmem
      · refine (cancelItems_triple reason items items fun _ h => h).bind fun result => ?_
        cases result with
        | error err => exact hfailed err _
        | ok _ =>
            refine Triple.of (Triple.call ((final_knows runID).triple (fun _ _ _ h => h.stable)
              (Q := fun (reply : Except GoError Unit) _ w => reply = .ok () →
                Closed runID w.store) ?_ ?_) fun reply => Triple.done fun _ _ h => h)
              fun _ _ h => h rfl
            · refine fun _ _ _ => tolerated_of_closing fun hspares hsupplies => ?_
              refine ⟨?_, hsupplies, hspares, by simp⟩
              rintro revision status text hc
              cases hc
              exact Or.inl rfl
            · exact fun snapshot w env _ _ ha h hok => h.closed ha.2.2 hok

theorem Contender.safe {p : Program Call Reply (Option (Except GoError Unit))}
    (h : Contender registry runID p) :
    Triple (finalSystem runID) World.Known (Closes runID) (Closes runID) (fun _ _ => True) p
      fun result _ w => result = some (.ok ()) → Closed runID w.store := by
  let rules := closingOperations runID registry
  have hsilent : ∀ {α : Type} {p : Program Call Reply α},
      Triple (finalSystem runID) World.Known (Closes runID) (Closes runID) (fun _ _ => True) p
        (fun _ _ _ => True) →
      Triple (finalSystem runID) World.Known (Closes runID) (Closes runID) (fun _ _ => True)
        (p.map fun _ => (none : Option (Except GoError Unit)))
        fun result _ w => result = some (.ok ()) → Closed runID w.store :=
    fun hp => (hp.weaken fun _ _ _ _ hnone => nomatch hnone).map
  cases h with
  | cancel reason =>
      refine ((cancel_triple reason).weaken fun result _ _ h hsome => ?_).map
      exact h (Option.some.inj hsome)
  | run definition input options => exact hsilent (rules.run definition input options)
  | advance target => exact hsilent (rules.advance target)
  | reconcile => exact hsilent rules.reconcile
  | worker c hc =>
      refine hsilent (rules.freeCall (fun w => tolerated_of_closing ?_)
        fun _ => OperationRules.ended ())
      apply closing_of_allowed
      · rintro id revision status text rfl
        cases hc
      · rintro before limit rfl
        cases hc

/-- In every interleaving in which no node is created or released behind the back of a
cancellation: once `Cancel` has returned nil, no execution of the run is pending, waiting for a
retry or running, and no claim returns one. -/
theorem cancellation_final {w : World}
    {threads : List (Thread MemoryStore Call Reply (Option (Except GoError Unit)))}
    (h : Reach (finalSystem runID) World.Known (Contender registry runID) w threads)
    {t : Thread MemoryStore Call Reply (Option (Except GoError Unit))} (ht : t ∈ threads)
    (hdone : t.program = .done (some (.ok ()))) :
    (∀ item, Member w.store runID item →
      item.status ≠ .pending ∧ item.status ≠ .retry ∧ item.status ≠ .running) ∧
    ∀ env owner keys limit lease, ∀ item ∈ (claim env w.store owner keys limit lease).1,
      item.pipelineRunID ≠ some runID := by
  have hsafe := (h.promises
    (Q := fun (result : Option (Except GoError Unit)) _ (w : World) =>
      result = some (.ok ()) → Closed runID w.store)
    Closes.refl (fun _ _ _ ha _ _ hab hbc => hab.trans ha hbc) (fun _ _ h => h)
    (fun _ _ _ _ _ _ hcloses hQ hsome => hcloses.closed (hQ hsome)) (fun _ h => h)
    fun p hp => hp.safe.of fun _ _ _ => trivial).2 t ht
  rw [hdone] at hsafe
  have hclosed : Closed runID w.store := hsafe rfl
  constructor
  · intro item hm
    have hidle := hclosed.inactive item hm
    refine ⟨?_, ?_, ?_⟩ <;> intro hs <;> simp [hs, Status.isActive] at hidle
  · intro env owner keys limit lease item hmem hrunID
    obtain ⟨i, candidate, hi, rfl⟩ := mem_claim env w.store hmem
    obtain ⟨hl, hclaimable⟩ := mem_candidates env w.store (List.mem_of_getElem? hi)
    have hidle := hclosed.inactive candidate ⟨hl, hrunID⟩
    obtain ⟨-, -, hs | hs | ⟨hs, -⟩, -⟩ := claimable_iff.mp hclaimable <;>
      simp [hs, Status.isActive] at hidle

end Final

/-! ## Two cancellations -/

/-- Execute the steps that create and release nothing behind the back of a cancellation. -/
def finalExecution (runID : UUID) : Library.Interleaving.Execution (finalSystem runID) where
  exec := storeExecution.exec
  ready := fun w snapshot c => decide (SparesRun runID c ∧ SuppliesUncancelled runID w.store c ∧
    CancelsListed runID snapshot w.store c)
  allowed := by
    intro w snapshot c h
    have hallowed : SparesRun runID c ∧ SuppliesUncancelled runID w.store c ∧
      CancelsListed runID snapshot w.store c := of_decide_eq_true h
    exact hallowed
  step := fun w _ c _ => storeExecution.step w () c rfl

/-- The thread has returned this value. -/
def returned {G : Type} (i : Nat) (result : Option (Except GoError Unit))
    (threads : List (Thread G Call Reply (Option (Except GoError Unit)))) : Bool :=
  threads[i]?.any fun t => decide (t.program.result? = some result)

theorem of_returned {G : Type} {i : Nat} {result : Option (Except GoError Unit)}
    {threads : List (Thread G Call Reply (Option (Except GoError Unit)))}
    (h : returned i result threads = true) : ∃ t ∈ threads, t.program = .done result := by
  rw [returned, Option.any_eq_true] at h
  obtain ⟨t, ht, hresult⟩ := h
  exact ⟨t, List.mem_of_getElem? ht, Program.eq_done_of_result? (of_decide_eq_true hresult)⟩

/-- A worker holds the first node. An advance reads the run, `Cancel` cancels the node, the advance
lists it as cancelled, the worker reports too late, and `Cancel` writes the status before the
advance does. -/
def cancelMoves : List (Move Call Reply (Option (Except GoError Unit))) :=
  .spawn ((run etlRegistry etl (.ok "1") []).map fun _ => none) :: List.replicate 6 (.step 0) ++
  [.spawn ((Program.single claimAny).map fun _ => none), .step 1,
    .spawn ((advance etlRegistry 1).map fun _ => none), .step 2,
    .spawn ((cancel 1 "user request").map some), .step 3, .step 3, .step 3, .step 2,
    .spawn ((Program.single (.succeed 2 3 "2")).map fun _ => none), .step 4, .step 3, .step 2]

/-- `Cancel` has returned nil and the node of the run is cancelled. -/
def cancelledInRace (w : World)
    (threads : List (Thread MemoryStore Call Reply (Option (Except GoError Unit)))) : Bool :=
  returned 3 (some (.ok ())) threads &&
  (w.store.executions.lookup 2).any fun item =>
    item.pipelineRunID == some 1 && item.status == .cancelled

theorem cancellation_final_of_cancelMoves :
    ∃ (w : World) (t : Thread MemoryStore Call Reply (Option (Except GoError Unit)))
      (threads : List (Thread MemoryStore Call Reply (Option (Except GoError Unit))))
      (item : Execution),
      Reach (finalSystem 1) World.Known (Contender etlRegistry 1) w threads ∧ t ∈ threads ∧
      t.program = .done (some (.ok ())) ∧ Member w.store 1 item ∧ item.status = .cancelled ∧
      (∀ item, Member w.store 1 item →
        item.status ≠ .pending ∧ item.status ≠ .retry ∧ item.status ≠ .running) ∧
      ∀ env owner keys limit lease, ∀ item ∈ (claim env w.store owner keys limit lease).1,
        item.pipelineRunID ≠ some 1 := by
  have hclaim : Contender etlRegistry 1 ((Program.single claimAny).map fun _ => none) :=
    .worker _ rfl
  have hsucceed : Contender etlRegistry 1 ((Program.single (.succeed 2 3 "2")).map fun _ => none) :=
    .worker _ rfl
  have hmoves : ∀ m ∈ cancelMoves, m.Spawns (Contender etlRegistry 1) := by
    simp [cancelMoves, Move.Spawns, Contender.run, Contender.cancel, Contender.advance, hclaim,
      hsucceed]
  have hends : ((finalExecution 1).drive cancelMoves (World.init 5) []).any
      (fun final => cancelledInRace final.1 final.2) = true := by decide
  obtain ⟨w, threads, hreach, htest⟩ :=
    (finalExecution 1).drive_configuration hmoves (World.init_known 5) hends
  simp only [cancelledInRace, Bool.and_eq_true, Option.any_eq_true, beq_iff_eq] at htest
  obtain ⟨hreturned, item, hl, hrunID, hs⟩ := htest
  obtain ⟨t, ht, hdone⟩ := of_returned hreturned
  have hm : Member w.store 1 item := by
    refine ⟨?_, hrunID⟩
    rw [w.store.executions_keyed 2 item hl]
    exact hl
  exact ⟨w, t, threads, item, hreach, ht, hdone, hm, hs, cancellation_final hreach ht hdone⟩

/-- The first node has succeeded. An advance lists the executions, `Cancel` reads the run and lists
them too, the advance creates the second node, and `Cancel` writes the status. -/
def lateCreation : List (Move Call Reply (Option (Except GoError Unit))) :=
  .spawn ((run etlRegistry etl (.ok "1") []).map fun _ => none) :: List.replicate 6 (.step 0) ++
  [.spawn ((Program.single claimAny).map fun _ => none), .step 1,
    .spawn ((Program.single (.succeed 2 3 "2")).map fun _ => none), .step 2,
    .spawn ((advance etlRegistry 1).map fun _ => none), .step 3, .step 3,
    .spawn ((cancel 1 "user request").map some), .step 4, .step 4, .step 3, .step 4]

/-- The second node is pending, and the next claim delivers it. -/
def stillDelivered (w : World) : Bool :=
  (w.store.executions.lookup 4).any (fun item =>
    item.pipelineRunID == some 1 && item.status == .pending) &&
  (claim w.env w.store "worker" [⟨"load", 1⟩] 1 10).1.any (·.pipelineRunID == some 1)

/-- `Cancel` has returned nil and a node of the run is pending and is delivered. -/
theorem delivered_after_cancellation :
    ∃ (w : World) (threads : List (Thread Unit Call Reply (Option (Except GoError Unit)))),
      Reach (sparedSystem 1) World.Initial (Contender etlRegistry 1) w threads ∧
      (∃ t ∈ threads, t.program = .done (some (.ok ()))) ∧
      (∃ item, Member w.store 1 item ∧ item.status = .pending) ∧
      ∃ env owner keys limit lease, ∃ item ∈ (claim env w.store owner keys limit lease).1,
        item.pipelineRunID = some 1 := by
  have hclaim : Contender etlRegistry 1 ((Program.single claimAny).map fun _ => none) :=
    .worker _ rfl
  have hsucceed : Contender etlRegistry 1 ((Program.single (.succeed 2 3 "2")).map fun _ => none) :=
    .worker _ rfl
  have hmoves : ∀ m ∈ lateCreation, m.Spawns (Contender etlRegistry 1) := by
    simp [lateCreation, Move.Spawns, Contender.run, Contender.cancel, Contender.advance, hclaim,
      hsucceed]
  have hends : ((sparedExecution 1).drive lateCreation (World.init 5) []).any
      (fun final => returned 4 (some (.ok ())) final.2 && stillDelivered final.1) = true := by decide
  obtain ⟨w, threads, hreach, htest⟩ :=
    (sparedExecution 1).drive_configuration hmoves (World.init_initial 5) hends
  rw [Bool.and_eq_true] at htest
  obtain ⟨hreturned, hdelivered⟩ := htest
  simp only [stillDelivered, Bool.and_eq_true, Option.any_eq_true, List.any_eq_true,
    beq_iff_eq] at hdelivered
  obtain ⟨⟨item, hl, hrunID, hs⟩, delivery, hmem, hdelivery⟩ := hdelivered
  have hm : Member w.store 1 item := by
    refine ⟨?_, hrunID⟩
    rw [w.store.executions_keyed 4 item hl]
    exact hl
  exact ⟨w, threads, hreach, of_returned hreturned, ⟨item, hm, hs⟩,
    w.env, "worker", [⟨"load", 1⟩], 1, 10, delivery, hmem, hdelivery⟩

/-! ## A cancellation that fails -/

section Failed

/-- The call finds what it expects: an execution to cancel, or the revision that was read. -/
def unobstructed (s : MemoryStore) : Call → Bool
  | .cancelExecution id _ => (s.executions.lookup id).any (!·.status.isTerminal)
  | .setPipelineRunStatus id revision _ _ => (s.runs.lookup id).any (·.revision == revision)
  | _ => true

/-- The execution that the call moves to cancelled. -/
def cancels (s : MemoryStore) : Call → Option UUID
  | .cancelExecution id reason =>
      if unobstructed s (.cancelExecution id reason) then some id else none
  | _ => none

/-- The store; each thread remembers the executions that its calls have cancelled. -/
def recordingSystem : System World (List UUID) Call Reply where
  step := World.Step
  start := []
  observe := fun w c moved => moved ++ (cancels w.store c).toList
  allowed := fun _ _ _ => True

/-- The store, in the interleavings in which a thread that has cancelled an execution meets no
obstacle. -/
def steadySystem : System World (List UUID) Call Reply :=
  { recordingSystem with
    allowed := fun w moved c => moved = [] ∨ unobstructed w.store c = true }

/-- An obstacle makes the call fail, and nothing else does. -/
theorem obstructed_of_error {env : Env} {s : MemoryStore} {id : UUID} {reason : String}
    {err : GoError} (h : (cancelExecution env s id reason).1 = .error err) :
    unobstructed s (.cancelExecution id reason) = false := by
  unfold cancelExecution at h
  split at h
  · next hl => simp [unobstructed, hl]
  · next item hl =>
    split at h
    · next hterminal => simp [unobstructed, hl, hterminal]
    · cases h

theorem obstructed_of_conflict {env : Env} {s : MemoryStore} {id : UUID} {revision : Nat}
    {status : RunStatus} {text : String} {err : GoError}
    (h : (setPipelineRunStatus env s id revision status text).1 = .error err) :
    unobstructed s (.setPipelineRunStatus id revision status text) = false := by
  unfold setPipelineRunStatus at h
  split at h
  · next hl => simp [unobstructed, hl]
  · next run hl =>
    split at h
    · next hrevision => simpa [unobstructed, hl] using hrevision
    · cases h

variable {registry : Registry} {runID : UUID}

/-- A program of which nothing is asked. -/
theorem steady_any {α : Type} (p : Program Call Reply α) :
    Triple steadySystem (fun _ => True) (fun _ _ => True) (fun _ _ => True) (fun _ _ => True) p
      fun _ _ _ => True := by
  intro moved w _
  induction p generalizing moved w with
  | done a => trivial
  | call c next ih => exact fun w' _ _ _ r w'' _ => ⟨trivial, trivial, ih r _ _⟩

/-- A call that fails only at an obstacle fails before anything was cancelled. -/
theorem steady_call {P : List UUID → World → Prop} {c : Call} {Q : Reply c → List UUID → World → Prop}
    (h : ∀ moved w (env : Env), P moved w → moved = [] ∨ unobstructed w.store c = true →
      Q (exec env w.store c).1 (moved ++ (cancels w.store c).toList) (w.after env c))
    (hstable : ∀ moved w w', P moved w → P moved w') :
    CallTriple steadySystem (fun _ => True) (fun _ _ => True) (fun _ _ => True) P c Q := by
  rintro moved w hP w' - - ha r w'' ⟨env, -, rfl, rfl⟩
  exact ⟨trivial, trivial, h moved w' env (hstable moved w w' hP) ha⟩

theorem steady_cancelExecution (id : UUID) (reason : String) :
    CallTriple steadySystem (fun _ => True) (fun _ _ => True) (fun _ _ => True) (fun _ _ => True)
      (.cancelExecution id reason) fun (reply : Except GoError Unit) moved _ =>
        ∀ err, reply = .error err → moved = [] := by
  refine steady_call ?_ fun _ _ _ _ => trivial
  intro moved w env _ hallowed err herr
  have hobstructed := obstructed_of_error herr
  rcases hallowed with rfl | hclear
  · simp [cancels, hobstructed]
  · exact absurd (hobstructed.symm.trans hclear) (by simp)

theorem steady_setPipelineRunStatus (revision : Nat) (status : RunStatus) (text : String) :
    CallTriple steadySystem (fun _ => True) (fun _ _ => True) (fun _ _ => True) (fun _ _ => True)
      (.setPipelineRunStatus runID revision status text)
      fun (reply : Except GoError Unit) moved _ => ∀ err, reply = .error err → moved = [] := by
  refine steady_call ?_ fun _ _ _ _ => trivial
  intro moved w env _ hallowed err herr
  have hobstructed := obstructed_of_conflict herr
  rcases hallowed with rfl | hclear
  · simp [cancels]
  · exact absurd (hobstructed.symm.trans hclear) (by simp)

theorem steady_cancelItems (reason : String) (items : List Execution) :
    Triple steadySystem (fun _ => True) (fun _ _ => True) (fun _ _ => True) (fun _ _ => True)
      (cancelItems reason items) fun result moved _ => ∀ err, result = .error err → moved = [] := by
  induction items with
  | nil => exact Triple.done fun _ _ _ _ herr => nomatch herr
  | cons item rest ih =>
      rw [cancelItems]
      split
      · refine Triple.call (steady_cancelExecution item.id reason) fun reply => ?_
        cases reply with
        | error err => exact Triple.done fun _ _ h _ _ => h err rfl
        | ok _ => exact ih.of fun _ _ _ => trivial
      · exact ih

theorem steady_cancel (reason : String) :
    Triple steadySystem (fun _ => True) (fun _ _ => True) (fun _ _ => True)
      (fun moved _ => moved = []) (cancel runID reason)
      fun result moved _ => ∀ err, result = .error err → moved = [] := by
  have hread : ∀ {c : Call}, (∀ w : World, cancels w.store c = none) →
      CallTriple steadySystem (fun _ => True) (fun _ _ => True) (fun _ _ => True)
        (fun moved _ => moved = []) c fun _ moved _ => moved = [] := by
    intro c hc
    refine steady_call ?_ fun _ _ _ h => h
    rintro moved w env rfl -
    simp [hc w]
  refine Triple.call (hread fun _ => rfl) fun reply => ?_
  cases reply with
  | error err => exact Triple.done fun _ _ h _ _ => h
  | ok run =>
      refine Triple.call (hread fun _ => rfl) fun items => ?_
      refine ((steady_cancelItems reason items).of fun _ _ _ => trivial).bind fun result => ?_
      cases result with
      | error err => exact Triple.done fun _ _ h _ _ => h err rfl
      | ok _ =>
          exact (Triple.call (steady_setPipelineRunStatus run.revision .cancelled reason)
            fun _ => Triple.done fun _ _ h => h).of fun _ _ _ => trivial

theorem Contender.steady {p : Program Call Reply (Option (Except GoError Unit))}
    (h : Contender registry runID p) :
    Triple steadySystem (fun _ => True) (fun _ _ => True) (fun _ _ => True)
      (fun moved _ => moved = []) p
      fun result moved _ => ∀ err, result = some (.error err) → moved = [] := by
  have hsilent : ∀ {α : Type} (p : Program Call Reply α),
      Triple steadySystem (fun _ => True) (fun _ _ => True) (fun _ _ => True)
        (fun moved _ => moved = []) (p.map fun _ => (none : Option (Except GoError Unit)))
        fun result moved _ => ∀ err, result = some (.error err) → moved = [] := by
    intro α p
    refine Triple.map (((steady_any p).of fun _ _ _ => trivial).weaken ?_)
    exact fun _ _ _ _ _ hnone => nomatch hnone
  cases h with
  | cancel reason =>
      refine Triple.map ((steady_cancel reason).weaken ?_)
      exact fun _ _ _ h err herr => h err (Option.some.inj herr)
  | run definition input options => exact hsilent _
  | advance target => exact hsilent _
  | reconcile => exact hsilent _
  | worker c _ => exact hsilent _

/-- In every interleaving in which a `Cancel` that has cancelled an execution meets no obstacle: a
`Cancel` that returned an error has cancelled no execution. -/
theorem failed_cancel_changes_nothing {initial : World → Prop} {w : World}
    {threads : List (Thread (List UUID) Call Reply (Option (Except GoError Unit)))}
    (h : Reach steadySystem initial (Contender registry runID) w threads)
    {t : Thread (List UUID) Call Reply (Option (Except GoError Unit))} (ht : t ∈ threads)
    {err : GoError} (hdone : t.program = .done (some (.error err))) : t.ghost = [] := by
  have hsafe := (h.promises (I := fun _ => True) (R := fun _ _ => True)
    (Q := fun (result : Option (Except GoError Unit)) moved _ =>
      ∀ err, result = some (.error err) → moved = [])
    (fun _ => trivial) (fun _ _ _ _ _ _ _ _ => trivial) (fun _ _ h => h)
    (fun _ _ _ _ _ _ _ h => h) (fun _ _ => trivial)
    fun p hp => hp.steady.of fun _ _ h => h.1).2 t ht
  rw [hdone] at hsafe
  exact hsafe err rfl

/-! ## Two failures -/

/-- Execute any step, with the record of what each thread cancels. -/
def recordingExecution : Library.Interleaving.Execution recordingSystem where
  exec := storeExecution.exec
  ready := fun _ _ _ => true
  allowed := fun _ _ _ _ => trivial
  step := fun w _ c _ => storeExecution.step w () c rfl

/-- Execute the steps that meet no obstacle after a cancellation. -/
def steadyExecution : Library.Interleaving.Execution steadySystem where
  exec := storeExecution.exec
  ready := fun w moved c => decide (moved = [] ∨ unobstructed w.store c = true)
  allowed := by
    intro w moved c h
    have hallowed : moved = [] ∨ unobstructed w.store c = true := of_decide_eq_true h
    exact hallowed
  step := fun w _ c _ => storeExecution.step w () c rfl

/-- The only node finishes after `Cancel` has listed it. -/
def lateFinish : List (Move Call Reply (Option (Except GoError Unit))) :=
  .spawn ((run etlRegistry etl (.ok "1") []).map fun _ => none) :: List.replicate 6 (.step 0) ++
  [.spawn ((Program.single claimAny).map fun _ => none), .step 1,
    .spawn ((cancel 1 "user request").map some), .step 2, .step 2,
    .spawn ((Program.single (.succeed 2 3 "2")).map fun _ => none), .step 3, .step 2]

theorem failed_cancel_changes_nothing_of_lateFinish :
    ∃ (w : World) (t : Thread (List UUID) Call Reply (Option (Except GoError Unit)))
      (threads : List (Thread (List UUID) Call Reply (Option (Except GoError Unit)))),
      Reach steadySystem World.Initial (Contender etlRegistry 1) w threads ∧ t ∈ threads ∧
      t.program = .done (some (.error .notFound)) ∧ t.ghost = [] := by
  have hclaim : Contender etlRegistry 1 ((Program.single claimAny).map fun _ => none) :=
    .worker _ rfl
  have hsucceed : Contender etlRegistry 1 ((Program.single (.succeed 2 3 "2")).map fun _ => none) :=
    .worker _ rfl
  have hmoves : ∀ m ∈ lateFinish, m.Spawns (Contender etlRegistry 1) := by
    simp [lateFinish, Move.Spawns, Contender.run, Contender.cancel, hclaim, hsucceed]
  have hends : (steadyExecution.drive lateFinish (World.init 5) []).any
      (fun final => returned 2 (some (.error .notFound)) final.2) = true := by decide
  obtain ⟨w, threads, hreach, htest⟩ :=
    steadyExecution.drive_configuration hmoves (World.init_initial 5) hends
  obtain ⟨t, ht, hdone⟩ := of_returned htest
  exact ⟨w, t, threads, hreach, ht, hdone, failed_cancel_changes_nothing hreach ht hdone⟩

/-- Two nodes are pending. The one that is listed last finishes after the listing, before `Cancel`
has reached it. -/
def halfCancelled : List (Move Call Reply (Option (Except GoError Unit))) :=
  .spawn ((run forkRegistry fork (.ok "1") []).map fun _ => none) :: List.replicate 7 (.step 0) ++
  [.spawn ((cancel 1 "user request").map some), .step 1, .step 1, .step 1,
    .spawn ((Program.single (claimTask "left")).map fun _ => none), .step 2,
    .spawn ((Program.single (.succeed 2 4 "2")).map fun _ => none), .step 3, .step 1]

/-- The thread has returned an error and has cancelled the execution of the right node. -/
def failedHalfway (w : World)
    (threads : List (Thread (List UUID) Call Reply (Option (Except GoError Unit)))) : Bool :=
  threads[1]?.any (fun t => decide (t.program.result? = some (some (.error .notFound))) &&
    decide (t.ghost = [3])) &&
  (w.store.executions.lookup 3).any fun item =>
    item.pipelineRunID == some 1 && item.status == .cancelled

/-- `Cancel` returns an error although it has cancelled a node of the run. -/
theorem failed_cancel_halfway :
    ∃ (w : World) (t : Thread (List UUID) Call Reply (Option (Except GoError Unit)))
      (threads : List (Thread (List UUID) Call Reply (Option (Except GoError Unit))))
      (item : Execution),
      Reach recordingSystem World.Initial (Contender forkRegistry 1) w threads ∧ t ∈ threads ∧
      t.program = .done (some (.error .notFound)) ∧ t.ghost = [item.id] ∧
      Member w.store 1 item ∧ item.status = .cancelled := by
  have hclaim : Contender forkRegistry 1 ((Program.single (claimTask "left")).map fun _ => none) :=
    .worker _ rfl
  have hsucceed : Contender forkRegistry 1
      ((Program.single (.succeed 2 4 "2")).map fun _ => none) := .worker _ rfl
  have hmoves : ∀ m ∈ halfCancelled, m.Spawns (Contender forkRegistry 1) := by
    simp [halfCancelled, Move.Spawns, Contender.run, Contender.cancel, hclaim, hsucceed]
  have hends : (recordingExecution.drive halfCancelled (World.init 5) []).any
      (fun final => failedHalfway final.1 final.2) = true := by decide
  obtain ⟨w, threads, hreach, htest⟩ :=
    recordingExecution.drive_configuration hmoves (World.init_initial 5) hends
  simp only [failedHalfway, Bool.and_eq_true, Option.any_eq_true, decide_eq_true_eq,
    beq_iff_eq] at htest
  obtain ⟨⟨t, ht, hresult, hghost⟩, item, hl, hrunID, hs⟩ := htest
  have hid := w.store.executions_keyed 3 item hl
  refine ⟨w, t, threads, item, hreach, List.mem_of_getElem? ht, Program.eq_done_of_result? hresult,
    ?_, ⟨?_, hrunID⟩, hs⟩
  · rw [hid]
    exact hghost
  · rw [hid]
    exact hl

end Failed

end Ody.Pipeline
