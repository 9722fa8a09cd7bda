import Mathlib.Data.Prod.Lex
import Ody.Execution.Calls

/-!
# What one call does to one record

`exec_effect` says once, for every call and every execution, how the record and
its event history change. The invariants of later modules are read off it and
never unfold a method of the store again. `exec_runEffect` does the same for
pipeline runs.
-/

namespace Ody.Memory

open Library.Tables

/-! ## Primitive updates -/

section Primitives

variable (s : MemoryStore) (env : Env) (item : Execution) (run : PipelineRun) (id : UUID)

theorem put_lookup :
    (s.put item).executions.lookup id = if id = item.id then some item else s.executions.lookup id :=
  lookup_insert_ite _ _ _ _

theorem putRun_lookup :
    (s.putRun run).runs.lookup id = if id = run.id then some run else s.runs.lookup id :=
  lookup_insert_ite _ _ _ _

/-- The event that `appendEvent` records. -/
def event (env : Env) (item : Execution) (eventType : EventType) (errorText : String) : Event where
  executionID := item.id
  type := eventType
  attempt := item.attempt
  error := errorText
  createdAt := env.now

theorem history_appendEvent (eventType : EventType) (errorText : String) :
    (s.appendEvent env item eventType errorText).history id =
      if id = item.id then s.history id ++ [event env item eventType errorText]
      else s.history id := by
  simp only [MemoryStore.history, MemoryStore.appendEvent, lookup_insert_ite]
  split
  · next h =>
    rw [h]
    rfl
  · rfl

@[simp] theorem put_runs : (s.put item).runs = s.runs := rfl

@[simp] theorem put_history : (s.put item).history id = s.history id := rfl

@[simp] theorem appendEvent_executions (eventType : EventType) (errorText : String) :
    (s.appendEvent env item eventType errorText).executions = s.executions := rfl

@[simp] theorem appendEvent_runs (eventType : EventType) (errorText : String) :
    (s.appendEvent env item eventType errorText).runs = s.runs := rfl

@[simp] theorem appendEvent_nodes (eventType : EventType) (errorText : String) :
    (s.appendEvent env item eventType errorText).nodes = s.nodes := rfl

@[simp] theorem putRun_history : (s.putRun run).history id = s.history id := rfl

/-- The values a loop visits are the stored records. -/
theorem mem_items (i : Nat) : item ∈ s.items env i ↔ s.executions.lookup item.id = some item :=
  mem_range_values s.executions_keyed

theorem mem_runItems (i : Nat) : run ∈ s.runItems env i ↔ s.runs.lookup run.id = some run :=
  mem_range_values s.runs_keyed

/-- No two values of a loop share an identifier. -/
theorem items_ids_nodup (i : Nat) : ((s.items env i).map (·.id)).Nodup :=
  range_values_nodup s.executions_keyed _

end Primitives

/-! ## Loops that save records -/

section Saving

variable (env : Env) (eventType : EventType) (text : Execution → String)

/-- A loop that stores records and one event for each of them. -/
def saveAll (s : MemoryStore) (items : List Execution) : MemoryStore :=
  items.foldl (fun s item => (s.put item).appendEvent env item eventType (text item)) s

theorem saveAll_other (s : MemoryStore) (items : List Execution) (id : UUID)
    (h : id ∉ items.map (·.id)) :
    (saveAll env eventType text s items).executions.lookup id = s.executions.lookup id ∧
      (saveAll env eventType text s items).history id = s.history id := by
  induction items generalizing s with
  | nil => exact ⟨rfl, rfl⟩
  | cons item rest ih =>
      rw [List.map_cons, List.mem_cons, not_or] at h
      obtain ⟨hne, hrest⟩ := h
      obtain ⟨hl, hh⟩ := ih ((s.put item).appendEvent env item eventType (text item)) hrest
      simp only [saveAll, List.foldl_cons] at hl hh ⊢
      rw [hl, hh, history_appendEvent, if_neg hne, appendEvent_executions, put_lookup, if_neg hne]
      exact ⟨rfl, rfl⟩

theorem saveAll_saved (s : MemoryStore) (items : List Execution)
    (hnodup : (items.map (·.id)).Nodup) (item : Execution) (h : item ∈ items) :
    (saveAll env eventType text s items).executions.lookup item.id = some item ∧
      (saveAll env eventType text s items).history item.id =
        s.history item.id ++ [event env item eventType (text item)] := by
  induction items generalizing s with
  | nil => cases h
  | cons first rest ih =>
      rw [List.map_cons, List.nodup_cons] at hnodup
      obtain ⟨hfirst, hrest⟩ := hnodup
      let s' := (s.put first).appendEvent env first eventType (text first)
      rcases List.mem_cons.mp h with rfl | hmem
      · obtain ⟨hl, hh⟩ := saveAll_other env eventType text s' rest item.id hfirst
        simp only [saveAll, List.foldl_cons] at hl hh ⊢
        rw [hl, hh, history_appendEvent, if_pos rfl, appendEvent_executions, put_lookup, if_pos rfl]
        exact ⟨rfl, rfl⟩
      · have hne : item.id ≠ first.id := by
          intro heq
          exact hfirst (heq ▸ List.mem_map_of_mem hmem)
        obtain ⟨hl, hh⟩ := ih s' hrest hmem
        simp only [saveAll, List.foldl_cons] at hl hh ⊢
        rw [hl, hh, history_appendEvent, if_neg hne]
        exact ⟨rfl, rfl⟩

/-- A loop over the whole store that replaces the records that pass a test. -/
theorem saveAll_items (s : MemoryStore) (i : Nat) (p : Execution → Bool) {f : Execution → Execution}
    (hf : ∀ item, (f item).id = item.id) (id : UUID) :
    (saveAll env eventType text s (((s.items env i).filter p).map f)).executions.lookup id =
        (s.executions.lookup id).map (fun item => if p item then f item else item) ∧
      (saveAll env eventType text s (((s.items env i).filter p).map f)).history id =
        s.history id ++ ((s.executions.lookup id).filter p).toList.map fun item =>
          event env (f item) eventType (text (f item)) := by
  have hids : ((((s.items env i).filter p).map f).map (·.id)) =
      ((s.items env i).filter p).map (·.id) := by
    rw [List.map_map]
    exact List.map_congr_left fun item _ => hf item
  have hnodup : ((((s.items env i).filter p).map f).map (·.id)).Nodup := by
    rw [hids]
    exact (items_ids_nodup s env i).sublist (List.filter_sublist.map _)
  by_cases hin : id ∈ ((s.items env i).filter p).map (·.id)
  · obtain ⟨item, hitem, rfl⟩ := List.mem_map.mp hin
    obtain ⟨hstored, hpass⟩ := List.mem_filter.mp hitem
    rw [mem_items] at hstored
    have hsaved := saveAll_saved env eventType text s _ hnodup (f item) (List.mem_map_of_mem hitem)
    rw [hf] at hsaved
    rw [hsaved.1, hsaved.2, hstored]
    simp [Option.filter_some, hpass]
  · have hother :=
      saveAll_other env eventType text s (((s.items env i).filter p).map f) id (hids ▸ hin)
    rw [hother.1, hother.2]
    cases hl : s.executions.lookup id with
    | none => simp
    | some item =>
        have hfail : ¬p item = true := by
          intro hpass
          have hid := s.executions_keyed id item hl
          refine hin (List.mem_map.mpr ⟨item, List.mem_filter.mpr ⟨?_, hpass⟩, hid⟩)
          rw [mem_items, hid]
          exact hl
        simp [hfail]

@[simp] theorem saveAll_runs (s : MemoryStore) (items : List Execution) :
    (saveAll env eventType text s items).runs = s.runs :=
  foldl_frame (fun s item => (s.put item).appendEvent env item eventType (text item)) (·.runs)
    (fun _ _ => rfl) items s

@[simp] theorem saveAll_nodes (s : MemoryStore) (items : List Execution) :
    (saveAll env eventType text s items).nodes = s.nodes :=
  foldl_frame (fun s item => (s.put item).appendEvent env item eventType (text item)) (·.nodes)
    (fun _ _ => rfl) items s

end Saving

/-! ## Changes of one execution -/

/-- The record is delivered under this token. -/
def Owned (item : Execution) (token : UUID) : Prop :=
  item.status = .running ∧ token ≠ nilUUID ∧ item.leaseToken = token

/-- How a call replaces a stored record, and the events it appends. -/
inductive Transition (env : Env) (s : MemoryStore) :
    Call → Execution → Execution → List Event → Prop
  | claim {owner keys limit lease item i} (h : claimable keys env.now item = true)
      (hi : (candidates env s keys limit)[i]? = some item) :
      Transition env s (.claim owner keys limit lease) item
        (claimed env owner lease (env.newUUID i) item)
        [event env (claimed env owner lease (env.newUUID i) item) .started ""]
  | reap {item} (h : reapable env.now item = true) :
      Transition env s .reapExpired item (reaped env item)
        [event env (reaped env item) .failed (reaped env item).lastError]
  | heartbeat {item token lease} (h : Owned item token) :
      Transition env s (.heartbeat item.id token lease) item
        { item with leaseUntil := env.now + lease } []
  | succeed {item token output} (h : Owned item token) :
      Transition env s (.succeed item.id token output) item (succeeded env output item)
        [event env (succeeded env output item) .succeeded ""]
  | exhaust {item token errorText delay} (h : Owned item token)
      (ha : item.maxAttempts ≤ item.attempt) :
      Transition env s (.retry item.id token errorText delay) item (exhausted env errorText item)
        [event env (exhausted env errorText item) .failed errorText]
  | retry {item token errorText delay} (h : Owned item token)
      (ha : item.attempt < item.maxAttempts) :
      Transition env s (.retry item.id token errorText delay) item
        (retried env errorText delay item)
        [event env (retried env errorText delay item) .retried errorText]
  | fail {item token errorText} (h : Owned item token) :
      Transition env s (.fail item.id token errorText) item (failed env errorText item)
        [event env (failed env errorText item) .failed errorText]
  | cancel {item reason} (h : item.status.isTerminal = false) :
      Transition env s (.cancelExecution item.id reason) item (cancelled env reason item)
        [event env (cancelled env reason item) .cancelled reason]
  | restart {item availableAt at'} (hrun : item.pipelineRunID = none)
      (h : item.status.isActive = false) :
      Transition env s (.restartExecution item.id availableAt) item (restarted .pending at' item)
        [event env (restarted .pending at' item) .restarted ""]
  | reset {item request} (ha : affected request item = true) (h : item.status.isActive = false) :
      Transition env s (.restartPipelineSubgraph request) item (subgraphReset env request item)
        [event env (subgraphReset env request item) .restarted ""]
  | release {item input availableAt} (h : item.status = .blocked) :
      Transition env s (.releaseExecution item.id input availableAt) item
        (released env input availableAt item) []

/-- What a call does to the record and the history stored under one identifier. -/
inductive Effect (env : Env) (s s' : MemoryStore) : Call → UUID → Prop
  | same {c id} (h : s'.executions.lookup id = s.executions.lookup id)
      (hh : s'.history id = s.history id) : Effect env s s' c id
  | inserted {request} (hname : request.taskName ≠ "") (hnew : existing s request = none)
      (h : s'.executions.lookup (env.newUUID 0) = some (created env request))
      (hh : s'.history (env.newUUID 0) =
        s.history (env.newUUID 0) ++ [event env (created env request) .created ""]) :
      Effect env s s' (.createExecution request) (env.newUUID 0)
  | moved {c id item item' evs} (hold : s.executions.lookup id = some item)
      (h : s'.executions.lookup id = some item') (hh : s'.history id = s.history id ++ evs)
      (t : Transition env s c item item' evs) : Effect env s s' c id
  | deleted {before limit id} (h : s'.executions.lookup id = none) (hh : s'.history id = []) :
      Effect env s s' (.purge before limit) id

/-- A call that leaves the store alone. -/
theorem Effect.refl (env : Env) (s : MemoryStore) (c : Call) (id : UUID) :
    Effect env s s c id := Effect.same rfl rfl

theorem owned_ok {s : MemoryStore} {id token : UUID} {item : Execution}
    (h : owned s id token = .ok item) :
    s.executions.lookup id = some item ∧ item.id = id ∧ Owned item token := by
  unfold owned at h
  split at h
  · cases h
  · next stored hlookup =>
    split at h
    · cases h
    · next hown =>
      cases h
      push Not at hown
      exact ⟨hlookup, s.executions_keyed id _ hlookup, hown⟩

theorem owned_eq_ok {s : MemoryStore} {id token : UUID} {item : Execution}
    (hl : s.executions.lookup id = some item) (h : Owned item token) :
    owned s id token = .ok item := by
  obtain ⟨hs, hnil, htoken⟩ := h
  simp [owned, hl, hs, hnil, htoken]

/-- No call moves a record to another identifier. -/
theorem Transition.id_eq {env : Env} {s : MemoryStore} {c : Call} {item item' : Execution}
    {evs : List Event} (t : Transition env s c item item' evs) : item'.id = item.id := by
  cases t <;> rfl

/-- Saving one new version of a stored record changes that record only. -/
theorem save_effect {env : Env} {s : MemoryStore} {c : Call} {item item' : Execution}
    {eventType : EventType} {errorText : String} (hold : s.executions.lookup item.id = some item)
    (t : Transition env s c item item' [event env item' eventType errorText]) (id : UUID) :
    Effect env s ((s.put item').appendEvent env item' eventType errorText) c id := by
  by_cases h : id = item'.id
  · subst h
    refine Effect.moved (t.id_eq ▸ hold) ?_ ?_ t
    · rw [appendEvent_executions, put_lookup, if_pos rfl]
    · rw [history_appendEvent, if_pos rfl, put_history]
  · refine Effect.same ?_ ?_
    · rw [appendEvent_executions, put_lookup, if_neg h]
    · rw [history_appendEvent, if_neg h, put_history]

/-- Storing one new version of a record without an event changes that record only. -/
theorem put_effect {env : Env} {s : MemoryStore} {c : Call} {item item' : Execution}
    (hold : s.executions.lookup item.id = some item)
    (t : Transition env s c item item' []) (id : UUID) : Effect env s (s.put item') c id := by
  by_cases h : id = item'.id
  · subst h
    refine Effect.moved (t.id_eq ▸ hold) ?_ ?_ t
    · rw [put_lookup, if_pos rfl]
    · simp
  · exact Effect.same (by rw [put_lookup, if_neg h]) rfl

/-- A loop that saves new versions of stored records changes each of them by itself. -/
theorem saveAll_effect {env : Env} {s : MemoryStore} {c : Call} {eventType : EventType}
    {text : Execution → String} {items : List Execution}
    (hnodup : (items.map (·.id)).Nodup)
    (h : ∀ item' ∈ items, ∃ item, s.executions.lookup item'.id = some item ∧
      Transition env s c item item' [event env item' eventType (text item')]) (id : UUID) :
    Effect env s (saveAll env eventType text s items) c id := by
  by_cases hid : id ∈ items.map (·.id)
  · obtain ⟨item', hmem, rfl⟩ := List.mem_map.mp hid
    obtain ⟨item, hold, t⟩ := h item' hmem
    obtain ⟨hl, hh⟩ := saveAll_saved env eventType text s items hnodup item' hmem
    exact Effect.moved hold hl hh t
  · obtain ⟨hl, hh⟩ := saveAll_other env eventType text s items id hid
    exact Effect.same hl hh

/-! ## The effect of each method -/

section Methods

variable (env : Env) (s : MemoryStore)

@[simp] theorem register_executions (item : Execution) :
    (register s item).executions = s.executions := by
  unfold register registerNode registerKey
  repeat' split
  all_goals rfl

@[simp] theorem register_history (item : Execution) (id : UUID) :
    (register s item).history id = s.history id := by
  unfold register registerNode registerKey
  repeat' split
  all_goals rfl

@[simp] theorem register_runs (item : Execution) : (register s item).runs = s.runs := by
  unfold register registerNode registerKey
  repeat' split
  all_goals rfl

theorem createExecution_effect (request : CreateExecution) (id : UUID) :
    Effect env s (createExecution env s request).2 (.createExecution request) id := by
  unfold createExecution
  split
  · exact Effect.refl env s _ id
  · next hname =>
    split
    · exact Effect.refl env s _ id
    · next hnew =>
      by_cases h : id = env.newUUID 0
      · subst h
        refine Effect.inserted hname hnew ?_ ?_
        · rw [appendEvent_executions, register_executions, put_lookup]
          exact if_pos rfl
        · rw [history_appendEvent, register_history, put_history]
          exact if_pos rfl
      · refine Effect.same ?_ ?_
        · rw [appendEvent_executions, register_executions, put_lookup]
          exact if_neg h
        · rw [history_appendEvent, register_history, put_history]
          exact if_neg h

theorem claimable_iff {keys : List TaskKey} {now : Time} {item : Execution} :
    claimable keys now item = true ↔
      item.taskKey ∈ keys ∧ item.availableAt ≤ now ∧
      (item.status = .pending ∨ item.status = .retry ∨
        (item.status = .running ∧ item.leaseUntil ≤ now)) ∧ item.attempt < item.maxAttempts := by
  simp [claimable, and_assoc, or_assoc]

theorem claimsBefore_iff {a b : Execution} :
    claimsBefore a b ↔ toLex (a.availableAt, a.createdAt) ≤ toLex (b.availableAt, b.createdAt) := by
  rw [claimsBefore, Prod.Lex.toLex_le_toLex]
  split
  · next heq => simp [heq]
  · next hne => simp [hne]

instance : Std.Total claimsBefore where
  total a b := by
    rw [claimsBefore_iff, claimsBefore_iff]
    exact le_total _ _

instance : IsTrans Execution claimsBefore where
  trans a b c := by
    rw [claimsBefore_iff, claimsBefore_iff, claimsBefore_iff]
    exact le_trans

theorem reapable_iff {now : Time} {item : Execution} :
    reapable now item = true ↔
      item.status = .running ∧ item.leaseUntil ≤ now ∧ item.maxAttempts ≤ item.attempt := by
  simp [reapable, and_assoc]

/-- What each candidate of a claim is. -/
theorem mem_candidates {keys : List TaskKey} {limit : Int} {item : Execution}
    (h : item ∈ candidates env s keys limit) :
    s.executions.lookup item.id = some item ∧ claimable keys env.now item = true := by
  have hsorted := List.mem_of_mem_take h
  rw [List.mem_insertionSort, List.mem_filter, mem_items] at hsorted
  exact hsorted

theorem candidates_ids_nodup (keys : List TaskKey) (limit : Int) :
    ((candidates env s keys limit).map (·.id)).Nodup := by
  have hfilter : (((s.items env 0).filter (claimable keys env.now)).map (·.id)).Nodup :=
    (items_ids_nodup s env 0).sublist (List.filter_sublist.map _)
  have hsort : ((((s.items env 0).filter (claimable keys env.now)).insertionSort
      claimsBefore).map (·.id)).Nodup :=
    ((List.perm_insertionSort _ _).map _).nodup_iff.mpr hfilter
  exact hsort.sublist ((List.take_sublist _ _).map _)

/-- Each delivery of a claim is a candidate under its own token. -/
theorem mem_claim {owner : String} {keys : List TaskKey} {limit : Int} {lease : Duration}
    {item' : Execution} (h : item' ∈ (claim env s owner keys limit lease).1) :
    ∃ i item, (candidates env s keys limit)[i]? = some item ∧
      item' = claimed env owner lease (env.newUUID i) item := by
  simp only [claim, List.mem_map, Prod.exists] at h
  obtain ⟨item, i, hmem, rfl⟩ := h
  exact ⟨i, item, List.mk_mem_zipIdx_iff_getElem?.mp hmem, rfl⟩

theorem claim_ids (owner : String) (keys : List TaskKey) (limit : Int) (lease : Duration) :
    (claim env s owner keys limit lease).1.map (·.id) =
      (candidates env s keys limit).map (·.id) := by
  simp only [claim, List.map_map]
  calc
    List.map _ (candidates env s keys limit).zipIdx
        = ((candidates env s keys limit).zipIdx.map Prod.fst).map (·.id) := by
          rw [List.map_map]
          rfl
    _ = (candidates env s keys limit).map (·.id) := by rw [List.zipIdx_map_fst]

theorem claim_effect (owner : String) (keys : List TaskKey) (limit : Int) (lease : Duration)
    (id : UUID) :
    Effect env s (claim env s owner keys limit lease).2 (.claim owner keys limit lease) id := by
  change Effect env s (saveAll env .started (fun _ => "") s
    (claim env s owner keys limit lease).1) _ id
  refine saveAll_effect ?_ ?_ id
  · rw [claim_ids]
    exact candidates_ids_nodup env s keys limit
  · intro item' h
    obtain ⟨i, item, hi, rfl⟩ := mem_claim env s h
    obtain ⟨hlookup, hclaimable⟩ := mem_candidates env s (List.mem_of_getElem? hi)
    exact ⟨item, hlookup, Transition.claim hclaimable hi⟩

theorem reapExpired_effect (id : UUID) :
    Effect env s (reapExpired env s).2 .reapExpired id := by
  change Effect env s (saveAll env .failed (·.lastError) s
    (((s.items env 0).filter (reapable env.now)).map (reaped env))) _ id
  refine saveAll_effect ?_ ?_ id
  · rw [List.map_map]
    exact (items_ids_nodup s env 0).sublist (List.filter_sublist.map _)
  · intro item' h
    obtain ⟨item, hmem, rfl⟩ := List.mem_map.mp h
    rw [List.mem_filter, mem_items] at hmem
    exact ⟨item, hmem.1, Transition.reap hmem.2⟩

theorem heartbeat_effect (target token : UUID) (lease : Duration) (id : UUID) :
    Effect env s (heartbeat env s target token lease).2 (.heartbeat target token lease) id := by
  unfold heartbeat
  split
  · exact Effect.refl env s _ id
  · next item h =>
    obtain ⟨hlookup, rfl, hown⟩ := owned_ok h
    exact put_effect hlookup (Transition.heartbeat hown) id

theorem succeed_effect (target token : UUID) (output : RawMessage) (id : UUID) :
    Effect env s (succeed env s target token output).2 (.succeed target token output) id := by
  unfold succeed
  split
  · exact Effect.refl env s _ id
  · next item h =>
    obtain ⟨hlookup, rfl, hown⟩ := owned_ok h
    exact save_effect hlookup (Transition.succeed hown) id

theorem retry_effect (target token : UUID) (errorText : String) (delay : Duration) (id : UUID) :
    Effect env s (retry env s target token errorText delay).2
      (.retry target token errorText delay) id := by
  unfold retry
  split
  · exact Effect.refl env s _ id
  · next item h =>
    obtain ⟨hlookup, rfl, hown⟩ := owned_ok h
    split
    · next ha => exact save_effect hlookup (Transition.exhaust hown ha) id
    · next ha => exact save_effect hlookup (Transition.retry hown (not_le.mp ha)) id

theorem fail_effect (target token : UUID) (errorText : String) (id : UUID) :
    Effect env s (fail env s target token errorText).2 (.fail target token errorText) id := by
  unfold fail
  split
  · exact Effect.refl env s _ id
  · next item h =>
    obtain ⟨hlookup, rfl, hown⟩ := owned_ok h
    exact save_effect hlookup (Transition.fail hown) id

theorem cancelExecution_effect (target : UUID) (reason : String) (id : UUID) :
    Effect env s (cancelExecution env s target reason).2 (.cancelExecution target reason) id := by
  unfold cancelExecution
  split
  · exact Effect.refl env s _ id
  · next item h =>
    obtain rfl := s.executions_keyed _ _ h
    split
    · exact Effect.refl env s _ id
    · next ht => exact save_effect h (Transition.cancel (Bool.eq_false_iff.mpr ht)) id

theorem restartExecution_effect (target : UUID) (availableAt : Time) (id : UUID) :
    Effect env s (restartExecution env s target availableAt).2
      (.restartExecution target availableAt) id := by
  unfold restartExecution
  split
  · exact Effect.refl env s _ id
  · next item h =>
    obtain rfl := s.executions_keyed _ _ h
    split
    · exact Effect.refl env s _ id
    · next hrun =>
      split
      · exact Effect.refl env s _ id
      · next ha =>
        exact save_effect h
          (Transition.restart (not_not.mp hrun) (Bool.eq_false_iff.mpr ha)) id

/-- A restart of a subgraph that goes ahead finds nothing active and a root. -/
theorem subgraphRoot_ok {request : RestartSubgraph} {items : List Execution} {root : Execution}
    (h : subgraphRoot request items = .ok root) :
    (∀ item ∈ items, affected request item = true → item.status.isActive = false) ∧
      root ∈ items ∧ affected request root = true ∧ root.nodeKey = request.rootNodeKey := by
  unfold subgraphRoot at h
  split at h
  · cases h
  · next hactive =>
    split at h
    · cases h
    · next found hlast =>
      cases h
      have hmem := List.mem_of_getLast? hlast
      simp only [List.mem_filter, beq_iff_eq] at hmem
      refine ⟨?_, hmem.1.1, hmem.1.2, hmem.2⟩
      intro item hitem haff
      have hall := Bool.eq_false_iff.mpr hactive
      rw [List.any_eq_false] at hall
      exact Bool.eq_false_iff.mpr (hall item (List.mem_filter.mpr ⟨hitem, haff⟩))

theorem subgraphRoot_error {request : RestartSubgraph} {items : List Execution} {err : GoError}
    (h : subgraphRoot request items = .error err) :
    (∃ item ∈ items, affected request item = true ∧ item.status.isActive = true) ∨
      ∀ item ∈ items, affected request item = true → item.nodeKey ≠ request.rootNodeKey := by
  unfold subgraphRoot at h
  split at h
  · next hactive =>
    obtain ⟨item, hmem, hstatus⟩ := List.any_eq_true.mp hactive
    obtain ⟨hitem, haffected⟩ := List.mem_filter.mp hmem
    exact Or.inl ⟨item, hitem, haffected, hstatus⟩
  · split at h
    · next hnone =>
      refine Or.inr fun item hitem haffected hkey => ?_
      rw [List.getLast?_eq_none_iff, List.filter_eq_nil_iff] at hnone
      exact hnone item (List.mem_filter.mpr ⟨hitem, haffected⟩) (beq_iff_eq.mpr hkey)
    · cases h

theorem restartPipelineSubgraph_effect (request : RestartSubgraph) (id : UUID) :
    Effect env s (restartPipelineSubgraph env s request).2 (.restartPipelineSubgraph request) id := by
  unfold restartPipelineSubgraph
  split
  · exact Effect.refl env s _ id
  · split
    · exact Effect.refl env s _ id
    · next root hroot =>
      obtain ⟨hidle, -⟩ := subgraphRoot_ok hroot
      have heffect : Effect env s (saveAll env .restarted (fun _ => "") s
          (((s.items env 1).filter (affected request)).map (subgraphReset env request)))
          (.restartPipelineSubgraph request) id := by
        refine saveAll_effect ?_ ?_ id
        · rw [List.map_map]
          exact (items_ids_nodup s env 1).sublist (List.filter_sublist.map _)
        · intro item' h
          obtain ⟨item, hmem, rfl⟩ := List.mem_map.mp h
          rw [List.mem_filter, mem_items] at hmem
          have hitem := (mem_items s env item 0).mpr hmem.1
          exact ⟨item, hmem.1, Transition.reset hmem.2 (hidle item hitem hmem.2)⟩
      cases heffect with
      | same h hh => exact Effect.same h hh
      | moved hold h hh t => exact Effect.moved hold h hh t

theorem releaseExecution_effect (target : UUID) (input : RawMessage) (availableAt : Time)
    (id : UUID) :
    Effect env s (releaseExecution env s target input availableAt).2
      (.releaseExecution target input availableAt) id := by
  unfold releaseExecution
  split
  · exact Effect.refl env s _ id
  · next item h =>
    obtain rfl := s.executions_keyed _ _ h
    split
    · exact Effect.refl env s _ id
    · next hb => exact put_effect h (Transition.release (not_not.mp hb)) id

end Methods

/-! ## Purging -/

section Purging

variable (env : Env) (s : MemoryStore)

theorem deleteExecution_executions (id : UUID) (item : Execution) :
    (s.deleteExecution id item).executions = s.executions.erase id := by
  unfold MemoryStore.deleteExecution
  repeat' split
  all_goals rfl

theorem deleteExecution_events (id : UUID) (item : Execution) :
    (s.deleteExecution id item).events = s.events.erase id := by
  unfold MemoryStore.deleteExecution
  repeat' split
  all_goals rfl

theorem deleteExecution_lookup (id id' : UUID) (item : Execution) :
    (s.deleteExecution id item).executions.lookup id' =
      if id' = id then none else s.executions.lookup id' := by
  rw [deleteExecution_executions, lookup_erase_ite]

theorem deleteExecution_history (id id' : UUID) (item : Execution) :
    (s.deleteExecution id item).history id' = if id' = id then [] else s.history id' := by
  simp only [MemoryStore.history, deleteExecution_events, lookup_erase_ite]
  split <;> rfl

@[simp] theorem deleteExecution_runs (id : UUID) (item : Execution) :
    (s.deleteExecution id item).runs = s.runs := by
  unfold MemoryStore.deleteExecution
  repeat' split
  all_goals rfl

theorem deleteExecution_nodes (id : UUID) (item : Execution) (key : UUID × String)
    (h : item.pipelineRunID ≠ some key.1) :
    (s.deleteExecution id item).nodes.lookup key = s.nodes.lookup key := by
  unfold MemoryStore.deleteExecution
  cases hrun : item.pipelineRunID with
  | none => split <;> rfl
  | some runID =>
      have hne : key ≠ (runID, item.nodeKey) := by
        rintro rfl
        exact h hrun
      split
      · exact (lookup_erase_ite _ _ _).trans (if_neg hne)
      · exact (lookup_erase_ite _ _ _).trans (if_neg hne)

/-- A record and its history are either untouched or gone. -/
def Shrinks (s s' : MemoryStore) (id : UUID) : Prop :=
  (s'.executions.lookup id = s.executions.lookup id ∧ s'.history id = s.history id) ∨
  (s'.executions.lookup id = none ∧ s'.history id = [])

theorem Shrinks.trans {s s' s'' : MemoryStore} {id : UUID} (h : Shrinks s s' id)
    (h' : Shrinks s' s'' id) : Shrinks s s'' id := by
  rcases h' with ⟨hl, hh⟩ | hgone
  · rcases h with ⟨hl', hh'⟩ | ⟨hl', hh'⟩
    · exact Or.inl ⟨hl.trans hl', hh.trans hh'⟩
    · exact Or.inr ⟨hl.trans hl', hh.trans hh'⟩
  · exact Or.inr hgone

theorem Shrinks.lookup {s s' : MemoryStore} {id : UUID} {item : Execution} (h : Shrinks s s' id)
    (hl : s'.executions.lookup id = some item) : s.executions.lookup id = some item := by
  rcases h with ⟨hl', -⟩ | ⟨hl', -⟩
  · rw [← hl', hl]
  · rw [hl'] at hl
    cases hl

theorem deleteExecution_shrinks (target : UUID) (item : Execution) (id : UUID) :
    Shrinks s (s.deleteExecution target item) id := by
  unfold Shrinks
  rw [deleteExecution_lookup, deleteExecution_history]
  by_cases h : id = target
  · simp [h]
  · simp [h]

/-- The run and all its executions are gone. -/
def Purged (s : MemoryStore) (runID : UUID) : Prop :=
  s.runs.lookup runID = none ∧
    ∀ id item, s.executions.lookup id = some item → item.pipelineRunID ≠ some runID

/-- The run is kept with its executions and nodes. -/
structure KeepsRun (s s' : MemoryStore) (runID : UUID) : Prop where
  run : s'.runs.lookup runID = s.runs.lookup runID
  executions : ∀ id item, s.executions.lookup id = some item →
    item.pipelineRunID = some runID → s'.executions.lookup id = some item
  nodes : ∀ key, s'.nodes.lookup (runID, key) = s.nodes.lookup (runID, key)

theorem KeepsRun.refl (runID : UUID) : KeepsRun s s runID :=
  ⟨rfl, fun _ _ h _ => h, fun _ => rfl⟩

theorem KeepsRun.trans {s s' s'' : MemoryStore} {runID : UUID} (h : KeepsRun s s' runID)
    (h' : KeepsRun s' s'' runID) : KeepsRun s s'' runID where
  run := h'.run.trans h.run
  executions := fun id item hl hr => h'.executions id item (h.executions id item hl hr) hr
  nodes := fun key => (h'.nodes key).trans (h.nodes key)

theorem deleteExecution_keepsRun {id runID : UUID} {item : Execution}
    (hrun : item.pipelineRunID ≠ some runID)
    (hitem : ∀ stored, s.executions.lookup id = some stored → stored.pipelineRunID ≠ some runID) :
    KeepsRun s (s.deleteExecution id item) runID where
  run := by simp
  executions := by
    intro id' stored hl hr
    rw [deleteExecution_lookup]
    split
    · next heq =>
      subst heq
      exact absurd hr (hitem stored hl)
    · exact hl
  nodes := fun key => deleteExecution_nodes s id item (runID, key) hrun

theorem deleteAll_shrinks (items : List Execution) (id : UUID) :
    Shrinks s (items.foldl (fun s item => s.deleteExecution item.id item) s) id := by
  induction items generalizing s with
  | nil => exact Or.inl ⟨rfl, rfl⟩
  | cons item rest ih => exact (deleteExecution_shrinks s item.id item id).trans (ih _)

theorem purgeNodes_shrinks (i : Nat) (runID id : UUID) :
    Shrinks s (purgeNodes env i s runID).2 id := deleteAll_shrinks s _ id

theorem purgeNodes_keepsRun (i : Nat) {runID other : UUID} (h : other ≠ runID) :
    KeepsRun s (purgeNodes env i s runID).2 other := by
  have hfold : ∀ (items : List Execution) (t : MemoryStore),
      (∀ item ∈ items, item.pipelineRunID = some runID ∧
        ∀ stored, t.executions.lookup item.id = some stored → stored = item) →
      KeepsRun t (items.foldl (fun s item => s.deleteExecution item.id item) t) other := by
    intro items
    induction items with
    | nil => exact fun t _ => KeepsRun.refl t other
    | cons item rest ih =>
        intro t hitems
        obtain ⟨hrun, hsame⟩ := hitems item (by simp)
        have hne : item.pipelineRunID ≠ some other := by
          rw [hrun]
          exact fun heq => h (Option.some.inj heq).symm
        refine (deleteExecution_keepsRun t hne ?_).trans (ih _ ?_)
        · intro stored hl
          rw [hsame stored hl]
          exact hne
        · intro item' hmem
          obtain ⟨hrun', hsame'⟩ := hitems item' (List.mem_cons_of_mem _ hmem)
          refine ⟨hrun', ?_⟩
          intro stored hl
          exact hsame' stored ((deleteExecution_shrinks t item.id item item'.id).lookup hl)
  refine hfold _ s ?_
  intro item hmem
  rw [List.mem_filter, mem_items, beq_iff_eq] at hmem
  refine ⟨hmem.2, ?_⟩
  intro stored hl
  rw [hmem.1] at hl
  exact (Option.some.inj hl).symm

/-- No execution of the run is left. -/
theorem purgeNodes_purges (i : Nat) (runID id : UUID) (item : Execution)
    (hl : (purgeNodes env i s runID).2.executions.lookup id = some item) :
    item.pipelineRunID ≠ some runID := by
  have hfold : ∀ (items : List Execution) (t : MemoryStore) (item : Execution), item ∈ items →
      (items.foldl (fun s item => s.deleteExecution item.id item) t).executions.lookup item.id =
        none := by
    intro items
    induction items with
    | nil => exact fun _ _ hmem => nomatch hmem
    | cons first rest ih =>
        intro t item hmem
        rcases List.mem_cons.mp hmem with rfl | hmem
        · have hgone : (t.deleteExecution item.id item).executions.lookup item.id = none := by
            rw [deleteExecution_lookup, if_pos rfl]
          cases hrest : (rest.foldl (fun s item => s.deleteExecution item.id item)
              (t.deleteExecution item.id item)).executions.lookup item.id with
          | none => exact hrest
          | some stored =>
              have hold := (deleteAll_shrinks (t.deleteExecution item.id item) rest item.id).lookup hrest
              exact absurd (hgone.symm.trans hold) (by simp)
        · exact ih _ item hmem
  intro hrun
  have hold := (purgeNodes_shrinks env s i runID id).lookup hl
  have hid := s.executions_keyed _ _ hold
  have hmem : item ∈ (s.items env i).filter (·.pipelineRunID == some runID) := by
    rw [List.mem_filter, mem_items, hid]
    exact ⟨hold, by simp [hrun]⟩
  have hnone := hfold _ s item hmem
  rw [hid] at hnone
  exact absurd (hnone.symm.trans hl) (by simp)

@[simp] theorem purgeNodes_runs (i : Nat) (runID : UUID) :
    (purgeNodes env i s runID).2.runs = s.runs :=
  foldl_frame (fun s item => s.deleteExecution item.id item) (·.runs)
    (fun s item => deleteExecution_runs s item.id item) _ s

/-- The store part of a round for a run. -/
theorem purgeOne_pipeline (i : Nat) (result : PurgeResult) {candidate : Candidate}
    (h : candidate.pipeline = true) :
    (purgeOne env i s result candidate).2.executions =
        (purgeNodes env i s candidate.id).2.executions ∧
      (purgeOne env i s result candidate).2.events = (purgeNodes env i s candidate.id).2.events ∧
      (purgeOne env i s result candidate).2.nodes = (purgeNodes env i s candidate.id).2.nodes ∧
      (purgeOne env i s result candidate).2.runs = s.runs.erase candidate.id := by
  have hruns := purgeNodes_runs env s i candidate.id
  simp only [purgeOne, h, if_true]
  split
  · exact ⟨rfl, rfl, rfl, congrArg (AList.erase candidate.id) hruns⟩
  · exact ⟨rfl, rfl, rfl, congrArg (AList.erase candidate.id) hruns⟩

theorem purgeOne_shrinks (i : Nat) (result : PurgeResult) (candidate : Candidate) (id : UUID) :
    Shrinks s (purgeOne env i s result candidate).2 id := by
  cases hp : candidate.pipeline with
  | true =>
      obtain ⟨hl, he, -, -⟩ := purgeOne_pipeline env s i result hp
      have h := purgeNodes_shrinks env s i candidate.id id
      simp only [Shrinks, MemoryStore.history, hl, he] at h ⊢
      exact h
  | false =>
      simp only [purgeOne, hp]
      exact deleteExecution_shrinks s _ _ id

/-- A standalone candidate is not the node of a run. -/
def Standalone (s : MemoryStore) (candidate : Candidate) : Prop :=
  candidate.pipeline = false → ∀ item, s.executions.lookup candidate.id = some item →
    item.pipelineRunID = none

theorem purgeOne_run (i : Nat) (result : PurgeResult) {candidate : Candidate}
    (hc : Standalone s candidate) (runID : UUID) :
    Purged (purgeOne env i s result candidate).2 runID ∨
      KeepsRun s (purgeOne env i s result candidate).2 runID := by
  cases hp : candidate.pipeline with
  | true =>
      obtain ⟨hl, -, hn, hr⟩ := purgeOne_pipeline env s i result hp
      by_cases heq : runID = candidate.id
      · subst heq
        left
        refine ⟨by rw [hr, lookup_erase_ite, if_pos rfl], ?_⟩
        intro id item hlookup
        rw [hl] at hlookup
        exact purgeNodes_purges env s i _ id item hlookup
      · right
        have h := purgeNodes_keepsRun env s i heq
        refine ⟨?_, ?_, ?_⟩
        · rw [hr, lookup_erase_ite, if_neg heq]
        · intro id item hlookup hrun
          rw [hl]
          exact h.executions id item hlookup hrun
        · intro key
          rw [hn]
          exact h.nodes key
  | false =>
      right
      simp only [purgeOne, hp]
      have hnone := hc hp
      refine deleteExecution_keepsRun s ?_ ?_
      · cases hl : s.executions.lookup candidate.id with
        | none => simp [zeroExecution]
        | some item => simp [hnone item hl]
      · intro stored hl
        simp [hnone stored hl]

theorem purgeLoop_shrinks (candidates : List Candidate) (i : Nat) (result : PurgeResult)
    (id : UUID) : Shrinks s (purgeLoop env i candidates result s).2 id := by
  induction candidates generalizing i result s with
  | nil => exact Or.inl ⟨rfl, rfl⟩
  | cons candidate rest ih =>
      exact (purgeOne_shrinks env s i result candidate id).trans (ih _ (i + 1) _)

theorem purgeLoop_run (candidates : List Candidate) (i : Nat) (result : PurgeResult)
    (hc : ∀ candidate ∈ candidates, Standalone s candidate) (runID : UUID) :
    Purged (purgeLoop env i candidates result s).2 runID ∨
      KeepsRun s (purgeLoop env i candidates result s).2 runID := by
  induction candidates generalizing i result s with
  | nil => exact Or.inr (KeepsRun.refl s runID)
  | cons candidate rest ih =>
      have hrest : ∀ other ∈ rest, Standalone (purgeOne env i s result candidate).2 other := by
        intro other hmem hp item hl
        have hold := (purgeOne_shrinks env s i result candidate other.id).lookup hl
        exact hc other (List.mem_cons_of_mem _ hmem) hp item hold
      have htail := ih (purgeOne env i s result candidate).2 (i + 1)
        (purgeOne env i s result candidate).1 hrest
      rcases htail with hpurged | hkeeps
      · exact Or.inl hpurged
      · rcases purgeOne_run env s i result (hc candidate (by simp)) runID with hpurged | hfirst
        · left
          refine ⟨hkeeps.run.trans hpurged.1, ?_⟩
          intro id item hl
          exact hpurged.2 id item ((purgeLoop_shrinks env _ rest (i + 1) _ id).lookup hl)
        · right
          exact hfirst.trans hkeeps

/-- A finished run, or a finished execution of no run, that `Purge` may remove. -/
def Finished (s : MemoryStore) (before : Time) (candidate : Candidate) : Prop :=
  candidate.finished < before ∧
    match candidate.pipeline with
    | true => ∃ run, s.runs.lookup candidate.id = some run ∧
        run.finishedAt = some candidate.finished
    | false => ∃ item, s.executions.lookup candidate.id = some item ∧
        item.pipelineRunID = none ∧ item.finishedAt = some candidate.finished

theorem runCandidate_eq_some {before : Time} {run : PipelineRun} {candidate : Candidate} :
    runCandidate before run = some candidate ↔
      candidate.pipeline = true ∧ candidate.id = run.id ∧
        run.finishedAt = some candidate.finished ∧ candidate.finished < before := by
  obtain ⟨id, finished, pipeline⟩ := candidate
  unfold runCandidate
  split
  · next found hfound =>
    rw [hfound]
    split <;> grind
  · next hnone => simp [hnone]

theorem executionCandidate_eq_some {before : Time} {item : Execution} {candidate : Candidate} :
    executionCandidate before item = some candidate ↔
      candidate.pipeline = false ∧ candidate.id = item.id ∧ item.pipelineRunID = none ∧
        item.finishedAt = some candidate.finished ∧ candidate.finished < before := by
  obtain ⟨id, finished, pipeline⟩ := candidate
  unfold executionCandidate
  split
  · next found hrun hfound =>
    rw [hrun, hfound]
    split <;> grind
  · next hother =>
    refine iff_of_false (by simp) ?_
    rintro ⟨-, -, hrun, hfound, -⟩
    exact hother _ hrun hfound

/-- The candidates before the cut. -/
theorem mem_allCandidates {before : Time} {candidate : Candidate} :
    candidate ∈ (s.runItems env 0).filterMap (runCandidate before) ++
        (s.items env 0).filterMap (executionCandidate before) ↔ Finished s before candidate := by
  rw [List.mem_append, List.mem_filterMap, List.mem_filterMap]
  simp only [runCandidate_eq_some, executionCandidate_eq_some, mem_runItems, mem_items, Finished]
  obtain ⟨id, finished, pipeline⟩ := candidate
  cases pipeline with
  | true =>
      constructor
      · rintro (⟨run, hrun, -, hid, hfinished, hbefore⟩ | ⟨item, -, hfalse, -⟩)
        · exact ⟨hbefore, run, hid ▸ hrun, hfinished⟩
        · cases hfalse
      · rintro ⟨hbefore, run, hrun, hfinished⟩
        have hid := s.runs_keyed _ _ hrun
        exact Or.inl ⟨run, hid ▸ hrun, rfl, hid.symm, hfinished, hbefore⟩
  | false =>
      constructor
      · rintro (⟨run, -, hfalse, -⟩ | ⟨item, hitem, -, hid, hnone, hfinished, hbefore⟩)
        · cases hfalse
        · exact ⟨hbefore, item, hid ▸ hitem, hnone, hfinished⟩
      · rintro ⟨hbefore, item, hitem, hnone, hfinished⟩
        have hid := s.executions_keyed _ _ hitem
        exact Or.inr ⟨item, hid ▸ hitem, rfl, hid.symm, hnone, hfinished, hbefore⟩

theorem finished_of_mem {before : Time} {limit : Int} {candidate : Candidate}
    (h : candidate ∈ purgeCandidates env s before limit) : Finished s before candidate := by
  have hall := List.mem_of_mem_take h
  rw [List.mem_insertionSort] at hall
  exact (mem_allCandidates env s).mp hall

theorem purgeCandidates_standalone (before : Time) (limit : Int) :
    ∀ candidate ∈ purgeCandidates env s before limit, Standalone s candidate := by
  intro candidate hmem hp item hl
  obtain ⟨-, hstored⟩ := finished_of_mem env s hmem
  rw [hp] at hstored
  obtain ⟨stored, hl', hnone, -⟩ := hstored
  cases hl.symm.trans hl'
  exact hnone

theorem purge_effect (before : Time) (limit : Int) (id : UUID) :
    Effect env s (purge env s before limit).2 (.purge before limit) id := by
  rcases purgeLoop_shrinks env s (purgeCandidates env s before limit) 1 ⟨0, 0⟩ id with
    ⟨hl, hh⟩ | ⟨hl, hh⟩
  · exact Effect.same hl hh
  · exact Effect.deleted hl hh

/-- A purge removes a run with its executions or leaves it with all of them. -/
theorem purge_run (before : Time) (limit : Int) (runID : UUID) :
    Purged (purge env s before limit).2 runID ∨
      KeepsRun s (purge env s before limit).2 runID :=
  purgeLoop_run env s _ 1 ⟨0, 0⟩ (purgeCandidates_standalone env s before limit) runID

end Purging

/-! ## Every call -/

/-- What any call does to one execution. -/
theorem exec_effect (env : Env) (s : MemoryStore) (c : Call) (id : UUID) :
    Effect env s (exec env s c).2 c id := by
  cases c with
  | createExecution request => exact createExecution_effect env s request id
  | getExecution _ => exact Effect.refl env s _ id
  | listExecutions _ => exact Effect.refl env s _ id
  | listRunExecutions _ => exact Effect.refl env s _ id
  | claim owner keys limit lease => exact claim_effect env s owner keys limit lease id
  | reapExpired => exact reapExpired_effect env s id
  | heartbeat target token lease => exact heartbeat_effect env s target token lease id
  | succeed target token output => exact succeed_effect env s target token output id
  | retry target token errorText delay => exact retry_effect env s target token errorText delay id
  | fail target token errorText => exact fail_effect env s target token errorText id
  | cancelExecution target reason => exact cancelExecution_effect env s target reason id
  | restartExecution target availableAt => exact restartExecution_effect env s target availableAt id
  | restartPipelineSubgraph request => exact restartPipelineSubgraph_effect env s request id
  | releaseExecution target input availableAt =>
      exact releaseExecution_effect env s target input availableAt id
  | events _ => exact Effect.refl env s _ id
  | createPipelineRun request =>
      refine Effect.same ?_ ?_
      · simp only [exec, createPipelineRun]
        repeat' split
        all_goals rfl
      · simp only [exec, createPipelineRun]
        repeat' split
        all_goals rfl
  | getPipelineRun _ => exact Effect.refl env s _ id
  | listPipelineRuns _ => exact Effect.refl env s _ id
  | setPipelineRunStatus target rev status errorText =>
      refine Effect.same ?_ ?_
      · simp only [exec, setPipelineRunStatus]
        repeat' split
        all_goals rfl
      · simp only [exec, setPipelineRunStatus]
        repeat' split
        all_goals rfl
  | purge before limit => exact purge_effect env s before limit id

/-- What a call does to the run stored under one identifier. -/
inductive RunEffect (env : Env) (s s' : MemoryStore) : Call → UUID → Prop
  | same {c id} (h : s'.runs.lookup id = s.runs.lookup id) : RunEffect env s s' c id
  | inserted {request} (hnew : existingRun s request = none)
      (h : s'.runs.lookup (env.newUUID 0) = some (createdRun env request)) :
      RunEffect env s s' (.createPipelineRun request) (env.newUUID 0)
  | status {run status errorText} (hold : s.runs.lookup run.id = some run)
      (h : s'.runs.lookup run.id = some (withStatus env status errorText run)) :
      RunEffect env s s' (.setPipelineRunStatus run.id run.revision status errorText) run.id
  | reopened {request run} (hold : s.runs.lookup request.runID = some run)
      (h : s'.runs.lookup request.runID = some (reopened env run)) :
      RunEffect env s s' (.restartPipelineSubgraph request) request.runID
  | deleted {before limit id} (h : s'.runs.lookup id = none) :
      RunEffect env s s' (.purge before limit) id

theorem createPipelineRun_runEffect (env : Env) (s : MemoryStore) (request : CreatePipelineRun)
    (id : UUID) :
    RunEffect env s (createPipelineRun env s request).2 (.createPipelineRun request) id := by
  unfold createPipelineRun
  split
  · exact RunEffect.same rfl
  · next hnew =>
    have hruns : (createPipelineRun env s request).2.runs =
        (s.putRun (createdRun env request)).runs := by
      simp only [createPipelineRun, hnew]
      split <;> rfl
    simp only [createPipelineRun, hnew] at hruns
    by_cases h : id = env.newUUID 0
    · subst h
      refine RunEffect.inserted hnew ?_
      rw [hruns, putRun_lookup]
      exact if_pos rfl
    · refine RunEffect.same ?_
      rw [hruns, putRun_lookup]
      exact if_neg h

theorem setPipelineRunStatus_runEffect (env : Env) (s : MemoryStore) (target : UUID) (rev : Nat)
    (status : RunStatus) (errorText : String) (id : UUID) :
    RunEffect env s (setPipelineRunStatus env s target rev status errorText).2
      (.setPipelineRunStatus target rev status errorText) id := by
  unfold setPipelineRunStatus
  split
  · exact RunEffect.same rfl
  · next run hrun =>
    obtain rfl := s.runs_keyed _ _ hrun
    split
    · exact RunEffect.same rfl
    · next hrev =>
      obtain rfl := not_not.mp hrev
      by_cases h : id = run.id
      · subst h
        refine RunEffect.status hrun ?_
        rw [putRun_lookup]
        exact if_pos rfl
      · refine RunEffect.same ?_
        rw [putRun_lookup]
        exact if_neg h

theorem restartPipelineSubgraph_runEffect (env : Env) (s : MemoryStore)
    (request : RestartSubgraph) (id : UUID) :
    RunEffect env s (restartPipelineSubgraph env s request).2
      (.restartPipelineSubgraph request) id := by
  unfold restartPipelineSubgraph
  split
  · exact RunEffect.same rfl
  · next run hrun =>
    have hid : run.id = request.runID := s.runs_keyed _ _ hrun
    split
    · exact RunEffect.same rfl
    · next root hroot =>
      have hlookup : ∀ resets : List Execution,
          ((saveAll env .restarted (fun _ => "") s resets).putRun (reopened env run)).runs.lookup id =
            if id = request.runID then some (reopened env run) else s.runs.lookup id := by
        intro resets
        rw [putRun_lookup, saveAll_runs, ← hid]
        rfl
      by_cases h : id = request.runID
      · subst h
        exact RunEffect.reopened hrun ((hlookup _).trans (if_pos rfl))
      · exact RunEffect.same ((hlookup _).trans (if_neg h))

/-- What any call does to one run. -/
theorem exec_runEffect (env : Env) (s : MemoryStore) (c : Call) (id : UUID) :
    RunEffect env s (exec env s c).2 c id := by
  cases c with
  | createPipelineRun request => exact createPipelineRun_runEffect env s request id
  | setPipelineRunStatus target rev status errorText =>
      exact setPipelineRunStatus_runEffect env s target rev status errorText id
  | restartPipelineSubgraph request => exact restartPipelineSubgraph_runEffect env s request id
  | purge before limit =>
      rcases purge_run env s before limit id with hpurged | hkeeps
      · exact RunEffect.deleted hpurged.1
      · exact RunEffect.same hkeeps.run
  | claim owner keys limit lease =>
      exact RunEffect.same (congrArg (AList.lookup id) (saveAll_runs env .started _ s _))
  | reapExpired =>
      exact RunEffect.same (congrArg (AList.lookup id) (saveAll_runs env .failed _ s _))
  | createExecution request =>
      refine RunEffect.same ?_
      simp only [exec, createExecution]
      repeat' split
      · rfl
      · rfl
      · rw [appendEvent_runs, register_runs, put_runs]
  | _ =>
      refine RunEffect.same ?_
      simp only [exec, heartbeat, succeed, retry, fail, cancelExecution, restartExecution,
        releaseExecution]
      repeat' split
      all_goals rfl

/-! ## Nodes of a run -/

theorem register_nodes (s : MemoryStore) (item : Execution) (key : UUID × String) :
    (register s item).nodes.lookup key =
      if item.pipelineRunID = some key.1 ∧ item.nodeKey = key.2 ∧ key.2 ≠ ""
      then some item.id else s.nodes.lookup key := by
  have hkept : (registerKey s item).nodes = s.nodes := by
    unfold registerKey
    split <;> rfl
  obtain ⟨runID, nodeKey⟩ := key
  rw [register, ← hkept]
  unfold registerNode
  cases hrun : item.pipelineRunID with
  | none => simp
  | some itemRun =>
      by_cases hempty : item.nodeKey = ""
      · have hnot : ¬(some itemRun = some runID ∧ item.nodeKey = nodeKey ∧ nodeKey ≠ "") := by
          rintro ⟨-, heq, hne⟩
          exact hne (heq ▸ hempty)
        rw [if_neg hnot]
        simp [hempty]
      · simp only [hempty, not_false_eq_true, ne_eq, if_true, lookup_insert_ite, Prod.mk.injEq,
          Option.some.injEq]
        refine if_congr ?_ rfl rfl
        constructor
        · rintro ⟨rfl, rfl⟩
          exact ⟨rfl, rfl, hempty⟩
        · rintro ⟨rfl, rfl, -⟩
          exact ⟨rfl, rfl⟩

/-- A new execution is recorded under its node. -/
theorem createExecution_nodes {env : Env} {s : MemoryStore} {request : CreateExecution}
    (hname : request.taskName ≠ "") (hnew : existing s request = none) (key : UUID × String) :
    (createExecution env s request).2.nodes.lookup key =
      if request.pipelineRunID = some key.1 ∧ request.nodeKey = key.2 ∧ key.2 ≠ ""
      then some (env.newUUID 0) else s.nodes.lookup key := by
  simp only [createExecution, hname, if_false, hnew, appendEvent_nodes]
  exact register_nodes (s.put (created env request)) (created env request) key

/-- A new execution takes a node that is free. -/
theorem existing_node {s : MemoryStore} {request : CreateExecution} {runID : UUID}
    (hnew : existing s request = none) (hrun : request.pipelineRunID = some runID)
    (hkey : request.nodeKey ≠ "") : s.nodes.lookup (runID, request.nodeKey) = none := by
  simp only [existing, hrun] at hnew
  split at hnew
  · cases hnew
  · next heq =>
    cases heq
    simpa [hkey] using hnew
  · next heq => cases heq

/-- Only the creation of an execution and a purge change the record of a node. -/
inductive NodeEffect (env : Env) (s s' : MemoryStore) : Call → UUID × String → Prop
  | same {c key} (h : s'.nodes.lookup key = s.nodes.lookup key) : NodeEffect env s s' c key
  | inserted {request key} (h : s.nodes.lookup key = none) :
      NodeEffect env s s' (.createExecution request) key
  | purged {before limit key} (h : Purged s' key.1) :
      NodeEffect env s s' (.purge before limit) key

theorem exec_nodeEffect (env : Env) (s : MemoryStore) (c : Call) (key : UUID × String) :
    NodeEffect env s (exec env s c).2 c key := by
  cases c with
  | createExecution request =>
      by_cases hname : request.taskName = ""
      · exact NodeEffect.same (by simp [exec, createExecution, hname])
      · cases hnew : existing s request with
        | some id => exact NodeEffect.same (by simp [exec, createExecution, hname, hnew])
        | none =>
            have hnodes : (createExecution env s request).2.nodes.lookup key = _ :=
              createExecution_nodes hname hnew key
            split at hnodes
            · next hkey =>
              obtain ⟨hrun, hnode, hne⟩ := hkey
              refine NodeEffect.inserted ?_
              rw [← hnode] at hne
              have hfree := existing_node hnew hrun hne
              rwa [hnode] at hfree
            · exact NodeEffect.same hnodes
  | purge before limit =>
      rcases purge_run env s before limit key.1 with hpurged | hkeeps
      · exact NodeEffect.purged hpurged
      · exact NodeEffect.same (hkeeps.nodes key.2)
  | claim owner keys limit lease =>
      exact NodeEffect.same (congrArg (AList.lookup key) (saveAll_nodes env .started _ s _))
  | reapExpired =>
      exact NodeEffect.same (congrArg (AList.lookup key) (saveAll_nodes env .failed _ s _))
  | restartPipelineSubgraph request =>
      refine NodeEffect.same ?_
      simp only [exec, restartPipelineSubgraph]
      repeat' split
      · rfl
      · rfl
      · exact congrArg (AList.lookup key) (saveAll_nodes env .restarted (fun _ => "") s _)
  | _ =>
      refine NodeEffect.same ?_
      simp only [exec, heartbeat, succeed, retry, fail, cancelExecution, restartExecution,
        releaseExecution, createPipelineRun, setPipelineRunStatus]
      repeat' split
      all_goals rfl

/-! ## Restart of a subgraph -/

/-- A restart that is not refused: the run is reopened and every affected execution is reset. -/
structure Restarts (env : Env) (s s' : MemoryStore) (request : RestartSubgraph) : Prop where
  run : ∃ run, s.runs.lookup request.runID = some run ∧
    s'.runs.lookup request.runID = some (reopened env run)
  idle : ∀ id item, s.executions.lookup id = some item → affected request item = true →
    item.status.isActive = false
  root : ∃ id item, s.executions.lookup id = some item ∧ affected request item = true ∧
    item.nodeKey = request.rootNodeKey
  executions : ∀ id, s'.executions.lookup id = (s.executions.lookup id).map fun item =>
    if affected request item then subgraphReset env request item else item

theorem subgraphReset_id (env : Env) (request : RestartSubgraph) (item : Execution) :
    (subgraphReset env request item).id = item.id := rfl

theorem restartPipelineSubgraph_cases (env : Env) (s : MemoryStore) (request : RestartSubgraph) :
    ((∃ err, (restartPipelineSubgraph env s request).1 = .error err) ∧
      (restartPipelineSubgraph env s request).2 = s) ∨
    ((∃ item, (restartPipelineSubgraph env s request).1 = .ok item) ∧
      Restarts env s (restartPipelineSubgraph env s request).2 request) := by
  unfold restartPipelineSubgraph
  split
  · exact Or.inl ⟨⟨_, rfl⟩, rfl⟩
  · next run hrun =>
    have hid : run.id = request.runID := s.runs_keyed _ _ hrun
    split
    · exact Or.inl ⟨⟨_, rfl⟩, rfl⟩
    · next root hroot =>
      obtain ⟨hidle, hmem, haff, hkey⟩ := subgraphRoot_ok hroot
      refine Or.inr ⟨⟨_, rfl⟩, ⟨run, hrun, ?_⟩, ?_, ⟨root.id, root, ?_, haff, hkey⟩, ?_⟩
      · rw [putRun_lookup, if_pos (show request.runID = (reopened env run).id from hid.symm)]
      · intro id item hl haffected
        refine hidle item ?_ haffected
        rw [mem_items, s.executions_keyed id item hl]
        exact hl
      · exact (mem_items s env root 0).mp hmem
      · intro id
        exact (saveAll_items env .restarted (fun _ => "") s 1 (affected request)
          (subgraphReset_id env request) id).1

/-- Each affected execution gets one event. -/
theorem restartPipelineSubgraph_history {env : Env} {s : MemoryStore} {request : RestartSubgraph}
    {item : Execution} (h : (restartPipelineSubgraph env s request).1 = .ok item) (id : UUID) :
    (restartPipelineSubgraph env s request).2.history id = s.history id ++
      ((s.executions.lookup id).filter (affected request)).toList.map fun item =>
        event env (subgraphReset env request item) .restarted "" := by
  revert h
  unfold restartPipelineSubgraph
  split
  · rintro ⟨⟩
  · split
    · rintro ⟨⟩
    · intro _
      exact (saveAll_items env .restarted (fun _ => "") s 1 (affected request)
        (subgraphReset_id env request) id).2

/-- No call moves an execution to another node. -/
theorem Transition.node_eq {env : Env} {s : MemoryStore} {c : Call} {item item' : Execution}
    {evs : List Event} (t : Transition env s c item item' evs) :
    item'.pipelineRunID = item.pipelineRunID ∧ item'.nodeKey = item.nodeKey := by
  cases t <;> exact ⟨rfl, rfl⟩

/-- Only a restart turns a resolved record into another record. -/
theorem Transition.of_terminal {env : Env} {s : MemoryStore} {c : Call} {item item' : Execution}
    {evs : List Event} (t : Transition env s c item item' evs)
    (h : item.status.isTerminal = true) :
    item'.status.isTerminal = false ∧
      ((item.pipelineRunID = none ∧ ∃ at', c = .restartExecution item.id at') ∨
        ∃ request, c = .restartPipelineSubgraph request ∧ affected request item = true) := by
  cases t with
  | claim hc _ =>
      rcases (claimable_iff.mp hc).2.2.1 with hs | hs | ⟨hs, -⟩ <;>
        simp [hs, Status.isTerminal] at h
  | reap hc => simp [(reapable_iff.mp hc).1, Status.isTerminal] at h
  | heartbeat hown => simp [hown.1, Status.isTerminal] at h
  | succeed hown => simp [hown.1, Status.isTerminal] at h
  | exhaust hown _ => simp [hown.1, Status.isTerminal] at h
  | retry hown _ => simp [hown.1, Status.isTerminal] at h
  | fail hown => simp [hown.1, Status.isTerminal] at h
  | cancel ht => simp [ht] at h
  | restart hrun _ => exact ⟨rfl, Or.inl ⟨hrun, _, rfl⟩⟩
  | reset haff _ =>
      refine ⟨?_, Or.inr ⟨_, rfl, haff⟩⟩
      simp only [subgraphReset, restarted]
      split <;> rfl
  | release hb => simp [hb, Status.isTerminal] at h

end Ody.Memory
