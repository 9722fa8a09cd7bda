import Ody.Execution.ReferenceIndexes
import Ody.Library.Delimited

/-!
# The keys of requests

A store joins a name and an idempotency key to one text. Names without the
separator can be read off that text, so requests with different names or keys are
given different executions, however many calls lie between them. The one
exception is a request for a pipeline node: if no execution has its key, it
returns the execution of the node, whatever the key of that execution is.
-/

namespace Ody.Memory

open Library.Delimited Library.DerivedIndexes Library.Tables

/-! ## Joined keys -/

theorem idempotencyIndex_toList (name key : String) :
    (idempotencyIndex name key).toList = name.toList ++ '\x00' :: key.toList := by
  simp [idempotencyIndex]

/-- A joined key determines the name and the key. -/
theorem idempotencyIndex_inj {name name' key key' : String} (hname : '\x00' ∉ name.toList)
    (hname' : '\x00' ∉ name'.toList) (h : idempotencyIndex name key = idempotencyIndex name' key') :
    name = name' ∧ key = key' := by
  rw [← String.toList_inj, idempotencyIndex_toList, idempotencyIndex_toList] at h
  obtain ⟨hleft, hright⟩ := split_unique hname hname' h
  exact ⟨String.toList_inj.mp hleft, String.toList_inj.mp hright⟩

theorem keyReference_inj {name name' key key' ref : String} (hname : '\x00' ∉ name.toList)
    (hname' : '\x00' ∉ name'.toList) (h : keyReference name key = some ref)
    (h' : keyReference name' key' = some ref) : name = name' ∧ key = key' := by
  obtain ⟨-, hjoined⟩ := keyReference_eq_some.mp h
  obtain ⟨-, hjoined'⟩ := keyReference_eq_some.mp h'
  exact idempotencyIndex_inj hname hname' (hjoined.trans hjoined'.symm)

/-! ## What a request is given -/

/-- No execution has the key of the request, and one is stored for its node. -/
def FoundByNode (s : MemoryStore) (request : CreateExecution) : Prop :=
  (requestKey request).bind s.idempotent.lookup = none ∧
    ((requestNode request).bind s.nodes.lookup).isSome = true

section Requests

variable {s : MemoryStore} {env : Env}

/-- `CreateExecution` returns an execution with the key of the request and leaves it stored. The
execution is new, or the request has a key. -/
theorem created_key (hkeys : Leads keyOf s.executions s.idempotent) {request : CreateExecution}
    {item : Execution} (h : (createExecution env s request).1 = .ok item)
    (hnode : ¬ FoundByNode s request) :
    keyOf item = requestKey request ∧
      (createExecution env s request).2.executions.lookup item.id = some item ∧
      (item = created env request ∨
        requestKey request ≠ none ∧ s.executions.lookup item.id = some item) := by
  have hname : request.taskName ≠ "" := by
    intro hempty
    simp [createExecution, hempty] at h
  cases hfound : existing s request with
  | none =>
      obtain ⟨hresult, hstored⟩ := createExecution_new hname hfound
      cases hresult.symm.trans h
      exact ⟨rfl, hstored, Or.inl rfl⟩
  | some id =>
      have horigin := hfound
      rw [existing_eq, Option.or_eq_some_iff] at horigin
      rcases horigin with hkey | ⟨hnokey, hlead⟩
      · obtain ⟨ref, href, hlead⟩ := Option.bind_eq_some_iff.mp hkey
        obtain ⟨record, hl, hcarried⟩ := (hkeys ref id).mp hlead
        rw [createExecution_existing hname hfound hl] at h ⊢
        cases h
        have hid : item.id = id := s.executions_keyed id item hl
        rw [href, hid]
        exact ⟨hcarried, hl, Or.inr ⟨Option.some_ne_none ref, hl⟩⟩
      · exact absurd ⟨hnokey, Option.isSome_of_eq_some hlead⟩ hnode

end Requests

/-! ## Two requests of a run -/

theorem World.issued_subset_replay (trace : Trace) (w : World) :
    w.issued ⊆ (w.replay trace).issued := by
  induction trace generalizing w with
  | nil => exact List.Subset.refl _
  | cons step rest ih =>
      exact List.Subset.trans (w.issued_subset step.2 step.1) (ih (w.after step.2 step.1))

/-- Two requests with names of the set that are given one record have one name and one key. -/
structure Apart (names : Set String) (w : World) : Prop where
  execution : ∀ env request item, env.Fresh w → request.taskName ∈ names →
    (createExecution env w.store request).1 = .ok item → ¬ FoundByNode w.store request →
    ∀ rest, FreshTrace rest (w.after env (.createExecution request)) →
      ∀ env' request' item', env'.Fresh ((w.after env (.createExecution request)).replay rest) →
        request'.taskName ∈ names →
        (createExecution env' (replay rest (createExecution env w.store request).2) request').1 =
          .ok item' →
        ¬ FoundByNode (replay rest (createExecution env w.store request).2) request' →
        item.id = item'.id →
        request.taskName = request'.taskName ∧ request.idempotencyKey = request'.idempotencyKey
  run : ∀ env request, env.Fresh w → request.pipelineName ∈ names →
    ∀ rest, FreshTrace rest (w.after env (.createPipelineRun request)) →
      ∀ env' request', env'.Fresh ((w.after env (.createPipelineRun request)).replay rest) →
        request'.pipelineName ∈ names →
        (createPipelineRun env w.store request).1.id =
          (createPipelineRun env' (replay rest (createPipelineRun env w.store request).2)
            request').1.id →
        request.pipelineName = request'.pipelineName ∧
          request.idempotencyKey = request'.idempotencyKey

/-- A later request that is given a stored execution has its key, and the key is not empty. -/
theorem World.Referenced.given_again {w : World} (h : w.Referenced) {item : Execution}
    (hitem : w.store.executions.lookup item.id = some item) {rest : Trace}
    (hrest : FreshTrace rest w) {env : Env} (hfresh : env.Fresh (w.replay rest))
    {request : CreateExecution} {item' : Execution}
    (hok : (createExecution env (w.replay rest).store request).1 = .ok item')
    (hnode : ¬ FoundByNode (w.replay rest).store request) (hid : item.id = item'.id) :
    ∃ ref, keyOf item = some ref ∧ requestKey request = some ref := by
  have hlater := h.replay hrest
  have hissued := h.known.executions _ _ hitem
  have hstill := w.issued_subset_replay rest hissued
  obtain ⟨hkey, -, hnew | ⟨hsome, hstored⟩⟩ := created_key hlater.store.idempotent hok hnode
  · rw [hid, hnew] at hstill
    exact absurd hstill (hfresh 0)
  · obtain ⟨ref, hrequest⟩ := Option.ne_none_iff_exists'.mp hsome
    rw [← hid, World.replay_store] at hstored
    obtain ⟨old, hold, hsame, -⟩ := replay_execution_origin rest hrest hissued hstored
    cases hold.symm.trans hitem
    exact ⟨ref, hsame.symm.trans (hkey.trans hrequest), hrequest⟩

theorem World.Referenced.run_given_again {w : World} (h : w.Referenced) {run : PipelineRun}
    (hrun : w.store.runs.lookup run.id = some run) {rest : Trace} (hrest : FreshTrace rest w)
    {env : Env} (hfresh : env.Fresh (w.replay rest)) {request : CreatePipelineRun}
    (hid : run.id = (createPipelineRun env (w.replay rest).store request).1.id) :
    ∃ ref, runKeyOf run = some ref ∧ runRequestKey request = some ref := by
  have hlater := h.replay hrest
  have hissued := h.known.runs _ _ hrun
  have hstill := w.issued_subset_replay rest hissued
  obtain ⟨-, hkey, hnew | ⟨hsome, hstored⟩⟩ := createdRun_key hlater.store.runIdempotent env request
  · rw [hid, hnew] at hstill
    exact absurd hstill (hfresh 0)
  · obtain ⟨ref, hrequest⟩ := Option.ne_none_iff_exists'.mp hsome
    rw [← hid] at hstored
    rw [World.replay_store] at hstored hkey
    obtain ⟨old, hold, hsame⟩ := replay_run_origin rest hrest hissued hstored
    cases hold.symm.trans hrun
    exact ⟨ref, hsame.symm.trans (hkey.trans hrequest), hrequest⟩

theorem World.Referenced.apart {w : World} (h : w.Referenced) {names : Set String}
    (hnames : ∀ name ∈ names, '\x00' ∉ name.toList) : Apart names w where
  execution := by
    intro env request item hfresh hname hok hnode rest hrest env' request' item' hfresh' hname'
      hok' hnode' hid
    have hafter := h.after hfresh (.createExecution request)
    obtain ⟨hkey, hstored, -⟩ := created_key h.store.idempotent hok hnode
    have hstore : ((w.after env (.createExecution request)).replay rest).store =
        Memory.replay rest (createExecution env w.store request).2 := World.replay_store rest _
    rw [← hstore] at hok' hnode'
    obtain ⟨ref, hcarried, hrequest⟩ := hafter.given_again hstored hrest hfresh' hok' hnode' hid
    exact keyReference_inj (hnames _ hname) (hnames _ hname') (hkey.symm.trans hcarried) hrequest
  run := by
    intro env request hfresh hname rest hrest env' request' hfresh' hname' hid
    have hafter := h.after hfresh (.createPipelineRun request)
    obtain ⟨hstored, hkey, -⟩ := createdRun_key h.store.runIdempotent env request
    have hstore : ((w.after env (.createPipelineRun request)).replay rest).store =
        Memory.replay rest (createPipelineRun env w.store request).2 := World.replay_store rest _
    rw [← hstore] at hid
    obtain ⟨ref, hcarried, hrequest⟩ := hafter.run_given_again hstored hrest hfresh' hid
    exact keyReference_inj (hnames _ hname) (hnames _ hname') (hkey.symm.trans hcarried) hrequest

end Ody.Memory
