import Ody.Execution.ReferenceIndexes
import Ody.Library.Delimited
import Ody.Pipeline.RunSettlement

/-!
# The idempotency keys of nodes

The engine creates the execution of a node under the idempotency key
`<run id>:<node key>`, and the store joins that key to the task name. An entry
determines its run and its node as long as no registered task name contains the
identifier of a run between the two delimiters. Names are fixed before `uuid.New`
returns the identifiers, so this is an assumption on `uuid.New`. Under it the
entries of a run's nodes belong to executions of that run, whatever the engine
and its clients do.
-/

namespace Ody.Pipeline

open Library.Tables Library.Interleaving Library.Delimited Memory

/-! ## Entries -/

/-- The entry under which `CreateExecution` looks for the execution of a node. -/
def nodeIndex (runID : UUID) (node : NodeDefinition) : String :=
  idempotencyIndex node.taskName (uuidString runID ++ ":" ++ node.key)

/-- No registered task name contains the identifier between the delimiters of an entry. -/
def Unguessed (registry : Registry) (id : UUID) : Prop :=
  ∀ node, registry.Declares node →
    ¬ '\x00' :: ((uuidString id).toList ++ [':']) <:+: node.taskName.toList

/-- Task names without the first delimiter contain no identifier. -/
theorem unguessed_of_plain {registry : Registry}
    (h : ∀ entry ∈ registry.definitions.entries, ∀ node ∈ entry.2.nodes,
      '\x00' ∉ node.taskName.toList) (id : UUID) : Unguessed registry id := by
  rintro node ⟨key, definition, hl, hnode⟩ hpart
  exact h ⟨key, definition⟩ (AList.mem_lookup_iff.mp hl) node hnode (hpart.subset (by simp))

theorem requestKey_nodeRequest (runID : UUID) (node : NodeDefinition) (input : RawMessage) :
    requestKey (nodeRequest runID node input) = some (nodeIndex runID node) := by
  refine keyReference_eq_some.mpr ⟨?_, rfl⟩
  intro hempty
  have hlist := congrArg String.toList hempty
  simp [nodeRequest] at hlist

theorem nodeIndex_toList (runID : UUID) (node : NodeDefinition) :
    (nodeIndex runID node).toList =
      node.taskName.toList ++ '\x00' :: ((uuidString runID).toList ++ ':' :: node.key.toList) := by
  simp [nodeIndex, idempotencyIndex]

/-- An entry determines the run and the node. -/
theorem nodeIndex_inj {registry : Registry} {id id' : UUID} {node node' : NodeDefinition}
    (hid : Unguessed registry id) (hid' : Unguessed registry id') (hnode : registry.Declares node)
    (hnode' : registry.Declares node') (h : nodeIndex id node = nodeIndex id' node') :
    id = id' ∧ node.key = node'.key := by
  rw [← String.toList_inj, nodeIndex_toList, nodeIndex_toList] at h
  obtain ⟨-, htag, hkey⟩ := tagged_unique (by decide) (notMem_repr id (by decide))
    (notMem_repr id' (by decide)) (notMem_repr id (by decide)) (notMem_repr id' (by decide))
    (hid' node hnode) (hid node' hnode') h
  exact ⟨uuidString_inj (String.toList_inj.mp htag), String.toList_inj.mp hkey⟩

/-- The entries of the run's nodes belong to executions of these nodes. -/
def OwnsKeys (registry : Registry) (runID : UUID) (s : MemoryStore) : Prop :=
  ∀ id item node, s.executions.lookup id = some item → registry.Declares node →
    keyOf item = some (nodeIndex runID node) →
    item.pipelineRunID = some runID ∧ item.nodeKey = node.key

/-- A new execution keeps the entries in order if it has none of them or is the node's. -/
theorem OwnsKeys.after {registry : Registry} {runID : UUID} {w : World} {env : Env} {c : Call}
    (h : OwnsKeys registry runID w.store)
    (hcreate : ∀ request node, c = .createExecution request → registry.Declares node →
      requestKey request = some (nodeIndex runID node) →
      request.pipelineRunID = some runID ∧ request.nodeKey = node.key) :
    OwnsKeys registry runID (w.after env c).store := by
  intro id item node hl hnode hkey
  have hl' : (exec env w.store c).2.executions.lookup id = some item := hl
  cases exec_effect env w.store c id with
  | same hsame _ => exact h id item node (hsame ▸ hl') hnode hkey
  | inserted _ _ hnew _ =>
      cases hnew.symm.trans hl'
      exact hcreate _ node rfl hnode hkey
  | moved hold hnew _ t =>
      cases hnew.symm.trans hl'
      obtain ⟨hrun, hnodeKey⟩ := t.node_eq
      rw [hrun, hnodeKey]
      exact h id _ node hold hnode (t.references_eq.1.symm.trans hkey)
  | deleted hgone _ => exact absurd (hgone.symm.trans hl') (by simp)

/-! ## Every interleaving -/

section Interleavings

variable (registry : Registry) (runID : UUID)

/-- A call that is the engine's or leaves the entries of the run's nodes to it. Only a finished
run is marked with a text. -/
structure Mannered (w : World) (c : Call) : Prop where
  create : ∀ request, c = .createExecution request →
    (∀ node, registry.Declares node → requestKey request ≠ some (nodeIndex runID node)) ∨
    ∃ target node input, registry.Declares node ∧ target ∈ w.issued ∧
      request = nodeRequest target node input
  mark : ∀ id revision status text, c = .setPipelineRunStatus id revision status text →
    status.isTerminal = true ∨ text = ""

/-- The invariant: the entries of the run's nodes are the run's, and only a finished run has an
error text. -/
structure Tidy (w : World) : Prop where
  known : w.Known
  owns : (∀ id, id = runID ∨ id ∈ w.issued → Unguessed registry id) →
    OwnsKeys registry runID w.store
  silent : ∀ id run, w.store.runs.lookup id = some run → run.status.isTerminal = false →
    run.error = ""

/-- Identifiers stay handed out. -/
def Grows (w w' : World) : Prop := w.issued ⊆ w'.issued

variable {registry runID}

theorem mannered_of_ne {w : World} {c : Call} (hcreate : ∀ request, c ≠ .createExecution request)
    (hmark : ∀ id revision status text, c ≠ .setPipelineRunStatus id revision status text) :
    Mannered registry runID w c :=
  ⟨fun _ hc => absurd hc (hcreate _), fun _ _ _ _ hc => absurd hc (hmark _ _ _ _)⟩

theorem Tidy.after {w : World} (h : Tidy registry runID w) {env : Env} {c : Call}
    (hc : Mannered registry runID w c) : Tidy registry runID (w.after env c) where
  known := h.known.after env c
  owns := by
    intro hids
    have hold : ∀ id, id = runID ∨ id ∈ w.issued → Unguessed registry id :=
      fun id hid => hids id (hid.imp_right fun hmem => w.issued_subset env c hmem)
    refine (h.owns hold).after ?_
    rintro request node rfl hnode hkey
    rcases hc.create request rfl with hother | ⟨target, node', input, hnode', htarget, rfl⟩
    · exact absurd hkey (hother node hnode)
    · rw [requestKey_nodeRequest, Option.some.injEq] at hkey
      obtain ⟨rfl, hsame⟩ := nodeIndex_inj (hold target (Or.inr htarget)) (hold runID (Or.inl rfl))
        hnode' hnode hkey
      exact ⟨rfl, hsame⟩
  silent := by
    intro id run hl hopen
    have hl' : (exec env w.store c).2.runs.lookup id = some run := hl
    cases exec_runEffect env w.store c id with
    | same hsame => exact h.silent id run (hsame ▸ hl') hopen
    | inserted _ hnew =>
        cases hnew.symm.trans hl'
        rfl
    | status hold hnew =>
        cases hnew.symm.trans hl'
        rcases hc.mark _ _ _ _ rfl with hterminal | htext
        · exact absurd (hterminal.symm.trans hopen) (by simp)
        · exact htext
    | reopened _ hnew =>
        cases hnew.symm.trans hl'
        rfl
    | deleted hgone => exact absurd (hgone.symm.trans hl') (by simp)

/-- A mannered call, after which what was handed out still is. -/
theorem mannered_triple {P : World → Prop} {c : Call} {Q : Reply c → Unit → World → Prop}
    (hstable : ∀ w w', P w → Grows w w' → P w')
    (hc : ∀ w, P w → Mannered registry runID w c)
    (hpost : ∀ (w : World) (env : Env), w.Known → P (w.after env c) →
      Q (exec env w.store c).1 () (w.after env c)) :
    CallTriple storeSystem (Tidy registry runID) Grows Grows (fun _ w => P w) c Q := by
  rintro ⟨⟩ w hP w' hgrows htidy - r w'' ⟨env, -, rfl, rfl⟩
  have hnow := hstable w w' hP hgrows
  have hlater : Grows w' (w'.after env c) := w'.issued_subset env c
  exact ⟨htidy.after (hc w' hnow), hlater, hpost w' env htidy.known (hstable w' _ hnow hlater)⟩

/-- A mannered call of an attempt that has read its run. -/
theorem issued_triple {target : UUID} {c : Call}
    (hc : ∀ w, target ∈ w.issued → Mannered registry runID w c) :
    CallTriple storeSystem (Tidy registry runID) Grows Grows (fun _ w => target ∈ w.issued) c
      fun _ _ w => target ∈ w.issued :=
  mannered_triple (P := fun w => target ∈ w.issued) (fun _ _ hmem hgrows => hgrows hmem) hc
    fun _ _ _ h => h

variable (registry runID) in
/-- The calls of an attempt to advance a run are mannered. -/
def manneredAttempt (target : UUID) :
    AdvanceRules storeSystem (Tidy registry runID) Grows Grows registry target where
  Start := fun _ _ => True
  Seen := fun _ _ w => target ∈ w.issued
  Snap := fun _ _ _ _ w => target ∈ w.issued
  Ends := fun _ _ _ => True
  get := by
    refine mannered_triple (P := fun _ => True) (fun _ _ _ _ => trivial)
      (fun w _ => mannered_of_ne (by simp) (by simp)) fun w env hknown _ => ?_
    cases hreply : (exec env w.store (.getPipelineRun target)).1 with
    | error err => trivial
    | ok run => exact w.issued_subset env _ (hknown.runs _ _ (getPipelineRun_ok hreply))
  stop := fun _ _ _ _ _ => trivial
  missing := fun _ _ _ _ _ => trivial
  list := fun _ _ _ _ => issued_triple fun w _ => mannered_of_ne (by simp) (by simp)
  failed := fun _ _ _ _ _ _ _ => (issued_triple fun w _ => ⟨by simp, by
    rintro _ _ _ _ ⟨⟩
    exact Or.inl rfl⟩).weaken fun _ _ _ _ => trivial
  skip := fun _ _ _ _ _ h => h
  unbuilt := fun _ _ _ => (issued_triple fun w _ => ⟨by simp, by
    rintro _ _ _ _ ⟨⟩
    exact Or.inl rfl⟩).weaken fun _ _ _ _ => trivial
  release := by
    intro run definition items view done node input item _ _ _ _
    refine (issued_triple fun w _ => mannered_of_ne (by simp) (by simp)).weaken
      fun reply _ _ h => ?_
    cases reply with
    | error err => trivial
    | ok _ => exact h
  create := by
    intro run definition items view done node input hsnap hselected hbuilt _
    obtain ⟨definition', hfound, hnode⟩ := (hsnap.schedulable hselected hbuilt).declared
    refine (issued_triple fun w htarget => ⟨?_, by simp⟩).weaken fun reply _ _ h => ?_
    · rintro _ ⟨⟩
      exact Or.inr ⟨target, node, input, Registry.declares_of_find hfound hnode, htarget, rfl⟩
    · cases reply with
      | error err => trivial
      | ok _ => exact h
  succeed := fun _ _ => (issued_triple fun w _ => ⟨by simp, by
    rintro _ _ _ _ ⟨⟩
    exact Or.inl rfl⟩).weaken fun _ _ _ _ => trivial
  running := fun _ _ => (issued_triple fun w _ => ⟨by simp, by
    rintro _ _ _ _ ⟨⟩
    exact Or.inr rfl⟩).weaken fun _ _ _ _ => trivial
  idle := fun _ _ _ _ _ _ => trivial

variable (registry runID) in
/-- The operations of the engine are mannered. -/
def manneredOperations :
    OperationRules storeSystem (Tidy registry runID) Grows Grows registry where
  Free := fun c => ∀ w, Mannered registry runID w c
  Seen := fun _ _ _ _ => True
  preparatory := by
    intro c hc w
    apply mannered_of_ne
    · rintro request rfl
      cases hc
    · rintro id revision status text rfl
      cases hc
  free := fun c hc => mannered_triple (P := fun _ => True) (fun _ _ _ _ => trivial)
    (fun w _ => hc w) fun _ _ _ _ => trivial
  get := fun _ => mannered_triple (P := fun _ => True) (fun _ _ _ _ => trivial)
    (fun _ _ => mannered_of_ne (by simp) (by simp)) fun _ _ _ _ _ _ => trivial
  restart := fun _ _ _ _ _ _ => mannered_triple (P := fun _ => True) (fun _ _ _ _ => trivial)
    (fun _ _ => mannered_of_ne (by simp) (by simp)) fun _ _ _ _ => trivial
  advance := fun target => (manneredAttempt registry runID target).advance
    (fun _ _ _ _ _ => trivial) fun _ _ _ => trivial

variable (registry runID) in
/-- The programs that run at the same time: the engine, its workers, and other clients that leave
the executions of the run and the entries of its nodes to the engine. -/
inductive Caller : Program Call Reply Unit → Prop
  | coordinator {p : Program Call Reply Unit} (h : Coordinator registry p) : Caller p
  | call (c : Call) (h : Outside runID c) (hkeys : ∀ request, c = .createExecution request →
      ∀ node, registry.Declares node → requestKey request ≠ some (nodeIndex runID node)) :
      Caller (.single c)

theorem Coordinator.client {p : Program Call Reply Unit} (h : Coordinator registry p) :
    Client registry runID p := by
  cases h with
  | run definition input options => exact .run definition input options
  | advance target => exact .advance target
  | reconcile => exact .reconcile
  | cancel target reason => exact .cancel target reason
  | restart executionID => exact .restart executionID
  | worker c hc =>
      refine .call c ?_
      cases c <;> trivial

theorem Caller.client {p : Program Call Reply Unit} (h : Caller registry runID p) :
    Client registry runID p := by
  cases h with
  | coordinator h => exact h.client
  | call c h _ => exact .call c h

theorem Coordinator.mannered {p : Program Call Reply Unit} (h : Coordinator registry p) :
    Triple storeSystem (Tidy registry runID) Grows Grows (fun _ _ => True) p
      fun _ _ _ => True := by
  apply Coordinator.triple (manneredOperations registry runID) _ _ _ h
  · exact fun _ _ _ => mannered_of_ne (by simp) (by simp)
  · refine fun _ _ _ _ => ⟨by simp, ?_⟩
    rintro _ _ _ _ ⟨⟩
    exact Or.inl rfl
  · intro c hc w
    apply mannered_of_ne
    · rintro request rfl
      cases hc
    · rintro id revision status text rfl
      cases hc

theorem Caller.mannered {p : Program Call Reply Unit} (h : Caller registry runID p) :
    Triple storeSystem (Tidy registry runID) Grows Grows (fun _ _ => True) p
      fun _ _ _ => True := by
  cases h with
  | coordinator h => exact h.mannered
  | call c hc hkeys =>
      refine (manneredOperations registry runID).freeCall (fun w => ⟨?_, ?_⟩)
        fun _ => OperationRules.ended ()
      · rintro request rfl
        exact Or.inl (hkeys request rfl)
      · rintro _ revision status text rfl
        exact False.elim hc

theorem tidy_of_reach {w : World} {threads : List (Thread Unit Call Reply Unit)}
    (h : Reach storeSystem World.Initial (Caller registry runID) w threads) :
    Tidy registry runID w := by
  refine (Reach.safe (R := Grows) (fun w => List.Subset.refl w.issued) ?_
    (fun _ _ h => h) ?_ (fun p hp => hp.mannered.of fun _ _ _ => trivial) h).1
  · exact fun a b c _ _ _ hab hbc => List.Subset.trans hab hbc
  · rintro w ⟨clock, rfl⟩
    refine ⟨World.init_known clock, fun _ => ?_, ?_⟩
    · simp [OwnsKeys, World.init, newMemoryStore]
    · simp [World.init, newMemoryStore]

end Interleavings

/-! ## Coordinated runs -/

section Coordination

variable (registry : Registry) (runID : UUID)

/-- Each node of the run has at most one execution, and `CreateExecution` finds it. -/
structure Coordinated (w : World) : Prop where
  indexed : Indexed registry runID w
  referenced : Referenced w.store
  owns : OwnsKeys registry runID w.store

variable {registry runID}

theorem coordinated_of_reach {w : World} {threads : List (Thread Unit Call Reply Unit)}
    (h : Reach storeSystem World.Initial (Caller registry runID) w threads)
    (hids : ∀ id, id = runID ∨ id ∈ w.issued → Unguessed registry id) :
    Coordinated registry runID w where
  indexed := (sound_of_reach (h.mono fun _ hp => hp.client)).indexed
  referenced := by
    refine (Reach.invariant (I := World.Referenced) ?_ ?_ h).store
    · rintro w ⟨clock, rfl⟩
      exact ⟨World.init_known clock, Referenced.empty⟩
    · rintro w - c r w' hw - ⟨env, hfresh, -, rfl⟩
      exact hw.after hfresh c
  owns := (tidy_of_reach h).owns hids

/-- The engine's own calls keep a run coordinated. -/
theorem Coordinated.after {w : World} (h : Coordinated registry runID w) {env : Env}
    (hfresh : env.Fresh w) {c : Call} (hid : Unguessed registry runID)
    (hpermits : Permits registry runID w c)
    (hcreate : ∀ request, c = .createExecution request → ∃ node input, registry.Declares node ∧
      request = nodeRequest runID node input) :
    Coordinated registry runID (w.after env c) where
  indexed := h.indexed.after hfresh hpermits
  referenced := exec_referenced h.indexed.known hfresh c h.referenced
  owns := by
    apply h.owns.after
    rintro request node hc hnode hkey
    obtain ⟨node', input, hnode', rfl⟩ := hcreate request hc
    rw [requestKey_nodeRequest, Option.some.injEq] at hkey
    exact ⟨rfl, (nodeIndex_inj hid hid hnode' hnode hkey).2⟩

variable {w : World} {node : NodeDefinition} {input : RawMessage}

/-- What `CreateExecution` finds for a node is the node's execution. -/
theorem Coordinated.existing_member (h : Coordinated registry runID w)
    (hnode : registry.Declares node) {id : UUID}
    (hfound : existing w.store (nodeRequest runID node input) = some id) :
    ∃ item, Member w.store runID item ∧ item.nodeKey = node.key := by
  have hmember : ∀ item, w.store.executions.lookup id = some item →
      item.pipelineRunID = some runID → Member w.store runID item := by
    intro item hl hrun
    refine ⟨?_, hrun⟩
    rw [w.store.executions_keyed id item hl]
    exact hl
  rw [existing_eq, requestKey_nodeRequest, Option.bind_some, Option.or_eq_some_iff] at hfound
  rcases hfound with hkey | ⟨-, hnodes⟩
  · obtain ⟨item, hl, hcarried⟩ := (h.referenced.idempotent _ id).mp hkey
    obtain ⟨hrun, hsame⟩ := h.owns id item node hl hnode hcarried
    exact ⟨item, hmember item hl hrun, hsame⟩
  · obtain ⟨ref, href, hlead⟩ := Option.bind_eq_some_iff.mp hnodes
    obtain ⟨hrun, hkey, -⟩ := nodeReference_eq_some.mp href
    obtain ⟨item, hl, hcarried⟩ := (h.referenced.nodes ref id).mp hlead
    obtain ⟨hrun', hkey', -⟩ := nodeReference_eq_some.mp hcarried
    exact ⟨item, hmember item hl (hrun'.trans hrun.symm), hkey'.trans hkey.symm⟩

/-- When `CreateExecution` finds nothing for a node, the node has no execution. -/
theorem Coordinated.no_member (h : Coordinated registry runID w) (hkey : node.key ≠ "")
    (hnew : existing w.store (nodeRequest runID node input) = none) :
    ∀ item, Member w.store runID item → item.nodeKey ≠ node.key := by
  intro item hm heq
  have hfree := (existing_eq_none.mp hnew).2 (runID, node.key)
    (nodeReference_eq_some.mpr ⟨rfl, rfl, hkey⟩)
  have hindex := h.indexed.indexed item hm
  rw [heq] at hindex
  exact absurd (hfree.symm.trans hindex) (by simp)

end Coordination

/-! ## A pipeline with plain names -/

theorem unguessed_etl (id : UUID) : Unguessed etlRegistry id := unguessed_of_plain (by decide) id

end Ody.Pipeline
