import Ody.Pipeline.AdvanceProgress

/-!
# Attempts to advance a run

The rules for one attempt among many on the same run. It reads the run, lists the
executions and then works on the plan, whatever the others do in between. It
ends with the plan fulfilled, unless it finds an execution that it wants to
release already released: `advanceOnce` returns that error. An attempt that is
alone does not meet it.
-/

namespace Ody.Pipeline

open Library.Tables Library.Interleaving Library.Delimited Memory

/-- The execution that the call releases. -/
def releaseTarget : Call → Option UUID
  | .releaseExecution id _ _ => some id
  | _ => none

/-- If the call releases an execution, it finds the execution still blocked. -/
def FindsBlocked (s : MemoryStore) (c : Call) : Prop :=
  ∀ id ∈ releaseTarget c, ∀ item ∈ s.executions.lookup id, item.status = .blocked

instance (s : MemoryStore) (c : Call) : Decidable (FindsBlocked s c) :=
  inferInstanceAs (Decidable (∀ _ ∈ releaseTarget c, _))

/-- The store, in the interleavings in which every release finds its execution blocked, if they
are the `careful` ones. -/
def releaseSystem (careful : Prop) : System World Unit Call Reply :=
  { storeSystem with allowed := fun w _ c => careful → FindsBlocked w.store c }

section States

variable (registry : Registry) (runID : UUID) (base : World) (run₀ : PipelineRun)
  (definition : CompiledDefinition)

/-- The other attempts work on the plan; there are none if this one is `alone`. -/
def Interferes (alone : Prop) (w w' : World) : Prop := Drift runID w w' ∧ (alone → w = w')

/-- The run was read with this record. -/
structure Viewed (run : PipelineRun) (w : World) : Prop where
  between : Between registry runID base run₀ definition w
  read : ReadRun runID run w
  since : run = run₀ ∨ run₀.revision < run.revision
  same : SameRun run₀ run

/-- The attempt has passed some of the nodes. -/
structure Progress (alone : Prop) (run : PipelineRun) (items : List Execution)
    (done : List NodeDefinition) (w : World) : Prop extends
    Viewed registry runID base run₀ definition run w where
  listing : Listing runID base run₀ definition items
  stored : ∀ item ∈ items, item.status ≠ .blocked → Member w.store runID item
  passed : ∀ node ∈ done,
    (∀ err, ¬ Wanted base.store runID run₀ definition node (.error err)) ∧
    ∀ input, Planned base.store runID run₀ definition node input → Done runID w node
  waiting : alone → ∀ item ∈ items, item.nodeKey ∉ done.map (·.key) → Member w.store runID item

/-- The plan is fulfilled. -/
structure Settled (w : World) : Prop where
  between : Between registry runID base run₀ definition w
  run : ∃ run, w.store.runs.lookup runID = some run ∧
    (Marked runID base run₀ definition w run ∨
      (run = run₀ ∧ run₀.status = .running ∧
        Outcome base.store runID run₀ definition .running "" ∧
        AllDone runID base run₀ definition w))

/-- What an attempt promises when it ends. Where no mapper fails and every release finds its
execution blocked, it can only be refused the mark, because the run was marked by another one. -/
structure Ended (alone careful : Prop) (result : Except GoError Unit) (w : World) : Prop where
  settled : alone ∨ careful → Settled registry runID base run₀ definition w
  result : careful → (∀ node err, ¬ Wanted base.store runID run₀ definition node (.error err)) →
    result = .ok () ∨ (result = .error .conflict ∧ IsMarked runID base run₀ definition w)

end States

section Facts

variable {registry : Registry} {runID : UUID} {base : World} {run₀ : PipelineRun}
  {definition : CompiledDefinition} {alone careful : Prop} {w w' : World} {run : PipelineRun}
  {items : List Execution} {done : List NodeDefinition}

/-- Without a condition this is the store. -/
theorem releaseSystem_false : releaseSystem False = storeSystem := by
  simp [releaseSystem, storeSystem]

variable (alone) in
theorem Interferes.refl (w : World) : Interferes runID alone w w := ⟨Drift.refl w, fun _ => rfl⟩

theorem Viewed.stable (h : Viewed registry runID base run₀ definition run w)
    (hbetween : Between registry runID base run₀ definition w') (hdrift : Drift runID w w') :
    Viewed registry runID base run₀ definition run w' :=
  { h with between := hbetween, read := h.read.stable hdrift.rely }

/-- The calls of others. -/
theorem Progress.stable (h : Progress registry runID base run₀ definition alone run items done w)
    (hbetween : Between registry runID base run₀ definition w')
    (hinterferes : Interferes runID alone w w') :
    Progress registry runID base run₀ definition alone run items done w' where
  toViewed := h.toViewed.stable hbetween hinterferes.1
  listing := h.listing
  stored := fun item hmem hs => hinterferes.1.kept item (h.stored item hmem hs) hs
  passed := fun node hnode =>
    ⟨(h.passed node hnode).1, fun input hplanned =>
      ((h.passed node hnode).2 input hplanned).drift hinterferes.1⟩
  waiting := fun halone => by
    rw [← hinterferes.2 halone]
    exact h.waiting halone

theorem IsMarked.settled (h : IsMarked runID base run₀ definition w)
    (hbetween : Between registry runID base run₀ definition w) :
    Settled registry runID base run₀ definition w := by
  obtain ⟨run, hrun, hmarked⟩ := h
  exact ⟨hbetween, run, hrun, Or.inl hmarked⟩

theorem IsMarked.ended (h : IsMarked runID base run₀ definition w)
    (hbetween : Between registry runID base run₀ definition w) {result : Except GoError Unit}
    (hresult : result = .ok () ∨ result = .error .conflict) :
    Ended registry runID base run₀ definition alone careful result w :=
  ⟨fun _ => h.settled hbetween, fun _ _ => hresult.imp_right fun hconflict => ⟨hconflict, h⟩⟩

/-- A stored run that is not as it was read, or was read after a mark, is marked. -/
theorem Viewed.isMarked (h : Viewed registry runID base run₀ definition run w)
    {run' : PipelineRun} (hrun' : w.store.runs.lookup runID = some run')
    (hne : run ≠ run₀ ∨ run'.revision ≠ run.revision) :
    IsMarked runID base run₀ definition w := by
  have hle := (h.read.seen.run run' hrun').2
  refine h.between.isMarked hrun' ?_
  rcases h.since with rfl | hlater
  · have hne' : run'.revision ≠ run.revision := hne.resolve_left fun hne => hne rfl
    omega
  · omega

/-- A run that is still as at the start was read so. -/
theorem Viewed.eq_of_stored (h : Viewed registry runID base run₀ definition run w)
    (hrun : w.store.runs.lookup runID = some run₀) : run = run₀ := by
  have hle := (h.read.seen.run run₀ hrun).2
  rcases h.since with heq | hlater
  · exact heq
  · omega

/-- The node that the attempt has come to is planned. -/
theorem Progress.planned (h : Progress registry runID base run₀ definition alone run items done w)
    {view : View} {node : NodeDefinition} {input : RawMessage}
    (hscan : scan ⟨∅, ∅⟩ items = .ok view) (hselected : Selected definition view done node)
    (hbuilt : safeBuildInput node run.input view.output = .ok input) :
    Planned base.store runID run₀ definition node input := by
  obtain ⟨rest, hnodes⟩ := hselected.next
  refine ⟨h.listing.not_broken hscan, ?_, ?_⟩
  · rw [← hbuilt]
    exact h.listing.wanted hscan h.same.input hselected
  · exact reached_of_passed hnodes fun earlier hmem => (h.passed earlier hmem).1

/-- The attempt works with the definition of the start. -/
theorem Viewed.definition_eq (h : Viewed registry runID base run₀ definition run w)
    (h₀ : Opened registry runID base run₀ definition) {definition' : CompiledDefinition}
    (hfound : registry.find run = some definition') : definition' = definition := by
  rw [h.same.find registry, h₀.found] at hfound
  exact (Option.some.inj hfound).symm

/-- The attempt goes on to the next node, after a call that leaves the other listed executions. -/
theorem Progress.pass (h : Progress registry runID base run₀ definition alone run items done w)
    (hbetween : Between registry runID base run₀ definition w') (hdrift : Drift runID w w')
    {node : NodeDefinition}
    (hkept : ∀ item, Member w.store runID item → item.nodeKey ≠ node.key →
      Member w'.store runID item)
    (hbuilt : ∀ err, ¬ Wanted base.store runID run₀ definition node (.error err))
    (hdone : ∀ input, Planned base.store runID run₀ definition node input → Done runID w' node) :
    Progress registry runID base run₀ definition alone run items (done ++ [node]) w' where
  toViewed := h.toViewed.stable hbetween hdrift
  listing := h.listing
  stored := fun item hmem hs => hdrift.kept item (h.stored item hmem hs) hs
  passed := by
    intro node' hmem
    rcases List.mem_append.mp hmem with hmem | hmem
    · exact ⟨(h.passed node' hmem).1, fun input hplanned =>
        ((h.passed node' hmem).2 input hplanned).drift hdrift⟩
    · rw [List.mem_singleton.mp hmem]
      exact ⟨hbuilt, hdone⟩
  waiting := by
    intro halone item hmem hkey
    rw [List.map_append, List.mem_append, not_or] at hkey
    exact hkept item (h.waiting halone item hmem hkey.1) (by simpa using hkey.2)

/-- Once all nodes are passed, every planned one is scheduled. -/
theorem Progress.allDone
    (h : Progress registry runID base run₀ definition alone run items definition.nodes w) :
    AllDone runID base run₀ definition w :=
  fun node input hplanned => (h.passed node hplanned.wanted.declared).2 input hplanned

/-- The outcome of an attempt that has passed all nodes of an incomplete run. -/
theorem Progress.running
    (h : Progress registry runID base run₀ definition alone run items definition.nodes w)
    (h₀ : Opened registry runID base run₀ definition) {view : View}
    (hscan : scan ⟨∅, ∅⟩ items = .ok view)
    (hopen : (definition.nodes.isEmpty || view.complete definition) = false) :
    Outcome base.store runID run₀ definition .running "" := by
  refine Outcome.running (h.listing.not_broken hscan) ?_ ?_
  · rw [← h.listing.complete_iff hscan h₀.coordinated.indexed h₀.stored h₀.found, hopen]
    simp
  · intro node err hwanted
    exact (h.passed node hwanted.declared).1 err hwanted

/-! ## The rules -/

/-- A call of an attempt among others. -/
theorem advance_triple (h₀ : Opened registry runID base run₀ definition) {P : World → Prop}
    {c : Call} {Q : Reply c → Unit → World → Prop}
    (hstable : ∀ w w', P w → Between registry runID base run₀ definition w' →
      Interferes runID alone w w' → P w')
    (hcall : ∀ w, P w → Between registry runID base run₀ definition w →
      AdvanceCall runID base run₀ definition w c)
    (hpost : ∀ w (env : Env), P w → Between registry runID base run₀ definition w →
      env.Fresh w → (careful → FindsBlocked w.store c) →
      Between registry runID base run₀ definition (w.after env c) →
      Drift runID w (w.after env c) → Q (exec env w.store c).1 () (w.after env c)) :
    CallTriple (releaseSystem careful) (Between registry runID base run₀ definition)
      (Interferes runID alone) (Drift runID) (fun _ w => P w) c Q := by
  rintro ⟨⟩ w hP w' hinterferes hbetween ha r w'' ⟨env, hfresh, rfl, rfl⟩
  have hnow := hstable w w' hP hbetween hinterferes
  have hc := hcall w' hnow hbetween
  have hdrift := drift_after hbetween hfresh hc
  have hafter := hbetween.after hfresh hc h₀
  exact ⟨hafter, hdrift, hpost w' env hnow hbetween hfresh ha hafter hdrift⟩

/-- A mark is accepted, or the run was marked by another attempt. -/
theorem Viewed.marks (h : Viewed registry runID base run₀ definition run w) {env : Env}
    {status : RunStatus} {text : String}
    (hafter : Between registry runID base run₀ definition
      (w.after env (.setPipelineRunStatus runID run.revision status text)))
    (hdrift : Drift runID w (w.after env (.setPipelineRunStatus runID run.revision status text))) :
    IsMarked runID base run₀ definition
        (w.after env (.setPipelineRunStatus runID run.revision status text)) ∧
      ((setPipelineRunStatus env w.store runID run.revision status text).1 = .ok () ∨
        (setPipelineRunStatus env w.store runID run.revision status text).1 = .error .conflict) := by
  obtain ⟨run', hrun', -⟩ := h.between.run
  have hstore : (w.after env (.setPipelineRunStatus runID run.revision status text)).store =
      (setPipelineRunStatus env w.store runID run.revision status text).2 := rfl
  by_cases hsame : run'.revision = run.revision
  · have hresult : setPipelineRunStatus env w.store runID run.revision status text =
        (.ok (), w.store.putRun (withStatus env status text run')) := by
      simp [setPipelineRunStatus, hrun', hsame]
    rw [hresult] at hstore
    have hnew : (w.store.putRun (withStatus env status text run')).runs.lookup runID =
        some (withStatus env status text run') := by
      rw [putRun_lookup]
      exact if_pos (w.store.runs_keyed _ _ hrun').symm
    have hlater : run₀.revision < (withStatus env status text run').revision := by
      simp only [withStatus]
      rcases h.since with rfl | hlater <;> omega
    refine ⟨hafter.isMarked ?_ hlater, Or.inl (by rw [hresult])⟩
    rw [hstore]
    exact hnew
  · have hresult : setPipelineRunStatus env w.store runID run.revision status text =
        (.error .conflict, w.store) := by
      simp [setPipelineRunStatus, hrun', hsame]
    rw [hresult] at hstore
    obtain ⟨marked, hmarked, hm⟩ := h.isMarked hrun' (Or.inr hsame)
    refine ⟨⟨marked, ?_, hm.drift hdrift⟩, Or.inr (by rw [hresult])⟩
    rw [hstore]
    exact hmarked

/-- The mark at the end of an attempt. -/
theorem mark_triple (h₀ : Opened registry runID base run₀ definition)
    (hopen : run.status.isTerminal = false) {status : RunStatus} {text : String}
    {Q : Except GoError Unit → Unit → World → Prop}
    (hmark : ∀ w, Progress registry runID base run₀ definition alone run items done w →
      Outcome base.store runID run₀ definition status text ∧ AllDone runID base run₀ definition w)
    (hQ : ∀ reply w w', Progress registry runID base run₀ definition alone run items done w →
      Between registry runID base run₀ definition w' → IsMarked runID base run₀ definition w' →
      reply = .ok () ∨ reply = .error .conflict → Q reply () w') :
    CallTriple (releaseSystem careful) (Between registry runID base run₀ definition)
      (Interferes runID alone) (Drift runID)
      (fun _ w => Progress registry runID base run₀ definition alone run items done w)
      (.setPipelineRunStatus runID run.revision status text) Q := by
  refine advance_triple h₀ (fun _ _ h => h.stable) ?_ ?_
  · intro w h _
    obtain ⟨houtcome, hall⟩ := hmark w h
    exact AdvanceCall.mark h.read hopen houtcome hall
  · intro w env h _ _ _ hafter hdrift
    obtain ⟨hmarked, hreply⟩ := h.marks hafter hdrift
    exact hQ _ w _ h hafter hmarked hreply

/-- The node that is released is not among those already passed. -/
theorem Selected.not_passed {view : View} {node : NodeDefinition}
    (h : Selected definition view done node) : node.key ∉ done.map (·.key) := by
  obtain ⟨rest, hnodes⟩ := h.next
  have hnodup := definition.keys_nodup
  rw [CompiledDefinition.keys, hnodes, List.map_append, List.map_cons, List.nodup_middle,
    List.nodup_cons] at hnodup
  exact fun hmem => hnodup.1 (List.mem_append_left _ hmem)

/-- A release: the next node, or the error that the execution is not blocked any more. -/
theorem Progress.releases (h : Progress registry runID base run₀ definition alone run items done w)
    (h₀ : Opened registry runID base run₀ definition) {env : Env} {node : NodeDefinition}
    {input : RawMessage} {item : Execution}
    (hplanned : Planned base.store runID run₀ definition node input) (hmem : item ∈ items)
    (hkey : item.nodeKey = node.key) (hs : item.status = .blocked)
    (hnext : node.key ∉ done.map (·.key))
    (ha : careful → FindsBlocked w.store (.releaseExecution item.id input item.availableAt))
    (hafter : Between registry runID base run₀ definition
      (w.after env (.releaseExecution item.id input item.availableAt)))
    (hdrift : Drift runID w (w.after env (.releaseExecution item.id input item.availableAt))) :
    onReply
      (fun _ _ w => Progress registry runID base run₀ definition alone run items (done ++ [node]) w)
      (fun err _ w => Ended registry runID base run₀ definition alone careful (.error err) w)
      (releaseExecution env w.store item.id input item.availableAt).1 ()
      (w.after env (.releaseExecution item.id input item.availableAt)) := by
  have hm := h.listing.member hmem (by simp [hs])
  obtain ⟨item', hl, hm', hsame⟩ := h.between.stored_or_released hm
  have hstore : (w.after env (.releaseExecution item.id input item.availableAt)).store =
      (releaseExecution env w.store item.id input item.availableAt).2 := rfl
  by_cases hs' : item'.status = .blocked
  · obtain rfl := hsame hs'
    have hresult : releaseExecution env w.store item'.id input item'.availableAt =
        (.ok (), w.store.put (released env input item'.availableAt item')) := by
      simp [releaseExecution, hl, hs']
    rw [hresult] at hstore ⊢
    refine h.pass hafter hdrift ?_ ?_ ?_
    · rintro other ⟨hother, hrun⟩ hne
      refine ⟨?_, hrun⟩
      rw [hstore, put_lookup, if_neg]
      · exact hother
      · intro hid
        change other.id = item'.id at hid
        rw [hid, hl] at hother
        exact hne (Option.some.inj hother ▸ hkey)
    · exact fun err hwanted =>
        absurd (hplanned.wanted.unique h₀.coordinated.indexed hwanted) (by simp)
    · refine fun _ _ => ⟨released env input item'.availableAt item', ⟨?_, hm.2⟩, hkey,
        by simp [released]⟩
      rw [hstore, put_lookup]
      exact if_pos rfl
  · have hresult : releaseExecution env w.store item.id input item.availableAt =
        (.error .active, w.store) := by
      simp [releaseExecution, hl, hs']
    rw [hresult]
    -- nobody else has released it, if the attempt is alone or finds it blocked
    have hfalse : ¬ (alone ∨ careful) := by
      rintro (halone | hcareful)
      · have hstored := (h.waiting halone item hmem (hkey ▸ hnext)).1
        rw [hl, Option.some.injEq] at hstored
        exact hs' (hstored ▸ hs)
      · exact hs' (ha hcareful item.id rfl item' hl)
    exact ⟨fun hor => absurd hor hfalse, fun hcareful => absurd (Or.inr hcareful) hfalse⟩

/-- A creation always leads to the next node. -/
theorem Progress.creates (h : Progress registry runID base run₀ definition alone run items done w)
    (h₀ : Opened registry runID base run₀ definition) {env : Env} (hfresh : env.Fresh w)
    {node : NodeDefinition} {input : RawMessage}
    (hplanned : Planned base.store runID run₀ definition node input)
    (hnone : ∀ item ∈ items, item.nodeKey ≠ node.key)
    (hafter : Between registry runID base run₀ definition
      (w.after env (.createExecution (nodeRequest runID node input))))
    (hdrift : Drift runID w (w.after env (.createExecution (nodeRequest runID node input)))) :
    (∃ item, (createExecution env w.store (nodeRequest runID node input)).1 = .ok item) ∧
      Progress registry runID base run₀ definition alone run items (done ++ [node])
        (w.after env (.createExecution (nodeRequest runID node input))) := by
  have hname : (nodeRequest runID node input).taskName ≠ "" :=
    h₀.named node hplanned.wanted.declared
  have hdeclares := Registry.declares_of_find h₀.found hplanned.wanted.declared
  have hkept : ∀ item, Member w.store runID item →
      Member (w.after env (.createExecution (nodeRequest runID node input))).store runID item := by
    rintro item ⟨hl, hrun⟩
    refine ⟨?_, hrun⟩
    generalize hid : item.id = id at hl ⊢
    cases createExecution_effect env w.store (nodeRequest runID node input) id with
    | same hsame _ => exact hsame.trans hl
    | inserted _ _ _ _ =>
        exact absurd (h.between.coordinated.indexed.known.executions _ _ hl) (hfresh 0)
    | moved _ _ _ t => cases t
  refine ⟨?_, h.pass hafter hdrift (fun item hm _ => hkept item hm) ?_ ?_⟩
  · cases hfound : existing w.store (nodeRequest runID node input) <;>
      simp [createExecution, hname, hfound]
  · exact fun err hwanted =>
      absurd (hplanned.wanted.unique h₀.coordinated.indexed hwanted) (by simp)
  · intro _ _
    cases hfound : existing w.store (nodeRequest runID node input) with
    | none =>
        refine ⟨created env (nodeRequest runID node input), ⟨?_, rfl⟩, rfl, by simp [created]⟩
        exact (createExecution_new hname hfound).2
    | some id =>
        obtain ⟨item, hm, hkey⟩ := h.between.coordinated.existing_member hdeclares hfound
        refine ⟨item, hkept item hm, hkey, fun hs => ?_⟩
        -- a blocked one would have been listed
        obtain ⟨listed, hmem, hlisted, -⟩ := h.listing.covers item (h.between.blocked hm hs)
        exact hnone listed hmem (hlisted.trans hkey)

variable (alone careful) in
/-- The rules of one attempt. -/
def attemptRules (h₀ : Opened registry runID base run₀ definition) :
    AdvanceRules (releaseSystem careful) (Between registry runID base run₀ definition)
      (Interferes runID alone) (Drift runID) registry runID where
  Start := fun _ _ => True
  Seen := fun run _ w => Viewed registry runID base run₀ definition run w
  Snap := fun run items done _ w =>
    Progress registry runID base run₀ definition alone run items done w
  Ends := fun result _ w => Ended registry runID base run₀ definition alone careful result w
  get := by
    refine advance_triple h₀ (P := fun _ => True) (fun _ _ _ _ _ => trivial)
      (fun _ _ _ => AdvanceCall.get) ?_
    intro w env _ hbetween _ _ hafter _
    obtain ⟨run, hrun, hcases⟩ := hbetween.run
    have hreply : getPipelineRun w.store runID = .ok run := by simp [getPipelineRun, hrun]
    change onReply _ _ (getPipelineRun w.store runID) () _
    rw [hreply]
    exact ⟨hafter, readRun_of_get hbetween.coordinated.indexed.known env hreply,
      hcases.imp_right Marked.later, hbetween.sameRun hrun⟩
  stop := by
    intro run _ w hterminal h
    obtain ⟨run', hrun', -⟩ := h.between.run
    refine (h.isMarked hrun' (Or.inl ?_)).ended h.between (Or.inl rfl)
    rintro rfl
    exact absurd (hterminal.symm.trans h₀.unfinished) (by simp)
  missing := by
    intro run _ w hmissing h
    rw [h.same.find registry, h₀.found] at hmissing
    cases hmissing
  list := by
    intro run definition' _ _
    refine advance_triple h₀ (fun _ _ h hbetween hinterferes => h.stable hbetween hinterferes.1)
      (fun _ _ _ => AdvanceCall.list) ?_
    intro w env h hbetween _ _ hafter hdrift
    have hitems : ∀ item, item ∈ listRunExecutions env w.store runID ↔ Member w.store runID item :=
      fun item => mem_listRunExecutions
    exact {
      toViewed := h.stable hafter hdrift
      listing := hbetween.listing hitems
      stored := fun item hmem _ => (hitems item).mp hmem
      passed := by simp
      waiting := fun _ item hmem _ => (hitems item).mp hmem }
  failed := by
    intro run definition' items item hopen _ hscan
    refine mark_triple h₀ hopen (fun w h => ?_)
      fun _ _ _ _ hbetween hmarked hreply => hmarked.ended hbetween hreply
    have hfailure := h.listing.failure hscan
    exact ⟨Outcome.failed hfailure, fun _ _ hplanned => absurd hfailure.broken hplanned.sound⟩
  skip := by
    intro run definition' items view done node rest hsnap hnodes hskip _ w h
    obtain rfl := h.definition_eq h₀ hsnap.found
    obtain ⟨hbuilt, hlisted⟩ := h.listing.skipped hsnap.scanned h₀.coordinated.indexed
      (by simp [hnodes]) hskip
    refine h.pass h.between (Drift.refl w) (fun _ hm _ => hm) hbuilt fun input hplanned => ?_
    obtain ⟨item, hmem, hkey, hs⟩ := hlisted input hplanned
    exact ⟨item, h.stored item hmem hs, hkey, hs⟩
  unbuilt := by
    intro run definition' items view done node buildErr hsnap hselected hbuilt
    have hwanted : ∀ w, Progress registry runID base run₀ definition alone run items done w →
        Wanted base.store runID run₀ definition node (.error buildErr) := by
      intro w h
      obtain rfl := h.definition_eq h₀ hsnap.found
      rw [← hbuilt]
      exact h.listing.wanted hsnap.scanned h.same.input hselected
    refine mark_triple h₀ hsnap.unfinished (fun w h => ?_) fun _ w _ h hbetween hmarked _ => ?_
    · obtain rfl := h.definition_eq h₀ hsnap.found
      obtain ⟨rest, hnodes⟩ := hselected.next
      refine ⟨Outcome.unbuilt (h.listing.not_broken hsnap.scanned) (hwanted w h) ?_, ?_⟩
      · exact reached_of_passed hnodes fun earlier hmem => (h.passed earlier hmem).1
      · intro other input hplanned
        have hbefore := hplanned.before h₀.coordinated.indexed (hwanted w h) hnodes
        exact (h.passed other hbefore).2 input hplanned
    · exact ⟨fun _ => hmarked.settled hbetween, fun _ hbuilds =>
        absurd (hwanted w h) (hbuilds node buildErr)⟩
  release := by
    intro run definition' items view done node input item hsnap hselected hbuilt hitem
    have hblocked := hselected.idle item hitem
    refine advance_triple h₀ (fun _ _ h => h.stable) ?_ ?_
    · intro w h _
      obtain rfl := h.definition_eq h₀ hsnap.found
      obtain ⟨hmem, hkey⟩ := (h.listing.byNode_iff hsnap.scanned).mp hitem
      exact AdvanceCall.release (h.planned hsnap.scanned hselected hbuilt)
        (h.listing.member hmem (by simp [hblocked])) hkey
    · intro w env h _ _ ha hafter hdrift
      obtain rfl := h.definition_eq h₀ hsnap.found
      obtain ⟨hmem, hkey⟩ := (h.listing.byNode_iff hsnap.scanned).mp hitem
      exact h.releases h₀ (h.planned hsnap.scanned hselected hbuilt) hmem hkey hblocked
        hselected.not_passed ha hafter hdrift
  create := by
    intro run definition' items view done node input hsnap hselected hbuilt hnone
    refine advance_triple h₀ (fun _ _ h => h.stable) ?_ ?_
    · intro w h _
      obtain rfl := h.definition_eq h₀ hsnap.found
      exact AdvanceCall.create (h.planned hsnap.scanned hselected hbuilt)
    · intro w env h _ hfresh _ hafter hdrift
      obtain rfl := h.definition_eq h₀ hsnap.found
      have hunlisted : ∀ item ∈ items, item.nodeKey ≠ node.key := by
        intro item hmem hkey
        have hlisted := (h.listing.byNode_iff hsnap.scanned).mpr ⟨hmem, hkey⟩
        exact absurd (hnone.symm.trans hlisted) (by simp)
      obtain ⟨⟨item, hreply⟩, hprogress⟩ := h.creates h₀ hfresh
        (h.planned hsnap.scanned hselected hbuilt) hunlisted hafter hdrift
      change onReply _ _ (createExecution env w.store (nodeRequest runID node input)).1 () _
      rw [hreply]
      exact hprogress
  succeed := by
    intro run definition' items view hsnap hcomplete
    refine mark_triple h₀ hsnap.unfinished (fun w h => ?_)
      fun _ _ _ _ hbetween hmarked hreply => hmarked.ended hbetween hreply
    obtain rfl := h.definition_eq h₀ hsnap.found
    have hall := (h.listing.complete_iff hsnap.scanned h₀.coordinated.indexed h₀.stored
      h₀.found).mp hcomplete
    exact ⟨Outcome.succeeded (h.listing.not_broken hsnap.scanned) hall,
      fun _ _ hplanned => absurd hplanned.wanted hall.settled⟩
  running := by
    intro run definition' items view hsnap hopen
    refine mark_triple h₀ hsnap.unfinished (fun w h => ?_)
      fun _ _ _ _ hbetween hmarked hreply => hmarked.ended hbetween hreply
    obtain rfl := h.definition_eq h₀ hsnap.found
    exact ⟨h.running h₀ hsnap.scanned hopen, h.allDone⟩
  idle := by
    intro run definition' items view hsnap hopen hpending _ w h
    obtain rfl := h.definition_eq h₀ hsnap.found
    refine ⟨fun _ => ⟨h.between, ?_⟩, fun _ _ => Or.inl rfl⟩
    obtain ⟨run', hrun', hcases⟩ := h.between.run
    refine ⟨run', hrun', ?_⟩
    rcases hcases with rfl | hmarked
    · obtain rfl := h.eq_of_stored hrun'
      refine Or.inr ⟨rfl, ?_, h.running h₀ hsnap.scanned hopen, h.allDone⟩
      have hunfinished := hsnap.unfinished
      cases hs : run.status <;> simp_all [RunStatus.isTerminal]
    · exact Or.inl hmarked

/-! ## Calls of `Advance` -/

variable (alone careful) in
/-- Repeated attempts of a call that is alone fulfil the plan. -/
theorem advance_settles (h₀ : Opened registry runID base run₀ definition) :
    Triple (releaseSystem careful) (Between registry runID base run₀ definition)
      (Interferes runID alone) (Drift runID) (fun _ _ => True) (advance registry runID)
      fun _ _ w => alone → Settled registry runID base run₀ definition w := by
  let rules := attemptRules alone careful h₀
  have htries : ∀ tries, Triple (releaseSystem careful)
      (Between registry runID base run₀ definition) (Interferes runID alone) (Drift runID)
      (fun _ w => tries = 0 → alone → Settled registry runID base run₀ definition w)
      (advanceTries registry runID tries)
      fun _ _ w => alone → Settled registry runID base run₀ definition w := by
    intro tries
    induction tries with
    | zero => exact Triple.done fun _ _ h => h rfl
    | succ tries ih =>
        refine (rules.advanceOnce.of fun _ _ _ => trivial).bind fun result => ?_
        cases result with
        | ok _ => exact Triple.done fun _ _ h halone => h.settled (Or.inl halone)
        | error err =>
            dsimp only
            split
            · exact ih.of fun _ _ h _ halone => h.settled (Or.inl halone)
            · exact Triple.done fun _ _ h halone => h.settled (Or.inl halone)
  exact (htries 4).of fun _ _ _ => by simp

/-- Any number of calls, each abandoned at any point, stay between the start and the plan, and
those that return keep their promise. -/
theorem Opened.of_reach (h₀ : Opened registry runID base run₀ definition)
    {Q : Except GoError Unit → Prop}
    (hcall : Triple (releaseSystem careful) (Between registry runID base run₀ definition)
      (Interferes runID False) (Drift runID) (fun _ _ => True) (advance registry runID)
      fun result _ _ => Q result)
    {threads : List (Thread Unit Call Reply (Except GoError Unit))}
    (h : Reach (releaseSystem careful) (· = base) (· = advance registry runID) w threads) :
    Between registry runID base run₀ definition w ∧
      ∀ t ∈ threads, ∀ result, t.program.result? = some result → Q result := by
  have hspawn : ∀ p, p = advance registry runID → Triple (releaseSystem careful)
      (Between registry runID base run₀ definition) (Interferes runID False) (Drift runID)
      (fun g w => g = (releaseSystem careful).start ∧ Between registry runID base run₀ definition w)
      p fun result _ _ => Q result := by
    rintro p rfl
    exact hcall.of fun _ _ _ => trivial
  have htrans : ∀ a b c, Between registry runID base run₀ definition a →
      Between registry runID base run₀ definition b →
      Between registry runID base run₀ definition c → Interferes runID False a b →
      Interferes runID False b c → Interferes runID False a c :=
    fun a b c ha _ _ hab hbc =>
      ⟨hab.1.trans ha.coordinated.indexed.known hbc.1, False.elim⟩
  have hinit : ∀ w, w = base → Between registry runID base run₀ definition w := by
    rintro w rfl
    exact h₀.between
  obtain ⟨hbetween, hthreads⟩ := h.promises (Interferes.refl False) htrans
    (fun _ _ hdrift => ⟨hdrift, False.elim⟩) (fun _ _ _ _ _ _ _ h => h) hinit hspawn
  refine ⟨hbetween, fun t ht result hresult => ?_⟩
  have hsafe := hthreads t ht
  rw [Program.eq_done_of_result? hresult] at hsafe
  exact hsafe

theorem Opened.between_of_reach (h₀ : Opened registry runID base run₀ definition)
    {threads : List (Thread Unit Call Reply (Except GoError Unit))}
    (h : Reach storeSystem (· = base) (· = advance registry runID) w threads) :
    Between registry runID base run₀ definition w := by
  rw [← releaseSystem_false] at h
  exact (h₀.of_reach ((advance_settles False False h₀).weaken fun _ _ _ _ => trivial) h).1

/-- A call that is not interrupted fulfils the plan. -/
theorem Between.settled_of_runs (h : Between registry runID base run₀ definition w)
    (h₀ : Opened registry runID base run₀ definition) {result : Except GoError Unit}
    (hruns : Runs World.Step (advance registry runID) w result w') :
    Settled registry runID base run₀ definition w' := by
  have hsafe := advance_settles True False h₀ () w trivial
  rw [releaseSystem_false] at hsafe
  obtain ⟨-, -, hsettled⟩ := hsafe.runs (Interferes.refl True) (fun _ _ _ => trivial) h hruns
  exact hsettled trivial

/-! ## Nothing left to do -/

/-- The loop over the nodes passes over every node. -/
theorem schedule_idle {view : View} {nodes : List NodeDefinition}
    (h : ∀ node ∈ nodes, (∃ item, view.byNode.lookup node.key = some item ∧
      item.status ≠ .blocked) ∨ view.ready node = false) (created : Bool) :
    schedule runID run view nodes created = .done (.ok created) := by
  induction nodes with
  | nil => rfl
  | cons node rest ih =>
      have hrest := ih fun node hnode => h node (List.mem_cons_of_mem _ hnode)
      rw [schedule]
      rcases h node (by simp) with ⟨item, hl, hs⟩ | hready
      · simp [hl, hs, hrest]
      · simp [hready, hrest]

/-- Where the plan is fulfilled and the run goes on, an attempt has nothing to do. -/
theorem Between.idle (h : Between registry runID base run₀ definition w)
    (h₀ : Opened registry runID base run₀ definition)
    (hall : AllDone runID base run₀ definition w)
    (houtcome : Outcome base.store runID run₀ definition .running "")
    (hstatus : run.status = .running) (hsame : SameRun run₀ run)
    (hitems : ∀ item, item ∈ items ↔ Member w.store runID item) :
    advanceListed runID run definition items = .done (.ok ()) := by
  have hlisting := h.listing hitems
  cases houtcome with
  | running hsound hopen hbuilt =>
      unfold advanceListed
      cases hscan : scan ⟨∅, ∅⟩ items with
      | error item => exact absurd (hlisting.failure hscan).broken hsound
      | ok view =>
          have hskip : ∀ node ∈ definition.nodes, (∃ item, view.byNode.lookup node.key = some item ∧
              item.status ≠ .blocked) ∨ view.ready node = false := by
            intro node hnode
            by_contra hnot
            push Not at hnot
            obtain ⟨hidle, hready⟩ := hnot
            obtain ⟨done, rest, hnodes⟩ := List.append_of_mem hnode
            have hwanted := hlisting.wanted hscan hsame.input
              ⟨⟨rest, hnodes⟩, hidle, by simpa using hready⟩
            cases hresult : safeBuildInput node run.input view.output with
            | error err => exact hbuilt node err (hresult ▸ hwanted)
            | ok input =>
                rw [hresult] at hwanted
                obtain ⟨item, hm, hkey, hs⟩ := hall node input
                  ⟨hsound, hwanted, fun _ _ _ earlier _ err => hbuilt earlier err⟩
                exact hs (hidle item ((hlisting.byNode_iff hscan).mpr ⟨(hitems item).mpr hm, hkey⟩))
          have hincomplete : (definition.nodes.isEmpty || view.complete definition) = false := by
            rw [Bool.eq_false_iff, ne_eq,
              hlisting.complete_iff hscan h₀.coordinated.indexed h₀.stored h₀.found]
            exact hopen
          simp only [schedule_idle hskip, Program.bind, conclude, hincomplete, hstatus]
          rfl

/-- A settled run that is not finished is running. -/
theorem Settled.running (h : Settled registry runID base run₀ definition w)
    (hrun : w.store.runs.lookup runID = some run) (hopen : run.status.isTerminal = false) :
    run.status = .running ∧ Outcome base.store runID run₀ definition .running "" ∧
      AllDone runID base run₀ definition w := by
  obtain ⟨stored, hstored, hcases⟩ := h.run
  cases hrun.symm.trans hstored
  rcases hcases with hmarked | ⟨rfl, hrunning, houtcome, hall⟩
  · have houtcome := hmarked.outcome
    generalize hstatus : run.status = status at houtcome hopen
    generalize run.error = text at houtcome
    cases houtcome with
    | failed _ => cases hopen
    | unbuilt _ _ _ => cases hopen
    | succeeded _ _ => cases hopen
    | running hsound hnot hbuilt =>
        exact ⟨rfl, Outcome.running hsound hnot hbuilt, hmarked.all⟩
  · exact ⟨hrunning, houtcome, hall⟩

variable (registry runID) in
/-- In this state an attempt only reads. -/
def Still (s : MemoryStore) : Prop :=
  ∀ run, s.runs.lookup runID = some run → run.status.isTerminal = true ∨
    registry.find run = none ∨ ∃ definition, registry.find run = some definition ∧
      ∀ items, (∀ item, item ∈ items ↔ Member s runID item) →
        advanceListed runID run definition items = .done (.ok ())

theorem Settled.still (h : Settled registry runID base run₀ definition w)
    (h₀ : Opened registry runID base run₀ definition) : Still registry runID w.store := by
  intro run hrun
  cases hopen : run.status.isTerminal with
  | true => exact Or.inl rfl
  | false =>
      obtain ⟨hstatus, houtcome, hall⟩ := h.running hrun hopen
      have hsame := h.between.sameRun hrun
      refine Or.inr (Or.inr ⟨definition, (hsame.find registry).trans h₀.found, ?_⟩)
      exact fun items hitems => h.between.idle h₀ hall houtcome hstatus hsame hitems

variable (registry runID) in
/-- The run is stored, and it is finished or its definition is registered. -/
def Answerable (s : MemoryStore) : Prop :=
  ∃ run, s.runs.lookup runID = some run ∧
    (run.status.isTerminal = true ∨ (registry.find run).isSome = true)

/-- A read in such a state. -/
theorem read_triple {s : MemoryStore} {c : Call} (hc : ∀ env, (exec env s c).2 = s) :
    CallTriple (releaseSystem careful) (fun w => w.store = s) (fun _ _ => True) (fun _ _ => True)
      (fun _ _ => True) c fun r _ _ => ∃ env, r = (exec env s c).1 := by
  rintro ⟨⟩ w - w' - rfl - r w'' ⟨env, -, rfl, rfl⟩
  exact ⟨hc env, trivial, env, rfl⟩

/-- An attempt leaves such a state as it is, and returns nil if there is a run to read. -/
theorem Still.attempt {s : MemoryStore} (h : Still registry runID s) :
    Triple (releaseSystem careful) (fun w => w.store = s) (fun _ _ => True) (fun _ _ => True)
      (fun _ _ => True) (advanceOnce registry runID)
      fun result _ _ => result = .ok () ↔ Answerable registry runID s := by
  refine Triple.call (read_triple fun _ => rfl) fun reply => ?_
  rintro g w ⟨env, rfl⟩
  have hget : (exec env s (.getPipelineRun runID)).1 = getPipelineRun s runID := rfl
  cases hrun : s.runs.lookup runID with
  | none =>
      have hreply : getPipelineRun s runID = .error .notFound := by simp [getPipelineRun, hrun]
      rw [hget, hreply]
      exact iff_of_false (by simp) (by simp [Answerable, hrun])
  | some run =>
      have hreply : getPipelineRun s runID = .ok run := by simp [getPipelineRun, hrun]
      rw [hget, hreply]
      dsimp only
      split
      · next hterminal => exact iff_of_true rfl ⟨run, hrun, Or.inl hterminal⟩
      · next hopen =>
        rcases h run hrun with hterminal | hmissing | ⟨definition, hfound, hidle⟩
        · exact absurd hterminal hopen
        · rw [hmissing]
          exact iff_of_false (by simp) (by simp [Answerable, hrun, hopen, hmissing])
        · rw [hfound]
          refine Triple.call (read_triple fun _ => rfl) ?_ g w trivial
          rintro items g w ⟨env, rfl⟩
          have hquiet := hidle (listRunExecutions env s runID) fun item => mem_listRunExecutions
          change Safe _ _ _ _ _ (advanceListed runID run definition
            (listRunExecutions env s runID)) g w
          rw [hquiet]
          exact iff_of_true rfl ⟨run, hrun, Or.inr (by simp [hfound])⟩

variable (careful) in
/-- So does `Advance`. -/
theorem Still.triple {s : MemoryStore} (h : Still registry runID s) :
    Triple (releaseSystem careful) (fun w => w.store = s) (fun _ _ => True) (fun _ _ => True)
      (fun _ _ => True) (advance registry runID)
      fun result _ _ => result = .ok () ↔ Answerable registry runID s := by
  have htries : ∀ tries, Triple (releaseSystem careful) (fun w => w.store = s) (fun _ _ => True)
      (fun _ _ => True) (fun _ _ => tries = 0 → ¬ Answerable registry runID s)
      (advanceTries registry runID tries)
      fun result _ _ => result = .ok () ↔ Answerable registry runID s := by
    intro tries
    induction tries with
    | zero => exact Triple.done fun _ _ h => iff_of_false (by simp) (h rfl)
    | succ tries ih =>
        refine (h.attempt.of fun _ _ _ => trivial).bind fun result => ?_
        cases result with
        | ok _ => exact Triple.done fun _ _ h => h
        | error err =>
            dsimp only
            split
            · exact ih.of fun _ _ h _ => by simpa using h
            · exact Triple.done fun _ _ h => h
  exact (htries 4).of fun _ _ _ => by simp

theorem Still.of_runs {s : MemoryStore} (h : Still registry runID s) (hs : w.store = s)
    {result : Except GoError Unit}
    (hruns : Runs World.Step (advance registry runID) w result w') :
    w'.store = s ∧ (result = .ok () ↔ Answerable registry runID s) := by
  have hsafe := h.triple False () w trivial
  rw [releaseSystem_false] at hsafe
  obtain ⟨hstore, -, hresult⟩ :=
    hsafe.runs (fun _ => trivial) (fun _ _ _ => trivial) hs hruns
  exact ⟨hstore, hresult⟩

theorem Still.of_reach (h : Still registry runID base.store)
    {threads : List (Thread Unit Call Reply (Except GoError Unit))}
    (hreach : Reach (releaseSystem careful) (· = base) (· = advance registry runID) w threads) :
    w.store = base.store ∧ ∀ t ∈ threads, ∀ result, t.program.result? = some result →
      (result = .ok () ↔ Answerable registry runID base.store) := by
  have hspawn : ∀ p, p = advance registry runID →
      Triple (releaseSystem careful) (fun w => w.store = base.store) (fun _ _ => True)
        (fun _ _ => True)
        (fun g w => g = (releaseSystem careful).start ∧ w.store = base.store) p
        fun result _ _ => result = .ok () ↔ Answerable registry runID base.store := by
    rintro p rfl
    exact (h.triple careful).of fun _ _ _ => trivial
  obtain ⟨hstore, hthreads⟩ := hreach.promises (fun _ => trivial)
    (fun _ _ _ _ _ _ _ _ => trivial) (fun _ _ _ => trivial) (fun _ _ _ _ _ _ _ h => h)
    (fun _ h => congrArg World.store h) hspawn
  refine ⟨hstore, fun t ht result hresult => ?_⟩
  have hsafe := hthreads t ht
  rw [Program.eq_done_of_result? hresult] at hsafe
  exact hsafe

/-! ## Reachable states -/

/-- In a state that the engine, its workers and its clients reach, a stored run that is unfinished
and registered can be advanced. -/
theorem opened_of_reach {definitions : List Definition} (hbuilt : ∀ d ∈ definitions, d.Constructed)
    (hregistry : newRegistry definitions = .ok registry)
    {threads : List (Thread Unit Call Reply Unit)}
    (hreach : Reach storeSystem World.Initial (Caller registry runID) base threads)
    (huuid : ∀ id ∈ base.issued, Unguessed registry id)
    (hstored : base.store.runs.lookup runID = some run) (hopen : run.status.isTerminal = false)
    (hfound : registry.find run = some definition) :
    Opened registry runID base run definition := by
  have hissued := (tidy_of_reach hreach).known.runs _ _ hstored
  have hids : ∀ id, id = runID ∨ id ∈ base.issued → Unguessed registry id := by
    rintro id (rfl | hid)
    · exact huuid id hissued
    · exact huuid id hid
  refine ⟨coordinated_of_reach hreach hids, hstored, hopen, hfound, ?_, huuid runID hissued⟩
  intro node hnode
  exact newRegistry_named hbuilt hregistry node (Registry.declares_of_find hfound hnode)

/-- In any other state there is nothing to do. -/
theorem still_or_open (s : MemoryStore) : Still registry runID s ∨
    ∃ run definition, s.runs.lookup runID = some run ∧ run.status.isTerminal = false ∧
      registry.find run = some definition := by
  by_cases hopen : ∃ run definition, s.runs.lookup runID = some run ∧
      run.status.isTerminal = false ∧ registry.find run = some definition
  · exact Or.inr hopen
  · left
    intro run hrun
    cases hterminal : run.status.isTerminal with
    | true => exact Or.inl rfl
    | false =>
        right; left
        cases hfound : registry.find run with
        | none => rfl
        | some definition => exact absurd ⟨run, definition, hrun, hterminal, hfound⟩ hopen

end Facts

end Ody.Pipeline
