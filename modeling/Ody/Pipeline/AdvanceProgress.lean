import Ody.Pipeline.AdvancePlan
import Ody.Pipeline.NodeKeys

/-!
# Runs that are being advanced

Any number of `Advance` calls work on one run at the same time and any of them
may stop after any call. Whatever they have done so far lies between the state
they started from and the plan for it: some planned nodes are scheduled, each
with its input, and once all of them are the run may be marked. Nothing else has
changed. An attempt that is not interrupted, or finds every execution that it
releases still blocked, leaves all planned nodes scheduled and the run marked.
-/

namespace Ody.Pipeline

open Library.Tables Library.Interleaving Library.Delimited Memory

/-! ## States between the start and the plan -/

section States

variable (registry : Registry) (runID : UUID) (base : World) (run₀ : PipelineRun)
  (definition : CompiledDefinition)

/-- The run is stored as unfinished, and its definition is registered. -/
structure Opened : Prop where
  coordinated : Coordinated registry runID base
  stored : base.store.runs.lookup runID = some run₀
  unfinished : run₀.status.isTerminal = false
  found : registry.find run₀ = some definition
  named : ∀ node ∈ definition.nodes, node.taskName ≠ ""
  unguessed : Unguessed registry runID

/-- The execution of a planned node, with its history: the blocked one released, or a new one. -/
inductive Version (node : NodeDefinition) (input : RawMessage) : Execution → List Event → Prop
  | released {item} (env : Env) (hm : Member base.store runID item)
      (hkey : item.nodeKey = node.key) (hs : item.status = .blocked) :
      Version node input (released env input item.availableAt item) (base.store.history item.id)
  | created (env : Env) (hnew : ∀ item, Member base.store runID item → item.nodeKey ≠ node.key) :
      Version node input (created env (nodeRequest runID node input))
        [event env (created env (nodeRequest runID node input)) .created ""]

/-- The node has an execution that is not blocked. -/
def Done (w : World) (node : NodeDefinition) : Prop :=
  ∃ item, Member w.store runID item ∧ item.nodeKey = node.key ∧ item.status ≠ .blocked

/-- Every planned node is scheduled. -/
def AllDone (w : World) : Prop :=
  ∀ node input, Planned base.store runID run₀ definition node input → Done runID w node

/-- What no call changes in a run. -/
def PipelineRun.identity (run : PipelineRun) : PipelineRun :=
  { run with status := .pending, error := "", revision := 0, updatedAt := zeroTime,
             finishedAt := none }

/-- The run was marked with its outcome. -/
structure Marked (w : World) (run : PipelineRun) : Prop where
  outcome : Outcome base.store runID run₀ definition run.status run.error
  same : PipelineRun.identity run = PipelineRun.identity run₀
  later : run₀.revision < run.revision
  finished : run.finishedAt.isSome = (run.status.isTerminal || run₀.finishedAt.isSome)
  all : AllDone runID base run₀ definition w

/-- The stored run was marked. -/
def IsMarked (w : World) : Prop :=
  ∃ run, w.store.runs.lookup runID = some run ∧ Marked runID base run₀ definition w run

/-- The state has been reached from the start by working on the plan. -/
structure Between (w : World) : Prop where
  coordinated : Coordinated registry runID w
  members : ∀ item, Member w.store runID item →
    (Member base.store runID item ∧ w.store.history item.id = base.store.history item.id) ∨
    ∃ node input, Planned base.store runID run₀ definition node input ∧
      Version runID base node input item (w.store.history item.id)
  kept : ∀ item, Member base.store runID item → ∃ item', Member w.store runID item' ∧
    item'.id = item.id ∧ item'.nodeKey = item.nodeKey ∧ (item.status ≠ .blocked → item' = item)
  others : ∀ id item, item.pipelineRunID ≠ some runID →
    (w.store.executions.lookup id = some item ↔ base.store.executions.lookup id = some item)
  histories : ∀ id item, item.pipelineRunID ≠ some runID →
    w.store.executions.lookup id = some item → w.store.history id = base.store.history id
  run : ∃ run, w.store.runs.lookup runID = some run ∧
    (run = run₀ ∨ Marked runID base run₀ definition w run)
  otherRuns : ∀ id, id ≠ runID → w.store.runs.lookup id = base.store.runs.lookup id

/-- The calls that work on the plan. -/
inductive AdvanceCall (w : World) : Call → Prop
  | get : AdvanceCall w (.getPipelineRun runID)
  | list : AdvanceCall w (.listRunExecutions runID)
  | release {item node input} (hplanned : Planned base.store runID run₀ definition node input)
      (hm : Member base.store runID item) (hkey : item.nodeKey = node.key) :
      AdvanceCall w (.releaseExecution item.id input item.availableAt)
  | create {node input} (hplanned : Planned base.store runID run₀ definition node input) :
      AdvanceCall w (.createExecution (nodeRequest runID node input))
  | mark {run status text} (hread : ReadRun runID run w) (hopen : run.status.isTerminal = false)
      (houtcome : Outcome base.store runID run₀ definition status text)
      (hall : AllDone runID base run₀ definition w) :
      AdvanceCall w (.setPipelineRunStatus runID run.revision status text)

/-- What a call that works on the plan does to one execution. -/
inductive Advanced (env : Env) (w w' : World) (id : UUID) : Prop
  | same (h : w'.store.executions.lookup id = w.store.executions.lookup id)
      (hh : w'.store.history id = w.store.history id)
  | created {node input} (hplanned : Planned base.store runID run₀ definition node input)
      (hnew : existing w.store (nodeRequest runID node input) = none) (hid : id = env.newUUID 0)
      (h : w'.store.executions.lookup id = some (created env (nodeRequest runID node input)))
      (hh : w'.store.history id =
        [event env (created env (nodeRequest runID node input)) .created ""])
  | released {item node input} (hplanned : Planned base.store runID run₀ definition node input)
      (hm : Member base.store runID item) (hkey : item.nodeKey = node.key)
      (hs : item.status = .blocked) (hid : id = item.id)
      (hold : w.store.executions.lookup id = some item)
      (h : w'.store.executions.lookup id = some (released env input item.availableAt item))
      (hh : w'.store.history id = w.store.history id)

/-- What the other attempts do not undo. -/
structure Drift (w w' : World) : Prop where
  rely : Rely runID w w'
  kept : ∀ item, Member w.store runID item → item.status ≠ .blocked → Member w'.store runID item

end States

section Facts

variable {registry : Registry} {runID : UUID} {base : World} {run₀ : PipelineRun}
  {definition : CompiledDefinition} {w w' : World} {node : NodeDefinition} {input : RawMessage}

theorem Version.pending {item : Execution} {history : List Event}
    (h : Version runID base node input item history) : item.status = .pending := by
  cases h <;> rfl

theorem Version.nodeKey {item : Execution} {history : List Event}
    (h : Version runID base node input item history) : item.nodeKey = node.key := by
  cases h with
  | released _ _ hkey _ => exact hkey
  | created _ _ => rfl

theorem sameRun_of_identity {run run' : PipelineRun}
    (h : PipelineRun.identity run' = PipelineRun.identity run) : SameRun run run' := by
  have hname := congrArg (·.pipelineName) h
  have hversion := congrArg (·.pipelineVersion) h
  have hinput := congrArg (·.input) h
  exact ⟨hname, hversion, hinput⟩

theorem Drift.refl (w : World) : Drift runID w w := ⟨Rely.refl w, fun _ hm _ => hm⟩

theorem Drift.trans {w'' : World} (hknown : w.Known) (h : Drift runID w w')
    (h' : Drift runID w' w'') : Drift runID w w'' :=
  ⟨h.rely.trans hknown h'.rely, fun item hm hs => h'.kept item (h.kept item hm hs) hs⟩

theorem Done.drift (h : Done runID w node) (hdrift : Drift runID w w') : Done runID w' node := by
  obtain ⟨item, hm, hkey, hs⟩ := h
  exact ⟨item, hdrift.kept item hm hs, hkey, hs⟩

theorem AllDone.drift (h : AllDone runID base run₀ definition w) (hdrift : Drift runID w w') :
    AllDone runID base run₀ definition w' :=
  fun node input hplanned => (h node input hplanned).drift hdrift

theorem Marked.drift {run : PipelineRun} (h : Marked runID base run₀ definition w run)
    (hdrift : Drift runID w w') : Marked runID base run₀ definition w' run :=
  { h with all := h.all.drift hdrift }

/-- The start itself. -/
theorem Opened.between (h : Opened registry runID base run₀ definition) :
    Between registry runID base run₀ definition base where
  coordinated := h.coordinated
  members := fun _ hm => Or.inl ⟨hm, rfl⟩
  kept := fun item hm => ⟨item, hm, rfl, rfl, fun _ => rfl⟩
  others := fun _ _ _ => Iff.rfl
  histories := fun _ _ _ _ => rfl
  run := ⟨run₀, h.stored, Or.inl rfl⟩
  otherRuns := fun _ _ => rfl

namespace Between

/-- A blocked execution is one of the start. -/
theorem blocked (h : Between registry runID base run₀ definition w) {item : Execution}
    (hm : Member w.store runID item) (hs : item.status = .blocked) :
    Member base.store runID item := by
  rcases h.members item hm with ⟨hbase, -⟩ | ⟨node, input, -, hversion⟩
  · exact hbase
  · rw [hversion.pending] at hs
    cases hs

/-- An execution of the start is still stored, or was released. -/
theorem stored_or_released (h : Between registry runID base run₀ definition w) {item : Execution}
    (hm : Member base.store runID item) : ∃ item', w.store.executions.lookup item.id = some item' ∧
      Member w.store runID item' ∧ (item'.status = .blocked → item' = item) := by
  obtain ⟨item', hm', hid, -, -⟩ := h.kept item hm
  refine ⟨item', hid ▸ hm'.1, hm', fun hs => ?_⟩
  have hl := (h.blocked hm' hs).1
  rw [hid, hm.1] at hl
  exact (Option.some.inj hl).symm

/-- The run is known, with its definition. -/
theorem sameRun (h : Between registry runID base run₀ definition w) {run : PipelineRun}
    (hrun : w.store.runs.lookup runID = some run) : SameRun run₀ run := by
  obtain ⟨stored, hstored, hcases⟩ := h.run
  cases hrun.symm.trans hstored
  rcases hcases with rfl | hmarked
  · exact SameRun.refl _
  · exact sameRun_of_identity hmarked.same

/-- A later revision than that of the start is that of a marked run. -/
theorem isMarked (h : Between registry runID base run₀ definition w) {run : PipelineRun}
    (hrun : w.store.runs.lookup runID = some run) (hlater : run₀.revision < run.revision) :
    IsMarked runID base run₀ definition w := by
  obtain ⟨stored, hstored, hcases⟩ := h.run
  cases hrun.symm.trans hstored
  rcases hcases with rfl | hmarked
  · exact absurd hlater (lt_irrefl _)
  · exact ⟨run, hrun, hmarked⟩

/-- The execution of a planned node that is scheduled. -/
theorem version (h : Between registry runID base run₀ definition w)
    (hindexed : Indexed registry runID base)
    (hplanned : Planned base.store runID run₀ definition node input) {item : Execution}
    (hm : Member w.store runID item) (hkey : item.nodeKey = node.key)
    (hs : item.status ≠ .blocked) :
    Version runID base node input item (w.store.history item.id) := by
  rcases h.members item hm with ⟨hbase, -⟩ | ⟨node', input', hplanned', hversion⟩
  · exact absurd (hplanned.wanted.idle item hbase hkey) hs
  · obtain rfl := definition.node_eq hplanned.wanted.declared hplanned'.wanted.declared
      (hkey.symm.trans hversion.nodeKey)
    cases hplanned.wanted.unique hindexed hplanned'.wanted
    exact hversion

theorem listing (h : Between registry runID base run₀ definition w) {items : List Execution}
    (hitems : ∀ item, item ∈ items ↔ Member w.store runID item) :
    Listing runID base run₀ definition items where
  origin := by
    intro item hmem
    rcases h.members item ((hitems item).mp hmem) with ⟨hbase, -⟩ | ⟨node, input, hplanned, hversion⟩
    · exact Or.inl hbase
    · exact Or.inr ⟨hversion.pending, node, input, hplanned, hversion.nodeKey⟩
  covers := by
    intro item hm
    obtain ⟨item', hm', -, hkey, hsame⟩ := h.kept item hm
    exact ⟨item', (hitems item').mpr hm', hkey, hsame⟩
  unique := fun item hmem other hother =>
    h.coordinated.indexed.unique ((hitems item).mp hmem) ((hitems other).mp hother)

end Between

/-! ## One call -/

section Call

variable {env : Env} {c : Call} (h : Between registry runID base run₀ definition w)
  (hfresh : env.Fresh w) (hc : AdvanceCall runID base run₀ definition w c)

include h hfresh hc

theorem advanced (id : UUID) :
    Advanced runID base run₀ definition env w (w.after env c) id := by
  cases hc with
  | create hplanned =>
      cases exec_effect env w.store (.createExecution _) id with
      | same hsame hh => exact Advanced.same hsame hh
      | inserted _ hnew hcreated hh =>
          refine Advanced.created hplanned hnew rfl hcreated (hh.trans ?_)
          have hempty : w.store.history (env.newUUID 0) = [] := by
            by_contra hne
            exact hfresh 0 (h.coordinated.indexed.known.histories _ hne)
          rw [hempty, List.nil_append]
      | moved _ _ _ t => cases t
  | @release item node input hplanned hm hkey =>
      generalize hcall : Call.releaseExecution item.id input item.availableAt = call
      cases exec_effect env w.store call id with
      | same hsame hh => exact Advanced.same hsame hh
      | inserted _ _ _ _ => cases hcall
      | moved hold hnew hh t =>
          cases t with
          | @release stored _ _ hs =>
              obtain ⟨hid, rfl, rfl⟩ := Call.releaseExecution.inj hcall
              obtain ⟨item', hl, -, hsame⟩ := h.stored_or_released hm
              have hkeyed := w.store.executions_keyed _ _ hold
              rw [hid, hkeyed, hold] at hl
              cases hl
              obtain rfl := hsame hs
              exact Advanced.released hplanned hm hkey hs hkeyed.symm hold hnew
                (hh.trans (List.append_nil _))
          | _ => cases hcall
      | deleted _ _ => cases hcall
  | get => exact Advanced.same rfl rfl
  | list => exact Advanced.same rfl rfl
  | mark _ _ _ _ =>
      cases exec_effect env w.store (.setPipelineRunStatus _ _ _ _) id with
      | same hsame hh => exact Advanced.same hsame hh
      | moved _ _ _ t => cases t

theorem drift_after : Drift runID w (w.after env c) where
  rely := rely_after h.coordinated.indexed.known hfresh c
  kept := by
    intro item hm hs
    cases advanced h hfresh hc item.id with
    | same hsame _ => exact ⟨hsame.trans hm.1, hm.2⟩
    | created _ _ hid _ _ =>
        exact absurd (h.coordinated.indexed.known.executions _ _ hm.1) (hid ▸ hfresh 0)
    | released _ _ _ hblocked _ hold _ _ =>
        cases hm.1.symm.trans hold
        exact absurd hblocked hs

omit hfresh in
/-- The engine creates executions of the run only for nodes of its definition. -/
theorem AdvanceCall.permits (h₀ : Opened registry runID base run₀ definition) :
    Permits registry runID w c := by
  intro request hrequest _
  cases hc with
  | @create node input hplanned =>
      cases hrequest
      obtain ⟨run, hrun, -⟩ := h.run
      refine ⟨definition.key_ne_empty hplanned.wanted.declared,
        h.coordinated.indexed.known.runs _ _ hrun, ?_⟩
      intro run' definition' hrun' hfound
      rw [(h.sameRun hrun').find registry, h₀.found] at hfound
      cases hfound
      exact List.mem_map_of_mem hplanned.wanted.declared
  | _ => cases hrequest

theorem coordinated_after (h₀ : Opened registry runID base run₀ definition) :
    Coordinated registry runID (w.after env c) := by
  refine h.coordinated.after hfresh h₀.unguessed (AdvanceCall.permits h hc h₀) ?_
  rintro request rfl
  cases hc with
  | create hplanned =>
      exact ⟨_, _, Registry.declares_of_find h₀.found hplanned.wanted.declared, rfl⟩

theorem members_after (item : Execution) (hm : Member (w.after env c).store runID item) :
    (Member base.store runID item ∧
      (w.after env c).store.history item.id = base.store.history item.id) ∨
    ∃ node input, Planned base.store runID run₀ definition node input ∧
      Version runID base node input item ((w.after env c).store.history item.id) := by
  obtain ⟨hl, hrun⟩ := hm
  cases advanced h hfresh hc item.id with
  | same hsame hh =>
      rw [hh]
      exact h.members item ⟨hsame.symm.trans hl, hrun⟩
  | created hplanned hnew _ hcreated hh =>
      cases hcreated.symm.trans hl
      refine Or.inr ⟨_, _, hplanned, ?_⟩
      rw [hh]
      refine Version.created env fun old hold hkey => ?_
      -- an execution of the start would have been found
      obtain ⟨item', hm', -, hkey', -⟩ := h.kept old hold
      exact h.coordinated.no_member (definition.key_ne_empty hplanned.wanted.declared) hnew item'
        hm' (hkey'.trans hkey)
  | @released old node input hplanned hm hkey hs hid hold hreleased hh =>
      cases hreleased.symm.trans hl
      refine Or.inr ⟨node, input, hplanned, ?_⟩
      rw [hh]
      rcases h.members old ⟨hold, hm.2⟩ with ⟨-, hhistory⟩ | ⟨_, _, _, hversion⟩
      · rw [hid, hhistory]
        exact Version.released env hm hkey hs
      · exact absurd (hversion.pending.symm.trans hs) (by simp)

theorem kept_after (item : Execution) (hm : Member base.store runID item) :
    ∃ item', Member (w.after env c).store runID item' ∧ item'.id = item.id ∧
      item'.nodeKey = item.nodeKey ∧ (item.status ≠ .blocked → item' = item) := by
  obtain ⟨item', hm', hid, hkey, hsame⟩ := h.kept item hm
  cases advanced h hfresh hc item'.id with
  | same hlookup _ => exact ⟨item', ⟨hlookup.trans hm'.1, hm'.2⟩, hid, hkey, hsame⟩
  | created _ _ hnew _ _ =>
      exact absurd (h.coordinated.indexed.known.executions _ _ hm'.1) (hnew ▸ hfresh 0)
  | @released _ _ input _ _ _ hs _ hold hreleased _ =>
      cases hm'.1.symm.trans hold
      refine ⟨released env input item'.availableAt item', ⟨hreleased, hm'.2⟩, hid, hkey, ?_⟩
      intro hne
      rw [hsame hne] at hs
      exact absurd hs hne

theorem others_after (id : UUID) (item : Execution) (hrun : item.pipelineRunID ≠ some runID) :
    (w.after env c).store.executions.lookup id = some item ↔
      w.store.executions.lookup id = some item := by
  cases advanced h hfresh hc id with
  | same hsame _ => rw [hsame]
  | created _ _ hid hcreated _ =>
      constructor
      · intro hl
        cases hcreated.symm.trans hl
        exact absurd rfl hrun
      · intro hl
        exact absurd (h.coordinated.indexed.known.executions _ _ hl) (hid ▸ hfresh 0)
  | released _ hm _ _ _ hold hreleased _ =>
      constructor
      · intro hl
        cases hreleased.symm.trans hl
        exact absurd hm.2 hrun
      · intro hl
        cases hold.symm.trans hl
        exact absurd hm.2 hrun

theorem histories_after (id : UUID) (item : Execution) (hrun : item.pipelineRunID ≠ some runID)
    (hl : (w.after env c).store.executions.lookup id = some item) :
    (w.after env c).store.history id = w.store.history id := by
  cases advanced h hfresh hc id with
  | same _ hh => exact hh
  | created _ _ _ hcreated _ =>
      cases hcreated.symm.trans hl
      exact absurd rfl hrun
  | released _ _ _ _ _ _ _ hh => exact hh

omit h hfresh in
/-- Only marks change a run. -/
theorem AdvanceCall.run_effect (id : UUID) :
    (w.after env c).store.runs.lookup id = w.store.runs.lookup id ∨
      (id = runID ∧ ∃ run status text, w.store.runs.lookup runID = some run ∧
        run.status.isTerminal = false ∧ Outcome base.store runID run₀ definition status text ∧
        AllDone runID base run₀ definition w ∧
        (w.after env c).store.runs.lookup runID = some (withStatus env status text run)) := by
  cases exec_runEffect env w.store c id with
  | same hsame => exact Or.inl hsame
  | inserted _ _ => cases hc
  | @status run status text hold hnew =>
      right
      generalize hrevision : run.revision = revision at hc
      generalize hid : run.id = target at hc hold hnew
      cases hc with
      | mark hread hopen houtcome hall =>
          rw [← hread.same run hold hrevision] at hopen
          rw [hrevision] at hnew
          exact ⟨rfl, run, status, text, hold, hopen, houtcome, hall, hnew⟩
  | reopened _ _ => cases hc
  | deleted _ => cases hc

theorem run_after : ∃ run, (w.after env c).store.runs.lookup runID = some run ∧
    (run = run₀ ∨ Marked runID base run₀ definition (w.after env c) run) := by
  have hdrift := drift_after h hfresh hc
  obtain ⟨run, hrun, hcases⟩ := h.run
  rcases hc.run_effect runID with hsame | ⟨-, run', status, text, hrun', hopen, houtcome, hall, hnew⟩
  · exact ⟨run, hsame.trans hrun, hcases.imp_right fun hmarked => hmarked.drift hdrift⟩
  · cases hrun.symm.trans hrun'
    refine ⟨_, hnew, Or.inr ⟨houtcome, ?_, ?_, ?_, hall.drift hdrift⟩⟩
    · rcases hcases with rfl | hmarked
      · rfl
      · exact hmarked.same
    · rcases hcases with rfl | hmarked
      · exact Nat.lt_succ_self _
      · exact hmarked.later.trans (Nat.lt_succ_self _)
    · have hfinished : run.finishedAt.isSome = run₀.finishedAt.isSome := by
        rcases hcases with rfl | hmarked
        · rfl
        · rw [hmarked.finished, hopen, Bool.false_or]
      cases hterminal : status.isTerminal <;> simp [withStatus, hterminal, hfinished]

/-- A call that works on the plan stays between the start and the plan. -/
theorem Between.after (h₀ : Opened registry runID base run₀ definition) :
    Between registry runID base run₀ definition (w.after env c) where
  coordinated := coordinated_after h hfresh hc h₀
  members := members_after h hfresh hc
  kept := kept_after h hfresh hc
  others := fun id item hrun => (others_after h hfresh hc id item hrun).trans (h.others id item hrun)
  histories := by
    intro id item hrun hl
    rw [histories_after h hfresh hc id item hrun hl]
    exact h.histories id item hrun ((others_after h hfresh hc id item hrun).mp hl)
  run := run_after h hfresh hc
  otherRuns := by
    intro id hne
    rcases hc.run_effect id with hsame | ⟨heq, -⟩
    · exact hsame.trans (h.otherRuns id hne)
    · exact absurd heq hne

end Call

end Facts

end Ody.Pipeline
