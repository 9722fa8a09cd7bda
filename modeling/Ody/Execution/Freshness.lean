import Ody.Execution.Effects

/-!
# Identifiers in use

Every identifier and lease token in the store was handed out by `uuid.New`, so a
fresh one names nothing that is stored.
-/

namespace Ody.Memory

open Library.Tables

/-- The store mentions only UUIDs that were handed out. -/
structure World.Known (w : World) : Prop where
  executions : ∀ id item, w.store.executions.lookup id = some item → id ∈ w.issued
  histories : ∀ id, w.store.history id ≠ [] → id ∈ w.issued
  tokens : ∀ id item, w.store.executions.lookup id = some item → item.leaseToken ≠ nilUUID →
    item.leaseToken ∈ w.issued
  runs : ∀ id run, w.store.runs.lookup id = some run → id ∈ w.issued

theorem World.init_known (clock : Time) : (World.init clock).Known := by
  refine ⟨?_, ?_, ?_, ?_⟩ <;> simp [World.init, newMemoryStore, MemoryStore.history]

theorem World.issued_subset (w : World) (env : Env) (c : Call) : w.issued ⊆ (w.after env c).issued :=
  List.subset_append_left _ _

theorem World.mem_issued_after {w : World} {env : Env} {c : Call} {i : Nat}
    (h : i < drawn env w.store c) : env.newUUID i ∈ (w.after env c).issued :=
  List.mem_append_right _ (List.mem_map_of_mem (List.mem_range.mpr h))

theorem drawn_created {env : Env} {s : MemoryStore} {request : CreateExecution}
    (hname : request.taskName ≠ "") (hnew : existing s request = none) :
    0 < drawn env s (.createExecution request) := by
  simp [drawn, hname, hnew]

/-- A call stores no token other than the old one and those it draws. -/
theorem Transition.token_cases {env : Env} {s : MemoryStore} {c : Call} {item item' : Execution}
    {evs : List Event} (t : Transition env s c item item' evs) :
    item'.leaseToken = nilUUID ∨ item'.leaseToken = item.leaseToken ∨
      ∃ i < drawn env s c, item'.leaseToken = env.newUUID i := by
  cases t with
  | claim _ hi => exact Or.inr (Or.inr ⟨_, (List.getElem?_eq_some_iff.mp hi).1, rfl⟩)
  | heartbeat _ => exact Or.inr (Or.inl rfl)
  | release _ => exact Or.inr (Or.inl rfl)
  | _ => exact Or.inl rfl

theorem World.Known.after {w : World} (h : w.Known) (env : Env) (c : Call) :
    (w.after env c).Known := by
  have hsub := w.issued_subset env c
  have hcreated : ∀ request, c = .createExecution request → request.taskName ≠ "" →
      existing w.store request = none → env.newUUID 0 ∈ (w.after env c).issued := by
    rintro request rfl hname hnew
    exact World.mem_issued_after (drawn_created hname hnew)
  refine ⟨?_, ?_, ?_, ?_⟩
  · intro id item hl
    cases exec_effect env w.store c id with
    | same hsame _ => exact hsub (h.executions id item (hsame ▸ hl))
    | inserted hname hnew _ _ => exact hcreated _ rfl hname hnew
    | moved hold _ _ _ => exact hsub (h.executions id _ hold)
    | deleted hgone _ => exact absurd (hgone.symm.trans hl) (by simp)
  · intro id hne
    cases exec_effect env w.store c id with
    | same _ hsame => exact hsub (h.histories id (hsame ▸ hne))
    | inserted hname hnew _ _ => exact hcreated _ rfl hname hnew
    | moved hold _ _ _ => exact hsub (h.executions id _ hold)
    | deleted _ hgone => exact absurd hgone hne
  · intro id item hl htoken
    cases exec_effect env w.store c id with
    | same hsame _ => exact hsub (h.tokens id item (hsame ▸ hl) htoken)
    | inserted _ _ hnew _ =>
        cases hnew.symm.trans hl
        exact absurd rfl htoken
    | moved hold hnew _ t =>
        cases hnew.symm.trans hl
        rcases t.token_cases with hnil | hkept | ⟨i, hi, hdrawn⟩
        · exact absurd hnil htoken
        · rw [hkept] at htoken ⊢
          exact hsub (h.tokens id _ hold htoken)
        · rw [hdrawn]
          exact World.mem_issued_after hi
    | deleted hgone _ => exact absurd (hgone.symm.trans hl) (by simp)
  · intro id run hl
    cases exec_runEffect env w.store c id with
    | same hsame => exact hsub (h.runs id run (hsame ▸ hl))
    | inserted hnew _ => exact World.mem_issued_after (by simp [drawn, hnew])
    | status hold _ => exact hsub (h.runs _ _ hold)
    | reopened hold _ => exact hsub (h.runs _ _ hold)
    | deleted hgone => exact absurd (hgone.symm.trans hl) (by simp)

end Ody.Memory
