import Ody.Execution.EventHistory
import Ody.Execution.RecordInvariant

/-!
# The life of one execution

`Moves` collects what any call of the in-memory store may do to a stored record and
its history, whichever other records there are. It is the life cycle that another
store refines: a record that moves only so keeps its invariant, and its history
keeps replaying to it.
-/

namespace Ody.Memory

open Library.Tables

/-- Some call of the in-memory store moves the record so and appends these events. -/
def Moves (item item' : Execution) (evs : List Event) : Prop :=
  ∃ env s c, Transition env s c item item' evs

section Moves

variable {item item' : Execution} {evs history : List Event}

theorem Moves.recordInvariant (h : Moves item item' evs) (hitem : RecordInvariant item) :
    RecordInvariant item' := by
  obtain ⟨env, s, c, t⟩ := h
  exact t.recordInvariant hitem

theorem Moves.replays (h : Moves item item' evs) (hhistory : Replays history item) :
    Replays (history ++ evs) item' := by
  obtain ⟨env, s, c, t⟩ := h
  exact t.replays hhistory

end Moves

/-- The environment whose UUIDs are those from a later draw on. -/
def Env.skip (env : Env) (k : Nat) : Env :=
  { env with
    newUUID := fun i => env.newUUID (k + i)
    newUUID_ne_nil := fun i => env.newUUID_ne_nil (k + i)
    newUUID_injective := by
      intro i j h
      have heq := env.newUUID_injective h
      omega }

/-- A store that holds one execution. -/
def holding (item : Execution) : MemoryStore := newMemoryStore.put item

theorem items_holding (env : Env) (item : Execution) (i : Nat) : (holding item).items env i = [item] := by
  have hentries : (holding item).executions.entries = [⟨item.id, item⟩] := rfl
  have hperm := (env.rangeExecutions i).perm (holding item).executions.entries
  rw [hentries] at hperm
  simp only [MemoryStore.items, range, hentries, List.perm_singleton.mp hperm, List.map_cons,
    List.map_nil]

/-- A claim delivers the only execution of a store, under any token. -/
theorem moves_claimed {env : Env} {keys : List TaskKey} {item : Execution}
    (h : claimable keys env.now item = true) (owner : String) (lease : Duration) (k : Nat) :
    Moves item (claimed env owner lease (env.newUUID k) item)
      [event env (claimed env owner lease (env.newUUID k) item) .started ""] := by
  have hcandidates : (candidates (env.skip k) (holding item) keys 1)[0]? = some item := by
    simp [candidates, items_holding, Env.skip, h]
  have hclaim : Transition (env.skip k) (holding item) (.claim owner keys 1 lease) item
      (claimed (env.skip k) owner lease ((env.skip k).newUUID 0) item)
      [event (env.skip k) (claimed (env.skip k) owner lease ((env.skip k).newUUID 0) item)
        .started ""] := Transition.claim h hcandidates
  exact ⟨env.skip k, holding item, .claim owner keys 1 lease, hclaim⟩

end Ody.Memory
