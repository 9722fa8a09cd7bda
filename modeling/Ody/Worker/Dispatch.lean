import Ody.Task.Registry
import Ody.Worker.Execute

/-!
# From a delivery to its handler

A worker claims executions of the keys that its registry advertises and asks the
registry for the policy and the handler of each delivery. The queue routes on the
pair of name and version, the registry on a text, and both lead to one descriptor.
-/

namespace Ody.Worker

open Library.Interleaving Memory
open Ody.Task

/-- What the worker asks of an error of a handler. -/
def handlerErrorOf (err : TaskError) : HandlerError :=
  ⟨err.message, err.isPermanent, err.retryDelay⟩

def resultOf : Except TaskError RawMessage → Result
  | .ok output => ⟨output, none⟩
  | .error err => ⟨"", some (handlerErrorOf err)⟩

/-- What the handler's goroutine sends to `resultCh`. -/
def handlerResult (registry : Registry) (item : Execution) : Result :=
  resultOf (registry.execute item)

/-- A worker that asks a registry for its policies. -/
def withRegistry (registry : Registry) (leaseDuration : Duration)
    (advancer : Option (UUID → Program Call Reply (Except GoError Unit))) : Worker where
  leaseDuration := leaseDuration
  policy name version :=
    (registry.policy name version).map fun (_, timeout, retry) => ⟨timeout, retry⟩
  advancer := advancer

/-- The registry leads to this descriptor for the policy and for the handler of a delivery. -/
structure Dispatches (registry : Registry) (d : Descriptor) (item : Execution) : Prop where
  key : d.taskKey = item.taskKey
  policy : registry.policy item.taskName item.taskVersion = some (d.maxAttempts, d.timeout, d.retry)
  worker : ∀ leaseDuration advancer,
    (withRegistry registry leaseDuration advancer).policyOf item = some ⟨d.timeout, d.retry⟩
  execute : registry.execute item = d.execute item
  result : handlerResult registry item = resultOf (d.execute item)

theorem dispatches_of_key {modules : List Module} {registry : Registry}
    (h : newRegistry modules = .ok registry) {d : Descriptor} (hd : d ∈ bound modules)
    {item : Execution} (hkey : d.taskKey = item.taskKey) : Dispatches registry d item := by
  obtain ⟨hname, hversion⟩ := TaskKey.mk.inj hkey
  have hlookup := lookup_tasks h hd
  rw [hname, hversion] at hlookup
  have hpolicy : registry.policy item.taskName item.taskVersion =
      some (d.maxAttempts, d.timeout, d.retry) := by
    rw [Registry.policy, hlookup]
    rfl
  have hexecute : registry.execute item = d.execute item := by
    rw [Registry.execute, hlookup]
  refine ⟨hkey, hpolicy, fun leaseDuration advancer => ?_, hexecute, congrArg resultOf hexecute⟩
  change (registry.policy item.taskName item.taskVersion).map _ = _
  rw [hpolicy]
  rfl

/-- A claim delivers executions of the keys it was given. -/
theorem taskKey_of_mem_claim {env : Env} {s : MemoryStore} {owner : String} {keys : List TaskKey}
    {limit : Int} {lease : Duration} {item : Execution}
    (h : item ∈ (claim env s owner keys limit lease).1) : item.taskKey ∈ keys := by
  obtain ⟨i, candidate, hcandidate, rfl⟩ := mem_claim env s h
  have hpass := (mem_candidates env s (List.mem_of_getElem? hcandidate)).2
  exact (claimable_iff.mp hpass).1

/-- The advertised keys are the bound ones in strict order, a list of modules is rejected exactly if
a key is bound twice, and every delivery of a claim with these keys leads to the descriptor that is
bound to its name and version. -/
theorem exact_version_dispatch (modules : List Module) :
    ((∀ m ∈ modules, m.Valid) → ((∃ err, newRegistry modules = .error err) ↔
        ¬((bound modules).map (·.taskKey)).Nodup)) ∧
      ∀ registry, newRegistry modules = .ok registry →
        registry.keys.Pairwise (fun a b => keyLess a b = true) ∧
        (∀ key, key ∈ registry.keys ↔ ∃ d ∈ bound modules, d.taskKey = key) ∧
        ∀ (env : Env) (s : MemoryStore) (owner : String) (limit : Int) (lease : Duration),
          ∀ item ∈ (claim env s owner registry.keys limit lease).1,
            ∃ d ∈ bound modules, Dispatches registry d item ∧
              ∀ other ∈ bound modules, other.taskKey = item.taskKey → other = d := by
  refine ⟨newRegistry_error_iff, fun registry h => ⟨keys_sorted h, mem_keys h, ?_⟩⟩
  intro env s owner limit lease item hitem
  obtain ⟨d, hd, hkey⟩ := (mem_keys h item.taskKey).mp (taskKey_of_mem_claim hitem)
  refine ⟨d, hd, dispatches_of_key h hd hkey, fun other hother hsame => ?_⟩
  have hlookup := lookup_tasks h hother
  rw [Descriptor.key_eq_iff.mpr (hsame.trans hkey.symm), lookup_tasks h hd] at hlookup
  exact (Option.some.inj hlookup).symm

end Ody.Worker
