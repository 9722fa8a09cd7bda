import Ody.Execution.ReferenceIndexes
import Ody.Library.Selection

/-!
# Claims from the head of the queue

`Claim` of the in-memory store selects from a map, in an arbitrary order, what may
be delivered, sorts it and cuts it at the limit. What it takes is least in the
order of the queue, what it returns is what it stores, and it touches nothing else.
-/

namespace Ody.Memory

open Library.Tables Library.Selection

/-- The executions that may be delivered: of an advertised task version, due, waiting or under an
expired lease, and with an attempt left. -/
def Eligible (s : MemoryStore) (keys : List TaskKey) (now : Time) : Set Execution :=
  {item | s.executions.lookup item.id = some item ∧ item.taskKey ∈ keys ∧ item.availableAt ≤ now ∧
    (item.status = .pending ∨ item.status = .retry ∨
      (item.status = .running ∧ item.leaseUntil ≤ now)) ∧ item.attempt < item.maxAttempts}

/-- What the delivery of some executions does to the store: each is returned as it is stored, under
a token of its own, and everything else stays. -/
structure HandsOver (env : Env) (s s' : MemoryStore) (owner : String) (lease : Duration)
    (taken deliveries : List Execution) : Prop where
  delivered : ∀ i, deliveries[i]? = taken[i]?.map fun (item : Execution) => { item with
    status := .running
    attempt := item.attempt + 1
    leaseOwner := owner
    leaseToken := env.newUUID i
    leaseUntil := env.now + lease
    startedAt := some (item.startedAt.getD env.now) }
  distinct : (deliveries.map (·.id)).Nodup
  tokens : (deliveries.map (·.leaseToken)).Nodup
  stored : ∀ delivery ∈ deliveries, s'.executions.lookup delivery.id = some delivery ∧
    s'.history delivery.id = s.history delivery.id ++ [event env delivery .started ""]
  kept : ∀ id, (∀ item ∈ taken, item.id ≠ id) →
    s'.executions.lookup id = s.executions.lookup id ∧ s'.history id = s.history id
  runs : s'.runs = s.runs
  references : s'.references = s.references

section Claim

variable (env : Env) (s : MemoryStore) (keys : List TaskKey) (limit : Int)

theorem mem_eligible {now : Time} {item : Execution} :
    item ∈ Eligible s keys now ↔
      s.executions.lookup item.id = some item ∧ claimable keys now item = true := by
  rw [claimable_iff]
  rfl

/-- The candidates are least among the eligible executions. -/
theorem candidates_least :
    Least claimsBefore (Eligible s keys env.now) (if limit ≤ 0 then 1 else limit).toNat
      (candidates env s keys limit) := by
  let sorted := ((s.items env 0).filter (claimable keys env.now)).insertionSort claimsBefore
  have hperm : sorted.Perm ((s.items env 0).filter (claimable keys env.now)) :=
    List.perm_insertionSort _ _
  have hmem : ∀ item, item ∈ sorted ↔ item ∈ Eligible s keys env.now := by
    intro item
    rw [hperm.mem_iff, List.mem_filter, mem_items, mem_eligible]
  have hnodup : sorted.Nodup := by
    rw [hperm.nodup_iff]
    exact (List.Nodup.of_map _ (items_ids_nodup s env 0)).sublist List.filter_sublist
  exact least_take (List.pairwise_insertionSort _ _) hnodup hmem

theorem getElem?_claim (owner : String) (lease : Duration) (i : Nat) :
    (claim env s owner keys limit lease).1[i]? =
      (candidates env s keys limit)[i]?.map (claimed env owner lease (env.newUUID i)) := by
  simp only [claim, List.getElem?_map, List.getElem?_zipIdx, Option.map_map, Nat.zero_add]
  rfl

theorem claim_tokens (owner : String) (lease : Duration) :
    ((claim env s owner keys limit lease).1.map (·.leaseToken)).Nodup := by
  have htokens : (claim env s owner keys limit lease).1.map (·.leaseToken) =
      ((candidates env s keys limit).zipIdx.map Prod.snd).map env.newUUID := by
    simp only [claim, List.map_map]
    rfl
  rw [htokens, List.zipIdx_map_snd]
  exact (List.nodup_range' ..).map env.newUUID_injective

/-- A claim takes as many eligible executions as the limit allows from the head of the queue,
returns them as it stores them, and leaves all other executions, the runs and the references
alone. -/
theorem claim_takes_head (owner : String) (lease : Duration) :
    ∃ taken, Least claimsBefore (Eligible s keys env.now) (if limit ≤ 0 then 1 else limit).toNat
        taken ∧
      HandsOver env s (claim env s owner keys limit lease).2 owner lease taken
        (claim env s owner keys limit lease).1 := by
  have hids := claim_ids env s owner keys limit lease
  have hdistinct : ((claim env s owner keys limit lease).1.map (·.id)).Nodup := by
    rw [hids]
    exact candidates_ids_nodup env s keys limit
  refine ⟨candidates env s keys limit, candidates_least env s keys limit, ?_⟩
  constructor
  case delivered => exact getElem?_claim env s keys limit owner lease
  case distinct => exact hdistinct
  case tokens => exact claim_tokens env s keys limit owner lease
  case stored => exact saveAll_saved env .started (fun _ => "") s _ hdistinct
  case kept =>
    intro id hother
    refine saveAll_other env .started (fun _ => "") s (claim env s owner keys limit lease).1 id ?_
    rw [hids]
    intro hmem
    obtain ⟨item, hitem, rfl⟩ := List.mem_map.mp hmem
    exact hother item hitem rfl
  case runs => exact saveAll_runs env .started (fun _ => "") s _
  case references => exact saveAll_references env .started (fun _ => "") s _

end Claim

end Ody.Memory
