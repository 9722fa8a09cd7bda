import Ody.Library.Selection
import Ody.Redis.Pages
import Ody.Redis.Refinement

/-!
# What a claim finds

`Claim` of the Redis store reads a bounded head of each queue and decides for each
record of it whether it may be delivered. A queue is shared by all versions of a
task and keeps deliveries that have no attempt left, and its scores are
milliseconds, so records that could be delivered may lie behind the head.
-/

namespace Ody.Redis

open Library.Tables Library.DerivedIndexes Library.Optimistic Library.Selection
open Memory (Env)

/-! ## One candidate -/

/-- The two stores test candidates alike. -/
theorem claimable_eq (accepted : List TaskKey) (now : Time) (item : Execution) :
    claimable accepted now item = Memory.claimable accepted now item := by
  rw [Bool.eq_iff_iff, Memory.claimable_iff]
  simp [claimable]
  tauto

/-- A delivery of an execution, under some token: one attempt more, leased to the owner. -/
def IsDelivery (env : Env) (owner : String) (lease : Duration) (item delivery : Execution) : Prop :=
  ∃ token, delivery = { item with
    status := .running
    attempt := item.attempt + 1
    leaseOwner := owner
    leaseToken := token
    leaseUntil := env.now + lease
    startedAt := some (item.startedAt.getD env.now) }

section Candidate

variable {s : Server} {id : UUID} {item : Execution}
  (hl : s.keys.executions.records.lookup id = some item) (env : Env) (draw : Nat) (owner : String)
  {accepted : List TaskKey} (lease : Duration)

include hl

/-- A candidate that passes the tests is claimed, and no other record changes. -/
theorem alone_claimCandidate (hid : item.id = id)
    (hpass : Memory.claimable accepted env.now item = true) :
    ∃ delivery s', backend.alone (claimCandidate env draw id owner accepted lease) s =
        (.ok (some delivery), s') ∧ IsDelivery env owner lease item delivery ∧
      s'.keys.executions.records = s.keys.executions.records.insert id delivery := by
  rw [claimCandidate, backend.alone_bind, alone_watchExecution, hl]
  dsimp only
  rw [claimable_eq, if_pos hpass]
  refine ⟨Memory.claimed env owner lease (env.newUUID (draw + 15)) item, _, rfl, ⟨_, rfl⟩, ?_⟩
  rw [← hid]
  exact keys_applyAll s _ ▸ (writes_saveTransition s.keys _ env _ _ _ _).records

/-- A candidate that fails them is passed over. -/
theorem alone_claimCandidate_unavailable (hfail : Memory.claimable accepted env.now item ≠ true) :
    backend.alone (claimCandidate env draw id owner accepted lease) s = (.ok none, s) := by
  rw [claimCandidate, backend.alone_bind, alone_watchExecution, hl]
  dsimp only
  rw [claimable_eq, if_neg hfail]
  rfl

end Candidate

/-- The loop of `Claim` delivers the first candidates that pass the tests. -/
theorem alone_claimLoop {s : Server} (env : Env) (owner : String) (accepted : List TaskKey)
    (lease : Duration) {limit : Int} {candidates : List Execution}
    (hids : (candidates.map (·.id)).Nodup)
    (hstored : ∀ item ∈ candidates, s.keys.executions.records.lookup item.id = some item)
    (draw : Nat) {claimed : List Execution} (hroom : (claimed.length : Int) ≤ limit) :
    ∃ deliveries s', backend.alone
        (claimLoop env owner accepted limit lease candidates draw claimed) s =
          (.ok (claimed ++ deliveries), s') ∧
      List.Forall₂ (IsDelivery env owner lease)
        ((candidates.filter (Memory.claimable accepted env.now)).take
          (limit.toNat - claimed.length)) deliveries := by
  induction candidates generalizing s draw claimed with
  | nil => exact ⟨[], s, by simp [claimLoop, Backend.alone], by simp⟩
  | cons candidate rest ih =>
      obtain ⟨hnew, hrest⟩ := List.nodup_cons.mp hids
      have hcandidate := hstored candidate (List.mem_cons_self ..)
      have hothers : ∀ item ∈ rest, s.keys.executions.records.lookup item.id = some item :=
        fun item hitem => hstored item (List.mem_cons_of_mem candidate hitem)
      rw [claimLoop]
      split
      · next hfull =>
        have hnone : limit.toNat - claimed.length = 0 := by omega
        exact ⟨[], s, by simp [Backend.alone], by simp [hnone]⟩
      · next hmore =>
        rw [backend.alone_bind]
        by_cases hpass : Memory.claimable accepted env.now candidate = true
        · obtain ⟨delivery, s', hwon, hdelivery, hrecords⟩ :=
            alone_claimCandidate hcandidate env draw owner lease rfl hpass
          have hkept : ∀ item ∈ rest, s'.keys.executions.records.lookup item.id = some item := by
            intro item hitem
            have hne : item.id ≠ candidate.id := fun heq => hnew (List.mem_map.mpr ⟨item, hitem, heq⟩)
            rw [hrecords, lookup_insert_ite, if_neg hne]
            exact hothers item hitem
          have hroom' : ((claimed ++ [delivery]).length : Int) ≤ limit := by
            rw [List.length_append, List.length_singleton]
            omega
          obtain ⟨deliveries, s'', hloop, hdeliveries⟩ := ih hrest hkept (draw + 16) hroom'
          refine ⟨delivery :: deliveries, s'', ?_, ?_⟩
          · rw [hwon, List.append_cons]
            exact hloop
          · obtain ⟨room, hleft⟩ : ∃ room, limit.toNat - claimed.length = room + 1 :=
              ⟨limit.toNat - claimed.length - 1, by omega⟩
            rw [List.length_append, List.length_singleton, Nat.sub_add_eq, hleft] at hdeliveries
            rw [List.filter_cons_of_pos hpass, hleft, List.take_succ_cons]
            exact List.Forall₂.cons hdelivery hdeliveries
        · rw [alone_claimCandidate_unavailable hcandidate env draw owner lease hpass,
            List.filter_cons_of_neg hpass]
          exact ih hrest hothers (draw + 16) hroom

/-! ## Discovery -/

/-- The head of a queue that `Claim` reads. -/
def queueHead (s : Keyspace) (limit : Int) (now : Time) (name : String) : List UUID :=
  s.zRangeByScore (queueKey name) (score now) (some (max (limit * 8) 128).toNat)

theorem alone_loadRecords {s : Server} (name : String) {ids : List UUID}
    (hstored : ∀ id ∈ ids, ∃ item, s.keys.executions.records.lookup id = some item)
    (candidates : Table UUID Execution) :
    ∃ found, backend.alone (loadRecords name ids candidates) s = (found, s) ∧
      ∀ id, found.lookup id =
        if id ∈ ids then s.keys.executions.records.lookup id else candidates.lookup id := by
  induction ids generalizing candidates with
  | nil => exact ⟨candidates, rfl, by simp⟩
  | cons id rest ih =>
      obtain ⟨item, hl⟩ := hstored id (List.mem_cons_self ..)
      obtain ⟨found, hload, hfound⟩ :=
        ih (fun id' hid' => hstored id' (List.mem_cons_of_mem id hid')) (candidates.insert id item)
      refine ⟨found, ?_, fun id' => ?_⟩
      · simp only [loadRecords, Backend.alone, Backend.execCall, backend, Server.exec, hl]
        exact hload
      · rw [hfound, lookup_insert_ite]
        by_cases hrest : id' ∈ rest
        · simp [hrest]
        · by_cases heq : id' = id
          · subst heq
            simp [hl]
          · simp [heq, hrest]

section Represented

variable {s : Server} (h : Represented s.keys)

include h

/-- The members of a queue are executions of its task. -/
theorem stored_of_mem_queueHead {limit : Int} {now : Time} {name : String} {id : UUID}
    (hid : id ∈ queueHead s.keys limit now name) :
    ∃ item, s.keys.executions.records.lookup id = some item ∧ item.taskName = name := by
  obtain ⟨value, hentry, -⟩ := mem_zRangeByScore.mp (zRangeByScore_subset _ _ _ _ hid)
  obtain ⟨item, hl, hscore⟩ := h.executions.mem_index hentry
  refine ⟨item, hl, ?_⟩
  by_contra hname
  have hnone : executionScore (.queue name) item = none := if_neg hname
  cases hnone.symm.trans hscore

theorem alone_loadQueues (limit : Int) (now : Time) (names : List String)
    (candidates : Table UUID Execution) :
    ∃ found, backend.alone (loadQueues limit now names candidates) s = (found, s) ∧
      ∀ id, found.lookup id = if ∃ name ∈ names, id ∈ queueHead s.keys limit now name then
        s.keys.executions.records.lookup id else candidates.lookup id := by
  induction names generalizing candidates with
  | nil => exact ⟨candidates, rfl, by simp⟩
  | cons name rest ih =>
      have hstored : ∀ id ∈ queueHead s.keys limit now name,
          ∃ item, s.keys.executions.records.lookup id = some item := by
        intro id hid
        obtain ⟨item, hl, -⟩ := stored_of_mem_queueHead h hid
        exact ⟨item, hl⟩
      obtain ⟨some', hload, hsome⟩ := alone_loadRecords name hstored candidates
      obtain ⟨found, hrest, hfound⟩ := ih some'
      refine ⟨found, ?_, fun id => ?_⟩
      · have hread : backend.alone (loadQueues limit now (name :: rest) candidates) s =
            backend.alone ((loadRecords name (queueHead s.keys limit now name) candidates).bind
              (loadQueues limit now rest)) s := rfl
        rw [hread, backend.alone_bind, hload]
        exact hrest
      · rw [hfound, hsome]
        by_cases hlater : ∃ name ∈ rest, id ∈ queueHead s.keys limit now name
        · simp [hlater]
        · by_cases hhere : id ∈ queueHead s.keys limit now name
          · simp [hhere]
          · simp [hlater, hhere]

/-- The candidates are the executions at the heads of the queues, in the order of `Claim`. -/
theorem alone_loadDueCandidates (env : Env) (names : List String) (limit : Int) :
    ∃ ordered, backend.alone (loadDueCandidates env names limit) s = (ordered, s) ∧
      ordered.Pairwise Memory.claimsBefore ∧ (ordered.map (·.id)).Nodup ∧
      ∀ item, item ∈ ordered ↔ s.keys.executions.records.lookup item.id = some item ∧
        item.taskName ∈ names ∧ item.id ∈ queueHead s.keys limit env.now item.taskName := by
  obtain ⟨found, hload, hfound⟩ := alone_loadQueues h limit env.now names ∅
  simp only [AList.lookup_empty] at hfound
  have hkeyed : ∀ id item, found.lookup id = some item → item.id = id := by
    intro id item hl
    rw [hfound] at hl
    split at hl
    · exact h.executions.keyed id item hl
    · cases hl
  have hperm := List.perm_insertionSort Memory.claimsBefore
    ((range (env.rangeExecutions 0) found).map (·.2))
  refine ⟨((range (env.rangeExecutions 0) found).map (·.2)).insertionSort Memory.claimsBefore,
    ?_, List.pairwise_insertionSort _ _, ?_, fun item => ?_⟩
  · rw [loadDueCandidates, backend.alone_bind, hload]
    rfl
  · exact (hperm.map _).nodup_iff.mpr (range_values_nodup hkeyed _)
  · rw [hperm.mem_iff, mem_range_values hkeyed, hfound]
    constructor
    · intro hl
      split at hl
      · next hseen =>
        obtain ⟨name, hname, hid⟩ := hseen
        obtain ⟨stored, hstored, rfl⟩ := stored_of_mem_queueHead h hid
        cases hl.symm.trans hstored
        exact ⟨hl, hname, hid⟩
      · cases hl
    · rintro ⟨hl, hname, hid⟩
      rw [if_pos ⟨item.taskName, hname, hid⟩]
      exact hl

end Represented

/-! ## The result of a claim -/

/-- The executions that the test of the in-memory store admits. -/
def Eligible (s : Keyspace) (keys : List TaskKey) (now : Time) : Set Execution :=
  {item | s.executions.records.lookup item.id = some item ∧ Memory.claimable keys now item = true}

theorem eligible_finite (s : Keyspace) (keys : List TaskKey) (now : Time) :
    (Eligible s keys now).Finite :=
  (Memory.finite_stored s.executions.records).subset fun item h => ⟨item.id, h.1⟩

/-- A claim that is not interrupted delivers the first of the eligible executions at the heads of the
queues. -/
theorem alone_claim {s : Server} (h : Represented s.keys) (env : Env) (owner : String)
    (keys : List TaskKey) {limit : Int} (hlimit : 1 ≤ limit) (lease : Duration) :
    ∃ visible deliveries : List Execution,
      (backend.alone (claim env owner keys limit lease) s).1 = .ok deliveries ∧
      List.Forall₂ (IsDelivery env owner lease) (visible.take limit.toNat) deliveries ∧
      visible.Pairwise Memory.claimsBefore ∧ visible.Nodup ∧
      ∀ item, item ∈ visible ↔ item ∈ Eligible s.keys keys env.now ∧
        item.id ∈ queueHead s.keys limit env.now item.taskName := by
  obtain ⟨ordered, hload, hsorted, hids, hmem⟩ :=
    alone_loadDueCandidates h env (keys.map (·.name)).eraseDups limit
  have hstored : ∀ item ∈ ordered, s.keys.executions.records.lookup item.id = some item :=
    fun item hitem => ((hmem item).mp hitem).1
  have hroom : (([] : List Execution).length : Int) ≤ limit := by
    rw [List.length_nil]
    omega
  obtain ⟨deliveries, s', hloop, hdeliveries⟩ :=
    alone_claimLoop env owner keys lease hids hstored 0 hroom
  refine ⟨ordered.filter (Memory.claimable keys env.now), deliveries, ?_, hdeliveries,
    hsorted.sublist List.filter_sublist, (List.Nodup.of_map _ hids).sublist List.filter_sublist,
    fun item => ?_⟩
  · rw [claim, if_neg (by omega), backend.alone_bind, hload, hloop]
    rfl
  · rw [List.mem_filter, hmem]
    constructor
    · rintro ⟨⟨hl, -, hid⟩, hpass⟩
      exact ⟨⟨hl, hpass⟩, hid⟩
    · rintro ⟨⟨hl, hpass⟩, hid⟩
      have hname : item.taskName ∈ (keys.map (·.name)).eraseDups :=
        List.mem_eraseDups.mpr (List.mem_map.mpr ⟨_, (Memory.claimable_iff.mp hpass).1, rfl⟩)
      exact ⟨⟨hl, hname, hid⟩, hpass⟩

/-- Deliveries tell which stored executions were taken. -/
theorem taken_unique {s : Keyspace} {keys : List TaskKey} {env : Env} {owner : String}
    {lease : Duration} {taken taken' deliveries : List Execution}
    (hstored : ∀ item ∈ taken, item ∈ Eligible s keys env.now)
    (hstored' : ∀ item ∈ taken', item ∈ Eligible s keys env.now)
    (h : List.Forall₂ (IsDelivery env owner lease) taken deliveries)
    (h' : List.Forall₂ (IsDelivery env owner lease) taken' deliveries) : taken = taken' := by
  induction h generalizing taken' with
  | nil =>
      cases h'
      rfl
  | @cons item _ rest _ hitem _ ih =>
      cases h' with
      | @cons item' _ rest' _ hitem' hrest' =>
          obtain ⟨token, rfl⟩ := hitem
          obtain ⟨token', heq⟩ := hitem'
          have hid : item.id = item'.id := by injection heq
          obtain ⟨hitem, hrest⟩ := List.forall_mem_cons.mp hstored
          obtain ⟨hitem', hrest''⟩ := List.forall_mem_cons.mp hstored'
          have hl := hitem.1
          rw [hid, hitem'.1] at hl
          rw [Option.some.inj hl, ih hrest hrest'' hrest']

/-- A claim that is not interrupted delivers as many of the eligible executions as the limit allows,
least in the order of `Claim` up to ties, exactly if for every eligible execution behind the head of
its queue the heads have as many eligible ones, as the limit, that are not after it. -/
theorem claim_least_iff {s : Server} (h : Represented s.keys) (env : Env) (owner : String)
    (keys : List TaskKey) {limit : Int} (hlimit : 1 ≤ limit) (lease : Duration) :
    ∃ deliveries, (backend.alone (claim env owner keys limit lease) s).1 = .ok deliveries ∧
      ((∃ taken, Least Memory.claimsBefore (Eligible s.keys keys env.now) limit.toNat taken ∧
          List.Forall₂ (IsDelivery env owner lease) taken deliveries) ↔
        ∀ hidden ∈ Eligible s.keys keys env.now,
          hidden.id ∉ queueHead s.keys limit env.now hidden.taskName →
          limit.toNat ≤ {item | item ∈ Eligible s.keys keys env.now ∧
            item.id ∈ queueHead s.keys limit env.now item.taskName ∧
            Memory.claimsBefore item hidden}.ncard) := by
  obtain ⟨visible, deliveries, hclaim, hdeliveries, hsorted, hnodup, hvisible⟩ :=
    alone_claim h env owner keys hlimit lease
  have heligible : ∀ item ∈ visible, item ∈ Eligible s.keys keys env.now :=
    fun item hitem => ((hvisible item).mp hitem).1
  refine ⟨deliveries, hclaim, ?_⟩
  trans Least Memory.claimsBefore (Eligible s.keys keys env.now) limit.toNat
    (visible.take limit.toNat)
  · constructor
    · rintro ⟨taken, hleast, htaken⟩
      have heq := taken_unique (fun item hitem => heligible item (List.mem_of_mem_take hitem))
        hleast.sound hdeliveries htaken
      exact heq ▸ hleast
    · exact fun hleast => ⟨_, hleast, hdeliveries⟩
  · rw [least_take_iff (eligible_finite _ _ _) hsorted hnodup heligible]
    simp only [hvisible, and_assoc]
    refine forall₂_congr fun hidden hhidden => ?_
    rw [not_and, imp_iff_right hhidden]

/-! ## A crowded queue -/

/-- A member of a bounded range has fewer members before it than the bound. -/
theorem length_lt_of_mem_zRangeByScore {s : Keyspace} {key : ZKey} {top value : Int} {n : Nat}
    {id : UUID} (hid : id ∈ s.zRangeByScore key top (some n))
    (hvalue : (s.zset key).lookup id = some value) {entries : List (Entry UUID Int)}
    (hnodup : entries.Nodup) (hbefore : ∀ entry ∈ entries,
      (s.zset key).lookup entry.1 = some entry.2 ∧ entry.2 ≤ top ∧
        toLex (entry.2, entry.1) < toLex (value, id)) : entries.length < n := by
  have hkeys : (((s.zset key).entries.filter fun entry => entry.2 ≤ top).map (·.1)).Nodup :=
    (s.zset key).keys_nodup.sublist (List.filter_sublist.map _)
  have hsorted := sortedEntries_pairwise hkeys
  have hmem : ∀ entry, entry ∈ ((s.zset key).entries.filter fun entry => entry.2 ≤ top).insertionSort
      zsetOrder ↔ (s.zset key).lookup entry.1 = some entry.2 ∧ entry.2 ≤ top := by
    intro entry
    rw [List.mem_insertionSort, List.mem_filter, lookup_eq_some_iff, decide_eq_true_iff]
  rw [Keyspace.zRangeByScore, ← List.map_take] at hid
  obtain ⟨entry, hentry, rfl⟩ := List.mem_map.mp hid
  cases hvalue.symm.trans ((hmem entry).mp (List.mem_of_mem_take hentry)).1
  have : IsTrans (Entry UUID Int) fun a b => toLex (a.2, a.1) < toLex (b.2, b.1) :=
    ⟨fun _ _ _ => lt_trans⟩
  refine lt_of_le_of_lt ?_ (ncard_before_lt hsorted (hsorted.imp fun hlt heq => ?_) hentry
    (lt_irrefl (toLex (entry.2, entry.1))))
  · refine length_le_ncard hnodup (fun other hother => ?_) ?_
    · obtain ⟨hl, hle, hlt⟩ := hbefore other hother
      exact ⟨(hmem other).mpr ⟨hl, hle⟩, hlt⟩
    · exact (List.finite_toSet _).subset fun other hother => hother.1
  · exact hlt.ne (heq ▸ rfl)

/-- A queue with executions of the second version of a task. -/
def crowded : Nat → Keyspace
  | 0 => Keyspace.empty
  | n + 1 => withJob (crowded n) 2 5 n

/-- One execution of the first version behind them. -/
def crowdedServer : Server := ⟨withJob (crowded 128) 1 7 128, []⟩

theorem withJob_records (s : Keyspace) (version : Int) (now : Time) (id : Nat) :
    (withJob s version now id).executions.records =
      s.executions.records.insert (id + 1) (createdJob version now id) := by
  rw [withJob, executions_applyAll]
  exact afterCreate_records _ _ _

theorem crowded_lookup (n id : Nat) :
    (crowded n).executions.records.lookup id =
      if 1 ≤ id ∧ id ≤ n then some (createdJob 2 5 (id - 1)) else none := by
  induction n with
  | zero =>
      rw [if_neg (by omega)]
      rfl
  | succ n ih =>
      rw [crowded, withJob_records, lookup_insert_ite, ih]
      by_cases hid : id = n + 1
      · subst hid
        simp
      · have hiff : (1 ≤ id ∧ id ≤ n + 1) ↔ (1 ≤ id ∧ id ≤ n) := by omega
        rw [if_neg hid]
        simp only [hiff]

theorem crowded_represented (n : Nat) : Represented (crowded n) := by
  induction n with
  | zero => exact Represented.empty
  | succ n ih =>
      refine withJob_represented ih 2 5 ?_
      rw [crowded_lookup, if_neg (by omega)]

theorem crowdedServer_represented : Represented crowdedServer.keys := by
  refine withJob_represented (crowded_represented 128) 1 7 ?_
  rw [crowded_lookup, if_neg (by omega)]

theorem crowdedServer_lookup (id : Nat) :
    crowdedServer.keys.executions.records.lookup id =
      if id = 129 then some (createdJob 1 7 128)
      else if 1 ≤ id ∧ id ≤ 128 then some (createdJob 2 5 (id - 1)) else none := by
  rw [crowdedServer, withJob_records, lookup_insert_ite, crowded_lookup]

/-- The head of the queue is full of the other version. -/
theorem crowdedServer_head : 129 ∉ queueHead crowdedServer.keys 1 9 "job" := by
  intro hid
  have hentry : ∀ id item, crowdedServer.keys.executions.records.lookup id = some item →
      (crowdedServer.keys.zset (queueKey "job")).lookup id =
        executionScore (.queue "job") item := by
    intro id item hl
    exact (crowdedServer_represented.executions.index (.queue "job") id).trans (by rw [hl]; rfl)
  have hlast := hentry 129 _ (crowdedServer_lookup 129)
  have hnodup : ((List.range 128).map fun i => (⟨i + 1, score 5⟩ : Entry UUID Int)).Nodup := by
    refine List.nodup_range.map fun i j hij => ?_
    simpa using hij
  have hfull := length_lt_of_mem_zRangeByScore hid hlast hnodup fun entry hmem => by
    obtain ⟨i, hi, rfl⟩ := List.mem_map.mp hmem
    have hi' := List.mem_range.mp hi
    have hl : crowdedServer.keys.executions.records.lookup (i + 1) = some (createdJob 2 5 i) := by
      rw [crowdedServer_lookup, if_neg (by omega), if_pos (by omega)]
      rfl
    have hdue : score 5 ≤ score 9 := by decide
    have hlater : i + 1 < 129 := Nat.succ_lt_succ hi'
    exact ⟨hentry (i + 1) _ hl, hdue, Prod.Lex.toLex_lt_toLex.mpr (Or.inr ⟨rfl, hlater⟩)⟩
  rw [List.length_map, List.length_range] at hfull
  exact absurd hfull (by decide)

theorem claim_least_iff_of_job :
    ∃ deliveries, (backend.alone (claim (Env.at 9 1000) "worker" [⟨"job", 1⟩] 1 10)
        ⟨withJob (withJob (withJob Keyspace.empty 1 7 3) 1 5 5) 2 4 1, []⟩).1 = .ok deliveries ∧
      ∃ taken, Least Memory.claimsBefore
          (Eligible (withJob (withJob (withJob Keyspace.empty 1 7 3) 1 5 5) 2 4 1) [⟨"job", 1⟩] 9) 1
          taken ∧
        List.Forall₂ (IsDelivery (Env.at 9 1000) "worker" 10) taken deliveries := by
  have hrepresented : Represented (withJob (withJob (withJob Keyspace.empty 1 7 3) 1 5 5) 2 4 1) :=
    withJob_represented (withJob_represented (withJob_represented Represented.empty 1 7 rfl) 1 5 rfl)
      2 4 rfl
  obtain ⟨deliveries, hclaim, hiff⟩ :=
    claim_least_iff (s := ⟨withJob (withJob (withJob Keyspace.empty 1 7 3) 1 5 5) 2 4 1, []⟩)
      hrepresented (Env.at 9 1000) "worker" [⟨"job", 1⟩] le_rfl 10
  refine ⟨deliveries, hclaim, hiff.mpr ?_⟩
  rintro hidden ⟨hl, -⟩ hout
  simp only [withJob_records, lookup_insert_ite] at hl
  split at hl
  · cases hl
    exact absurd (by decide) hout
  · split at hl
    · cases hl
      exact absurd (by decide) hout
    · split at hl
      · cases hl
        exact absurd (by decide) hout
      · cases hl

/-- A worker that accepts the first version only gets nothing, although one execution is eligible. -/
theorem eligible_execution_hidden :
    Represented crowdedServer.keys ∧
      createdJob 1 7 128 ∈ Eligible crowdedServer.keys [⟨"job", 1⟩] 9 ∧
      (backend.alone (claim (Env.at 9 1000) "worker" [⟨"job", 1⟩] 1 10) crowdedServer).1 = .ok [] := by
  refine ⟨crowdedServer_represented, ⟨crowdedServer_lookup 129, by decide⟩, ?_⟩
  obtain ⟨visible, deliveries, hclaim, hdeliveries, -, -, hvisible⟩ :=
    alone_claim crowdedServer_represented (Env.at 9 1000) "worker" [⟨"job", 1⟩] le_rfl 10
  have hnone : visible = [] := by
    refine List.eq_nil_iff_forall_not_mem.mpr fun item hitem => ?_
    obtain ⟨⟨hl, hpass⟩, hid⟩ := (hvisible item).mp hitem
    rw [crowdedServer_lookup] at hl
    split at hl
    · next hlast =>
      cases hl
      exact crowdedServer_head hid
    · split at hl
      · rw [← Option.some.inj hl] at hpass
        simp [Memory.claimable, createdJob, newExecution, Execution.taskKey] at hpass
      · cases hl
  rw [hnone, List.take_nil] at hdeliveries
  cases hdeliveries
  exact hclaim

end Ody.Redis
