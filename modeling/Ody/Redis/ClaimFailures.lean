import Ody.Redis.Claims

/-!
# Claims that fail

`Claim` commits its candidates one transaction after the other and returns nothing
but the error when one of them fails. What it has committed before stays claimed
under tokens that nobody received. A claim of one execution commits last: it loses
its delivery only together with the reply to that commit.
-/

namespace Ody.Redis

open Library.Tables Library.DerivedIndexes Library.Interleaving Library.Optimistic
open Memory (Env)

/-- A call of a client with its reply. -/
abbrev LogEntry := Σ c : TxCall Watch Image Command Query, TxReply QueryReply c

abbrev Log := List LogEntry

/-- A commit that moved an execution to running. -/
def MovedToRunning (entry : LogEntry) : Prop :=
  ∃ w image commands item, entry = ⟨.commit w image commands, true⟩ ∧
    .set item.id item ∈ commands ∧ item.status = .running

/-- How an operation fails, with the calls that the server has executed for it: it returns an error
of its own, the server does not execute its next command, or, where replies can be lost, executes it
without an answer. Only a failed removal of a stale queue entry is ignored. -/
inductive Failed {α : Type} (lossy : Prop) (log : Log) (s : Server) :
    Op (Except GoError α) → Log → Prop
  | returned (err : GoError) : Failed lossy log s (.done (.error err)) log
  | refused {c : TxCall Watch Image Command Query}
      {next : TxReply QueryReply c → Op (Except GoError α)}
      (h : ∀ key member, c ≠ .other (.zRem key member)) : Failed lossy log s (.call c next) log
  | lost {c : TxCall Watch Image Command Query}
      {next : TxReply QueryReply c → Op (Except GoError α)}
      (hlossy : lossy) (h : ∀ key member, c ≠ .other (.zRem key member)) {r : TxReply QueryReply c}
      {s' : Server} (hstep : backend.Step s c r s') :
      Failed lossy log s (.call c next) (log ++ [⟨c, r⟩])

theorem MovedToRunning.committed {entry : LogEntry} (h : MovedToRunning entry) :
    Committed entry := by
  obtain ⟨w, image, commands, item, rfl, -⟩ := h
  rfl

/-! ## Claims of one execution -/

/-- The loop stops where the limit is reached. -/
theorem claimLoop_full (env : Env) (owner : String) (accepted : List TaskKey) {limit : Int}
    (lease : Duration) (candidates : List Execution) (draw : Nat) {claimed : List Execution}
    (h : (claimed.length : Int) = limit) :
    claimLoop env owner accepted limit lease candidates draw claimed = .done (.ok claimed) := by
  cases candidates with
  | nil => rfl
  | cons candidate rest => rw [claimLoop, if_pos h]

/-- A claim of one execution returns it as soon as its commit takes effect. -/
theorem effectLast_claimLoop (env : Env) (owner : String) (accepted : List TaskKey)
    (lease : Duration) (candidates : List Execution) (draw : Nat) :
    (claimLoop env owner accepted 1 lease candidates draw []).EffectLast Committed
      fun result => ∃ items, result = .ok items := by
  induction candidates generalizing draw with
  | nil => trivial
  | cons candidate rest ih =>
      rw [claimLoop, if_neg (by decide), claimCandidate, Program.bind_assoc, watchExecution,
        watchExecutionFrom, watchFrom]
      refine effectLast_attempt (fun item => ?_) (fun err => ?_) 16 none
      · exact ⟨_, ⟨[item], rfl⟩, claimLoop_full env owner accepted lease rest (draw + 16) rfl⟩
      · cases err with
        | unavailable => exact ih (draw + 16)
        | existing id => trivial
        | store err =>
            cases err with
            | notFound => exact ih (draw + 16)
            | _ => trivial

theorem effectLast_claim (env : Env) (owner : String) (keys : List TaskKey) {limit : Int}
    (hlimit : limit ≤ 1) (lease : Duration) :
    (claim env owner keys limit lease).EffectLast Committed
      fun result => ∃ items, result = .ok items := by
  have hone : (if limit ≤ 0 then 1 else limit) = 1 := by
    split <;> omega
  rw [claim, hone]
  refine Program.EffectLast.bind (issues_loadDueCandidates (fun c r => not_false) env _ _)
    fun ordered => effectLast_claimLoop env owner keys lease ordered 0

/-- Without lost replies such a claim has moved nothing when it fails. -/
theorem not_moved_of_failed {others : Server → Server → Prop} {lossy : Prop} {env : Env}
    {owner : String} {keys : List TaskKey} {limit : Int} {lease : Duration} {s s' : Server}
    {log executed : Log} {q : Op (Except GoError (List Execution))} (hlimit : limit ≤ 1)
    (hkept : ¬lossy) (hrun : Among backend.Step others s (claim env owner keys limit lease) log s' q)
    (hfailed : Failed lossy log s' q executed) :
    ∀ entry ∈ executed, ¬MovedToRunning entry := by
  have hexecuted : executed = log := by
    cases hfailed with
    | lost hlossy => exact absurd hlossy hkept
    | _ => rfl
  rw [hexecuted]
  intro entry hmem hmoved
  have hlast := hrun.effectLast (effectLast_claim env owner keys hlimit lease)
  rcases hlast with ⟨hnone, -⟩ | ⟨_, hgood, rfl⟩
  · exact hnone entry hmem hmoved.committed
  · obtain ⟨items, rfl⟩ := hgood
    cases hfailed

/-! ## Claims of several executions -/

/-- What another worker does when it claims an execution. -/
def OtherClaims (s s' : Server) : Prop :=
  ∃ env draw id owner accepted lease,
    s' = (backend.alone (claimCandidate env draw id owner accepted lease) s).2

/-- A command as the server executes it: a commit fails only if a watched key has changed. -/
def Executes (s : Server) (c : TxCall Watch Image Command Query) (r : TxReply QueryReply c)
    (s' : Server) : Prop :=
  backend.execCall s c = (r, s')

theorem step_of_executes (s : Server) (c : TxCall Watch Image Command Query)
    (r : TxReply QueryReply c) (s' : Server) (h : Executes s c r s') : backend.Step s c r s' := by
  have hexec := backend.step_execCall s c
  rwa [show backend.execCall s c = (r, s') from h] at hexec

/-- An execution that stays claimable while other workers claim it a number of times. -/
structure Contested (s : Server) (accepted : List TaskKey) (now : Time) (rounds : Nat)
    (item : Execution) : Prop where
  stored : s.keys.executions.records.lookup item.id = some item
  claimable : Memory.claimable accepted now item = true
  attempts : item.attempt + rounds < item.maxAttempts

/-- Another worker claims it with a lease that expires at once. -/
theorem Contested.claim {s : Server} {accepted : List TaskKey} {now : Time} {rounds : Nat}
    {item : Execution} (h : Contested s accepted now (rounds + 1) item) :
    ∃ s' item', OtherClaims s s' ∧ item'.id = item.id ∧ item' ≠ item ∧
      Contested s' accepted now rounds item' := by
  obtain ⟨delivery, s', halone, ⟨token, rfl⟩, hrecords⟩ :=
    alone_claimCandidate h.stored (Env.at now 0) 0 "other" 0 rfl h.claimable
  obtain ⟨hkey, havailable, -, -⟩ := Memory.claimable_iff.mp h.claimable
  have hattempts := h.attempts
  refine ⟨s', Memory.claimed (Env.at now 0) "other" 0 token item,
    ⟨_, _, _, _, _, _, (congrArg Prod.snd halone).symm⟩, rfl, ?_, ?_, ?_, ?_⟩
  · intro heq
    have hsame : item.attempt + 1 = item.attempt := congrArg Execution.attempt heq
    omega
  · rw [hrecords]
    exact AList.lookup_insert _
  · refine Memory.claimable_iff.mpr ⟨hkey, havailable, Or.inr (Or.inr ⟨rfl, ?_⟩), ?_⟩
    · exact (Int.add_zero now).le
    · change item.attempt + 1 < item.maxAttempts
      omega
  · change item.attempt + 1 + rounds < item.maxAttempts
    push_cast at hattempts
    omega

section Candidate

variable (env : Env) (draw : Nat) (owner : String) (accepted : List TaskKey) (lease : Duration)

/-- The decision of one round of `claimCandidate`, whatever a lost round has decided. -/
def claimDecision (_ : Option Execution) (tries : Nat) (image : Image) :
    Except TxError (Execution × List Command) :=
  match image.executions with
  | [some item] =>
      if claimable accepted env.now item then
        .ok (Memory.claimed env owner lease (env.newUUID (draw + tries)) item,
          saveTransition env (Memory.claimed env owner lease (env.newUUID (draw + tries)) item)
            item.status .started "" true)
      else .error .unavailable
  | _ => .error (.store .notFound)

/-- What `claimCandidate` makes of the result of its transaction. -/
def claimReply (result : Except TxError Execution) : Op (Except GoError (Option Execution)) :=
  .done (match result with
    | .ok item => .ok (some item)
    | .error .unavailable => .ok none
    | .error (.store .notFound) => .ok none
    | .error err => .error err.goError)

theorem claimCandidate_eq (id : UUID) :
    claimCandidate env draw id owner accepted lease =
      (watchFrom ⟨[id], [], [], []⟩ .done (claimDecision env draw owner accepted lease)).bind
        claimReply := by
  rfl

variable {env accepted} {s : Server} {item : Execution}

theorem claimDecision_eq (hl : s.keys.executions.records.lookup item.id = some item)
    (hpass : Memory.claimable accepted env.now item = true) (lost : Option Execution)
    (tries : Nat) :
    claimDecision env draw owner accepted lease lost tries
        (backend.view ⟨[item.id], [], [], []⟩ s) =
      .ok (Memory.claimed env owner lease (env.newUUID (draw + tries)) item,
        saveTransition env (Memory.claimed env owner lease (env.newUUID (draw + tries)) item)
          item.status .started "" true) := by
  have hview : (backend.view ⟨[item.id], [], [], []⟩ s).executions = [some item] :=
    congrArg (fun stored => [stored]) hl
  rw [claimDecision, hview]
  dsimp only
  rw [claimable_eq, if_pos hpass]

/-- The commit of a claim moves the execution to running. -/
theorem movedToRunning_claimed (w : Watch) (image : Image) (token : UUID) :
    MovedToRunning ⟨.commit w image
      (saveTransition env (Memory.claimed env owner lease token item) item.status .started "" true),
      true⟩ := by
  refine ⟨w, image, _, Memory.claimed env owner lease token item, rfl, ?_, rfl⟩
  simp [saveTransition]

/-- The rounds of a candidate that other workers keep claiming are all lost. -/
theorem among_contended {rounds : Nat} (h : Contested s accepted env.now rounds item)
    (contention : TxError) (lost : Option Execution) :
    ∃ log s', Among Executes OtherClaims s
      (attempt ⟨[item.id], [], [], []⟩ .done (claimDecision env draw owner accepted lease)
        contention rounds lost) log s' (.done (.error contention)) := by
  induction rounds generalizing s item lost with
  | zero => exact ⟨[], s, Among.start⟩
  | succ rounds ih =>
      obtain ⟨s', item', hother, hid, hne, hnext⟩ := h.claim
      have hview : backend.view ⟨[item.id], [], [], []⟩ s' ≠
          backend.view ⟨[item.id], [], [], []⟩ s := by
        intro heq
        have hstored : [s'.keys.executions.records.lookup item.id] =
            [s.keys.executions.records.lookup item.id] := congrArg Image.executions heq
        rw [← hid, hnext.stored, hid, h.stored] at hstored
        exact hne (Option.some.inj (List.cons.inj hstored).1)
      have hround := backend.among_attempt_contended contention
        (claimDecision_eq draw owner lease h.stored h.claimable lost rounds) hother hview
      obtain ⟨log, s'', hrest⟩ := ih hnext _
      rw [hid] at hrest
      exact ⟨_, s'', hround.append hrest⟩

/-- A candidate that nobody else touches is moved to running. -/
theorem among_claimed (others : Server → Server → Prop)
    (hl : s.keys.executions.records.lookup item.id = some item)
    (hpass : Memory.claimable accepted env.now item = true) :
    ∃ log s' delivery, Among Executes others s
        (claimCandidate env draw item.id owner accepted lease) log s'
        (.done (.ok (some delivery))) ∧
      (∃ entry ∈ log, MovedToRunning entry) ∧
      s'.keys.executions.records = s.keys.executions.records.insert item.id delivery := by
  rw [claimCandidate_eq]
  refine ⟨_, _, _, (backend.among_attempt_commit _
    (claimDecision_eq draw owner lease hl hpass none 15)).bind claimReply, ?_, ?_⟩
  · exact ⟨_, List.mem_cons_of_mem _ (List.mem_singleton.mpr rfl), movedToRunning_claimed ..⟩
  · exact keys_applyAll s _ ▸ (writes_saveTransition s.keys _ env _ _ _ _).records

end Candidate

section Claim

variable (others : Server → Server → Prop) {env : Env} (owner : String) {keys : List TaskKey}
  (limit : Int) (lease : Duration) {s : Server} {first second : Execution} {rest : List Execution}
  (hordered : (backend.alone (loadDueCandidates env (keys.map (·.name)).eraseDups
    (if limit ≤ 0 then 1 else limit)) s) = (first :: second :: rest, s))

include hordered

/-- A claim reads its candidates before it commits anything. -/
theorem among_discovered :
    ∃ log, Among Executes others s (claim env owner keys limit lease) log s
      ((claimCandidate env 0 first.id owner keys lease).bind fun result =>
        match result with
        | .error err => .done (.error err)
        | .ok none => claimLoop env owner keys (if limit ≤ 0 then 1 else limit) lease
            (second :: rest) 16 []
        | .ok (some item) => claimLoop env owner keys (if limit ≤ 0 then 1 else limit) lease
            (second :: rest) 16 [item]) := by
  obtain ⟨log, hrun⟩ := backend.among_alone others
    (loadDueCandidates env (keys.map (·.name)).eraseDups (if limit ≤ 0 then 1 else limit)) s
  rw [hordered] at hrun
  have hroom : ¬((([] : List Execution).length : Int) = if limit ≤ 0 then 1 else limit) := by
    rw [List.length_nil]
    split <;> omega
  have hloop := hrun.bind fun ordered =>
    claimLoop env owner keys (if limit ≤ 0 then 1 else limit) lease ordered 0 []
  refine ⟨log, ?_⟩
  rw [Program.bind, claimLoop, if_neg hroom] at hloop
  exact hloop

variable (hl : s.keys.executions.records.lookup first.id = some first)
  (hpass : Memory.claimable keys env.now first = true)

include hl hpass

/-- The reply to the commit of the first candidate is lost. -/
theorem exists_lost_claim {lossy : Prop} (hlossy : lossy) :
    ∃ log s' q executed, Among Executes others s (claim env owner keys limit lease) log s' q ∧
      Failed lossy log s' q executed ∧ ∃ entry ∈ executed, MovedToRunning entry := by
  obtain ⟨log, hrun⟩ := among_discovered others owner limit lease hordered
  rw [claimCandidate_eq, Program.bind_assoc] at hrun
  have hwatch := hrun.append ((backend.among_attempt_watch _
    (claimDecision_eq 0 owner lease hl hpass none 15)).bind _)
  refine ⟨_, _, _, _, hwatch, Failed.lost hlossy ?_ (Or.inl ⟨rfl, rfl, rfl⟩), ?_⟩
  · intro key member heq
    cases heq
  · exact ⟨_, List.mem_append_right _ (List.mem_singleton.mpr rfl), movedToRunning_claimed ..⟩

/-- The first candidate is committed before the second one is tried. -/
theorem among_first (hlimit : 1 < limit) :
    ∃ log s' delivery next, Among Executes others s (claim env owner keys limit lease) log s'
        ((claimCandidate env 16 second.id owner keys lease).bind next) ∧
      (∀ err, next (.error err) = .done (.error err)) ∧
      (∃ entry ∈ log, MovedToRunning entry) ∧
      s'.keys.executions.records = s.keys.executions.records.insert first.id delivery := by
  obtain ⟨log, hrun⟩ := among_discovered others owner limit lease hordered
  obtain ⟨log', s', delivery, hclaimed, ⟨entry, hmem, hmoved⟩, hrecords⟩ :=
    among_claimed 0 owner lease others hl hpass
  have hfirst := hrun.append (hclaimed.bind _)
  have hroom : ¬(([delivery].length : Int) = limit) := fun heq => hlimit.ne heq
  have hlimited : (if limit ≤ 0 then 1 else limit) = limit := if_neg (by omega)
  rw [hlimited, Program.bind] at hfirst
  dsimp only at hfirst
  rw [claimLoop, if_neg hroom] at hfirst
  exact ⟨_, s', delivery, _, hfirst, fun err => rfl, ⟨entry, List.mem_append_right _ hmem, hmoved⟩,
    hrecords⟩

/-- The server does not execute the first command for the second candidate. -/
theorem exists_refused_claim (lossy : Prop) (hlimit : 1 < limit) :
    ∃ log s' q executed, Among Executes others s (claim env owner keys limit lease) log s' q ∧
      Failed lossy log s' q executed ∧ ∃ entry ∈ executed, MovedToRunning entry := by
  obtain ⟨log, s', delivery, next, hrun, -, hmoved, -⟩ :=
    among_first others owner limit lease hordered hl hpass hlimit
  exact ⟨log, s', _, log, hrun, Failed.refused fun _ _ => nofun, hmoved⟩

end Claim

/-! ## Two executions of one task -/

/-- An execution that may be attempted a hundred times. -/
def createdTask (now : Time) (id : Nat) : Execution :=
  newExecution (Env.at now id) ⟨"job", 1, "", 100, 0, "", none, ""⟩

def withTask (s : Keyspace) (now : Time) (id : Nat) : Keyspace :=
  s.applyAll (createCommands (Env.at now id) (createdTask now id))

theorem withTask_represented {s : Keyspace} (h : Represented s) (now : Time) {id : Nat}
    (hnew : s.executions.records.lookup (id + 1) = none) : Represented (withTask s now id) :=
  represented_create h (Env.at now id) hnew rfl (by simp [references, createdTask, newExecution])

def twoTasks : Server := ⟨withTask (withTask Keyspace.empty 5 0) 6 1, []⟩

theorem twoTasks_represented : Represented twoTasks.keys :=
  withTask_represented (withTask_represented Represented.empty 5 rfl) 6 rfl

theorem twoTasks_lookup (id : Nat) :
    twoTasks.keys.executions.records.lookup id =
      if id = 2 then some (createdTask 6 1)
      else if id = 1 then some (createdTask 5 0) else none := by
  have hrecords : twoTasks.keys.executions.records =
      ((∅ : Table UUID Execution).insert 1 (createdTask 5 0)).insert 2 (createdTask 6 1) := rfl
  rw [hrecords, lookup_insert_ite, lookup_insert_ite]
  rfl

theorem twoTasks_contested {item : Execution}
    (hl : twoTasks.keys.executions.records.lookup item.id = some item) :
    Contested twoTasks [⟨"job", 1⟩] 9 16 item := by
  refine ⟨hl, ?_, ?_⟩ <;>
  · rw [twoTasks_lookup] at hl
    split at hl
    · cases hl
      decide
    · split at hl
      · cases hl
        decide
      · cases hl

/-- Every claim sees both. -/
theorem twoTasks_ordered (id : Nat) (limit : Int) :
    ∃ first second rest, backend.alone
        (loadDueCandidates (Env.at 9 id) (([⟨"job", 1⟩] : List TaskKey).map (·.name)).eraseDups
          limit)
        twoTasks = (first :: second :: rest, twoTasks) ∧ first.id ≠ second.id ∧
      twoTasks.keys.executions.records.lookup first.id = some first ∧
      twoTasks.keys.executions.records.lookup second.id = some second := by
  obtain ⟨ordered, halone, -, hids, hmem⟩ := alone_loadDueCandidates twoTasks_represented
    (Env.at 9 id) (([⟨"job", 1⟩] : List TaskKey).map (·.name)).eraseDups limit
  have hhead : queueHead twoTasks.keys limit 9 "job" = [1, 2] := by
    have hall : twoTasks.keys.zRangeByScore (queueKey "job") (score 9) none = [1, 2] := by decide
    exact (congrArg (List.take _) hall).trans (List.take_of_length_le (by simp))
  have hold : createdTask 5 0 ∈ ordered :=
    (hmem _).mpr ⟨twoTasks_lookup 1, by decide, hhead ▸ List.mem_cons_self ..⟩
  have hnew : createdTask 6 1 ∈ ordered :=
    (hmem _).mpr ⟨twoTasks_lookup 2, by decide,
      hhead ▸ List.mem_cons_of_mem _ (List.mem_cons_self ..)⟩
  match ordered, hold, hnew with
  | [only], hold, hnew =>
      have hsame := (List.mem_singleton.mp hold).trans (List.mem_singleton.mp hnew).symm
      exact absurd (congrArg Execution.id hsame) (by decide)
  | first :: second :: rest, _, _ =>
      refine ⟨first, second, rest, halone, ?_, ((hmem first).mp ?_).1, ((hmem second).mp ?_).1⟩
      · intro heq
        refine (List.nodup_cons.mp hids).1 (List.mem_map.mpr ⟨second, ?_, heq.symm⟩)
        exact List.mem_cons_self ..
      · exact List.mem_cons_self ..
      · exact List.mem_cons_of_mem _ (List.mem_cons_self ..)

/-- A failed claim has moved nothing to running, whatever other clients do, exactly if it asks for
one execution and no reply is lost. -/
theorem failed_claim_iff (others : Server → Server → Prop) (lossy : Prop) (owner : String)
    (limit : Int) (lease : Duration) :
    (∀ env keys s log s' q executed,
      Among backend.Step others s (claim env owner keys limit lease) log s' q →
      Failed lossy log s' q executed → ∀ entry ∈ executed, ¬MovedToRunning entry) ↔
      limit ≤ 1 ∧ ¬lossy := by
  obtain ⟨first, second, rest, hordered, -, hl, -⟩ :=
    twoTasks_ordered 10 (if limit ≤ 0 then 1 else limit)
  have hpass := (twoTasks_contested hl).claimable
  constructor
  · intro hclean
    have hnone : ∀ log s' q executed,
        Among Executes others twoTasks (claim (Env.at 9 10) owner [⟨"job", 1⟩] limit lease) log s'
          q ∧
        Failed lossy log s' q executed → ¬∃ entry ∈ executed, MovedToRunning entry := by
      rintro log s' q executed ⟨hrun, hfailed⟩ ⟨entry, hmem, hmoved⟩
      exact hclean _ _ _ _ _ _ _ (hrun.mono step_of_executes fun _ _ h => h) hfailed entry hmem hmoved
    constructor
    · by_contra hlimit
      obtain ⟨log, s', q, executed, hrun, hfailed, hmoved⟩ :=
        exists_refused_claim others owner limit lease hordered hl hpass lossy (not_le.mp hlimit)
      exact hnone _ _ _ _ ⟨hrun, hfailed⟩ hmoved
    · intro hlossy
      obtain ⟨log, s', q, executed, hrun, hfailed, hmoved⟩ :=
        exists_lost_claim others owner limit lease hordered hl hpass hlossy
      exact hnone _ _ _ _ ⟨hrun, hfailed⟩ hmoved
  · rintro ⟨hlimit, hkept⟩ env keys s log s' q executed hrun hfailed
    exact not_moved_of_failed hlimit hkept hrun hfailed

/-- A claim of two executions runs out of rounds on the second one, after the first is running. -/
theorem delivery_lost_by_contention :
    Represented twoTasks.keys ∧
      ∃ log s', Among Executes OtherClaims twoTasks
          (claim (Env.at 9 10) "worker" [⟨"job", 1⟩] 2 10) log s'
          (.done (.error (.text "redis transaction contention limit exceeded"))) ∧
        ∃ entry ∈ log, MovedToRunning entry := by
  refine ⟨twoTasks_represented, ?_⟩
  obtain ⟨first, second, rest, hordered, hne, hfirst, hsecond⟩ := twoTasks_ordered 10 2
  obtain ⟨log, s', delivery, next, hrun, hnext, ⟨entry, hmem, hmoved⟩, hrecords⟩ :=
    among_first OtherClaims "worker" 2 10 hordered hfirst (twoTasks_contested hfirst).claimable
      (by decide)
  have hcontested : Contested s' [⟨"job", 1⟩] (Env.at 9 10).now 16 second := by
    refine ⟨?_, (twoTasks_contested hsecond).claimable, (twoTasks_contested hsecond).attempts⟩
    rw [hrecords, AList.lookup_insert_ne hne.symm]
    exact hsecond
  obtain ⟨log', s'', hlost⟩ := among_contended 16 "worker" 10 hcontested
    (.store (.text "redis transaction contention limit exceeded")) none
  have hall := hrun.append ((hlost.bind claimReply).bind next)
  refine ⟨log ++ log', s'', ?_, entry, List.mem_append_left _ hmem, hmoved⟩
  rw [← hnext]
  exact hall

end Ody.Redis
