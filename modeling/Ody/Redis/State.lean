import Mathlib.Data.List.Sort
import Ody.Execution.Model
import Ody.Library.DerivedIndexes
import Ody.Library.Optimistic

/-!
# The keys of the Redis store

The keyspace of the store, typed by what each key holds, and the commands that
the store sends in a `MULTI`/`EXEC` block. Execution records, pipeline hashes and
event lists are the source of truth; sorted sets, counters and references are
derived from them.

## Implementation notes

Records are stored decoded: `json.Unmarshal` undoes `json.Marshal`, apart from the
layout of a message, which `json.Marshal` compacts and which is kept here, and
`decodeRun` undoes `encodeRun`. A count field is the pair of name and status,
because no status contains the separator. A score is a number of milliseconds,
which a `float64` represents exactly. The names in a key are encoded by an
injective function and kept as they are; the concatenation of an idempotency
key is the one of the source.
-/

namespace Ody.Redis

open Library.Tables Library.DerivedIndexes Library.Optimistic

/-- `time.UnixMilli`, for instants counted from the zero time. -/
def score (value : Time) : Int := value / 1000000 - 62135596800000

theorem score_le {a b : Time} (h : a ≤ b) : score a ≤ score b :=
  Int.sub_le_sub_right (Int.ediv_le_ediv (by decide) h) _

/-! ## Keys -/

/-- The sorted sets of execution identifiers. -/
inductive ExecutionIndex where
  | all
  | task (name : String)
  | status (status : Status)
  | queue (name : String)
  | run (runID : UUID)
  deriving DecidableEq, Repr

/-- The sorted sets of run identifiers. -/
inductive RunIndex where
  | all
  | status (status : RunStatus)
  deriving DecidableEq, Repr

/-- The sorted sets of the store. -/
inductive ZKey where
  | execution (index : ExecutionIndex)
  | leases
  | run (index : RunIndex)
  deriving DecidableEq, Repr

abbrev executionsKey : ZKey := .execution .all

abbrev taskIndexKey (name : String) : ZKey := .execution (.task name)

abbrev statusKey (status : Status) : ZKey := .execution (.status status)

abbrev queueKey (name : String) : ZKey := .execution (.queue name)

abbrev runExecutionsKey (id : UUID) : ZKey := .execution (.run id)

abbrev leasesKey : ZKey := .leases

abbrev runsKey : ZKey := .run .all

abbrev runStatusKey (status : RunStatus) : ZKey := .run (.status status)

/-- The keys that lead to an execution. -/
inductive RefKey where
  | idempotency (key : String)
  | node (runID : UUID) (node : String)
  deriving DecidableEq, Repr

def idempotencyKey (taskName key : String) : RefKey := .idempotency (idempotencyIndex taskName key)

abbrev nodeKey (runID : UUID) (node : String) : RefKey := .node runID node

def pipelineIdempotencyKey (name key : String) : String := idempotencyIndex name key

/-! ## State and commands -/

/-- Execution records with their sorted sets, counters and references. -/
abbrev Executions := Indexed UUID Execution ExecutionIndex (String × Status) RefKey

/-- Pipeline hashes with their sorted sets, counters and references. -/
abbrev Runs := Indexed UUID PipelineRun RunIndex (String × RunStatus) String

/-- The content of a Redis server under one prefix. -/
structure Keyspace where
  executions : Executions
  leases : Table UUID Int
  events : Table UUID (List Event)
  runs : Runs

/-- The server with no keys. -/
def Keyspace.empty : Keyspace := ⟨Indexed.empty, ∅, ∅, Indexed.empty⟩

/-- The commands of a transaction. `del` removes the record of an execution and its events;
`hIncrBy` and `hIncrByRun` change one field of the two count hashes. -/
inductive Command where
  | set (id : UUID) (item : Execution)
  | del (id : UUID)
  | rPush (id : UUID) (event : Event)
  | hIncrBy (name : String) (status : Status) (delta : Int)
  | zAdd (key : ZKey) (score : Int) (member : UUID)
  | zRem (key : ZKey) (member : UUID)
  | setRef (key : RefKey) (id : UUID)
  | delRef (key : RefKey)
  | hSet (id : UUID) (run : PipelineRun)
  | delRun (id : UUID)
  | hIncrByRun (name : String) (status : RunStatus) (delta : Int)
  | setRunRef (key : String) (id : UUID)
  | delRunRef (key : String)
  deriving DecidableEq, Repr

/-- The event list of an execution. -/
def Keyspace.history (s : Keyspace) (id : UUID) : List Event := (s.events.lookup id).getD []

/-- Execute one command. -/
def Keyspace.apply (s : Keyspace) : Command → Keyspace
  | .set id item => { s with executions := s.executions.apply (.set id item) }
  | .del id => { s with executions := s.executions.apply (.del id), events := s.events.erase id }
  | .rPush id event => { s with events := s.events.insert id (s.history id ++ [event]) }
  | .hIncrBy name status delta =>
      { s with executions := s.executions.apply (.incr (name, status) delta) }
  | .zAdd (.execution index) score member =>
      { s with executions := s.executions.apply (.add index score member) }
  | .zAdd .leases score member => { s with leases := s.leases.insert member score }
  | .zAdd (.run index) score member => { s with runs := s.runs.apply (.add index score member) }
  | .zRem (.execution index) member =>
      { s with executions := s.executions.apply (.remove index member) }
  | .zRem .leases member => { s with leases := s.leases.erase member }
  | .zRem (.run index) member => { s with runs := s.runs.apply (.remove index member) }
  | .setRef key id => { s with executions := s.executions.apply (.setRef key id) }
  | .delRef key => { s with executions := s.executions.apply (.delRef key) }
  | .hSet id run => { s with runs := s.runs.apply (.set id run) }
  | .delRun id => { s with runs := s.runs.apply (.del id) }
  | .hIncrByRun name status delta => { s with runs := s.runs.apply (.incr (name, status) delta) }
  | .setRunRef key id => { s with runs := s.runs.apply (.setRef key id) }
  | .delRunRef key => { s with runs := s.runs.apply (.delRef key) }

/-- Execute a block of commands. -/
def Keyspace.applyAll (s : Keyspace) (commands : List Command) : Keyspace := commands.foldl Keyspace.apply s

/-! ## Reads -/

/-- The content of a sorted set. -/
def Keyspace.zset (s : Keyspace) : ZKey → Table UUID Int
  | .execution index => s.executions.index index
  | .leases => s.leases
  | .run index => s.runs.index index

/-- The order of a sorted set: by score, then by member. -/
def zsetOrder (a b : Entry UUID Int) : Prop := a.2 < b.2 ∨ (a.2 = b.2 ∧ a.1 ≤ b.1)

instance : DecidableRel zsetOrder := fun a b =>
  inferInstanceAs (Decidable (a.2 < b.2 ∨ (a.2 = b.2 ∧ a.1 ≤ b.1)))

/-- `ZRANGE key 0 -1`. -/
def Keyspace.zRange (s : Keyspace) (key : ZKey) : List UUID :=
  ((s.zset key).entries.insertionSort zsetOrder).map (·.1)

/-- `ZREVRANGE key 0 -1`. -/
def Keyspace.zRevRange (s : Keyspace) (key : ZKey) : List UUID := (s.zRange key).reverse

/-- `ZRANGEBYSCORE key -inf max`, cut at a count. -/
def Keyspace.zRangeByScore (s : Keyspace) (key : ZKey) (max : Int) (count : Option Nat) : List UUID :=
  let members := (((s.zset key).entries.filter (fun entry => entry.2 ≤ max)).insertionSort
    zsetOrder).map (·.1)
  match count with
  | some n => members.take n
  | none => members

theorem mem_zRange {s : Keyspace} {key : ZKey} {id : UUID} :
    id ∈ s.zRange key ↔ ∃ value, (s.zset key).lookup id = some value := by
  simp only [Keyspace.zRange, List.mem_map, List.mem_insertionSort, Sigma.exists, lookup_eq_some_iff]
  constructor
  · rintro ⟨id', value, hmem, rfl⟩
    exact ⟨value, hmem⟩
  · rintro ⟨value, hmem⟩
    exact ⟨id, value, hmem, rfl⟩

theorem zRange_nodup (s : Keyspace) (key : ZKey) : (s.zRange key).Nodup := by
  have hperm : (s.zRange key).Perm ((s.zset key).entries.map (·.1)) :=
    (List.perm_insertionSort zsetOrder _).map _
  exact hperm.nodup_iff.mpr (s.zset key).keys_nodup

theorem mem_zRangeByScore {s : Keyspace} {key : ZKey} {max : Int} {id : UUID} :
    id ∈ s.zRangeByScore key max none ↔
      ∃ value, (s.zset key).lookup id = some value ∧ value ≤ max := by
  simp only [Keyspace.zRangeByScore, List.mem_map, List.mem_insertionSort, List.mem_filter,
    decide_eq_true_eq, Sigma.exists, lookup_eq_some_iff]
  constructor
  · rintro ⟨id', value, ⟨hmem, hle⟩, rfl⟩
    exact ⟨value, hmem, hle⟩
  · rintro ⟨value, hmem, hle⟩
    exact ⟨id, value, ⟨hmem, hle⟩, rfl⟩

theorem zRangeByScore_nodup (s : Keyspace) (key : ZKey) (max : Int) :
    (s.zRangeByScore key max none).Nodup := by
  have hperm : (s.zRangeByScore key max none).Perm
      (((s.zset key).entries.filter fun entry => entry.2 ≤ max).map (·.1)) :=
    (List.perm_insertionSort zsetOrder _).map _
  apply hperm.nodup_iff.mpr
  exact (s.zset key).keys_nodup.sublist (List.filter_sublist.map _)

theorem zRangeByScore_subset (s : Keyspace) (key : ZKey) (max : Int) (count : Option Nat) :
    s.zRangeByScore key max count ⊆ s.zRangeByScore key max none := by
  cases count with
  | none => exact List.Subset.refl _
  | some n => exact List.take_subset n _

/-! ## Watched keys -/

/-- The keys that a transaction watches. -/
structure Watch where
  executions : List UUID
  runs : List UUID
  refs : List RefKey
  runRefs : List String
  deriving DecidableEq, Repr

/-- The values of the watched keys. -/
structure Image where
  executions : List (Option Execution)
  runs : List (Option PipelineRun)
  refs : List (Option UUID)
  runRefs : List (Option UUID)
  deriving DecidableEq, Repr

def Keyspace.view (w : Watch) (s : Keyspace) : Image where
  executions := w.executions.map s.executions.records.lookup
  runs := w.runs.map s.runs.records.lookup
  refs := w.refs.map s.executions.refs.lookup
  runRefs := w.runRefs.map s.runs.refs.lookup

end Ody.Redis
