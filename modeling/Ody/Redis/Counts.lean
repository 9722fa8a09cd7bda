import Mathlib.Data.List.Sort
import Mathlib.Data.Prod.Lex
import Ody.Redis.Abstraction
import Ody.Redis.Concurrency
import Ody.Redis.KeyTexts

/-!
# Counts of records

The in-memory store counts its records when it is asked. The Redis store keeps a
hash with one counter for each name and status, and reads the fields of the hash
back. In every interleaving both give the same list.

## Implementation notes

A field stays in the hash when its counter returns to zero, so the reply of
`HGETALL` lists at least the counters that are not zero, in any order.
-/

namespace Ody

open Library.Tables

/-- `ExecutionCount` and `PipelineCount`: the number of records of a name in a status. -/
structure Count where
  name : String
  status : String
  count : Int
  deriving DecidableEq, Repr

def Count.key (c : Count) : String × String := (c.name, c.status)

/-! ## The order of the counts -/

def countLess (a b : Count) : Bool :=
  if a.name = b.name then a.status < b.status else a.name < b.name

def sortCounts (counts : List Count) : List Count :=
  counts.insertionSort fun a b => countLess b a = false

theorem countLess_iff {a b : Count} : countLess a b = true ↔ toLex a.key < toLex b.key := by
  rw [countLess, Count.key, Count.key, Prod.Lex.toLex_lt_toLex]
  split
  · next heq => simp [heq]
  · next hne => simp [hne]

theorem not_countLess_iff {a b : Count} : countLess b a = false ↔ toLex a.key ≤ toLex b.key := by
  rw [← not_lt, ← countLess_iff, Bool.not_eq_true]

instance : Std.Total fun a b : Count => countLess b a = false where
  total a b := by
    rw [not_countLess_iff, not_countLess_iff]
    exact le_total _ _

instance : IsTrans Count fun a b => countLess b a = false where
  trans a b c := by
    rw [not_countLess_iff, not_countLess_iff, not_countLess_iff]
    exact le_trans

/-- Counts of different keys are sorted in one way. -/
theorem sortCounts_eq {l l' : List Count} (hkeys : (l.map Count.key).Nodup)
    (hkeys' : (l'.map Count.key).Nodup) (hmem : ∀ c, c ∈ l ↔ c ∈ l') :
    sortCounts l = sortCounts l' := by
  have hperm : l.Perm l' :=
    (List.perm_ext_iff_of_nodup hkeys.of_map hkeys'.of_map).mpr hmem
  refine List.Perm.eq_of_pairwise ?_ (List.pairwise_insertionSort _ _)
    (List.pairwise_insertionSort _ _)
    ((List.perm_insertionSort _ l).trans (hperm.trans (List.perm_insertionSort _ l').symm))
  intro a b ha hb hab hba
  rw [not_countLess_iff] at hab hba
  have hkey : a.key = b.key := toLex.injective (le_antisymm hab hba)
  rw [sortCounts, List.mem_insertionSort] at ha hb
  exact List.inj_on_of_nodup_map hkeys ha ((hmem b).mpr hb) hkey

/-! ## The in-memory store -/

namespace Memory

variable {V : Type}

/-- The statement `counts[key]++`. -/
def increment (key : V → String × String) (counts : Table (String × String) Int) (v : V) :
    Table (String × String) Int :=
  counts.insert (key v) ((counts.lookup (key v)).getD 0 + 1)

/-- The counts of the records, in the order in which the loop visits the map of counts. -/
def listCounts (key : V → String × String) (fields : RangeOrder (Entry (String × String) Int))
    (records : List V) : List Count :=
  sortCounts ((fields.order (records.foldl (increment key) ∅).entries).map
    fun field => ⟨field.1.1, field.1.2, field.2⟩)

def executionCounts (s : MemoryStore) (order : RangeOrder (Entry UUID Execution))
    (fields : RangeOrder (Entry (String × String) Int)) : List Count :=
  listCounts (fun entry => (entry.2.taskName, entry.2.status.text)) fields
    (order.order s.executions.entries)

def pipelineCounts (s : MemoryStore) (order : RangeOrder (Entry UUID PipelineRun))
    (fields : RangeOrder (Entry (String × String) Int)) : List Count :=
  listCounts (fun entry => (entry.2.pipelineName, entry.2.status.text)) fields
    (order.order s.runs.entries)

theorem lookup_foldl_increment (key : V → String × String) (records : List V)
    (counts : Table (String × String) Int) (k : String × String) :
    (records.foldl (increment key) counts).lookup k =
      if records.countP (fun v => key v = k) = 0 then counts.lookup k
      else some ((counts.lookup k).getD 0 + records.countP (fun v => key v = k)) := by
  induction records generalizing counts with
  | nil => rfl
  | cons v records ih =>
      rw [List.foldl_cons, ih, List.countP_cons]
      by_cases hkey : key v = k
      · subst hkey
        have hlookup : (increment key counts v).lookup (key v) =
            some ((counts.lookup (key v)).getD 0 + 1) := AList.lookup_insert _
        simp only [hlookup, decide_true, if_true, Option.getD_some]
        split
        · next hzero => simp [hzero]
        · push_cast
          congr 1
          omega
      · have hlookup : (increment key counts v).lookup k = counts.lookup k :=
          AList.lookup_insert_ne (Ne.symm hkey)
        simp [hlookup, hkey]

/-- The map of counts holds the keys of the records with their numbers. -/
theorem mem_counts_iff (key : V → String × String) (records : List V) (c : Count) :
    c ∈ (records.foldl (increment key) ∅).entries.map
        (fun field => (⟨field.1.1, field.1.2, field.2⟩ : Count)) ↔
      0 < c.count ∧ c.count = records.countP (fun v => key v = c.key) := by
  have hlookup := lookup_foldl_increment key records ∅ c.key
  rw [AList.lookup_empty] at hlookup
  have hmem : c ∈ (records.foldl (increment key) ∅).entries.map
        (fun field => (⟨field.1.1, field.1.2, field.2⟩ : Count)) ↔
      (records.foldl (increment key) ∅).lookup c.key = some c.count := by
    rw [← Option.mem_def, AList.mem_lookup_iff, List.mem_map]
    constructor
    · rintro ⟨⟨k, n⟩, hentry, rfl⟩
      exact hentry
    · intro hentry
      exact ⟨_, hentry, rfl⟩
  rw [hmem, hlookup]
  split
  · next hzero =>
    rw [hzero]
    constructor
    · nofun
    · rintro ⟨hpos, hcount⟩
      omega
  · next hne =>
    rw [Option.some.injEq, Option.getD_none, zero_add]
    omega

theorem nodup_counts (key : V → String × String) (records : List V) :
    (((records.foldl (increment key) ∅).entries.map
      (fun field => (⟨field.1.1, field.1.2, field.2⟩ : Count))).map Count.key).Nodup := by
  rw [List.map_map]
  exact (records.foldl (increment key) ∅).nodupKeys

end Memory

/-! ## The Redis store -/

namespace Redis

open Library.Interleaving Library.Optimistic

/-- The loop over the fields of a hash of counts. -/
def readCounts : List (String × String) → Except GoError (List Count)
  | [] => .ok []
  | (field, rawCount) :: values =>
      match parseCount field rawCount with
      | .error err => .error err
      | .ok (name, status, count) => (readCounts values).map fun counts =>
          if 0 < count then ⟨name, status, count⟩ :: counts else counts

/-- The counts in the reply to `HGETALL`. -/
def hashCounts (values : List (String × String)) : Except GoError (List Count) :=
  (readCounts values).map sortCounts

section Hash

variable {σ : Type} {text : σ → String} {counts : String × σ → Int}
  {fields : List (String × σ)}

/-- A reply to `HGETALL` for counters that were incremented for these fields. -/
def hashOf (text : σ → String) (counts : String × σ → Int) (fields : List (String × σ)) :
    List (String × String) :=
  fields.map fun f => (countField f.1 (text f.2), toString (counts f))

/-- The fields of a hash: each once, with every counter that is not zero. The names do not contain
the separator and the counters are integers of 64 bits. -/
structure Lists (counts : String × σ → Int) (fields : List (String × σ)) : Prop where
  nodup : fields.Nodup
  names : ∀ f ∈ fields, '\x00' ∉ f.1.toList
  range : ∀ f ∈ fields, -2 ^ 63 ≤ counts f ∧ counts f < 2 ^ 63
  listed : ∀ f, counts f ≠ 0 → f ∈ fields

/-- The names of the records do not contain the separator, and 64 bits can count them. -/
def FitsHash {V : Type} (key : V → String × σ) (records : List V) : Prop :=
  (∀ v ∈ records, '\x00' ∉ (key v).1.toList) ∧ records.length < 2 ^ 63

instance {V : Type} (key : V → String × σ) (records : List V) : Decidable (FitsHash key records) :=
  inferInstanceAs (Decidable (_ ∧ _))

/-- Where the counters are right, a hash may hold the fields of the records only. -/
theorem lists_dedup [DecidableEq σ] {V : Type} {key : V → String × σ} {records : List V}
    (hcounts : ∀ f, counts f = records.countP fun v => key v = f) (h : FitsHash key records) :
    Lists counts (records.map key).dedup where
  nodup := List.nodup_dedup _
  names f hf := by
    obtain ⟨v, hv, rfl⟩ := List.mem_map.mp (List.mem_dedup.mp hf)
    exact h.1 v hv
  range f _ := by
    have hle := records.countP_le_length (p := fun v => key v = f)
    have hlength := h.2
    rw [hcounts]
    omega
  listed f hf := by
    rw [hcounts] at hf
    have hpos : 0 < records.countP fun v => key v = f := by omega
    obtain ⟨v, hv, hkey⟩ := List.countP_pos_iff.mp hpos
    exact List.mem_dedup.mpr (List.mem_map.mpr ⟨v, hv, of_decide_eq_true hkey⟩)

def countOf (text : σ → String) (counts : String × σ → Int) (f : String × σ) : Count :=
  ⟨f.1, text f.2, counts f⟩

theorem readCounts_hashOf (hnames : ∀ f ∈ fields, '\x00' ∉ f.1.toList)
    (hrange : ∀ f ∈ fields, -2 ^ 63 ≤ counts f ∧ counts f < 2 ^ 63) :
    readCounts (hashOf text counts fields) =
      .ok ((fields.filter fun f => 0 < counts f).map (countOf text counts)) := by
  induction fields with
  | nil => rfl
  | cons f fields ih =>
      obtain ⟨hname, hnames⟩ := List.forall_mem_cons.mp hnames
      obtain ⟨⟨hlow, hhigh⟩, hrange⟩ := List.forall_mem_cons.mp hrange
      have hparse := parseCount_countField hname (text f.2) (Int64.ofInt (counts f))
      rw [Int64.toInt_ofInt_of_le hlow hhigh] at hparse
      have hrest := ih hnames hrange
      rw [hashOf] at hrest
      rw [hashOf, List.map_cons, readCounts, hparse]
      simp only [hrest, Except.map, List.filter_cons, decide_eq_true_eq]
      split <;> rfl

/-- Counters that are right are listed like the records are counted. -/
theorem hashCounts_eq [DecidableEq σ] {V : Type} (htext : Function.Injective text)
    (key : V → String × σ) {records : List V}
    (hcounts : ∀ f, counts f = records.countP fun v => key v = f) (hlists : Lists counts fields)
    (order : RangeOrder V) (visit : RangeOrder (Entry (String × String) Int)) :
    hashCounts (hashOf text counts fields) =
      .ok (Memory.listCounts (fun v => ((key v).1, text (key v).2)) visit (order.order records)) := by
  have hfield : ∀ f : String × σ, (order.order records).countP
      (fun v => ((key v).1, text (key v).2) = (f.1, text f.2)) = counts f := by
    intro f
    rw [(order.perm records).countP_eq, hcounts]
    congr 2
    funext v
    simp [Prod.ext_iff, htext.eq_iff]
  rw [hashCounts, readCounts_hashOf hlists.names hlists.range]
  refine congrArg Except.ok (sortCounts_eq ?_ ?_ fun c => ?_)
  · rw [List.map_map]
    refine (hlists.nodup.filter _).map fun f g hfg => ?_
    obtain ⟨hname, hstatus⟩ := Prod.mk.inj hfg
    exact Prod.ext hname (htext hstatus)
  · exact (((visit.perm _).map _).map _).nodup_iff.mpr (Memory.nodup_counts _ _)
  · rw [((visit.perm _).map _).mem_iff, Memory.mem_counts_iff, List.mem_map]
    constructor
    · rintro ⟨f, hf, rfl⟩
      exact ⟨of_decide_eq_true (List.mem_filter.mp hf).2, (hfield f).symm⟩
    · rintro ⟨hpos, hcount⟩
      -- a counted record leads to the status of the field
      have hsome : 0 < (order.order records).countP
          (fun v => ((key v).1, text (key v).2) = c.key) := by omega
      obtain ⟨v, -, hv⟩ := List.countP_pos_iff.mp hsome
      have hkey : ((key v).1, text (key v).2) = c.key := of_decide_eq_true hv
      rw [← hkey, hfield (key v)] at hcount
      have hne : counts (key v) ≠ 0 := by omega
      refine ⟨key v, List.mem_filter.mpr ⟨hlists.listed _ hne, decide_eq_true (by omega)⟩, ?_⟩
      obtain ⟨hname, hstatus⟩ := Prod.mk.inj hkey
      cases c
      simp_all [countOf, Count.key]

end Hash

/-- `ExecutionCounts`, with the fields in the order of the reply. -/
def executionCounts (s : Keyspace) (fields : List (String × Status)) :
    Except GoError (List Count) :=
  hashCounts (hashOf Status.text s.executions.counts fields)

/-- `PipelineCounts`, with the fields in the order of the reply. -/
def pipelineCounts (s : Keyspace) (fields : List (String × RunStatus)) :
    Except GoError (List Count) :=
  hashCounts (hashOf RunStatus.text s.runs.counts fields)

/-- The field of the hash that counts an execution. -/
def executionField (entry : Entry UUID Execution) : String × Status :=
  (entry.2.taskName, entry.2.status)

/-- The field of the hash that counts a run. -/
def runField (entry : Entry UUID PipelineRun) : String × RunStatus :=
  (entry.2.pipelineName, entry.2.status)

theorem counts_executionField {s : Keyspace} (h : Represented s) (f : String × Status) :
    s.executions.counts f =
      s.executions.records.entries.countP fun entry => executionField entry = f := by
  rw [h.sound.counts f.1 f.2, tally]
  simp [executionField, Prod.ext_iff]

theorem counts_runField {s : Keyspace} (h : Represented s) (f : String × RunStatus) :
    s.runs.counts f = s.runs.records.entries.countP fun entry => runField entry = f := by
  rw [h.sound.runCounts f.1 f.2, tally]
  simp [runField, Prod.ext_iff]

/-- In every interleaving of the operations the counts that are read from the two hashes are those
of an in-memory store with the same records, whatever the orders of the replies and the loops. -/
theorem redis_counts_refine {s : Server}
    {threads : List (Thread Unit (TxCall Watch Image Command Query) (TxReply QueryReply) Unit)}
    (run : Reach (backend.system FreshIDs) Server.Initial Uninterrupted s threads)
    {fields : List (String × Status)} (hfields : Lists s.keys.executions.counts fields)
    {runFields : List (String × RunStatus)} (hrunFields : Lists s.keys.runs.counts runFields) :
    ∃ h : Represented s.keys,
      (∀ order visit, executionCounts s.keys fields =
        .ok (Memory.executionCounts (abstraction s.keys h) order visit)) ∧
      ∀ order visit, pipelineCounts s.keys runFields =
        .ok (Memory.pipelineCounts (abstraction s.keys h) order visit) := by
  have h := (invariant_of_reach (fun _ hp => keeps_uninterrupted hp) run).represented
  refine ⟨h, fun order visit => ?_, fun order visit => ?_⟩
  · exact hashCounts_eq Status.text_injective executionField (counts_executionField h) hfields
      order visit
  · exact hashCounts_eq RunStatus.text_injective runField (counts_runField h) hrunFields
      order visit

/-- Three executions and a run are created at the same time, and two workers race for the first
execution. -/
def countRace : List (Move (TxCall Watch Image Command Query) (TxReply QueryReply) Unit) :=
  [.spawn (Operation.createExecution (Memory.Env.at 5 0) Memory.standaloneRequest).program,
    .spawn (Operation.createExecution (Memory.Env.at 5 30) Memory.standaloneRequest).program,
    .spawn (Operation.createExecution (Memory.Env.at 5 40)
      { Memory.standaloneRequest with taskName := "invoice" }).program,
    .spawn (Operation.createPipelineRun (Memory.Env.at 5 50) ⟨"etl", 1, "1", "nightly"⟩).program,
    .step 0, .step 1, .step 2, .step 3, .step 3, .step 2, .step 1, .step 0,
    .spawn (Operation.claimCandidate (Memory.Env.at 6 1) 0 1 "a" [⟨"email", 1⟩] 10).program,
    .spawn (Operation.claimCandidate (Memory.Env.at 6 20) 0 1 "b" [⟨"email", 1⟩] 10).program,
    .step 4, .step 5, .step 4, .step 5, .step 5]

theorem redis_counts_refine_of_countRace : ∃ s threads,
    Reach (backend.system FreshIDs) Server.Initial Uninterrupted s threads ∧
      ∃ fields runFields, Lists s.keys.executions.counts fields ∧
        Lists s.keys.runs.counts runFields ∧
        (executionCounts s.keys fields).toOption =
          some [⟨"email", "pending", 1⟩, ⟨"email", "running", 1⟩, ⟨"invoice", "pending", 1⟩] ∧
        (pipelineCounts s.keys runFields).toOption = some [⟨"etl", "pending", 1⟩] ∧
        ∃ h : Represented s.keys,
          (∀ order visit, executionCounts s.keys fields =
            .ok (Memory.executionCounts (abstraction s.keys h) order visit)) ∧
          ∀ order visit, pipelineCounts s.keys runFields =
            .ok (Memory.pipelineCounts (abstraction s.keys h) order visit) := by
  have hmoves : ∀ m ∈ countRace, m.Spawns Uninterrupted := by
    simp [countRace, Move.Spawns, Uninterrupted.operation]
  have hends : (freshExecution.drive countRace Server.empty []).any (fun final =>
      decide (FitsHash executionField final.1.keys.executions.records.entries ∧
        FitsHash runField final.1.keys.runs.records.entries ∧
        (executionCounts final.1.keys
          (final.1.keys.executions.records.entries.map executionField).dedup).toOption =
            some [⟨"email", "pending", 1⟩, ⟨"email", "running", 1⟩, ⟨"invoice", "pending", 1⟩] ∧
        (pipelineCounts final.1.keys
          (final.1.keys.runs.records.entries.map runField).dedup).toOption =
            some [⟨"etl", "pending", 1⟩])) = true := by decide +kernel
  have hinitial : Server.Initial Server.empty := rfl
  obtain ⟨s, threads, run, htest⟩ := freshExecution.drive_configuration hmoves hinitial hends
  obtain ⟨hexecutions, hruns, hcounts, hrunCounts⟩ := of_decide_eq_true htest
  have h := (invariant_of_reach (fun _ hp => keeps_uninterrupted hp) run).represented
  have hfields := lists_dedup (counts_executionField h) hexecutions
  have hrunFields := lists_dedup (counts_runField h) hruns
  exact ⟨s, threads, run, _, _, hfields, hrunFields, hcounts, hrunCounts,
    redis_counts_refine run hfields hrunFields⟩

end Redis

end Ody
