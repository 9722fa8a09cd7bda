import Mathlib
import Ody.Execution.TimeTexts
import Ody.Redis.KeyTexts

/-!
# Pipeline runs as hashes

The Redis store keeps a pipeline run as a hash of texts: `encodeRun` writes a text for
each field, `HSET` merges them into the hash that is there, and `decodeRun` reads a run
from whatever the hash holds. The other modules of the store treat a hash as the record
it stands for. Here that is justified: over every sequence of writes and removals,
`GetPipelineRun` on the hashes returns what a table of records would return.

## Implementation notes

Identifiers are opaque, and `uuidParse` is the inverse of their text. A status is one of
the five of the package; the source keeps any other text as it is. Numbers are read
without the base prefixes and underscores that `fmt.Sscan` also knows, and an instant by
the rules of `time.Parse` for a well-formed text. Neither is ever written by `encodeRun`.
-/

namespace Ody.Redis

open Library.Tables Library.Delimited

namespace RunHash

/-! ## Texts of the fields -/

/-- `uuid.Parse`. -/
def uuidParse (text : String) : Except GoError UUID :=
  match text.toNat? with
  | some id => .ok id
  | none => .error (.text "invalid UUID format")

/-- The token of a number: an optional sign and the digits after it. -/
def scanNumber : List Char → List Char
  | [] => []
  | c :: rest =>
      if c = '+' ∨ c = '-' then c :: rest.takeWhile Char.isDigit
      else (c :: rest).takeWhile Char.isDigit

/-- What `fmt.Sscan` reads from a text. What follows the token is not looked at. -/
def scanToken (text : String) : List Char := scanNumber (text.toList.dropWhile isSpace)

/-- `fmt.Sscan` into an `int`. -/
def scanInt (text : String) : Except GoError Int :=
  match parseInt (String.ofList (scanToken text)) with
  | .ok value => .ok value
  | .error err => .error (.text err.text)

/-- `fmt.Sscan` into a `uint64`. -/
def scanUint (text : String) : Except GoError Nat :=
  match parseUint (scanToken text) with
  | .ok value => .ok value
  | .error err => .error (.text err.text)

def parseStatus (text : String) : Except GoError RunStatus :=
  match [RunStatus.pending, .running, .succeeded, .failed, .cancelled].find? (·.text == text) with
  | some status => .ok status
  | none => .error (.text ("unknown status " ++ text))

theorem uuidParse_uuidString (id : UUID) : uuidParse (uuidString id) = .ok id := by
  have hread : (uuidString id).toNat? = some id := Nat.toNat?_repr id
  rw [uuidParse, hread]

theorem isSpace_of_isDigit {c : Char} (h : c.isDigit = true) : isSpace c = false := by
  obtain ⟨hlow, hhigh⟩ : 48 ≤ c.toNat ∧ c.toNat ≤ 57 := by
    simpa [Char.isDigit, UInt32.le_iff_toNat_le] using h
  rw [← Char.ofNat_toNat c]
  interval_cases c.toNat <;> decide

theorem scanNumber_of_digits {digits : List Char} (h : ∀ c ∈ digits, c.isDigit = true) :
    scanNumber digits = digits := by
  cases digits with
  | nil => rfl
  | cons c rest =>
      have hc := h c List.mem_cons_self
      rw [scanNumber, if_neg, List.takeWhile_eq_self_iff.mpr h]
      rintro (rfl | rfl) <;> exact absurd hc (by decide)

/-- A number without a sign is its own token. -/
theorem scanToken_repr (n : Nat) : scanToken n.repr = n.repr.toList := by
  have hdigits : ∀ c ∈ n.repr.toList, c.isDigit = true := fun c hc => isDigit_of_mem_repr hc
  have hdrop : n.repr.toList.dropWhile isSpace = n.repr.toList := by
    cases htext : n.repr.toList with
    | nil => rfl
    | cons c rest =>
        have hc := hdigits c (htext ▸ List.mem_cons_self)
        rw [List.dropWhile_cons_of_neg (by simp [isSpace_of_isDigit hc])]
  rw [scanToken, hdrop, scanNumber_of_digits hdigits]

/-- So is a number with a sign. -/
theorem scanToken_toString (z : Int) : scanToken (toString z) = (toString z).toList := by
  cases z with
  | ofNat n => exact scanToken_repr n
  | negSucc n =>
      have htext : (toString (Int.negSucc n)).toList = '-' :: (n + 1).repr.toList :=
        String.toList_append
      have hdigits : (n + 1).repr.toList.takeWhile Char.isDigit = (n + 1).repr.toList :=
        List.takeWhile_eq_self_iff.mpr fun c hc => isDigit_of_mem_repr hc
      rw [scanToken, htext, List.dropWhile_cons_of_neg (by decide), scanNumber, if_pos (.inr rfl),
        hdigits]

theorem scanUint_toString {n : Nat} (h : n < 2 ^ 64) : scanUint (toString n) = .ok n := by
  have htoken : scanToken (toString n) = n.repr.toList := scanToken_repr n
  rw [scanUint, htoken, parseUint_repr h]

theorem scanInt_toString (n : Int64) : scanInt (toString n.toInt) = .ok n.toInt := by
  rw [scanInt, scanToken_toString, String.ofList_toList, parseInt_toString]

theorem parseStatus_text (status : RunStatus) : parseStatus status.text = .ok status := by
  cases status <;> rfl

/-! ## Hashes -/

/-- The fields of a hash with their texts. -/
abbrev Hash := Table String String

/-- The text of a field, which is empty if the field is missing. -/
def Hash.get (values : Hash) (field : String) : String := (values.lookup field).getD ""

/-- `HSET` of several fields. -/
def hset (values : Hash) (fields : List (Entry String String)) : Hash :=
  fields.foldl (fun values entry => values.insert entry.1 entry.2) values

def encodeRun (run : PipelineRun) : List (Entry String String) :=
  [⟨"id", uuidString run.id⟩, ⟨"pipeline_name", run.pipelineName⟩,
    ⟨"pipeline_version", toString run.pipelineVersion⟩, ⟨"input", run.input⟩,
    ⟨"status", run.status.text⟩, ⟨"error", run.error⟩, ⟨"idempotency_key", run.idempotencyKey⟩,
    ⟨"revision", toString run.revision⟩, ⟨"created_at", formatTime run.createdAt⟩,
    ⟨"updated_at", formatTime run.updatedAt⟩,
    ⟨"finished_at", (run.finishedAt.map formatTime).getD ""⟩]

/-- A missing revision is zero. -/
def decodeRevision (text : String) : Except GoError Nat :=
  if text ≠ "" then scanUint text else .ok 0

/-- A run that has not finished has an empty text. -/
def decodeFinished (text : String) : Except GoError (Option Time) :=
  if text ≠ "" then (parseTime text).map some else .ok none

def decodeRun (values : Hash) : Except GoError PipelineRun := do
  let id ← uuidParse (values.get "id")
  let version ← scanInt (values.get "pipeline_version")
  let revision ← decodeRevision (values.get "revision")
  let created ← parseTime (values.get "created_at")
  let updated ← parseTime (values.get "updated_at")
  let status ← parseStatus (values.get "status")
  let finished ← decodeFinished (values.get "finished_at")
  .ok {
    id := id
    pipelineName := values.get "pipeline_name"
    pipelineVersion := version
    input := values.get "input"
    status := status
    error := values.get "error"
    idempotencyKey := values.get "idempotency_key"
    revision := revision
    createdAt := created
    updatedAt := updated
    finishedAt := finished }

/-- The runs within the ranges of Go's integers and of four-digit years. -/
structure Storable (run : PipelineRun) : Prop where
  version : ∃ n : Int64, n.toInt = run.pipelineVersion
  revision : run.revision < 2 ^ 64
  created : Dated run.createdAt
  updated : Dated run.updatedAt
  finished : ∀ t ∈ run.finishedAt, Dated t

theorem lookup_hset_of_notMem {fields : List (Entry String String)} {field : String}
    (h : field ∉ fields.keys) (values : Hash) :
    (hset values fields).lookup field = values.lookup field := by
  induction fields generalizing values with
  | nil => rfl
  | cons entry rest ih =>
      rw [List.keys_cons, List.mem_cons, not_or] at h
      calc (hset (values.insert entry.1 entry.2) rest).lookup field
          = (values.insert entry.1 entry.2).lookup field := ih h.2 _
        _ = values.lookup field := AList.lookup_insert_ne h.1

/-- Each field that is written has its text afterwards, whatever the order of the writes. -/
theorem lookup_hset {fields : List (Entry String String)} (hkeys : fields.NodupKeys) (values : Hash)
    {field text : String} (h : (⟨field, text⟩ : Entry String String) ∈ fields) :
    (hset values fields).lookup field = some text := by
  induction fields generalizing values with
  | nil => cases h
  | cons entry rest ih =>
      obtain ⟨hfresh, hrest⟩ := List.nodupKeys_cons.mp hkeys
      rcases List.mem_cons.mp h with rfl | h
      · calc (hset (values.insert field text) rest).lookup field
            = (values.insert field text).lookup field := lookup_hset_of_notMem hfresh _
          _ = some text := AList.lookup_insert values
      · exact ih hrest _ h

theorem nodupKeys_encodeRun (run : PipelineRun) : (encodeRun run).NodupKeys := by
  have hkeys : (encodeRun run).keys = ["id", "pipeline_name", "pipeline_version", "input", "status",
    "error", "idempotency_key", "revision", "created_at", "updated_at", "finished_at"] := rfl
  rw [List.NodupKeys, hkeys]
  decide

theorem decodeRevision_toString {n : Nat} (h : n < 2 ^ 64) :
    decodeRevision (toString n) = .ok n := by
  have hne : toString n ≠ "" := by
    intro hempty
    have hdigits : (toString n).toList = Nat.toDigits 10 n := Nat.toList_repr
    rw [hempty] at hdigits
    exact Nat.toDigits_ne_nil hdigits.symm
  rw [decodeRevision, if_pos hne, scanUint_toString h]

theorem decodeFinished_formatTime {finished : Option Time} (h : ∀ t ∈ finished, Dated t) :
    decodeFinished ((finished.map formatTime).getD "") = .ok finished := by
  cases finished with
  | none => rfl
  | some t =>
      have hdated := h t rfl
      rw [Option.map_some, Option.getD_some, decodeFinished, if_pos (formatTime_ne_empty hdated),
        parseTime_formatTime hdated]
      rfl

/-- A run is read back from the hash it was written to, whatever the hash held before and in
whatever order the fields were written. -/
theorem decodeRun_hset {run : PipelineRun} (h : Storable run) (values : Hash)
    {fields : List (Entry String String)} (hfields : fields.Perm (encodeRun run)) :
    decodeRun (hset values fields) = .ok run := by
  have hkeys : fields.NodupKeys := (List.perm_nodupKeys hfields).mpr (nodupKeys_encodeRun run)
  have hget : ∀ entry ∈ encodeRun run, (hset values fields).get entry.1 = entry.2 :=
    fun entry hmem => by
      rw [Hash.get, lookup_hset hkeys values (hfields.mem_iff.mpr hmem), Option.getD_some]
  simp only [encodeRun, List.forall_mem_cons] at hget
  obtain ⟨hid, hname, hversion, hinput, hstatus, herror, hkey, hrevision, hcreated, hupdated,
    hfinished, -⟩ := hget
  obtain ⟨n, hn⟩ := h.version
  rw [decodeRun, hid, hname, hversion, ← hn, hinput, hstatus, herror, hkey, hrevision, hcreated, hupdated,
    hfinished, uuidParse_uuidString, scanInt_toString,
    decodeRevision_toString h.revision, parseTime_formatTime h.created, parseTime_formatTime h.updated,
    parseStatus_text, decodeFinished_formatTime h.finished, hn]
  rfl

/-! ## The hashes of the store -/

/-- The hashes of all runs, by identifier. A key without fields does not exist. -/
abbrev Hashes := Table UUID Hash

/-- `GetPipelineRun`. -/
def Hashes.read (hashes : Hashes) (id : UUID) : Except GoError PipelineRun :=
  match hashes.lookup id with
  | none => .error .notFound
  | some values => if values.entries.isEmpty then .error .notFound else decodeRun values

/-- What a transaction of the store does to the hash of a run. -/
inductive Write where
  | hset (run : PipelineRun) (order : RangeOrder (Entry String String))
  | del (id : UUID)

def Hashes.apply (hashes : Hashes) : Write → Hashes
  | .hset run order =>
      hashes.insert run.id (hset ((hashes.lookup run.id).getD ∅) (order.order (encodeRun run)))
  | .del id => hashes.erase id

/-- The same write on a table of records. -/
def applyRecord (records : Table UUID PipelineRun) : Write → Table UUID PipelineRun
  | .hset run _ => records.insert run.id run
  | .del id => records.erase id

/-- The records as `GetPipelineRun` returns them. -/
def readRecord (records : Table UUID PipelineRun) (id : UUID) : Except GoError PipelineRun :=
  match records.lookup id with
  | none => .error .notFound
  | some run => .ok run

/-- The hashes stand for the records. -/
def Represents (hashes : Hashes) (records : Table UUID PipelineRun) : Prop :=
  ∀ id, hashes.read id = readRecord records id

/-- The write is of a run within the ranges. -/
def Write.Storable : Write → Prop
  | .hset run _ => RunHash.Storable run
  | .del _ => True

theorem isEmpty_hset (values : Hash) {run : PipelineRun} {fields : List (Entry String String)}
    (hfields : fields.Perm (encodeRun run)) : (hset values fields).entries.isEmpty = false := by
  have hkeys := (List.perm_nodupKeys hfields).mpr (nodupKeys_encodeRun run)
  have hmem : (⟨"status", run.status.text⟩ : Entry String String) ∈ fields :=
    hfields.mem_iff.mpr (by simp [encodeRun])
  have hentry := lookup_eq_some_iff.mp (lookup_hset hkeys values hmem)
  exact List.isEmpty_eq_false_iff.mpr (List.ne_nil_of_mem hentry)

/-- One write keeps the hashes standing for the records. -/
theorem Represents.apply {hashes : Hashes} {records : Table UUID PipelineRun}
    (h : Represents hashes records) {write : Write} (hwrite : write.Storable) :
    Represents (hashes.apply write) (applyRecord records write) := by
  intro id
  cases write with
  | hset run order =>
      by_cases hid : id = run.id
      · subst hid
        rw [Hashes.read, Hashes.apply, AList.lookup_insert, readRecord, applyRecord,
          AList.lookup_insert]
        simp only [isEmpty_hset _ (order.perm _), Bool.false_eq_true, if_false]
        exact decodeRun_hset hwrite _ (order.perm _)
      · have hread := h id
        rw [Hashes.read, readRecord] at hread
        rw [Hashes.read, Hashes.apply, AList.lookup_insert_ne hid, readRecord, applyRecord,
          AList.lookup_insert_ne hid]
        exact hread
  | del target =>
      by_cases hid : id = target
      · subst hid
        rw [Hashes.read, Hashes.apply, AList.lookup_erase, readRecord, applyRecord,
          AList.lookup_erase]
      · have hread := h id
        rw [Hashes.read, readRecord] at hread
        rw [Hashes.read, Hashes.apply, AList.lookup_erase_ne hid, readRecord, applyRecord,
          AList.lookup_erase_ne hid]
        exact hread

theorem Represents.run {hashes : Hashes} {records : Table UUID PipelineRun}
    (h : Represents hashes records) {writes : List Write} (hwrites : ∀ write ∈ writes, write.Storable) :
    Represents (writes.foldl Hashes.apply hashes) (writes.foldl applyRecord records) := by
  induction writes generalizing hashes records with
  | nil => exact h
  | cons write rest ih =>
      rw [List.forall_mem_cons] at hwrites
      exact ih (h.apply hwrites.1) hwrites.2

end RunHash

open RunHash in
/-- Over every sequence of writes and removals, reading a run from its hash returns what a table
of records would return. -/
theorem run_hashes_refine_records (writes : List Write) (h : ∀ write ∈ writes, write.Storable)
    (id : UUID) :
    (writes.foldl Hashes.apply ∅).read id = readRecord (writes.foldl applyRecord ∅) id := by
  have hempty : Represents ∅ ∅ := fun _ => rfl
  exact hempty.run h id

/-- A run that succeeded at midnight of the second of March 2024. -/
def succeededRun : PipelineRun where
  id := 7
  pipelineName := "etl"
  pipelineVersion := 1
  input := "[]"
  status := .succeeded
  error := ""
  idempotencyKey := "nightly"
  revision := 4
  createdAt := 63844934399000000000
  updatedAt := 63844934400000000000
  finishedAt := some 63844934400000000000

open RunHash in
/-- A run is restarted after it had succeeded: the finish time of the first writing is gone. -/
theorem run_hashes_refine_records_of_restart :
    ([Write.hset succeededRun (.stored _),
      .hset { succeededRun with status := .pending, revision := 5, finishedAt := none }
        (.stored _)].foldl Hashes.apply ∅).read 7 =
      .ok { succeededRun with status := .pending, revision := 5, finishedAt := none } := by
  have hdated : ∀ t : Time, t = 63844934399000000000 ∨ t = 63844934400000000000 → Dated t := by
    rintro t (rfl | rfl) <;> exact ⟨by decide, by decide⟩
  have hstorable : ∀ run : PipelineRun, run.pipelineVersion = 1 → run.revision < 2 ^ 64 →
      run.createdAt = 63844934399000000000 → run.updatedAt = 63844934400000000000 →
      (∀ t ∈ run.finishedAt, t = 63844934400000000000) → RunHash.Storable run := by
    intro run hversion hrevision hcreated hupdated hfinished
    exact ⟨⟨1, hversion.symm⟩, hrevision, hdated _ (.inl hcreated),
      hdated _ (.inr hupdated), fun t ht => hdated t (.inr (hfinished t ht))⟩
  refine (run_hashes_refine_records _ ?_ 7).trans rfl
  simp only [List.forall_mem_cons, List.not_mem_nil, false_implies, implies_true, and_true]
  exact ⟨hstorable _ rfl (by decide) rfl rfl fun t ht => (Option.some.inj ht).symm,
    hstorable _ rfl (by decide) rfl rfl fun t ht => nomatch ht⟩

end Ody.Redis
