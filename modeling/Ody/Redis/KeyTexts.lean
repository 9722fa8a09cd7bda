import Mathlib
import Ody.Library.Base64
import Ody.Library.Delimited
import Ody.Redis.State
import Ody.Task.Definition

/-!
# The texts of Redis keys

Every key of the store is the text of its constructor: the store's prefix, a tag,
and an argument that is a UUID, a status or an encoded name. Two keys have one
text exactly if they are the same key of the typed keyspace, so the typed
keyspace of this development is the one of the server. A count field joins a name
and a status, and `parseCount` takes it apart at the first separator.

## Implementation notes

The two idempotency constructors join their arguments before they encode them.
The texts of their keys therefore determine the joined text and not the pair.
-/

namespace Ody.Redis

open Library.Base64 Library.Delimited

/-! ## Constructors -/

namespace Text

/-- `base64.RawURLEncoding` of the bytes of a text. -/
def encodeKey (value : String) : String := String.ofList (encode value.toUTF8.data.toList)

section Constructors

-- The prefix of the store.
variable (base : String)

def executionKey (id : UUID) : String := base ++ "execution:" ++ uuidString id

def eventsKey (id : UUID) : String := base ++ "events:" ++ uuidString id

def executionsKey : String := base ++ "executions"

def leasesKey : String := base ++ "leases"

def executionCountsKey : String := base ++ "counts:executions"

def pipelineCountsKey : String := base ++ "counts:pipelines"

def queueKey (name : String) : String := base ++ "queue:" ++ encodeKey name

def taskIndexKey (name : String) : String := base ++ "task:" ++ encodeKey name

def statusKey (status : Status) : String := base ++ "status:" ++ status.text

def idempotencyKey (taskName key : String) : String :=
  base ++ "idempotency:" ++ encodeKey (taskName ++ "\x00" ++ key)

def nodeKey (runID : UUID) (node : String) : String :=
  base ++ "node:" ++ uuidString runID ++ ":" ++ encodeKey node

def runExecutionsKey (id : UUID) : String := base ++ "run-executions:" ++ uuidString id

def pipelineKey (id : UUID) : String := base ++ "pipeline:" ++ uuidString id

def runsKey : String := base ++ "pipelines"

def pipelineIdempotencyKey (name key : String) : String :=
  base ++ "pipeline-idempotency:" ++ encodeKey (name ++ "\x00" ++ key)

def runStatusKey (status : RunStatus) : String := base ++ "pipeline-status:" ++ status.text

end Constructors

end Text

/-- The constructors of `keys.go`. -/
inductive Family where
  | execution
  | events
  | executions
  | leases
  | executionCounts
  | pipelineCounts
  | queue
  | taskIndex
  | status
  | idempotency
  | node
  | runExecutions
  | pipeline
  | runs
  | pipelineIdempotency
  | runStatus
  deriving DecidableEq

/-- The constant part of a key. -/
def Family.tag : Family → String
  | .execution => "execution:"
  | .events => "events:"
  | .executions => "executions"
  | .leases => "leases"
  | .executionCounts => "counts:executions"
  | .pipelineCounts => "counts:pipelines"
  | .queue => "queue:"
  | .taskIndex => "task:"
  | .status => "status:"
  | .idempotency => "idempotency:"
  | .node => "node:"
  | .runExecutions => "run-executions:"
  | .pipeline => "pipeline:"
  | .runs => "pipelines"
  | .pipelineIdempotency => "pipeline-idempotency:"
  | .runStatus => "pipeline-status:"

/-- A constructor with its arguments. -/
inductive Key where
  | execution (id : UUID)
  | events (id : UUID)
  | executions
  | leases
  | executionCounts
  | pipelineCounts
  | queue (name : String)
  | taskIndex (name : String)
  | status (status : Status)
  | idempotency (taskName key : String)
  | node (runID : UUID) (node : String)
  | runExecutions (id : UUID)
  | pipeline (id : UUID)
  | runs
  | pipelineIdempotency (name key : String)
  | runStatus (status : RunStatus)
  deriving DecidableEq

/-- The Redis key that the constructor returns. -/
def Key.text (base : String) : Key → String
  | .execution id => Text.executionKey base id
  | .events id => Text.eventsKey base id
  | .executions => Text.executionsKey base
  | .leases => Text.leasesKey base
  | .executionCounts => Text.executionCountsKey base
  | .pipelineCounts => Text.pipelineCountsKey base
  | .queue name => Text.queueKey base name
  | .taskIndex name => Text.taskIndexKey base name
  | .status value => Text.statusKey base value
  | .idempotency taskName key => Text.idempotencyKey base taskName key
  | .node runID nodeKey => Text.nodeKey base runID nodeKey
  | .runExecutions id => Text.runExecutionsKey base id
  | .pipeline id => Text.pipelineKey base id
  | .runs => Text.runsKey base
  | .pipelineIdempotency name key => Text.pipelineIdempotencyKey base name key
  | .runStatus value => Text.runStatusKey base value

def Key.family : Key → Family
  | .execution _ => .execution
  | .events _ => .events
  | .executions => .executions
  | .leases => .leases
  | .executionCounts => .executionCounts
  | .pipelineCounts => .pipelineCounts
  | .queue _ => .queue
  | .taskIndex _ => .taskIndex
  | .status _ => .status
  | .idempotency _ _ => .idempotency
  | .node _ _ => .node
  | .runExecutions _ => .runExecutions
  | .pipeline _ => .pipeline
  | .runs => .runs
  | .pipelineIdempotency _ _ => .pipelineIdempotency
  | .runStatus _ => .runStatus

/-- The part of a key after its tag. -/
def Key.argument : Key → String
  | .execution id | .events id | .runExecutions id | .pipeline id => uuidString id
  | .executions | .leases | .executionCounts | .pipelineCounts | .runs => ""
  | .queue name | .taskIndex name => Text.encodeKey name
  | .status value => value.text
  | .idempotency name key | .pipelineIdempotency name key =>
      Text.encodeKey (idempotencyIndex name key)
  | .node runID nodeKey => uuidString runID ++ ":" ++ Text.encodeKey nodeKey
  | .runStatus value => value.text

/-- A key of the typed keyspace. -/
inductive StoreKey where
  | execution (id : UUID)
  | events (id : UUID)
  | sorted (key : ZKey)
  | executionCounts
  | pipelineCounts
  | reference (key : RefKey)
  | pipeline (id : UUID)
  | runReference (key : String)
  deriving DecidableEq

/-- What the constructor returns in the typed keyspace. -/
def Key.typed : Key → StoreKey
  | .execution id => .execution id
  | .events id => .events id
  | .executions => .sorted executionsKey
  | .leases => .sorted leasesKey
  | .executionCounts => .executionCounts
  | .pipelineCounts => .pipelineCounts
  | .queue name => .sorted (queueKey name)
  | .taskIndex name => .sorted (taskIndexKey name)
  | .status value => .sorted (statusKey value)
  | .idempotency taskName key => .reference (idempotencyKey taskName key)
  | .node runID name => .reference (nodeKey runID name)
  | .runExecutions id => .sorted (runExecutionsKey id)
  | .pipeline id => .pipeline id
  | .runs => .sorted runsKey
  | .pipelineIdempotency name key => .runReference (pipelineIdempotencyKey name key)
  | .runStatus value => .sorted (runStatusKey value)

/-! ## Different keys have different texts -/

theorem Text.encodeKey_injective : Function.Injective Text.encodeKey := by
  intro a b h
  have hbytes := encode_injective (String.ofList_injective h)
  have hdata : a.toByteArray.data = b.toByteArray.data := Array.toList_inj.mp hbytes
  exact String.toByteArray_inj.mp (ByteArray.ext hdata)

/-- No tag begins with another one. -/
theorem tag_separates : ∀ f f' : Family, f.tag.toList <+: f'.tag.toList → f = f' := by
  intro f f'
  cases f <;> cases f' <;> decide

theorem text_eq (base : String) (k : Key) : k.text base = base ++ k.family.tag ++ k.argument := by
  cases k with
  | node runID node =>
      simp only [Key.text, Text.nodeKey, Key.family, Family.tag, Key.argument, String.append_assoc]
  | executions => exact String.append_empty.symm
  | leases => exact String.append_empty.symm
  | executionCounts => exact String.append_empty.symm
  | pipelineCounts => exact String.append_empty.symm
  | runs => exact String.append_empty.symm
  | _ => rfl

theorem family_eq {base : String} {k k' : Key} (h : k.text base = k'.text base) :
    k.family = k'.family ∧ k.argument = k'.argument := by
  rw [text_eq, text_eq, ← String.toList_inj] at h
  simp only [String.toList_append, List.append_assoc, List.append_cancel_left_eq] at h
  have hfamily : k.family = k'.family := by
    rcases List.append_eq_append_iff.mp h with ⟨rest, htag, -⟩ | ⟨rest, htag, -⟩
    · exact tag_separates _ _ ⟨rest, htag.symm⟩
    · exact (tag_separates _ _ ⟨rest, htag.symm⟩).symm
  refine ⟨hfamily, ?_⟩
  rw [hfamily, List.append_cancel_left_eq] at h
  exact String.toList_inj.mp h

theorem node_argument_inj {runID runID' : UUID} {node node' : String}
    (h : (Key.node runID node).argument = (Key.node runID' node').argument) :
    runID = runID' ∧ node = node' := by
  have hlist := congrArg String.toList h
  simp only [Key.argument, String.toList_append, List.append_assoc] at hlist
  obtain ⟨hrun, hnode⟩ :=
    split_unique (notMem_repr runID (by decide)) (notMem_repr runID' (by decide)) hlist
  exact ⟨uuidString_inj (String.toList_inj.mp hrun),
    Text.encodeKey_injective (String.toList_inj.mp hnode)⟩

theorem typed_eq {k k' : Key} (hfamily : k.family = k'.family) (h : k.argument = k'.argument) :
    k.typed = k'.typed := by
  match k, k', hfamily with
  | .execution _, .execution _, _ => exact congrArg StoreKey.execution (uuidString_inj h)
  | .events _, .events _, _ => exact congrArg StoreKey.events (uuidString_inj h)
  | .executions, .executions, _ => rfl
  | .leases, .leases, _ => rfl
  | .executionCounts, .executionCounts, _ => rfl
  | .pipelineCounts, .pipelineCounts, _ => rfl
  | .queue _, .queue _, _ =>
      exact congrArg (StoreKey.sorted <| queueKey ·) (Text.encodeKey_injective h)
  | .taskIndex _, .taskIndex _, _ =>
      exact congrArg (StoreKey.sorted <| taskIndexKey ·) (Text.encodeKey_injective h)
  | .status _, .status _, _ =>
      exact congrArg (StoreKey.sorted <| statusKey ·) (Status.text_injective h)
  | .idempotency _ _, .idempotency _ _, _ =>
      exact congrArg (StoreKey.reference <| RefKey.idempotency ·) (Text.encodeKey_injective h)
  | .node _ _, .node _ _, _ =>
      obtain ⟨hrun, hnode⟩ := node_argument_inj h
      rw [hrun, hnode]
  | .runExecutions _, .runExecutions _, _ =>
      exact congrArg (StoreKey.sorted <| runExecutionsKey ·) (uuidString_inj h)
  | .pipeline _, .pipeline _, _ => exact congrArg StoreKey.pipeline (uuidString_inj h)
  | .runs, .runs, _ => rfl
  | .pipelineIdempotency _ _, .pipelineIdempotency _ _, _ =>
      exact congrArg StoreKey.runReference (Text.encodeKey_injective h)
  | .runStatus _, .runStatus _, _ =>
      exact congrArg (StoreKey.sorted <| runStatusKey ·) (RunStatus.text_injective h)

theorem text_of_typed (base : String) {k k' : Key} (h : k.typed = k'.typed) :
    k.text base = k'.text base := by
  match k, k', h with
  | .execution _, .execution _, rfl => rfl
  | .events _, .events _, rfl => rfl
  | .executions, .executions, _ => rfl
  | .leases, .leases, _ => rfl
  | .executionCounts, .executionCounts, _ => rfl
  | .pipelineCounts, .pipelineCounts, _ => rfl
  | .queue _, .queue _, rfl => rfl
  | .taskIndex _, .taskIndex _, rfl => rfl
  | .status _, .status _, rfl => rfl
  | .idempotency _ _, .idempotency _ _, h =>
      have hjoined := RefKey.idempotency.inj (StoreKey.reference.inj h)
      exact congrArg (fun joined => base ++ "idempotency:" ++ Text.encodeKey joined) hjoined
  | .node _ _, .node _ _, rfl => rfl
  | .runExecutions _, .runExecutions _, rfl => rfl
  | .pipeline _, .pipeline _, rfl => rfl
  | .runs, .runs, _ => rfl
  | .pipelineIdempotency _ _, .pipelineIdempotency _ _, h =>
      have hjoined := StoreKey.runReference.inj h
      exact congrArg (fun joined => base ++ "pipeline-idempotency:" ++ Text.encodeKey joined)
        hjoined
  | .runStatus _, .runStatus _, rfl => rfl

/-- Two keys have one text exactly if they are one key of the typed keyspace. -/
theorem text_eq_iff {base : String} {k k' : Key} :
    k.text base = k'.text base ↔ k.typed = k'.typed := by
  constructor
  · intro h
    obtain ⟨hfamily, hargument⟩ := family_eq h
    exact typed_eq hfamily hargument
  · exact text_of_typed base

/-! ## Count fields -/

/-- A field of the two count hashes. -/
def countField (name status : String) : String := name ++ "\x00" ++ status

/-- `strings.SplitN` into at most two parts, for a separator of one character. -/
def splitN (text : String) (separator : Char) : List String :=
  match text.toList.span (· ≠ separator) with
  | (_, []) => [text]
  | (first, _ :: rest) => [String.ofList first, String.ofList rest]

/-- Why `strconv` refuses a number. -/
inductive NumError where
  | invalidSyntax
  | outOfRange
  deriving DecidableEq

def NumError.text : NumError → String
  | .invalidSyntax => "invalid syntax"
  | .outOfRange => "value out of range"

/-- The loop of `strconv.ParseUint` with base 10 and 64 bits. -/
def parseDigits (n : Nat) : List Char → Except NumError Nat
  | [] => .ok n
  | c :: rest =>
      if c.isDigit = true then
        if 2 ^ 64 ≤ 10 * n + (c.toNat - '0'.toNat) then .error .outOfRange
        else parseDigits (10 * n + (c.toNat - '0'.toNat)) rest
      else .error .invalidSyntax

def parseUint : List Char → Except NumError Nat
  | [] => .error .invalidSyntax
  | digits => parseDigits 0 digits

/-- The optional sign of a number, and whether it is a minus. -/
def cutSign : List Char → Bool × List Char
  | '+' :: digits => (false, digits)
  | '-' :: digits => (true, digits)
  | digits => (false, digits)

/-- `strconv.ParseInt` with base 10 and 64 bits. -/
def parseInt (text : String) : Except NumError Int :=
  let (neg, digits) := cutSign text.toList
  match parseUint digits with
  | .error err => .error err
  | .ok un =>
      if neg = false ∧ 2 ^ 63 ≤ un then .error .outOfRange
      else if neg = true ∧ 2 ^ 63 < un then .error .outOfRange
      else .ok (if neg then -un else un)

/-- The name, the status and the count of a field. -/
def parseCount (field rawCount : String) : Except GoError (String × String × Int) :=
  match splitN field '\x00' with
  | [name, status] =>
      match parseInt rawCount with
      | .error err => .error (.wrapped ("invalid redis count " ++ quoted rawCount)
          (.text ("strconv.ParseInt: parsing " ++ quoted rawCount ++ ": " ++ err.text)))
      | .ok count => .ok (name, status, count)
  | _ => .error (.text ("invalid redis count field " ++ quoted field))

/-- The first part ends at the first separator. -/
theorem splitN_joined {first : List Char} {separator : Char} (h : separator ∉ first)
    (rest : List Char) :
    splitN (String.ofList (first ++ separator :: rest)) separator =
      [String.ofList first, String.ofList rest] := by
  have hfirst : ∀ c ∈ first, decide (c ≠ separator) = true := by
    intro c hc
    exact decide_eq_true fun heq => h (heq ▸ hc)
  have hspan : (first ++ separator :: rest).span (· ≠ separator) = (first, separator :: rest) := by
    rw [List.span_eq_takeWhile_dropWhile, List.takeWhile_append_of_pos hfirst,
      List.dropWhile_append_of_pos hfirst]
    simp
  rw [splitN, String.toList_ofList, hspan]

theorem ofDigitChars_ge (digits : List Char) (n : Nat) : n ≤ Nat.ofDigitChars 10 digits n := by
  induction digits generalizing n with
  | nil => exact Nat.le_refl n
  | cons c rest ih =>
      rw [Nat.ofDigitChars_cons]
      have := ih (10 * n + (c.toNat - '0'.toNat))
      omega

/-- The loop reads every number that fits. -/
theorem parseDigits_eq {digits : List Char} (hdigits : ∀ c ∈ digits, c.isDigit = true) {n : Nat}
    (hfits : Nat.ofDigitChars 10 digits n < 2 ^ 64) :
    parseDigits n digits = .ok (Nat.ofDigitChars 10 digits n) := by
  induction digits generalizing n with
  | nil => rfl
  | cons c rest ih =>
      rw [Nat.ofDigitChars_cons] at hfits ⊢
      have hle := ofDigitChars_ge rest (10 * n + (c.toNat - '0'.toNat))
      rw [parseDigits, if_pos (hdigits c List.mem_cons_self), if_neg (by omega)]
      exact ih (fun d hd => hdigits d (List.mem_cons_of_mem c hd)) hfits

theorem parseUint_repr {n : Nat} (h : n < 2 ^ 64) : parseUint n.repr.toList = .ok n := by
  have hvalue : Nat.ofDigitChars 10 n.repr.toList 0 = n := by
    rw [Nat.toList_repr, Nat.ofDigitChars_ten_toDigits]
  have hread := parseDigits_eq (n := 0) (fun c hc => isDigit_of_mem_repr hc) (by rwa [hvalue])
  rw [hvalue] at hread
  cases hdigits : n.repr.toList with
  | nil => exact absurd (Nat.toList_repr ▸ hdigits) Nat.toDigits_ne_nil
  | cons c rest =>
      rw [hdigits] at hread
      exact hread

theorem cutSign_repr (n : Nat) : cutSign n.repr.toList = (false, n.repr.toList) := by
  unfold cutSign
  split
  · next heq => exact absurd (isDigit_of_mem_repr (heq ▸ List.mem_cons_self)) (by decide)
  · next heq => exact absurd (isDigit_of_mem_repr (heq ▸ List.mem_cons_self)) (by decide)
  · rfl

theorem parseInt_eq {text : String} {neg : Bool} {digits : List Char} {un : Nat}
    (hcut : cutSign text.toList = (neg, digits)) (hun : parseUint digits = .ok un)
    (hpositive : ¬ (neg = false ∧ 2 ^ 63 ≤ un)) (hnegative : ¬ (neg = true ∧ 2 ^ 63 < un)) :
    parseInt text = .ok (if neg then -un else un) := by
  simp only [parseInt, hcut, hun]
  rw [if_neg hpositive, if_neg hnegative]

/-- Every 64-bit number is read back from its decimal text. -/
theorem parseInt_toString (n : Int64) : parseInt (toString n.toInt) = .ok n.toInt := by
  have hlow := n.le_toInt
  have hhigh := n.toInt_lt
  cases hn : n.toInt with
  | ofNat m =>
      rw [hn, Int.ofNat_eq_natCast] at hhigh
      have hcut : cutSign (toString (Int.ofNat m)).toList = (false, m.repr.toList) := cutSign_repr m
      exact parseInt_eq hcut (parseUint_repr (by omega)) (by omega) (by simp)
  | negSucc m =>
      rw [hn, Int.negSucc_eq] at hlow
      have htext : (toString (Int.negSucc m)).toList = '-' :: (m + 1).repr.toList :=
        String.toList_append
      have hcut : cutSign (toString (Int.negSucc m)).toList = (true, (m + 1).repr.toList) := by
        rw [htext, cutSign]
      exact parseInt_eq hcut (parseUint_repr (by omega)) (by simp) (by omega)

/-- A count field is read back if its name does not contain the separator. -/
theorem parseCount_countField {name : String} (h : '\x00' ∉ name.toList) (status : String)
    (n : Int64) :
    parseCount (countField name status) (toString n.toInt) = .ok (name, status, n.toInt) := by
  have hfield : countField name status =
      String.ofList (name.toList ++ '\x00' :: status.toList) := by
    apply String.toList_inj.mp
    simp [countField]
  rw [parseCount, hfield, splitN_joined h, String.ofList_toList, String.ofList_toList]
  simp only [parseInt_toString]

end Ody.Redis
