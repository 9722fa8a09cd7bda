import Ody.Library.Delimited
import Ody.Task.Backoff

/-!
# Handlers and their registry

A binding joins a task definition to typed business logic, modules group bindings,
and a registry composes modules. A registry keeps its descriptors under the text
`name@vN`; a worker asks it for the pair of name and version.

## Implementation notes

The typed input and output of a handler are type variables with their JSON coding.
A binding that failed is its error. The fields of a module are not exported, so a
module is the zero value or a result of `newModule`.
-/

namespace Ody.Task

open Library.Tables Library.Delimited

/-! ## Definitions with defaults -/

/-- An `Option` of `New`. -/
abbrev Setting := Specification → Specification

def withVersion (version : Int) : Setting := fun spec => { spec with version := version }

def withMaxAttempts (attempts : Int) : Setting := fun spec => { spec with maxAttempts := attempts }

def withTimeout (timeout : Duration) : Setting := fun spec => { spec with timeout := timeout }

def withRetryPolicy (policy : Option RetryPolicy) : Setting :=
  fun spec => { spec with retry := policy }

/-- A policy on machine integers. -/
def policyOn64 (policy : Int64 → Int64) : RetryPolicy :=
  fun attempt => (policy (.ofInt attempt)).toInt

/-- The specification before the options; the policy doubles from 100ms to 30s. -/
def defaults (name : String) : Specification where
  name := trimSpace name
  version := 1
  maxAttempts := 3
  timeout := 0
  retry := some (policyOn64 (exponentialBackoff 100000000 30000000000))

/-- `New`; nil options are skipped. -/
def new (name : String) (options : List (Option Setting)) : Definition :=
  ⟨options.foldl (fun spec option => (option.getD id) spec) (defaults name)⟩

/-- The options with values that `Validate` accepts. -/
inductive Accepted : Setting → Prop
  | version {version : Int} : 0 < version → Accepted (withVersion version)
  | maxAttempts {attempts : Int} : 0 < attempts → Accepted (withMaxAttempts attempts)
  | timeout (timeout : Duration) : Accepted (withTimeout timeout)
  | retryPolicy (policy : RetryPolicy) : Accepted (withRetryPolicy (some policy))

theorem validate_eq_none {d : Definition} :
    d.validate = none ↔
      d.spec.name ≠ "" ∧ 0 < d.spec.version ∧ 0 < d.spec.maxAttempts ∧ d.spec.retry ≠ none := by
  unfold Definition.validate
  split_ifs with hname hversion hattempts hretry
  · simp [hname]
  · simp [not_lt.mpr hversion]
  · simp [not_lt.mpr hattempts]
  · simp [Option.isNone_iff_eq_none.mp hretry]
  · have hpolicy : d.spec.retry ≠ none := fun hnone => hretry (Option.isNone_iff_eq_none.mpr hnone)
    exact iff_of_true rfl ⟨hname, not_le.mp hversion, not_le.mp hattempts, hpolicy⟩

/-- The defaults pass their own checks. -/
theorem validate_defaults {name : String} (h : trimSpace name ≠ "") :
    Definition.validate ⟨defaults name⟩ = none := by
  simp [validate_eq_none, defaults, h]

theorem Accepted.validate {option : Setting} (h : Accepted option) {spec : Specification}
    (hspec : Definition.validate ⟨spec⟩ = none) : Definition.validate ⟨option spec⟩ = none := by
  rw [validate_eq_none] at hspec ⊢
  obtain ⟨hname, hversion, hattempts, hretry⟩ := hspec
  cases h with
  | version hpositive => exact ⟨hname, hpositive, hattempts, hretry⟩
  | maxAttempts hpositive => exact ⟨hname, hversion, hpositive, hretry⟩
  | timeout timeout => exact ⟨hname, hversion, hattempts, hretry⟩
  | retryPolicy policy => exact ⟨hname, hversion, hattempts, Option.some_ne_none policy⟩

/-- A definition with a name and accepted options is valid. -/
theorem validate_new {name : String} (hname : trimSpace name ≠ "") {options : List (Option Setting)}
    (h : ∀ option ∈ options, ∀ setting ∈ option, Accepted setting) :
    (new name options).validate = none := by
  unfold new
  have hstart := validate_defaults hname
  generalize defaults name = spec at hstart ⊢
  -- each option is applied to a specification that passes the checks
  induction options generalizing spec with
  | nil => exact hstart
  | cons option rest ih =>
      apply ih fun other hother => h other (List.mem_cons_of_mem option hother)
      cases option with
      | none => exact hstart
      | some setting => exact (h _ List.mem_cons_self setting rfl).validate hstart

/-! ## Errors of task code -/

/-- The errors of handlers. `wraps` is an error with a text of its own that unwraps to another
one. -/
inductive TaskError where
  | text (message : String)
  | wraps (message : String) (inner : TaskError)
  | joined (first second : TaskError)
  | permanent (inner : TaskError)
  | retryAfter (inner : TaskError) (delay : Duration)
  deriving DecidableEq, Repr

namespace TaskError

/-- `Error`. -/
def message : TaskError → String
  | .text message => message
  | .wraps message _ => message
  | .joined first second => first.message ++ "\n" ++ second.message
  | .permanent inner => inner.message
  | .retryAfter inner _ => inner.message

/-- `IsPermanent`: some error of the chain is permanent. -/
def isPermanent : TaskError → Bool
  | .text _ => false
  | .wraps _ inner => inner.isPermanent
  | .joined first second => first.isPermanent || second.isPermanent
  | .permanent _ => true
  | .retryAfter inner _ => inner.isPermanent

/-- `RetryDelay`: the first delay of the chain. -/
def retryDelay : TaskError → Option Duration
  | .text _ => none
  | .wraps _ inner => inner.retryDelay
  | .joined first second => first.retryDelay.or second.retryDelay
  | .permanent inner => inner.retryDelay
  | .retryAfter _ delay => some delay

end TaskError

def errUnknownTask : TaskError := .text "unknown task"

/-! ## Bindings -/

structure Message (I : Type) where
  executionID : String
  input : I
  attempt : Int
  maxAttempts : Int

/-- What a handler does: it returns, or it panics with a value and a stack. -/
inductive Outcome (O : Type) where
  | returned (value : Except TaskError O)
  | panicked (recovered stack : String)

/-- The coding of a type as JSON. -/
structure Codec (α : Type) where
  marshal : α → Except TaskError RawMessage
  unmarshal : RawMessage → Except TaskError α

structure Descriptor where
  name : String
  version : Int
  maxAttempts : Int
  timeout : Duration
  retry : RetryPolicy
  execute : Execution → Except TaskError RawMessage

/-- The routing identity of a descriptor. -/
def Descriptor.taskKey (d : Descriptor) : TaskKey := ⟨d.name, d.version⟩

abbrev Binding := Except GoError Descriptor

/-- The closure `execute` that `Handle` builds. -/
def executeWith {I O : Type} (inputs : Codec I) (outputs : Codec O) (name : String)
    (handler : Message I → Outcome O) (item : Execution) : Except TaskError RawMessage :=
  match inputs.unmarshal item.input with
  | .error err =>
      .error (.permanent (.wraps ("decode task " ++ quoted name ++ " input: " ++ err.message) err))
  | .ok input =>
      match handler ⟨uuidString item.id, input, item.attempt, item.maxAttempts⟩ with
      | .panicked recovered stack => .error (.text ("task panic: " ++ recovered ++ "\n" ++ stack))
      | .returned (.error err) => .error err
      | .returned (.ok value) =>
          match outputs.marshal value with
          | .error err => .error (.permanent
              (.wraps ("encode task " ++ quoted name ++ " output: " ++ err.message) err))
          | .ok output => .ok output

def handle {I O : Type} (inputs : Codec I) (outputs : Codec O) (definition : Definition)
    (handler : Option (Message I → Outcome O)) : Binding :=
  match definition.validate, handler, definition.spec.retry with
  | some err, _, _ => .error err
  | none, none, _ => .error (.text "task handler is nil")
  -- `validate` has rejected a nil policy
  | none, some _, none =>
      .error (.text ("task " ++ quoted definition.spec.name ++ " retry policy is nil"))
  | none, some handler, some retry => .ok {
      name := definition.spec.name
      version := definition.spec.version
      maxAttempts := definition.spec.maxAttempts
      timeout := definition.spec.timeout
      retry := retry
      execute := executeWith inputs outputs definition.spec.name handler }

section Handle

variable {I O : Type} {inputs : Codec I} {outputs : Codec O} {definition : Definition}
  {handler : Option (Message I → Outcome O)}

/-- A binding belongs to a valid definition, is routed to its name and version, and may be delivered
at least once. -/
theorem handle_ok {d : Descriptor} (h : handle inputs outputs definition handler = .ok d) :
    definition.validate = none ∧ handler ≠ none ∧ d.taskKey = ⟨definition.spec.name, definition.spec.version⟩ ∧
      0 < d.version ∧ 0 < d.maxAttempts := by
  unfold handle at h
  split at h
  · cases h
  · cases h
  · cases h
  · next hvalid _ =>
    cases h
    obtain ⟨-, hversion, hattempts, -⟩ := validate_eq_none.mp hvalid
    exact ⟨hvalid, Option.some_ne_none _, rfl, hversion, hattempts⟩

/-- `Handle` binds every handler to every valid definition. -/
theorem handle_ok_iff :
    (∃ d, handle inputs outputs definition handler = .ok d) ↔
      definition.validate = none ∧ handler ≠ none := by
  constructor
  · rintro ⟨d, hd⟩
    obtain ⟨hvalid, hhandler, -⟩ := handle_ok hd
    exact ⟨hvalid, hhandler⟩
  · rintro ⟨hvalid, hhandler⟩
    obtain ⟨-, -, -, hpolicy⟩ := validate_eq_none.mp hvalid
    obtain ⟨run, rfl⟩ := Option.ne_none_iff_exists'.mp hhandler
    obtain ⟨retry, hretry⟩ := Option.ne_none_iff_exists'.mp hpolicy
    unfold handle
    rw [hvalid, hretry]
    exact ⟨_, rfl⟩

end Handle

/-! ## Modules -/

def descriptorKey (name : String) (version : Int) : String := name ++ "@v" ++ toString version

structure Module where
  name : String
  bindings : List Descriptor

/-- The loop of `NewModule` with the keys it has seen. -/
def checkBindings (name : String) : List String → List Binding → Except GoError (List Descriptor)
  | _, [] => .ok []
  | _, .error err :: _ => .error err
  | seen, .ok d :: rest =>
      let key := descriptorKey d.name d.version
      if key ∈ seen then
        .error (.text ("module " ++ quoted name ++ " contains duplicate task " ++ quoted key))
      else (checkBindings name (key :: seen) rest).map (d :: ·)

def newModule (name : String) (bindings : List Binding) : Except GoError Module :=
  let name := trimSpace name
  if name = "" then .error (.text "module name is empty")
  else (checkBindings name [] bindings).map (Module.mk name)

/-- A module that `NewModule` has returned. -/
def Module.Valid (m : Module) : Prop := ∃ name bindings, newModule name bindings = .ok m

theorem Module.Valid.name_ne {m : Module} (h : m.Valid) : m.name ≠ "" := by
  obtain ⟨name, bindings, hnew⟩ := h
  simp only [newModule] at hnew
  split at hnew
  · cases hnew
  · next hname =>
    cases hcheck : checkBindings (trimSpace name) [] bindings with
    | error err =>
        rw [hcheck] at hnew
        cases hnew
    | ok descriptors =>
        rw [hcheck] at hnew
        cases hnew
        exact hname

/-! ## The registry -/

structure Registry where
  tasks : Table String Descriptor
  keys : List TaskKey

/-- The variables of the loops in `NewRegistry`. -/
structure Registration where
  tasks : Table String Descriptor
  owners : Table String String
  keys : List TaskKey

/-- The body of the inner loop of `NewRegistry`. -/
def registerBinding (moduleName : String) (r : Registration) (d : Descriptor) :
    Except GoError Registration :=
  let key := descriptorKey d.name d.version
  match r.owners.lookup key with
  | some owner => .error (.text ("task " ++ quoted key ++ " is registered by modules " ++
      quoted owner ++ " and " ++ quoted moduleName))
  | none => .ok {
      tasks := r.tasks.insert key d
      owners := r.owners.insert key moduleName
      keys := r.keys ++ [⟨d.name, d.version⟩] }

/-- The body of the outer loop of `NewRegistry`. -/
def registerModule (r : Registration) (m : Module) : Except GoError Registration :=
  if m.name = "" then .error (.text "invalid zero-value module")
  else m.bindings.foldlM (registerBinding m.name) r

/-- The order of `Keys`. -/
def keyLess (a b : TaskKey) : Bool :=
  if a.name = b.name then a.version < b.version else a.name < b.name

def newRegistry (modules : List Module) : Except GoError Registry :=
  (modules.foldlM registerModule ⟨∅, ∅, []⟩).map fun r =>
    ⟨r.tasks, r.keys.insertionSort fun a b => keyLess b a = false⟩

def Registry.execute (r : Registry) (item : Execution) : Except TaskError RawMessage :=
  match r.tasks.lookup (descriptorKey item.taskName item.taskVersion) with
  | none => .error (.permanent (.wraps (errUnknownTask.message ++ ": " ++ item.taskName ++ "@v" ++
      toString item.taskVersion) errUnknownTask))
  | some d => d.execute item

/-- `Registry.Policy`: the attempts, the timeout and the retry policy of a registered task. -/
def Registry.policy (r : Registry) (name : String) (version : Int) :
    Option (Int × Duration × RetryPolicy) :=
  (r.tasks.lookup (descriptorKey name version)).map fun d => (d.maxAttempts, d.timeout, d.retry)

/-! ## The text of a key -/

theorem descriptorKey_toList (name : String) (version : Int) :
    (descriptorKey name version).toList = name.toList ++ '@' :: 'v' :: version.repr.toList := by
  simp [descriptorKey, Int.toString_eq_repr]

/-- A number is written with digits and a sign. -/
theorem at_notMem_repr (version : Int) : '@' ∉ version.repr.toList := by
  cases version with
  | ofNat n => exact notMem_repr n (by decide)
  | negSucc n =>
      intro hmem
      have hsign : '@' ∈ '-' :: (n + 1).repr.toList := by simpa [Int.repr] using hmem
      exact notMem_repr (n + 1) (by decide) (List.mem_of_ne_of_mem (by decide) hsign)

/-- Whatever the name contains, the key determines the name and the version: the version follows the
last delimiter. -/
theorem descriptorKey_inj {name name' : String} {version version' : Int}
    (h : descriptorKey name version = descriptorKey name' version') :
    name = name' ∧ version = version' := by
  have htext := congrArg String.toList h
  rw [descriptorKey_toList, descriptorKey_toList] at htext
  obtain ⟨hname, hversion⟩ :=
    split_last_unique (by simp [at_notMem_repr]) (by simp [at_notMem_repr]) htext
  refine ⟨String.toList_inj.mp hname, Int.repr_inj.mp (String.toList_inj.mp ?_)⟩
  exact (List.cons.inj hversion).2

theorem Descriptor.key_eq_iff {d d' : Descriptor} :
    descriptorKey d.name d.version = descriptorKey d'.name d'.version ↔ d.taskKey = d'.taskKey := by
  constructor
  · intro h
    obtain ⟨hname, hversion⟩ := descriptorKey_inj h
    rw [Descriptor.taskKey, Descriptor.taskKey, hname, hversion]
  · intro h
    obtain ⟨hname, hversion⟩ := TaskKey.mk.inj h
    rw [hname, hversion]

/-! ## Registration -/

/-- The loops have registered these descriptors, each under its own key. -/
structure Registered (r : Registration) (done : List Descriptor) : Prop where
  keys : r.keys = done.map (·.taskKey)
  nodup : (done.map (·.taskKey)).Nodup
  owners : ∀ d : Descriptor,
    descriptorKey d.name d.version ∈ r.owners ↔ d.taskKey ∈ done.map (·.taskKey)
  tasks : ∀ d ∈ done, r.tasks.lookup (descriptorKey d.name d.version) = some d

theorem Registered.start : Registered ⟨∅, ∅, []⟩ [] :=
  ⟨rfl, List.nodup_nil, by simp, by simp⟩

section Registration

variable {r r' : Registration} {done : List Descriptor}

/-- One round registers a descriptor with a new key. -/
theorem registerBinding_ok {moduleName : String} {d : Descriptor} (h : Registered r done)
    (hok : registerBinding moduleName r d = .ok r') : Registered r' (done ++ [d]) := by
  simp only [registerBinding] at hok
  split at hok
  · cases hok
  · next howner =>
    cases hok
    have hfree : descriptorKey d.name d.version ∉ r.owners := AList.lookup_eq_none.mp howner
    have hnew : d.taskKey ∉ done.map (·.taskKey) := fun hmem => hfree ((h.owners d).mpr hmem)
    refine ⟨?_, ?_, fun other => ?_, fun other hother => ?_⟩
    · rw [h.keys, List.map_append]
      rfl
    · rw [List.map_append]
      exact h.nodup.append (List.nodup_singleton _) (by simpa using hnew)
    · rw [AList.mem_insert, h.owners, Descriptor.key_eq_iff, List.map_append, List.mem_append,
        List.map_singleton, List.mem_singleton, or_comm]
    · rw [lookup_insert_ite]
      rcases List.mem_append.mp hother with hold | hlast
      · have hne : descriptorKey other.name other.version ≠ descriptorKey d.name d.version := by
          rw [Ne, Descriptor.key_eq_iff]
          exact fun heq => hnew (heq ▸ List.mem_map_of_mem hold)
        rw [if_neg hne]
        exact h.tasks other hold
      · rw [List.mem_singleton.mp hlast, if_pos rfl]

theorem registerBinding_error {moduleName : String} {d : Descriptor} {err : GoError}
    (h : Registered r done) (herr : registerBinding moduleName r d = .error err) :
    d.taskKey ∈ done.map (·.taskKey) := by
  simp only [registerBinding] at herr
  split at herr
  · next owner howner =>
    rw [← h.owners, ← AList.lookup_isSome, howner]
    rfl
  · cases herr

/-- The inner loop registers all bindings, or two of the keys are equal. -/
theorem registerBindings_spec (moduleName : String) (bindings : List Descriptor)
    (h : Registered r done) :
    match bindings.foldlM (registerBinding moduleName) r with
    | .ok r' => Registered r' (done ++ bindings)
    | .error _ => ¬((done ++ bindings).map (·.taskKey)).Nodup := by
  induction bindings generalizing r done with
  | nil => simpa [List.foldlM, pure, Except.pure] using h
  | cons d rest ih =>
      rw [List.foldlM_cons]
      cases hd : registerBinding moduleName r d with
      | error err =>
          intro hnodup
          rw [List.map_append, List.map_cons] at hnodup
          exact (List.nodup_append.mp hnodup).2.2 _ (registerBinding_error h hd) _
            (List.mem_cons_self ..) rfl
      | ok middle =>
          have hrest := ih (registerBinding_ok h hd)
          rw [List.append_assoc, List.singleton_append] at hrest
          exact hrest

/-- The descriptors of a list of modules. -/
def bound (modules : List Module) : List Descriptor := modules.flatMap (·.bindings)

/-- The outer loop registers all bindings, or it fails on a zero module or on two equal keys. -/
theorem registerModules_spec (modules : List Module) (h : Registered r done) :
    match modules.foldlM registerModule r with
    | .ok r' => Registered r' (done ++ bound modules)
    | .error _ => (∃ m ∈ modules, m.name = "") ∨
        ¬((done ++ bound modules).map (·.taskKey)).Nodup := by
  induction modules generalizing r done with
  | nil => simpa [bound, List.foldlM, pure, Except.pure] using h
  | cons m rest ih =>
      rw [List.foldlM_cons, registerModule]
      by_cases hzero : m.name = ""
      · rw [if_pos hzero]
        exact Or.inl ⟨m, List.mem_cons_self .., hzero⟩
      · rw [if_neg hzero]
        have hbindings := registerBindings_spec m.name m.bindings h
        have hbound : done ++ bound (m :: rest) = done ++ m.bindings ++ bound rest := by
          simp [bound]
        cases hloop : m.bindings.foldlM (registerBinding m.name) r with
        | error err =>
            rw [hloop] at hbindings
            refine Or.inr fun hnodup => hbindings ?_
            rw [hbound, List.map_append] at hnodup
            exact hnodup.of_append_left
        | ok middle =>
            rw [hloop] at hbindings
            have hrest := ih hbindings
            rw [← hbound] at hrest
            change match rest.foldlM registerModule middle with
              | .ok r' => Registered r' (done ++ bound (m :: rest))
              | .error _ => (∃ m' ∈ m :: rest, m'.name = "") ∨
                  ¬((done ++ bound (m :: rest)).map (·.taskKey)).Nodup
            cases htail : rest.foldlM registerModule middle with
            | ok r' =>
                rw [htail] at hrest
                exact hrest
            | error err =>
                rw [htail] at hrest
                exact hrest.imp (fun ⟨m', hm', hname⟩ => ⟨m', List.mem_cons_of_mem m hm', hname⟩) id

end Registration

/-! ## Accepted modules -/

theorem keyLess_iff {a b : TaskKey} :
    keyLess a b = true ↔ toLex (a.name, a.version) < toLex (b.name, b.version) := by
  rw [keyLess, Prod.Lex.toLex_lt_toLex]
  split
  · next heq => simp [heq]
  · next hne => simp [hne]

theorem not_keyLess_iff {a b : TaskKey} :
    keyLess b a = false ↔ toLex (a.name, a.version) ≤ toLex (b.name, b.version) := by
  rw [← not_lt, ← keyLess_iff, Bool.not_eq_true]

instance : Std.Total fun a b : TaskKey => keyLess b a = false where
  total a b := by
    rw [not_keyLess_iff, not_keyLess_iff]
    exact le_total _ _

instance : IsTrans TaskKey fun a b => keyLess b a = false where
  trans a b c := by
    rw [not_keyLess_iff, not_keyLess_iff, not_keyLess_iff]
    exact le_trans

section Accepted

variable {modules : List Module} {r : Registry}

theorem newRegistry_error_iff (hvalid : ∀ m ∈ modules, m.Valid) :
    (∃ err, newRegistry modules = .error err) ↔ ¬((bound modules).map (·.taskKey)).Nodup := by
  have hspec := registerModules_spec modules Registered.start
  rw [newRegistry]
  cases hloop : modules.foldlM registerModule ⟨∅, ∅, []⟩ with
  | ok registration =>
      rw [hloop] at hspec
      have hnodup : ((bound modules).map (·.taskKey)).Nodup := hspec.nodup
      simp [Except.map, hnodup]
  | error err =>
      rw [hloop] at hspec
      have hdup := hspec.resolve_left fun ⟨m, hm, hname⟩ => (hvalid m hm).name_ne hname
      exact iff_of_true ⟨err, rfl⟩ hdup

theorem newRegistry_registered (h : newRegistry modules = .ok r) :
    ∃ registration, Registered registration (bound modules) ∧ r.tasks = registration.tasks ∧
      r.keys = registration.keys.insertionSort fun a b => keyLess b a = false := by
  have hspec := registerModules_spec modules Registered.start
  rw [newRegistry] at h
  cases hloop : modules.foldlM registerModule ⟨∅, ∅, []⟩ with
  | ok registration =>
      rw [hloop] at hspec h
      cases h
      exact ⟨registration, hspec, rfl, rfl⟩
  | error err =>
      rw [hloop] at h
      cases h

theorem mem_keys (h : newRegistry modules = .ok r) (key : TaskKey) :
    key ∈ r.keys ↔ ∃ d ∈ bound modules, d.taskKey = key := by
  obtain ⟨registration, hregistered, -, hkeys⟩ := newRegistry_registered h
  rw [hkeys, List.mem_insertionSort, hregistered.keys, List.mem_map]

/-- The keys are strictly sorted by name and version. -/
theorem keys_sorted (h : newRegistry modules = .ok r) :
    r.keys.Pairwise fun a b => keyLess a b = true := by
  obtain ⟨registration, hregistered, -, hkeys⟩ := newRegistry_registered h
  have hsorted : r.keys.Pairwise fun a b => keyLess b a = false := by
    rw [hkeys]
    exact List.pairwise_insertionSort _ _
  have hnodup : r.keys.Nodup := by
    rw [hkeys, (List.perm_insertionSort _ _).nodup_iff, hregistered.keys]
    exact hregistered.nodup
  refine (hsorted.and hnodup).imp fun {a b} hab => ?_
  rw [not_keyLess_iff] at hab
  rw [keyLess_iff]
  refine lt_of_le_of_ne hab.1 fun heq => hab.2 ?_
  obtain ⟨hname, hversion⟩ := Prod.mk.inj (toLex.injective heq)
  cases a
  cases b
  rw [TaskKey.mk.injEq]
  exact ⟨hname, hversion⟩

/-- The registry finds every descriptor under its own name and version. -/
theorem lookup_tasks (h : newRegistry modules = .ok r) {d : Descriptor} (hd : d ∈ bound modules) :
    r.tasks.lookup (descriptorKey d.name d.version) = some d := by
  obtain ⟨registration, hregistered, htasks, -⟩ := newRegistry_registered h
  rw [htasks]
  exact hregistered.tasks d hd

end Accepted

end Ody.Task
