import Mathlib.Data.List.Induction
import Mathlib.Data.List.TakeDrop
import Ody.Task.Definition

/-!
# The scheduler

`Scheduler` polls the clock and fires the instants of cron schedules. It keeps
the next instant of each definition by name. `initialize` recovers instants of a
lookback window, and each `tick` fires what has become due since. A cron schedule
is its function `Next`; the instants passed to `fire` are listed in order.
-/

namespace Ody.Schedule

open Library.Tables

inductive MisfirePolicy where
  | skip
  | latest
  | catchUp
  deriving DecidableEq, Repr

/-- The options that `initialize` and `tick` read. -/
structure DefinitionOptions where
  misfire : MisfirePolicy
  lookback : Duration
  maxCatchUp : Int

structure Definition where
  name : String
  schedule : Time → Time
  options : DefinitionOptions

/-- The options while a definition is built, with the name of the location that is not nil. -/
structure Settings extends DefinitionOptions where
  location : Option String

/-- `newDefinition` with the options that are not nil and the parser of cron expressions. -/
def newDefinition (parse : String → Except GoError (Time → Time)) (name expression : String)
    (options : List (Settings → Settings)) : Except GoError Definition :=
  if trimSpace name = "" then .error (.text "schedule name is empty")
  else
    let configured := options.foldl (fun configured option => option configured)
      ⟨⟨.skip, 0, 100⟩, some "UTC"⟩
    match configured.location with
    | none => .error (.text "schedule location is nil")
    | some location =>
        match parse ("CRON_TZ=" ++ location ++ " " ++ expression) with
        | .error err => .error (.wrapped ("parse schedule " ++ quoted (trimSpace name)) err)
        | .ok parsed => .ok ⟨trimSpace name, parsed, configured.toDefinitionOptions⟩

/-- The schedule of an accepted definition is what the parser returned. -/
theorem newDefinition_parsed {parse : String → Except GoError (Time → Time)}
    {name expression : String} {options : List (Settings → Settings)} {d : Definition}
    (h : newDefinition parse name expression options = .ok d) :
    ∃ text, parse text = .ok d.schedule := by
  unfold newDefinition at h
  split at h
  · cases h
  · dsimp only at h
    split at h
    · cases h
    · next location _ =>
      split at h
      · cases h
      · next parsed hparsed =>
        cases h
        exact ⟨_, hparsed⟩

/-- The limit of one call of `occurrences`. -/
def catchUpLimit (limit : Int) : Nat := (if limit ≤ 0 then 100 else limit).toNat

/-- The loop of `occurrences` with the room that is left in the result. -/
def occurrencesLoop (schedule : Time → Time) (through : Time) : Nat → Time → List Time
  | 0, _ => []
  | room + 1, next =>
      if next ≤ through then next :: occurrencesLoop schedule through room (schedule next) else []

def occurrences (schedule : Time → Time) (after through : Time) (limit : Int) : List Time :=
  occurrencesLoop schedule through (catchUpLimit limit) (schedule after)

theorem catchUpLimit_pos (limit : Int) : 0 < catchUpLimit limit := by
  unfold catchUpLimit
  split <;> omega

theorem occurrencesLoop_length_le (schedule : Time → Time) (through : Time) (room : Nat)
    (next : Time) : (occurrencesLoop schedule through room next).length ≤ room := by
  induction room generalizing next with
  | zero => exact le_rfl
  | succ room ih =>
      rw [occurrencesLoop]
      split
      · exact Nat.succ_le_succ (ih _)
      · exact Nat.zero_le _

/-- The slice `due[len(due)-1:]` if there are several instants. -/
def latestOnly (due : List Time) : List Time :=
  if 1 < due.length then due.drop (due.length - 1) else due

@[simp] theorem latestOnly_nil : latestOnly [] = [] := rfl

theorem latestOnly_eq {due : List Time} (h : due ≠ []) : latestOnly due = [due.getLast h] := by
  unfold latestOnly
  split
  · exact List.drop_length_sub_one h
  · next hlength =>
    obtain ⟨x, rfl⟩ : ∃ x, due = [x] := by
      have hpos := List.length_pos_of_ne_nil h
      exact List.length_eq_one_iff.mp (by omega)
    rfl

theorem latestOnly_eq_nil_iff {due : List Time} : latestOnly due = [] ↔ due = [] := by
  by_cases hnil : due = []
  · rw [hnil, latestOnly_nil]
  · simp [latestOnly_eq hnil, hnil]

theorem latestOnly_subset (due : List Time) : latestOnly due ⊆ due := by
  unfold latestOnly
  split
  · exact List.drop_subset _ due
  · exact List.Subset.refl due

/-- The instants of the lookback window that `initialize` fires. -/
def Definition.recovered (d : Definition) (now : Time) : List Time :=
  if 0 < d.options.lookback ∧ d.options.misfire ≠ .skip then
    let due := occurrences d.schedule (now - d.options.lookback) now d.options.maxCatchUp
    if d.options.misfire = .latest then latestOnly due else due
  else []

/-- The instants that `tick` fires when the next instant is due. -/
def Definition.due (d : Definition) (next now : Time) : List Time :=
  let due := occurrences d.schedule (next - 1) now d.options.maxCatchUp
  if d.options.misfire = .latest then latestOnly due
  else if d.options.misfire = .skip then latestOnly due
  else due

/-- One call of `fire`. -/
structure Fire where
  name : String
  scheduledAt : Time
  deriving DecidableEq, Repr

/-- The definitions, with distinct names, and the next instant of each. -/
structure Scheduler where
  definitions : List Definition
  next : Table String Time
  names_nodup : (definitions.map (·.name)).Nodup

/-- The checks of `New` on the names of the definitions. -/
def checkNames (seen : List String) : List Definition → Option GoError
  | [] => none
  | d :: rest =>
      if d.name = "" then some (.text "invalid schedule definition")
      else if d.name ∈ seen then some (.text ("duplicate schedule " ++ quoted d.name))
      else checkNames (d.name :: seen) rest

theorem checkNames_nodup {seen : List String} {definitions : List Definition}
    (h : checkNames seen definitions = none) :
    (definitions.map (·.name)).Nodup ∧ ∀ d ∈ definitions, d.name ∉ seen := by
  induction definitions generalizing seen with
  | nil => simp
  | cons d rest ih =>
      simp only [checkNames] at h
      repeat' split at h
      · cases h
      · cases h
      · next hname hseen =>
        obtain ⟨hnodup, hrest⟩ := ih h
        simp only [List.mem_cons, not_or] at hrest
        constructor
        · refine List.nodup_cons.mpr ⟨?_, hnodup⟩
          intro hmem
          obtain ⟨other, hother, heq⟩ := List.mem_map.mp hmem
          exact (hrest other hother).1 heq
        · intro other hmem
          rcases List.mem_cons.mp hmem with rfl | hother
          · exact hseen
          · exact (hrest other hother).2

/-- `New` for a store and definitions that have a trigger. -/
def new (definitions : List Definition) : Except GoError Scheduler :=
  match h : checkNames [] definitions with
  | some err => .error err
  | none => .ok ⟨definitions, ∅, (checkNames_nodup h).1⟩

/-- The loop over the definitions. A round reads the next instant of its definition; it does nothing
or fires instants and stores a new next instant. -/
def eachDefinition (round : Definition → Time → Option (List Time × Time)) :
    List Definition → Table String Time → List Fire × Table String Time
  | [], next => ([], next)
  | d :: rest, next =>
      match round d ((next.lookup d.name).getD zeroTime) with
      | none => eachDefinition round rest next
      | some (due, following) =>
          let result := eachDefinition round rest (next.insert d.name following)
          (due.map (Fire.mk d.name) ++ result.1, result.2)

namespace Scheduler

/-- The instant stored for a name. -/
def nextOf (s : Scheduler) (name : String) : Time := (s.next.lookup name).getD zeroTime

/-- One pass over the definitions under the mutex. -/
def pass (s : Scheduler) (round : Definition → Time → Option (List Time × Time)) :
    List Fire × Scheduler :=
  let result := eachDefinition round s.definitions s.next
  (result.1, { s with next := result.2 })

/-- `initialize`. -/
def initializeAt (s : Scheduler) (now : Time) : List Fire × Scheduler :=
  s.pass fun d _ => some (d.recovered now, d.schedule now)

def tick (s : Scheduler) (now : Time) : List Fire × Scheduler :=
  s.pass fun d next => if now < next then none else some (d.due next now, d.schedule now)

/-- `Run` for the clock values of its start and of its ticks. -/
def run (s : Scheduler) (start : Time) (ticks : List Time) : List Fire × Scheduler :=
  ticks.foldl (fun state now => (state.1 ++ (state.2.tick now).1, (state.2.tick now).2))
    (s.initializeAt start)

theorem run_concat (s : Scheduler) (start : Time) (ticks : List Time) (now : Time) :
    s.run start (ticks ++ [now]) =
      ((s.run start ticks).1 ++ ((s.run start ticks).2.tick now).1,
        ((s.run start ticks).2.tick now).2) := by
  rw [run, List.foldl_append]
  rfl

end Scheduler

/-! ## One definition -/

/-- The instants fired for a name. -/
def instants (name : String) (fires : List Fire) : List Time :=
  fires.filterMap fun fire => if fire.name = name then some fire.scheduledAt else none

theorem instants_append (name : String) (fires more : List Fire) :
    instants name (fires ++ more) = instants name fires ++ instants name more :=
  List.filterMap_append

theorem instants_own (name : String) (due : List Time) :
    instants name (due.map (Fire.mk name)) = due := by
  simp [instants, List.filterMap_map]

theorem instants_other {name other : String} (h : other ≠ name) (due : List Time) :
    instants name (due.map (Fire.mk other)) = [] := by
  simp [instants, List.filterMap_map, h]

section Pass

variable (round : Definition → Time → Option (List Time × Time))

/-- The rounds of other definitions fire and store nothing for a name. -/
theorem eachDefinition_other {name : String} {definitions : List Definition}
    (h : ∀ d ∈ definitions, d.name ≠ name) (next : Table String Time) :
    instants name (eachDefinition round definitions next).1 = [] ∧
      (eachDefinition round definitions next).2.lookup name = next.lookup name := by
  induction definitions generalizing next with
  | nil => exact ⟨rfl, rfl⟩
  | cons d rest ih =>
      have hd : d.name ≠ name := h d (by simp)
      have hrest : ∀ other ∈ rest, other.name ≠ name :=
        fun other hmem => h other (List.mem_cons_of_mem _ hmem)
      simp only [eachDefinition]
      cases round d ((next.lookup d.name).getD zeroTime) with
      | none => exact ih hrest next
      | some result =>
          obtain ⟨hfires, hnext⟩ := ih hrest (next.insert d.name result.2)
          constructor
          · dsimp only
            rw [instants_append, instants_other hd, hfires, List.append_nil]
          · dsimp only
            rw [hnext, AList.lookup_insert_ne (Ne.symm hd)]

/-- The loop does for each definition what its own round does. -/
theorem eachDefinition_own {d : Definition} {definitions : List Definition}
    (hnodup : (definitions.map (·.name)).Nodup) (hd : d ∈ definitions) {next : Table String Time}
    {entry : Time} (hentry : (next.lookup d.name).getD zeroTime = entry) :
    instants d.name (eachDefinition round definitions next).1 = (round d entry).elim [] (·.1) ∧
      ((eachDefinition round definitions next).2.lookup d.name).getD zeroTime =
        (round d entry).elim entry (·.2) := by
  induction definitions generalizing next with
  | nil => cases hd
  | cons first rest ih =>
      rw [List.map_cons, List.nodup_cons] at hnodup
      obtain ⟨hfirst, hrest⟩ := hnodup
      rcases List.mem_cons.mp hd with rfl | hmem
      · have hothers : ∀ other ∈ rest, other.name ≠ d.name :=
          fun other hother heq => hfirst (heq ▸ List.mem_map_of_mem hother)
        simp only [eachDefinition, hentry]
        cases round d entry with
        | none =>
            obtain ⟨hfires, hnext⟩ := eachDefinition_other round hothers next
            exact ⟨hfires, by rw [hnext]; exact hentry⟩
        | some result =>
            obtain ⟨hfires, hnext⟩ :=
              eachDefinition_other round hothers (next.insert d.name result.2)
            constructor
            · simp [instants_append, instants_own, hfires]
            · simp [hnext]
      · have hne : first.name ≠ d.name :=
          fun heq => hfirst (heq ▸ List.mem_map_of_mem hmem)
        simp only [eachDefinition]
        cases round first ((next.lookup first.name).getD zeroTime) with
        | none => exact ih hrest hmem hentry
        | some result =>
            have hkept : ((next.insert first.name result.2).lookup d.name).getD zeroTime = entry := by
              rw [AList.lookup_insert_ne (Ne.symm hne)]
              exact hentry
            obtain ⟨hfires, hnext⟩ := ih hrest hmem hkept
            refine ⟨?_, hnext⟩
            dsimp only
            rw [instants_append, instants_other hne, List.nil_append, hfires]

end Pass

namespace Scheduler

variable {s : Scheduler} {d : Definition}

theorem run_definitions (s : Scheduler) (start : Time) (ticks : List Time) :
    (s.run start ticks).2.definitions = s.definitions := by
  induction ticks using List.reverseRecOn with
  | nil => rfl
  | append_singleton ticks now ih =>
      rw [run_concat]
      exact ih

theorem initializeAt_own (hd : d ∈ s.definitions) (now : Time) :
    instants d.name (s.initializeAt now).1 = d.recovered now ∧
      (s.initializeAt now).2.nextOf d.name = d.schedule now :=
  eachDefinition_own _ s.names_nodup hd rfl

/-- A tick before the next instant does nothing. -/
theorem tick_early (hd : d ∈ s.definitions) {now : Time} (h : now < s.nextOf d.name) :
    instants d.name (s.tick now).1 = [] ∧ (s.tick now).2.nextOf d.name = s.nextOf d.name := by
  have hround := eachDefinition_own
    (fun d next => if now < next then none else some (d.due next now, d.schedule now))
    s.names_nodup hd (show _ = s.nextOf d.name from rfl)
  rw [if_pos h] at hround
  exact hround

/-- A tick at or after the next instant fires what is due. -/
theorem tick_due (hd : d ∈ s.definitions) {now : Time} (h : s.nextOf d.name ≤ now) :
    instants d.name (s.tick now).1 = d.due (s.nextOf d.name) now ∧
      (s.tick now).2.nextOf d.name = d.schedule now := by
  have hround := eachDefinition_own
    (fun d next => if now < next then none else some (d.due next now, d.schedule now))
    s.names_nodup hd (show _ = s.nextOf d.name from rfl)
  rw [if_neg (not_lt.mpr h)] at hround
  exact hround

end Scheduler

end Ody.Schedule
