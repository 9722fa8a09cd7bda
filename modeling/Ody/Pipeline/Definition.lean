import Ody.Task.Definition

/-!
# Pipeline definitions

A pipeline is a list of nodes in declaration order. `validate` accepts it when
every dependency is declared before its node, so a compiled definition carries
the proof that declaration order is topological order.

## Implementation notes

A mapper stands for the composition of the JSON decoding of its arguments, the
typed mapper and the encoding of its result, any of which may fail. A nil mapper
is rejected by `validate`. `validate` trims the node keys in place; here it
returns the trimmed nodes.
-/

namespace Ody.Pipeline

open Library.Tables

/-- What a mapper does. -/
inductive Built where
  | ok (input : RawMessage)
  | error (err : GoError)
  | panic (message : String)
  deriving DecidableEq, Repr

/-- Where the input of a node comes from. -/
inductive Mapper where
  | start (mapper : Option (RawMessage → Built))
  | next (previous : String) (mapper : Option (RawMessage → Built))
  | join2 (first second : String) (mapper : Option (RawMessage → RawMessage → Built))

/-- The call of a mapper; a nil function panics. -/
def callMapper {α : Type} (mapper : Option (α → Built)) (value : α) : Built :=
  match mapper with
  | some f => f value
  | none => .panic "runtime error: invalid memory address or nil pointer dereference"

structure NodeDefinition where
  key : String
  taskName : String
  taskVersion : Int
  maxAttempts : Int
  mapper : Mapper
  err : Option GoError

/-- The nodes whose stored outputs the mapper reads. -/
def NodeDefinition.dependencies (node : NodeDefinition) : List String :=
  match node.mapper with
  | .start _ => []
  | .next previous _ => [previous]
  | .join2 first second _ => [first, second]

/-- Build the input of a node. A read of `outputs` at a missing key is the nil message. -/
def NodeDefinition.buildInput (node : NodeDefinition) (initial : RawMessage)
    (outputs : String → RawMessage) : Built :=
  match node.mapper with
  | .start mapper => callMapper mapper initial
  | .next previous mapper => callMapper mapper (outputs previous)
  | .join2 first second mapper =>
      callMapper (mapper.map fun f pair => f pair.1 pair.2) (outputs first, outputs second)

/-- Mappers read the outputs of their dependencies only. -/
theorem NodeDefinition.buildInput_congr (node : NodeDefinition) (initial : RawMessage)
    {outputs outputs' : String → RawMessage}
    (h : ∀ key ∈ node.dependencies, outputs key = outputs' key) :
    node.buildInput initial outputs = node.buildInput initial outputs' := by
  unfold NodeDefinition.buildInput
  unfold NodeDefinition.dependencies at h
  split
  · rfl
  · next previous mapper hmapper =>
    rw [hmapper] at h
    rw [h previous (by simp)]
  · next first second mapper hmapper =>
    rw [hmapper] at h
    rw [h first (by simp), h second (by simp)]

structure Definition where
  name : String
  version : Int
  nodes : List NodeDefinition

/-- A reference to the stored output of a node. -/
structure Node where
  key : String
  pipelineName : String
  pipelineVersion : Int
  deriving DecidableEq, Repr

/-- `New`. -/
def newDefinition (name : String) (version : Int) : Definition := ⟨trimSpace name, version, []⟩

def reference (pipeline : Definition) (key : String) : Node :=
  ⟨key, pipeline.name, pipeline.version⟩

def belongsTo (pipeline : Definition) (node : Node) : Bool :=
  node.pipelineName == pipeline.name && node.pipelineVersion == pipeline.version

def newNode (key : String) (definition : Task.Definition) (mapper : Mapper)
    (validationErr : Option GoError) : NodeDefinition where
  key := key
  taskName := definition.spec.name
  taskVersion := definition.spec.version
  maxAttempts := definition.spec.maxAttempts
  mapper := mapper
  err := validationErr

/-- The error a node keeps: a later check overwrites the result of an earlier one. -/
def nodeError (definition : Task.Definition) (mapperNil foreign : Bool) : Option GoError :=
  if foreign then some (.text "pipeline node dependency belongs to another pipeline")
  else if mapperNil then some (.text "pipeline node mapper is nil")
  else definition.validate

def start (pipeline : Definition) (key : String) (definition : Task.Definition)
    (mapper : Option (RawMessage → Built)) : Node × Definition :=
  (reference pipeline key,
    { pipeline with
      nodes := pipeline.nodes ++
        [newNode key definition (.start mapper) (nodeError definition mapper.isNone false)] })

/-- `Then`. -/
def thenNode (pipeline : Definition) (previous : Node) (key : String)
    (definition : Task.Definition) (mapper : Option (RawMessage → Built)) : Node × Definition :=
  (reference pipeline key,
    { pipeline with
      nodes := pipeline.nodes ++
        [newNode key definition (.next previous.key mapper)
          (nodeError definition mapper.isNone (!belongsTo pipeline previous))] })

def join2 (pipeline : Definition) (first second : Node) (key : String)
    (definition : Task.Definition) (mapper : Option (RawMessage → RawMessage → Built)) :
    Node × Definition :=
  (reference pipeline key,
    { pipeline with
      nodes := pipeline.nodes ++
        [newNode key definition (.join2 first.key second.key mapper)
          (nodeError definition mapper.isNone
            (!belongsTo pipeline first || !belongsTo pipeline second))] })

/-! ## Validation -/

/-- The loop of `validate` over the nodes. -/
def validateNodes (seen : List String) : List NodeDefinition → Except GoError (List NodeDefinition)
  | [] => .ok []
  | node :: rest =>
      match node.err with
      | some err => .error (.wrapped ("pipeline node " ++ quoted node.key) err)
      | none =>
          let node := { node with key := trimSpace node.key }
          if node.key = "" then .error (.text "pipeline node key is empty")
          else if node.key ∈ seen then
            .error (.text ("duplicate pipeline node " ++ quoted node.key))
          else match node.dependencies.find? (fun dependency => dependency ∉ seen) with
            | some dependency =>
                .error (.text ("node " ++ quoted node.key ++ " depends on unknown or forward node " ++
                  quoted dependency))
            | none => (validateNodes (node.key :: seen) rest).map (node :: ·)

def Definition.validate (d : Definition) : Except GoError (List NodeDefinition) :=
  if d.name = "" then .error (.text "pipeline name is empty")
  else if d.version ≤ 0 then
    .error (.text ("pipeline " ++ quoted d.name ++ " version must be positive"))
  else validateNodes [] d.nodes

/-- The nodes have distinct non-empty keys and depend only on earlier ones. -/
def Ordered (seen : List String) : List NodeDefinition → Prop
  | [] => True
  | node :: rest =>
      node.key ≠ "" ∧ node.key ∉ seen ∧ (∀ dependency ∈ node.dependencies, dependency ∈ seen) ∧
        Ordered (node.key :: seen) rest

/-- What `validate` has checked when it accepts a node and goes on. -/
theorem validateNodes_cons {seen : List String} {node : NodeDefinition}
    {rest nodes' : List NodeDefinition} (h : validateNodes seen (node :: rest) = .ok nodes') :
    node.err = none ∧ trimSpace node.key ≠ "" ∧ trimSpace node.key ∉ seen ∧
      (∀ dependency ∈ node.dependencies, dependency ∈ seen) ∧
      ∃ rest', validateNodes (trimSpace node.key :: seen) rest = .ok rest' ∧
        nodes' = { node with key := trimSpace node.key } :: rest' := by
  simp only [validateNodes] at h
  split at h
  · cases h
  · next herr =>
    split at h
    · cases h
    · next hkey =>
      split at h
      · cases h
      · next hseen =>
        split at h
        · cases h
        · next hdeps =>
          cases hrest : validateNodes (trimSpace node.key :: seen) rest with
          | error err =>
              rw [hrest] at h
              cases h
          | ok rest' =>
              rw [hrest] at h
              cases h
              refine ⟨herr, hkey, hseen, ?_, rest', rfl, rfl⟩
              intro dependency hmem
              have hnone := List.find?_eq_none.mp hdeps dependency hmem
              simpa using hnone

theorem validateNodes_ordered {seen : List String} {nodes nodes' : List NodeDefinition}
    (h : validateNodes seen nodes = .ok nodes') : Ordered seen nodes' := by
  induction nodes generalizing seen nodes' with
  | nil =>
      cases h
      trivial
  | cons node rest ih =>
      obtain ⟨-, hkey, hseen, hdeps, rest', hrest, rfl⟩ := validateNodes_cons h
      exact ⟨hkey, hseen, hdeps, ih hrest⟩

/-- Validation keeps the tasks of the nodes, and accepts no node with an error. -/
theorem validateNodes_origin {seen : List String} {nodes nodes' : List NodeDefinition}
    (h : validateNodes seen nodes = .ok nodes') : ∀ node' ∈ nodes', ∃ node ∈ nodes,
      node.err = none ∧ node'.taskName = node.taskName := by
  induction nodes generalizing seen nodes' with
  | nil =>
      cases h
      simp
  | cons node rest ih =>
      obtain ⟨herr, -, -, -, rest', hrest, rfl⟩ := validateNodes_cons h
      intro node' hmem
      rcases List.mem_cons.mp hmem with rfl | hmem
      · exact ⟨node, by simp, herr, rfl⟩
      · obtain ⟨origin, horigin, hnone, hname⟩ := ih hrest node' hmem
        exact ⟨origin, List.mem_cons_of_mem _ horigin, hnone, hname⟩

/-- A definition that `validate` accepted. -/
structure CompiledDefinition where
  name : String
  version : Int
  nodes : List NodeDefinition
  ordered : Ordered [] nodes

def Definition.compile (d : Definition) : Except GoError CompiledDefinition :=
  match h : d.validate with
  | .error err => .error err
  | .ok nodes =>
      .ok ⟨d.name, d.version, nodes, by
        unfold Definition.validate at h
        split at h
        · cases h
        · split at h
          · cases h
          · exact validateNodes_ordered h⟩

def registryKey (name : String) (version : Int) : String := name ++ "@v" ++ toString version

/-- The definitions by their durable identity. -/
structure Registry where
  definitions : Table String CompiledDefinition

/-- The loop of `NewRegistry`. -/
def register (r : Registry) : List Definition → Except GoError Registry
  | [] => .ok r
  | definition :: rest =>
      match definition.compile with
      | .error err => .error err
      | .ok compiled =>
          let key := registryKey compiled.name compiled.version
          if key ∈ r.definitions then .error (.text ("duplicate pipeline " ++ key))
          else register ⟨r.definitions.insert key compiled⟩ rest

def newRegistry (definitions : List Definition) : Except GoError Registry :=
  register ⟨∅⟩ definitions

/-- The definition a stored run was started from. -/
def Registry.find (r : Registry) (run : PipelineRun) : Option CompiledDefinition :=
  r.definitions.lookup (registryKey run.pipelineName run.pipelineVersion)

/-! ## Declaration order -/

namespace CompiledDefinition

/-- The node keys in declaration order. -/
def keys (definition : CompiledDefinition) : List String := definition.nodes.map (·.key)

end CompiledDefinition

section Order

variable {seen : List String} {nodes : List NodeDefinition}

theorem Ordered.keys_fresh (h : Ordered seen nodes) :
    ∀ node ∈ nodes, node.key ≠ "" ∧ node.key ∉ seen := by
  induction nodes generalizing seen with
  | nil => simp
  | cons first rest ih =>
      obtain ⟨hne, hseen, -, hrest⟩ := h
      intro node hmem
      rcases List.mem_cons.mp hmem with rfl | hmem
      · exact ⟨hne, hseen⟩
      · obtain ⟨hne', hseen'⟩ := ih hrest node hmem
        exact ⟨hne', fun hin => hseen' (List.mem_cons_of_mem _ hin)⟩

theorem Ordered.keys_nodup (h : Ordered seen nodes) : (nodes.map (·.key)).Nodup := by
  induction nodes generalizing seen with
  | nil => exact List.nodup_nil
  | cons first rest ih =>
      obtain ⟨-, -, -, hrest⟩ := h
      rw [List.map_cons, List.nodup_cons]
      refine ⟨?_, ih hrest⟩
      intro hmem
      obtain ⟨node, hnode, heq⟩ := List.mem_map.mp hmem
      exact (hrest.keys_fresh node hnode).2 (by simp [heq])

end Order

namespace CompiledDefinition

variable (definition : CompiledDefinition)

theorem keys_nodup : definition.keys.Nodup := definition.ordered.keys_nodup

theorem key_ne_empty {node : NodeDefinition} (h : node ∈ definition.nodes) : node.key ≠ "" :=
  (definition.ordered.keys_fresh node h).1

/-- A key determines its node. -/
theorem node_eq {node node' : NodeDefinition} (h : node ∈ definition.nodes)
    (h' : node' ∈ definition.nodes) (heq : node.key = node'.key) : node = node' :=
  List.inj_on_of_nodup_map definition.keys_nodup h h' heq

end CompiledDefinition

/-- The dependencies of a node are declared before it. -/
theorem Ordered.dependencies_before {seen : List String} {done rest : List NodeDefinition}
    {node : NodeDefinition} (h : Ordered seen (done ++ node :: rest)) :
    ∀ dependency ∈ node.dependencies, dependency ∈ seen ∨ dependency ∈ done.map (·.key) := by
  induction done generalizing seen with
  | nil => exact fun dependency hd => Or.inl (h.2.2.1 dependency hd)
  | cons first done ih =>
      intro dependency hd
      rcases ih h.2.2.2 dependency hd with hseen | hdone
      · rcases List.mem_cons.mp hseen with rfl | hseen
        · exact Or.inr (by simp)
        · exact Or.inl hseen
      · exact Or.inr (List.mem_cons_of_mem _ hdone)

/-! ## Registered nodes -/

/-- The definitions that `New`, `Start`, `Then` and `Join2` build. -/
inductive Definition.Constructed : Definition → Prop
  | new (name : String) (version : Int) : Constructed (newDefinition name version)
  | start {d : Definition} (h : Constructed d) (key : String) (definition : Task.Definition)
      (mapper : Option (RawMessage → Built)) : Constructed (start d key definition mapper).2
  | thenNode {d : Definition} (h : Constructed d) (previous : Node) (key : String)
      (definition : Task.Definition) (mapper : Option (RawMessage → Built)) :
      Constructed (thenNode d previous key definition mapper).2
  | join2 {d : Definition} (h : Constructed d) (first second : Node) (key : String)
      (definition : Task.Definition) (mapper : Option (RawMessage → RawMessage → Built)) :
      Constructed (join2 d first second key definition mapper).2

theorem nodeError_eq_none {definition : Task.Definition} {mapperNil foreign : Bool}
    (h : nodeError definition mapperNil foreign = none) : definition.spec.name ≠ "" := by
  unfold nodeError at h
  repeat' split at h
  · cases h
  · cases h
  · intro hempty
    simp [Task.Definition.validate, hempty] at h

/-- A node without an error has a named task. -/
theorem Definition.Constructed.named {d : Definition} (h : d.Constructed) :
    ∀ node ∈ d.nodes, node.err = none → node.taskName ≠ "" := by
  have hadd : ∀ (nodes : List NodeDefinition) (key : String) (definition : Task.Definition)
      (mapper : Mapper) (err : Option GoError),
      (∀ node ∈ nodes, node.err = none → node.taskName ≠ "") →
      (err = none → definition.spec.name ≠ "") →
      ∀ node ∈ nodes ++ [newNode key definition mapper err], node.err = none →
        node.taskName ≠ "" := by
    intro nodes key definition mapper err hnodes hnew node hmem
    rcases List.mem_append.mp hmem with hmem | hmem
    · exact hnodes node hmem
    · rw [List.mem_singleton.mp hmem]
      exact hnew
  induction h with
  | new name version => simp [newDefinition]
  | start _ _ _ _ ih => exact hadd _ _ _ _ _ ih nodeError_eq_none
  | thenNode _ _ _ _ _ ih => exact hadd _ _ _ _ _ ih nodeError_eq_none
  | join2 _ _ _ _ _ _ ih => exact hadd _ _ _ _ _ ih nodeError_eq_none

/-- The node belongs to a registered definition. -/
def Registry.Declares (registry : Registry) (node : NodeDefinition) : Prop :=
  ∃ key definition, registry.definitions.lookup key = some definition ∧ node ∈ definition.nodes

theorem Registry.declares_of_find {registry : Registry} {run : PipelineRun}
    {definition : CompiledDefinition} {node : NodeDefinition}
    (hfound : registry.find run = some definition) (hnode : node ∈ definition.nodes) :
    registry.Declares node := ⟨_, definition, hfound, hnode⟩

theorem compile_named {d : Definition} (h : d.Constructed) {compiled : CompiledDefinition}
    (hcompiled : d.compile = .ok compiled) : ∀ node ∈ compiled.nodes, node.taskName ≠ "" := by
  unfold Definition.compile at hcompiled
  split at hcompiled
  · cases hcompiled
  · next nodes hvalid =>
    cases hcompiled
    unfold Definition.validate at hvalid
    repeat' split at hvalid
    · cases hvalid
    · cases hvalid
    · intro node hnode
      obtain ⟨origin, horigin, hnone, hname⟩ := validateNodes_origin hvalid node hnode
      rw [hname]
      exact h.named origin horigin hnone

/-- The loop of `NewRegistry` registers only nodes with a named task. -/
theorem register_named {definitions : List Definition} (hbuilt : ∀ d ∈ definitions, d.Constructed)
    {r registry : Registry} (hr : ∀ node, r.Declares node → node.taskName ≠ "")
    (h : register r definitions = .ok registry) :
    ∀ node, registry.Declares node → node.taskName ≠ "" := by
  induction definitions generalizing r with
  | nil =>
      cases h
      exact hr
  | cons d rest ih =>
      rw [register] at h
      split at h
      · cases h
      · next compiled hcompiled =>
        dsimp only at h
        split at h
        · cases h
        · refine ih (fun d hd => hbuilt d (List.mem_cons_of_mem _ hd)) ?_ h
          rintro node ⟨key, definition, hl, hnode⟩
          rw [lookup_insert_ite] at hl
          split at hl
          · cases hl
            exact compile_named (hbuilt d (by simp)) hcompiled node hnode
          · exact hr node ⟨key, definition, hl, hnode⟩

/-- The nodes of a registry have named tasks. -/
theorem newRegistry_named {definitions : List Definition} {registry : Registry}
    (hbuilt : ∀ d ∈ definitions, d.Constructed) (h : newRegistry definitions = .ok registry) :
    ∀ node, registry.Declares node → node.taskName ≠ "" :=
  register_named hbuilt (by simp [Registry.Declares]) h

end Ody.Pipeline
