import BehaviorTree.CompileError
import BehaviorTree.Registry

/-!
# Compiling definitions

`compile` turns a definition into a node, making a frame for every node, or gives the first
defect. At a node it looks at the kind first, then at the convention, then for variables that an
enclosing scope declares already; then at the action of a leaf or the lists of children; then at
the children from left to right; and last at the number of children of a decorator or the
thresholds of a parallel node.
-/

namespace BehaviorTree

namespace NodeKind

/-- The field of the children of a kind; a leaf has none. -/
def field? : NodeKind → Option ChildField
  | action => none
  | sequence => some .seq
  | selector => some .sel
  | parallel => some .par
  | invert => some .invert
  | success => some .success
  | failure => some .failure

end NodeKind

namespace Definition

/-- The children under the key of a kind. -/
def kindChildren (d : Definition) (kind : NodeKind) : Option (List (Child Definition)) :=
  kind.field?.bind d.children

/-- Whether the key of a kind is present. -/
def hasKey (d : Definition) (kind : NodeKind) : Bool :=
  if kind = .action then d.action.isSome else (d.kindChildren kind).isSome

/-- The kinds whose keys are present. -/
def keys (d : Definition) : List NodeKind :=
  NodeKind.all.filter d.hasKey

/-- The kind of a node: its tag, which no other key may contradict, or its only key. -/
def findKind (d : Definition) : Except Defect NodeKind :=
  match d.kind with
  | some tag =>
    match NodeKind.ofName? tag with
    | none => .error (.unknownKind tag)
    | some kind =>
      let others := d.keys.filter (· ≠ kind)
      if others.isEmpty then .ok kind else .error (.ambiguousKind (kind :: others))
  | none =>
    match d.keys with
    | [] => .error .missingKind
    | [kind] => .ok kind
    | kinds => .error (.ambiguousKind kinds)

/-- The convention that a node names, or else the one handed down to it. -/
def findConvention (d : Definition) (inherited : Convention) : Except Defect Convention :=
  match d.actionType with
  | none => .ok inherited
  | some name =>
    match Convention.ofName? name with
    | some convention => .ok convention
    | none => .error (.invalidConvention name)

/-- The least of the declared names that an enclosing scope declares already. -/
def shadowed? (d : Definition) (store : Store) (parent : Option Scope) : Option String :=
  parent.bind fun scope => d.declared.names.find? (store.defines scope)

/-- The action of a leaf, with its path if it is given by one. -/
def findAction (d : Definition) (registry : Registry) (convention : Convention) :
    Except Defect (Option String × Action) := do
  let (path, action) ← match d.action with
    | none => .error .missingAction
    | some (.inline action) => .ok (none, action)
    | some (.path path) =>
      match registry.resolve (Path.ofString path) with
      | .ok action => .ok (some path, action)
      | .error .missing => .error (.unresolvedAction path)
      | .error .isGroup => .error (.notCallable path)
  if action.convention = convention then .ok (path, action)
  else .error (.conventionMismatch path convention action.convention)

/-- The children of a composite: those under the key of its kind or under the neutral key. -/
def findChildren (d : Definition) (kind : NodeKind) :
    Except Defect { cs : List (Child Definition) // ∃ field, d.children field = some cs } :=
  match hk : d.kindChildren kind, hn : d.nodes with
  | some _, some _ => .error (.conflictingChildren kind)
  | some cs, none => .ok ⟨cs, by
      obtain ⟨field, -, h⟩ := Option.bind_eq_some_iff.1 hk
      exact ⟨field, h⟩⟩
  | none, some cs => .ok ⟨cs, .nodes, hn⟩
  | none, none => .error (.missingChildren kind)

def threshold (name : String) : Option Threshold → Except Defect Threshold
  | none => .ok .never
  | some (.count 0) => .error (.invalidThreshold name)
  | some threshold => .ok threshold

def policy (d : Definition) : Except Defect Policy := do
  let maxSuccess ← threshold "maxSuccess" d.maxSuccess
  let maxFail ← threshold "maxFail" d.maxFail
  return { maxSuccess, maxFail, waitForAll := d.waitForAll.getD false }

theorem sizeOf_children_lt {d : Definition} {field : ChildField} {cs : List (Child Definition)}
    (h : d.children field = some cs) : sizeOf cs < sizeOf d := by
  obtain ⟨⟩ := d
  cases field <;> simp only [children] at h <;> subst h <;> simp <;> omega

end Definition

namespace Compile

/-- What a node is compiled in: the actions, and what its ancestors hand down. -/
structure Context where
  registry : Registry
  parent : Option Scope
  inherited : Convention := .plain
  indices : List Nat := []

namespace Context

/-- The context of a child. -/
def child (context : Context) (info : NodeInfo) (index : Nat) : Context :=
  { context with
    parent := some info.scope
    inherited := info.convention
    indices := context.indices ++ [index] }

/-- Puts a defect at a node of this context. -/
def locate {α : Type} (context : Context) (d : Definition) :
    Except Defect α → Except CompileError α
  | .ok result => .ok result
  | .error defect => .error ⟨⟨context.indices, d.title⟩, defect⟩

/-- The kind of a node, what every node has, and the store with its frame. -/
def enter (context : Context) (d : Definition) (store : Store) :
    Except CompileError (NodeKind × NodeInfo × Store) := do
  let kind ← context.locate d d.findKind
  let convention ← context.locate d (d.findConvention context.inherited)
  match d.shadowed? store context.parent with
  | some name => context.locate d (.error (.shadowedVariable name))
  | none =>
    let (scope, store) := store.link context.parent d.declared
    let info : NodeInfo :=
      { title := d.title
        debug := d.debug
        waitForMe := d.waitForMe.getD false
        convention
        scope }
    return (kind, info, store)

/-- A leaf, from what it has as a node. -/
def leaf (context : Context) (d : Definition) (info : NodeInfo) : Except CompileError Node := do
  let (path, action) ← context.locate d (d.findAction context.registry info.convention)
  return .leaf info path action

/-- A composite, from its compiled children. -/
def composite (context : Context) (d : Definition) (kind : NodeKind) (info : NodeInfo)
    (children : List Node) : Except CompileError Node :=
  let decorator (decorator : Decorator) : Except CompileError Node :=
    match children with
    | [child] => .ok (.decorator info decorator child)
    | _ => context.locate d (.error (.decoratorArity kind children.length))
  match kind with
  | .action => context.leaf d info
  | .sequence => .ok (.sequence info children)
  | .selector => .ok (.selector info children)
  | .parallel => do
    let policy ← context.locate d d.policy
    return .parallel info policy children
  | .invert => decorator .invert
  | .success => decorator .success
  | .failure => decorator .failure

end Context

mutual

/-- A node and its descendants. -/
def node (context : Context) (d : Definition) (store : Store) :
    Except CompileError (Node × Store) := do
  let (kind, info, store) ← context.enter d store
  if kind.isLeaf then return (← context.leaf d info, store)
  let ⟨cs, h⟩ ← context.locate d (d.findChildren kind)
  have := h.elim fun _ => Definition.sizeOf_children_lt
  let (children, store) ← nodes context info 0 cs store
  return (← context.composite d kind info children, store)
termination_by sizeOf d

/-- The children of a node from an index on; the path of an action is a leaf that runs it. -/
def nodes (context : Context) (info : NodeInfo) (index : Nat) (cs : List (Child Definition))
    (store : Store) : Except CompileError (List Node × Store) :=
  match cs with
  | [] => .ok ([], store)
  | .path path :: rest => do
    let inner := context.child info index
    let d := Definition.ofPath path
    let (_, leafInfo, store) ← inner.enter d store
    let child ← inner.leaf d leafInfo
    let (children, store) ← nodes context info (index + 1) rest store
    return (child :: children, store)
  | .node d :: rest => do
    let (child, store) ← node (context.child info index) d store
    let (children, store) ← nodes context info (index + 1) rest store
    return (child :: children, store)
termination_by sizeOf cs

end

end Compile

/-- Compiles a definition against a registry, inside the globals if there are any. -/
def compile (registry : Registry) (globals : Option Scope) (d : Definition) (store : Store) :
    Except CompileError (Node × Store) :=
  Compile.node { registry, parent := globals } d store

end BehaviorTree
