import BehaviorTree.Node

/-!
# Compile errors

A definition that is not well-formed has a defect at one of its nodes. The place of a node is the
way to it by child indices, followed by its title if it has one.
-/

namespace BehaviorTree

/-- Where a node stands in its definition. -/
structure Place where
  /-- The child indices on the way from the root. -/
  indices : List Nat
  title : Option String := none
deriving DecidableEq, Inhabited

namespace Place

def text (place : Place) : String :=
  let way := place.indices.foldl (fun way i => way ++ "/" ++ String.ofList (writeNat i)) "root"
  match place.title with
  | none => way
  | some title => way ++ " (" ++ title ++ ")"

end Place

/-- What can be wrong with a node. -/
inductive Defect where
  | missingKind
  | ambiguousKind (candidates : List NodeKind)
  | unknownKind (tag : String)
  | invalidConvention (name : String)
  | missingAction
  | unresolvedAction (path : String)
  /-- The path of the action ends at a group. -/
  | notCallable (path : String)
  /-- An action that was not given by a path has none. -/
  | conventionMismatch (path : Option String) (declared registered : Convention)
  | missingChildren (kind : NodeKind)
  | conflictingChildren (kind : NodeKind)
  | decoratorArity (kind : NodeKind) (count : Nat)
  | invalidThreshold (field : String)
  | shadowedVariable (name : String)
deriving DecidableEq

structure CompileError where
  place : Place
  defect : Defect
deriving DecidableEq

namespace CompileError

def message (error : CompileError) : String :=
  let place := error.place.text
  match error.defect with
  | .missingKind => "node " ++ place ++ " has no type and no type-defining key"
  | .ambiguousKind candidates =>
    "node " ++ place ++ " is ambiguous: found " ++ ", ".intercalate (candidates.map NodeKind.name)
  | .unknownKind tag => "unknown node type '" ++ tag ++ "' at " ++ place
  | .invalidConvention name => "invalid action type '" ++ name ++ "' at " ++ place
  | .missingAction => "action node " ++ place ++ " has no action"
  | .unresolvedAction path => "unresolved action '" ++ path ++ "' at " ++ place
  | .notCallable path =>
    "action path '" ++ path ++ "' at " ++ place ++ " names a namespace, not an action"
  | .conventionMismatch path declared registered =>
    "action '" ++ path.getD "<inline>" ++ "' at " ++ place ++ " is declared " ++ declared.name ++
      " but registered as " ++ registered.name
  | .missingChildren kind => kind.name ++ " node " ++ place ++ " has no children"
  | .conflictingChildren kind =>
    "node " ++ place ++ " declares children under both '" ++ kind.name ++ "' and 'nodes'"
  | .decoratorArity kind count =>
    kind.name ++ " decorator " ++ place ++ " needs exactly one child, found " ++
      String.ofList (writeNat count)
  | .invalidThreshold field => field ++ " at " ++ place ++ " must be at least 1"
  | .shadowedVariable name =>
    "variable '" ++ name ++ "' at " ++ place ++ " shadows a variable of an enclosing scope"

end CompileError

end BehaviorTree
