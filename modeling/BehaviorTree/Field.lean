import BehaviorTree.Definition

/-!
# The fields of a node

The names that the fields of a definition have in a text.
-/

namespace BehaviorTree

/-- The fields of a node. -/
inductive Field where
  | kind
  | title
  | scope
  | actionType
  | debug
  | action
  | children (field : ChildField)
  | maxSuccess
  | maxFail
  | waitForAll
  | waitForMe
deriving DecidableEq

namespace Field

/-- All fields, in the order of a node that is written as an array. -/
def all : List Field :=
  [kind, title, scope, actionType, debug, action] ++ ChildField.all.map children ++
    [maxSuccess, maxFail, waitForAll, waitForMe]

def name : Field → String
  | kind => "type"
  | title => "title"
  | scope => "scope"
  | actionType => "actionType"
  | debug => "debug"
  | action => "action"
  | children field => field.name
  | maxSuccess => "maxSuccess"
  | maxFail => "maxFail"
  | waitForAll => "waitForAll"
  | waitForMe => "waitForMe"

def ofName? (text : String) : Option Field :=
  all.find? fun field => field.name = text

theorem ofName?_name (field : Field) : ofName? field.name = some field := by
  cases field with
  | children field => cases field <;> decide
  | _ => decide

end Field

end BehaviorTree
