import BehaviorTree.Definition
import BehaviorTree.Scope

/-!
# Nodes

A compiled node: its kind, its children, the scope that its variables live in, and what it says
about tracing and waiting.
-/

namespace BehaviorTree

inductive NodeKind where
  | action
  | sequence
  | selector
  | parallel
  | invert
  | success
  | failure
deriving DecidableEq, Inhabited

namespace NodeKind

/-- All kinds, in the order in which the keys of a definition are looked at. -/
def all : List NodeKind :=
  [sequence, selector, parallel, invert, success, failure, action]

/-- The tag of a kind, which is also the key of its children or its action. -/
def name : NodeKind → String
  | action => "action"
  | sequence => "seq"
  | selector => "sel"
  | parallel => "par"
  | invert => "invert"
  | success => "success"
  | failure => "failure"

def ofName? (text : String) : Option NodeKind :=
  all.find? fun kind => kind.name = text

def isLeaf (kind : NodeKind) : Bool :=
  kind = action

def isDecorator (kind : NodeKind) : Bool :=
  kind = invert || kind = success || kind = failure

theorem ofName?_name (kind : NodeKind) : ofName? kind.name = some kind := by
  cases kind <;> decide

end NodeKind

/-- When a parallel node is decided, and whether it waits for every child. -/
structure Policy where
  maxSuccess : Threshold := .never
  maxFail : Threshold := .never
  waitForAll : Bool := false
deriving DecidableEq, Inhabited

/-- What every compiled node has. -/
structure NodeInfo where
  title : Option String
  debug : Option Bool
  waitForMe : Bool
  /-- The convention of a leaf, or the one that a composite hands down. -/
  convention : Convention
  scope : Scope
deriving Inhabited

inductive Decorator where
  | invert
  | success
  | failure
deriving DecidableEq, Inhabited

namespace Decorator

def kind : Decorator → NodeKind
  | invert => .invert
  | success => .success
  | failure => .failure

/-- What a decorator makes of its child's outcome. -/
def apply : Decorator → Outcome → Outcome
  | invert, outcome => outcome.invert
  | success, outcome => outcome.toSuccess
  | failure, outcome => outcome.toFailure

end Decorator

inductive Node where
  | leaf (info : NodeInfo) (path : Option String) (action : Action)
  | sequence (info : NodeInfo) (children : List Node)
  | selector (info : NodeInfo) (children : List Node)
  | parallel (info : NodeInfo) (policy : Policy) (children : List Node)
  | decorator (info : NodeInfo) (decorator : Decorator) (child : Node)

namespace Node

def info : Node → NodeInfo
  | leaf info _ _ => info
  | sequence info _ => info
  | selector info _ => info
  | parallel info _ _ => info
  | decorator info _ _ => info

def kind : Node → NodeKind
  | leaf _ _ _ => .action
  | sequence _ _ => .sequence
  | selector _ _ => .selector
  | parallel _ _ _ => .parallel
  | decorator _ d _ => d.kind

def scope (node : Node) : Scope :=
  node.info.scope

def children : Node → List Node
  | leaf _ _ _ => []
  | sequence _ children => children
  | selector _ children => children
  | parallel _ _ children => children
  | decorator _ _ child => [child]

mutual

/-- The number of nodes of a subtree, its root included. -/
def count : Node → Nat
  | leaf _ _ _ => 1
  | sequence _ children => 1 + countAll children
  | selector _ children => 1 + countAll children
  | parallel _ _ children => 1 + countAll children
  | decorator _ _ child => 1 + count child

def countAll : List Node → Nat
  | [] => 0
  | child :: rest => count child + countAll rest

end

end Node

end BehaviorTree
