import BehaviorTree.Action
import BehaviorTree.Entries

/-!
# Definitions

What a tree is compiled from: a node with up to seventeen fields, its children in lists. Every
field may be absent; which fields make a node well-formed is for the compiler to say. A listed
child is smaller than its parent (`sizeOf_lt_of_mem_children`), so functions on definitions recur
on it.
-/

namespace BehaviorTree

/-- How many outcomes of one kind decide a parallel node. -/
inductive Threshold where
  | never
  | all
  | count (n : Nat)
deriving DecidableEq, Inhabited

namespace Threshold

def ofBool (flag : Bool) : Threshold :=
  if flag then all else never

def text : Threshold → String
  | never => "false"
  | all => "true"
  | count n => String.ofList (Nat.toDigits 10 n)

end Threshold

/-- What a leaf runs. -/
inductive ActionRef where
  /-- A dotted path into a registry. -/
  | path (text : String)
  /-- An action given on the spot. -/
  | inline (action : Action)
deriving Inhabited

/-- A child: the path of an action, or a node of its own. -/
inductive Child (Node : Type) where
  | path (text : String)
  | node (node : Node)

/-- The fields of a node that list children. -/
inductive ChildField where
  | seq
  | sel
  | par
  | invert
  | success
  | failure
  | nodes
deriving DecidableEq, Inhabited

namespace ChildField

def all : List ChildField := [seq, sel, par, invert, success, failure, nodes]

def name : ChildField → String
  | seq => "seq"
  | sel => "sel"
  | par => "par"
  | invert => "invert"
  | success => "success"
  | failure => "failure"
  | nodes => "nodes"

end ChildField

/-- A node as it is described. -/
structure Definition where
  /-- The kind of the node, if it is named. -/
  kind : Option String := none
  title : Option String := none
  /-- The variables that the node declares for itself and its descendants. -/
  scope : Option (Table Value) := none
  /-- The convention of the leaves below, if it is named. -/
  actionType : Option String := none
  debug : Option Bool := none
  action : Option ActionRef := none
  seq : Option (List (Child Definition)) := none
  sel : Option (List (Child Definition)) := none
  par : Option (List (Child Definition)) := none
  invert : Option (List (Child Definition)) := none
  success : Option (List (Child Definition)) := none
  failure : Option (List (Child Definition)) := none
  nodes : Option (List (Child Definition)) := none
  maxSuccess : Option Threshold := none
  maxFail : Option Threshold := none
  waitForAll : Option Bool := none
  waitForMe : Option Bool := none
deriving Inhabited

namespace Definition

/-- The children under a field. -/
def children (d : Definition) : ChildField → Option (List (Child Definition))
  | .seq => d.seq
  | .sel => d.sel
  | .par => d.par
  | .invert => d.invert
  | .success => d.success
  | .failure => d.failure
  | .nodes => d.nodes

def setChildren (d : Definition) (field : ChildField)
    (children : Option (List (Child Definition))) : Definition :=
  match field with
  | .seq => { d with seq := children }
  | .sel => { d with sel := children }
  | .par => { d with par := children }
  | .invert => { d with invert := children }
  | .success => { d with success := children }
  | .failure => { d with failure := children }
  | .nodes => { d with nodes := children }

theorem sizeOf_lt_of_mem_children {d e : Definition} {field : ChildField}
    {cs : List (Child Definition)} (hcs : d.children field = some cs) (he : .node e ∈ cs) :
    sizeOf e < sizeOf d := by
  have h : sizeOf (Child.node e) < sizeOf cs := List.sizeOf_lt_of_mem he
  obtain ⟨⟩ := d
  cases field <;> simp only [children] at hcs <;> subst hcs <;> simp at h ⊢ <;> omega

/-- The declared variables of a node; none if it has no scope. -/
def declared (d : Definition) : Table Value :=
  d.scope.getD {}

/-- A leaf that runs the action at a path. -/
def ofPath (path : String) : Definition :=
  { action := some (.path path) }

/-- A leaf that runs a given action. -/
def ofAction (action : Action) : Definition :=
  { action := some (.inline action) }

/-- A node with its children under one field. -/
def ofChildren (field : ChildField) (children : List (Child Definition)) : Definition :=
  setChildren {} field (some children)

/-- A child as a node: a path is a leaf that runs the action there. -/
def ofChild : Child Definition → Definition
  | .path path => ofPath path
  | .node d => d

/-- Declares a variable. -/
def declare (d : Definition) (name : String) (value : Value) : Definition :=
  { d with scope := some (d.declared.insert name value) }

/-- A node in as many single-child nodes as asked for. -/
def nest (field : ChildField) : Nat → Definition → Definition
  | 0, d => d
  | n + 1, d => nest field n (ofChildren field [.node d])

end Definition

end BehaviorTree
