import BehaviorTree.Node

/-!
# Trace lines

A traced node writes its label when it is entered and its outcome when it is left, indented by its
depth among the traced nodes around it. A node that sets `debug` switches tracing for itself and
its descendants; the switch travels down with the run, so runs of one tree do not disturb each
other.
-/

namespace BehaviorTree

/-- The state of tracing at one point of a run. -/
structure Trace where
  enabled : Bool
  indent : Nat
  depth : Nat := 0
deriving DecidableEq, Inhabited

namespace Trace

/-- The state for what is inside a node. -/
def inside (trace : Trace) (info : NodeInfo) : Trace :=
  let enabled := info.debug.getD trace.enabled
  { trace with enabled, depth := if enabled then trace.depth + 1 else trace.depth }

/-- A line at some depth. -/
def line (trace : Trace) (depth : Nat) (text : String) : String :=
  String.ofList (List.replicate (depth * trace.indent) ' ') ++ text

/-- The label of a node: its kind and title, and for a leaf its convention and path. -/
def label (node : Node) : String :=
  let title := match node.info.title with
    | some title => ", title=" ++ title
    | none => ""
  let action := match node with
    | .leaf info path _ =>
      ", actionType=" ++ info.convention.name ++
        match path with
        | some path => ", action=" ++ path
        | none => ""
    | _ => ""
  "NODE(type=" ++ node.kind.name ++ title ++ action ++ ")"

/-- The lines of entering a node, for the state around it. -/
def enter (trace : Trace) (node : Node) : List String :=
  if (trace.inside node.info).enabled then [trace.line trace.depth (label node)] else []

/-- The lines of handing an input to a leaf, for the state inside it. -/
def input (trace : Trace) (value : Value) : List String :=
  if trace.enabled then [trace.line trace.depth ("Input=" ++ value.text)] else []

/-- The lines of leaving a node, for the state inside it. -/
def exit (trace : Trace) (outcome : Outcome) : List String :=
  if trace.enabled then [trace.line (trace.depth - 1) ("=> " ++ outcome.text)] else []

end Trace

end BehaviorTree
