import BehaviorTree.Tree

/-!
# Staging a demo

A demo has a tree that compiles, runs it on some inputs, and shows lines.
-/

namespace BehaviorTree.Demo

/-- There are no files around a demo. -/
def noFiles : Files :=
  fun _ => .error .missing

/-- A tree on its engine. -/
structure Stage where
  tree : Tree
  engine : Engine
  /-- Where the trace lines of the tree go. -/
  sink : Sink := .notices

namespace Stage

def build (source : Source) (actions : Registry) (options : Options) (sink : Sink) : Stage :=
  let (tree, world) := Tree.create noFiles source actions options {}
  { tree, sink, engine := .clocked { world } }

/-- Runs the tree on inputs at once. -/
def runAll (stage : Stage) (inputs : List Value) : List Outcome × Stage :=
  match stage.tree.run inputs stage.engine with
  | .error _ => ([], stage)
  | .ok (outcomes, engine) => (outcomes, { stage with engine })

def run (stage : Stage) (input : Value) : Outcome × Stage :=
  let (outcomes, stage) := stage.runAll [input]
  (outcomes.headD default, stage)

/-- Takes out what happened since the last report. -/
def report (stage : Stage) : Report × Stage :=
  let (report, engine) := stage.engine.report stage.sink
  (report, { stage with engine })

/-- The lines that runs on some inputs show, one after the other. -/
def play (stage : Stage) (lines : Report → Outcome → List String) : List Value → List String
  | [] => []
  | input :: rest =>
    let (outcome, stage) := stage.run input
    let (report, stage) := stage.report
    lines report outcome ++ play stage lines rest

end Stage

end BehaviorTree.Demo
