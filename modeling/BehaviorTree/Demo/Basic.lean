import BehaviorTree.Demo.Stage

/-!
# Doubling

A tree that doubles its input while it is small and otherwise starts over.
-/

namespace BehaviorTree.Demo.Basic

def isSmall (v : Value) : Bool :=
  v.asInt?.any (· < 100)

def actions : Registry :=
  .ofList [
    ("double", .plain fun v => return .ok (.int (v.asInt?.getD 0 * 2))),
    ("small", .plain fun v => return if isSmall v then .ok v else .error v),
    ("reset", .plain fun _ => return .ok (.int 1))]

def definition : Definition :=
  .ofChildren .sel [
    .node (.ofChildren .seq [.path "small", .path "double"]),
    .node (.ofChildren .seq [.node (.ofChildren .invert [.path "small"]), .path "reset"])]

/-- The outcomes of some runs, each on the payload of the one before. -/
def outcomes : Nat → Value → Stage → List Outcome
  | 0, _, _ => []
  | n + 1, input, stage =>
    let (outcome, stage) := stage.run input
    outcome :: outcomes n outcome.payload stage

def lines : List String :=
  let stage := Stage.build (.definition definition) actions {} .notices
  stage.tree.text :: (outcomes 8 (.int 3) stage).map Outcome.text

end BehaviorTree.Demo.Basic
