import BehaviorTree.Demo.Stage

/-!
# Replicas

Every request asks three replicas at once and takes the first answer, but waits until an audit log
is written.
-/

namespace BehaviorTree.Demo.Concurrent

/-- Answers a request after a while. -/
def reply (delay : Nat) (replica : String) (request : Value) : Code (Except Value Value) := do
  Code.wait delay
  return .ok (.str (replica ++ " answered request " ++ request.text))

def audit (v : Value) : Code (Except Value Value) := do
  Code.wait 50
  let _ ← Code.update "audited" fun n => (.int (n.asInt?.getD 0 + 1), .null)
  return .ok v

def refuse (_ : Value) : Code (Except Value Value) := do
  Code.wait 10
  return .error (.str "connection refused")

def actions : Registry :=
  .ofList [
    ("replica.fast", .promise (reply 20 "fast")),
    ("replica.slow", .promise (reply 80 "slow")),
    ("replica.down", .promise refuse),
    ("audit", .promise audit)]

def definition : Definition :=
  let d := Definition.ofChildren .par [
    .node (.ofPath "replica.fast"),
    .node (.ofPath "replica.slow"),
    .node (.ofPath "replica.down"),
    .node { Definition.ofPath "audit" with waitForMe := some true }]
  { d.declare "audited" (.int 0) with
    maxSuccess := some (.count 1)
    actionType := some Convention.promise.name }

def lines : List String :=
  let stage := Stage.build (.definition definition) actions {} .notices
  let requests : List Int64 := [0, 1, 2, 3]
  let (outcomes, stage) := stage.runAll (requests.map .int)
  let answers := (requests.zip outcomes).map fun (request, outcome) =>
    "request " ++ (Value.int request).text ++ ": " ++ outcome.text
  let audited := stage.tree.rootScope?.bind fun scope =>
    stage.engine.world.store.get? scope "audited"
  answers ++ ["audited: " ++ (audited.getD .null).text]

end BehaviorTree.Demo.Concurrent
