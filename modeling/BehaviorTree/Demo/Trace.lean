import BehaviorTree.Demo.Stage

/-!
# Traces

The trace of a tree in which one subtree is traced, and of one that is traced as a whole.
-/

namespace BehaviorTree.Demo.Trace

def increment : Action :=
  .plain fun v => return .ok (.int (v.asInt?.getD 0 + 1))

def fetch (v : Value) : Code (Except Value Value) := do
  Code.wait 5
  return .ok v

def actions : Registry :=
  .ofList [
    ("inc", increment),
    ("fail", .plain fun v => return .error v),
    ("fetch", .promise fetch)]

def first : Definition :=
  { Definition.ofChildren .sel [.path "fail", .path "inc"] with title := some "first" }

def gather : Definition :=
  { Definition.ofChildren .par [
      .node { Definition.ofPath "fetch" with actionType := some Convention.promise.name },
      .node (.ofPath "inc")] with
    maxSuccess := some .all
    title := some "gather" }

def second : Definition :=
  { Definition.ofChildren .seq [.node (.ofChildren .invert [.path "fail"]), .node gather] with
    title := some "second"
    debug := some true }

def definition : Definition :=
  { Definition.ofChildren .seq [.node first, .node second] with title := some "main" }

def twice : Definition :=
  { Definition.ofChildren .seq [.path "inc", .path "inc"] with title := some "twice" }

def lines : List String :=
  let partly := Stage.build (.definition definition) actions { indent := 2 } .buffer
  let wholly := Stage.build (.definition twice) (.ofList [("inc", increment)]) { debug := true }
    .buffer
  partly.play (fun report outcome => report.trace ++ ["result: " ++ outcome.text]) [.int 0] ++
    wholly.play (fun report _ => report.trace) [.int 40]

end BehaviorTree.Demo.Trace
