import BehaviorTree.Demo.Stage

/-!
# Quadratic equations

The solutions of `a * x ^ 2 + b * x + c = 0`, with the distinction of cases laid out as a tree.
-/

namespace BehaviorTree.Demo.Quadratic

/-- Runs `thens` if the output of `expr` passes `test`, else `elses`. -/
def ifNode (expr test : String) (thens elses : Child Definition) : Child Definition :=
  .node (.ofChildren .sel [.node (.ofChildren .seq [.path expr, .path test, thens]), elses])

def definition : Definition :=
  let allOrNone :=
    ifNode "get.c" "is.zero" (.path "calc.allSolutions") (.path "calc.noSolution")
  let firstOrder := ifNode "get.b" "is.zero" allOrNone (.path "calc.firstOrder")
  let doubleOrComplex :=
    ifNode "get.d" "is.zero" (.path "calc.doubleRoot") (.path "calc.complexRoots")
  let secondOrder := .node (.ofChildren .seq [
    .path "calc.discriminant",
    ifNode "get.d" "is.positive" (.path "calc.realRoots") doubleOrComplex])
  let d := Definition.ofChildren .seq [
    .path "io.read", ifNode "get.a" "is.zero" firstOrder secondOrder, .path "io.show"]
  let d := { d with title := some "quadratic" }
  let d := d.declare "in" (.ofPairs [("a", .null), ("b", .null), ("c", .null)])
  let d := d.declare "med" (.ofPairs [("d", .null)])
  d.declare "out" (.ofPairs [("roots", .list []), ("description", .str "")])

/-- The number at a path; anything else counts as zero. -/
def number (path : Path) : Code Float := do
  return ((← Code.get path).bind Value.asFloat?).getD 0

def numberText (x : Float) : String :=
  (Value.float x).text

def valueAt (path : Path) : Code (Except Value Value) := do
  return .ok ((← Code.get path).getD .null)

def answer (description : String) (roots : List Value) : Code (Except Value Value) := do
  Code.set "out.description" (.str description)
  Code.set "out.roots" (.list roots)
  return .ok .null

def readInput (args : Value) : Code (Except Value Value) := do
  for name in ["a", "b", "c"] do
    Code.set (Path.ofString ("in." ++ name)) ((args.get? (Path.ofString name)).getD .null)
  let a ← number "in.a"
  let b ← number "in.b"
  let c ← number "in.c"
  Code.print ("a=" ++ numberText a ++ ", b=" ++ numberText b ++ ", c=" ++ numberText c)
  return .ok .null

def showResult : Code (Except Value Value) := do
  let out := (← Code.get "out").getD .null
  let description := ((out.get? "description").bind Value.asString?).getD ""
  let roots := (out.get? "roots").getD .null
  Code.print (description ++ " " ++ roots.text ++ "\n")
  return .ok out

/-- Lets a number pass if it satisfies a test. -/
def passing (test : Float → Bool) (x : Value) : Code (Except Value Value) :=
  return if x.asFloat?.any test then .ok x else .error (.bool false)

def discriminant : Code (Except Value Value) := do
  let a ← number "in.a"
  let b ← number "in.b"
  let c ← number "in.c"
  Code.set "med.d" (.float (b * b - 4 * a * c))
  return .ok .null

def firstOrder : Code (Except Value Value) := do
  let c ← number "in.c"
  let b ← number "in.b"
  answer "First order solution" [.float (-c / b)]

def realRoots : Code (Except Value Value) := do
  let a ← number "in.a"
  let b ← number "in.b"
  let root := (← number "med.d").sqrt
  answer "Real roots" [.float ((-b - root) / (2 * a)), .float ((-b + root) / (2 * a))]

def doubleRoot : Code (Except Value Value) := do
  let b ← number "in.b"
  let a ← number "in.a"
  answer "Double root" [.float (-b / (2 * a))]

def complexRoots : Code (Except Value Value) := do
  let a ← number "in.a"
  let b ← number "in.b"
  let root := (-(← number "med.d")).sqrt
  let real := numberText (-b / (2 * a))
  let imaginary := numberText (root / (2 * a)).abs
  answer "Complex roots" [.str (real ++ "+i" ++ imaginary), .str (real ++ "-i" ++ imaginary)]

def actions : Registry :=
  let io := Registry.ofList [("read", .plain readInput), ("show", .plain fun _ => showResult)]
  let get := Registry.ofList [
    ("a", .plain fun _ => valueAt "in.a"),
    ("b", .plain fun _ => valueAt "in.b"),
    ("c", .plain fun _ => valueAt "in.c"),
    ("d", .plain fun _ => valueAt "med.d")]
  let is := Registry.ofList [
    ("zero", .plain (passing fun x => x == 0)),
    ("positive", .plain (passing fun x => 0 < x))]
  let solutions := Registry.ofList [
    ("discriminant", .plain fun _ => discriminant),
    ("firstOrder", .plain fun _ => firstOrder),
    ("realRoots", .plain fun _ => realRoots),
    ("doubleRoot", .plain fun _ => doubleRoot),
    ("complexRoots", .plain fun _ => complexRoots),
    ("allSolutions", .plain fun _ => answer "Any number is a solution" [.str "*"]),
    ("noSolution", .plain fun _ => answer "There are no solutions" [.str "-"])]
  (((Registry.empty.mount "io" io).mount "get" get).mount "is" is).mount "calc" solutions

/-- The coefficients of some equations, one for each case and one more. -/
def equations : List (Int64 × Int64 × Int64) :=
  [(1, 0, -1), (2, 4, -6), (1, -4, 4), (5, 2, 2), (0, 1, -4), (0, 0, 0), (0, 0, 4)]

def lines : List String :=
  let stage := Stage.build (.definition definition) actions {} .notices
  stage.play (fun report _ => report.printed) (equations.map fun (a, b, c) =>
    Value.ofPairs [("a", .int a), ("b", .int b), ("c", .int c)])

end BehaviorTree.Demo.Quadratic
