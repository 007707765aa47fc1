import BehaviorTree.Compile
import BehaviorTree.Run.Engine
import BehaviorTree.Source

/-!
# Trees

A tree is a source that was loaded and compiled against a registry. One that failed keeps its
error and refuses to run.
-/

namespace BehaviorTree

/-- How a tree is compiled and run. -/
structure Options where
  /-- Whether tracing starts switched on. -/
  debug : Bool := false
  /-- The indentation of a traced node inside another. -/
  indent : Nat := 4
  /-- A scope around that of the root. -/
  globals : Option Scope := none
deriving Inhabited

namespace Options

def inspect (options : Options) (store : Store) : String :=
  let debug := if options.debug then "true" else "false"
  let indent := String.ofList (writeNat options.indent)
  let globals := match options.globals with
    | none => "None"
    | some scope => "Some(" ++ store.inspect scope ++ ")"
  "TreeOptions \x7b debug: " ++ debug ++ ", indent: " ++ indent ++ ", globals: " ++ globals ++
    ", .. \x7d"

def trace (options : Options) : Trace :=
  { enabled := options.debug, indent := options.indent }

end Options

/-- Why there is no tree to run. -/
inductive TreeError where
  | source (error : SourceError)
  | compile (error : CompileError)

namespace TreeError

def message : TreeError → String
  | source error => error.message
  | compile error => error.message

end TreeError

structure Tree where
  root : Except TreeError Node
  actions : Registry
  options : Options

namespace Tree

/-- Loads and compiles a source; the world gets the frames and learns how it went. -/
def create (files : Files) (source : Source) (actions : Registry) (options : Options)
    (world : World) : Tree × World :=
  let compiled : Except TreeError (Node × Store) := do
    let d ← (source.load files).mapError .source
    (compile actions options.globals d world.store).mapError .compile
  match compiled with
  | .ok (root, store) =>
    ({ root := .ok root, actions, options },
      { world with store }.emit (.compiled root.count actions.size))
  | .error error =>
    ({ root := .error error, actions, options }, world.emit (.notCompiled error.message))

def error? (tree : Tree) : Option TreeError :=
  match tree.root with
  | .ok _ => none
  | .error error => some error

def root? (tree : Tree) : Option Node :=
  tree.root.toOption

def rootScope? (tree : Tree) : Option Scope :=
  tree.root?.map Node.scope

def nodeCount (tree : Tree) : Nat :=
  tree.root?.elim 0 Node.count

def text (tree : Tree) : String :=
  match tree.root with
  | .error error => "Tree(error: " ++ error.message ++ ")"
  | .ok root =>
    "Tree(" ++ String.ofList (writeNat root.count) ++ " nodes, " ++
      String.ofList (writeNat tree.actions.size) ++ " actions)"

/-- One run of the tree; a tree without a root cannot be run. -/
def process (tree : Tree) (input : Value) : Except TreeError Process :=
  tree.root.map fun root => root.process tree.options.trace input

/-- Runs the tree on some inputs at once. -/
def run (tree : Tree) (inputs : List Value) (engine : Engine) :
    Except TreeError (List Outcome × Engine) :=
  (inputs.mapM tree.process).map engine.call
end Tree

/-- What is said of a run that a tree refuses. -/
def TreeError.refusal (error : TreeError) : String :=
  "tree failed to compile: " ++ error.message

end BehaviorTree
