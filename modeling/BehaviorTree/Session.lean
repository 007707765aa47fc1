import BehaviorTree.Tree

/-!
# Sessions

A session holds a registry, the options of its trees, the tree made last and an engine to run it,
and carries out one step at a time. Losing children of a parallel node go on from step to step.
-/

namespace BehaviorTree

/-- Whose scope a step is about. -/
inductive Owner where
  | tree
  | globals
deriving DecidableEq, Inhabited

namespace Session

inductive Step where
  /-- Makes a tree the current one, even if it fails. -/
  | create (source : Except SourceError Source)
  /-- Makes a tree the current one unless it fails. -/
  | compile (source : Except SourceError Source)
  | run (input : Value)
  /-- Runs the tree several times at once. -/
  | join (inputs : List Value)
  /-- Lets background work come to its end. -/
  | settle
  | get (owner : Owner) (path : Path)
  | set (owner : Owner) (path : Path) (value : Value)
  | chain (owner : Owner)
  | options
  /-- Lists the actions of the current tree. -/
  | paths

inductive Answer where
  | created (tree : Tree)
  | compiled (nodes : Nat)
  /-- A source without a tree. -/
  | failed (error : TreeError)
  | outcome (outcome : Outcome) (elapsed : Option Nat)
  /-- A tree in error state is not run. -/
  | refused (error : TreeError)
  | outcomes (outcomes : List (Except TreeError Outcome))
  | noTree
  | settled
  | value (value : Option Value)
  | noScope
  | written (frames : List (Entries Value))
  | chain (frames : List (Entries Value))
  | options (text : String)
  | paths (paths : Option (List String))

end Session

structure Session where
  registry : Registry
  options : Options
  tree : Option Tree := none
  engine : Engine

namespace Session

/-- Long enough for whatever goes on in the background. -/
def settlingTime : Nat := 1000000000

def store (session : Session) : Store :=
  session.engine.world.store

def withStore (session : Session) (store : Store) : Session :=
  let world := session.engine.world
  { session with engine := session.engine.withWorld { world with store } }

/-- The tree of a source, compiled with the registry and the options of the session. -/
def load (session : Session) (files : Files) (source : Source) : Tree × Session :=
  let (tree, world) :=
    Tree.create files source session.registry session.options session.engine.world
  (tree, { session with engine := session.engine.withWorld world })

def scope? (session : Session) : Owner → Option Scope
  | .globals => session.options.globals
  | .tree => session.tree.bind Tree.rootScope?

def elapsed (before after : Engine) : Option Nat := do
  return (← after.now?) - (← before.now?)

/-- Carries out one step. -/
def perform (session : Session) (files : Files) : Step → Answer × Session
  | .create (.error error) => (.failed (.source error), session)
  | .create (.ok source) =>
    let (tree, session) := session.load files source
    (.created tree, { session with tree := some tree })
  | .compile (.error error) => (.failed (.source error), session)
  | .compile (.ok source) =>
    let (tree, session) := session.load files source
    match tree.root with
    | .error error => (.failed error, session)
    | .ok root => (.compiled root.count, { session with tree := some tree })
  | .run input =>
    match session.tree with
    | none => (.noTree, session)
    | some tree =>
      match tree.run [input] session.engine with
      | .error error => (.refused error, session)
      | .ok (outcomes, engine) =>
        (.outcome (outcomes.headD default) (elapsed session.engine engine), { session with engine })
  | .join inputs =>
    match session.tree with
    | none => (.noTree, session)
    | some tree =>
      match tree.run inputs session.engine with
      | .error error => (.outcomes (inputs.map fun _ => .error error), session)
      | .ok (outcomes, engine) => (.outcomes (outcomes.map .ok), { session with engine })
  | .settle => (.settled, { session with engine := session.engine.pass settlingTime })
  | .get owner path =>
    match session.scope? owner with
    | none => (.noScope, session)
    | some scope => (.value (session.store.get? scope path), session)
  | .set owner path value =>
    match session.scope? owner with
    | none => (.noScope, session)
    | some scope =>
      let session := session.withStore (session.store.set scope path value)
      (.written (session.store.chain scope), session)
  | .chain owner =>
    match session.scope? owner with
    | none => (.noScope, session)
    | some scope => (.chain (session.store.chain scope), session)
  | .options => (.options (session.options.inspect session.store), session)
  | .paths =>
    let listed (tree : Tree) : List String :=
      tree.actions.toList.map fun (path, action) => path ++ ":" ++ action.convention.name
    (.paths (session.tree.map listed), session)

/-- Takes out what happened since the last report. -/
def report (session : Session) (sink : Sink) : Report × Session :=
  let (report, engine) := session.engine.report sink
  (report, { session with engine })

end Session

end BehaviorTree
