import BehaviorTree.Request
import BehaviorTree.Value.Text

/-!
# Scopes

A `Store` holds frames of variables. A `Scope` is a handle to a chain of them, innermost first;
handles share frames, so what is written through one is read through the others. A name belongs
to the nearest frame that declares it, and a name that no frame declares is made in the innermost
one.
-/

namespace BehaviorTree

/-- A frame's place in the store. -/
abbrev FrameId := Nat

/-- A chain of frames: the innermost, and the ones around it from the inside out. -/
structure Scope where
  frame : FrameId
  outer : List FrameId := []
deriving DecidableEq, Inhabited

namespace Scope

def frames (scope : Scope) : List FrameId :=
  scope.frame :: scope.outer

/-- The scope without its innermost frame. -/
def parent? (scope : Scope) : Option Scope :=
  match scope.outer with
  | [] => none
  | frame :: outer => some ⟨frame, outer⟩

def depth (scope : Scope) : Nat :=
  scope.frames.length

end Scope

/-- The frames that were made so far. -/
structure Store where
  frames : Array (Table Value) := #[]

instance : Inhabited Store := ⟨{}⟩

namespace Store

/-- The variables of a frame. -/
def frame (store : Store) (id : FrameId) : Table Value :=
  store.frames.getD id Table.empty

/-- Makes a frame inside a scope, or one with nothing around it. -/
def link (store : Store) (parent : Option Scope) (frame : Table Value) : Scope × Store :=
  let outer := match parent with
    | some scope => scope.frames
    | none => []
  (⟨store.frames.size, outer⟩, ⟨store.frames.push frame⟩)

/-- The nearest frame that declares a name. -/
def owner? (store : Store) (scope : Scope) (name : String) : Option FrameId :=
  scope.frames.find? fun id => (store.frame id).contains name

/-- What a frame holds at a path. -/
def read? (store : Store) (id : FrameId) (path : Path) : Option Value :=
  ((store.frame id).find? path.head).bind (Value.getAt path.tail)

/-- Puts a value at a path of a frame. -/
def write (store : Store) (id : FrameId) (path : Path) (value : Value) : Store :=
  ⟨store.frames.modify id fun table =>
    table.alter path.head fun old => Value.putAt value path.tail (old.getD .null)⟩

def get? (store : Store) (scope : Scope) (path : Path) : Option Value :=
  (store.owner? scope path.head).bind fun id => store.read? id path

def set (store : Store) (scope : Scope) (path : Path) (value : Value) : Store :=
  store.write ((store.owner? scope path.head).getD scope.frame) path value

def declares (store : Store) (scope : Scope) (name : String) : Bool :=
  (store.frame scope.frame).contains name

def defines (store : Store) (scope : Scope) (name : String) : Bool :=
  (store.owner? scope name).isSome

def names (store : Store) (scope : Scope) : List String :=
  (store.frame scope.frame).names

mutual

/-- Answers a request to a scope. A modification works on a copy and writes it back at the end,
into the frame that owned the name at the beginning. -/
def perform {Handle : Type} (resolve : Handle → Scope) (scope : Scope) :
    Request Handle → Store → Option Value × Store
  | .get path, store => (store.get? scope path, store)
  | .set path value, store => (none, store.set scope path value)
  | .modify path body, store =>
    match store.owner? scope path.head with
    | none => (none, store)
    | some id =>
      match store.read? id path with
      | none => (none, store)
      | some old =>
        let ((new, reply), store) := finish resolve (body old) store
        (some reply, store.write id path new)
  | .declares name, store => (some (.bool (store.declares scope name)), store)
  | .defines name, store => (some (.bool (store.defines scope name)), store)
  | .names, store => (some (.list ((store.names scope).map .str)), store)
  | .depth, store => (some (.int (Int64.ofNat scope.depth)), store)

/-- Runs the body of a modification to its new value and its reply. -/
def finish {Handle : Type} (resolve : Handle → Scope) :
    Update Handle → Store → (Value × Value) × Store
  | .finish value reply, store => ((value, reply), store)
  | .ask handle request next, store =>
    let (answer, store) := perform resolve (resolve handle) request store
    finish resolve (next answer) store

end

/-- A request whose bodies use the same scope. -/
def ask (store : Store) (scope : Scope) (request : Request Unit) : Option Value × Store :=
  perform (fun _ => scope) scope request store

/-- The variables of every frame of a chain, innermost first. -/
def chain (store : Store) (scope : Scope) : List (Entries Value) :=
  scope.frames.map fun id => (store.frame id).entries

/-- The structural text of some frames, each inside the next. -/
def inspectFrames (store : Store) : List FrameId → String
  | [] => "None"
  | id :: outer =>
    let entries := "\x7b" ++
      Value.commaSeparated (Value.entryInspections (store.frame id).entries) ++ "\x7d"
    let parent := match outer with
      | [] => "None"
      | _ => "Some(" ++ inspectFrames store outer ++ ")"
    "Scope \x7b vars: " ++ entries ++ ", parent: " ++ parent ++ " \x7d"

def inspect (store : Store) (scope : Scope) : String :=
  store.inspectFrames scope.frames

end Store

end BehaviorTree
