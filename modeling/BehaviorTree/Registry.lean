import BehaviorTree.Action

/-!
# Registries

A registry holds actions at dotted paths. It is a tree of groups: an action is registered at the
last segment of its path, inside the groups that the other segments name, and it displaces
whatever stood in the way.
-/

namespace BehaviorTree

/-- What stands at a segment: an action, or a group of entries. -/
inductive RegistryEntry where
  | action (action : Action)
  | group (entries : List (String × RegistryEntry))

/-- Why a path leads to no action. -/
inductive Unresolved where
  | missing
  /-- The path ends at a group. -/
  | isGroup
deriving DecidableEq

namespace RegistryEntry

/-- The entries of a group; an action, or nothing, has none. -/
def entriesOf : Option RegistryEntry → Entries RegistryEntry
  | some (group entries) => entries
  | _ => []

/-- Registers an action at some segments. -/
def put (a : Action) : List String → Entries RegistryEntry → Entries RegistryEntry
  | [], entries => entries
  | [name], entries => entries.insert name (.action a)
  | name :: rest, entries =>
    entries.alter name fun old => .group (put a rest (entriesOf old))

def resolve : List String → Entries RegistryEntry → Except Unresolved Action
  | [], _ => .error .missing
  | [name], entries =>
    match entries.find? name with
    | some (.action a) => .ok a
    | some (.group _) => .error .isGroup
    | none => .error .missing
  | name :: rest, entries =>
    match entries.find? name with
    | some (.group nested) => resolve rest nested
    | _ => .error .missing

/-- The path of a name inside a group; the outermost group has the empty path. -/
def join (path name : String) : String :=
  if path.isEmpty then name else path ++ "." ++ name

mutual

/-- The actions at and below an entry, under their paths. -/
def listing (path : String) : RegistryEntry → List (String × Action)
  | .action a => [(path, a)]
  | .group entries => listingAll path entries

def listingAll (path : String) : List (String × RegistryEntry) → List (String × Action)
  | [] => []
  | (name, entry) :: rest => listing (join path name) entry ++ listingAll path rest

end

mutual

def count : RegistryEntry → Nat
  | .action _ => 1
  | .group entries => countAll entries

def countAll : List (String × RegistryEntry) → Nat
  | [] => 0
  | (_, entry) :: rest => count entry + countAll rest

end

end RegistryEntry

structure Registry where
  entries : Entries RegistryEntry := []

namespace Registry

def empty : Registry := {}

instance : Inhabited Registry := ⟨empty⟩

/-- Registers an action at a path, in the place of whatever was there. -/
def insert (registry : Registry) (path : Path) (action : Action) : Registry :=
  ⟨RegistryEntry.put action path.segments registry.entries⟩

def resolve (registry : Registry) (path : Path) : Except Unresolved Action :=
  RegistryEntry.resolve path.segments registry.entries

def get? (registry : Registry) (path : Path) : Option Action :=
  (registry.resolve path).toOption

/-- Every action with its path, in the order of the segments. -/
def toList (registry : Registry) : List (String × Action) :=
  RegistryEntry.listingAll "" registry.entries

/-- The number of actions. -/
def size (registry : Registry) : Nat :=
  RegistryEntry.countAll registry.entries

def isEmpty (registry : Registry) : Bool :=
  registry.size = 0

/-- Registers every action of another registry inside a group. -/
def mount (registry : Registry) (group : String) (other : Registry) : Registry :=
  other.toList.foldl
    (fun registry (path, action) => registry.insert (Path.ofString (group ++ "." ++ path)) action)
    registry

def ofList (actions : List (String × Action)) : Registry :=
  actions.foldl (fun registry entry => registry.insert (Path.ofString entry.1) entry.2) empty

end Registry

end BehaviorTree
