import BehaviorTree.Entries
import BehaviorTree.Path

/-!
# Values

The data that actions exchange and variables hold, with reading and writing at a path. Reading
descends maps only; writing makes maps on the way and replaces what is not a map.
-/

namespace BehaviorTree

/-- The entries of a map are searched in the order of their keys. -/
inductive Value where
  | null
  | bool (b : Bool)
  | int (i : Int64)
  | float (x : Float)
  | str (s : String)
  | list (items : List Value)
  | map (entries : List (String × Value))
deriving Inhabited

namespace Value

mutual

/-- Equal structure; floats are compared as numbers, so a value that holds NaN differs from
itself. -/
def beq : Value → Value → Bool
  | null, null => true
  | bool a, bool b => a == b
  | int a, int b => a == b
  | float a, float b => a == b
  | str a, str b => a == b
  | list as, list bs => beqItems as bs
  | map as, map bs => beqEntries as bs
  | _, _ => false

def beqItems : List Value → List Value → Bool
  | [], [] => true
  | a :: as, b :: bs => beq a b && beqItems as bs
  | _, _ => false

def beqEntries : List (String × Value) → List (String × Value) → Bool
  | [], [] => true
  | (j, a) :: as, (k, b) :: bs => j == k && beq a b && beqEntries as bs
  | _, _ => false

end

instance : BEq Value := ⟨beq⟩

/-- Null, false, zero, NaN and the empty text are not true; lists and maps are. -/
def isTruthy : Value → Bool
  | null => false
  | bool b => b
  | int i => i != 0
  | float x => x != 0 && x == x
  | str s => !s.isEmpty
  | list _ => true
  | map _ => true

def isNull : Value → Bool
  | null => true
  | _ => false

def asBool? : Value → Option Bool
  | bool b => some b
  | _ => none

def asInt? : Value → Option Int64
  | int i => some i
  | _ => none

/-- Integers are widened. -/
def asFloat? : Value → Option Float
  | int i => some i.toFloat
  | float x => some x
  | _ => none

def asString? : Value → Option String
  | str s => some s
  | _ => none

def asList? : Value → Option (List Value)
  | list items => some items
  | _ => none

def asMap? : Value → Option (Entries Value)
  | map entries => some entries
  | _ => none

/-- The entries of a map; other values have none. -/
def entries : Value → Entries Value
  | map entries => entries
  | _ => []

/-- What stands below a value at some segments. -/
def getAt : List String → Value → Option Value
  | [], value => some value
  | segment :: rest, value => (value.entries.find? segment).bind (getAt rest)

/-- Puts a value at some segments below another. -/
def putAt (new : Value) : List String → Value → Value
  | [], _ => new
  | segment :: rest, value =>
    map (value.entries.alter segment fun old => putAt new rest (old.getD null))

/-- Changes what stands at some segments, if anything does. -/
def changeAt? (f : Value → Value) : List String → Value → Option Value
  | [], value => some (f value)
  | segment :: rest, value =>
    (value.entries.find? segment).bind fun old =>
      (changeAt? f rest old).map fun new => map (value.entries.insert segment new)

def get? (value : Value) (path : Path) : Option Value :=
  value.getAt path.segments

def insert (value : Value) (path : Path) (new : Value) : Value :=
  putAt new path.segments value

def change? (value : Value) (path : Path) (f : Value → Value) : Option Value :=
  changeAt? f path.segments value

/-- A map of some pairs, of which a later one of the same key counts. -/
def ofPairs (pairs : List (String × Value)) : Value :=
  map (Entries.ofList pairs)

def ofOption : Option Value → Value
  | some value => value
  | none => null

theorem getAt_append : ∀ (p q : List String) (v : Value),
    v.getAt (p ++ q) = (v.getAt p).bind (getAt q)
  | [], _, _ => rfl
  | s :: p, q, v => by
    cases h : v.entries.find? s with
    | none => simp [getAt, h]
    | some w => simpa [getAt, h] using getAt_append p q w

end Value

end BehaviorTree
