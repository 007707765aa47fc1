import BehaviorTree.Field
import BehaviorTree.Json.Number
import BehaviorTree.Value.Text

/-!
# Reading values and definitions from JSON

A document is interpreted in the order of its text, and the first fault or misfit in that order
is the answer. At most 127 brackets may be open at once. Keys that no node has are passed over
with whatever they hold.
-/

namespace BehaviorTree.Json

/-- What stands where something else was expected. -/
inductive Found where
  | bool (b : Bool)
  | number (n : Number)
  | string (s : String)
  | null
  | sequence
  | map

/-- What was expected. -/
inductive Expected where
  | string
  | boolean
  | map
  | child
  | children
  | node

/-- Why a text does not give what is read from it. -/
inductive Misfit where
  /-- The text is not JSON, or nested too deep. -/
  | malformed
  | invalidType (found : Found) (expected : Expected)
  | noThreshold
  | duplicateField (name : String)
  | invalidLength (length : Nat)

def Number.text : Number → String
  | .integer i => String.ofList (writeInt i)
  | .float x => FloatLayout.json.write x

def Found.text : Found → String
  | .bool b => "boolean " ++ quote (if b then "true" else "false")
  | .number (.integer i) => "integer " ++ quote (Number.text (.integer i))
  | .number (.float x) => "floating point " ++ quote (Number.text (.float x))
  | .string s => "string " ++ Text.quoted s
  | .null => "null"
  | .sequence => "sequence"
  | .map => "map"
where
  /-- The text between grave accents. -/
  quote (s : String) : String := "\x60" ++ s ++ "\x60"

def Expected.text : Expected → String
  | .string => "a string"
  | .boolean => "a boolean"
  | .map => "a map"
  | .child => "an action path or a node"
  | .children => "a list of children, an action path or a node"
  | .node => "struct NodeDef"

def Misfit.message : Misfit → String
  | .malformed => "<not json>"
  | .invalidType found expected => "invalid type: " ++ found.text ++ ", expected " ++ expected.text
  | .noThreshold => "data did not match any variant of untagged enum Raw"
  | .duplicateField name => "duplicate field \x60" ++ name ++ "\x60"
  | .invalidLength n =>
    "invalid length " ++ String.ofList (writeNat n) ++ ", expected struct NodeDef with 17 elements"

/-- The number of brackets that may be open at once. -/
def maxDepth : Nat := 127

def literalText : StringLiteral → Except Misfit String
  | some s => .ok s
  | none => .error .malformed

def number (literal : NumberLiteral) : Except Misfit Number :=
  match literal.read? with
  | some n => .ok n
  | none => .error .malformed

/-- An integer that is too large for a value becomes a float. -/
def valueOfNumber : Number → Value
  | .integer i =>
    if i ≤ Int64.maxValue.toInt then .int (Int64.ofInt i)
    else .float i.toNat.toUInt64.toFloat
  | .float x => .float x

def whenClosed {α : Type} (closed : Bool) (result : α) : Except Misfit α :=
  if closed then .ok result else .error .malformed

mutual

/-- The value of a document that may open some more brackets. -/
def value : Nat → Document → Except Misfit Value
  | _, .null => .ok .null
  | _, .bool b => .ok (.bool b)
  | _, .number literal => valueOfNumber <$> number literal
  | _, .string literal => .str <$> literalText literal
  | 0, .array _ _ => .error .malformed
  | depth + 1, .array items closed => do
    let values ← valueItems depth items
    whenClosed closed (.list values)
  | 0, .object _ _ => .error .malformed
  | depth + 1, .object members closed => do
    let pairs ← valueMembers depth members
    whenClosed closed (.ofPairs pairs)
  | _, .fault => .error .malformed

def valueItems : Nat → List Document → Except Misfit (List Value)
  | _, [] => .ok []
  | depth, item :: rest => do
    let v ← value depth item
    let vs ← valueItems depth rest
    return v :: vs

def valueMembers : Nat → List (StringLiteral × Document) → Except Misfit (List (String × Value))
  | _, [] => .ok []
  | depth, (key, document) :: rest => do
    let key ← literalText key
    let v ← value depth document
    let pairs ← valueMembers depth rest
    return (key, v) :: pairs

end

/-- The misfit of a document where something else was expected. -/
def misfit (document : Document) (expected : Expected) : Misfit :=
  match document with
  | .null => .invalidType .null expected
  | .bool b => .invalidType (.bool b) expected
  | .number literal =>
    match literal.read? with
    | some n => .invalidType (.number n) expected
    | none => .malformed
  | .string literal =>
    match literal with
    | some s => .invalidType (.string s) expected
    | none => .malformed
  | .array _ _ => .invalidType .sequence expected
  | .object _ _ => .invalidType .map expected
  | .fault => .malformed

/-- A field that is null is absent. -/
def optional {α : Type} (read : Document → Except Misfit α) :
    Document → Except Misfit (Option α)
  | .null => .ok none
  | document => some <$> read document

def stringField : Document → Except Misfit String
  | .string literal => literalText literal
  | document => .error (misfit document .string)

def boolField : Document → Except Misfit Bool
  | .bool b => .ok b
  | document => .error (misfit document .boolean)

def scopeField : Nat → Document → Except Misfit (Table Value)
  | 0, .object _ _ => .error .malformed
  | depth + 1, .object members closed => do
    let pairs ← valueMembers depth members
    whenClosed closed (Table.ofList pairs)
  | _, document => .error (misfit document .map)

/-- A threshold is read whole before it is looked at. -/
def thresholdField (depth : Nat) (document : Document) : Except Misfit Threshold := do
  let _ ← value depth document
  match document with
  | .bool b => return .ofBool b
  | .number literal =>
    match ← number literal with
    | .integer (.ofNat n) => return .count n
    | _ => .error .noThreshold
  | _ => .error .noThreshold

mutual

/-- A node with the content of one more field. -/
def setField (depth : Nat) (d : Definition) : Field → Document → Except Misfit Definition
  | .kind, document => do return { d with kind := ← optional stringField document }
  | .title, document => do return { d with title := ← optional stringField document }
  | .scope, document => do return { d with scope := ← optional (scopeField depth) document }
  | .actionType, document => do return { d with actionType := ← optional stringField document }
  | .debug, document => do return { d with debug := ← optional boolField document }
  | .action, document => do
    let path ← optional stringField document
    return { d with action := path.map .path }
  | .children field, document => do return d.setChildren field (← children depth document)
  | .maxSuccess, document => do
    return { d with maxSuccess := ← optional (thresholdField depth) document }
  | .maxFail, document => do
    return { d with maxFail := ← optional (thresholdField depth) document }
  | .waitForAll, document => do return { d with waitForAll := ← optional boolField document }
  | .waitForMe, document => do return { d with waitForMe := ← optional boolField document }

/-- The children under a field: a list, or a single child. -/
def children : Nat → Document → Except Misfit (Option (List (Child Definition)))
  | _, .null => .ok none
  | _, .string literal => do return some [.path (← literalText literal)]
  | 0, .object _ _ => .error .malformed
  | depth + 1, .object members closed => do
    let d ← objectNode depth members [] {}
    whenClosed closed (some [.node d])
  | 0, .array _ _ => .error .malformed
  | depth + 1, .array items closed => do
    let cs ← childItems depth items
    whenClosed closed (some cs)
  | _, document => .error (misfit document .children)

def childItems : Nat → List Document → Except Misfit (List (Child Definition))
  | _, [] => .ok []
  | depth, item :: rest => do
    let c ← child depth item
    let cs ← childItems depth rest
    return c :: cs

def child : Nat → Document → Except Misfit (Child Definition)
  | _, .string literal => .path <$> literalText literal
  | 0, .object _ _ => .error .malformed
  | depth + 1, .object members closed => do
    let d ← objectNode depth members [] {}
    whenClosed closed (.node d)
  | 0, .array _ _ => .error .malformed
  | _, document => .error (misfit document .child)

/-- A node from the members of an object, after some fields that it has already. -/
def objectNode : Nat → List (StringLiteral × Document) → List Field → Definition →
    Except Misfit Definition
  | _, [], _, d => .ok d
  | depth, (key, document) :: rest, seen, d => do
    match Field.ofName? (← literalText key) with
    | none => objectNode depth rest seen d
    | some field =>
      if field ∈ seen then .error (.duplicateField field.name)
      else objectNode depth rest (field :: seen) (← setField depth d field document)

end

/-- A node from an array that has some of the fields, in order, each in its place. -/
def arrayNode (depth : Nat) (items : List Document) (closed : Bool) :
    List Field → List Document → Definition → Except Misfit Definition
  | [], rest, d => whenClosed (closed && rest.isEmpty) d
  | _ :: _, [], _ => .error (if closed then .invalidLength items.length else .malformed)
  | field :: fields, item :: rest, d => do
    arrayNode depth items closed fields rest (← setField depth d field item)

/-- The outermost node; it may be written as an array of all fields. -/
def rootNode : Document → Except Misfit Definition
  | .object members closed => do
    whenClosed closed (← objectNode (maxDepth - 1) members [] {})
  | .array items closed => arrayNode (maxDepth - 1) items closed Field.all items {}
  | document => .error (misfit document .node)

/-- A text that holds one value. -/
def valueOfText (text : String) : Except Misfit Value := do
  let (document, complete) := Document.ofText text
  let v ← value maxDepth document
  whenClosed complete v

/-- A text that holds one node. -/
def definitionOfText (text : String) : Except Misfit Definition := do
  let (document, complete) := Document.ofText text
  let d ← rootNode document
  whenClosed complete d

end BehaviorTree.Json
