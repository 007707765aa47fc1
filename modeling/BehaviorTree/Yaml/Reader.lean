import BehaviorTree.Field
import BehaviorTree.Yaml.Element
import BehaviorTree.Yaml.Plain

/-!
# Reading values and definitions from YAML

Reading fails where the text is not YAML and where it does not fit. At most 128 collections may be
open at once, those that an alias leads into included, and a document may not follow aliases more
than a hundred times its size. Keys that no node has are passed over with whatever they hold.
-/

namespace BehaviorTree.Yaml

/-- A document being read, and how many aliases were followed so far. -/
abbrev Reader := ReaderT Document (StateT Nat Option)

namespace Reader

/-- The number of collections that may be open at once. -/
def maxDepth : Nat := 128

def followsPerElement : Nat := 100

/-- The element that is meant, where an alias may stand for it. -/
def follow : Element → Reader Element
  | .alias number => do
    let document ← read
    let follows ← get
    if document.size * followsPerElement ≤ follows then failure
    set (follows + 1)
    match document.anchored.lookup number with
    | some element => return element
    | none => failure
  | element => return element

/-- The name of a tag of the core schema. -/
def coreTag (name : String) : String :=
  "tag:yaml.org,2002:" ++ name

/-- A tag of the document's own has no meaning here. -/
def refuseLocalTag (p : Properties) : Reader Unit :=
  if p.tag.any fun tag => tag.toList.head? = some '!' then failure else return ()

/-- An integer that is too large for a value becomes a float, up to 64 bits. -/
def valueOfInteger (i : Int) : Reader Value :=
  if Int64.minValue.toInt ≤ i && i ≤ Int64.maxValue.toInt then return .int (Int64.ofInt i)
  else if 0 ≤ i && i < UInt64.size then return .float i.toNat.toUInt64.toFloat
  else failure

def valueOfPlain (text : String) : Plain → Reader Value
  | .null => return .null
  | .bool b => return .bool b
  | .integer i => valueOfInteger i
  | .float x => return .float x
  | .text => return .str text

/-- The value of a scalar: as its tag says, else as it looks if it is plain. -/
def valueOfScalar (p : Properties) (style : Style) (text : String) : Reader Value := do
  refuseLocalTag p
  match p.tag with
  | some tag =>
    if tag = coreTag "bool" then .bool <$> (Plain.bool? text).getDM failure
    else if tag = coreTag "int" then valueOfInteger (← (Plain.integer? text).getDM failure)
    else if tag = coreTag "float" then .float <$> (Plain.float? text).getDM failure
    else if tag = coreTag "null" then if Plain.isNull text then return .null else failure
    else return .str text
  | none => if style = .plain then valueOfPlain text (.ofText text) else return .str text

def value (depth : Nat) (element : Element) : Reader Value := do
  match ← follow element with
  | .scalar p style text => valueOfScalar p style text
  | .sequence p items =>
    refuseLocalTag p
    match depth with
    | 0 => failure
    | depth + 1 => .list <$> items.mapM (value depth)
  | .mapping p entries =>
    refuseLocalTag p
    match depth with
    | 0 => failure
    | depth + 1 =>
      let pairs ← entries.mapM fun (k, v) => do
        match ← value depth k with
        | .str key => return (key, ← value depth v)
        | _ => failure
      return .ofPairs pairs
  | .alias _ => failure

/-- The text of a scalar, whatever it looks like. -/
def string (element : Element) : Reader String := do
  match ← follow element with
  | .scalar _ _ text => return text
  | _ => failure

def bool (element : Element) : Reader Bool := do
  match ← follow element with
  | .scalar p style text =>
    if style = .plain || (style = .literal && p.tag = some (coreTag "bool")) then
      (Plain.bool? text).getDM failure
    else failure
  | _ => failure

/-- A plain scalar without text. -/
def isBlankScalar : Element → Bool
  | .scalar _ .plain "" => true
  | _ => false

/-- A field that is null is absent. -/
def optional {α : Type} (content : Element → Reader α) (element : Element) :
    Reader (Option α) := do
  let element ← follow element
  match element with
  | .scalar p .plain text =>
    match p.tag with
    | none => if text = "" || Plain.isNull text then return none else some <$> content element
    | some tag =>
      if tag = coreTag "null" then if Plain.isNull text then return none else failure
      else some <$> content element
  | _ => some <$> content element

/-- The variables of a node. -/
def scope (depth : Nat) (element : Element) : Reader (Table Value) := do
  let element ← follow element
  match element, depth with
  | .mapping _ entries, depth + 1 =>
    Table.ofList <$> entries.mapM fun (k, v) => do return (← string k, ← value depth v)
  | _, _ => if isBlankScalar element then return Table.empty else failure

/-- A threshold is read whole before it is looked at. -/
def threshold (depth : Nat) (element : Element) : Reader Threshold := do
  match ← value depth element with
  | .bool b => return .ofBool b
  | .int i => if 0 ≤ i then return .count i.toInt.toNat else failure
  | .float _ =>
    match ← follow element with
    | .scalar _ _ text =>
      match Plain.integer? text with
      | some (.ofNat n) => if Nat.pow 2 63 ≤ n then return .count n else failure
      | _ => failure
    | _ => failure
  | _ => failure

variable (depth : Nat) (children : Element → Reader (List (Child Definition)))

/-- A node with the content of one more field. -/
def setField (d : Definition) (element : Element) : Field → Reader Definition
  | .kind => return { d with kind := ← optional string element }
  | .title => return { d with title := ← optional string element }
  | .scope => return { d with scope := ← optional (scope depth) element }
  | .actionType => return { d with actionType := ← optional string element }
  | .debug => return { d with debug := ← optional bool element }
  | .action => return { d with action := (← optional string element).map .path }
  | .children field => return d.setChildren field (← optional children element)
  | .maxSuccess => return { d with maxSuccess := ← optional (threshold depth) element }
  | .maxFail => return { d with maxFail := ← optional (threshold depth) element }
  | .waitForAll => return { d with waitForAll := ← optional bool element }
  | .waitForMe => return { d with waitForMe := ← optional bool element }

/-- A node from the entries of a mapping, after some fields that it has already. -/
def node : List (Element × Element) → List Field → Definition → Reader Definition
  | [], _, d => return d
  | (key, content) :: entries, seen, d => do
    match Field.ofName? (← string key) with
    | none => node entries seen d
    | some field =>
      if field ∈ seen then failure
      else node entries (field :: seen) (← setField depth children d content field)

/-- The children under a field: a list, or a single child. -/
def childrenOf (depth : Nat) (element : Element) : Reader (List (Child Definition)) := do
  match ← follow element with
  | .scalar p style text =>
    match ← valueOfScalar p style text with
    | .str path => return [.path path]
    | _ => failure
  | .mapping p entries =>
    refuseLocalTag p
    match depth with
    | 0 => failure
    | depth + 1 => return [.node (← node depth (childrenOf depth) entries [] {})]
  | .sequence p items =>
    refuseLocalTag p
    match depth with
    | 0 => failure
    | depth + 1 =>
      items.mapM fun item => do
        match ← follow item with
        | .sequence _ _ => failure
        | item =>
          match ← childrenOf depth item with
          | [child] => return child
          | _ => failure
  | .alias _ => failure

/-- The outermost node; where nothing is written it has no fields. -/
def root : Reader Definition := do
  match (← read).root with
  | none => return {}
  | some element =>
    match element with
    | .mapping _ entries =>
      node (maxDepth - 1) (childrenOf (maxDepth - 1)) entries [] {}
    | element => if isBlankScalar element then return {} else failure

end Reader

/-- A text that holds one value. -/
def valueOfText (text : String) : Option Value := do
  let document ← Document.ofString? text
  let reader := document.root.elim (pure .null) (Reader.value Reader.maxDepth)
  let (v, _) ← (reader.run document).run 0
  return v

/-- A text that holds one node. -/
def definitionOfText (text : String) : Option Definition := do
  let document ← Document.ofString? text
  let (d, _) ← (Reader.root.run document).run 0
  return d

end BehaviorTree.Yaml
