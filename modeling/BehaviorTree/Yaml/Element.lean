import BehaviorTree.Yaml.Token

/-!
# YAML documents

The elements that a list of tokens stands for. Anchors are numbered by how many names are in use
when they are set, and an alias means the last element that got the number of its name.
-/

namespace BehaviorTree.Yaml

/-- What may stand in front of an element. -/
structure Properties where
  anchor : Option Nat := none
  tag : Option String := none
deriving Inhabited

inductive Element where
  | alias (number : Nat)
  | scalar (properties : Properties) (style : Style) (text : String)
  | sequence (properties : Properties) (items : List Element)
  | mapping (properties : Properties) (entries : List (Element × Element))
deriving Inhabited

namespace Element

/-- What stands where nothing is written. -/
def empty : Element :=
  .scalar {} .plain ""

mutual

/-- The elements with an anchor, in the order in which they begin. -/
def anchored : Element → List (Nat × Element)
  | .alias _ => []
  | .scalar p style text => (p.anchor.map fun n => (n, .scalar p style text)).toList
  | .sequence p items =>
    (p.anchor.map fun n => (n, .sequence p items)).toList ++ anchoredItems items
  | .mapping p entries =>
    (p.anchor.map fun n => (n, .mapping p entries)).toList ++ anchoredEntries entries

def anchoredItems : List Element → List (Nat × Element)
  | [] => []
  | item :: items => anchored item ++ anchoredItems items

def anchoredEntries : List (Element × Element) → List (Nat × Element)
  | [] => []
  | (key, value) :: entries => anchored key ++ anchored value ++ anchoredEntries entries

end

mutual

/-- How long a document is: one for a scalar or an alias, two for the ends of a collection. -/
def size : Element → Nat
  | .alias _ => 1
  | .scalar .. => 1
  | .sequence _ items => 2 + sizeItems items
  | .mapping _ entries => 2 + sizeEntries entries

def sizeItems : List Element → Nat
  | [] => 0
  | item :: items => size item + sizeItems items

def sizeEntries : List (Element × Element) → Nat
  | [] => 0
  | (key, value) :: entries => size key + size value + sizeEntries entries

end

end Element

/-- What is left to read of a document, and the numbers of the anchors so far. -/
structure Unread where
  tokens : List Token
  names : List (String × Nat) := []
deriving Inhabited

abbrev Grammar := StateT Unread Option

namespace Grammar

def peek : Grammar (Option Token) :=
  return (← get).tokens.head?

def advance : Grammar Unit :=
  modify fun u => { u with tokens := u.tokens.tail }

/-- Takes a token if it is the expected one. -/
def take? (expected : Token → Bool) : Grammar Bool := do
  if (← peek).any expected then advance; return true else return false

/-- Repeats a step until it gives nothing. The step learns whether it is the first one. -/
def collect {α : Type} (step : Bool → Grammar (Option α)) : Nat → Bool → Grammar (List α)
  | 0, _ => failure
  | fuel + 1, first => do
    match ← step first with
    | none => return []
    | some x => return x :: (← collect step fuel false)

def collectAll {α : Type} (step : Bool → Grammar (Option α)) : Grammar (List α) := do
  collect step ((← get).tokens.length + 1) true

/-- Reads an element unless a token follows at which none can begin. -/
def orEmpty (stops : Token → Bool) (element : Grammar Element) : Grammar Element := do
  if (← peek).any stops then return .empty else element

def isBlockEntry : Token → Bool
  | .blockEntry => true
  | _ => false

def isKey : Token → Bool
  | .key => true
  | _ => false

def isValue : Token → Bool
  | .value => true
  | _ => false

def isBlockEnd : Token → Bool
  | .blockEnd => true
  | _ => false

def isFlowEntry : Token → Bool
  | .flowEntry => true
  | _ => false

def isFlowSequenceEnd : Token → Bool
  | .flowSequenceEnd => true
  | _ => false

def isFlowMappingEnd : Token → Bool
  | .flowMappingEnd => true
  | _ => false

/-- Where a key or a value of a block mapping cannot begin. -/
def endsInBlock (t : Token) : Bool :=
  isKey t || isValue t || isBlockEnd t

variable (block : Bool → Grammar Element) (flow : Grammar Element)

/-- An item of a block sequence. -/
def blockItem (_ : Bool) : Grammar (Option Element) := do
  if ← take? isBlockEntry then
    some <$> orEmpty (fun t => isBlockEntry t || isBlockEnd t) (block false)
  else if ← take? isBlockEnd then return none
  else failure

/-- An item of a sequence that stands at the column of the mapping around it. -/
def alignedItem (_ : Bool) : Grammar (Option Element) := do
  if ← take? isBlockEntry then
    some <$> orEmpty (fun t => isBlockEntry t || endsInBlock t) (block false)
  else return none

def blockPair (_ : Bool) : Grammar (Option (Element × Element)) := do
  if ← take? isBlockEnd then return none
  let key ← if ← take? isKey then orEmpty endsInBlock (block true) else failure
  let value ← if ← take? isValue then orEmpty endsInBlock (block true) else pure .empty
  return some (key, value)

/-- The comma in front of what is not the first of a flow collection. -/
def separator (first : Bool) (stops : Token → Bool) : Grammar Unit := do
  if !first && !(← peek).any stops then
    if !(← take? isFlowEntry) then failure

/-- A mapping of one pair that stands in a flow sequence. -/
def singlePair : Grammar Element := do
  let stops t := isFlowEntry t || isFlowSequenceEnd t
  let key ←
    if ← take? fun t => isValue t || stops t then pure .empty else flow
  let value ← if ← take? isValue then orEmpty stops flow else pure .empty
  return .mapping {} [(key, value)]

def flowItem (first : Bool) : Grammar (Option Element) := do
  separator first isFlowSequenceEnd
  if ← take? isFlowSequenceEnd then return none
  if ← take? isKey then some <$> singlePair flow else some <$> flow

def flowPair (first : Bool) : Grammar (Option (Element × Element)) := do
  separator first isFlowMappingEnd
  if ← take? isFlowMappingEnd then return none
  let stops t := isFlowEntry t || isFlowMappingEnd t
  if ← take? isKey then
    let key ← orEmpty (fun t => isValue t || stops t) flow
    let value ← if ← take? isValue then orEmpty stops flow else pure .empty
    return some (key, value)
  else return some (← flow, .empty)

/-- What the handles of tags stand for. -/
abbrev Handles := List (String × String)

def anchor? : Grammar (Option Nat) := do
  match ← peek with
  | some (.anchor name) =>
    advance
    let u ← get
    let number := u.names.length
    let names := u.names.filter fun entry => entry.1 ≠ name
    set { u with names := (name, number) :: names }
    return some number
  | _ => return none

def tag? (handles : Handles) : Grammar (Option String) := do
  match ← peek with
  | some (.tag handle suffix) =>
    advance
    if handle = "" then return some suffix
    match handles.lookup handle with
    | some expansion => return some (expansion ++ suffix)
    | none => failure
  | _ => return none

/-- An anchor and a tag, in either order. -/
def properties (handles : Handles) : Grammar Properties := do
  match ← anchor? with
  | some number => return { anchor := some number, tag := ← tag? handles }
  | none =>
    let tag ← tag? handles
    return { anchor := ← if tag.isSome then anchor? else pure none, tag }

/-- An element at a place where blocks may begin or not, and where the items of a sequence may
stand no further right than what is around it or not. -/
def element (handles : Handles) : Nat → Bool → Bool → Grammar Element
  | 0, _, _ => failure
  | fuel + 1, inBlock, aligned => do
    if let some (.alias name) ← peek then
      advance
      match (← get).names.lookup name with
      | some number => return .alias number
      | none => failure
    let p ← properties handles
    match ← peek with
    | some (.scalar style text) =>
      advance
      return .scalar (if p.tag = some "!" then { p with tag := none } else p) style text
    | some .flowSequenceStart =>
      advance
      return .sequence p (← collectAll (flowItem (element handles fuel false false)))
    | some .flowMappingStart =>
      advance
      return .mapping p (← collectAll (flowPair (element handles fuel false false)))
    | some .blockSequenceStart =>
      if inBlock then
        advance
        return .sequence p (← collectAll (blockItem (element handles fuel true)))
    | some .blockMappingStart =>
      if inBlock then
        advance
        return .mapping p (← collectAll (blockPair (element handles fuel true)))
    | some .blockEntry =>
      if aligned then
        return .sequence p (← collectAll (alignedItem (element handles fuel true)))
    | _ => pure ()
    if p.anchor.isSome || p.tag.isSome then return .scalar p .plain "" else failure

/-- The directives in front of a document: a version at most once, and handles of tags. -/
def directives : Nat → Bool → Handles → Grammar Handles
  | 0, _, handles => return handles
  | fuel + 1, versioned, handles => do
    match ← peek with
    | some (.directive .version) =>
      if versioned then failure
      advance
      directives fuel true handles
    | some (.directive (.tag handle expansion)) =>
      if (handles.lookup handle).isSome then failure
      advance
      directives fuel versioned ((handle, expansion) :: handles)
    | _ => return handles

/-- The handles that need no directive. -/
def standardHandles : Handles :=
  [("!", "!"), ("!!", "tag:yaml.org,2002:")]

/-- The only document of a text, if there is one at all. -/
def document : Grammar (Option Element) := do
  let fuel := (← get).tokens.length + 1
  let root ←
    match ← peek with
    | none => pure none
    | some (.directive _) | some .documentStart =>
      let handles ← directives fuel false []
      match ← peek with
      | some .documentStart => advance
      | _ => failure
      match ← peek with
      | none | some (.directive _) | some .documentStart | some .documentEnd =>
        pure (some Element.empty)
      | _ => some <$> element (handles ++ standardHandles) fuel true false
    | _ => some <$> element standardHandles fuel true false
  modify fun u => { u with tokens := u.tokens.dropWhile fun
    | .documentEnd => true
    | _ => false }
  if (← peek).isSome then failure
  return root

end Grammar

/-- The document of a text: its outermost element, and what its anchors mean. -/
structure Document where
  root : Option Element
  anchored : List (Nat × Element)
  size : Nat
deriving Inhabited

def Document.ofString? (text : String) : Option Document := do
  let tokens ← Token.ofString? text
  let (root, _) ← Grammar.document.run { tokens }
  return {
    root
    anchored := (root.elim [] Element.anchored).reverse
    size := root.elim 1 Element.size }

end BehaviorTree.Yaml
