import BehaviorTree.Yaml.Tag

/-!
# YAML tokens

A text as a list of tokens. Blocks open and close by indentation, so their tokens have no text of
their own; and that a scalar is a key shows only at the colon after it, so a key token is placed in
front of what was read already.
-/

namespace BehaviorTree.Yaml

/-- How a scalar is written, as far as that bears on its meaning. -/
inductive Style where
  | plain
  | literal
  | other
deriving DecidableEq, Inhabited

inductive Token where
  | directive (directive : Directive)
  | documentStart
  | documentEnd
  | blockSequenceStart
  | blockMappingStart
  | blockEnd
  | flowSequenceStart
  | flowSequenceEnd
  | flowMappingStart
  | flowMappingEnd
  | blockEntry
  | flowEntry
  | key
  | value
  | alias (name : String)
  | anchor (name : String)
  | tag (handle suffix : String)
  | scalar (style : Style) (text : String)
deriving Inhabited

/-- Where something began that is a key if a colon follows on its line. -/
structure KeyCandidate where
  /-- How many tokens stood before it. -/
  position : Nat
  /-- It starts a line of a block mapping, where only a key can stand. -/
  required : Bool
  start : Cursor
deriving Inhabited

/-- The tokens read so far, with what decides how to go on. -/
structure Lexer where
  cursor : Cursor
  tokens : Array Token := #[]
  /-- The columns of the open blocks, innermost first. -/
  blocks : List Nat := []
  /-- Whether a key may begin here. -/
  keyAllowed : Bool := true
  /-- What may become a key, in the innermost flow collection or in the blocks. -/
  candidate : Option KeyCandidate := none
  /-- The same for each collection around that. -/
  outer : List (Option KeyCandidate) := []
deriving Inhabited

namespace Lexer

def inFlow (l : Lexer) : Bool :=
  !l.outer.isEmpty

/-- The column of the innermost block. -/
def indent (l : Lexer) : Int :=
  l.blocks.head?.elim (-1) Int.ofNat

def push (l : Lexer) (token : Token) : Lexer :=
  { l with tokens := l.tokens.push token }

/-- Adds a token that takes up some characters. -/
def pushOver (l : Lexer) (n : Nat) (token : Token) : Lexer :=
  { l with tokens := l.tokens.push token, cursor := l.cursor.skip n }

/-- Passes over white space, comments and empty lines. -/
def skipSpace : Nat → Lexer → Lexer
  | 0, l => l
  | fuel + 1, l =>
    let c := l.cursor
    let c := if c.index = 0 && c.sees '\ufeff' then c.skip 1 else c
    let c := c.skipWhile fun x => x = ' ' || (x = '\t' && (l.inFlow || !l.keyAllowed))
    let c := if c.sees '#' then c.skipWhile fun x => !isBreak x else c
    if c.seesBreak then
      skipSpace fuel { l with cursor := c.skipBreak, keyAllowed := l.keyAllowed || !l.inFlow }
    else { l with cursor := c }

/-- A key ends on the line on which it begins, and is no longer than this many characters. -/
def longestKey : Nat := 1024

/-- Gives up a candidate that is too far back. -/
def refresh (c : Cursor) : Option KeyCandidate → Option (Option KeyCandidate)
  | none => some none
  | some key =>
    if key.start.line < c.line || key.start.index + longestKey < c.index then
      if key.required then none else some none
    else some (some key)

def refreshAll (l : Lexer) : Option Lexer := do
  return { l with
    candidate := ← refresh l.cursor l.candidate
    outer := ← l.outer.mapM (refresh l.cursor) }

/-- Gives up the candidate of the innermost collection. -/
def dropCandidate (l : Lexer) : Option Lexer :=
  if l.candidate.any (·.required) then none else some { l with candidate := none }

/-- Takes note that a key may begin here. -/
def noteCandidate (l : Lexer) : Option Lexer :=
  if l.keyAllowed then do
    let l ← l.dropCandidate
    return { l with candidate := some {
      position := l.tokens.size
      required := !l.inFlow && l.indent == l.cursor.column
      start := l.cursor } }
  else some l

/-- Closes the blocks that stand further right than a column. -/
def closeBlocks (l : Lexer) (column : Int) : Lexer :=
  if l.inFlow then l
  else
    let closed := l.blocks.takeWhile fun b => decide (column < (b : Nat))
    { l with
      tokens := closed.foldl (fun ts _ => ts.push .blockEnd) l.tokens
      blocks := l.blocks.drop closed.length }

/-- Opens a block at a column that is further right than the innermost one. -/
def openBlock (l : Lexer) (column position : Nat) (token : Token) : Lexer :=
  if l.inFlow || column ≤ l.indent then l
  else { l with
    blocks := column :: l.blocks
    tokens := l.tokens.insertIdxIfInBounds position token }

/-- The mark of an entry, of a key or of a value that stands for itself. -/
def indicator (l : Lexer) (opening token : Token) (keyAllowed : Bool) : Option Lexer := do
  if !l.inFlow && !l.keyAllowed then none
  let l := l.openBlock l.cursor.column l.tokens.size opening
  let l ← l.dropCandidate
  return { l.pushOver 1 token with keyAllowed }

def openFlow (l : Lexer) (token : Token) : Option Lexer := do
  let l ← l.noteCandidate
  return { l.pushOver 1 token with
    keyAllowed := true
    candidate := none
    outer := l.candidate :: l.outer }

def closeFlow (l : Lexer) (token : Token) : Option Lexer := do
  let l ← l.dropCandidate
  return { l.pushOver 1 token with
    keyAllowed := false
    candidate := l.outer.head?.join
    outer := l.outer.tail }

/-- A colon: what stands before it on the line becomes a key. -/
def value (l : Lexer) : Option Lexer :=
  match l.candidate with
  | none =>
    if !l.inFlow && !l.keyAllowed then none
    else
      let l := l.openBlock l.cursor.column l.tokens.size .blockMappingStart
      some { l.pushOver 1 .value with keyAllowed := !l.inFlow }
  | some key =>
    let l := { l with tokens := l.tokens.insertIdxIfInBounds key.position .key }
    let l := l.openBlock key.start.column key.position .blockMappingStart
    some { l.pushOver 1 .value with candidate := none, keyAllowed := false }

/-- The name of an anchor or an alias. -/
def name (l : Lexer) (token : String → Token) : Option Lexer := do
  let l ← l.noteCandidate
  let (word, c) := (l.cursor.skip 1).span isWordChar
  if word.isEmpty then none
  if !(c.spaceAt 0 || c.seesAt 0 fun x => "?:,]\x7d%@\x60".contains x) then none
  return { l.push (token (String.ofList word)) with cursor := c, keyAllowed := false }

def tag (l : Lexer) : Option Lexer := do
  let l ← l.noteCandidate
  let (handle, suffix, c) ← tagParts l.inFlow l.cursor
  return { l.push (.tag handle suffix) with cursor := c, keyAllowed := false }

/-- A line that stands outside the blocks. -/
def leaveBlocks (l : Lexer) : Option Lexer := do
  let l ← (l.closeBlocks (-1)).dropCandidate
  return { l with keyAllowed := false }

def quotedScalar (l : Lexer) (single : Bool) : Option Lexer := do
  let l ← l.noteCandidate
  let c := l.cursor.skip 1
  let (text, c) ← Scalar.quoted single (c.rest.length + 1) [] c
  return { l.push (.scalar .other (String.ofList text)) with cursor := c, keyAllowed := false }

def blockScalar (l : Lexer) (literal : Bool) : Option Lexer := do
  let l ← l.dropCandidate
  let (text, c) ← Scalar.block literal l.indent (l.cursor.skip 1)
  let style := if literal then .literal else .other
  return { l.push (.scalar style (String.ofList text)) with cursor := c, keyAllowed := true }

def plainScalar (l : Lexer) : Option Lexer := do
  let l ← l.noteCandidate
  let c := l.cursor
  let (text, newLine, c) ←
    Scalar.plain l.inFlow (l.indent + 1).toNat (c.rest.length + 1) [] {} c
  return { l.push (.scalar .plain (String.ofList text)) with cursor := c, keyAllowed := newLine }

/-- Whether a plain scalar begins here. -/
def seesPlain (l : Lexer) : Bool :=
  let c := l.cursor
  !(c.spaceAt 0 || c.seesAt 0 fun x => "-?:,[]\x7b\x7d#&*!|>'\"%@\x60".contains x) ||
    (c.sees '-' && !c.seesAt 1 isBlank) ||
    (!l.inFlow && (c.sees '?' || c.sees ':') && !c.spaceAt 1)

/-- Reads the token that begins here. -/
def token (l : Lexer) : Option Lexer := do
  let c := l.cursor
  if c.column = 0 && c.sees '%' then
    let l ← l.leaveBlocks
    let (directive, c) ← directive (c.skip 1)
    return { l.push (.directive directive) with cursor := c }
  if c.seesMarker '-' then return (← l.leaveBlocks).pushOver 3 .documentStart
  if c.seesMarker '.' then return (← l.leaveBlocks).pushOver 3 .documentEnd
  match c.head? with
  | some '[' => l.openFlow .flowSequenceStart
  | some '\x7b' => l.openFlow .flowMappingStart
  | some ']' => l.closeFlow .flowSequenceEnd
  | some '\x7d' => l.closeFlow .flowMappingEnd
  | some ',' => return { (← l.dropCandidate).pushOver 1 .flowEntry with keyAllowed := true }
  | some x =>
    if x = '-' && c.spaceAt 1 then l.indicator .blockSequenceStart .blockEntry true
    else if x = '?' && (l.inFlow || c.spaceAt 1) then
      l.indicator .blockMappingStart .key (!l.inFlow)
    else if x = ':' && (l.inFlow || c.spaceAt 1) then l.value
    else if x = '*' then l.name .alias
    else if x = '&' then l.name .anchor
    else if x = '!' then l.tag
    else if x = '|' && !l.inFlow then l.blockScalar true
    else if x = '>' && !l.inFlow then l.blockScalar false
    else if x = '\'' then l.quotedScalar true
    else if x = '"' then l.quotedScalar false
    else if l.seesPlain then l.plainScalar
    else none
  | none => none

def run : Nat → Lexer → Option Lexer
  | 0, l => some l
  | fuel + 1, l => do
    let l ← (l.skipSpace (l.cursor.rest.length + 1)).refreshAll
    let l := l.closeBlocks l.cursor.column
    if l.cursor.atEnd then l.leaveBlocks else run fuel (← l.token)

end Lexer

/-- The tokens of a text. -/
def Token.ofString? (text : String) : Option (List Token) := do
  let cursor := Cursor.ofString text
  if !cursor.rest.all isAllowed then none
  let l ← Lexer.run (cursor.rest.length + 1) { cursor }
  return l.tokens.toList

end BehaviorTree.Yaml
