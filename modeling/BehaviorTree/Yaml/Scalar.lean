import BehaviorTree.Yaml.Cursor

/-!
# YAML scalars

The text of a scalar in each of its styles: plain, between single or double quotes, and as a block
of lines that is kept or folded. Reading fails where the text is not YAML.
-/

namespace BehaviorTree.Yaml

/-- The value of a hexadecimal digit. -/
def hexValue? (c : Char) : Option Nat :=
  if '0' ≤ c && c ≤ '9' then some (c.toNat - '0'.toNat)
  else if 'a' ≤ c && c ≤ 'f' then some (c.toNat - 'a'.toNat + 10)
  else if 'A' ≤ c && c ≤ 'F' then some (c.toNat - 'A'.toNat + 10)
  else none

def hexNumber? (digits : List Char) : Option Nat :=
  digits.foldlM (fun n d => (hexValue? d).map (16 * n + ·)) 0

namespace Scalar

def isFlowIndicator (c : Char) : Bool :=
  c = ',' || c = '[' || c = ']' || c = '\x7b' || c = '\x7d'

/-- One run of characters of a plain scalar. -/
def plainRun (inFlow : Bool) : Nat → List Char → Cursor → Option (List Char × Cursor)
  | 0, taken, c => some (taken.reverse, c)
  | fuel + 1, taken, c =>
    match c.rest with
    | [] => some (taken.reverse, c)
    | x :: _ =>
      if isBlank x || isBreak x then some (taken.reverse, c)
      else if inFlow && x = ':' && c.seesAt 1 (fun y => isFlowIndicator y || y = '?') then none
      else if (x = ':' && c.spaceAt 1) || (inFlow && isFlowIndicator x) then some (taken.reverse, c)
      else plainRun inFlow fuel (x :: taken) (c.skip 1)

/-- The text of a plain scalar whose lines stand at a column or further right, and whether it ends
after a line break. -/
def plain (inFlow : Bool) (indent : Nat) :
    Nat → List Char → Gap → Cursor → Option (List Char × Bool × Cursor)
  | 0, text, gap, c => some (text, gap.first.isSome, c)
  | fuel + 1, text, gap, c => do
    if c.seesDocumentMarker || c.sees '#' then return (text, gap.first.isSome, c)
    let (run, c) ← plainRun inFlow c.rest.length [] c
    let (text, gap) := if run.isEmpty then (text, gap) else (text ++ gap.fold ++ run, {})
    if !(c.seesBlank || c.seesBreak) then return (text, gap.first.isSome, c)
    let (gap, c) ← gap.take indent c.rest.length c
    if !inFlow && c.column < indent then return (text, gap.first.isSome, c)
    plain inFlow indent fuel text gap c

/-- The character of an escape that is one letter. -/
def escaped? (c : Char) : Option Char :=
  match c with
  | '0' => some '\x00'
  | 'a' => some '\x07'
  | 'b' => some '\x08'
  | 't' => some '\t'
  | '\t' => some '\t'
  | 'n' => some '\n'
  | 'v' => some '\x0b'
  | 'f' => some '\x0c'
  | 'r' => some '\r'
  | 'e' => some '\x1b'
  | ' ' => some ' '
  | '"' => some '"'
  | '/' => some '/'
  | '\\' => some '\\'
  | 'N' => some '\u0085'
  | '_' => some '\u00a0'
  | 'L' => some '\u2028'
  | 'P' => some '\u2029'
  | _ => none

/-- The character with a code point that is written in so many digits. -/
def codePoint? (c : Cursor) (digits : Nat) : Option Char := do
  if c.rest.length < digits then none
  let n ← hexNumber? (c.rest.take digits)
  if h : n.isValidChar then some (Char.ofNatAux n h) else none

/-- One run of characters of a quoted scalar, and whether it ends at an escaped line break. -/
def quotedRun (single : Bool) : Nat → List Char → Cursor → Option (List Char × Bool × Cursor)
  | 0, taken, c => some (taken.reverse, false, c)
  | fuel + 1, taken, c =>
    match c.rest with
    | [] => some (taken.reverse, false, c)
    | x :: _ =>
      if isBlank x || isBreak x then some (taken.reverse, false, c)
      else if single && x = '\'' && c.seesAt 1 (· = '\'') then
        quotedRun single fuel ('\'' :: taken) (c.skip 2)
      else if x = (if single then '\'' else '"') then some (taken.reverse, false, c)
      else if !single && x = '\\' then
        if c.seesAt 1 isBreak then some (taken.reverse, true, (c.skip 1).skipBreak)
        else do
          let e ← c.rest[1]?
          let c := c.skip 2
          let digits := if e = 'x' then 2 else if e = 'u' then 4 else if e = 'U' then 8 else 0
          let y ← if digits = 0 then escaped? e else codePoint? c digits
          quotedRun single fuel (y :: taken) (c.skip digits)
      else quotedRun single fuel (x :: taken) (c.skip 1)

/-- The text of a quoted scalar after its opening quote. -/
def quoted (single : Bool) : Nat → List Char → Cursor → Option (List Char × Cursor)
  | 0, _, _ => none
  | fuel + 1, text, c => do
    if c.seesDocumentMarker || c.atEnd then none
    let (run, joined, c) ← quotedRun single c.rest.length [] c
    let text := text ++ run
    if c.sees (if single then '\'' else '"') then return (text, c.skip 1)
    let gap : Gap := if joined then { first := some [] } else {}
    let (gap, c) ← gap.take 0 c.rest.length c
    quoted single fuel (text ++ gap.fold) c

/-- Which line breaks at the end of a block are kept. -/
inductive Chomping where
  | strip
  | clip
  | keep
deriving DecidableEq

def chomping? (c : Cursor) : Option Chomping :=
  if c.sees '+' then some .keep else if c.sees '-' then some .strip else none

def indentation? (c : Cursor) : Option Nat :=
  (c.head?.filter Char.isDigit).map fun d => d.toNat - '0'.toNat

/-- The two signs that may follow the indicator of a block, in either order. -/
def blockHeader (c : Cursor) : Option (Chomping × Nat × Cursor) := do
  let (chomping, increment, c) := match chomping? c with
    | some chomping =>
      match indentation? (c.skip 1) with
      | some n => (chomping, some n, c.skip 2)
      | none => (chomping, none, c.skip 1)
    | none =>
      match indentation? c with
      | some n =>
        match chomping? (c.skip 1) with
        | some chomping => (chomping, some n, c.skip 2)
        | none => (.clip, some n, c.skip 1)
      | none => (.clip, none, c)
  if increment = some 0 then none
  let c := c.skipComment
  if !c.lineEnds then none
  return (chomping, increment.getD 0, c.skipBreak)

/-- Empty lines of a block, up to a column that is not known yet if it is zero, and the largest
column seen. -/
def blockBreaks (indent : Nat) : Nat → List Char → Nat → Cursor →
    Option (List Char × Nat × Cursor)
  | 0, breaks, widest, c => some (breaks, widest, c)
  | fuel + 1, breaks, widest, c =>
    let blanks := (c.rest.takeWhile (· = ' ')).length
    let c := c.skip (if indent = 0 then blanks else min blanks (indent - c.column))
    let widest := max widest c.column
    if (indent = 0 || c.column < indent) && c.sees '\t' then none
    else if c.seesBreak then
      let (lineBreak, c) := c.takeBreak
      blockBreaks indent fuel (breaks ++ lineBreak) widest c
    else some (breaks, widest, c)

/-- The lines of a block: its text, with the break that ends the last line and the ones after it
apart. -/
def blockLines (literal : Bool) (indent : Nat) :
    Nat → List Char → List Char → List Char → Bool → Cursor →
      Option (List Char × List Char × List Char × Cursor)
  | 0, text, lineBreak, breaks, _, c => some (text, lineBreak, breaks, c)
  | fuel + 1, text, lineBreak, breaks, afterBlank, c =>
    if c.column ≠ indent || c.atEnd then some (text, lineBreak, breaks, c)
    else do
      let startsBlank := c.seesBlank
      let joint :=
        if !literal && lineBreak.head? = some '\n' && !afterBlank && !startsBlank then
          if breaks.isEmpty then [' '] else []
        else lineBreak
      let (line, c) := c.span fun x => !isBreak x
      let (lineBreak, c) := c.takeBreak
      let (more, _, c) ← blockBreaks indent (c.rest.length + 1) [] 0 c
      blockLines literal indent fuel (text ++ joint ++ breaks ++ line) lineBreak more startsBlank c

/-- The text of a block scalar after its indicator, inside a block at some column. -/
def block (literal : Bool) (parent : Int) (c : Cursor) : Option (List Char × Cursor) := do
  let (chomping, increment, c) ← blockHeader c
  let fixed := if increment = 0 then 0 else (max parent 0).toNat + increment
  let (breaks, widest, c) ← blockBreaks fixed (c.rest.length + 1) [] 0 c
  let indent := if fixed = 0 then max widest (max (parent + 1).toNat 1) else fixed
  let (text, lineBreak, breaks, c) ←
    blockLines literal indent (c.rest.length + 1) [] [] breaks false c
  let text := if chomping = .strip then text else text ++ lineBreak
  return (if chomping = .keep then text ++ breaks else text, c)

end Scalar

end BehaviorTree.Yaml
