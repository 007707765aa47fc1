import BehaviorTree.Yaml.Scalar

/-!
# YAML tags and directives

A tag is written in full between angle brackets, or as a handle and a suffix. The handles `!` and
`!!` have a meaning of their own, and a directive in front of a document gives one to others.
-/

namespace BehaviorTree.Yaml

/-- Adds a value to the end of a number written in groups of six bits. -/
def continuationBits? (n byte : Nat) : Option Nat :=
  if byte / 64 = 2 then some (n * 64 + byte % 64) else none

/-- One byte written as a percent sign and two hexadecimal digits. -/
def percentByte? (c : Cursor) : Option (Nat × Cursor) := do
  match c.rest with
  | '%' :: a :: b :: _ => return ((← hexNumber? [a, b]), c.skip 3)
  | _ => none

/-- Further bytes of a character. -/
def percentBytes? : Nat → Nat → Cursor → Option (Nat × Cursor)
  | 0, n, c => some (n, c)
  | more + 1, n, c => do
    let (byte, c) ← percentByte? c
    percentBytes? more (← continuationBits? n byte) c

/-- One character whose bytes are written with percent signs. -/
def percentChar? (c : Cursor) : Option (Char × Cursor) := do
  let (byte, c) ← percentByte? c
  let (n, c) ←
    if byte < 0x80 then some (byte, c)
    else if byte / 32 = 6 then percentBytes? 1 (byte % 32) c
    else if byte / 16 = 14 then percentBytes? 2 (byte % 16) c
    else if byte / 8 = 30 then percentBytes? 3 (byte % 8) c
    else none
  if h : n.isValidChar then return (Char.ofNatAux n h, c) else none

/-- The characters of a tag, more of them if it is written in full. -/
def isTagChar (full : Bool) (c : Char) : Bool :=
  isWordChar c || ";/?:@&=+$.!~*'()".contains c || (full && ",[]".contains c)

def tagChars (full : Bool) : Nat → List Char → Cursor → Option (List Char × Cursor)
  | 0, taken, c => some (taken.reverse, c)
  | fuel + 1, taken, c => do
    match c.head? with
    | none => some (taken.reverse, c)
    | some x =>
      if x = '%' then
        let (y, c) ← percentChar? c
        tagChars full fuel (y :: taken) c
      else if isTagChar full x then tagChars full fuel (x :: taken) (c.skip 1)
      else some (taken.reverse, c)

/-- At least one character of a tag. -/
def tagText (full : Bool) (c : Cursor) : Option (String × Cursor) := do
  let (text, c) ← tagChars full c.rest.length [] c
  if text.isEmpty then none else some (String.ofList text, c)

/-- What may be a handle: an exclamation mark, a word, and a closing mark if there is one. -/
def tagHandle (c : Cursor) : Option (List Char × Bool × Cursor) :=
  if c.sees '!' then
    let (word, c) := (c.skip 1).span isWordChar
    if c.sees '!' then some ('!' :: word ++ ['!'], true, c.skip 1)
    else some ('!' :: word, false, c)
  else none

/-- The handle and the suffix of a tag. A tag in full has no handle, and so has a lone mark. -/
def tagParts (inFlow : Bool) (c : Cursor) : Option (String × String × Cursor) := do
  let (handle, suffix, c) ←
    if c.seesAt 1 (· = '<') then do
      let (text, c) ← tagText true (c.skip 2)
      if c.sees '>' then some ("", text, c.skip 1) else none
    else do
      let (handle, closed, c) ← tagHandle c
      if closed then do
        let (text, c) ← tagText false c
        some (String.ofList handle, text, c)
      else do
        let (text, c) ← tagChars false c.rest.length handle.tail.reverse c
        some (if text.isEmpty then ("", "!", c) else ("!", String.ofList text, c))
  if c.spaceAt 0 || (inFlow && c.sees ',') then some (handle, suffix, c) else none

/-- What is declared in front of a document. -/
inductive Directive where
  | version
  | tag (handle expansion : String)
deriving Inhabited

/-- The end of a directive's line. -/
def directiveEnd (c : Cursor) : Option Cursor :=
  let c := c.skipComment
  if c.lineEnds then some c.skipBreak else none

/-- A number of at most nine digits. -/
def versionNumber (c : Cursor) : Option (Nat × Cursor) :=
  let (digits, c) := c.span Char.isDigit
  if digits.isEmpty || digits.length > 9 then none
  else some (digits.foldl (fun n d => 10 * n + (d.toNat - '0'.toNat)) 0, c)

/-- A directive after its percent sign. Versions 1.1 and 1.2 are accepted. -/
def directive (c : Cursor) : Option (Directive × Cursor) := do
  let (name, c) := c.span isWordChar
  if !c.spaceAt 0 then none
  let c := c.skipWhile isBlank
  if name = "YAML".toList then
    let (major, c) ← versionNumber c
    if !c.sees '.' then none
    let (minor, c) ← versionNumber (c.skip 1)
    if major = 1 && (minor = 1 || minor = 2) then return (.version, ← directiveEnd c) else none
  else if name = "TAG".toList then
    let (handle, closed, c) ← tagHandle c
    if !(closed || handle = ['!']) || !c.seesBlank then none
    let (expansion, c) ← tagText true (c.skipWhile isBlank)
    if !c.spaceAt 0 then none
    return (.tag (String.ofList handle) expansion, ← directiveEnd c)
  else none

end BehaviorTree.Yaml
