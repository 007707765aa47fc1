/-!
# Walking through YAML text

A `Cursor` is what is left of a text together with where that stands: the number of characters
before it, the line and the column. A line ends at a carriage return, a line feed, both, or one of
three further line separators of Unicode.
-/

namespace BehaviorTree.Yaml

def isBlank (c : Char) : Bool :=
  c = ' ' || c = '\t'

def isBreak (c : Char) : Bool :=
  c = '\r' || c = '\n' || c = '\u0085' || c = '\u2028' || c = '\u2029'

/-- Letters, digits, the underscore and the hyphen, in ASCII. -/
def isWordChar (c : Char) : Bool :=
  c.isAlphanum || c = '_' || c = '-'

/-- The characters that a text may contain. -/
def isAllowed (c : Char) : Bool :=
  let n := c.toNat
  n = 0x09 || n = 0x0a || n = 0x0d || (0x20 ≤ n && n ≤ 0x7e) || n = 0x85 ||
    (0xa0 ≤ n && n ≤ 0xd7ff) || (0xe000 ≤ n && n ≤ 0xfffd) || 0x10000 ≤ n

structure Cursor where
  rest : List Char
  index : Nat := 0
  line : Nat := 0
  column : Nat := 0
deriving Inhabited

namespace Cursor

def ofString (text : String) : Cursor :=
  { rest := text.toList }

def head? (c : Cursor) : Option Char :=
  c.rest.head?

def atEnd (c : Cursor) : Bool :=
  c.rest.isEmpty

/-- Whether a given character comes next. -/
def sees (c : Cursor) (expected : Char) : Bool :=
  c.rest.head? = some expected

/-- Whether a character of a class stands some characters ahead. -/
def seesAt (c : Cursor) (n : Nat) (p : Char → Bool) : Bool :=
  c.rest[n]?.any p

def seesBlank (c : Cursor) : Bool :=
  c.seesAt 0 isBlank

def seesBreak (c : Cursor) : Bool :=
  c.seesAt 0 isBreak

/-- Whether a blank, a line break or the end stands some characters ahead. -/
def spaceAt (c : Cursor) (n : Nat) : Bool :=
  match c.rest[n]? with
  | none => true
  | some x => isBlank x || isBreak x

/-- Whether the line ends here. -/
def lineEnds (c : Cursor) : Bool :=
  c.atEnd || c.seesBreak

/-- Passes over characters of one line. -/
def skip (c : Cursor) (n : Nat) : Cursor :=
  { c with rest := c.rest.drop n, index := c.index + n, column := c.column + n }

/-- The characters of a class from here on, within one line. -/
def span (c : Cursor) (p : Char → Bool) : List Char × Cursor :=
  let (taken, rest) := c.rest.span p
  (taken, { c with
    rest, index := c.index + taken.length, column := c.column + taken.length })

def skipWhile (c : Cursor) (p : Char → Bool) : Cursor :=
  (c.span p).2

/-- Passes over a line break: its normal form, and the start of the next line. -/
def takeBreak (c : Cursor) : List Char × Cursor :=
  let next (n : Nat) : Cursor :=
    { rest := c.rest.drop n, index := c.index + n, line := c.line + 1, column := 0 }
  match c.rest with
  | '\r' :: '\n' :: _ => (['\n'], next 2)
  | x :: _ =>
    if x = '\u2028' || x = '\u2029' then ([x], next 1)
    else if isBreak x then (['\n'], next 1)
    else ([], c)
  | [] => ([], c)

def skipBreak (c : Cursor) : Cursor :=
  c.takeBreak.2

/-- Passes over blanks, a comment if one follows, and nothing else of the line. -/
def skipComment (c : Cursor) : Cursor :=
  let c := c.skipWhile isBlank
  if c.sees '#' then c.skipWhile fun x => !isBreak x else c

/-- Whether a line of three given characters and a space begins here. -/
def seesMarker (c : Cursor) (mark : Char) : Bool :=
  c.column = 0 && c.rest.take 3 = [mark, mark, mark] && c.spaceAt 3

/-- Whether a document begins or ends here. -/
def seesDocumentMarker (c : Cursor) : Bool :=
  c.seesMarker '-' || c.seesMarker '.'

end Cursor

/-- White space inside a scalar: blanks on a line, or a first line break and the ones after it. -/
structure Gap where
  blanks : List Char := []
  first : Option (List Char) := none
  more : List Char := []
deriving Inhabited

namespace Gap

/-- What a gap stands for: a single line break becomes a blank, further ones stay. -/
def fold (gap : Gap) : List Char :=
  match gap.first with
  | none => gap.blanks
  | some ['\n'] => if gap.more.isEmpty then [' '] else gap.more
  | some other => other ++ gap.more

def isEmpty (gap : Gap) : Bool :=
  gap.first.isNone && gap.blanks.isEmpty

/-- Takes white space into a gap. A tab at the start of a line is refused left of the column from
which it is allowed. -/
def take (tabsFrom : Nat) : Nat → Gap → Cursor → Option (Gap × Cursor)
  | 0, gap, c => some (gap, c)
  | fuel + 1, gap, c =>
    if c.seesBlank then
      if gap.first.isSome then
        if c.sees '\t' && c.column < tabsFrom then none
        else take tabsFrom fuel gap (c.skip 1)
      else
        let (blanks, c) := c.span isBlank
        take tabsFrom fuel { gap with blanks := gap.blanks ++ blanks } c
    else if c.seesBreak then
      let (lineBreak, c) := c.takeBreak
      match gap.first with
      | none => take tabsFrom fuel { first := some lineBreak } c
      | some _ => take tabsFrom fuel { gap with more := gap.more ++ lineBreak } c
    else some (gap, c)

end Gap

end BehaviorTree.Yaml
