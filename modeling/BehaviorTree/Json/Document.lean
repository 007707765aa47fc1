/-!
# JSON documents

A text is read as far as it is JSON. The `Document` that this gives keeps what was read before the
first fault, so that whoever interprets it meets the faults of the text and the misfits of its
content in the order of the text. Number and string literals are kept unread: a number may lie
outside the floats and a string may hold half of a surrogate pair, and both are faults only where
the literal counts.
-/

namespace BehaviorTree.Json

/-- The parts of a number literal, as digits. -/
structure NumberLiteral where
  negative : Bool
  whole : List Char
  fraction : List Char := []
  /-- Whether the exponent is negative, and its digits. -/
  exponent : Option (Bool × List Char) := none
deriving DecidableEq, Inhabited

/-- A string literal: its text, or nothing if a surrogate escape stands alone in it. -/
abbrev StringLiteral := Option String

inductive Document where
  | null
  | bool (b : Bool)
  | number (literal : NumberLiteral)
  | string (literal : StringLiteral)
  | array (items : List Document) (closed : Bool)
  | object (members : List (StringLiteral × Document)) (closed : Bool)
  /-- Here the text stops being JSON. -/
  | fault
deriving Inhabited

namespace Document

def isBlank (c : Char) : Bool :=
  c = ' ' || c = '\t' || c = '\n' || c = '\r'

def skipBlanks (cs : List Char) : List Char :=
  cs.dropWhile isBlank

/-- What follows a word at the start of a text. -/
def afterWord? : List Char → List Char → Option (List Char)
  | [], cs => some cs
  | _ :: _, [] => none
  | w :: word, c :: cs => if w = c then afterWord? word cs else none

def hexValue? (c : Char) : Option Nat :=
  if '0' ≤ c && c ≤ '9' then some (c.toNat - '0'.toNat)
  else if 'a' ≤ c && c ≤ 'f' then some (c.toNat - 'a'.toNat + 10)
  else if 'A' ≤ c && c ≤ 'F' then some (c.toNat - 'A'.toNat + 10)
  else none

/-- A piece of a string literal: a character, or an escaped UTF-16 unit. -/
inductive Piece where
  | char (c : Char)
  | unit (n : Nat)
deriving DecidableEq

def escapedChar? (c : Char) : Option Char :=
  if c = '"' || c = '\\' || c = '/' then some c
  else if c = 'b' then some '\x08'
  else if c = 'f' then some '\x0c'
  else if c = 'n' then some '\n'
  else if c = 'r' then some '\r'
  else if c = 't' then some '\t'
  else none

/-- The pieces up to the closing quote, and what follows it. -/
def pieces? : List Char → Option (List Piece × List Char)
  | [] => none
  | '"' :: cs => some ([], cs)
  | '\\' :: 'u' :: a :: b :: c :: d :: cs => do
    let a ← hexValue? a
    let b ← hexValue? b
    let c ← hexValue? c
    let d ← hexValue? d
    let (pieces, rest) ← pieces? cs
    return (.unit (((a * 16 + b) * 16 + c) * 16 + d) :: pieces, rest)
  | '\\' :: e :: cs => do
    let c ← escapedChar? e
    let (pieces, rest) ← pieces? cs
    return (.char c :: pieces, rest)
  | c :: cs =>
    if c.toNat < 0x20 || c = '\\' then none
    else do
      let (pieces, rest) ← pieces? cs
      return (.char c :: pieces, rest)

def isHighSurrogate (n : Nat) : Bool :=
  0xd800 ≤ n && n ≤ 0xdbff

def isLowSurrogate (n : Nat) : Bool :=
  0xdc00 ≤ n && n ≤ 0xdfff

/-- The characters of some pieces, if every surrogate stands in a pair. -/
def joinPieces? : List Piece → Option (List Char)
  | [] => some []
  | .char c :: pieces => (joinPieces? pieces).map (c :: ·)
  | .unit n :: pieces =>
    if isHighSurrogate n then
      match pieces with
      | .unit m :: rest =>
        if isLowSurrogate m then
          (joinPieces? rest).map (Char.ofNat (0x10000 + (n - 0xd800) * 0x400 + (m - 0xdc00)) :: ·)
        else none
      | _ => none
    else if isLowSurrogate n then none
    else (joinPieces? pieces).map (Char.ofNat n :: ·)

/-- A string literal after its opening quote. -/
def string? (cs : List Char) : Option (StringLiteral × List Char) :=
  (pieces? cs).map fun (pieces, rest) => ((joinPieces? pieces).map String.ofList, rest)

def digits (cs : List Char) : List Char × List Char :=
  cs.span Char.isDigit

/-- The exponent of a number, if its letter comes next; a fault if no digit follows it. -/
def exponent? : List Char → Option (Option (Bool × List Char) × List Char)
  | [] => some (none, [])
  | c :: cs =>
    if c = 'e' || c = 'E' then
      let (negative, cs) := match cs with
        | '+' :: cs => (false, cs)
        | '-' :: cs => (true, cs)
        | cs => (false, cs)
      match digits cs with
      | ([], _) => none
      | (ds, rest) => some (some (negative, ds), rest)
    else some (none, c :: cs)

/-- A number after its sign: a zero stands alone before the point. -/
def number? (negative : Bool) (cs : List Char) : Option (NumberLiteral × List Char) :=
  match digits cs with
  | ([], _) => none
  | ('0' :: _ :: _, _) => none
  | (whole, rest) => do
    let (fraction, rest) ← match rest with
      | '.' :: rest => match digits rest with
        | ([], _) => none
        | (fraction, rest) => some (fraction, rest)
      | rest => some ([], rest)
    let (exponent, rest) ← exponent? rest
    return (⟨negative, whole, fraction, exponent⟩, rest)

/-- A value without parts, and what follows it; otherwise a fault. -/
def scalar (cs : List Char) : Document × Option (List Char) :=
  let result := match cs with
    | 'n' :: cs => (afterWord? ['u', 'l', 'l'] cs).map (null, ·)
    | 't' :: cs => (afterWord? ['r', 'u', 'e'] cs).map (bool true, ·)
    | 'f' :: cs => (afterWord? ['a', 'l', 's', 'e'] cs).map (bool false, ·)
    | '"' :: cs => (string? cs).map fun (literal, rest) => (string literal, rest)
    | '-' :: cs => (number? true cs).map fun (literal, rest) => (number literal, rest)
    | cs => (number? false cs).map fun (literal, rest) => (number literal, rest)
  match result with
  | some (document, rest) => (document, some rest)
  | none => (fault, none)

mutual

/-- A value and what follows it; nothing follows a fault. -/
def read : Nat → List Char → Document × Option (List Char)
  | 0, _ => (fault, none)
  | fuel + 1, cs =>
    match skipBlanks cs with
    | '[' :: cs =>
      match skipBlanks cs with
      | ']' :: cs => (array [] true, some cs)
      | cs =>
        let (items, rest) := readItems fuel cs
        (array items rest.isSome, rest)
    | '\x7b' :: cs =>
      match skipBlanks cs with
      | '\x7d' :: cs => (object [] true, some cs)
      | cs =>
        let (members, rest) := readMembers fuel cs
        (object members rest.isSome, rest)
    | cs => scalar cs

/-- The items up to the closing bracket. -/
def readItems : Nat → List Char → List Document × Option (List Char)
  | 0, _ => ([], none)
  | fuel + 1, cs =>
    match skipBlanks cs with
    | ']' :: _ => ([], none)
    | cs =>
      match read fuel cs with
      | (item, none) => ([item], none)
      | (item, some rest) =>
        match skipBlanks rest with
        | ',' :: rest =>
          let (items, rest) := readItems fuel rest
          (item :: items, rest)
        | ']' :: rest => ([item], some rest)
        | _ => ([item], none)

/-- The members up to the closing brace. -/
def readMembers : Nat → List Char → List (StringLiteral × Document) × Option (List Char)
  | 0, _ => ([], none)
  | fuel + 1, cs =>
    match skipBlanks cs with
    | '"' :: cs =>
      match string? cs with
      | none => ([], none)
      | some (key, rest) =>
        match skipBlanks rest with
        | ':' :: rest =>
          match read fuel rest with
          | (value, none) => ([(key, value)], none)
          | (value, some rest) =>
            match skipBlanks rest with
            | ',' :: rest =>
              let (members, rest) := readMembers fuel rest
              ((key, value) :: members, rest)
            | '\x7d' :: rest => ([(key, value)], some rest)
            | _ => ([(key, value)], none)
        | _ => ([(key, fault)], none)
    | _ => ([], none)

end

/-- A whole text as a document, and whether it is one to its end. -/
def ofText (text : String) : Document × Bool :=
  let cs := text.toList
  match read (2 * cs.length + 2) cs with
  | (document, none) => (document, false)
  | (document, some rest) => (document, (skipBlanks rest).isEmpty)

end Document

end BehaviorTree.Json
