import BehaviorTree.Json.Reader
import BehaviorTree.Yaml.Reader

/-!
# Sources

Where a definition comes from: it is given, or it is the text of a node in one of two formats, on
the spot or in a file.
-/

namespace BehaviorTree

/-- Why the content of a file is not available. -/
inductive ReadFault where
  | missing
  | isDirectory
  /-- The bytes are not UTF-8. -/
  | notText
deriving DecidableEq, Inhabited

def ReadFault.message : ReadFault → String
  | missing => "No such file or directory (os error 2)"
  | isDirectory => "Is a directory (os error 21)"
  | notText => "stream did not contain valid UTF-8"

/-- The bytes of the file at a path. -/
abbrev Files := String → Except ReadFault ByteArray

/-- How a definition is written. -/
inductive Format where
  | json
  | yaml
deriving DecidableEq, Inhabited

inductive Source where
  | definition (definition : Definition)
  | text (format : Format) (text : String)
  | file (format : Format) (path : String)

inductive SourceError where
  | unknownFormat (tag : String)
  | unreadable (path : String) (fault : ReadFault)
  | json (misfit : Json.Misfit)
  | yaml

namespace SourceError

def message : SourceError → String
  | unknownFormat tag => "unknown source format '" ++ tag ++ "'"
  | unreadable path fault => "failed to read " ++ path ++ ": " ++ fault.message
  | json misfit => "invalid JSON tree: " ++ misfit.message
  | yaml => "invalid YAML tree: <yaml>"

end SourceError

namespace Source

/-- A source from the tag of a format and the text or the path that goes with it. -/
def ofTag? (tag content : String) : Except SourceError Source :=
  match tag with
  | "json" => .ok (.text .json content)
  | "jsonfile" => .ok (.file .json content)
  | "yaml" => .ok (.text .yaml content)
  | "yamlfile" => .ok (.file .yaml content)
  | _ => .error (.unknownFormat tag)

/-- The definition that a text describes. -/
def parse (format : Format) (text : String) : Except SourceError Definition :=
  match format with
  | .json => (Json.definitionOfText text).mapError .json
  | .yaml =>
    match Yaml.definitionOfText text with
    | some d => .ok d
    | none => .error .yaml

/-- The text of a file. -/
def fileText (files : Files) (path : String) : Except SourceError String :=
  match files path with
  | .error fault => .error (.unreadable path fault)
  | .ok bytes =>
    match String.fromUTF8? bytes with
    | some content => .ok content
    | none => .error (.unreadable path .notText)

def load (files : Files) : Source → Except SourceError Definition
  | .definition d => .ok d
  | .text format content => parse format content
  | .file format path => fileText files path >>= parse format

end Source

end BehaviorTree
