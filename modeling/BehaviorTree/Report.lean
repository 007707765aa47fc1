import BehaviorTree.Process

/-!
# Reports

What the events of a run come to: lines of the log, trace lines, printed lines, and notices. Trace
lines go where the sink says.
-/

namespace BehaviorTree

/-- Where trace lines go. -/
inductive Sink where
  /-- Into a list of their own. -/
  | buffer
  /-- Into the same list, each line marked. -/
  | marked
  | notices
deriving DecidableEq, Inhabited

inductive Level where
  | debug
  | warn
deriving DecidableEq, Inhabited

def Level.name : Level → String
  | debug => "DEBUG"
  | warn => "WARN"

/-- A message with its fields, about a run or, if it is a trace line, from inside it. -/
structure Notice where
  isTrace : Bool := false
  level : Level
  fields : List (String × String)
deriving DecidableEq, Inhabited

namespace Notice

def ofTrace (line : String) : Notice :=
  { isTrace := true, level := .debug, fields := [("message", line)] }

/-- What is to be noticed about an event that is not a line. -/
def ofEvent? : Event → Option Notice
  | .compiled nodes actions => some {
      level := .debug
      fields := [("message", "compiled tree"), ("nodes", String.ofList (writeNat nodes)),
        ("actions", String.ofList (writeNat actions))] }
  | .notCompiled message => some {
      level := .debug
      fields := [("message", "tree failed to compile"), ("error", message)] }
  | .panicked message => some {
      level := .warn
      fields := [("message", "action panicked"), ("message", message)] }
  | .handleDropped => some {
      level := .warn
      fields := [("message", "callback action dropped its completion handle")] }
  | _ => none

end Notice

structure Report where
  log : List String := []
  trace : List String := []
  printed : List String := []
  notices : List Notice := []
deriving Inhabited

namespace Report

/-- Adds an event in front of what came after it. -/
def addFirst (sink : Sink) (event : Event) (report : Report) : Report :=
  match event with
  | .line (.log text) => { report with log := text :: report.log }
  | .line (.print text) => { report with printed := text.splitOn "\n" ++ report.printed }
  | .trace text =>
    match sink with
    | .buffer => { report with trace := text :: report.trace }
    | .marked => { report with trace := ("> " ++ text) :: report.trace }
    | .notices => { report with notices := .ofTrace text :: report.notices }
  | event => { report with notices := (Notice.ofEvent? event).toList ++ report.notices }

/-- The report of some events, latest first. -/
def ofEvents (sink : Sink) (events : List Event) : Report :=
  events.foldl (fun report event => report.addFirst sink event) {}

end Report

end BehaviorTree
