import BehaviorTree.Demo.Basic
import BehaviorTree.Demo.Concurrent
import BehaviorTree.Demo.Door
import BehaviorTree.Demo.Quadratic
import BehaviorTree.Demo.Trace

/-!
# The demos

Every demo by its name.
-/

namespace BehaviorTree

inductive Demo where
  | basic
  | concurrent
  | door
  | quadratic
  | trace
deriving DecidableEq, Inhabited

namespace Demo

def all : List Demo := [basic, concurrent, door, quadratic, trace]

def name : Demo → String
  | basic => "basic"
  | concurrent => "concurrent"
  | door => "door"
  | quadratic => "quadratic"
  | trace => "trace"

def ofName? (text : String) : Option Demo :=
  all.find? fun demo => demo.name = text

/-- The lines that a demo shows. -/
def lines : Demo → List String
  | basic => Basic.lines
  | concurrent => Concurrent.lines
  | door => Door.lines
  | quadratic => Quadratic.lines
  | trace => Trace.lines

theorem ofName?_name (demo : Demo) : ofName? demo.name = some demo := by
  cases demo <;> decide

end Demo

end BehaviorTree
