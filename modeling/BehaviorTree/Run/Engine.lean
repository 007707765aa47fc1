import BehaviorTree.Run.InPlace
import BehaviorTree.Run.Machine
import BehaviorTree.Report

/-!
# Engines

What carries out runs: a machine with a clock, or the caller in place.
-/

namespace BehaviorTree

inductive Engine where
  | clocked (machine : Machine)
  | inPlace (world : World)

namespace Engine

instance : Inhabited Engine := ⟨.inPlace {}⟩

def world : Engine → World
  | clocked machine => machine.world
  | inPlace world => world

def withWorld (world : World) : Engine → Engine
  | clocked machine => clocked { machine with world }
  | inPlace _ => inPlace world

/-- The time on the clock, if there is one. -/
def now? : Engine → Option Nat
  | clocked machine => some machine.now
  | inPlace _ => none

/-- Runs processes in place, one after the other, each with what it leaves over. -/
def callInPlace : List Process → World → List Outcome × World
  | [], world => ([], world)
  | process :: rest, world =>
    let result := process.inPlace world
    let (outcomes, world) := callInPlace rest result.drain
    (result.outcome :: outcomes, world)

/-- Calls processes together and waits for their outcomes. -/
def call (processes : List Process) : Engine → List Outcome × Engine
  | clocked machine =>
    let (outcomes, machine) := machine.call processes
    (outcomes.map (·.getD default), clocked machine)
  | inPlace world =>
    let (outcomes, world) := callInPlace processes world
    (outcomes, inPlace world)

def callOne (process : Process) (engine : Engine) : Outcome × Engine :=
  let (outcomes, engine) := engine.call [process]
  (outcomes.headD default, engine)

/-- Lets time pass, so that work in the background can go on. -/
def pass (milliseconds : Nat) : Engine → Engine
  | clocked machine =>
    clocked (machine.call [.sleep milliseconds fun _ => .done default]).2
  | inPlace world => inPlace world

/-- Takes out the events so far as a report. -/
def report (sink : Sink) (engine : Engine) : Report × Engine :=
  let world := engine.world
  (.ofEvents sink world.events, engine.withWorld { world with events := [] })

end Engine

end BehaviorTree
