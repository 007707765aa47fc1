import BehaviorTree.Run.World

/-!
# Running in place

A process is carried out to its end without a scheduler: waiting takes no time, work in the
background is done at once, and parallel children run one after the other until their node need
not wait any more. The children that are left over run after everything else.
-/

namespace BehaviorTree

/-- Something still to be done to the world. -/
abbrev Leftover := World → World

/-- What running in place gives: an outcome, and what is left over. -/
structure InPlace where
  outcome : Outcome
  /-- The first use of the completion handle. -/
  completion : Handle := none
  leftovers : List Leftover := []
  world : World

namespace InPlace

def prepend (leftovers : List Leftover) (result : InPlace) : InPlace :=
  { result with leftovers := leftovers ++ result.leftovers }

/-- Does what is left over. -/
def drain (result : InPlace) : World :=
  result.leftovers.foldl (fun world work => work world) result.world

/-- A use of the handle before the ones of a result. -/
def completedBefore (used : Option Outcome) (result : InPlace) : InPlace :=
  { result with completion := some used }

end InPlace

namespace Process

mutual

def inPlace : Process → World → InPlace
  | done outcome, world => { outcome, world }
  | ask scope request next, world =>
    let (answer, world) := world.ask scope request
    inPlace (next answer) world
  | emit event next, world => inPlace (next ()) (world.emit event)
  | sleep _ next, world => inPlace (next ()) world
  | start work next, world =>
    let result := inPlace work world
    (inPlace (next ()) result.world).prepend result.leftovers
  | await work next, world =>
    let result := inPlace work world
    (inPlace (next (result.completion.getD none)) result.world).prepend result.leftovers
  | complete outcome next, world => (inPlace (next ()) world).completedBefore outcome
  | parallel policy input children next, world =>
    let start : Tally := { waitingOn := children.countP (·.1) }
    let (tally, leftovers, world) := branchesInPlace policy children.length start children world
    (inPlace (next (tally.result input)) world).prepend leftovers

/-- Runs children until their node need not wait any more; the others are left over. -/
def branchesInPlace (policy : Policy) (total : Nat) :
    Tally → List (Bool × Process) → World → Tally × List Leftover × World
  | tally, [], world => (tally, [], world)
  | tally, (waitForMe, child) :: rest, world =>
    if tally.settled policy then
      let leftover : Leftover := fun world => (inPlace child world).drain
      let (tally, leftovers, world) := branchesInPlace policy total tally rest world
      (tally, leftover :: leftovers, world)
    else
      let result := inPlace child world
      let tally := tally.record policy total waitForMe result.outcome
      let (tally, leftovers, world) := branchesInPlace policy total tally rest result.world
      (tally, result.leftovers ++ leftovers, world)

end

end Process

end BehaviorTree
