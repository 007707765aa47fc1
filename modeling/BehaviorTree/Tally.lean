import BehaviorTree.Node

/-!
# Parallel decisions

A parallel node takes the outcomes of its children in the order in which they come in. The first
that reaches a threshold decides, and no later one changes that; without a decision the last
outcome is the result. The node returns once it is decided and no child that asked to be waited
for is missing, or when every child has come in.
-/

namespace BehaviorTree

namespace Threshold

/-- Whether some outcomes of one kind are enough, out of a number of children. -/
def reached (threshold : Threshold) (reported total : Nat) : Bool :=
  match threshold with
  | never => false
  | all => total ≤ reported
  | count n => n ≤ reported

end Threshold

/-- What a parallel node remembers of the outcomes that came in. -/
structure Tally where
  /-- The children to be waited for that have not come in. -/
  waitingOn : Nat
  succeeded : Nat := 0
  failed : Nat := 0
  decision : Option Outcome := none
  last : Option Outcome := none
deriving Inhabited

namespace Tally

/-- Takes in the outcome of a child, which may be one to be waited for. -/
def record (policy : Policy) (total : Nat) (tally : Tally) (waitForMe : Bool) (outcome : Outcome) :
    Tally :=
  let tally := { tally with
    waitingOn := if waitForMe then tally.waitingOn - 1 else tally.waitingOn
    last := some outcome }
  match tally.decision, outcome with
  | some _, _ => tally
  | none, .success _ =>
    let succeeded := tally.succeeded + 1
    { tally with
      succeeded
      decision := if policy.maxSuccess.reached succeeded total then some outcome else none }
  | none, .failure _ =>
    let failed := tally.failed + 1
    { tally with
      failed
      decision := if policy.maxFail.reached failed total then some outcome else none }

/-- Whether the node need not wait for more outcomes. -/
def settled (policy : Policy) (tally : Tally) : Bool :=
  tally.decision.isSome && !policy.waitForAll && tally.waitingOn = 0

/-- The decision, or else the last outcome. -/
def result (tally : Tally) (input : Value) : Outcome :=
  (tally.decision.or tally.last).getD (.success input)

/-- Takes in outcomes until the node need not wait; the rest is left over. -/
def consume (policy : Policy) (total : Nat) :
    Tally → List (Bool × Outcome) → Tally × List (Bool × Outcome)
  | tally, [] => (tally, [])
  | tally, (waitForMe, outcome) :: rest =>
    let tally := tally.record policy total waitForMe outcome
    if tally.settled policy then (tally, rest) else consume policy total tally rest

end Tally

/-- The outcome of a parallel node whose children come in in some order, each with whether it is
to be waited for, and what comes in only after the node has returned. -/
def parallel (policy : Policy) (input : Value) (completions : List (Bool × Outcome)) :
    Outcome × List (Bool × Outcome) :=
  let start : Tally := { waitingOn := completions.countP (·.1) }
  let (tally, rest) := start.consume policy completions.length completions
  (tally.result input, rest)

end BehaviorTree
