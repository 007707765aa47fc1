import BehaviorTree.Value.Text

/-!
# Outcomes

What running a node gives: success or failure, both with a payload.
-/

namespace BehaviorTree

inductive Outcome where
  | success (payload : Value)
  | failure (payload : Value)
deriving Inhabited

namespace Outcome

def payload : Outcome → Value
  | success v => v
  | failure v => v

def isSuccess : Outcome → Bool
  | success _ => true
  | failure _ => false

def isFailure (outcome : Outcome) : Bool :=
  !outcome.isSuccess

/-- The other tag with the same payload. -/
def invert : Outcome → Outcome
  | success v => failure v
  | failure v => success v

def toSuccess (outcome : Outcome) : Outcome :=
  success outcome.payload

def toFailure (outcome : Outcome) : Outcome :=
  failure outcome.payload

def toExcept : Outcome → Except Value Value
  | success v => .ok v
  | failure v => .error v

def ofExcept : Except Value Value → Outcome
  | .ok v => success v
  | .error v => failure v

def text : Outcome → String
  | success v => "Success(" ++ v.text ++ ")"
  | failure v => "Failure(" ++ v.text ++ ")"

@[simp] theorem invert_invert (outcome : Outcome) : outcome.invert.invert = outcome := by
  cases outcome <;> rfl

@[simp] theorem payload_invert (outcome : Outcome) : outcome.invert.payload = outcome.payload := by
  cases outcome <;> rfl

@[simp] theorem isSuccess_invert (outcome : Outcome) :
    outcome.invert.isSuccess = !outcome.isSuccess := by
  cases outcome <;> rfl

theorem ofExcept_toExcept (outcome : Outcome) : ofExcept outcome.toExcept = outcome := by
  cases outcome <;> rfl

end Outcome

end BehaviorTree
