import BehaviorTree.Tally
import BehaviorTree.Trace

/-!
# Processes

Running a node is a `Process`: data that says what happens next and how it goes on. Actions,
tracing, short circuits and decorators are spelled out in it; what is left to whoever carries it
out is the state of the scopes, time, and the order in which parallel children take their turns.
-/

namespace BehaviorTree

/-- What compiling and running a tree shows of itself. -/
inductive Event where
  | compiled (nodes actions : Nat)
  | notCompiled (message : String)
  /-- A leaf is called, with the path of its action if it is given by one. -/
  | call (scope : Scope) (path : Option String) (input : Value)
  | line (line : Line)
  | trace (text : String)
  | panicked (message : String)
  /-- A callback action let go of its completion handle without using it. -/
  | handleDropped

/-- What is left of a run. -/
inductive Process where
  | done (outcome : Outcome)
  | ask (scope : Scope) (request : Request Unit) (next : Option Value → Process)
  | emit (event : Event) (next : Unit → Process)
  | sleep (milliseconds : Nat) (next : Unit → Process)
  /-- Starts work that nobody waits for. -/
  | start (work : Process) (next : Unit → Process)
  /-- Starts work and waits until it uses up its completion handle or ends. -/
  | await (work : Process) (next : Option Outcome → Process)
  /-- Uses up the completion handle of this work. -/
  | complete (outcome : Option Outcome) (next : Unit → Process)
  /-- Runs children side by side, each with whether it is to be waited for. -/
  | parallel (policy : Policy) (input : Value) (children : List (Bool × Process))
      (next : Outcome → Process)

instance : Inhabited Process := ⟨.done default⟩

namespace Process

/-- Goes on with the outcome of a process. -/
def bind : Process → (Outcome → Process) → Process
  | done outcome, f => f outcome
  | ask scope request next, f => ask scope request fun answer => (next answer).bind f
  | emit event next, f => emit event fun u => (next u).bind f
  | sleep ms next, f => sleep ms fun u => (next u).bind f
  | start work next, f => start work fun u => (next u).bind f
  | await work next, f => await work fun outcome => (next outcome).bind f
  | complete outcome next, f => complete outcome fun u => (next u).bind f
  | parallel policy input children next, f =>
    parallel policy input children fun outcome => (next outcome).bind f

def emitAll (events : List Event) (next : Unit → Process) : Process :=
  match events with
  | [] => next ()
  | event :: rest => emit event fun _ => emitAll rest next

/-- A panic is a failure that carries its message. -/
def panicked (message : String) : Process :=
  emit (.panicked message) fun _ => done (.failure (.str message))

/-- What came through a completion handle; a handle that was dropped is a failure. -/
def settle : Option Outcome → Process
  | some outcome => done outcome
  | none =>
    emit .handleDropped fun _ => done (.failure (.str "callback dropped without completing"))

end Process

/-- What became of a completion handle during a call: unused, or used up. -/
abbrev Handle := Option (Option Outcome)

namespace Code

variable {α : Type}

/-- Code during a call, which cannot wait. Only the first use of the handle counts. -/
def inCall (scope : Scope) (finish : Handle → α → Process) (fail : Handle → String → Process) :
    Handle → Code α → Process
  | handle, done result => finish handle result
  | handle, panic message => fail handle message
  | handle, ask request next =>
    .ask scope request fun answer => inCall scope finish fail handle (next answer)
  | handle, put line next => .emit (.line line) fun u => inCall scope finish fail handle (next u)
  | handle, sleep _ next => inCall scope finish fail handle (next ())
  | handle, complete outcome next =>
    inCall scope finish fail (handle.orElse fun _ => some outcome) (next ())

/-- Code of a promise, which can wait and has no handle. -/
def inPromise (scope : Scope) (finish : α → Process) (fail : String → Process) : Code α → Process
  | done result => finish result
  | panic message => fail message
  | ask request next => .ask scope request fun answer => inPromise scope finish fail (next answer)
  | put line next => .emit (.line line) fun u => inPromise scope finish fail (next u)
  | sleep ms next => .sleep ms fun u => inPromise scope finish fail (next u)
  | complete _ next => inPromise scope finish fail (next ())

/-- Code that goes on after its call and holds the handle. A panic ends it. -/
def inBackground (scope : Scope) : Code α → Process
  | done _ => .done (.success .null)
  | panic _ => .done (.failure .null)
  | ask request next => .ask scope request fun answer => inBackground scope (next answer)
  | put line next => .emit (.line line) fun u => inBackground scope (next u)
  | sleep ms next => .sleep ms fun u => inBackground scope (next u)
  | complete outcome next => .complete outcome fun u => inBackground scope (next u)

end Code

namespace Action

/-- One call of an action. -/
def process (scope : Scope) (input : Value) : Action → Process
  | plain call =>
    (call input).inCall scope (fun _ result => .done (.ofExcept result))
      (fun _ message => .panicked message) none
  | boolean call =>
    (call input).inCall scope
      (fun _ payload => .done (if payload.isTruthy then .success payload else .failure payload))
      (fun _ message => .panicked message) none
  | promise call =>
    (call input).inPromise scope (fun result => .done (.ofExcept result)) .panicked
  | callback call =>
    (call input).inCall scope
      (fun handle work => match work, handle with
        | none, handle => .settle (handle.getD none)
        | some code, none => .await (code.inBackground scope) .settle
        | some code, some used => .start (code.inBackground scope) fun _ => .settle used)
      (fun handle message => match handle with
        | some (some outcome) => .done outcome
        | _ => .panicked message)
      none

end Action

namespace Node

/-- The lines of a node around what it does. -/
def traced (trace : Trace) (node : Node) (body : Trace → Process) : Process :=
  let inside := trace.inside node.info
  .emitAll ((trace.enter node).map .trace) fun _ =>
    (body inside).bind fun outcome =>
      .emitAll ((inside.exit outcome).map .trace) fun _ => .done outcome

/-- The call of a leaf. -/
def call (trace : Trace) (info : NodeInfo) (path : Option String) (action : Action)
    (input : Value) : Process :=
  .emitAll ((trace.input input).map .trace) fun _ =>
    .emit (.call info.scope path input) fun _ => action.process info.scope input

mutual

/-- A run of a node. -/
def process : Node → Trace → Value → Process
  | .leaf info path action, trace, input =>
    traced trace (.leaf info path action) fun inside => call inside info path action input
  | .sequence info children, trace, input =>
    traced trace (.sequence info children) fun inside =>
      chain true children inside (.success input)
  | .selector info children, trace, input =>
    traced trace (.selector info children) fun inside =>
      chain false children inside (.failure input)
  | .parallel info policy children, trace, input =>
    traced trace (.parallel info policy children) fun inside =>
      match children with
      | [] => .done (.success input)
      | _ => .parallel policy input (branches children inside input) .done
  | .decorator info d child, trace, input =>
    traced trace (.decorator info d child) fun inside =>
      (process child inside input).bind fun outcome => .done (d.apply outcome)

/-- Runs children one after the other, each on the payload of the one before, for as long as the
outcome is a success or for as long as it is a failure. -/
def chain (whileSuccess : Bool) : List Node → Trace → Outcome → Process
  | [], _, outcome => .done outcome
  | child :: rest, trace, outcome =>
    if outcome.isSuccess = whileSuccess then
      (process child trace outcome.payload).bind fun outcome =>
        chain whileSuccess rest trace outcome
    else .done outcome

/-- The runs of the children of a parallel node, all on the same input. -/
def branches : List Node → Trace → Value → List (Bool × Process)
  | [], _, _ => []
  | child :: rest, trace, input =>
    (child.info.waitForMe, process child trace input) :: branches rest trace input

end

end Node

end BehaviorTree
