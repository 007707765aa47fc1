import BehaviorTree.Run.World

/-!
# Running side by side

A `Machine` carries out processes as tasks that take turns on one clock. A task keeps its turn
until it waits: for time to pass, for a completion handle, or for parallel children. `turn` is one
turn of one task; who is next is the business of `Machine.advance`: waiting tasks come back in the
order in which they were woken, the callers that wait for an answer look when no task is ready or
after `slice` turns, and the clock jumps ahead when nothing is ready at all.
-/

namespace BehaviorTree

/-- A task's place in the machine. -/
abbrev TaskId := Nat

/-- Who learns how a task ends. -/
inductive Listener where
  | nobody
  /-- A parallel node, for the child at an index. -/
  | branch (parent : TaskId) (index : Nat)
  /-- The task that waits for a completion handle. -/
  | handle (waiter : TaskId)
deriving DecidableEq

/-- A parallel node under way. -/
structure Join where
  policy : Policy
  input : Value
  /-- For every child, whether it is to be waited for. -/
  flags : List Bool
  /-- The tasks of the children. -/
  branches : List TaskId
  tally : Tally
  /-- The number of outcomes taken in. -/
  taken : Nat := 0
  /-- The outcomes that came in and are not taken in, in their order. -/
  arrived : List (Nat × Outcome) := []
  next : Outcome → Process

/-- What a task does when its turn comes. -/
inductive TaskState where
  | ready (process : Process)
  | asleep (next : Unit → Process)
  | awaiting (next : Option Outcome → Process)
  | joining (join : Join)
  | ended (outcome : Outcome)
  /-- Takes turns, to see the last children of a parallel node come in, and does nothing. -/
  | draining

structure Task where
  state : TaskState
  listener : Listener := .nobody
  /-- A caller looks at the task on its own; any other task takes turns in the queue. -/
  called : Bool := false
  queued : Bool := false

instance : Inhabited Task := ⟨{ state := .draining }⟩

structure Machine where
  tasks : Array Task := #[]
  /-- The tasks that are ready, the next one first. -/
  queue : List TaskId := []
  /-- Whether a caller has reason to look. -/
  woken : Bool := false
  /-- Milliseconds since the start. -/
  now : Nat := 0
  /-- When sleeping tasks are to be woken, the earliest first. -/
  timers : List (Nat × TaskId) := []
  world : World := {}

instance : Inhabited Machine := ⟨{}⟩

namespace Join

/-- Takes in the outcomes that came in, until the node has its result or none is left. -/
def take (join : Join) : List (Nat × Outcome) → Join × Option Outcome
  | [] => ({ join with arrived := [] }, none)
  | (index, outcome) :: rest =>
    let total := join.flags.length
    let join := { join with
      tally := join.tally.record join.policy total (join.flags.getD index false) outcome
      taken := join.taken + 1
      arrived := rest }
    if join.tally.settled join.policy || join.taken = total then
      (join, some (join.tally.result join.input))
    else take join rest

end Join

namespace Machine

def task (machine : Machine) (id : TaskId) : Task :=
  machine.tasks.getD id default

def changeTask (machine : Machine) (id : TaskId) (f : Task → Task) : Machine :=
  { machine with tasks := machine.tasks.modify id f }

def setState (machine : Machine) (id : TaskId) (state : TaskState) : Machine :=
  machine.changeTask id fun task => { task with state }

/-- Gets a task its next turn; a task that has one already keeps it. -/
def wake (machine : Machine) (id : TaskId) : Machine :=
  let task := machine.task id
  if task.called then { machine with woken := true }
  else if task.queued then machine
  else
    { machine.changeTask id fun task => { task with queued := true } with
      queue := machine.queue ++ [id] }

/-- Adds a task at the end of the queue. -/
def spawn (machine : Machine) (state : TaskState) (listener : Listener) : TaskId × Machine :=
  let id := machine.tasks.size
  (id, { machine with
    tasks := machine.tasks.push { state, listener, queued := true }
    queue := machine.queue ++ [id] })

/-- Adds the children of a parallel node as tasks. -/
def spawnBranches (parent : TaskId) : Nat → List (Bool × Process) → Machine → List TaskId × Machine
  | _, [], machine => ([], machine)
  | index, (_, process) :: rest, machine =>
    let (id, machine) := machine.spawn (.ready process) (.branch parent index)
    let (ids, machine) := spawnBranches parent (index + 1) rest machine
    (id :: ids, machine)

/-- Hands what came of a completion handle to the task that waits for it. -/
def deliver (machine : Machine) (waiter : TaskId) (outcome : Option Outcome) : Machine :=
  match (machine.task waiter).state with
  | .awaiting next => (machine.setState waiter (.ready (next outcome))).wake waiter
  | _ => machine

/-- Hands the outcome of a child to its parallel node, or to what drains it. -/
def arrive (machine : Machine) (parent : TaskId) (index : Nat) (outcome : Outcome) : Machine :=
  match (machine.task parent).state with
  | .joining join =>
    (machine.setState parent
      (.joining { join with arrived := join.arrived ++ [(index, outcome)] })).wake parent
  | _ => machine.wake parent

/-- Uses up the completion handle of a task; only the first use is heard of. -/
def complete (machine : Machine) (id : TaskId) (outcome : Option Outcome) : Machine :=
  match (machine.task id).listener with
  | .handle waiter =>
    (machine.changeTask id fun task => { task with listener := .nobody }).deliver waiter outcome
  | _ => machine

/-- Ends a task and reports its outcome. -/
def finish (machine : Machine) (id : TaskId) (outcome : Outcome) : Machine :=
  let machine := machine.setState id (.ended outcome)
  match (machine.task id).listener with
  | .nobody => machine
  | .branch parent index => machine.arrive parent index outcome
  | .handle waiter => machine.deliver waiter none

/-- Adds a timer after the ones that are due no later. -/
def addTimer (due : Nat) (id : TaskId) : List (Nat × TaskId) → List (Nat × TaskId)
  | [] => [(due, id)]
  | timer :: rest =>
    if due < timer.1 then (due, id) :: timer :: rest else timer :: addTimer due id rest

/-- Carries out a process for a task until it ends or waits. -/
def carryOut (id : TaskId) : Process → Machine → Machine
  | .done outcome, machine => machine.finish id outcome
  | .ask scope request next, machine =>
    let (answer, world) := machine.world.ask scope request
    carryOut id (next answer) { machine with world }
  | .emit event next, machine =>
    carryOut id (next ()) { machine with world := machine.world.emit event }
  | .sleep ms next, machine =>
    { machine.setState id (.asleep next) with
      timers := addTimer (machine.now + ms) id machine.timers }
  | .start work next, machine => carryOut id (next ()) (machine.spawn (.ready work) .nobody).2
  | .await work next, machine =>
    (machine.spawn (.ready work) (.handle id)).2.setState id (.awaiting next)
  | .complete outcome next, machine => carryOut id (next ()) (machine.complete id outcome)
  | .parallel policy input children next, machine =>
    let (branches, machine) := spawnBranches id 0 children machine
    let flags := children.map (·.1)
    let tally : Tally := { waitingOn := flags.countP (·) }
    (machine.setState id (.joining { policy, input, flags, branches, tally, next })).wake id

/-- Leaves the children that a parallel node did not take in to a task that drains them. -/
def drain (machine : Machine) (join : Join) : Machine :=
  if join.taken = join.flags.length then machine
  else
    let (drainer, machine) := machine.spawn .draining .nobody
    join.branches.foldl (fun machine branch =>
      machine.changeTask branch fun task =>
        match task.listener with
        | .branch _ index => { task with listener := .branch drainer index }
        | _ => task) machine

/-- One turn of a task. -/
def turn (machine : Machine) (id : TaskId) : Machine :=
  let machine := machine.changeTask id fun task => { task with queued := false }
  match (machine.task id).state with
  | .ready process => carryOut id process machine
  | .joining join =>
    match join.take join.arrived with
    | (join, none) => machine.setState id (.joining join)
    | (join, some outcome) => carryOut id (join.next outcome) (machine.drain join)
  | _ => machine

/-- Goes to the time of the earliest timer and wakes what is due then. -/
def jump (machine : Machine) : Machine :=
  match machine.timers with
  | [] => machine
  | (due, _) :: _ =>
    let (fired, timers) := machine.timers.span fun timer => timer.1 ≤ due
    fired.foldl (fun machine (_, id) =>
      match (machine.task id).state with
      | .asleep next => (machine.setState id (.ready (next ()))).wake id
      | _ => machine) { machine with now := due, timers }

/-- Gives up to so many turns to the tasks in the queue; if the queue runs empty and no caller has
reason to look, time passes. -/
def giveTurns : Nat → Machine → Machine
  | 0, machine => machine
  | n + 1, machine =>
    match machine.queue with
    | [] => if machine.woken then machine else machine.jump
    | id :: queue => giveTurns n ({ machine with queue }.turn id)

/-- The turns that tasks get before a woken caller looks. -/
def slice : Nat := 61

/-- The outcome of a task that has ended. -/
def outcome? (machine : Machine) (id : TaskId) : Option Outcome :=
  match (machine.task id).state with
  | .ended outcome => some outcome
  | _ => none

/-- The callers look at their tasks in turn. -/
def look (machine : Machine) (ids : List TaskId) : Machine :=
  ids.foldl turn { machine with woken := false }

/-- Whether nothing can happen any more. -/
def isStuck (machine : Machine) : Bool :=
  !machine.woken && machine.queue.isEmpty && machine.timers.isEmpty

/-- Goes on until the called tasks have ended. -/
def advance (ids : List TaskId) : Nat → Machine → Machine
  | 0, machine => machine
  | fuel + 1, machine =>
    let machine := if machine.woken then machine.look ids else machine
    if ids.all fun id => (machine.outcome? id).isSome then machine
    else if machine.isStuck then machine
    else advance ids fuel (giveTurns slice machine)

/-- More rounds than any run takes. -/
def rounds : Nat := Nat.pow 2 60

/-- Calls processes side by side and waits for all of them. -/
def call (machine : Machine) (processes : List Process) : List (Option Outcome) × Machine :=
  let first := machine.tasks.size
  let ids := List.range' first processes.length
  let tasks : List Task := processes.map fun process => { state := .ready process, called := true }
  let machine := advance ids rounds
    { machine with tasks := machine.tasks ++ tasks.toArray, woken := true }
  (ids.map machine.outcome?, machine)

end Machine

end BehaviorTree
