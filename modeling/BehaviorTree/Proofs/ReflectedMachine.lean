import BehaviorTree.Proofs.Reflection
import BehaviorTree.Proofs.Roles

/-!
# Machines with success and failure exchanged

A reflected machine has its tasks reflected: those that run nodes are turned over, and those that
do work in the background are not.
-/

namespace BehaviorTree

/-- Whether a task runs a node: it was called, or it is a child of a parallel node. -/
def Task.runsNode (task : Task) : Bool :=
  task.called || task.listener.isBranch

def Join.reflect (on flip : Bool) (join : Join) : Join :=
  { join with
    policy := join.policy.reflect on
    tally := join.tally.reflect on
    arrived := join.arrived.map fun arrival => (arrival.1, arrival.2.flip on)
    next := fun outcome => (join.next (outcome.flip on)).reflect on flip }

def TaskState.reflect (on flip : Bool) : TaskState → TaskState
  | ready process => ready (process.reflect on flip)
  | asleep next => asleep fun u => (next u).reflect on flip
  | awaiting next => awaiting fun outcome => (next outcome).reflect on flip
  | joining join => joining (join.reflect on flip)
  | ended outcome => ended (outcome.flip flip)
  | draining => draining

def Task.reflect (on : Bool) (task : Task) : Task :=
  { task with state := task.state.reflect on (on && task.runsNode) }

/-- A world without the lines of the trace. -/
def World.quiet (world : World) : World :=
  { world with events := world.events.filter (!·.isTrace) }

theorem World.quiet_emit (world : World) (event : Event) :
    (world.emit event).quiet = if event.isTrace then world.quiet else world.quiet.emit event := by
  cases h : event.isTrace <;> simp [quiet, emit, h]

theorem World.quiet_ask (world : World) (scope : Scope) (request : Request Unit) :
    world.quiet.ask scope request
      = ((world.ask scope request).1, (world.ask scope request).2.quiet) :=
  rfl

namespace Join

/-- A parallel node that has taken in one more outcome. -/
def took (join : Join) (index : Nat) (outcome : Outcome) (rest : List (Nat × Outcome)) : Join :=
  { join with
    tally := join.tally.record join.policy join.flags.length (join.flags.getD index false) outcome
    taken := join.taken + 1
    arrived := rest }

theorem take_cons (join : Join) (index : Nat) (outcome : Outcome) (rest : List (Nat × Outcome)) :
    join.take ((index, outcome) :: rest)
      = if (join.took index outcome rest).tally.settled join.policy
          || join.taken + 1 = join.flags.length
        then (join.took index outcome rest,
          some ((join.took index outcome rest).tally.result join.input))
        else (join.took index outcome rest).take rest :=
  rfl

theorem reflect_took (on flip : Bool) (join : Join) (index : Nat) (outcome : Outcome)
    (rest : List (Nat × Outcome)) :
    (join.took index outcome rest).reflect on flip
      = (join.reflect on flip).took index (outcome.flip on)
        (rest.map fun arrival => (arrival.1, arrival.2.flip on)) := by
  simp only [reflect, took, Tally.reflect_record]

theorem take_reflect (on flip : Bool) : ∀ (arrived : List (Nat × Outcome)) (join : Join),
    (join.reflect on flip).take (arrived.map fun arrival => (arrival.1, arrival.2.flip on))
      = ((join.take arrived).1.reflect on flip, (join.take arrived).2.map (·.flip on))
  | [], _ => rfl
  | (index, outcome) :: rest, join => by
    have hsettled : ((join.took index outcome rest).reflect on flip).tally.settled
        (join.reflect on flip).policy
          = (join.took index outcome rest).tally.settled join.policy :=
      Tally.settled_reflect on _ _
    have hresult : ((join.took index outcome rest).reflect on flip).tally.result
        (join.reflect on flip).input
          = ((join.took index outcome rest).tally.result join.input).flip on :=
      Tally.result_reflect on (by rw [took, Tally.last_record]; rfl) join.input
    rw [List.map_cons, take_cons, take_cons, ← reflect_took, hsettled, hresult,
      take_reflect on flip rest]
    show (if (_ || decide (join.taken + 1 = join.flags.length)) = true then _ else _) = _
    split <;> rfl

theorem take_arrived_reflect (on flip : Bool) (join : Join) :
    (join.reflect on flip).take (join.reflect on flip).arrived
      = ((join.take join.arrived).1.reflect on flip,
        (join.take join.arrived).2.map (·.flip on)) :=
  take_reflect on flip join.arrived join

end Join

namespace Machine

def reflect (on : Bool) (machine : Machine) : Machine :=
  { machine with
    tasks := machine.tasks.map (Task.reflect on)
    world := machine.world.quiet }

variable (on : Bool) (machine : Machine)

theorem task_reflect (id : TaskId) :
    (machine.reflect on).task id = (machine.task id).reflect on := by
  unfold task reflect
  by_cases h : id < machine.tasks.size
  · simp [Array.getD_eq_getD_getElem?, h]
  · simp [Array.getD_eq_getD_getElem?, h]
    rfl

theorem world_reflect : (machine.reflect on).world = machine.world.quiet :=
  rfl

/-- A line of the trace does not show. -/
theorem reflect_emit (event : Event) :
    { machine with world := machine.world.emit event }.reflect on
      = if event.isTrace then machine.reflect on
        else { machine.reflect on with world := (machine.reflect on).world.emit event } := by
  unfold reflect
  rw [World.quiet_emit]
  split <;> rfl

theorem reflect_changeTask {f g : Task → Task} {id : TaskId}
    (h : (f (machine.task id)).reflect on = g ((machine.task id).reflect on)) :
    (machine.changeTask id f).reflect on = (machine.reflect on).changeTask id g := by
  unfold changeTask reflect
  have htasks : (machine.tasks.modify id f).map (Task.reflect on)
      = (machine.tasks.map (Task.reflect on)).modify id g := by
    refine Array.ext_getElem? fun i => ?_
    rw [Array.getElem?_map, Array.getElem?_modify, Array.getElem?_modify, Array.getElem?_map]
    split
    · rename_i hi
      subst hi
      cases hi : machine.tasks[id]? with
      | none => rfl
      | some t =>
        have ht : machine.task id = t := by simp [task, Array.getD_eq_getD_getElem?, hi]
        rw [ht] at h
        simp [h]
    · rfl
  simp only [htasks]

theorem reflect_setState (id : TaskId) (state : TaskState) :
    (machine.setState id state).reflect on
      = (machine.reflect on).setState id
        (state.reflect on (on && (machine.task id).runsNode)) :=
  machine.reflect_changeTask on rfl

theorem reflect_wake (id : TaskId) :
    (machine.wake id).reflect on = (machine.reflect on).wake id := by
  have hqueued := @reflect_changeTask on machine (fun task => { task with queued := true })
    (fun task => { task with queued := true }) id rfl
  have hcalled : ((machine.reflect on).task id).called = (machine.task id).called := by
    rw [task_reflect]
    rfl
  have hsame : ((machine.reflect on).task id).queued = (machine.task id).queued := by
    rw [task_reflect]
    rfl
  unfold wake
  simp only [hcalled, hsame]
  split
  · rfl
  · split
    · rfl
    · rw [← hqueued]
      rfl

theorem reflect_spawn (state : TaskState) (listener : Listener) :
    (machine.reflect on).spawn (state.reflect on (on && listener.isBranch)) listener
      = ((machine.spawn state listener).1, (machine.spawn state listener).2.reflect on) := by
  simp [spawn, reflect, Task.reflect, Task.runsNode]

theorem reflect_spawnBranches (parent : TaskId) :
    ∀ (children : List (Bool × Process)) (index : Nat) (machine : Machine),
    (machine.reflect on).spawnBranches parent index (Process.reflectAll on children)
      = ((machine.spawnBranches parent index children).1,
        (machine.spawnBranches parent index children).2.reflect on)
  | [], index, machine => rfl
  | (waitForMe, process) :: rest, index, machine => by
    have hspawn := machine.reflect_spawn on (.ready process) (.branch parent index)
    have hboth : (on && (Listener.branch parent index).isBranch) = on := Bool.and_true on
    rw [hboth] at hspawn
    have ih := reflect_spawnBranches parent rest (index + 1)
      (machine.spawn (.ready process) (.branch parent index)).2
    simp only [Process.reflectAll, spawnBranches]
    rw [show TaskState.ready (process.reflect on on) = (TaskState.ready process).reflect on on
      from rfl, hspawn]
    simp only [ih]

theorem reflect_deliver (waiter : TaskId) (outcome : Option Outcome) :
    (machine.deliver waiter outcome).reflect on = (machine.reflect on).deliver waiter outcome := by
  unfold deliver
  rw [task_reflect]
  cases hstate : (machine.task waiter).state with
  | awaiting next =>
    simp only [Task.reflect, hstate, TaskState.reflect]
    rw [reflect_wake, reflect_setState]
    rfl
  | _ => simp only [Task.reflect, hstate, TaskState.reflect]

theorem reflect_arrive (parent : TaskId) (index : Nat) (outcome : Outcome) :
    (machine.arrive parent index outcome).reflect on
      = (machine.reflect on).arrive parent index (outcome.flip on) := by
  unfold arrive
  rw [task_reflect]
  cases hstate : (machine.task parent).state with
  | joining join =>
    simp only [Task.reflect, hstate, TaskState.reflect]
    rw [reflect_wake, reflect_setState]
    simp only [TaskState.reflect, Join.reflect, List.map_append, List.map_cons, List.map_nil]
  | _ =>
    simp only [Task.reflect, hstate, TaskState.reflect]
    rw [reflect_wake]

theorem reflect_complete (id : TaskId) (outcome : Option Outcome) :
    (machine.complete id outcome).reflect on = (machine.reflect on).complete id outcome := by
  unfold complete
  rw [task_reflect]
  cases hlistener : (machine.task id).listener with
  | handle waiter =>
    simp only [Task.reflect, hlistener]
    rw [reflect_deliver]
    congr 1
    refine machine.reflect_changeTask on ?_
    simp [Task.reflect, Task.runsNode, hlistener, Listener.isBranch]
  | _ => simp only [Task.reflect, hlistener]

theorem listener_setState (id t : TaskId) (state : TaskState) :
    ((machine.setState id state).task t).listener = (machine.task t).listener := by
  unfold setState
  rw [task_changeTask]
  split <;> rfl

/-- A child reports to its parent, which is turned over as it is; nobody else hears of an
outcome. -/
theorem reflect_finish (id : TaskId) (outcome : Outcome) :
    (machine.finish id outcome).reflect on
      = (machine.reflect on).finish id (outcome.flip (on && (machine.task id).runsNode)) := by
  have hended : (machine.reflect on).setState id
      (.ended (outcome.flip (on && (machine.task id).runsNode)))
        = (machine.setState id (.ended outcome)).reflect on :=
    (machine.reflect_setState on id (.ended outcome)).symm
  have hlistener := machine.listener_setState id id (.ended outcome)
  unfold finish
  simp only [hended, task_reflect, Task.reflect]
  cases h : (machine.task id).listener with
  | nobody => simp only [hlistener, h]
  | branch parent index =>
    have hboth : (on && (machine.task id).runsNode) = on := by
      simp [Task.runsNode, h, Listener.isBranch]
    simp only [hlistener, h, hboth]
    exact reflect_arrive on _ parent index outcome
  | handle waiter =>
    simp only [hlistener, h]
    exact reflect_deliver on _ waiter none

theorem Retains.runsNode {before after : Machine} (h : before.Retains after) {id : TaskId}
    (hid : id < before.tasks.size) :
    (after.task id).runsNode = (before.task id).runsNode := by
  unfold Task.runsNode
  rw [h.called id hid, h.isBranch id hid]

/-- What a task starts besides keeps its outcomes. -/
theorem reflect_spawn_work (work : Process) (listener : Listener)
    (h : listener.isBranch = false) :
    (machine.reflect on).spawn (.ready (work.reflect on false)) listener
      = ((machine.spawn (.ready work) listener).1,
        (machine.spawn (.ready work) listener).2.reflect on) := by
  have hspawn := machine.reflect_spawn on (.ready work) listener
  rwa [h, Bool.and_false] at hspawn

/-- A process is carried out for a task as it is reflected for it. -/
theorem reflect_carryOut (id : TaskId) : ∀ (process : Process) (machine : Machine),
    id < machine.tasks.size →
    (carryOut id process machine).reflect on
      = carryOut id (process.reflect on (on && (machine.task id).runsNode)) (machine.reflect on)
  | .done outcome, machine, _ => machine.reflect_finish on id outcome
  | .ask scope request next, machine, hid => by
    simp only [Process.reflect, carryOut, world_reflect, World.quiet_ask]
    exact reflect_carryOut id (next (machine.world.ask scope request).1)
      { machine with world := (machine.world.ask scope request).2 } hid
  | .emit event next, machine, hid => by
    have ih := reflect_carryOut id (next ()) { machine with world := machine.world.emit event } hid
    rw [carryOut, ih, reflect_emit, Process.reflect]
    split
    · rfl
    · rw [carryOut]
      rfl
  | .sleep ms next, machine, hid => by
    simp only [Process.reflect, carryOut]
    have hasleep := machine.reflect_setState on id (.asleep next)
    show { (machine.setState id (.asleep next)).reflect on with
      timers := addTimer (machine.now + ms) id machine.timers } = _
    rw [hasleep]
    rfl
  | .start work next, machine, hid => by
    have hspawn := machine.reflect_spawn_work on work .nobody rfl
    have hretains := machine.retains_spawn (.ready work) .nobody
    have ih := reflect_carryOut id (next ()) (machine.spawn (.ready work) .nobody).2
      (Nat.lt_of_lt_of_le hid hretains.size)
    rw [carryOut, ih, hretains.runsNode hid, Process.reflect, carryOut, hspawn]
  | .await work next, machine, hid => by
    have hspawn := machine.reflect_spawn_work on work (.handle id) rfl
    have hretains := machine.retains_spawn (.ready work) (.handle id)
    rw [carryOut, reflect_setState, hretains.runsNode hid, Process.reflect, carryOut, hspawn]
    rfl
  | .complete outcome next, machine, hid => by
    have hretains := machine.retains_complete id outcome
    have ih := reflect_carryOut id (next ()) (machine.complete id outcome)
      (Nat.lt_of_lt_of_le hid hretains.size)
    rw [carryOut, ih, hretains.runsNode hid, Process.reflect, carryOut, reflect_complete]
  | .parallel policy input children next, machine, hid => by
    rcases hspawn : machine.spawnBranches id 0 children with ⟨branches, spawned⟩
    have hretains := retains_spawnBranches id children 0 machine
    have hreflect := reflect_spawnBranches on id children 0 machine
    rw [hspawn] at hretains hreflect
    simp only [Process.reflect, carryOut, hspawn, hreflect, Process.map_fst_reflectAll]
    rw [reflect_wake, reflect_setState, hretains.runsNode hid]
    simp only [TaskState.reflect, Join.reflect, Tally.reflect_start, List.map_nil]

theorem reflect_redirect (drainer : TaskId) (task : Task) :
    (redirect drainer task).reflect on = redirect drainer (task.reflect on) := by
  unfold redirect Task.reflect Task.runsNode
  cases h : task.listener <;> simp [h, Listener.isBranch]

theorem reflect_drain (flip : Bool) (join : Join) :
    (machine.drain join).reflect on = (machine.reflect on).drain (join.reflect on flip) := by
  have hspawn := machine.reflect_spawn on .draining .nobody
  have hdraining : ∀ flip, TaskState.draining.reflect on flip = .draining := fun _ => rfl
  rw [hdraining] at hspawn
  unfold drain
  show _ = if join.taken = join.flags.length then _ else _
  split
  · rfl
  · rw [hspawn]
    exact (List.foldl_hom (reflect on) fun machine id =>
      (machine.reflect_changeTask on (reflect_redirect on _ (machine.task id))).symm).symm

theorem lt_size_of_state {id : TaskId} (h : (machine.task id).state ≠ .draining) :
    id < machine.tasks.size := by
  by_contra hid
  refine h ?_
  simp only [task, Array.getD_eq_getD_getElem?, Array.getElem?_eq_none (Nat.le_of_not_lt hid)]
  rfl

/-- A turn of a reflected task is the turn reflected. -/
theorem reflect_turn (id : TaskId) :
    (machine.turn id).reflect on = (machine.reflect on).turn id := by
  have hturn := @reflect_changeTask on machine (fun task => { task with queued := false })
    (fun task => { task with queued := false }) id rfl
  unfold turn
  rw [← hturn]
  generalize machine.changeTask id (fun task => { task with queued := false }) = turned
  simp only [task_reflect]
  cases hstate : (turned.task id).state with
  | ready process =>
    have hid : id < turned.tasks.size := lt_size_of_state turned (by simp [hstate])
    simp only [Task.reflect, hstate, TaskState.reflect]
    exact reflect_carryOut on id process turned hid
  | joining join =>
    have hid : id < turned.tasks.size := lt_size_of_state turned (by simp [hstate])
    simp only [Task.reflect, hstate, TaskState.reflect, Join.take_arrived_reflect]
    rcases join.take join.arrived with ⟨later, _ | outcome⟩
    · exact turned.reflect_setState on id (.joining later)
    · have hretains := turned.retains_drain later
      have hout := reflect_carryOut on id (later.next outcome) (turned.drain later)
        (Nat.lt_of_lt_of_le hid hretains.size)
      rw [hretains.runsNode hid, reflect_drain on turned (on && (turned.task id).runsNode)] at hout
      simp only [Option.map_some]
      rw [hout]
      simp only [Join.reflect, Outcome.flip_flip]
  | _ => simp only [Task.reflect, hstate, TaskState.reflect]

theorem reflect_rouse (id : TaskId) :
    (machine.rouse id).reflect on = (machine.reflect on).rouse id := by
  unfold rouse
  rw [task_reflect]
  cases hstate : (machine.task id).state with
  | asleep next =>
    simp only [Task.reflect, hstate, TaskState.reflect]
    rw [reflect_wake, reflect_setState]
    rfl
  | _ => simp only [Task.reflect, hstate, TaskState.reflect]

theorem reflect_jump : machine.jump.reflect on = (machine.reflect on).jump := by
  have hsame : (machine.reflect on).timers = machine.timers := rfl
  rw [jump_eq, jump_eq, hsame]
  cases machine.timers with
  | nil => rfl
  | cons timer rest =>
    obtain ⟨due, first⟩ := timer
    exact (List.foldl_hom (reflect on) fun machine timer =>
      (machine.reflect_rouse on timer.2).symm).symm

theorem reflect_giveTurns : ∀ (n : Nat) (machine : Machine),
    (giveTurns n machine).reflect on = giveTurns n (machine.reflect on)
  | 0, machine => rfl
  | n + 1, machine => by
    have hsame : (machine.reflect on).queue = machine.queue := rfl
    rw [giveTurns, giveTurns, hsame]
    cases machine.queue with
    | nil =>
      show Machine.reflect on (if machine.woken then machine else machine.jump)
        = if machine.woken then machine.reflect on else (machine.reflect on).jump
      rw [← reflect_jump, apply_ite (reflect on)]
    | cons id queue =>
      simp only []
      rw [reflect_giveTurns n, reflect_turn]
      rfl

theorem reflect_look (ids : List TaskId) :
    (machine.look ids).reflect on = (machine.reflect on).look ids :=
  (List.foldl_hom (reflect on) fun machine id => (machine.reflect_turn on id).symm).symm

/-- The outcomes of tasks that run nodes are turned over. -/
theorem reflect_outcome? (id : TaskId) :
    (machine.reflect on).outcome? id
      = (machine.outcome? id).map (·.flip (on && (machine.task id).runsNode)) := by
  unfold outcome?
  rw [task_reflect]
  cases hstate : (machine.task id).state <;>
    simp only [Task.reflect, hstate, TaskState.reflect, Option.map_some, Option.map_none]

theorem reflect_advance (ids : List TaskId) : ∀ (fuel : Nat) (machine : Machine),
    (advance ids fuel machine).reflect on = advance ids fuel (machine.reflect on)
  | 0, machine => rfl
  | fuel + 1, machine => by
    have hlook : (if (machine.reflect on).woken then (machine.reflect on).look ids
        else machine.reflect on)
          = (if machine.woken then machine.look ids else machine).reflect on := by
      show (if machine.woken then (machine.reflect on).look ids else machine.reflect on) = _
      rw [← reflect_look, apply_ite (reflect on)]
    rw [advance, advance, hlook]
    generalize (if machine.woken then machine.look ids else machine) = looked
    have hended : (ids.all fun id => ((looked.reflect on).outcome? id).isSome)
        = ids.all fun id => (looked.outcome? id).isSome := by
      simp only [reflect_outcome?, Option.isSome_map]
    have hstuck : (looked.reflect on).isStuck = looked.isStuck := rfl
    rw [hended, hstuck]
    split
    · rfl
    · split
      · rfl
      · rw [reflect_advance ids fuel, reflect_giveTurns]

/-- Processes turned over give outcomes turned over, in the same time. -/
theorem reflect_call (processes : List Process) :
    (machine.reflect on).call (processes.map (·.reflect on on))
      = ((machine.call processes).1.map (Option.map (·.flip on)),
        (machine.call processes).2.reflect on) := by
  let called (processes : List Process) : Array Task :=
    (processes.map fun process => { state := .ready process, called := true }).toArray
  let start : Machine := { machine with
    tasks := machine.tasks ++ called processes
    woken := true }
  have hstart : { machine.reflect on with
      tasks := (machine.reflect on).tasks ++ called (processes.map (·.reflect on on))
      woken := true } = start.reflect on := by
    simp [reflect, start, called, Task.reflect, Task.runsNode, TaskState.reflect,
      Function.comp_def]
  let ids := List.range' machine.tasks.size processes.length
  have hcalled : ∀ id ∈ ids, ((advance ids rounds start).task id).runsNode = true := by
    intro id hid
    obtain ⟨k, hk, rfl⟩ := List.mem_range'.1 hid
    have hsize : start.tasks.size = machine.tasks.size + processes.length := by
      simp [start, called]
    have hstarted : (start.task (machine.tasks.size + 1 * k)).runsNode = true := by
      simp [start, called, task, Array.getD_eq_getD_getElem?, hk, Task.runsNode]
    have hlt : machine.tasks.size + 1 * k < start.tasks.size := by omega
    rw [(retains_advance ids rounds start).runsNode hlt, hstarted]
  have hids : List.range' (machine.reflect on).tasks.size
      (processes.map (·.reflect on on)).length = ids := by
    simp [reflect, ids]
  unfold call
  simp only []
  rw [hstart, hids, ← reflect_advance]
  simp only [List.map_map, Prod.mk.injEq]
  refine ⟨List.map_congr_left fun id hid => ?_, rfl⟩
  have houtcome := reflect_outcome? on (advance ids rounds start) id
  rw [hcalled id hid, Bool.and_true] at houtcome
  exact houtcome

end Machine

end BehaviorTree
