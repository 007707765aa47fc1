import BehaviorTree.Proofs.ReflectedMachine
import Mathlib.Data.List.InsertIdx

/-!
# Free schedules

`Machine.advance` gives turns in one order. Here tasks go on in any order, one step at a time: a
schedule (`Move`) says which task is next, when those that sleep wake up, and which of the outcomes
that came in at a parallel node is taken in first. Whatever the schedule is, a reflected machine
comes to the reflection of what the machine comes to (`Machine.reflect_follow`).
-/

namespace BehaviorTree

/-- What happens next. -/
inductive Move where
  /-- A task that is not waiting does what it has to do next. -/
  | step (id : TaskId)
  /-- A task has slept for long enough. -/
  | rouse (id : TaskId)
  /-- One of the outcomes that a parallel node has not taken in goes before the others. -/
  | prefer (id : TaskId) (k : Nat)

namespace Machine

/-- What a process does next, for a task. The lines of the trace on the way to it are no steps. -/
def stepProcess (id : TaskId) : Process → Machine → Machine
  | .ask scope request next, machine =>
    let (answer, world) := machine.world.ask scope request
    { machine with world }.setState id (.ready (next answer))
  | .emit event next, machine =>
    let machine := { machine with world := machine.world.emit event }
    if event.isTrace then stepProcess id (next ()) machine
    else machine.setState id (.ready (next ()))
  | .start work next, machine =>
    (machine.spawn (.ready work) .nobody).2.setState id (.ready (next ()))
  | .complete outcome next, machine =>
    (machine.complete id outcome).setState id (.ready (next ()))
  -- after anything else the task has ended or waits
  | process, machine => carryOut id process machine

/-- One step of a task. A parallel node takes in what came in, as far as it needs to. -/
def step (machine : Machine) (id : TaskId) : Machine :=
  match (machine.task id).state with
  | .ready process => stepProcess id process machine
  | .joining join =>
    match join.take join.arrived with
    | (join, none) => machine.setState id (.joining join)
    | (join, some outcome) => (machine.drain join).setState id (.ready (join.next outcome))
  | _ => machine

/-- Puts one of the outcomes that came in at a parallel node before the others. -/
def prefer (machine : Machine) (id : TaskId) (k : Nat) : Machine :=
  match (machine.task id).state with
  | .joining join =>
    let arrived := join.arrived[k]?.toList ++ join.arrived.eraseIdx k
    machine.setState id (.joining { join with arrived })
  | _ => machine

def move (machine : Machine) : Move → Machine
  | .step id => machine.step id
  | .rouse id => machine.rouse id
  | .prefer id k => machine.prefer id k

def follow (machine : Machine) (schedule : List Move) : Machine :=
  schedule.foldl move machine

/-- A machine with one process to run. -/
def begin (process : Process) (world : World) : Machine :=
  { tasks := #[{ state := .ready process, called := true }], world }

section Retains

variable (machine : Machine)

theorem retains_stepProcess (id : TaskId) : ∀ (process : Process) (machine : Machine),
    machine.Retains (stepProcess id process machine)
  | .ask scope request next, machine => by
    rcases hask : machine.world.ask scope request with ⟨answer, world⟩
    simp only [stepProcess, hask]
    exact (retains_setState _ id _).from_tasks rfl
  | .emit event next, machine => by
    rw [stepProcess]
    split
    · exact (retains_stepProcess id (next ()) _).from_tasks rfl
    · exact (retains_setState _ id _).from_tasks rfl
  | .start work next, machine =>
    (machine.retains_spawn _ _).trans (retains_setState _ id _)
  | .complete outcome next, machine =>
    (machine.retains_complete id outcome).trans (retains_setState _ id _)
  | .done outcome, machine => retains_carryOut id (.done outcome) machine
  | .sleep ms next, machine => retains_carryOut id (.sleep ms next) machine
  | .await work next, machine => retains_carryOut id (.await work next) machine
  | .parallel policy input children next, machine =>
    retains_carryOut id (.parallel policy input children next) machine

theorem retains_move (m : Move) : machine.Retains (machine.move m) := by
  cases m with
  | step id =>
    unfold move step
    simp only []
    split
    · exact retains_stepProcess id _ machine
    · split
      · exact machine.retains_setState id _
      · exact (machine.retains_drain _).trans (retains_setState _ id _)
    · exact .refl machine
  | rouse id => exact machine.retains_rouse id
  | prefer id k =>
    unfold move prefer
    simp only []
    split
    · exact machine.retains_setState id _
    · exact .refl machine

theorem retains_follow (schedule : List Move) : machine.Retains (machine.follow schedule) :=
  .foldl retains_move schedule machine

end Retains

section Reflect

variable (on : Bool) (machine : Machine)

theorem reflect_stepProcess (id : TaskId) : ∀ (process : Process) (machine : Machine),
    id < machine.tasks.size →
    (stepProcess id process machine).reflect on
      = stepProcess id (process.reflect on (on && (machine.task id).runsNode)) (machine.reflect on)
  | .ask scope request next, machine, hid => by
    simp only [Process.reflect, stepProcess, world_reflect, World.quiet_ask]
    exact reflect_setState on { machine with world := (machine.world.ask scope request).2 } id _
  | .emit event next, machine, hid => by
    have hlater := machine.reflect_emit on event
    rw [stepProcess, Process.reflect]
    split
    · rename_i htrace
      have ih := reflect_stepProcess id (next ())
        { machine with world := machine.world.emit event } hid
      rw [hlater, if_pos htrace] at ih
      exact ih
    · rename_i htrace
      rw [if_neg htrace] at hlater
      rw [stepProcess, if_neg htrace, ← hlater]
      exact reflect_setState on { machine with world := machine.world.emit event } id _
  | .start work next, machine, hid => by
    have hspawn := machine.reflect_spawn_work on work .nobody rfl
    have hretains := machine.retains_spawn (.ready work) .nobody
    rw [stepProcess, reflect_setState, hretains.runsNode hid, Process.reflect, stepProcess, hspawn]
    rfl
  | .complete outcome next, machine, hid => by
    have hretains := machine.retains_complete id outcome
    rw [stepProcess, reflect_setState, hretains.runsNode hid, Process.reflect, stepProcess,
      reflect_complete]
    rfl
  | .done outcome, machine, hid => reflect_carryOut on id (.done outcome) machine hid
  | .sleep ms next, machine, hid => reflect_carryOut on id (.sleep ms next) machine hid
  | .await work next, machine, hid => reflect_carryOut on id (.await work next) machine hid
  | .parallel policy input children next, machine, hid =>
    reflect_carryOut on id (.parallel policy input children next) machine hid

theorem reflect_step (id : TaskId) :
    (machine.step id).reflect on = (machine.reflect on).step id := by
  unfold step
  rw [task_reflect]
  cases hstate : (machine.task id).state with
  | ready process =>
    have hid : id < machine.tasks.size := lt_size_of_state machine (by simp [hstate])
    simp only [Task.reflect, hstate, TaskState.reflect]
    exact reflect_stepProcess on id process machine hid
  | joining join =>
    have hid : id < machine.tasks.size := lt_size_of_state machine (by simp [hstate])
    simp only [Task.reflect, hstate, TaskState.reflect, Join.take_arrived_reflect]
    rcases join.take join.arrived with ⟨later, _ | outcome⟩
    · exact machine.reflect_setState on id (.joining later)
    · simp only [Option.map_some]
      rw [reflect_setState, (machine.retains_drain later).runsNode hid,
        reflect_drain on machine (on && (machine.task id).runsNode)]
      simp only [TaskState.reflect, Join.reflect, Outcome.flip_flip]
  | _ => simp only [Task.reflect, hstate, TaskState.reflect]

theorem reflect_prefer (id : TaskId) (k : Nat) :
    (machine.prefer id k).reflect on = (machine.reflect on).prefer id k := by
  unfold prefer
  rw [task_reflect]
  cases hstate : (machine.task id).state with
  | joining join =>
    simp only [Task.reflect, hstate, TaskState.reflect]
    rw [reflect_setState]
    simp only [TaskState.reflect, Join.reflect, List.map_append, List.getElem?_map,
      List.eraseIdx_map]
    cases join.arrived[k]? <;> rfl
  | _ => simp only [Task.reflect, hstate, TaskState.reflect]

theorem reflect_move (m : Move) : (machine.move m).reflect on = (machine.reflect on).move m := by
  cases m with
  | step id => exact machine.reflect_step on id
  | rouse id => exact machine.reflect_rouse on id
  | prefer id k => exact machine.reflect_prefer on id k

theorem reflect_follow (schedule : List Move) :
    (machine.follow schedule).reflect on = (machine.reflect on).follow schedule :=
  (List.foldl_hom (reflect on) fun machine m => (machine.reflect_move on m).symm).symm

end Reflect

end Machine

end BehaviorTree
