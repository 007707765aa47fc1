import BehaviorTree.Proofs.Attending

/-!
# Strides

An action that panics, or lets go of its completion handle, leaves a notice. A notice says nothing
to the rest of the run, so like the lines of the trace it is no step of its own in a stride: a task
goes past both to what it does next (`Machine.stride`). A stride is some steps of one task
(`Machine.exists_follow_eq_stride`), so what is pursued in strides can be followed in steps
(`exists_follow_eq_pursue`), and what every move keeps every stride keeps too
(`Machine.Invariant.pursue`).
-/

namespace BehaviorTree

/-- Whether an event tells of an action that went wrong. -/
def Event.isNotice : Event → Bool
  | .panicked _ | .handleDropped => true
  | _ => false

/-- Whether an event is only looked at: a line of the trace, or a notice. -/
def Event.isSilent (event : Event) : Bool :=
  event.isTrace || event.isNotice

/-- What is left of a process after the silent events that it starts with, and the world after
them. -/
def Process.pastSilent : Process → World → Process × World
  | .emit event next, world =>
    if event.isSilent then pastSilent (next ()) (world.emit event) else (.emit event next, world)
  | process, world => (process, world)

/-- Whether a process does something other than to put out a silent event. -/
def Process.Heard : Process → Prop
  | emit event _ => event.isSilent = false
  | _ => True

theorem Process.pastSilent_heard : ∀ (process : Process) (world : World),
    (process.pastSilent world).1.Heard
  | emit event next, world => by
    rw [pastSilent]
    split
    · exact pastSilent_heard (next ()) _
    · rename_i h
      exact Bool.eq_false_iff.2 h
  | done _, _ | ask _ _ _, _ | sleep _ _, _ | start _ _, _ | await _ _, _ | complete _ _, _
  | parallel _ _ _ _, _ => trivial

namespace Machine

/-- A step of a task, after any silent events on the way to it. -/
def stride (machine : Machine) (id : TaskId) : Machine :=
  match (machine.task id).state with
  | .ready process =>
    let (process, world) := process.pastSilent machine.world
    stepProcess id process { machine with world }
  | _ => machine.step id

/-- A move, with a stride for a step. -/
def proceed (machine : Machine) : Move → Machine
  | .step id => machine.stride id
  | m => machine.move m

def pursue (machine : Machine) (schedule : List Move) : Machine :=
  schedule.foldl proceed machine

section Steps

variable {id : TaskId}

theorem exists_follow_eq_stepProcess : ∀ (process : Process) (machine : Machine),
    id < machine.tasks.size → (machine.task id).state.Busy →
    ∃ n, stepProcess id (process.pastSilent machine.world).1
        { machine with world := (process.pastSilent machine.world).2 }
      = (stepProcess id process machine).follow (.replicate n (.step id))
  | .emit event next, machine, hid, hbusy => by
    rw [Process.pastSilent]
    split
    · by_cases htrace : event.isTrace
      · obtain ⟨n, hn⟩ := exists_follow_eq_stepProcess (next ())
          { machine with world := machine.world.emit event } hid hbusy
        exact ⟨n, by rw [stepProcess, if_pos htrace, ← hn]⟩
      · -- a step stops after the notice, and the next one goes on from there
        have hready := TaskState.Busy.ready (next ())
        generalize hlater : ({ machine with world := machine.world.emit event } : Machine) = later
        have hid' : id < later.tasks.size := hlater ▸ hid
        have hbusy' : (later.task id).state.Busy := hlater ▸ hbusy
        have hstate : ((later.setState id (.ready (next ()))).task id).state = .ready (next ()) :=
          state_setState later hid' _
        obtain ⟨n, hn⟩ := exists_follow_eq_stepProcess (next ())
          (later.setState id (.ready (next ()))) (by rwa [setState, size_changeTask])
          (by rwa [hstate])
        have hworld : machine.world.emit event = later.world := by rw [← hlater]
        have hsame : ∀ world, ({ machine with world } : Machine) = { later with world } := by
          rw [← hlater]
          exact fun _ => rfl
        refine ⟨n + 1, ?_⟩
        rw [stepProcess, if_neg htrace, hlater, hworld, hsame, List.replicate_succ]
        show _ = ((later.setState id (.ready (next ()))).step id).follow _
        rw [step, hstate, ← hn]
        exact (stepProcess_setState hready ((next ()).pastSilent later.world).1
          { later with world := ((next ()).pastSilent later.world).2 } hid' hbusy').symm
    · exact ⟨0, rfl⟩
  | .done _, _, _, _ | .ask _ _ _, _, _, _ | .sleep _ _, _, _, _ | .start _ _, _, _, _
  | .await _ _, _, _, _ | .complete _ _, _, _, _ | .parallel _ _ _ _, _, _, _ => ⟨0, rfl⟩

/-- A stride is one step of the task, and as many more as there are notices on the way. -/
theorem exists_follow_eq_stride (machine : Machine) (id : TaskId) :
    ∃ n, machine.stride id = (machine.step id).follow (.replicate n (.step id)) := by
  cases hstate : (machine.task id).state with
  | ready process =>
    have hid : id < machine.tasks.size := lt_size_of_state machine (by simp [hstate])
    obtain ⟨n, hn⟩ := exists_follow_eq_stepProcess process machine hid (hstate ▸ .ready process)
    refine ⟨n, ?_⟩
    rw [stride, step, hstate]
    exact hn
  | _ => exact ⟨0, by rw [stride, hstate]; rfl⟩

end Steps

/-- What is pursued in strides can be followed in steps. -/
theorem exists_follow_eq_pursue : ∀ (schedule : List Move) (machine : Machine),
    ∃ moves, machine.pursue schedule = machine.follow moves
  | [], machine => ⟨[], rfl⟩
  | m :: rest, machine => by
    obtain ⟨first, hfirst⟩ : ∃ moves, machine.proceed m = machine.follow moves := by
      cases m with
      | step id =>
        obtain ⟨n, hn⟩ := machine.exists_follow_eq_stride id
        exact ⟨.step id :: .replicate n (.step id), hn⟩
      | rouse id => exact ⟨[.rouse id], rfl⟩
      | prefer id k => exact ⟨[.prefer id k], rfl⟩
    obtain ⟨moves, hmoves⟩ := exists_follow_eq_pursue rest (machine.proceed m)
    refine ⟨first ++ moves, ?_⟩
    show (machine.proceed m).pursue rest = _
    rw [hmoves, hfirst, follow, follow, follow, List.foldl_append]

theorem Invariant.pursue {I : Machine → Prop} (hI : Invariant I) {machine : Machine}
    (h : I machine) (schedule : List Move) : I (machine.pursue schedule) := by
  obtain ⟨moves, hmoves⟩ := exists_follow_eq_pursue schedule machine
  rw [hmoves]
  exact hI.follow h moves

end Machine

end BehaviorTree
