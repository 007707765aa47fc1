import BehaviorTree.Proofs.Lockstep
import BehaviorTree.Proofs.OwnOrder

/-!
# A task that goes on with something else

A task that goes on with the outcome of what it does takes the same steps as a task that does not,
and leaves the same machine but for what it has left to do itself (`Machine.move_bind`), up to the
step in which the other one ends. There it begins with what it goes on with, on the machine that the
other one leaves (`Machine.untilEnd_bind`).
-/

namespace BehaviorTree

/-- What a task does that goes on with the outcome of what it does. -/
def TaskState.bind (f : Outcome → Process) : TaskState → TaskState
  | ready process => ready (process.bind f)
  | asleep next => asleep fun u => (next u).bind f
  | awaiting next => awaiting fun used => (next used).bind f
  | joining join => joining { join with next := fun outcome => (join.next outcome).bind f }
  | ended outcome => ended outcome
  | draining => draining

namespace Machine

/-- A machine with a task that goes on with the outcome of what it does. -/
def bind (id : TaskId) (f : Outcome → Process) (machine : Machine) : Machine :=
  machine.setState id ((machine.task id).state.bind f)

section Bind

variable {machine : Machine} {id t : TaskId} {f : Outcome → Process}

theorem task_bind_of_ne (h : id ≠ t) : (machine.bind id f).task t = machine.task t :=
  machine.task_setState_of_ne h _

theorem state_bind (hid : id < machine.tasks.size) :
    ((machine.bind id f).task id).state = (machine.task id).state.bind f :=
  machine.state_setState hid _

theorem listener_bind : ((machine.bind id f).task t).listener = (machine.task t).listener :=
  machine.listener_setState id t _

theorem setState_bind_self (state : TaskState) :
    (machine.bind id f).setState id state = machine.setState id state :=
  machine.setState_setState _ state

theorem bind_setState_self (hid : id < machine.tasks.size) (state : TaskState) :
    (machine.setState id state).bind id f = machine.setState id (state.bind f) := by
  rw [bind, state_setState _ hid, setState_setState]

/-- What keeps a task and does not look at what it does is the same if the task goes on. -/
theorem bind_of_setState (op : Machine → Machine)
    (hop : ∀ state, op (machine.setState id state) = (op machine).setState id state)
    (hstate : ((op machine).task id).state = (machine.task id).state) :
    op (machine.bind id f) = (op machine).bind id f := by
  rw [bind, hop, bind, hstate]

theorem changeTask_bind (g : Task → Task)
    (hg : ∀ task state, g { task with state } = { g task with state })
    (hstate : ∀ task, (g task).state = task.state) :
    (machine.bind id f).changeTask t g = (machine.changeTask t g).bind id f := by
  refine bind_of_setState (fun machine => machine.changeTask t g) (fun state => ?_) ?_
  · exact machine.changeTask_comm fun _ task => (hg task state).symm
  · rw [task_changeTask]
    split
    · exact hstate _
    · rfl

theorem setState_bind_of_ne (machine : Machine) (h : id ≠ t) (state : TaskState) :
    (machine.bind id f).setState t state = (machine.setState t state).bind id f := by
  refine bind_of_setState (fun machine => machine.setState t state) (fun state' => ?_) ?_
  · exact machine.changeTask_comm fun heq => absurd heq h
  · rw [task_setState_of_ne _ (Ne.symm h)]

theorem wake_bind : (machine.bind id f).wake t = (machine.wake t).bind id f :=
  bind_of_setState (fun machine => machine.wake t) (machine.wake_setState t)
    (machine.state_wake t id)

theorem spawn_bind (hid : id < machine.tasks.size) (state : TaskState) (listener : Listener) :
    (machine.bind id f).spawn state listener
      = ((machine.spawn state listener).1, (machine.spawn state listener).2.bind id f) := by
  rw [bind, machine.spawn_setState hid, bind, machine.task_spawn hid]

theorem task_spawnBranches (parent : TaskId) : ∀ (children : List (Bool × Process)) (index : Nat)
    {machine : Machine}, id < machine.tasks.size →
    (machine.spawnBranches parent index children).2.task id = machine.task id
  | [], _, _, _ => rfl
  | (_, process) :: rest, index, machine, hid => by
    have hspawn := machine.retains_spawn (.ready process) (.branch parent index)
    rw [← machine.task_spawn hid (.ready process) (.branch parent index)]
    exact task_spawnBranches parent rest (index + 1) (Nat.lt_of_lt_of_le hid hspawn.size)

theorem spawnBranches_bind (hid : id < machine.tasks.size) (parent : TaskId)
    (children : List (Bool × Process)) (index : Nat) :
    (machine.bind id f).spawnBranches parent index children
      = ((machine.spawnBranches parent index children).1,
        (machine.spawnBranches parent index children).2.bind id f) := by
  rw [bind, spawnBranches_setState parent _ children index machine hid, bind,
    task_spawnBranches parent children index hid]

theorem deliver_bind (hid : id < machine.tasks.size) (waiter : TaskId) (used : Option Outcome) :
    (machine.bind id f).deliver waiter used = (machine.deliver waiter used).bind id f := by
  by_cases hwaiter : id = waiter
  · subst hwaiter
    unfold deliver
    rw [state_bind hid]
    cases hstate : (machine.task id).state with
    | awaiting next =>
      simp only [TaskState.bind]
      rw [setState_bind_self, ← wake_bind, bind_setState_self hid]
      rfl
    | _ => rfl
  · unfold deliver
    rw [task_bind_of_ne hwaiter]
    split
    · rw [setState_bind_of_ne _ hwaiter, wake_bind]
    · rfl

theorem arrive_bind (hid : id < machine.tasks.size) (parent : TaskId) (index : Nat)
    (outcome : Outcome) :
    (machine.bind id f).arrive parent index outcome
      = (machine.arrive parent index outcome).bind id f := by
  by_cases hparent : id = parent
  · subst hparent
    unfold arrive
    rw [state_bind hid]
    cases hstate : (machine.task id).state with
    | joining join =>
      simp only [TaskState.bind]
      rw [setState_bind_self, ← wake_bind, bind_setState_self hid]
      rfl
    | _ => exact wake_bind
  · unfold arrive
    rw [task_bind_of_ne hparent]
    split
    · rw [setState_bind_of_ne _ hparent, wake_bind]
    · exact wake_bind

theorem complete_bind (hid : id < machine.tasks.size) (t : TaskId) (used : Option Outcome) :
    (machine.bind id f).complete t used = (machine.complete t used).bind id f := by
  unfold complete
  rw [listener_bind]
  split
  · rw [changeTask_bind (fun task => { task with listener := .nobody }) (fun _ _ => rfl)
      fun _ => rfl, deliver_bind]
    rwa [size_changeTask]
  · rfl

theorem finish_bind (hid : id < machine.tasks.size) (h : id ≠ t) (outcome : Outcome) :
    (machine.bind id f).finish t outcome = (machine.finish t outcome).bind id f := by
  have hset : id < (machine.setState t (.ended outcome)).tasks.size := by
    rwa [setState, size_changeTask]
  unfold finish
  simp only [setState_bind_of_ne _ h, listener_bind]
  split
  · rfl
  · exact arrive_bind hset _ _ _
  · exact deliver_bind hset _ _

/-- Another task does what it does. -/
theorem carryOut_bind (h : id ≠ t) : ∀ (process : Process) (machine : Machine),
    id < machine.tasks.size →
    carryOut t process (machine.bind id f) = (carryOut t process machine).bind id f
  | .done outcome, machine, hid => finish_bind hid h outcome
  | .ask scope request next, machine, hid => by
    simp only [carryOut]
    exact carryOut_bind h (next (machine.world.ask scope request).1)
      { machine with world := (machine.world.ask scope request).2 } hid
  | .emit event next, machine, hid => by
    simp only [carryOut]
    exact carryOut_bind h (next ()) { machine with world := machine.world.emit event } hid
  | .sleep ms next, machine, hid => by
    simp only [carryOut, setState_bind_of_ne _ h]
    rfl
  | .start work next, machine, hid => by
    have hspawn := machine.retains_spawn (.ready work) .nobody
    simp only [carryOut, spawn_bind hid]
    exact carryOut_bind h (next ()) _ (Nat.lt_of_lt_of_le hid hspawn.size)
  | .await work next, machine, hid => by
    simp only [carryOut, spawn_bind hid, setState_bind_of_ne _ h]
  | .complete outcome next, machine, hid => by
    have hcomplete := machine.retains_complete t outcome
    simp only [carryOut, complete_bind hid]
    exact carryOut_bind h (next ()) _ (Nat.lt_of_lt_of_le hid hcomplete.size)
  | .parallel policy input children next, machine, hid => by
    simp only [carryOut, spawnBranches_bind hid, setState_bind_of_ne _ h, wake_bind]

theorem drain_bind (hid : id < machine.tasks.size) (join : Join) :
    (machine.bind id f).drain join = (machine.drain join).bind id f := by
  have hredirect : ∀ (drainer : TaskId) (machine : Machine) (branch : TaskId),
      (machine.bind id f).changeTask branch (redirect drainer)
        = (machine.changeTask branch (redirect drainer)).bind id f := by
    refine fun drainer machine branch => changeTask_bind _ (fun task state => ?_) fun task =>
      (redirect_state drainer task).1
    cases hlistener : task.listener <;> simp [redirect, hlistener]
  unfold drain
  split
  · rfl
  · rw [spawn_bind hid]
    exact List.foldl_hom (bind id f) (hredirect _)

theorem rouse_bind (hid : id < machine.tasks.size) (t : TaskId) :
    (machine.bind id f).rouse t = (machine.rouse t).bind id f := by
  by_cases ht : id = t
  · subst ht
    unfold rouse
    rw [state_bind hid]
    cases hstate : (machine.task id).state with
    | asleep next =>
      simp only [TaskState.bind]
      rw [setState_bind_self, ← wake_bind, bind_setState_self hid]
      rfl
    | _ => rfl
  · unfold rouse
    rw [task_bind_of_ne ht]
    split
    · rw [setState_bind_of_ne _ ht, wake_bind]
    · rfl

theorem prefer_bind (hid : id < machine.tasks.size) (t : TaskId) (k : Nat) :
    (machine.bind id f).prefer t k = (machine.prefer t k).bind id f := by
  by_cases ht : id = t
  · subst ht
    unfold prefer
    rw [state_bind hid]
    cases hstate : (machine.task id).state with
    | joining join =>
      simp only [TaskState.bind]
      rw [setState_bind_self, bind_setState_self hid]
      rfl
    | _ => rfl
  · unfold prefer
    rw [task_bind_of_ne ht]
    split
    · rw [setState_bind_of_ne _ ht]
    · rfl

theorem stepProcess_bind (h : id ≠ t) : ∀ (process : Process) (machine : Machine),
    id < machine.tasks.size →
    stepProcess t process (machine.bind id f) = (stepProcess t process machine).bind id f
  | .ask scope request next, machine, hid => by
    simp only [stepProcess]
    exact setState_bind_of_ne { machine with world := (machine.world.ask scope request).2 } h _
  | .emit event next, machine, hid => by
    rw [stepProcess, stepProcess]
    split
    · exact stepProcess_bind h (next ()) { machine with world := machine.world.emit event } hid
    · exact setState_bind_of_ne { machine with world := machine.world.emit event } h _
  | .start work next, machine, hid => by
    rw [stepProcess, stepProcess, spawn_bind hid, setState_bind_of_ne _ h]
  | .complete outcome next, machine, hid => by
    rw [stepProcess, stepProcess, complete_bind hid, setState_bind_of_ne _ h]
  | .done outcome, machine, hid => carryOut_bind h _ machine hid
  | .sleep ms next, machine, hid => carryOut_bind h _ machine hid
  | .await work next, machine, hid => carryOut_bind h _ machine hid
  | .parallel policy input children next, machine, hid => carryOut_bind h _ machine hid

theorem step_bind_of_ne (h : id ≠ t) (hid : id < machine.tasks.size) :
    (machine.bind id f).step t = (machine.step t).bind id f := by
  unfold step
  rw [task_bind_of_ne h]
  split
  · exact stepProcess_bind h _ machine hid
  · split
    · exact setState_bind_of_ne _ h _
    · rw [drain_bind hid, setState_bind_of_ne _ h]
  · rfl

end Bind

/-- A task that nobody listens to is left to itself: it ends by nothing that others do. -/
structure LeavesAlone (id : TaskId) (before after : Machine) : Prop where
  size : before.tasks.size ≤ after.tasks.size
  listener : (before.task id).listener = .nobody → (after.task id).listener = .nobody
  outcome : after.outcome? id = before.outcome? id

namespace LeavesAlone

variable {machine first between last : Machine} {id t : TaskId}

theorem of_task (hsize : first.tasks.size ≤ last.tasks.size) (h : last.task id = first.task id) :
    LeavesAlone id first last :=
  ⟨hsize, fun hnobody => h ▸ hnobody, by rw [outcome?, h, outcome?]⟩

theorem refl (machine : Machine) : LeavesAlone id machine machine :=
  .of_task (Nat.le_refl _) rfl

theorem trans (h : LeavesAlone id first between) (h' : LeavesAlone id between last) :
    LeavesAlone id first last :=
  ⟨h.size.trans h'.size, fun hnobody => h'.listener (h.listener hnobody),
    h'.outcome.trans h.outcome⟩

theorem changeTask (g : Task → Task) (hstate : ∀ task, (g task).state = task.state)
    (hlistener : ∀ task, task.listener = .nobody → (g task).listener = .nobody) :
    LeavesAlone id machine (machine.changeTask t g) := by
  have hsame : ((machine.changeTask t g).task id).state = (machine.task id).state := by
    rw [task_changeTask]
    split
    · exact hstate _
    · rfl
  refine ⟨Nat.le_of_eq (machine.size_changeTask t g).symm, fun hnobody => ?_, ?_⟩
  · rw [task_changeTask]
    split
    · exact hlistener _ hnobody
    · exact hnobody
  · rw [outcome?, hsame, outcome?]

theorem setState_of_ne (h : id ≠ t) (state : TaskState) :
    LeavesAlone id machine (machine.setState t state) :=
  .of_task (Nat.le_of_eq (machine.size_changeTask t _).symm)
    (machine.task_setState_of_ne (Ne.symm h) state)

/-- A task goes from one thing to another, and has not ended. -/
theorem setState (hid : id < machine.tasks.size) (hrun : machine.outcome? id = none)
    (state : TaskState) (hstate : ∀ outcome, state ≠ .ended outcome) :
    LeavesAlone id machine (machine.setState id state) := by
  refine ⟨Nat.le_of_eq (machine.size_changeTask id _).symm, fun hnobody => ?_, ?_⟩
  · rwa [listener_setState]
  · rw [hrun, outcome?, state_setState _ hid]
    cases state with
    | ended outcome => exact absurd rfl (hstate outcome)
    | _ => rfl

theorem wake : LeavesAlone id machine (machine.wake t) := by
  have hwake := Agrees.wake_self machine t
  refine ⟨hwake.size.ge, fun hnobody => (hwake.listener id).trans hnobody, ?_⟩
  rw [outcome?, hwake.state, outcome?]

theorem spawn (hid : id < machine.tasks.size) (state : TaskState) (listener : Listener) :
    LeavesAlone id machine (machine.spawn state listener).2 :=
  .of_task (machine.retains_spawn state listener).size (machine.task_spawn hid state listener)

theorem outcome?_eq_none_of {state : TaskState} (hstate : (machine.task id).state = state)
    (h : ∀ outcome, state ≠ .ended outcome) : machine.outcome? id = none := by
  rw [outcome?, hstate]
  cases state with
  | ended outcome => exact absurd rfl (h outcome)
  | _ => rfl

/-- A task that waits goes on with something, or another does. -/
theorem setState_of_state (hid : id < machine.tasks.size) {state : TaskState}
    (hold : (machine.task t).state = state) (h : ∀ outcome, state ≠ .ended outcome)
    (state' : TaskState) (h' : ∀ outcome, state' ≠ .ended outcome) :
    LeavesAlone id machine (machine.setState t state') := by
  by_cases ht : id = t
  · subst ht
    exact .setState hid (outcome?_eq_none_of hold h) state' h'
  · exact .setState_of_ne ht state'

theorem deliver (hid : id < machine.tasks.size) (waiter : TaskId) (used : Option Outcome) :
    LeavesAlone id machine (machine.deliver waiter used) := by
  unfold Machine.deliver
  split
  · rename_i hstate
    exact (setState_of_state hid hstate (fun _ => nofun) (.ready _) fun _ => nofun).trans .wake
  · exact .refl machine

theorem arrive (hid : id < machine.tasks.size) (parent : TaskId) (index : Nat) (outcome : Outcome) :
    LeavesAlone id machine (machine.arrive parent index outcome) := by
  unfold Machine.arrive
  split
  · rename_i hstate
    exact (setState_of_state hid hstate (fun _ => nofun) (.joining _) fun _ => nofun).trans .wake
  · exact .wake

theorem complete (hid : id < machine.tasks.size) (t : TaskId) (used : Option Outcome) :
    LeavesAlone id machine (machine.complete t used) := by
  unfold Machine.complete
  split
  · have hchange : LeavesAlone id machine
        (machine.changeTask t fun task => { task with listener := .nobody }) :=
      .changeTask _ (fun _ => rfl) fun _ _ => rfl
    exact hchange.trans (.deliver (Nat.lt_of_lt_of_le hid hchange.size) _ used)
  · exact .refl machine

theorem finish (hid : id < machine.tasks.size) (h : id ≠ t) (outcome : Outcome) :
    LeavesAlone id machine (machine.finish t outcome) := by
  have hended : LeavesAlone id machine (machine.setState t (.ended outcome)) := .setState_of_ne h _
  have hlt := Nat.lt_of_lt_of_le hid hended.size
  unfold Machine.finish
  simp only []
  split
  · exact hended
  · exact hended.trans (.arrive hlt _ _ _)
  · exact hended.trans (.deliver hlt _ _)

theorem spawnBranches (hid : id < machine.tasks.size) (parent : TaskId)
    (children : List (Bool × Process)) (index : Nat) :
    LeavesAlone id machine (machine.spawnBranches parent index children).2 :=
  .of_task (retains_spawnBranches parent children index machine).size
    (task_spawnBranches parent children index hid)

theorem drain (hid : id < machine.tasks.size) (join : Join) :
    LeavesAlone id machine (machine.drain join) := by
  refine ⟨(machine.retains_drain join).size, fun hnobody => ?_, ?_⟩
  · rw [drain_task machine join hid]
    split
    · rw [redirect, hnobody, hnobody]
    · exact hnobody
  · rw [outcome?, (machine.drain_keeps join).state id hid, outcome?]

theorem stepProcess (h : id ≠ t) : ∀ (process : Process) (machine : Machine),
    id < machine.tasks.size → LeavesAlone id machine (stepProcess t process machine)
  | .done outcome, machine, hid => .finish hid h outcome
  | .ask scope request next, machine, hid => by
    have hworld : LeavesAlone id machine
        { machine with world := (machine.world.ask scope request).2 } :=
      .of_task (Nat.le_refl _) rfl
    exact hworld.trans (.setState_of_ne h _)
  | .emit event next, machine, hid => by
    have hworld : LeavesAlone id machine { machine with world := machine.world.emit event } :=
      .of_task (Nat.le_refl _) rfl
    rw [Machine.stepProcess]
    split
    · exact hworld.trans (stepProcess h (next ()) _ hid)
    · exact hworld.trans (.setState_of_ne h _)
  | .sleep ms next, machine, hid =>
    (setState_of_ne h (.asleep next)).trans (.of_task (Nat.le_refl _) rfl)
  | .start work next, machine, hid =>
    (spawn hid (.ready work) .nobody).trans (.setState_of_ne h _)
  | .await work next, machine, hid =>
    (spawn hid (.ready work) (.handle t)).trans (.setState_of_ne h _)
  | .complete used next, machine, hid => (complete hid t used).trans (.setState_of_ne h _)
  | .parallel policy input children next, machine, hid =>
    (spawnBranches hid t children 0).trans ((setState_of_ne h _).trans .wake)

/-- No move but a step of the task ends it. -/
theorem move (hid : id < machine.tasks.size) {m : Move} (h : m ≠ .step id) :
    LeavesAlone id machine (machine.move m) := by
  cases m with
  | step t =>
    have ht : id ≠ t := fun heq => h (heq ▸ rfl)
    show LeavesAlone id machine (machine.step t)
    unfold Machine.step
    split
    · exact .stepProcess ht _ machine hid
    · split
      · exact .setState_of_ne ht _
      · exact (drain hid _).trans (.setState_of_ne ht _)
    · exact .refl machine
  | rouse t =>
    show LeavesAlone id machine (machine.rouse t)
    unfold Machine.rouse
    split
    · rename_i hstate
      exact (setState_of_state hid hstate (fun _ => nofun) (.ready _) fun _ => nofun).trans .wake
    · exact .refl machine
  | prefer t k =>
    show LeavesAlone id machine (machine.prefer t k)
    unfold Machine.prefer
    split
    · rename_i hstate
      exact setState_of_state hid hstate (fun _ => nofun) (.joining _) fun _ => nofun
    · exact .refl machine

end LeavesAlone

section Own

variable {machine : Machine} {id : TaskId} {f : Outcome → Process}

/-- The task has something else to do after some moves, with and without what it goes on with. -/
theorem setState_goesOn {between : Machine} (h : LeavesAlone id machine between)
    (hid : id < machine.tasks.size) (hrun : machine.outcome? id = none) (state : TaskState)
    (hstate : ∀ outcome, state ≠ .ended outcome) :
    LeavesAlone id machine (between.setState id state)
      ∧ between.setState id (state.bind f) = (between.setState id state).bind id f := by
  have hbetween := Nat.lt_of_lt_of_le hid h.size
  exact ⟨h.trans (.setState hbetween (h.outcome.trans hrun) state hstate),
    (bind_setState_self hbetween state).symm⟩

/-- A task does the same next if it goes on with the outcome, or it ends with that and goes on
from there. -/
theorem stepProcess_bind_self : ∀ (process : Process) (machine : Machine),
    id < machine.tasks.size → (machine.task id).listener = .nobody →
    (machine.task id).state.Busy → machine.outcome? id = none →
    LeavesAlone id machine (stepProcess id process machine)
        ∧ stepProcess id (process.bind f) machine = (stepProcess id process machine).bind id f
      ∨ ∃ later outcome, stepProcess id process machine = later.setState id (.ended outcome)
        ∧ LeavesAlone id machine later ∧ (later.task id).state.Busy
        ∧ stepProcess id (process.bind f) machine = stepProcess id (f outcome) later
  | .done outcome, machine, hid, hnobody, hbusy, _ => by
    exact .inr ⟨machine, outcome, finish_of_nobody hnobody outcome, .refl machine, hbusy, rfl⟩
  | .ask scope request next, machine, hid, _, _, hrun => by
    have hworld : LeavesAlone id machine
        { machine with world := (machine.world.ask scope request).2 } :=
      .of_task (Nat.le_refl _) rfl
    exact .inl (setState_goesOn hworld hid hrun (.ready (next _)) (by simp))
  | .emit event next, machine, hid, hnobody, hbusy, hrun => by
    have hworld : LeavesAlone id machine { machine with world := machine.world.emit event } :=
      .of_task (Nat.le_refl _) rfl
    have ih := stepProcess_bind_self (next ()) { machine with world := machine.world.emit event }
      hid hnobody hbusy hrun
    rw [Process.bind, stepProcess, stepProcess]
    split
    · -- a line of the trace is no step, so the task may still end in this one
      rcases ih with ⟨halone, hbind⟩ | ⟨later, outcome, hended, halone, hlater, hbind⟩
      · exact .inl ⟨hworld.trans halone, hbind⟩
      · exact .inr ⟨later, outcome, hended, hworld.trans halone, hlater, hbind⟩
    · exact .inl (setState_goesOn hworld hid hrun (.ready (next ())) (by simp))
  | .sleep ms next, machine, hid, _, _, hrun => by
    have htimers : LeavesAlone id machine
        { machine with timers := addTimer (machine.now + ms) id machine.timers } :=
      .of_task (Nat.le_refl _) rfl
    exact .inl (setState_goesOn htimers hid hrun (.asleep next) (by simp))
  | .start work next, machine, hid, _, _, hrun => by
    exact .inl (setState_goesOn (.spawn hid (.ready work) .nobody) hid hrun (.ready (next ()))
      (by simp))
  | .await work next, machine, hid, _, _, hrun => by
    exact .inl (setState_goesOn (.spawn hid (.ready work) (.handle id)) hid hrun (.awaiting next)
      (by simp))
  | .complete used next, machine, hid, _, _, hrun => by
    exact .inl (setState_goesOn (.complete hid id used) hid hrun (.ready (next ())) (by simp))
  | .parallel policy input children next, machine, hid, _, _, hrun => by
    obtain ⟨halone, hbind⟩ := setState_goesOn (f := f) (.spawnBranches hid id children 0) hid hrun
      (.joining { policy, input, next, flags := children.map (·.1)
                  branches := (machine.spawnBranches id 0 children).1
                  tally := { waitingOn := (children.map (·.1)).countP (·) } }) (by simp)
    refine .inl ⟨halone.trans .wake, ?_⟩
    exact (congrArg (·.wake id) hbind).trans wake_bind

/-- A step of a task that goes on with the outcome of what it does is the step without, or the task
ends with that step; then it is the first step of what it goes on with. -/
theorem step_bind_self (hid : id < machine.tasks.size)
    (hnobody : (machine.task id).listener = .nobody) (hrun : machine.outcome? id = none) :
    LeavesAlone id machine (machine.step id)
        ∧ (machine.bind id f).step id = (machine.step id).bind id f
      ∨ ∃ later outcome, machine.step id = later.setState id (.ended outcome)
        ∧ LeavesAlone id machine later
        ∧ (machine.bind id f).step id = (later.setState id (.ready (f outcome))).step id := by
  unfold step
  rw [state_bind hid]
  cases hstate : (machine.task id).state with
  | ready process =>
    have hbusy : (machine.task id).state.Busy := hstate ▸ .ready process
    have hbound : machine.bind id f = machine.setState id (.ready (process.bind f)) := by
      rw [bind, hstate]
      rfl
    simp only [TaskState.bind]
    rw [hbound, stepProcess_setState (.ready _) _ machine hid hbusy]
    rcases stepProcess_bind_self (f := f) process machine hid hnobody hbusy hrun with
      h | ⟨later, outcome, hended, halone, hlater, hbind⟩
    · exact .inl h
    · have hlt := Nat.lt_of_lt_of_le hid halone.size
      refine .inr ⟨later, outcome, hended, halone, ?_⟩
      rw [state_setState _ hlt, hbind]
      exact (stepProcess_setState (.ready _) _ later hlt hlater).symm
  | joining join =>
    simp only [TaskState.bind]
    rw [Join.take_next (fun outcome => (join.next outcome).bind f) join]
    have hnext := Join.next_take join join.arrived
    rcases htake : join.take join.arrived with ⟨taken, _ | outcome⟩ <;> rw [htake] at hnext
    · obtain ⟨halone, hbind⟩ := setState_goesOn (f := f) (.refl machine) hid hrun
        (.joining taken) fun _ => nofun
      refine .inl ⟨halone, Eq.trans ?_ hbind⟩
      rw [TaskState.bind, hnext, ← setState_bind_self (f := f)]
    · obtain ⟨halone, hbind⟩ := setState_goesOn (f := f) (.drain hid taken) hid hrun
        (.ready (taken.next outcome)) fun _ => nofun
      refine .inl ⟨halone, Eq.trans ?_ hbind⟩
      rw [TaskState.bind, hnext, ← setState_bind_self (f := f), ← drain_bind hid taken]
      rfl
  | ended outcome => rw [outcome?, hstate] at hrun; cases hrun
  | _ => exact .inl ⟨.refl machine, rfl⟩

/-- A move of a machine with a task that goes on with the outcome of what it does. -/
theorem move_bind (hid : id < machine.tasks.size) (hnobody : (machine.task id).listener = .nobody)
    (hrun : machine.outcome? id = none) (m : Move) :
    LeavesAlone id machine (machine.move m)
        ∧ (machine.bind id f).move m = (machine.move m).bind id f
      ∨ ∃ later outcome, machine.move m = later.setState id (.ended outcome)
        ∧ LeavesAlone id machine later
        ∧ (machine.bind id f).move m = (later.setState id (.ready (f outcome))).step id := by
  by_cases hm : m = .step id
  · subst hm
    exact step_bind_self hid hnobody hrun
  · refine .inl ⟨.move hid hm, ?_⟩
    cases m with
    | step t => exact step_bind_of_ne (fun ht => hm (ht ▸ rfl)) hid
    | rouse t => exact rouse_bind hid t
    | prefer t k => exact prefer_bind hid t k

end Own

/-- What a machine comes to by a schedule, up to where a task has ended: the outcome of the task,
the machine but for what the task is at, and what is left of the schedule. -/
def untilEnd (id : TaskId) : List Move → Machine → Option Outcome × Machine × List Move
  | [], machine => (machine.outcome? id, machine.setState id .draining, [])
  | m :: schedule, machine =>
    match machine.outcome? id with
    | some outcome => (some outcome, machine.setState id .draining, m :: schedule)
    | none => untilEnd id schedule (machine.move m)

section Until

variable {machine : Machine} {id : TaskId} {f : Outcome → Process} {schedule : List Move}

theorem untilEnd_of_ended {outcome : Outcome} (h : machine.outcome? id = some outcome) :
    untilEnd id schedule machine = (some outcome, machine.setState id .draining, schedule) := by
  cases schedule with
  | nil => rw [untilEnd, h]
  | cons m schedule => rw [untilEnd, h]

theorem untilEnd_cons (h : machine.outcome? id = none) (m : Move) :
    untilEnd id (m :: schedule) machine = untilEnd id schedule (machine.move m) := by
  rw [untilEnd, h]

theorem outcome?_setState (hid : id < machine.tasks.size) {state : TaskState}
    (h : ∀ outcome, state ≠ .ended outcome) : (machine.setState id state).outcome? id = none :=
  LeavesAlone.outcome?_eq_none_of (state_setState _ hid state) h

theorem outcome?_bind (hid : id < machine.tasks.size) (hrun : machine.outcome? id = none) :
    (machine.bind id f).outcome? id = none := by
  unfold outcome? at hrun ⊢
  rw [state_bind hid]
  cases hstate : (machine.task id).state with
  | ended outcome => rw [hstate] at hrun; cases hrun
  | _ => rfl

theorem untilEnd_ended (hid : id < machine.tasks.size) (outcome : Outcome) :
    untilEnd id schedule (machine.setState id (.ended outcome))
      = (some outcome, machine.setState id .draining, schedule) := by
  have hended : (machine.setState id (.ended outcome)).outcome? id = some outcome := by
    rw [outcome?, state_setState _ hid]
  rw [untilEnd_of_ended hended, setState_setState]

/-- Where the task has ended, or when all moves are made, nobody listens to it still. -/
theorem exists_untilEnd : ∀ (schedule : List Move) (machine : Machine),
    id < machine.tasks.size → (machine.task id).listener = .nobody →
    ∃ (r : Option Outcome) (later : Machine) (rest : List Move),
      untilEnd id schedule machine = (r, later.setState id .draining, rest)
      ∧ id < later.tasks.size ∧ (later.task id).listener = .nobody
  | [], machine, hid, hnobody => ⟨_, machine, [], rfl, hid, hnobody⟩
  | m :: schedule, machine, hid, hnobody => by
    cases hrun : machine.outcome? id with
    | some outcome => exact ⟨_, machine, _, untilEnd_of_ended hrun, hid, hnobody⟩
    | none =>
      rw [untilEnd_cons hrun]
      rcases move_bind (f := .done) hid hnobody hrun m with
        ⟨halone, -⟩ | ⟨later, outcome, hended, halone, -⟩
      · exact exists_untilEnd schedule _ (Nat.lt_of_lt_of_le hid halone.size)
          (halone.listener hnobody)
      · have hlater := Nat.lt_of_lt_of_le hid halone.size
        rw [hended, untilEnd_ended hlater]
        exact ⟨_, later, _, rfl, hlater, halone.listener hnobody⟩

/-- A task that goes on with the outcome of what it does is given what it goes on with where it
would have ended. -/
theorem untilEnd_bind : ∀ (schedule : List Move) (machine : Machine),
    id < machine.tasks.size → (machine.task id).listener = .nobody → machine.outcome? id = none →
    untilEnd id schedule (machine.bind id f) = match untilEnd id schedule machine with
      | (none, later) => (none, later)
      | (some outcome, later, rest) =>
        untilEnd id (.step id :: rest) (later.setState id (.ready (f outcome)))
  | [], machine, hid, _, hrun => by
    rw [untilEnd, untilEnd, outcome?_bind hid hrun, hrun, setState_bind_self]
  | m :: schedule, machine, hid, hnobody, hrun => by
    rw [untilEnd_cons hrun, untilEnd_cons (outcome?_bind hid hrun)]
    rcases move_bind (f := f) hid hnobody hrun m with
      ⟨halone, hbind⟩ | ⟨later, outcome, hended, halone, hbind⟩
    · rw [hbind]
      exact untilEnd_bind schedule _ (Nat.lt_of_lt_of_le hid halone.size) (halone.listener hnobody)
        (halone.outcome.trans hrun)
    · -- the move that ends the task is the first step of what it goes on with
      have hlater := Nat.lt_of_lt_of_le hid halone.size
      have hready : (later.setState id (.ready (f outcome))).outcome? id = none :=
        outcome?_setState hlater fun _ => nofun
      rw [hbind, hended, untilEnd_ended hlater]
      simp only [setState_setState]
      rw [untilEnd_cons hready]
      rfl

/-- A task that has ended stays so. -/
theorem outcome?_follow {outcome : Outcome} : ∀ (schedule : List Move) {machine : Machine},
    machine.outcome? id = some outcome → (machine.follow schedule).outcome? id = some outcome
  | [], _, h => h
  | m :: rest, machine, h => by
    refine outcome?_follow rest ?_
    unfold outcome? at h
    cases hstate : (machine.task id).state with
    | ended ended =>
      by_cases hm : m = .step id
      · have hsame : machine.move m = machine := by
          rw [hm, move, step, hstate]
        rw [hsame, outcome?, hstate]
        rwa [hstate] at h
      · have hid : id < machine.tasks.size := lt_size_of_state machine (by simp [hstate])
        rw [(LeavesAlone.move hid hm).outcome, outcome?, hstate]
        rwa [hstate] at h
    | _ => rw [hstate] at h; cases h

/-- A schedule, and what it comes to up to where a task has ended. -/
theorem exists_follow_eq (id : TaskId) : ∀ (schedule : List Move) (machine : Machine), ∃ state,
    machine.follow schedule = ((untilEnd id schedule machine).2.1.setState id state).follow
        (untilEnd id schedule machine).2.2
      ∧ (machine.follow schedule).outcome? id = (untilEnd id schedule machine).1
  | [], machine =>
    ⟨(machine.task id).state, by rw [untilEnd, setState_setState, setState_self], rfl⟩
  | m :: rest, machine => by
    cases hrun : machine.outcome? id with
    | some outcome =>
      rw [untilEnd_of_ended hrun]
      refine ⟨(machine.task id).state, ?_, outcome?_follow _ hrun⟩
      rw [setState_setState, setState_self]
    | none =>
      rw [untilEnd_cons hrun]
      exact exists_follow_eq id rest (machine.move m)

end Until

end Machine

end BehaviorTree
