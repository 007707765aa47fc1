import BehaviorTree.Proofs.Schedules

/-!
# Turns by steps

On the machine a task that has its turn keeps it until it waits; in a free schedule other tasks may
come between any two of its steps. If none does, its steps add up to its turn
(`Machine.exists_follow_eq_turn`). What a task leaves behind at the end of a turn does not depend on
what it was about to do, unless it waits for a completion handle (`carryOut_setState`).
-/

namespace BehaviorTree

/-- Not waiting for a completion handle. -/
def TaskState.Busy (state : TaskState) : Prop :=
  ∀ next, state ≠ .awaiting next

theorem TaskState.Busy.ready (process : Process) : (TaskState.ready process).Busy :=
  nofun

theorem TaskState.Busy.joining (join : Join) : (TaskState.joining join).Busy :=
  nofun

namespace Machine

theorem ext_task {machine other : Machine} (hsize : machine.tasks.size = other.tasks.size)
    (htask : ∀ id < machine.tasks.size, machine.task id = other.task id)
    (hrest : { machine with tasks := #[] } = { other with tasks := #[] }) : machine = other := by
  obtain ⟨tasks, queue, woken, now, timers, world⟩ := machine
  obtain ⟨tasks', queue', woken', now', timers', world'⟩ := other
  have htasks : tasks = tasks' := by
    refine Array.ext hsize fun i hi hi' => ?_
    have := htask i hi
    simpa [task, Array.getD_eq_getD_getElem?, hi, show i < tasks'.size from hi'] using this
  simp only [Machine.mk.injEq] at hrest ⊢
  exact ⟨htasks, hrest.2⟩

section SetState

variable (machine : Machine) {id : TaskId}

theorem size_changeTask (id : TaskId) (f : Task → Task) :
    (machine.changeTask id f).tasks.size = machine.tasks.size := by
  simp [changeTask]

/-- Changes of tasks commute, unless they are of one task and do not. -/
theorem changeTask_comm {t : TaskId} {f g : Task → Task}
    (h : id = t → ∀ task, f (g task) = g (f task)) :
    (machine.changeTask id f).changeTask t g = (machine.changeTask t g).changeTask id f := by
  refine ext_task (by simp only [size_changeTask]) (fun i _ => ?_) rfl
  simp only [task_changeTask, size_changeTask]
  by_cases hi : id = i <;> by_cases ht : t = i <;> simp only [hi, ht, true_and, false_and, if_false]
  split
  · exact (h (hi.trans ht.symm) _).symm
  · rfl

theorem setState_setState (state state' : TaskState) :
    (machine.setState id state).setState id state' = machine.setState id state' := by
  refine ext_task (by simp only [setState, size_changeTask]) (fun i _ => ?_) rfl
  simp only [setState, task_changeTask, size_changeTask]
  split <;> rfl

theorem setState_self : machine.setState id (machine.task id).state = machine := by
  refine ext_task (machine.size_changeTask id _) (fun i _ => ?_) rfl
  unfold setState
  rw [task_changeTask]
  split
  · rename_i h
    rw [h.1]
  · rfl

theorem task_setState_of_ne {t : TaskId} (h : id ≠ t) (state : TaskState) :
    (machine.setState id state).task t = machine.task t := by
  unfold setState
  rw [task_changeTask, if_neg fun h' => h h'.1]

/-- All of a task but its state is what it was. -/
theorem exists_task_setState (id t : TaskId) (state : TaskState) :
    ∃ state', (machine.setState id state).task t = { machine.task t with state := state' } := by
  unfold setState
  rw [task_changeTask]
  split
  · exact ⟨state, rfl⟩
  · exact ⟨(machine.task t).state, rfl⟩

theorem spawn_setState (hid : id < machine.tasks.size) (state started : TaskState)
    (listener : Listener) :
    (machine.setState id state).spawn started listener
      = ((machine.spawn started listener).1,
        (machine.spawn started listener).2.setState id state) := by
  have hpush : ∀ task : Task, (machine.setState id state).tasks.push task
      = (machine.tasks.push task).modify id fun task => { task with state } := fun task => by
    refine Array.ext (by simp [setState, changeTask]) fun i _ _ => ?_
    simp only [setState, changeTask, Array.getElem_push, Array.getElem_modify, Array.size_modify]
    by_cases hi : i < machine.tasks.size
    · simp [hi]
    · have hne : id ≠ i := fun h => hi (h ▸ hid)
      simp [hi, hne]
  unfold spawn
  rw [hpush, show (machine.setState id state).tasks.size = _ from machine.size_changeTask id _]
  rfl

theorem spawnBranches_setState (parent : TaskId) (state : TaskState) :
    ∀ (children : List (Bool × Process)) (index : Nat) (machine : Machine),
    id < machine.tasks.size →
    (machine.setState id state).spawnBranches parent index children
      = ((machine.spawnBranches parent index children).1,
        (machine.spawnBranches parent index children).2.setState id state)
  | [], _, _, _ => rfl
  | (_, process) :: rest, index, machine, hid => by
    have hspawn := machine.retains_spawn (.ready process) (.branch parent index)
    have ih := spawnBranches_setState parent state rest (index + 1) _
      (Nat.lt_of_lt_of_le hid hspawn.size)
    simp only [spawnBranches, machine.spawn_setState hid, ih]

theorem wake_setState (t : TaskId) (state : TaskState) :
    (machine.setState id state).wake t = (machine.wake t).setState id state := by
  obtain ⟨state', hstate⟩ := machine.exists_task_setState id t state
  have hcomm : (machine.setState id state).changeTask t (fun task => { task with queued := true })
      = (machine.changeTask t fun task => { task with queued := true }).setState id state :=
    machine.changeTask_comm fun _ _ => rfl
  unfold wake
  simp only [hstate, hcomm]
  split
  · rfl
  · split <;> rfl

variable {machine}

theorem deliver_setState (hbusy : (machine.task id).state.Busy) {state : TaskState}
    (hstate : state.Busy) (waiter : TaskId) (outcome : Option Outcome) :
    (machine.setState id state).deliver waiter outcome
      = (machine.deliver waiter outcome).setState id state := by
  by_cases hwaiter : id = waiter
  · subst hwaiter
    have hset : ((machine.setState id state).task id).state.Busy := by
      unfold setState
      rw [task_changeTask]
      split
      · exact hstate
      · exact hbusy
    unfold deliver
    split
    · rename_i next h
      exact absurd h (hset next)
    · split
      · rename_i next h
        exact absurd h (hbusy next)
      · rfl
  · unfold deliver
    rw [machine.task_setState_of_ne hwaiter]
    split
    · rename_i next _
      have hcomm : (machine.setState id state).setState waiter (.ready (next outcome))
          = (machine.setState waiter (.ready (next outcome))).setState id state :=
        machine.changeTask_comm fun h => absurd h hwaiter
      rw [hcomm, wake_setState]
    · rfl

theorem complete_setState (hbusy : (machine.task id).state.Busy) {state : TaskState}
    (hstate : state.Busy) (outcome : Option Outcome) :
    (machine.setState id state).complete id outcome
      = (machine.complete id outcome).setState id state := by
  obtain ⟨state', htask⟩ := machine.exists_task_setState id id state
  unfold complete
  simp only [htask]
  split
  · rename_i waiter _
    have hcomm : (machine.setState id state).changeTask id
          (fun task => { task with listener := .nobody })
        = (machine.changeTask id fun task => { task with listener := .nobody }).setState id state :=
      machine.changeTask_comm fun _ _ => rfl
    rw [hcomm, deliver_setState _ hstate]
    rw [task_changeTask]
    split <;> exact hbusy
  · rfl

theorem state_complete (hid : id < machine.tasks.size) (hbusy : (machine.task id).state.Busy)
    (outcome : Option Outcome) :
    ((machine.complete id outcome).task id).state = (machine.task id).state := by
  have h := complete_setState hbusy hbusy outcome
  rw [setState_self] at h
  rw [h, state_setState _ (Nat.lt_of_lt_of_le hid (machine.retains_complete id outcome).size)]

/-- A task that has its turn leaves the same machine whatever it was about to do. -/
theorem carryOut_setState {state : TaskState} (hstate : state.Busy) :
    ∀ (process : Process) (machine : Machine), id < machine.tasks.size →
    (machine.task id).state.Busy →
    carryOut id process (machine.setState id state) = carryOut id process machine
  | .done outcome, machine, _, _ => by
    simp only [carryOut, finish, setState_setState]
  | .ask scope request next, machine, hid, hbusy => by
    simp only [carryOut]
    exact carryOut_setState hstate (next (machine.world.ask scope request).1)
      { machine with world := (machine.world.ask scope request).2 } hid hbusy
  | .emit event next, machine, hid, hbusy => by
    simp only [carryOut]
    exact carryOut_setState hstate (next ())
      { machine with world := machine.world.emit event } hid hbusy
  | .sleep ms next, machine, _, _ => by
    simp only [carryOut, setState_setState]
    rfl
  | .start work next, machine, hid, hbusy => by
    have hspawn := machine.retains_spawn (.ready work) .nobody
    simp only [carryOut, spawn_setState machine hid]
    refine carryOut_setState hstate (next ()) _ (Nat.lt_of_lt_of_le hid hspawn.size) ?_
    rwa [machine.task_spawn hid]
  | .await work next, machine, hid, _ => by
    simp only [carryOut, spawn_setState machine hid, setState_setState]
  | .complete outcome next, machine, hid, hbusy => by
    have hcomplete := machine.retains_complete id outcome
    simp only [carryOut, complete_setState hbusy hstate]
    refine carryOut_setState hstate (next ()) _ (Nat.lt_of_lt_of_le hid hcomplete.size) ?_
    rwa [state_complete hid hbusy]
  | .parallel policy input children next, machine, hid, _ => by
    simp only [carryOut, spawnBranches_setState id state children 0 machine hid, setState_setState]

end SetState

section Turns

variable {id : TaskId}

/-- A task that goes on with a process comes to the end of its turn, if a task that has taken the
first step of the process does. -/
theorem exists_follow_resume {process : Process}
    (hprocess : ∀ machine : Machine, id < machine.tasks.size → (machine.task id).state.Busy →
      ∃ n, (stepProcess id process machine).follow (.replicate n (.step id))
        = carryOut id process machine)
    {machine : Machine} (hid : id < machine.tasks.size) (hbusy : (machine.task id).state.Busy) :
    ∃ n, (machine.setState id (.ready process)).follow (.replicate n (.step id))
      = carryOut id process machine := by
  have hready := TaskState.Busy.ready process
  have hstate : ((machine.setState id (.ready process)).task id).state = .ready process :=
    state_setState machine hid _
  obtain ⟨n, hn⟩ := hprocess (machine.setState id (.ready process))
    (by rwa [setState, size_changeTask]) (by rwa [hstate])
  refine ⟨n + 1, ?_⟩
  rw [carryOut_setState hready process machine hid hbusy] at hn
  rw [List.replicate_succ, ← hn]
  show ((machine.setState id (.ready process)).step id).follow _ = _
  rw [step, hstate]

theorem exists_follow_stepProcess : ∀ (process : Process) (machine : Machine),
    id < machine.tasks.size → (machine.task id).state.Busy →
    ∃ n, (stepProcess id process machine).follow (.replicate n (.step id))
      = carryOut id process machine
  | .done _, _, _, _ | .sleep _ _, _, _, _ | .await _ _, _, _, _ | .parallel _ _ _ _, _, _, _ =>
    ⟨0, rfl⟩
  | .ask scope request next, machine, hid, hbusy => by
    rcases hask : machine.world.ask scope request with ⟨answer, world⟩
    simp only [stepProcess, carryOut, hask]
    exact exists_follow_resume (exists_follow_stepProcess (next answer)) hid hbusy
  | .emit event next, machine, hid, hbusy => by
    rw [stepProcess, carryOut]
    split
    · exact exists_follow_stepProcess (next ()) _ hid hbusy
    · exact exists_follow_resume (exists_follow_stepProcess (next ())) hid hbusy
  | .start work next, machine, hid, hbusy => by
    have hspawn := machine.retains_spawn (.ready work) .nobody
    rw [stepProcess, carryOut]
    refine exists_follow_resume (exists_follow_stepProcess (next ()))
      (Nat.lt_of_lt_of_le hid hspawn.size) ?_
    rwa [machine.task_spawn hid]
  | .complete outcome next, machine, hid, hbusy => by
    have hcomplete := machine.retains_complete id outcome
    rw [stepProcess, carryOut]
    refine exists_follow_resume (exists_follow_stepProcess (next ()))
      (Nat.lt_of_lt_of_le hid hcomplete.size) ?_
    rwa [state_complete hid hbusy]

/-- A turn of a task is a schedule of its steps alone. -/
theorem exists_follow_eq_turn (machine : Machine) (id : TaskId) :
    ∃ n, (machine.changeTask id fun task => { task with queued := false }).follow
      (.replicate n (.step id)) = machine.turn id := by
  unfold turn
  simp only []
  generalize (machine.changeTask id fun task => { task with queued := false }) = turned
  cases hstate : (turned.task id).state with
  | ready process =>
    have hid : id < turned.tasks.size := lt_size_of_state turned (by simp [hstate])
    obtain ⟨n, hn⟩ := exists_follow_stepProcess process turned hid (hstate ▸ .ready process)
    refine ⟨n + 1, ?_⟩
    show ((turned.step id).follow _) = _
    rw [step, hstate]
    exact hn
  | joining join =>
    have hid : id < turned.tasks.size := lt_size_of_state turned (by simp [hstate])
    rcases htake : join.take join.arrived with ⟨later, _ | outcome⟩
    · refine ⟨1, ?_⟩
      show turned.step id = _
      simp only [step, hstate, htake]
    · have hdrain := turned.drain_keeps later
      obtain ⟨n, hn⟩ := exists_follow_resume (exists_follow_stepProcess (later.next outcome))
        (Nat.lt_of_lt_of_le hid (turned.retains_drain later).size)
        (by rw [hdrain.state id hid, hstate]; exact .joining join)
      refine ⟨n + 1, ?_⟩
      simp only [htake]
      rw [← hn]
      show ((turned.step id).follow _) = _
      simp only [step, hstate, htake]
  | _ => exact ⟨0, rfl⟩

end Turns

end Machine

end BehaviorTree
