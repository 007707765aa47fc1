import BehaviorTree.Proofs.Attending
import BehaviorTree.Proofs.Prompt

/-!
# The order of the machine as a schedule

What a move does to the states and the listeners of the tasks and to the world depends on nothing
else (`Machine.Agrees.move`). The turns, the queue and the clock only decide which move is next, so
what a call comes to in the order of the machine, some schedule comes to as well
(`Machine.exists_follow_eq_call`).
-/

namespace BehaviorTree

namespace Machine

/-- Machines whose tasks have the same states and the same listeners, in the same world. -/
structure Agrees (machine other : Machine) : Prop extends machine.Resembles other where
  listener : ∀ id, (other.task id).listener = (machine.task id).listener

namespace Agrees

variable {machine other last : Machine} {id : TaskId}

theorem refl (machine : Machine) : machine.Agrees machine :=
  ⟨.of_tasks rfl rfl, fun _ => rfl⟩

theorem symm (h : machine.Agrees other) : other.Agrees machine :=
  ⟨⟨h.size.symm, fun id => (h.state id).symm, h.world.symm⟩, fun id => (h.listener id).symm⟩

theorem trans (h : machine.Agrees other) (h' : other.Agrees last) : machine.Agrees last :=
  ⟨⟨h'.size.trans h.size, fun id => (h'.state id).trans (h.state id), h'.world.trans h.world⟩,
    fun id => (h'.listener id).trans (h.listener id)⟩

theorem withWorld (h : machine.Agrees other) (world : World) :
    ({ machine with world } : Machine).Agrees { other with world } :=
  ⟨⟨h.size, h.state, rfl⟩, h.listener⟩

/-- Tasks that change in the same way, as far as states and listeners go. -/
theorem changeTask (h : machine.Agrees other) {f f' : Task → Task}
    (hstate : ∀ {task task' : Task}, task'.state = task.state → (f' task').state = (f task).state)
    (hlistener : ∀ {task task' : Task}, task'.listener = task.listener →
      (f' task').listener = (f task).listener) :
    (machine.changeTask id f).Agrees (other.changeTask id f') := by
  refine ⟨⟨?_, fun t => ?_, h.world⟩, fun t => ?_⟩
  · rw [size_changeTask, size_changeTask, h.size]
  · rw [task_changeTask, task_changeTask, h.size]
    split
    · exact hstate (h.state t)
    · exact h.state t
  · rw [task_changeTask, task_changeTask, h.size]
    split
    · exact hlistener (h.listener t)
    · exact h.listener t

theorem setState (h : machine.Agrees other) (id : TaskId) (state : TaskState) :
    (machine.setState id state).Agrees (other.setState id state) :=
  h.changeTask (fun _ => rfl) fun heq => heq

theorem wake_self (machine : Machine) (id : TaskId) : machine.Agrees (machine.wake id) :=
  ⟨machine.resembles_wake id, machine.listener_wake id⟩

theorem wake (h : machine.Agrees other) (id : TaskId) : (machine.wake id).Agrees (other.wake id) :=
  ((wake_self machine id).symm.trans h).trans (wake_self other id)

theorem spawn (h : machine.Agrees other) (state : TaskState) (listener : Listener) :
    (machine.spawn state listener).2.Agrees (other.spawn state listener).2 := by
  refine ⟨⟨?_, fun t => ?_, h.world⟩, fun t => ?_⟩
  · simp only [Machine.spawn, Array.size_push, h.size]
  · rw [task_spawn_eq, task_spawn_eq, h.size]
    split
    · rfl
    · exact h.state t
  · rw [task_spawn_eq, task_spawn_eq, h.size]
    split
    · rfl
    · exact h.listener t

theorem spawnBranches (parent : TaskId) : ∀ (children : List (Bool × Process)) (index : Nat)
    {machine other : Machine}, machine.Agrees other →
    (other.spawnBranches parent index children).1 = (machine.spawnBranches parent index children).1
      ∧ (machine.spawnBranches parent index children).2.Agrees
        (other.spawnBranches parent index children).2
  | [], _, _, _, h => ⟨rfl, h⟩
  | (_, process) :: rest, index, _, _, h => by
    obtain ⟨hids, hrest⟩ := spawnBranches parent rest (index + 1)
      (h.spawn (.ready process) (.branch parent index))
    refine ⟨?_, hrest⟩
    simp only [Machine.spawnBranches]
    rw [hids]
    exact congrArg (· :: _) h.size

theorem deliver (h : machine.Agrees other) (waiter : TaskId) (used : Option Outcome) :
    (machine.deliver waiter used).Agrees (other.deliver waiter used) := by
  unfold Machine.deliver
  rw [h.state]
  split
  · exact (h.setState waiter _).wake waiter
  · exact h

theorem arrive (h : machine.Agrees other) (parent : TaskId) (index : Nat) (outcome : Outcome) :
    (machine.arrive parent index outcome).Agrees (other.arrive parent index outcome) := by
  unfold Machine.arrive
  rw [h.state]
  split
  · exact (h.setState parent _).wake parent
  · exact h.wake parent

theorem complete (h : machine.Agrees other) (id : TaskId) (used : Option Outcome) :
    (machine.complete id used).Agrees (other.complete id used) := by
  unfold Machine.complete
  rw [h.listener]
  split
  · have hchange : (machine.changeTask id fun task => { task with listener := .nobody }).Agrees
        (other.changeTask id fun task => { task with listener := .nobody }) :=
      h.changeTask (fun heq => heq) fun _ => rfl
    exact hchange.deliver _ used
  · exact h

theorem finish (h : machine.Agrees other) (id : TaskId) (outcome : Outcome) :
    (machine.finish id outcome).Agrees (other.finish id outcome) := by
  have hended := h.setState id (.ended outcome)
  unfold Machine.finish
  simp only [hended.listener]
  split
  · exact hended
  · exact hended.arrive _ _ _
  · exact hended.deliver _ _

theorem drain (h : machine.Agrees other) (join : Join) :
    (machine.drain join).Agrees (other.drain join) := by
  have hredirect : ∀ (drainer : TaskId) (branches : List TaskId) {machine other : Machine},
      machine.Agrees other →
      (branches.foldl (fun machine id => machine.changeTask id (redirect drainer)) machine).Agrees
        (branches.foldl (fun machine id => machine.changeTask id (redirect drainer)) other) := by
    intro drainer branches
    induction branches with
    | nil => exact id
    | cons branch rest ih =>
      refine fun h => ih (h.changeTask (fun {task task'} heq => ?_) fun {task task'} heq => ?_)
      · rw [(redirect_state drainer task).1, (redirect_state drainer task').1, heq]
      · unfold redirect
        rw [heq]
        cases hlistener : task.listener <;> simp [hlistener, heq]
  unfold Machine.drain
  split
  · exact h
  · have hspawn := hredirect machine.tasks.size join.branches (h.spawn .draining .nobody)
    rw [show other.spawn .draining .nobody
      = (machine.tasks.size, (other.spawn .draining .nobody).2) from Prod.ext h.size rfl]
    exact hspawn

theorem stepProcess (id : TaskId) : ∀ (process : Process) {machine other : Machine},
    machine.Agrees other → (stepProcess id process machine).Agrees (stepProcess id process other)
  | .done outcome, _, _, h => h.finish id outcome
  | .ask scope request next, machine, other, h => by
    simp only [Machine.stepProcess]
    rw [h.world]
    exact (h.withWorld _).setState id _
  | .emit event next, machine, other, h => by
    rw [Machine.stepProcess, Machine.stepProcess, h.world]
    split
    · exact stepProcess id (next ()) (h.withWorld _)
    · exact (h.withWorld _).setState id _
  | .sleep ms next, machine, other, h => by
    have hasleep := h.setState id (.asleep next)
    exact ⟨⟨hasleep.size, hasleep.state, hasleep.world⟩, hasleep.listener⟩
  | .start work next, machine, other, h => (h.spawn (.ready work) .nobody).setState id _
  | .await work next, machine, other, h => (h.spawn (.ready work) (.handle id)).setState id _
  | .complete used next, machine, other, h => (h.complete id used).setState id _
  | .parallel policy input children next, machine, other, h => by
    obtain ⟨hids, hspawn⟩ := spawnBranches id children 0 h
    simp only [Machine.stepProcess, carryOut]
    rw [hids]
    exact (hspawn.setState id _).wake id

/-- A move depends on nothing but the states and the listeners of the tasks and the world. -/
theorem move (h : machine.Agrees other) (m : Move) : (machine.move m).Agrees (other.move m) := by
  cases m with
  | step id =>
    show (machine.step id).Agrees (other.step id)
    unfold step
    rw [h.state]
    split
    · exact stepProcess id _ h
    · split
      · exact h.setState id _
      · exact (h.drain _).setState id _
    · exact h
  | rouse id =>
    show (machine.rouse id).Agrees (other.rouse id)
    unfold rouse
    rw [h.state]
    split
    · exact (h.setState id _).wake id
    · exact h
  | prefer id k =>
    show (machine.prefer id k).Agrees (other.prefer id k)
    unfold prefer
    rw [h.state]
    split
    · exact h.setState id _
    · exact h

end Agrees

/-- Machines that agree with one that comes about by a schedule. -/
theorem agrees_follow_invariant (start : Machine) :
    Invariant fun machine => ∃ schedule, (start.follow schedule).Agrees machine := by
  refine ⟨fun ⟨schedule, h⟩ m => ⟨schedule ++ [m], ?_⟩, fun ⟨schedule, h⟩ hsame hlistener =>
    ⟨schedule, h.trans ⟨hsame, hlistener⟩⟩⟩
  rw [follow, List.foldl_append]
  exact h.move m

/-- What holds when the callers have looked for the first time holds at the end. -/
theorem Invariant.advance_of_look {I : Machine → Prop} (hI : Invariant I) {machine : Machine}
    (hwoken : machine.woken = true) (ids : List TaskId) (h : I (machine.look ids)) :
    I (Machine.advance ids rounds machine) := by
  obtain ⟨n, hn⟩ : ∃ n, rounds = n + 1 := Nat.exists_eq_succ_of_ne_zero (by decide)
  rw [hn, Machine.advance]
  simp only [hwoken, if_true]
  split
  · exact h
  · split
    · exact h
    · exact hI.advance ids n (hI.giveTurns slice h)

theorem exists_follow_eq_turn_begin (process : Process) (world : World) :
    ∃ n, ((begin process world).step 0).follow (.replicate n (.step 0))
      = (begin process world).turn 0 := by
  have hstate : ((begin process world).task 0).state = .ready process := rfl
  have hbusy : ((begin process world).task 0).state.Busy := .ready process
  obtain ⟨n, hn⟩ := exists_follow_stepProcess process (begin process world)
    (lt_size_of_state _ (by simp [hstate])) hbusy
  refine ⟨n, ?_⟩
  rw [turn_of_ready hstate, step, hstate]
  exact hn

/-- What a call comes to, a schedule comes to that begins with a step of the called task. -/
theorem exists_follow_eq_call (process : Process) (world : World) :
    ∃ schedule, ((begin process world).follow (.step 0 :: schedule)).Agrees
        (call { world } [process]).2
      ∧ (call { world } [process]).1 = [(call { world } [process]).2.outcome? 0] := by
  have hcall : call { world } [process] =
      ([(advance [0] rounds { begin process world with woken := true }).outcome? 0],
        advance [0] rounds { begin process world with woken := true }) := by
    simp [call, begin]
  rw [hcall]
  obtain ⟨n, hn⟩ := exists_follow_eq_turn_begin process world
  have hlook : ({ begin process world with woken := true } : Machine).look [0]
      = (begin process world).turn 0 := rfl
  obtain ⟨schedule, h⟩ := (agrees_follow_invariant ((begin process world).step 0)).advance_of_look
    rfl [0] ⟨.replicate n (.step 0), by rw [hlook, ← hn]; exact .refl _⟩
  exact ⟨schedule, h, rfl⟩

end Machine

end BehaviorTree
