import BehaviorTree.Proofs.Joining
import Mathlib.Data.List.TakeDrop

/-!
# What tasks are for

A task that was called stays called, and one that runs a child of a parallel node does so even
after the node has returned (`Machine.Retains`): no turn and no time that passes makes a task
another's (`Machine.retains_turn`, `retains_jump`), so this holds after any run
(`retains_advance`).
-/

namespace BehaviorTree

namespace Listener

def isBranch : Listener → Bool
  | branch _ _ => true
  | _ => false

end Listener

namespace Machine

/-- Every task is still there, and still what it was made for. -/
structure Retains (before after : Machine) : Prop where
  size : before.tasks.size ≤ after.tasks.size
  called : ∀ id < before.tasks.size, (after.task id).called = (before.task id).called
  isBranch : ∀ id < before.tasks.size,
    (after.task id).listener.isBranch = (before.task id).listener.isBranch

theorem Retains.of_tasks {before after : Machine} (h : after.tasks = before.tasks) :
    before.Retains after := by
  have htask : ∀ id, after.task id = before.task id := fun id => by unfold task; rw [h]
  exact ⟨by rw [h], fun id _ => by rw [htask], fun id _ => by rw [htask]⟩

theorem Retains.from_tasks {before same after : Machine} (h : same.Retains after)
    (htasks : same.tasks = before.tasks) : before.Retains after := by
  have htask : ∀ id, same.task id = before.task id := fun id => by unfold task; rw [htasks]
  refine ⟨htasks ▸ h.size, fun id hid => ?_, fun id hid => ?_⟩
  · rw [h.called id (htasks ▸ hid), htask]
  · rw [h.isBranch id (htasks ▸ hid), htask]

theorem Retains.refl (machine : Machine) : machine.Retains machine :=
  .of_tasks rfl

theorem Retains.trans {a b c : Machine} (h : a.Retains b) (h' : b.Retains c) : a.Retains c := by
  refine ⟨Nat.le_trans h.size h'.size, fun id hid => ?_, fun id hid => ?_⟩
  · rw [h'.called id (Nat.lt_of_lt_of_le hid h.size), h.called id hid]
  · rw [h'.isBranch id (Nat.lt_of_lt_of_le hid h.size), h.isBranch id hid]

theorem Retains.foldl {α : Type} {f : Machine → α → Machine}
    (h : ∀ (machine : Machine) a, machine.Retains (f machine a)) :
    ∀ (list : List α) (machine : Machine), machine.Retains (list.foldl f machine)
  | [], machine => .refl machine
  | a :: rest, machine => (h machine a).trans (foldl h rest (f machine a))

variable (machine : Machine)

theorem retains_changeTask {id : TaskId} {f : Task → Task}
    (hcalled : (f (machine.task id)).called = (machine.task id).called)
    (hlistener : (f (machine.task id)).listener.isBranch = (machine.task id).listener.isBranch) :
    machine.Retains (machine.changeTask id f) := by
  refine ⟨by simp [changeTask], fun t _ => ?_, fun t _ => ?_⟩
  · rw [task_changeTask]
    split
    · rename_i h
      rw [← h.1, hcalled]
    · rfl
  · rw [task_changeTask]
    split
    · rename_i h
      rw [← h.1, hlistener]
    · rfl

theorem retains_setState (id : TaskId) (state : TaskState) :
    machine.Retains (machine.setState id state) :=
  machine.retains_changeTask rfl rfl

theorem retains_wake (id : TaskId) : machine.Retains (machine.wake id) := by
  rcases machine.tasks_wake id with hsame | hqueued
  · exact .of_tasks hsame
  · have hretains : machine.Retains
        (machine.changeTask id fun task => { task with queued := true }) :=
      machine.retains_changeTask rfl rfl
    exact hretains.trans (.of_tasks hqueued)

theorem retains_spawn (state : TaskState) (listener : Listener) :
    machine.Retains (machine.spawn state listener).2 := by
  refine ⟨by simp [spawn], fun id hid => ?_, fun id hid => ?_⟩
  · rw [machine.task_spawn hid]
  · rw [machine.task_spawn hid]

theorem retains_spawnBranches (parent : TaskId) :
    ∀ (children : List (Bool × Process)) (index : Nat) (machine : Machine),
    machine.Retains (machine.spawnBranches parent index children).2
  | [], _, machine => .refl machine
  | (_, process) :: rest, index, machine =>
    (machine.retains_spawn (.ready process) (.branch parent index)).trans
      (retains_spawnBranches parent rest (index + 1) _)

theorem retains_deliver (waiter : TaskId) (outcome : Option Outcome) :
    machine.Retains (machine.deliver waiter outcome) := by
  unfold deliver
  split
  · exact (machine.retains_setState waiter _).trans (retains_wake _ waiter)
  · exact .refl machine

theorem retains_arrive (parent : TaskId) (index : Nat) (outcome : Outcome) :
    machine.Retains (machine.arrive parent index outcome) := by
  unfold arrive
  split
  · exact (machine.retains_setState parent _).trans (retains_wake _ parent)
  · exact machine.retains_wake parent

theorem retains_complete (id : TaskId) (outcome : Option Outcome) :
    machine.Retains (machine.complete id outcome) := by
  unfold complete
  split
  · rename_i waiter hlistener
    refine Retains.trans (machine.retains_changeTask rfl ?_) (retains_deliver _ waiter outcome)
    rw [hlistener]
    rfl
  · exact .refl machine

theorem retains_finish (id : TaskId) (outcome : Outcome) :
    machine.Retains (machine.finish id outcome) := by
  have hended := machine.retains_setState id (.ended outcome)
  unfold finish
  simp only []
  split
  · exact hended
  · exact hended.trans (retains_arrive _ _ _ _)
  · exact hended.trans (retains_deliver _ _ _)

theorem retains_carryOut (id : TaskId) : ∀ (process : Process) (machine : Machine),
    machine.Retains (carryOut id process machine)
  | .done outcome, machine => machine.retains_finish id outcome
  | .ask scope request next, machine => by
    rcases hask : machine.world.ask scope request with ⟨answer, world⟩
    simp only [carryOut, hask]
    exact (retains_carryOut id _ _).from_tasks rfl
  | .emit event next, machine => by
    rw [carryOut]
    exact (retains_carryOut id _ _).from_tasks rfl
  | .sleep ms next, machine =>
    (machine.retains_setState id _).trans (.of_tasks rfl)
  | .start work next, machine => by
    rw [carryOut]
    exact (machine.retains_spawn _ _).trans (retains_carryOut id _ _)
  | .await work next, machine =>
    (machine.retains_spawn _ _).trans (retains_setState _ id _)
  | .complete outcome next, machine => by
    rw [carryOut]
    exact (machine.retains_complete id outcome).trans (retains_carryOut id _ _)
  | .parallel policy input children next, machine =>
    (machine.retains_spawnBranches id children 0).trans
      ((retains_setState _ id _).trans (retains_wake _ id))

theorem retains_drain (join : Join) : machine.Retains (machine.drain join) := by
  have hredirect : ∀ (drainer : TaskId) (machine : Machine) (id : TaskId),
      machine.Retains (machine.changeTask id (redirect drainer)) := by
    intro drainer machine id
    refine machine.retains_changeTask ?_ ?_ <;> unfold redirect <;>
      cases h : (machine.task id).listener <;> simp [h, Listener.isBranch]
  unfold drain
  split
  · exact .refl machine
  · exact (machine.retains_spawn _ _).trans (.foldl (hredirect _) _ _)

/-- A turn makes no task another's. -/
theorem retains_turn (id : TaskId) : machine.Retains (machine.turn id) := by
  have hturn : machine.Retains (machine.changeTask id fun task => { task with queued := false }) :=
    machine.retains_changeTask rfl rfl
  unfold turn
  simp only []
  split
  · exact hturn.trans (retains_carryOut id _ _)
  · split
    · exact hturn.trans (retains_setState _ id _)
    · exact hturn.trans ((retains_drain _ _).trans (retains_carryOut id _ _))
  · exact hturn

/-- Wakes a task that sleeps. -/
def rouse (machine : Machine) (id : TaskId) : Machine :=
  match (machine.task id).state with
  | .asleep next => (machine.setState id (.ready (next ()))).wake id
  | _ => machine

/-- When the clock jumps ahead, the tasks of the timers that are due are woken in turn. -/
theorem jump_eq (machine : Machine) : machine.jump = match machine.timers with
    | [] => machine
    | (due, _) :: _ => (machine.timers.takeWhile (·.1 ≤ due)).foldl
      (fun machine timer => machine.rouse timer.2)
      { machine with now := due, timers := machine.timers.dropWhile (·.1 ≤ due) } := by
  unfold jump
  cases machine.timers with
  | nil => rfl
  | cons timer rest =>
    simp only [List.span_eq_takeWhile_dropWhile]
    rfl

theorem retains_rouse (id : TaskId) : machine.Retains (machine.rouse id) := by
  unfold rouse
  split
  · exact (machine.retains_setState id _).trans (retains_wake _ id)
  · exact .refl machine

theorem retains_jump : machine.Retains machine.jump := by
  have hrouse : ∀ (machine : Machine) (timer : Nat × TaskId),
      machine.Retains (machine.rouse timer.2) := fun machine timer => machine.retains_rouse timer.2
  rw [jump_eq]
  split
  · exact .refl machine
  · exact (Retains.foldl hrouse _ _).from_tasks rfl

theorem retains_giveTurns : ∀ (n : Nat) (machine : Machine),
    machine.Retains (giveTurns n machine)
  | 0, machine => .refl machine
  | n + 1, machine => by
    rw [giveTurns]
    split
    · split
      · exact .refl machine
      · exact machine.retains_jump
    · exact ((retains_turn _ _).trans (retains_giveTurns n _)).from_tasks rfl

theorem retains_look (ids : List TaskId) : machine.Retains (machine.look ids) :=
  (Retains.foldl retains_turn ids { machine with woken := false }).from_tasks rfl

theorem retains_advance (ids : List TaskId) : ∀ (fuel : Nat) (machine : Machine),
    machine.Retains (advance ids fuel machine)
  | 0, machine => .refl machine
  | fuel + 1, machine => by
    have hlook : machine.Retains (if machine.woken then machine.look ids else machine) := by
      split
      · exact machine.retains_look ids
      · exact .refl machine
    rw [advance]
    generalize (if machine.woken then machine.look ids else machine) = looked at hlook ⊢
    split
    · exact hlook
    · split
      · exact hlook
      · exact hlook.trans ((retains_giveTurns _ _).trans (retains_advance ids fuel _))

end Machine

end BehaviorTree
