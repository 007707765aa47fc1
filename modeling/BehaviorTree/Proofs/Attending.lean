import BehaviorTree.Proofs.Exchanges
import BehaviorTree.Proofs.Steps

/-!
# What a machine makes of a process

What every move keeps, and what depends on nothing but the states and the listeners of the tasks and
the world, the machine keeps in its own order too (`Machine.Invariant.advance`). One such thing is
said of a machine whose first task was given a process with nothing parallel in it: the task stands
where the process comes to after some exchanges, all the other tasks do work that some action
started, and the events of nodes are those of the exchanges (`Machine.Attends`).
-/

namespace BehaviorTree

namespace Machine

/-- Machines whose tasks are in the same states, in the same world. -/
structure Resembles (machine other : Machine) : Prop where
  size : other.tasks.size = machine.tasks.size
  state : ∀ id, (other.task id).state = (machine.task id).state
  world : other.world = machine.world

theorem Resembles.of_tasks {machine other : Machine} (htasks : other.tasks = machine.tasks)
    (hworld : other.world = machine.world) : machine.Resembles other :=
  ⟨by rw [htasks], fun id => by unfold task; rw [htasks], hworld⟩

theorem resembles_changeTask (machine : Machine) (id : TaskId) {f : Task → Task}
    (hf : ∀ task, (f task).state = task.state) :
    machine.Resembles (machine.changeTask id f) := by
  refine ⟨machine.size_changeTask id f, fun t => ?_, rfl⟩
  rw [task_changeTask]
  split
  · exact hf _
  · rfl

theorem resembles_wake (machine : Machine) (id : TaskId) : machine.Resembles (machine.wake id) := by
  refine ⟨machine.size_wake id, machine.state_wake id, ?_⟩
  unfold wake
  simp only []
  split
  · rfl
  · split <;> rfl

/-- What every move keeps, and what the states and the listeners of the tasks and the world
decide. -/
structure Invariant (I : Machine → Prop) : Prop where
  move : ∀ {machine : Machine}, I machine → ∀ m : Move, I (machine.move m)
  congr : ∀ {machine other : Machine}, I machine → machine.Resembles other →
    (∀ id, (other.task id).listener = (machine.task id).listener) → I other

namespace Invariant

variable {I : Machine → Prop}

theorem foldl {α : Type} {f : Machine → α → Machine}
    (hf : ∀ {machine : Machine}, I machine → ∀ a, I (f machine a)) :
    ∀ (list : List α) {machine : Machine}, I machine → I (list.foldl f machine)
  | [], _, h => h
  | a :: rest, _, h => foldl hf rest (hf h a)

variable (hI : Invariant I) {machine : Machine}
include hI

theorem follow (h : I machine) (schedule : List Move) : I (machine.follow schedule) :=
  foldl hI.move schedule h

theorem turn (h : I machine) (id : TaskId) : I (machine.turn id) := by
  obtain ⟨n, hn⟩ := machine.exists_follow_eq_turn id
  have hsame :
      machine.Resembles (machine.changeTask id fun task => { task with queued := false }) :=
    machine.resembles_changeTask id fun _ => rfl
  have hlistener : ∀ t, ((machine.changeTask id fun task => { task with queued := false }).task
      t).listener = (machine.task t).listener := fun t => by
    rw [task_changeTask]
    split <;> rfl
  rw [← hn]
  exact hI.follow (hI.congr h hsame hlistener) _

theorem jump (h : I machine) : I machine.jump := by
  have hrouse : ∀ {machine : Machine}, I machine → ∀ timer : Nat × TaskId,
      I (machine.rouse timer.2) := fun h timer => hI.move h (.rouse timer.2)
  rw [jump_eq]
  split
  · exact h
  · refine foldl hrouse _ (hI.congr h ?_ fun _ => rfl)
    exact .of_tasks rfl rfl

theorem giveTurns : ∀ (n : Nat) {machine : Machine}, I machine → I (giveTurns n machine)
  | 0, _, h => h
  | n + 1, machine, h => by
    rw [Machine.giveTurns]
    split
    · split
      · exact h
      · exact hI.jump h
    · rename_i id queue _
      have hsame : machine.Resembles { machine with queue } := .of_tasks rfl rfl
      exact giveTurns n (hI.turn (hI.congr h hsame fun _ => rfl) id)

theorem look (h : I machine) (ids : List TaskId) : I (machine.look ids) :=
  foldl hI.turn ids (hI.congr h (.of_tasks rfl rfl) fun _ => rfl)

/-- The machine keeps it in its own order. -/
theorem advance (ids : List TaskId) : ∀ (fuel : Nat) {machine : Machine}, I machine →
    I (advance ids fuel machine)
  | 0, _, h => h
  | fuel + 1, machine, h => by
    have hlook : I (if machine.woken then machine.look ids else machine) := by
      split
      · exact hI.look h ids
      · exact h
    rw [Machine.advance]
    generalize (if machine.woken then machine.look ids else machine) = looked at hlook ⊢
    split
    · exact hlook
    · split
      · exact hlook
      · exact advance ids fuel (hI.giveTurns slice hlook)

end Invariant

end Machine

/-- What holds of what a task has left to do. -/
def TaskState.Left (P : Process → Prop) : TaskState → Prop
  | ready process => P process
  | asleep next => P (next ())
  | awaiting next => ∃ work, P (.await work next)
  | joining join => ∃ children, P (.parallel join.policy join.input children join.next)
  | ended outcome => P (.done outcome)
  | draining => False

/-- What a task can have left once the first task's process had some exchanges: the first task what
the process comes to, and any other what code of an action does. -/
def Process.Role (process : Process) (xs : List Exchange) (id : TaskId) (rest : Process) : Prop :=
  if id = 0 then process.Comes xs rest else rest.Acts

/-- The exchanges of the first task, after one of some task. -/
def Exchange.after (id : TaskId) (x : Exchange) (xs : List Exchange) : List Exchange :=
  if id = 0 then xs ++ [x] else xs

namespace Process

variable {process q rest : Process} {xs : List Exchange} {id : TaskId} {x : Exchange}

theorem Role.meets (h : process.Role xs id q) (hx : q.Meets x rest) :
    process.Role (x.after id xs) id rest := by
  unfold Role Exchange.after at *
  split
  · rename_i hid
    rw [if_pos hid] at h
    exact h.snoc hx
  · rename_i hid
    rw [if_neg hid] at h
    exact (h.meets hx).1

theorem Role.nodeEvents_after (h : process.Role xs id q) (hx : q.Meets x rest) :
    Exchange.nodeEvents (x.after id xs) = Exchange.nodeEvents xs ++ Exchange.nodeEvents [x] := by
  unfold Role Exchange.after at *
  split
  · exact Exchange.nodeEvents_append xs [x]
  · rename_i hid
    rw [if_neg hid] at h
    rw [Acts.nodeEvents_eq_nil h (.step hx (.here rest)), List.append_nil]

/-- What others have left does not depend on the exchanges. -/
theorem Role.of_ne {t : TaskId} (h : process.Role xs t rest) (hne : t ≠ id) (x : Exchange) :
    process.Role (x.after id xs) t rest := by
  unfold Role Exchange.after at *
  split
  · rename_i ht
    rw [if_pos ht] at h
    rwa [if_neg fun hid => hne (ht.trans hid.symm)]
  · rename_i ht
    rwa [if_neg ht] at h

theorem Role.exists_solo {own : Event → Bool} (hsolo : process.Solo own)
    (h : process.Role xs id rest) : ∃ own, rest.Solo own := by
  unfold Role at h
  split at h
  · exact ⟨own, (hsolo.comes h).1⟩
  · exact ⟨_, h⟩

end Process

theorem TaskState.Left.imp {P Q : Process → Prop} (hPQ : ∀ process, P process → Q process) :
    ∀ {state : TaskState}, state.Left P → state.Left Q
  | ready _, h => hPQ _ h
  | asleep _, h => hPQ _ h
  | awaiting _, ⟨work, h⟩ => ⟨work, hPQ _ h⟩
  | joining _, ⟨children, h⟩ => ⟨children, hPQ _ h⟩
  | ended _, h => hPQ _ h

namespace Machine

/-- The first task was given a process, and has had some exchanges since there were some events of
nodes. -/
structure Attends (process : Process) (past : List Event) (xs : List Exchange)
    (machine : Machine) : Prop where
  pos : 0 < machine.tasks.size
  left : ∀ id < machine.tasks.size, (machine.task id).state.Left (process.Role xs id)
  nodeEvents : machine.world.nodeEvents = (Exchange.nodeEvents xs).reverse ++ past

/-- A task that has a step to take leaves the same machine whatever it was about to do. -/
theorem stepProcess_setState {id : TaskId} {state : TaskState} (hstate : state.Busy) :
    ∀ (process : Process) (machine : Machine), id < machine.tasks.size →
    (machine.task id).state.Busy →
    stepProcess id process (machine.setState id state) = stepProcess id process machine
  | .ask scope request next, machine, _, _ => by
    simp only [stepProcess]
    exact setState_setState { machine with world := (machine.world.ask scope request).2 } _ _
  | .emit event next, machine, hid, hbusy => by
    rw [stepProcess, stepProcess]
    split
    · exact stepProcess_setState hstate (next ()) { machine with world := machine.world.emit event }
        hid hbusy
    · exact setState_setState { machine with world := machine.world.emit event } _ _
  | .start work next, machine, hid, _ => by
    rw [stepProcess, stepProcess, machine.spawn_setState hid, setState_setState]
  | .complete outcome next, machine, _, hbusy => by
    rw [stepProcess, stepProcess, complete_setState hbusy hstate, setState_setState]
  | .done outcome, machine, hid, hbusy => carryOut_setState hstate _ machine hid hbusy
  | .sleep ms next, machine, hid, hbusy => carryOut_setState hstate _ machine hid hbusy
  | .await work next, machine, hid, hbusy => carryOut_setState hstate _ machine hid hbusy
  | .parallel policy input children next, machine, hid, hbusy =>
    carryOut_setState hstate _ machine hid hbusy

namespace Attends

variable {process : Process} {past : List Event} {xs : List Exchange} {machine other : Machine}
  {id : TaskId}

theorem congr (h : machine.Attends process past xs) (hsame : machine.Resembles other) :
    other.Attends process past xs := by
  refine ⟨hsame.size ▸ h.pos, fun id hid => ?_, hsame.world ▸ h.nodeEvents⟩
  rw [hsame.state]
  exact h.left id (hsame.size ▸ hid)

theorem setState (h : machine.Attends process past xs) {state : TaskState}
    (hstate : state.Left (process.Role xs id)) :
    (machine.setState id state).Attends process past xs := by
  refine ⟨machine.size_changeTask id _ ▸ h.pos, fun t ht => ?_, h.nodeEvents⟩
  rw [Machine.setState, size_changeTask] at ht
  rw [Machine.setState, task_changeTask]
  split
  · rename_i hsame
    exact hsame.1 ▸ hstate
  · exact h.left t ht

/-- A task has an exchange, in which the world changes, and has something else left. -/
theorem meets (h : machine.Attends process past xs) {q rest : Process} {x : Exchange}
    (hq : process.Role xs id q) (hx : q.Meets x rest) (world : World)
    (hworld : world.nodeEvents = (Exchange.nodeEvents [x]).reverse ++ machine.world.nodeEvents)
    (state : TaskState) (hstate : ∀ P : Process → Prop, P rest → state.Left P) :
    ({ machine with world }.setState id state).Attends process past (x.after id xs) := by
  refine ⟨machine.size_changeTask id _ ▸ h.pos, fun t ht => ?_, ?_⟩
  · rw [Machine.setState, size_changeTask] at ht
    by_cases hid : id = t
    · subst hid
      rw [state_setState _ ht]
      exact hstate _ (hq.meets hx)
    · rw [task_setState_of_ne _ hid]
      exact (h.left t ht).imp fun q hq => hq.of_ne (Ne.symm hid) x
  · rw [hq.nodeEvents_after hx, List.reverse_append, List.append_assoc, ← h.nodeEvents]
    exact hworld

theorem spawn (h : machine.Attends process past xs) {work : Process} (hwork : work.Acts)
    (listener : Listener) : (machine.spawn (.ready work) listener).2.Attends process past xs := by
  have hpos := h.pos
  refine ⟨by simp [Machine.spawn], fun t ht => ?_, h.nodeEvents⟩
  by_cases hlt : t < machine.tasks.size
  · rw [machine.task_spawn hlt]
    exact h.left t hlt
  · have hnew : t = machine.tasks.size := by
      simp only [Machine.spawn, Array.size_push] at ht
      omega
    have hne : machine.tasks.size ≠ 0 := by omega
    subst hnew
    simpa [Machine.spawn, task, Array.getD_eq_getD_getElem?, TaskState.Left, Process.Role, hne]
      using hwork

theorem role_of_ready (h : machine.Attends process past xs) {q : Process}
    (hstate : (machine.task id).state = .ready q) : process.Role xs id q := by
  have hleft := h.left id (lt_size_of_state machine (by simp [hstate]))
  rwa [hstate] at hleft

theorem deliver (h : machine.Attends process past xs) (waiter : TaskId) (used : Option Outcome) :
    ∃ xs, (machine.deliver waiter used).Attends process past xs := by
  unfold Machine.deliver
  split
  · rename_i next hstate
    have hid : waiter < machine.tasks.size := lt_size_of_state machine (by simp [hstate])
    obtain ⟨work, hq⟩ : ∃ work, process.Role xs waiter (.await work next) := by
      have hleft := h.left waiter hid
      rwa [hstate] at hleft
    have hmeets := h.meets hq (.await work next used) machine.world rfl (.ready (next used))
      fun _ hP => hP
    exact ⟨_, hmeets.congr (resembles_wake _ waiter)⟩
  · exact ⟨xs, h⟩

theorem complete (h : machine.Attends process past xs) (id : TaskId) (used : Option Outcome) :
    ∃ xs, (machine.complete id used).Attends process past xs := by
  unfold Machine.complete
  split
  · have hsame : machine.Resembles
        (machine.changeTask id fun task => { task with listener := .nobody }) :=
      machine.resembles_changeTask id fun _ => rfl
    exact (h.congr hsame).deliver _ used
  · exact ⟨xs, h⟩

theorem arrive (h : machine.Attends process past xs) (parent : TaskId) (index : Nat)
    (outcome : Outcome) : (machine.arrive parent index outcome).Attends process past xs := by
  unfold Machine.arrive
  split
  · rename_i join hstate
    have hleft := h.left parent (lt_size_of_joining hstate)
    rw [hstate] at hleft
    have hset : (machine.setState parent (.joining { join with
        arrived := join.arrived ++ [(index, outcome)] })).Attends process past xs :=
      h.setState hleft
    exact hset.congr (resembles_wake _ parent)
  · exact h.congr (machine.resembles_wake parent)

theorem finish (h : machine.Attends process past xs) {outcome : Outcome}
    (hrole : process.Role xs id (.done outcome)) :
    ∃ xs, (machine.finish id outcome).Attends process past xs := by
  have hended : (machine.setState id (.ended outcome)).Attends process past xs := h.setState hrole
  unfold Machine.finish
  simp only []
  split
  · exact ⟨xs, hended⟩
  · exact ⟨xs, hended.arrive _ _ _⟩
  · exact hended.deliver _ _

theorem stepProcess {own : Event → Bool} (hsolo : process.Solo own) :
    ∀ (q : Process) {machine : Machine} {xs : List Exchange}, machine.Attends process past xs →
    (machine.task id).state = .ready q →
    ∃ xs, (stepProcess id q machine).Attends process past xs
  | .done outcome, machine, xs, h, hstate => h.finish (h.role_of_ready hstate)
  | .ask scope request next, machine, xs, h, hstate => by
    rcases hask : machine.world.ask scope request with ⟨answer, world⟩
    have hworld : world.nodeEvents = machine.world.nodeEvents := by
      rw [show world = (machine.world.ask scope request).2 by rw [hask]]
      rfl
    simp only [Machine.stepProcess, hask]
    exact ⟨_, h.meets (h.role_of_ready hstate) (.ask scope request next answer) world hworld
      (.ready (next answer)) fun _ hP => hP⟩
  | .emit event next, machine, xs, h, hstate => by
    have hworld : (machine.world.emit event).nodeEvents
        = (Exchange.nodeEvents [.emit event]).reverse ++ machine.world.nodeEvents := by
      rw [World.nodeEvents_emit]
      cases event <;> rfl
    have hmeets := h.meets (h.role_of_ready hstate) (.emit event next) _ hworld (.ready (next ()))
      fun _ hP => hP
    have hid : id < machine.tasks.size := lt_size_of_state machine (by simp [hstate])
    rw [Machine.stepProcess]
    split
    · -- the task does not stop at a line of the trace
      have hbusy : (machine.task id).state.Busy := hstate ▸ .ready _
      rw [← stepProcess_setState (.ready (next ())) (next ())
        { machine with world := machine.world.emit event } hid hbusy]
      exact stepProcess hsolo (next ()) hmeets (state_setState _ hid _)
    · exact ⟨_, hmeets⟩
  | .sleep ms next, machine, xs, h, hstate => by
    have hmeets := h.meets (h.role_of_ready hstate) (.sleep ms next) machine.world rfl
      (.asleep next) fun _ hP => hP
    exact ⟨_, hmeets.congr (.of_tasks rfl rfl)⟩
  | .start work next, machine, xs, h, hstate => by
    have hid : id < machine.tasks.size := lt_size_of_state machine (by simp [hstate])
    obtain ⟨own, hrest⟩ := (h.role_of_ready hstate).exists_solo hsolo
    cases hrest with
    | start hwork _ =>
      have hspawn := h.spawn hwork .nobody
      have hrole : process.Role xs id (.start work next) :=
        hspawn.role_of_ready (by rw [machine.task_spawn hid, hstate])
      exact ⟨_, hspawn.meets hrole (.start work next) _ rfl (.ready (next ())) fun _ hP => hP⟩
  | .await work next, machine, xs, h, hstate => by
    obtain ⟨own, hrest⟩ := (h.role_of_ready hstate).exists_solo hsolo
    cases hrest with
    | await hwork _ =>
      exact ⟨xs, (h.spawn hwork (.handle id)).setState ⟨work, h.role_of_ready hstate⟩⟩
  | .complete used next, machine, xs, h, hstate => by
    have hid : id < machine.tasks.size := lt_size_of_state machine (by simp [hstate])
    have hbusy : (machine.task id).state.Busy := hstate ▸ .ready _
    obtain ⟨ys, hcomplete⟩ := h.complete id used
    have hrole : process.Role ys id (.complete used next) :=
      hcomplete.role_of_ready (by rw [state_complete hid hbusy, hstate])
    exact ⟨_, hcomplete.meets hrole (.complete used next) _ rfl (.ready (next ())) fun _ hP => hP⟩
  | .parallel policy input children next, machine, xs, h, hstate => by
    obtain ⟨own, hrest⟩ := (h.role_of_ready hstate).exists_solo hsolo
    cases hrest

theorem move {own : Event → Bool} (hsolo : process.Solo own) (h : machine.Attends process past xs)
    (m : Move) : ∃ xs, (machine.move m).Attends process past xs := by
  have hjoining : ∀ {id join}, (machine.task id).state = .joining join → False := by
    intro id join hstate
    have hleft := h.left id (lt_size_of_joining hstate)
    rw [hstate] at hleft
    obtain ⟨children, hrole⟩ := hleft
    obtain ⟨own, hrest⟩ := hrole.exists_solo hsolo
    cases hrest
  cases m with
  | step id =>
    show ∃ xs, (machine.step id).Attends process past xs
    unfold Machine.step
    split
    · rename_i q hstate
      exact h.stepProcess hsolo q hstate
    · rename_i join hstate
      exact absurd hstate hjoining
    · exact ⟨xs, h⟩
  | rouse id =>
    show ∃ xs, (machine.rouse id).Attends process past xs
    unfold Machine.rouse
    split
    · rename_i next hstate
      have hleft := h.left id (lt_size_of_state machine (by simp [hstate]))
      rw [hstate] at hleft
      have hset : (machine.setState id (.ready (next ()))).Attends process past xs :=
        h.setState hleft
      exact ⟨xs, hset.congr (resembles_wake _ id)⟩
    · exact ⟨xs, h⟩
  | prefer id k =>
    show ∃ xs, (machine.prefer id k).Attends process past xs
    unfold Machine.prefer
    split
    · rename_i join hstate
      exact absurd hstate hjoining
    · exact ⟨xs, h⟩

theorem invariant {own : Event → Bool} (hsolo : process.Solo own) :
    Invariant fun machine => ∃ xs, machine.Attends process past xs :=
  ⟨fun ⟨_, h⟩ m => h.move hsolo m, fun ⟨xs, h⟩ hsame _ => ⟨xs, h.congr hsame⟩⟩

/-- The process comes along, and if its task has ended it has come to its end. -/
theorem exists_comes (h : machine.Attends process past xs) :
    ∃ rest, process.Comes xs rest
      ∧ ∀ outcome, machine.outcome? 0 = some outcome → rest = .done outcome := by
  have hleft := h.left 0 h.pos
  have hrole : ∀ {rest}, process.Role xs 0 rest → process.Comes xs rest := fun hrole => hrole
  unfold outcome?
  cases hstate : (machine.task 0).state with
  | ready | asleep =>
    rw [hstate] at hleft
    exact ⟨_, hrole hleft, nofun⟩
  | awaiting next =>
    rw [hstate] at hleft
    obtain ⟨work, hleft⟩ := hleft
    exact ⟨_, hrole hleft, nofun⟩
  | joining join =>
    rw [hstate] at hleft
    obtain ⟨children, hleft⟩ := hleft
    exact ⟨_, hrole hleft, nofun⟩
  | ended outcome =>
    rw [hstate] at hleft
    exact ⟨_, hrole hleft, fun _ heq => congrArg _ (Option.some.inj heq)⟩
  | draining =>
    rw [hstate] at hleft
    exact absurd hleft id

end Attends

theorem begin_attends (process : Process) (world : World) :
    (begin process world).Attends process world.nodeEvents [] := by
  refine ⟨by simp [begin], fun id hid => ?_, rfl⟩
  obtain rfl : id = 0 := by simpa [begin] using hid
  exact .here process

/-- A process in any schedule. -/
theorem exists_attends_follow {own : Event → Bool} {process : Process} (h : process.Solo own)
    (world : World) (schedule : List Move) :
    ∃ xs, ((begin process world).follow schedule).Attends process world.nodeEvents xs :=
  (Attends.invariant h).follow ⟨[], begin_attends process world⟩ schedule

/-- A process in the order of the machine. -/
theorem exists_attends_call {own : Event → Bool} {process : Process} (h : process.Solo own)
    (world : World) :
    ∃ xs, (call { world } [process]).2.Attends process world.nodeEvents xs
      ∧ (call { world } [process]).1 = [(call { world } [process]).2.outcome? 0] := by
  have hstart : (begin process world).Resembles { begin process world with woken := true } :=
    .of_tasks rfl rfl
  obtain ⟨xs, hxs⟩ := (Attends.invariant h).advance [0] rounds
    ⟨[], (begin_attends process world).congr hstart⟩
  have hcall : call { world } [process] =
      ([(advance [0] rounds { begin process world with woken := true }).outcome? 0],
        advance [0] rounds { begin process world with woken := true }) := by
    simp [call, begin]
  rw [hcall]
  exact ⟨xs, hxs, rfl⟩

end Machine

end BehaviorTree
