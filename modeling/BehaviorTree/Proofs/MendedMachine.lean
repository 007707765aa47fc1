import BehaviorTree.Proofs.Handover
import BehaviorTree.Proofs.Mishaps

/-!
# Machines that differ in mishaps

Two machines are in step but for mishaps if each task of one has left to do what the same task of
the other has, but for mishaps, and the worlds are the same but for notices (`Machine.Mends`). The
tasks are then ready, asleep and joined alike, with one exception: work in the background that ended
while it had its completion handle has used the handle on the other machine, and its end may be to
come (`Task.Spent`). Machines stay in step in strides (`Machine.Mends.pursue`) and in their own
order (`Machine.Mends.call`).
-/

namespace BehaviorTree

/-- Who still listens to a task that has used its completion handle. -/
def Listener.used : Listener → Listener
  | handle _ => nobody
  | listener => listener

/-- A world without notices. -/
def World.muffled (world : World) : World :=
  { world with events := world.events.filter (!·.isNotice) }

theorem World.muffled_emit (world : World) (event : Event) :
    (world.emit event).muffled
      = if event.isNotice then world.muffled else world.muffled.emit event := by
  cases h : event.isNotice <;> simp [muffled, emit, h]

theorem World.muffled_emit_eq {world world' : World} (h : world'.muffled = world.muffled)
    (event : Event) : (world'.emit event).muffled = (world.emit event).muffled := by
  rw [muffled_emit, muffled_emit, h]

/-- A scope answers as it does in a world without notices. -/
theorem World.ask_of_muffled {world world' : World} (h : world'.muffled = world.muffled)
    (scope : Scope) (request : Request Unit) :
    (world'.ask scope request).1 = (world.ask scope request).1
      ∧ (world'.ask scope request).2.muffled = (world.ask scope request).2.muffled := by
  obtain ⟨store, events⟩ := world
  obtain ⟨store', events'⟩ := world'
  simp only [muffled, World.mk.injEq] at h
  obtain ⟨rfl, hevents⟩ := h
  exact ⟨rfl, by simp only [ask, muffled, hevents]⟩

/-- Processes that do the same but for mishaps still do so past silent events. -/
theorem Process.Mends.pastSilent {aside : Bool} {process process' : Process}
    (h : process.Mends aside process') :
    ∀ {world world' : World}, world'.muffled = world.muffled →
      (process.pastSilent world).1.Mends aside (process'.pastSilent world').1
        ∧ (process'.pastSilent world').2.muffled = (process.pastSilent world).2.muffled := by
  induction h with
  | done outcome => exact fun hworld => ⟨.done outcome, hworld⟩
  | ended outcome outcome' => exact fun hworld => ⟨.ended outcome outcome', hworld⟩
  | lets outcome outcome' => exact fun hworld => ⟨.lets outcome outcome', hworld⟩
  | ask scope request h _ => exact fun hworld => ⟨.ask scope request h, hworld⟩
  | notice event hnotice _ ih =>
    intro world world' hworld
    have hsilent : event.isSilent = true := by rw [Event.isSilent, hnotice, Bool.or_true]
    rw [Process.pastSilent, if_pos hsilent]
    exact ih (by rw [World.muffled_emit, if_pos hnotice, hworld])
  | emit event h ih =>
    intro world world' hworld
    rw [Process.pastSilent, Process.pastSilent]
    split
    · exact ih (World.muffled_emit_eq hworld event)
    · exact ⟨.emit event h, hworld⟩
  | sleep ms h _ => exact fun hworld => ⟨.sleep ms h, hworld⟩
  | start hwork h _ _ => exact fun hworld => ⟨.start hwork h, hworld⟩
  | await hwork h _ _ => exact fun hworld => ⟨.await hwork h, hworld⟩
  | complete hused h _ => exact fun hworld => ⟨.complete hused h, hworld⟩
  | parallel policy input hflags hchildren h _ _ =>
    exact fun hworld => ⟨.parallel policy input hflags hchildren h, hworld⟩

inductive TaskState.Mends (aside : Bool) : TaskState → TaskState → Prop
  | ready {process process' : Process} (h : process.Mends aside process') :
    Mends aside (ready process) (ready process')
  | asleep {next next' : Unit → Process} (h : (next ()).Mends aside (next' ())) :
    Mends aside (asleep next) (asleep next')
  | awaiting {next next' : Option Outcome → Process}
    (h : ∀ used used', Handle.Mends true used used' → (next used).Mends aside (next' used')) :
    Mends aside (awaiting next) (awaiting next')
  | joining {join : Join} {next' : Outcome → Process}
    (h : ∀ outcome, (join.next outcome).Mends aside (next' outcome)) :
    Mends aside (joining join) (joining { join with next := next' })
  | ended {outcome outcome' : Outcome} (h : aside = false → outcome' = outcome) :
    Mends aside (ended outcome) (ended outcome')
  | draining : Mends aside draining draining

/-- Nothing is left to do but to end. -/
def TaskState.IsOver (state : TaskState) : Prop :=
  ∃ outcome, state = .ended outcome ∨ state = .ready (.done outcome)

/-- Work in the background that has ended, and has only its end to come once mended. -/
structure Task.Spent (task task' : Task) : Prop where
  runsNode : task.runsNode = false
  state : ∃ outcome, task.state = .ended outcome
  listener : task'.listener = .nobody
  state' : task'.state.IsOver

structure Task.Mends (task task' : Task) : Prop where
  called : task'.called = task.called
  queued : task'.queued = task.queued
  alike : task'.listener = task.listener ∧ task.state.Mends (!task.runsNode) task'.state
    ∨ task.Spent task'

theorem Task.runsNode_redirect (drainer : TaskId) (task : Task) :
    (Machine.redirect drainer task).runsNode = task.runsNode := by
  unfold Machine.redirect
  split
  · rename_i hlistener
    simp [runsNode, hlistener, Listener.isBranch]
  · rfl

/-- Only who runs a child of a parallel node can be told to report to somebody else. -/
theorem Task.redirect_eq {task : Task} (h : task.listener.isBranch = false) (drainer : TaskId) :
    Machine.redirect drainer task = task := by
  unfold Machine.redirect
  split
  · rename_i hlistener
    rw [hlistener] at h
    cases h
  · rfl

theorem Task.Mends.redirect {task task' : Task} (h : task.Mends task') (drainer : TaskId) :
    (Machine.redirect drainer task).Mends (Machine.redirect drainer task') := by
  obtain ⟨hcalled, hqueued, ⟨hlistener, hstate⟩ | hspent⟩ := h
  · rw [← runsNode_redirect drainer] at hstate
    unfold Machine.redirect at hstate ⊢
    rw [hlistener]
    split at hstate
    · exact ⟨hcalled, hqueued, .inl ⟨rfl, hstate⟩⟩
    · exact ⟨hcalled, hqueued, .inl ⟨hlistener, hstate⟩⟩
  · have hbranch : task.listener.isBranch = false := (Bool.or_eq_false_iff.1 hspent.runsNode).2
    have hbranch' : task'.listener.isBranch = false := by rw [hspent.listener]; rfl
    rw [redirect_eq hbranch, redirect_eq hbranch']
    exact ⟨hcalled, hqueued, .inr hspent⟩

/-- Machines whose tasks do the same but for mishaps, in the same world but for notices. -/
structure Machine.Mends (machine machine' : Machine) : Prop where
  size : machine'.tasks.size = machine.tasks.size
  task : ∀ id, (machine.task id).Mends (machine'.task id)
  queue : machine'.queue = machine.queue
  woken : machine'.woken = machine.woken
  now : machine'.now = machine.now
  timers : machine'.timers = machine.timers
  world : machine'.world.muffled = machine.world.muffled

/-- Machines in step but for mishaps, where one and the same task has its turn. -/
structure Machine.Mends.At (id : TaskId) (aside : Bool) (machine machine' : Machine) : Prop
    extends machine.Mends machine' where
  lt : id < machine.tasks.size
  runsNode : (machine.task id).runsNode = !aside
  listener : (machine'.task id).listener = (machine.task id).listener
  state : (machine.task id).state.Mends aside (machine'.task id).state
  busy : (machine.task id).state.Busy
  busy' : (machine'.task id).state.Busy

namespace Machine

variable {machine machine' : Machine} {id : TaskId} {aside : Bool}

namespace Mends

theorem withWorld (h : machine.Mends machine') {world world' : World}
    (hworld : world'.muffled = world.muffled) :
    { machine with world }.Mends { machine' with world := world' } :=
  ⟨h.size, h.task, h.queue, h.woken, h.now, h.timers, hworld⟩

theorem changeTask (h : machine.Mends machine') {f f' : Task → Task}
    (hf : (f (machine.task id)).Mends (f' (machine'.task id))) :
    (machine.changeTask id f).Mends (machine'.changeTask id f') := by
  refine ⟨by simp only [size_changeTask, h.size], fun t => ?_, h.queue, h.woken, h.now, h.timers,
    h.world⟩
  rw [task_changeTask, task_changeTask, h.size]
  split
  · rename_i ht
    exact ht.1 ▸ hf
  · exact h.task t

theorem setState (h : machine.Mends machine')
    (hlistener : (machine'.task id).listener = (machine.task id).listener)
    {state state' : TaskState} (hstate : state.Mends (!(machine.task id).runsNode) state') :
    (machine.setState id state).Mends (machine'.setState id state') :=
  h.changeTask ⟨(h.task id).called, (h.task id).queued, .inl ⟨hlistener, hstate⟩⟩

/-- A task that gets or loses its place in the queue is the same otherwise. -/
theorem changeQueued (h : machine.Mends machine') (id : TaskId) (queued : Bool) :
    (machine.changeTask id fun task => { task with queued }).Mends
      (machine'.changeTask id fun task => { task with queued }) := by
  refine h.changeTask ⟨(h.task id).called, rfl, ?_⟩
  rcases (h.task id).alike with halike | hspent
  · exact .inl halike
  · exact .inr ⟨hspent.runsNode, hspent.state, hspent.listener, hspent.state'⟩

theorem wake (h : machine.Mends machine') (id : TaskId) :
    (machine.wake id).Mends (machine'.wake id) := by
  unfold Machine.wake
  simp only [(h.task id).called, (h.task id).queued]
  split
  · exact ⟨h.size, h.task, h.queue, rfl, h.now, h.timers, h.world⟩
  · split
    · exact h
    · have hqueued := h.changeQueued id true
      exact ⟨hqueued.size, hqueued.task, by rw [h.queue], h.woken, h.now, h.timers, h.world⟩

theorem spawn (h : machine.Mends machine') {state state' : TaskState} (listener : Listener)
    (hstate : state.Mends (!listener.isBranch) state') :
    (machine.spawn state listener).2.Mends (machine'.spawn state' listener).2 := by
  refine ⟨by simp [Machine.spawn, h.size], fun t => ?_, by simp [Machine.spawn, h.queue, h.size],
    h.woken, h.now, h.timers, h.world⟩
  rw [task_spawn_eq, task_spawn_eq, h.size]
  split
  · exact ⟨rfl, rfl, .inl ⟨rfl, hstate⟩⟩
  · exact h.task t

theorem spawnBranches (h : machine.Mends machine') (parent : TaskId)
    {children children' : List (Bool × Process)}
    (hchildren : List.Forall₂
      (fun child child' => child'.1 = child.1 ∧ child.2.Mends false child'.2) children children')
    (index : Nat) :
    (machine'.spawnBranches parent index children').1
        = (machine.spawnBranches parent index children).1
      ∧ (machine.spawnBranches parent index children).2.Mends
        (machine'.spawnBranches parent index children').2 := by
  induction hchildren generalizing machine machine' index with
  | nil => exact ⟨rfl, h⟩
  | cons hchild _ ih =>
    have hspawn := h.spawn (.branch parent index) (.ready hchild.2)
    obtain ⟨hids, hrest⟩ := ih hspawn (index + 1)
    refine ⟨?_, hrest⟩
    simp only [Machine.spawnBranches]
    rw [hids]
    exact congrArg (· :: _) h.size

/-- The states of a task that neither machine has come to the end of. -/
theorem cases_state (h : machine.Mends machine') (id : TaskId) :
    ((machine'.task id).listener = (machine.task id).listener
        ∧ (machine.task id).state.Mends (!(machine.task id).runsNode) (machine'.task id).state)
      ∨ (machine.task id).Spent (machine'.task id) :=
  (h.task id).alike

theorem deliver (h : machine.Mends machine') (waiter : TaskId) {used used' : Option Outcome}
    (hused : Handle.Mends true used used') :
    (machine.deliver waiter used).Mends (machine'.deliver waiter used') := by
  unfold Machine.deliver
  rcases h.cases_state waiter with ⟨hlistener, hstate⟩ | ⟨-, ⟨outcome, hended⟩, -, outcome', hover⟩
  · have hready : ∀ {process process' : Process},
        process.Mends (!(machine.task waiter).runsNode) process' →
        ((machine.setState waiter (.ready process)).wake waiter).Mends
          ((machine'.setState waiter (.ready process')).wake waiter) :=
      fun hprocess => (h.setState hlistener (.ready hprocess)).wake waiter
    generalize (machine.task waiter).state = state at hstate
    generalize (machine'.task waiter).state = state' at hstate
    cases hstate with
    | awaiting hnext => exact hready (hnext used used' hused)
    | _ => exact h
  · rw [hended]
    rcases hover with hover | hover <;> rw [hover] <;> exact h

theorem arrive (h : machine.Mends machine') (parent : TaskId) (index : Nat) (outcome : Outcome) :
    (machine.arrive parent index outcome).Mends (machine'.arrive parent index outcome) := by
  unfold Machine.arrive
  rcases h.cases_state parent with ⟨hlistener, hstate⟩ | ⟨-, ⟨outcome, hended⟩, -, outcome', hover⟩
  · have hset : ∀ {state state' : TaskState},
        state.Mends (!(machine.task parent).runsNode) state' →
        ((machine.setState parent state).wake parent).Mends
          ((machine'.setState parent state').wake parent) :=
      fun hstate => (h.setState hlistener hstate).wake parent
    generalize (machine.task parent).state = state at hstate
    generalize (machine'.task parent).state = state' at hstate
    cases hstate with
    | @joining join next' hnext =>
      have hjoining : (TaskState.joining
          { join with arrived := join.arrived ++ [(index, outcome)] }).Mends
            (!(machine.task parent).runsNode)
            (.joining { join with arrived := join.arrived ++ [(index, outcome)], next := next' }) :=
        .joining hnext
      exact hset hjoining
    | _ => exact h.wake parent
  · rw [hended]
    rcases hover with hover | hover <;> rw [hover] <;> exact h.wake parent

theorem rouse (h : machine.Mends machine') (id : TaskId) :
    (machine.rouse id).Mends (machine'.rouse id) := by
  unfold Machine.rouse
  rcases h.cases_state id with ⟨hlistener, hstate⟩ | ⟨-, ⟨outcome, hended⟩, -, outcome', hover⟩
  · have hready : ∀ {process process' : Process},
        process.Mends (!(machine.task id).runsNode) process' →
        ((machine.setState id (.ready process)).wake id).Mends
          ((machine'.setState id (.ready process')).wake id) :=
      fun hprocess => (h.setState hlistener (.ready hprocess)).wake id
    generalize (machine.task id).state = state at hstate
    generalize (machine'.task id).state = state' at hstate
    cases hstate with
    | asleep hnext => exact hready hnext
    | _ => exact h
  · rw [hended]
    rcases hover with hover | hover <;> rw [hover] <;> exact h

theorem prefer (h : machine.Mends machine') (id : TaskId) (k : Nat) :
    (machine.prefer id k).Mends (machine'.prefer id k) := by
  unfold Machine.prefer
  rcases h.cases_state id with ⟨hlistener, hstate⟩ | ⟨-, ⟨outcome, hended⟩, -, outcome', hover⟩
  · have hset : ∀ {state state' : TaskState}, state.Mends (!(machine.task id).runsNode) state' →
        (machine.setState id state).Mends (machine'.setState id state') :=
      fun hstate => h.setState hlistener hstate
    generalize (machine.task id).state = state at hstate
    generalize (machine'.task id).state = state' at hstate
    cases hstate with
    | @joining join next' hnext =>
      have hjoining : (TaskState.joining
          { join with arrived := join.arrived[k]?.toList ++ join.arrived.eraseIdx k }).Mends
            (!(machine.task id).runsNode)
            (.joining { join with arrived := join.arrived[k]?.toList ++ join.arrived.eraseIdx k
                                  next := next' }) := .joining hnext
      exact hset hjoining
    | _ => exact h
  · rw [hended]
    rcases hover with hover | hover <;> rw [hover] <;> exact h

end Mends

theorem listener_deliver (machine : Machine) (waiter t : TaskId) (used : Option Outcome) :
    ((machine.deliver waiter used).task t).listener = (machine.task t).listener := by
  unfold deliver
  split
  · rw [listener_wake, listener_setState]
  · rfl

/-- Whoever uses the handle has nobody left who listens for it. -/
theorem listener_complete (hid : id < machine.tasks.size) (used : Option Outcome) :
    ((machine.complete id used).task id).listener = (machine.task id).listener.used := by
  unfold complete
  cases hlistener : (machine.task id).listener with
  | handle waiter =>
    rw [listener_deliver, task_changeTask, if_pos ⟨rfl, hid⟩]
    rfl
  | _ => exact hlistener

theorem changeTask_changeTask (machine : Machine) (id : TaskId) (f g : Task → Task) :
    (machine.changeTask id f).changeTask id g = machine.changeTask id fun task => g (f task) := by
  refine ext_task (by simp only [size_changeTask]) (fun i _ => ?_) rfl
  simp only [task_changeTask, size_changeTask]
  split <;> rfl

namespace Mends.At

theorem lt' (h : At id aside machine machine') : id < machine'.tasks.size :=
  h.size ▸ h.lt

/-- The task keeps its turn while it keeps its state. -/
theorem of_retains (h : At id aside machine machine') {after after' : Machine}
    (hmends : after.Mends after') (hretains : machine.Retains after)
    (hlistener : (after'.task id).listener = (after.task id).listener)
    (hstate : (after.task id).state = (machine.task id).state)
    (hstate' : (after'.task id).state = (machine'.task id).state) :
    At id aside after after' where
  toMends := hmends
  lt := Nat.lt_of_lt_of_le h.lt hretains.size
  runsNode := (hretains.runsNode h.lt).trans h.runsNode
  listener := hlistener
  state := by
    rw [hstate, hstate']
    exact h.state
  busy := hstate ▸ h.busy
  busy' := hstate' ▸ h.busy'

/-- Nobody waits for the end of work in the background that has used its handle. -/
theorem used_eq_nobody (h : At id true machine machine') :
    (machine.task id).listener.used = .nobody := by
  have hruns := h.runsNode
  rw [Task.runsNode] at hruns
  cases hlistener : (machine.task id).listener with
  | branch parent index =>
    simp [hlistener, Listener.isBranch] at hruns
  | _ => rfl

theorem withWorld (h : At id aside machine machine') {world world' : World}
    (hworld : world'.muffled = world.muffled) :
    At id aside { machine with world } { machine' with world := world' } :=
  h.of_retains (h.toMends.withWorld hworld) (.of_tasks rfl) h.listener rfl rfl

theorem setState (h : At id aside machine machine') {state state' : TaskState}
    (hstate : state.Mends aside state') :
    (machine.setState id state).Mends (machine'.setState id state') := by
  refine h.toMends.setState h.listener ?_
  rwa [h.runsNode, Bool.not_not]

theorem spawn (h : At id aside machine machine') {state state' : TaskState} (listener : Listener)
    (hstate : state.Mends (!listener.isBranch) state') :
    At id aside (machine.spawn state listener).2 (machine'.spawn state' listener).2 := by
  have htask := machine.task_spawn h.lt state listener
  have htask' := machine'.task_spawn h.lt' state' listener
  refine h.of_retains (h.toMends.spawn listener hstate) (machine.retains_spawn state listener) ?_
    (by rw [htask]) (by rw [htask'])
  rw [htask, htask', h.listener]

/-- The task is rid of its handle. -/
theorem letGo (h : At id aside machine machine') {waiter : TaskId}
    (hlistener : (machine.task id).listener = .handle waiter) :
    (machine.changeTask id fun task => { task with listener := .nobody }).Mends
      (machine'.changeTask id fun task => { task with listener := .nobody }) := by
  refine h.toMends.changeTask ⟨(h.task id).called, (h.task id).queued, .inl ⟨rfl, ?_⟩⟩
  have hruns := h.runsNode
  rw [Task.runsNode, hlistener] at hruns
  show (machine.task id).state.Mends (!((machine.task id).called || false)) _
  rw [show ((machine.task id).called || false) = !aside from hruns, Bool.not_not]
  exact h.state

theorem complete (h : At id aside machine machine') {used used' : Option Outcome}
    (hused : Handle.Mends aside used used') :
    At id aside (machine.complete id used) (machine'.complete id used') := by
  have hdeliver : Handle.Mends true used used' := by
    obtain hsame | ⟨-, hlets⟩ := hused
    · exact .inl hsame
    · exact .inr ⟨rfl, hlets⟩
  refine h.of_retains ?_ (machine.retains_complete id used)
    (by rw [listener_complete h.lt, listener_complete h.lt', h.listener])
    (state_complete h.lt h.busy used) (state_complete h.lt' h.busy' used')
  unfold Machine.complete
  rw [h.listener]
  split
  · rename_i hlistener
    exact (h.letGo hlistener).deliver _ hdeliver
  · exact h.toMends

theorem finish (h : At id aside machine machine') {outcome outcome' : Outcome}
    (houtcome : aside = false → outcome' = outcome) :
    (machine.finish id outcome).Mends (machine'.finish id outcome') := by
  have hended := h.setState (.ended houtcome)
  unfold Machine.finish
  simp only [listener_setState, h.listener]
  split
  · exact hended
  · rename_i parent index hlistener
    have haside : aside = false := by
      have hruns := h.runsNode
      simpa [Task.runsNode, hlistener, Listener.isBranch] using hruns
    rw [houtcome haside] at hended ⊢
    exact hended.arrive parent index outcome
  · exact hended.deliver _ (.inl rfl)

/-- A task that ends while it may have its handle, and one that uses the handle with what becomes of
letting it go, and has its end to come. -/
theorem lets (h : At id true machine machine') (outcome : Outcome) {state' : TaskState}
    (hover : state'.IsOver) :
    (machine.finish id outcome).Mends
      ((machine'.complete id (some .dropped)).setState id state') := by
  have hbusy : state'.Busy := by
    obtain ⟨_, rfl | rfl⟩ := hover
    · nofun
    · nofun
  have hspent : ∀ task' : Task, task'.called = (machine.task id).called →
      task'.queued = (machine.task id).queued → task'.listener = .nobody →
      task'.state = state' → Task.Mends { machine.task id with state := .ended outcome } task' :=
    fun task' hcalled hqueued hlistener hstate =>
      ⟨hcalled, hqueued, .inr ⟨h.runsNode, ⟨outcome, rfl⟩, hlistener, hstate ▸ hover⟩⟩
  rw [← complete_setState h.busy' hbusy]
  unfold Machine.finish Machine.complete
  simp only [listener_setState, h.listener]
  cases hlistener : (machine.task id).listener with
  | nobody =>
    exact h.toMends.changeTask (hspent _ (h.task id).called (h.task id).queued
      (h.listener.trans hlistener) rfl)
  | branch parent index =>
    have hruns := h.runsNode
    simp [Task.runsNode, hlistener, Listener.isBranch] at hruns
  | handle waiter =>
    have hended : (machine.setState id (.ended outcome)).Mends
        (machine'.changeTask id fun task => { task with state := state', listener := .nobody }) :=
      h.toMends.changeTask (hspent _ (h.task id).called (h.task id).queued rfl rfl)
    have hsame : (machine'.setState id state').changeTask id
        (fun task => { task with listener := .nobody })
          = machine'.changeTask id fun task => { task with state := state', listener := .nobody } :=
      machine'.changeTask_changeTask id _ _
    rw [← hsame] at hended
    exact hended.deliver waiter (.inr ⟨rfl, rfl, rfl⟩)

theorem sleep (h : At id aside machine machine') (ms : Nat) {next next' : Unit → Process}
    (hnext : (next ()).Mends aside (next' ())) :
    { machine.setState id (.asleep next) with
        timers := addTimer (machine.now + ms) id machine.timers }.Mends
      { machine'.setState id (.asleep next') with
        timers := addTimer (machine'.now + ms) id machine'.timers } := by
  have hasleep := h.setState (.asleep hnext)
  exact ⟨hasleep.size, hasleep.task, hasleep.queue, hasleep.woken, hasleep.now,
    by rw [h.now, h.timers], hasleep.world⟩

theorem spawnBranches (h : At id aside machine machine')
    {children children' : List (Bool × Process)}
    (hchildren : List.Forall₂
      (fun child child' => child'.1 = child.1 ∧ child.2.Mends false child'.2) children children') :
    (machine'.spawnBranches id 0 children').1 = (machine.spawnBranches id 0 children).1
      ∧ At id aside (machine.spawnBranches id 0 children).2
        (machine'.spawnBranches id 0 children').2 := by
  obtain ⟨hids, hspawned⟩ := h.toMends.spawnBranches id hchildren 0
  have htask := task_spawnBranches id children 0 h.lt
  have htask' := task_spawnBranches id children' 0 h.lt'
  refine ⟨hids, h.of_retains hspawned (retains_spawnBranches id children 0 machine) ?_
    (by rw [htask]) (by rw [htask'])⟩
  rw [htask, htask', h.listener]

/-- A task that joins the parallel children it has started. -/
theorem parallel (h : At id aside machine machine') (policy : Policy) (input : Value)
    {children children' : List (Bool × Process)} {next next' : Outcome → Process}
    (hflags : children'.map (·.1) = children.map (·.1))
    (hchildren : ∀ (i : Nat) (child child' : Bool × Process), children[i]? = some child →
      children'[i]? = some child' → child.2.Mends false child'.2)
    (hnext : ∀ outcome, (next outcome).Mends aside (next' outcome)) :
    (carryOut id (.parallel policy input children next) machine).Mends
      (carryOut id (.parallel policy input children' next') machine') := by
  obtain ⟨hids, hspawned⟩ := h.spawnBranches (Process.forall₂_of_children hflags hchildren)
  simp only [carryOut, hflags]
  rcases hspawn : machine.spawnBranches id 0 children with ⟨branches, spawned⟩
  rcases hspawn' : machine'.spawnBranches id 0 children' with ⟨branches', spawned'⟩
  rw [hspawn, hspawn'] at hids hspawned
  simp only [] at hids hspawned ⊢
  subst hids
  have hjoining : (TaskState.joining
      { policy, input, flags := children.map (·.1), branches := branches'
        tally := { waitingOn := (children.map (·.1)).countP (·) }, next }).Mends aside
        (.joining { policy, input, flags := children.map (·.1), branches := branches'
                    tally := { waitingOn := (children.map (·.1)).countP (·) }, next := next' }) :=
    .joining hnext
  exact (hspawned.setState hjoining).wake id

/-- A process carried out for a task. -/
theorem carryOut {process process' : Process} (hprocess : process.Mends aside process') :
    ∀ {machine machine' : Machine}, At id aside machine machine' →
      (carryOut id process machine).Mends (carryOut id process' machine') := by
  induction hprocess with
  | done outcome => exact fun h => h.finish fun _ => rfl
  | ended outcome outcome' => exact fun h => h.finish nofun
  | lets outcome outcome' =>
    intro machine machine' h
    have hnobody : ((machine'.complete id (some .dropped)).task id).listener = .nobody := by
      rw [listener_complete h.lt', h.listener]
      exact h.used_eq_nobody
    simp only [Machine.carryOut]
    rw [finish_of_nobody hnobody]
    exact h.lets outcome ⟨outcome', .inl rfl⟩
  | ask scope request _ ih =>
    intro machine machine' h
    obtain ⟨hanswer, hworld⟩ := World.ask_of_muffled h.world scope request
    simp only [Machine.carryOut]
    rw [hanswer]
    exact ih _ (h.withWorld hworld)
  | notice event hnotice _ ih =>
    exact fun h => ih (h.withWorld (by rw [World.muffled_emit, if_pos hnotice, h.world]))
  | emit event _ ih => exact fun h => ih (h.withWorld (World.muffled_emit_eq h.world event))
  | sleep ms hnext _ => exact fun h => h.sleep ms hnext
  | start hwork _ _ ih => exact fun h => ih (h.spawn .nobody (.ready hwork))
  | await hwork hnext _ _ =>
    exact fun h => (h.spawn (.handle id) (.ready hwork)).setState (.awaiting hnext)
  | complete hused _ ih => exact fun h => ih (h.complete hused)
  | parallel policy input hflags hchildren hnext _ _ =>
    exact fun h => h.parallel policy input hflags hchildren hnext

/-- The next thing that a process does, for a task. -/
theorem stepProcess (h : At id aside machine machine') {process process' : Process}
    (hprocess : process.Mends aside process') (hheard : process.Heard) :
    (stepProcess id process machine).Mends (stepProcess id process' machine') := by
  cases hprocess with
  | done outcome => exact h.finish fun _ => rfl
  | ended outcome outcome' => exact h.finish nofun
  | lets outcome outcome' => exact h.lets outcome ⟨outcome', .inr rfl⟩
  | ask scope request hnext =>
    obtain ⟨hanswer, hworld⟩ := World.ask_of_muffled h.world scope request
    simp only [Machine.stepProcess]
    rw [hanswer]
    exact (h.withWorld hworld).setState (.ready (hnext _))
  | notice event hnotice _ =>
    rw [Process.Heard, Event.isSilent, hnotice, Bool.or_true] at hheard
    cases hheard
  | emit event hnext =>
    have htrace : event.isTrace = false := (Bool.or_eq_false_iff.1 hheard).1
    simp only [Machine.stepProcess, htrace]
    exact (h.withWorld (World.muffled_emit_eq h.world event)).setState (.ready hnext)
  | sleep ms hnext => exact h.sleep ms hnext
  | start hwork hnext => exact (h.spawn .nobody (.ready hwork)).setState (.ready hnext)
  | await hwork hnext => exact (h.spawn (.handle id) (.ready hwork)).setState (.awaiting hnext)
  | complete hused hnext => exact (h.complete hused).setState (.ready hnext)
  | parallel policy input hflags hchildren hnext =>
    exact h.parallel policy input hflags hchildren hnext

end Mends.At

namespace Mends

/-- A task that has something left to do has its turn. -/
theorem at_of_busy (h : machine.Mends machine') (id : TaskId) (hlt : id < machine.tasks.size)
    (hlistener : (machine'.task id).listener = (machine.task id).listener)
    (hstate : (machine.task id).state.Mends (!(machine.task id).runsNode) (machine'.task id).state)
    (hbusy : (machine.task id).state.Busy) :
    At id (!(machine.task id).runsNode) machine machine' := by
  refine ⟨h, hlt, (Bool.not_not _).symm, hlistener, hstate, hbusy, ?_⟩
  generalize (machine.task id).state = state at hstate hbusy
  generalize (machine'.task id).state = state' at hstate
  cases hstate with
  | awaiting hnext => exact absurd rfl (hbusy _)
  | _ => nofun

theorem drain (h : machine.Mends machine') (join : Join) (next' : Outcome → Process) :
    (machine.drain join).Mends (machine'.drain { join with next := next' }) := by
  have hredirect : ∀ (drainer : TaskId) {ids : List TaskId} {machine machine' : Machine},
      machine.Mends machine' →
      (ids.foldl (fun machine id => machine.changeTask id (redirect drainer)) machine).Mends
        (ids.foldl (fun machine id => machine.changeTask id (redirect drainer)) machine') := by
    intro drainer ids
    induction ids with
    | nil => exact fun h => h
    | cons id rest ih =>
      exact fun h => ih (h.changeTask ((h.task id).redirect drainer))
  unfold Machine.drain
  simp only []
  split
  · exact h
  · have hspawn := h.spawn .nobody .draining
    have hsize : (machine'.spawn .draining .nobody).1 = (machine.spawn .draining .nobody).1 :=
      h.size
    rw [hsize]
    exact hredirect _ hspawn

theorem At.drain (h : At id aside machine machine') (join : Join) (next' : Outcome → Process) :
    At id aside (machine.drain join) (machine'.drain { join with next := next' }) := by
  refine h.of_retains (h.toMends.drain join next') (machine.retains_drain join) ?_
    ((machine.drain_keeps join).state id h.lt) ((machine'.drain_keeps _).state id h.lt')
  rw [drain_task machine join h.lt, drain_task machine' _ h.lt', h.size]
  split
  · unfold redirect
    rw [h.listener]
    split
    · rfl
    · exact h.listener
  · exact h.listener

/-- Parallel nodes take in the same outcomes, and wait on or go on alike. -/
theorem At.take (h : At id aside machine machine') {join : Join} {next' : Outcome → Process}
    (hnext : ∀ outcome, (join.next outcome).Mends aside (next' outcome)) :
    match join.take join.arrived with
    | (later, none) => (machine.setState id (.joining later)).Mends
        (machine'.setState id (.joining { later with next := next' }))
    | (later, some outcome) =>
      At id aside (machine.drain later) (machine'.drain { later with next := next' })
        ∧ (later.next outcome).Mends aside (next' outcome) := by
  have htaken : ∀ outcome, ((join.take join.arrived).1.next outcome).Mends aside (next' outcome) :=
    fun outcome => by
      rw [join.next_take]
      exact hnext outcome
  rcases htake : join.take join.arrived with ⟨later, _ | outcome⟩ <;> rw [htake] at htaken
  · exact h.setState (.joining htaken)
  · exact ⟨h.drain later next', htaken outcome⟩

/-- Work in the background that is over comes to its end, which nobody hears of. -/
theorem setState_of_spent (h : machine.Mends machine')
    (hspent : (machine.task id).Spent (machine'.task id)) (outcome : Outcome) :
    machine.Mends (machine'.setState id (.ended outcome)) := by
  have hself : machine.setState id (machine.task id).state = machine := machine.setState_self
  rw [← hself]
  exact h.changeTask ⟨(h.task id).called, (h.task id).queued,
    .inr ⟨hspent.runsNode, hspent.state, hspent.listener, outcome, .inl rfl⟩⟩

/-- Machines stay in step in a stride. -/
theorem stride (h : machine.Mends machine') (id : TaskId) :
    (machine.stride id).Mends (machine'.stride id) := by
  rcases h.cases_state id with ⟨hlistener, hstate⟩ | hspent
  · have hat := h.at_of_busy id
    generalize hs : (machine.task id).state = state at hat hstate
    generalize hs' : (machine'.task id).state = state' at hat hstate
    cases hstate with
    | ready hprocess =>
      obtain ⟨hpast, hworld⟩ := hprocess.pastSilent h.world
      have hlt : id < machine.tasks.size := lt_size_of_state machine (by simp [hs])
      simp only [Machine.stride, hs, hs']
      exact ((hat hlt hlistener (.ready hprocess) (.ready _)).withWorld hworld).stepProcess hpast
        (Process.pastSilent_heard _ _)
    | @joining join next' hnext =>
      have hlt : id < machine.tasks.size := lt_size_of_state machine (by simp [hs])
      have htake := (hat hlt hlistener (.joining hnext) (.joining _)).take hnext
      simp only [Machine.stride, Machine.step, hs, hs', join.take_next next']
      generalize join.take join.arrived = taken at htake ⊢
      obtain ⟨later, _ | outcome⟩ := taken
      · exact htake
      · exact htake.1.setState (.ready htake.2)
    | _ =>
      simp only [Machine.stride, Machine.step, hs, hs']
      exact h
  · obtain ⟨outcome, hended⟩ := hspent.state
    obtain ⟨outcome', hover | hover⟩ := hspent.state'
    · simp only [Machine.stride, Machine.step, hended, hover]
      exact h
    · simp only [Machine.stride, Machine.step, hended, hover]
      show machine.Mends (machine'.finish id outcome')
      rw [finish_of_nobody hspent.listener]
      exact h.setState_of_spent hspent outcome'

theorem turn (h : machine.Mends machine') (id : TaskId) :
    (machine.turn id).Mends (machine'.turn id) := by
  have hturn := h.changeQueued id false
  unfold Machine.turn
  simp only []
  generalize (machine.changeTask id fun task => { task with queued := false }) = turned at hturn ⊢
  generalize (machine'.changeTask id fun task => { task with queued := false }) = turned' at hturn ⊢
  rcases hturn.cases_state id with ⟨hlistener, hstate⟩ | hspent
  · have hat := hturn.at_of_busy id
    generalize hs : (turned.task id).state = state at hat hstate
    generalize hs' : (turned'.task id).state = state' at hat hstate
    cases hstate with
    | ready hprocess =>
      have hlt : id < turned.tasks.size := lt_size_of_state turned (by simp [hs])
      exact (hat hlt hlistener (.ready hprocess) (.ready _)).carryOut hprocess
    | @joining join next' hnext =>
      have hlt : id < turned.tasks.size := lt_size_of_state turned (by simp [hs])
      have htake := (hat hlt hlistener (.joining hnext) (.joining _)).take hnext
      simp only [join.take_next next']
      generalize join.take join.arrived = taken at htake ⊢
      obtain ⟨later, _ | outcome⟩ := taken
      · exact htake
      · exact htake.1.carryOut htake.2
    | _ => exact hturn
  · obtain ⟨outcome, hended⟩ := hspent.state
    obtain ⟨outcome', hover | hover⟩ := hspent.state'
    · simp only [hended, hover]
      exact hturn
    · simp only [hended, hover]
      show turned.Mends (turned'.finish id outcome')
      rw [finish_of_nobody hspent.listener]
      exact hturn.setState_of_spent hspent outcome'

theorem proceed (h : machine.Mends machine') (m : Move) :
    (machine.proceed m).Mends (machine'.proceed m) := by
  cases m with
  | step id => exact h.stride id
  | rouse id => exact h.rouse id
  | prefer id k => exact h.prefer id k

theorem foldl {α : Type} {f : Machine → α → Machine}
    (hf : ∀ {machine machine' : Machine}, machine.Mends machine' →
      ∀ a, (f machine a).Mends (f machine' a)) :
    ∀ (list : List α) {machine machine' : Machine}, machine.Mends machine' →
      (list.foldl f machine).Mends (list.foldl f machine')
  | [], _, _, h => h
  | a :: rest, _, _, h => foldl hf rest (hf h a)

/-- Machines stay in step but for mishaps, whatever is pursued. -/
theorem pursue (h : machine.Mends machine') (schedule : List Move) :
    (machine.pursue schedule).Mends (machine'.pursue schedule) :=
  foldl proceed schedule h

theorem jump (h : machine.Mends machine') : machine.jump.Mends machine'.jump := by
  rw [jump_eq, jump_eq, h.timers]
  split
  · exact h
  · refine foldl (fun h timer => h.rouse timer.2) _ ?_
    exact ⟨h.size, h.task, h.queue, h.woken, rfl, rfl, h.world⟩

theorem giveTurns : ∀ (n : Nat) {machine machine' : Machine}, machine.Mends machine' →
    (giveTurns n machine).Mends (giveTurns n machine')
  | 0, _, _, h => h
  | n + 1, machine, machine', h => by
    rw [Machine.giveTurns, Machine.giveTurns, h.queue, h.woken]
    split
    · split
      · exact h
      · exact h.jump
    · rename_i id queue _
      have hqueue : { machine with queue }.Mends { machine' with queue, woken := machine.woken } :=
        ⟨h.size, h.task, rfl, rfl, h.now, h.timers, h.world⟩
      exact giveTurns n (hqueue.turn id)

theorem look (h : machine.Mends machine') (ids : List TaskId) :
    (machine.look ids).Mends (machine'.look ids) := by
  have hseen : { machine with woken := false }.Mends { machine' with woken := false } :=
    ⟨h.size, h.task, h.queue, rfl, h.now, h.timers, h.world⟩
  exact foldl turn ids hseen

/-- A task that runs a node comes to the same outcome. -/
theorem outcome?_eq (h : machine.Mends machine') (hruns : (machine.task id).runsNode) :
    machine'.outcome? id = machine.outcome? id := by
  rcases h.cases_state id with ⟨-, hstate⟩ | hspent
  · rw [hruns, Bool.not_true] at hstate
    unfold outcome?
    generalize (machine.task id).state = state at hstate
    generalize (machine'.task id).state = state' at hstate
    cases hstate with
    | ended houtcome => rw [houtcome rfl]
    | _ => rfl
  · exact absurd (hruns.symm.trans hspent.runsNode) nofun

/-- Machines stay in step but for mishaps in their own order too. -/
theorem advance (ids : List TaskId) : ∀ (fuel : Nat) {machine machine' : Machine},
    machine.Mends machine' → (∀ id ∈ ids, id < machine.tasks.size ∧ (machine.task id).runsNode) →
    (advance ids fuel machine).Mends (advance ids fuel machine')
  | 0, _, _, h, _ => h
  | fuel + 1, machine, machine', h, hids => by
    have hlook : (if machine.woken then machine.look ids else machine).Mends
        (if machine'.woken then machine'.look ids else machine') := by
      rw [h.woken]
      split
      · exact h.look ids
      · exact h
    have hretains : machine.Retains (if machine.woken then machine.look ids else machine) := by
      split
      · exact machine.retains_look ids
      · exact .refl machine
    rw [Machine.advance, Machine.advance]
    generalize (if machine.woken then machine.look ids else machine) = looked at hlook hretains ⊢
    generalize (if machine'.woken then machine'.look ids else machine') = looked' at hlook ⊢
    have hkept : ∀ {after : Machine}, machine.Retains after →
        ∀ id ∈ ids, id < after.tasks.size ∧ (after.task id).runsNode :=
      fun hafter id hid => ⟨Nat.lt_of_lt_of_le (hids id hid).1 hafter.size,
        (hafter.runsNode (hids id hid).1).trans (hids id hid).2⟩
    have hended : (ids.all fun id => (looked'.outcome? id).isSome)
        = ids.all fun id => (looked.outcome? id).isSome := by
      rw [Bool.eq_iff_iff, List.all_eq_true, List.all_eq_true]
      exact forall₂_congr fun id hid => by rw [hlook.outcome?_eq (hkept hretains id hid).2]
    have hstuck : looked'.isStuck = looked.isStuck := by
      unfold isStuck
      rw [hlook.woken, hlook.queue, hlook.timers]
    simp only [hended, hstuck]
    split
    · exact hlook
    · split
      · exact hlook
      · exact advance ids fuel (giveTurns slice hlook)
          (hkept (hretains.trans (retains_giveTurns slice looked)))

theorem begin {process process' : Process} (h : process.Mends false process') (world : World) :
    (begin process world).Mends (begin process' world) := by
  refine ⟨rfl, fun id => ?_, rfl, rfl, rfl, rfl, rfl⟩
  cases id with
  | zero => exact ⟨rfl, rfl, .inl ⟨rfl, .ready h⟩⟩
  | succ id => exact ⟨rfl, rfl, .inl ⟨rfl, .draining⟩⟩

theorem empty (world : World) : ({ world } : Machine).Mends { world } :=
  ⟨rfl, fun _ => ⟨rfl, rfl, .inl ⟨rfl, .draining⟩⟩, rfl, rfl, rfl, rfl, rfl⟩

theorem enlist (h : machine.Mends machine') {processes processes' : List Process}
    (hprocesses : List.Forall₂ (Process.Mends false) processes processes') :
    (machine.enlist processes).Mends (machine'.enlist processes') := by
  refine ⟨by simp [Machine.enlist, h.size, hprocesses.length_eq], fun t => ?_, h.queue, rfl, h.now,
    h.timers, h.world⟩
  rw [task_enlist, task_enlist, h.size]
  split
  · exact h.task t
  · generalize t - machine.tasks.size = i
    induction hprocesses generalizing i with
    | nil => exact ⟨rfl, rfl, .inl ⟨rfl, .draining⟩⟩
    | cons hprocess _ ih =>
      cases i with
      | zero => exact ⟨rfl, rfl, .inl ⟨rfl, .ready hprocess⟩⟩
      | succ i => exact ih i

/-- Processes that do the same but for mishaps come to the same outcomes when they are called, at
the same time. -/
theorem call (h : machine.Mends machine') {processes processes' : List Process}
    (hprocesses : List.Forall₂ (Process.Mends false) processes processes') :
    (machine'.call processes').1 = (machine.call processes).1
      ∧ (machine.call processes).2.Mends (machine'.call processes').2 := by
  let ids := List.range' machine.tasks.size processes.length
  have hids : List.range' machine'.tasks.size processes'.length = ids := by
    rw [h.size, ← hprocesses.length_eq]
  have hcalled : ∀ id ∈ ids, id < (machine.enlist processes).tasks.size
      ∧ ((machine.enlist processes).task id).runsNode := fun id hid => by
    obtain ⟨k, hk, rfl⟩ := List.mem_range'.1 hid
    refine ⟨by simp [Machine.enlist]; omega, ?_⟩
    have hlt : ¬machine.tasks.size + 1 * k < machine.tasks.size := by omega
    have hget : processes[machine.tasks.size + 1 * k - machine.tasks.size]?
        = some processes[k] := by
      rw [Nat.one_mul, Nat.add_sub_cancel_left, List.getElem?_eq_getElem hk]
    rw [task_enlist, if_neg hlt, hget]
    rfl
  have hdone := (h.enlist hprocesses).advance ids rounds hcalled
  unfold Machine.call
  simp only [hids]
  refine ⟨List.map_congr_left fun id hid => hdone.outcome?_eq ?_, hdone⟩
  exact ((retains_advance ids rounds _).runsNode (hcalled id hid).1).trans (hcalled id hid).2

end Mends

end Machine

end BehaviorTree
