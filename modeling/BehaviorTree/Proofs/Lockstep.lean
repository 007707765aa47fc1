import BehaviorTree.Proofs.Steps
import Mathlib.Data.List.Forall2

/-!
# Processes in lockstep

Two processes are in lockstep if each does what the other does, as far as worlds that are alike can
tell: their requests get the same answer and leave worlds that are alike, and so do their events
(`Process.InStep`). On machines that are in lockstep the same tasks are then in the same states
after every schedule (`Machine.InStep.follow`).
-/

namespace BehaviorTree

/-- Processes that do the same in worlds that are alike. -/
inductive Process.InStep (W : World → World → Prop) : Process → Process → Prop
  | done (outcome : Outcome) : InStep W (done outcome) (done outcome)
  | ask {scope scope' : Scope} {request request' : Request Unit}
    {next next' : Option Value → Process}
    (hask : ∀ {world world'}, W world world' →
      (world.ask scope request).1 = (world'.ask scope' request').1
        ∧ W (world.ask scope request).2 (world'.ask scope' request').2)
    (h : ∀ answer, InStep W (next answer) (next' answer)) :
    InStep W (ask scope request next) (ask scope' request' next')
  | emit {event event' : Event} {next next' : Unit → Process}
    (htrace : event.isTrace = event'.isTrace)
    (hemit : ∀ {world world'}, W world world' → W (world.emit event) (world'.emit event'))
    (h : InStep W (next ()) (next' ())) : InStep W (emit event next) (emit event' next')
  | sleep (ms : Nat) {next next' : Unit → Process} (h : InStep W (next ()) (next' ())) :
    InStep W (sleep ms next) (sleep ms next')
  | start {work work' : Process} {next next' : Unit → Process} (hwork : InStep W work work')
    (h : InStep W (next ()) (next' ())) : InStep W (start work next) (start work' next')
  | await {work work' : Process} {next next' : Option Outcome → Process}
    (hwork : InStep W work work') (h : ∀ used, InStep W (next used) (next' used)) :
    InStep W (await work next) (await work' next')
  | complete (used : Option Outcome) {next next' : Unit → Process}
    (h : InStep W (next ()) (next' ())) : InStep W (complete used next) (complete used next')
  | parallel (policy : Policy) (input : Value) {children children' : List (Bool × Process)}
    {next next' : Outcome → Process}
    (hflags : children'.map (·.1) = children.map (·.1))
    (hchildren : ∀ (i : Nat) (child child' : Bool × Process), children[i]? = some child →
      children'[i]? = some child' → InStep W child.2 child'.2)
    (h : ∀ outcome, InStep W (next outcome) (next' outcome)) :
    InStep W (parallel policy input children next) (parallel policy input children' next')

namespace Process

variable {W : World → World → Prop}

/-- Children with the same flags are in order what they are one by one. -/
theorem forall₂_of_children {R : Process → Process → Prop}
    {children children' : List (Bool × Process)}
    (hflags : children'.map (·.1) = children.map (·.1))
    (hchildren : ∀ (i : Nat) (child child' : Bool × Process), children[i]? = some child →
      children'[i]? = some child' → R child.2 child'.2) :
    List.Forall₂ (fun child child' => child'.1 = child.1 ∧ R child.2 child'.2)
      children children' := by
  have hlength := congrArg List.length hflags
  rw [List.length_map, List.length_map] at hlength
  refine List.forall₂_iff_get.2 ⟨hlength.symm, fun i hi hi' => ⟨?_, ?_⟩⟩
  · have hflag := congrArg (·[i]?) hflags
    simpa [hi, hi'] using hflag
  · exact hchildren i _ _ (List.getElem?_eq_getElem hi) (List.getElem?_eq_getElem hi')

theorem InStep.bind {process process' : Process} (h : process.InStep W process')
    {f f' : Outcome → Process} (hf : ∀ outcome, (f outcome).InStep W (f' outcome)) :
    (process.bind f).InStep W (process'.bind f') := by
  induction h with
  | done outcome => exact hf outcome
  | ask hask _ ih => exact .ask hask ih
  | emit htrace hemit _ ih => exact .emit htrace hemit ih
  | sleep ms _ ih => exact .sleep ms ih
  | start hwork _ _ ih => exact .start hwork ih
  | await hwork _ _ ih => exact .await hwork ih
  | complete used _ ih => exact .complete used ih
  | parallel policy input hflags hchildren _ _ ih =>
    exact .parallel policy input hflags hchildren ih

theorem reflectAll_eq_map (on : Bool) : ∀ children : List (Bool × Process),
    reflectAll on children = children.map fun child => (child.1, child.2.reflect on on)
  | [] => rfl
  | (waitForMe, child) :: rest => by rw [reflectAll, reflectAll_eq_map on rest, List.map_cons]

/-- What is left without the lines of the trace is in lockstep too. -/
theorem InStep.quiet {process process' : Process} (h : process.InStep W process') :
    (process.reflect false false).InStep W (process'.reflect false false) := by
  induction h with
  | done outcome => exact .done outcome
  | ask hask _ ih => exact .ask hask ih
  | emit htrace hemit _ ih =>
    simp only [reflect, ← htrace]
    split
    · exact ih
    · exact .emit htrace hemit ih
  | sleep ms _ ih => exact .sleep ms ih
  | start _ _ ihwork ih => exact .start ihwork ih
  | await _ _ ihwork ih => exact .await ihwork ih
  | complete used _ ih => exact .complete used ih
  | parallel policy input hflags _ _ ihchildren ih =>
    simp only [reflect]
    refine .parallel _ input ?_ (fun i child child' hi hi' => ?_) ih
    · rw [map_fst_reflectAll, map_fst_reflectAll, hflags]
    · rw [reflectAll_eq_map, List.getElem?_map, Option.map_eq_some_iff] at hi hi'
      obtain ⟨process, hprocess, rfl⟩ := hi
      obtain ⟨process', hprocess', rfl⟩ := hi'
      exact ihchildren i process process' hprocess hprocess'

end Process

inductive TaskState.InStep (W : World → World → Prop) : TaskState → TaskState → Prop
  | ready {process process' : Process} (h : process.InStep W process') :
    InStep W (ready process) (ready process')
  | asleep {next next' : Unit → Process} (h : (next ()).InStep W (next' ())) :
    InStep W (asleep next) (asleep next')
  | awaiting {next next' : Option Outcome → Process}
    (h : ∀ used, (next used).InStep W (next' used)) : InStep W (awaiting next) (awaiting next')
  | joining {join : Join} {next' : Outcome → Process}
    (h : ∀ outcome, (join.next outcome).InStep W (next' outcome)) :
    InStep W (joining join) (joining { join with next := next' })
  | ended (outcome : Outcome) : InStep W (ended outcome) (ended outcome)
  | draining : InStep W draining draining

structure Task.InStep (W : World → World → Prop) (task task' : Task) : Prop where
  state : task.state.InStep W task'.state
  listener : task'.listener = task.listener
  called : task'.called = task.called
  queued : task'.queued = task.queued

/-- Machines whose tasks are in lockstep, in worlds that are alike. -/
structure Machine.InStep (W : World → World → Prop) (machine machine' : Machine) : Prop where
  size : machine'.tasks.size = machine.tasks.size
  task : ∀ id, (machine.task id).InStep W (machine'.task id)
  queue : machine'.queue = machine.queue
  woken : machine'.woken = machine.woken
  now : machine'.now = machine.now
  timers : machine'.timers = machine.timers
  world : W machine.world machine'.world

/-- Taking in outcomes does not look at what comes after. -/
theorem Join.take_next (next : Outcome → Process) : ∀ (join : Join)
    (arrived : List (Nat × Outcome)), Join.take { join with next } arrived
      = ({ (join.take arrived).1 with next }, (join.take arrived).2)
  | _, [] => rfl
  | join, (index, outcome) :: rest => by
    have ih := take_next next (join.took index outcome rest) rest
    rw [take_cons, take_cons]
    show (if (join.took index outcome rest).tally.settled join.policy
      || join.taken + 1 = join.flags.length then _ else _) = _
    split
    · rfl
    · exact ih

theorem Join.next_take : ∀ (join : Join) (arrived : List (Nat × Outcome)),
    (join.take arrived).1.next = join.next
  | _, [] => rfl
  | join, (index, outcome) :: rest => by
    rw [take_cons]
    split
    · rfl
    · exact next_take (join.took index outcome rest) rest

namespace Machine

variable {W : World → World → Prop} {machine machine' : Machine}

namespace InStep

theorem changeTask (h : machine.InStep W machine') {id : TaskId} {f f' : Task → Task}
    (hf : ∀ {task task' : Task}, task.InStep W task' → (f task).InStep W (f' task')) :
    (machine.changeTask id f).InStep W (machine'.changeTask id f') := by
  refine ⟨by simp only [size_changeTask, h.size], fun t => ?_, h.queue, h.woken, h.now, h.timers,
    h.world⟩
  rw [task_changeTask, task_changeTask, h.size]
  split
  · exact hf (h.task t)
  · exact h.task t

theorem setState (h : machine.InStep W machine') (id : TaskId) {state state' : TaskState}
    (hstate : state.InStep W state') :
    (machine.setState id state).InStep W (machine'.setState id state') :=
  h.changeTask fun htask => ⟨hstate, htask.listener, htask.called, htask.queued⟩

theorem wake (h : machine.InStep W machine') (id : TaskId) :
    (machine.wake id).InStep W (machine'.wake id) := by
  unfold Machine.wake
  simp only [(h.task id).called, (h.task id).queued]
  split
  · exact ⟨h.size, h.task, h.queue, rfl, h.now, h.timers, h.world⟩
  · split
    · exact h
    · have hqueued : (machine.changeTask id fun task => { task with queued := true }).InStep W
          (machine'.changeTask id fun task => { task with queued := true }) :=
        h.changeTask fun htask => ⟨htask.state, htask.listener, htask.called, rfl⟩
      exact ⟨hqueued.size, hqueued.task, by rw [h.queue], h.woken, h.now, h.timers, h.world⟩

theorem spawn (h : machine.InStep W machine') {state state' : TaskState}
    (hstate : state.InStep W state') (listener : Listener) :
    (machine.spawn state listener).2.InStep W (machine'.spawn state' listener).2 := by
  refine ⟨by simp [Machine.spawn, h.size], fun t => ?_, by simp [Machine.spawn, h.queue, h.size],
    h.woken, h.now, h.timers, h.world⟩
  rw [task_spawn_eq, task_spawn_eq, h.size]
  split
  · exact ⟨hstate, rfl, rfl, rfl⟩
  · exact h.task t

theorem spawnBranches (h : machine.InStep W machine') (parent : TaskId)
    {children children' : List (Bool × Process)}
    (hchildren : List.Forall₂ (fun child child' => child'.1 = child.1 ∧ child.2.InStep W child'.2)
      children children') (index : Nat) :
    (machine'.spawnBranches parent index children').1
        = (machine.spawnBranches parent index children).1
      ∧ (machine.spawnBranches parent index children).2.InStep W
        (machine'.spawnBranches parent index children').2 := by
  induction hchildren generalizing machine machine' index with
  | nil => exact ⟨rfl, h⟩
  | cons hchild _ ih =>
    have hspawn := h.spawn (.ready hchild.2) (.branch parent index)
    obtain ⟨hids, hrest⟩ := ih hspawn (index + 1)
    refine ⟨?_, hrest⟩
    simp only [Machine.spawnBranches]
    rw [hids]
    exact congrArg (· :: _) h.size

theorem deliver (h : machine.InStep W machine') (waiter : TaskId) (used : Option Outcome) :
    (machine.deliver waiter used).InStep W (machine'.deliver waiter used) := by
  have hstate := (h.task waiter).state
  unfold Machine.deliver
  generalize (machine.task waiter).state = state at hstate
  generalize (machine'.task waiter).state = state' at hstate
  cases hstate with
  | awaiting hnext => exact (h.setState waiter (.ready (hnext used))).wake waiter
  | _ => exact h

theorem arrive (h : machine.InStep W machine') (parent : TaskId) (index : Nat)
    (outcome : Outcome) :
    (machine.arrive parent index outcome).InStep W (machine'.arrive parent index outcome) := by
  have hstate := (h.task parent).state
  unfold Machine.arrive
  generalize (machine.task parent).state = state at hstate
  generalize (machine'.task parent).state = state' at hstate
  cases hstate with
  | @joining join next' hnext =>
    have hjoining : (TaskState.joining
        { join with arrived := join.arrived ++ [(index, outcome)] }).InStep W
          (.joining { join with arrived := join.arrived ++ [(index, outcome)], next := next' }) :=
      .joining hnext
    exact (h.setState parent hjoining).wake parent
  | _ => exact h.wake parent

theorem complete (h : machine.InStep W machine') (id : TaskId) (used : Option Outcome) :
    (machine.complete id used).InStep W (machine'.complete id used) := by
  unfold Machine.complete
  rw [(h.task id).listener]
  split
  · have hnobody : (machine.changeTask id fun task => { task with listener := .nobody }).InStep W
        (machine'.changeTask id fun task => { task with listener := .nobody }) :=
      h.changeTask fun htask => ⟨htask.state, rfl, htask.called, htask.queued⟩
    exact hnobody.deliver _ used
  · exact h

theorem finish (h : machine.InStep W machine') (id : TaskId) (outcome : Outcome) :
    (machine.finish id outcome).InStep W (machine'.finish id outcome) := by
  have hended := h.setState id (.ended outcome)
  unfold Machine.finish
  simp only [(hended.task id).listener]
  split
  · exact hended
  · exact hended.arrive _ _ outcome
  · exact hended.deliver _ none

theorem withWorld (h : machine.InStep W machine') {world world' : World} (hworld : W world world') :
    { machine with world }.InStep W { machine' with world := world' } :=
  ⟨h.size, h.task, h.queue, h.woken, h.now, h.timers, hworld⟩

/-- A task that is asleep for some time. -/
theorem sleep (h : machine.InStep W machine') (id : TaskId) (ms : Nat)
    {next next' : Unit → Process} (hnext : (next ()).InStep W (next' ())) :
    { machine.setState id (.asleep next) with
        timers := addTimer (machine.now + ms) id machine.timers }.InStep W
      { machine'.setState id (.asleep next') with
        timers := addTimer (machine'.now + ms) id machine'.timers } := by
  have hasleep := h.setState id (.asleep hnext)
  exact ⟨hasleep.size, hasleep.task, hasleep.queue, hasleep.woken, hasleep.now,
    by rw [h.now, h.timers], hasleep.world⟩

/-- A task that joins the parallel children it has started. -/
theorem parallel (h : machine.InStep W machine') (id : TaskId) (policy : Policy) (input : Value)
    {children children' : List (Bool × Process)} {next next' : Outcome → Process}
    (hflags : children'.map (·.1) = children.map (·.1))
    (hchildren : ∀ (i : Nat) (child child' : Bool × Process), children[i]? = some child →
      children'[i]? = some child' → child.2.InStep W child'.2)
    (hnext : ∀ outcome, (next outcome).InStep W (next' outcome)) :
    (carryOut id (.parallel policy input children next) machine).InStep W
      (carryOut id (.parallel policy input children' next') machine') := by
  obtain ⟨hids, hspawned⟩ := h.spawnBranches id (Process.forall₂_of_children hflags hchildren) 0
  simp only [carryOut, hflags]
  rcases hspawn : machine.spawnBranches id 0 children with ⟨branches, spawned⟩
  rcases hspawn' : machine'.spawnBranches id 0 children' with ⟨branches', spawned'⟩
  rw [hspawn, hspawn'] at hids hspawned
  simp only [] at hids hspawned ⊢
  subst hids
  have hjoining : (TaskState.joining
      { policy, input, flags := children.map (·.1), branches := branches'
        tally := { waitingOn := (children.map (·.1)).countP (·) }, next }).InStep W
        (.joining { policy, input, flags := children.map (·.1), branches := branches'
                    tally := { waitingOn := (children.map (·.1)).countP (·) }, next := next' }) :=
    .joining hnext
  exact (hspawned.setState id hjoining).wake id

/-- A process carried out for a task. -/
theorem carryOut (id : TaskId) {process process' : Process} (hprocess : process.InStep W process') :
    ∀ {machine machine' : Machine}, machine.InStep W machine' →
      (carryOut id process machine).InStep W (carryOut id process' machine') := by
  induction hprocess with
  | done outcome => exact fun h => h.finish id outcome
  | ask hask _ ih =>
    intro machine machine' h
    obtain ⟨hanswer, hworld⟩ := hask h.world
    simp only [Machine.carryOut]
    rw [← hanswer]
    exact ih _ (h.withWorld hworld)
  | emit _ hemit _ ih => exact fun h => ih (h.withWorld (hemit h.world))
  | sleep ms hnext _ => exact fun h => h.sleep id ms hnext
  | start hwork _ _ ih => exact fun h => ih (h.spawn (.ready hwork) .nobody)
  | await hwork hnext _ _ =>
    exact fun h => (h.spawn (.ready hwork) (.handle id)).setState id (.awaiting hnext)
  | complete used _ ih => exact fun h => ih (h.complete id used)
  | parallel policy input hflags hchildren hnext _ _ =>
    exact fun h => h.parallel id policy input hflags hchildren hnext

/-- The next thing that a process does, for a task. -/
theorem stepProcess (id : TaskId) {process process' : Process}
    (hprocess : process.InStep W process') : ∀ {machine machine' : Machine},
      machine.InStep W machine' →
      (stepProcess id process machine).InStep W (stepProcess id process' machine') := by
  induction hprocess with
  | ask hask hnext _ =>
    intro machine machine' h
    obtain ⟨hanswer, hworld⟩ := hask h.world
    simp only [Machine.stepProcess]
    rw [← hanswer]
    exact (h.withWorld hworld).setState id (.ready (hnext _))
  | @emit event event' _ _ htrace hemit hnext ih =>
    intro machine machine' h
    have hworld := h.withWorld (hemit h.world)
    simp only [Machine.stepProcess, ← htrace]
    split
    · exact ih hworld
    · exact hworld.setState id (.ready hnext)
  | start hwork hnext _ _ =>
    exact fun h => (h.spawn (.ready hwork) .nobody).setState id (.ready hnext)
  | complete used hnext _ => exact fun h => (h.complete id used).setState id (.ready hnext)
  | done outcome => exact fun h => h.finish id outcome
  | sleep ms hnext _ => exact fun h => h.sleep id ms hnext
  | await hwork hnext _ _ => exact fun h => h.carryOut id (.await hwork hnext)
  | parallel policy input hflags hchildren hnext _ _ =>
    exact fun h => h.parallel id policy input hflags hchildren hnext

theorem drain (h : machine.InStep W machine') (join : Join) (next' : Outcome → Process) :
    (machine.drain join).InStep W (machine'.drain { join with next := next' }) := by
  have hredirect : ∀ (drainer : TaskId) {ids : List TaskId} {machine machine' : Machine},
      machine.InStep W machine' →
      (ids.foldl (fun machine id => machine.changeTask id (redirect drainer)) machine).InStep W
        (ids.foldl (fun machine id => machine.changeTask id (redirect drainer)) machine') := by
    intro drainer ids
    induction ids with
    | nil => exact fun h => h
    | cons id rest ih =>
      refine fun h => ih (h.changeTask fun {task task'} htask => ?_)
      unfold redirect
      rw [htask.listener]
      split
      · exact ⟨htask.state, rfl, htask.called, htask.queued⟩
      · exact htask
  unfold Machine.drain
  simp only []
  split
  · exact h
  · have hspawn := h.spawn .draining .nobody
    have hsize : (machine'.spawn .draining .nobody).1 = (machine.spawn .draining .nobody).1 :=
      h.size
    rw [hsize]
    exact hredirect _ hspawn

theorem rouse (h : machine.InStep W machine') (id : TaskId) :
    (machine.rouse id).InStep W (machine'.rouse id) := by
  have hstate := (h.task id).state
  unfold Machine.rouse
  generalize (machine.task id).state = state at hstate
  generalize (machine'.task id).state = state' at hstate
  cases hstate with
  | asleep hnext => exact (h.setState id (.ready hnext)).wake id
  | _ => exact h

theorem outcome?_eq (h : machine.InStep W machine') (id : TaskId) :
    machine'.outcome? id = machine.outcome? id := by
  have hstate := (h.task id).state
  unfold outcome?
  generalize (machine.task id).state = state at hstate
  generalize (machine'.task id).state = state' at hstate
  cases hstate <;> rfl

section Joining

variable {join : Join} {next' : Outcome → Process}

/-- A parallel node that waits on, with what it took in. -/
theorem setState_take (h : machine.InStep W machine')
    (hnext : ∀ outcome, (join.next outcome).InStep W (next' outcome)) (id : TaskId) :
    (machine.setState id (.joining (join.take join.arrived).1)).InStep W
      (machine'.setState id (.joining { (join.take join.arrived).1 with next := next' })) := by
  refine h.setState id (.joining fun outcome => ?_)
  rw [join.next_take]
  exact hnext outcome

end Joining

theorem step (h : machine.InStep W machine') (id : TaskId) :
    (machine.step id).InStep W (machine'.step id) := by
  have hstate := (h.task id).state
  unfold Machine.step
  generalize (machine.task id).state = state at hstate
  generalize (machine'.task id).state = state' at hstate
  cases hstate with
  | ready hprocess => exact h.stepProcess id hprocess
  | @joining join next' hnext =>
    have hwaits := h.setState_take hnext id
    simp only [join.take_next next']
    rcases htake : join.take join.arrived with ⟨later, _ | outcome⟩
    · rwa [htake] at hwaits
    · have hlater : later.next = join.next := by
        rw [← join.next_take join.arrived, htake]
      exact (h.drain later next').setState id (.ready (by rw [hlater]; exact hnext outcome))
  | _ => exact h

theorem turn (h : machine.InStep W machine') (id : TaskId) :
    (machine.turn id).InStep W (machine'.turn id) := by
  have hturn : (machine.changeTask id fun task => { task with queued := false }).InStep W
      (machine'.changeTask id fun task => { task with queued := false }) :=
    h.changeTask fun htask => ⟨htask.state, htask.listener, htask.called, rfl⟩
  have hstate := (hturn.task id).state
  unfold Machine.turn
  simp only []
  generalize (machine.changeTask id fun task => { task with queued := false }) = turned
    at hturn hstate ⊢
  generalize (machine'.changeTask id fun task => { task with queued := false }) = turned'
    at hturn hstate ⊢
  generalize (turned.task id).state = state at hstate
  generalize (turned'.task id).state = state' at hstate
  cases hstate with
  | ready hprocess => exact hturn.carryOut id hprocess
  | @joining join next' hnext =>
    have hwaits := hturn.setState_take hnext id
    simp only [join.take_next next']
    rcases htake : join.take join.arrived with ⟨later, _ | outcome⟩
    · rwa [htake] at hwaits
    · have hlater : later.next = join.next := by
        rw [← join.next_take join.arrived, htake]
      exact (hturn.drain later next').carryOut id (by rw [hlater]; exact hnext outcome)
  | _ => exact hturn

theorem prefer (h : machine.InStep W machine') (id : TaskId) (k : Nat) :
    (machine.prefer id k).InStep W (machine'.prefer id k) := by
  have hstate := (h.task id).state
  unfold Machine.prefer
  generalize (machine.task id).state = state at hstate
  generalize (machine'.task id).state = state' at hstate
  cases hstate with
  | @joining join next' hnext =>
    have hjoining : (TaskState.joining
        { join with arrived := join.arrived[k]?.toList ++ join.arrived.eraseIdx k }).InStep W
          (.joining { join with arrived := join.arrived[k]?.toList ++ join.arrived.eraseIdx k
                                next := next' }) := .joining hnext
    exact h.setState id hjoining
  | _ => exact h

theorem move (h : machine.InStep W machine') (m : Move) :
    (machine.move m).InStep W (machine'.move m) := by
  cases m with
  | step id => exact h.step id
  | rouse id => exact h.rouse id
  | prefer id k => exact h.prefer id k

theorem foldl {α : Type} {f : Machine → α → Machine}
    (hf : ∀ {machine machine' : Machine}, machine.InStep W machine' →
      ∀ a, (f machine a).InStep W (f machine' a)) :
    ∀ (list : List α) {machine machine' : Machine}, machine.InStep W machine' →
      (list.foldl f machine).InStep W (list.foldl f machine')
  | [], _, _, h => h
  | a :: rest, _, _, h => foldl hf rest (hf h a)

/-- Machines stay in lockstep, whatever the schedule is. -/
theorem follow (h : machine.InStep W machine') (schedule : List Move) :
    (machine.follow schedule).InStep W (machine'.follow schedule) :=
  foldl move schedule h

theorem jump (h : machine.InStep W machine') : machine.jump.InStep W machine'.jump := by
  rw [jump_eq, jump_eq, h.timers]
  split
  · exact h
  · rename_i due _ _ _
    refine foldl (fun h timer => h.rouse timer.2) _ ?_
    exact ⟨h.size, h.task, h.queue, h.woken, rfl, rfl, h.world⟩

theorem giveTurns : ∀ (n : Nat) {machine machine' : Machine}, machine.InStep W machine' →
    (giveTurns n machine).InStep W (giveTurns n machine')
  | 0, _, _, h => h
  | n + 1, machine, machine', h => by
    rw [Machine.giveTurns, Machine.giveTurns, h.queue, h.woken]
    split
    · split
      · exact h
      · exact h.jump
    · rename_i id queue _
      have hqueue : { machine with queue }.InStep W
          { machine' with queue, woken := machine.woken } :=
        ⟨h.size, h.task, rfl, rfl, h.now, h.timers, h.world⟩
      exact giveTurns n (hqueue.turn id)

theorem look (h : machine.InStep W machine') (ids : List TaskId) :
    (machine.look ids).InStep W (machine'.look ids) := by
  have hseen : { machine with woken := false }.InStep W { machine' with woken := false } :=
    ⟨h.size, h.task, h.queue, rfl, h.now, h.timers, h.world⟩
  exact foldl turn ids hseen

/-- So they do in their own order. -/
theorem advance (ids : List TaskId) : ∀ (fuel : Nat) {machine machine' : Machine},
    machine.InStep W machine' → (advance ids fuel machine).InStep W (advance ids fuel machine')
  | 0, _, _, h => h
  | fuel + 1, machine, machine', h => by
    have hlook : (if machine.woken then machine.look ids else machine).InStep W
        (if machine'.woken then machine'.look ids else machine') := by
      rw [h.woken]
      split
      · exact h.look ids
      · exact h
    rw [Machine.advance, Machine.advance]
    generalize (if machine.woken then machine.look ids else machine) = looked at hlook ⊢
    generalize (if machine'.woken then machine'.look ids else machine') = looked' at hlook ⊢
    have hended : (ids.all fun id => (looked'.outcome? id).isSome)
        = ids.all fun id => (looked.outcome? id).isSome := by
      simp only [hlook.outcome?_eq]
    have hstuck : looked'.isStuck = looked.isStuck := by
      unfold isStuck
      rw [hlook.woken, hlook.queue, hlook.timers]
    simp only [hended, hstuck]
    split
    · exact hlook
    · split
      · exact hlook
      · exact advance ids fuel (giveTurns slice hlook)

end InStep

/-- Processes that are called together, to run on a machine beside what runs on it already. -/
def enlist (machine : Machine) (processes : List Process) : Machine :=
  { machine with
    tasks := machine.tasks ++ (processes.map fun process =>
      { state := .ready process, called := true : Task }).toArray
    woken := true }

theorem task_enlist (machine : Machine) (processes : List Process) (t : TaskId) :
    (machine.enlist processes).task t
      = if t < machine.tasks.size then machine.task t
        else (processes[t - machine.tasks.size]?).elim default fun process =>
          { state := .ready process, called := true } := by
  simp only [enlist, task, Array.getD_eq_getD_getElem?, Array.getElem?_append]
  split
  · rfl
  · rw [List.getElem?_toArray, List.getElem?_map]
    cases processes[t - machine.tasks.size]? <;> rfl

theorem InStep.enlist (h : machine.InStep W machine') {processes processes' : List Process}
    (hprocesses : List.Forall₂ (Process.InStep W) processes processes') :
    (machine.enlist processes).InStep W (machine'.enlist processes') := by
  refine ⟨by simp [Machine.enlist, h.size, hprocesses.length_eq], fun t => ?_, h.queue, rfl, h.now,
    h.timers, h.world⟩
  rw [task_enlist, task_enlist, h.size]
  split
  · exact h.task t
  · generalize t - machine.tasks.size = i
    induction hprocesses generalizing i with
    | nil => exact ⟨.draining, rfl, rfl, rfl⟩
    | cons hprocess _ ih =>
      cases i with
      | zero => exact ⟨.ready hprocess, rfl, rfl, rfl⟩
      | succ i => exact ih i

/-- Processes in lockstep come to the same outcomes when they are called, at the same time. -/
theorem InStep.call (h : machine.InStep W machine') {processes processes' : List Process}
    (hprocesses : List.Forall₂ (Process.InStep W) processes processes') :
    (machine'.call processes').1 = (machine.call processes).1
      ∧ (machine.call processes).2.InStep W (machine'.call processes').2 := by
  have hids : List.range' machine'.tasks.size processes'.length
      = List.range' machine.tasks.size processes.length := by
    rw [h.size, hprocesses.length_eq]
  have hdone := (h.enlist hprocesses).advance
    (List.range' machine.tasks.size processes.length) rounds
  unfold Machine.call
  simp only [hids]
  exact ⟨List.map_congr_left fun id _ => hdone.outcome?_eq id, hdone⟩

end Machine

/-- Work left over that leaves worlds alike. -/
def Leftover.InStep (W : World → World → Prop) (work work' : Leftover) : Prop :=
  ∀ {world world' : World}, W world world' → W (work world) (work' world')

structure InPlace.InStep (W : World → World → Prop) (result result' : InPlace) : Prop where
  outcome : result'.outcome = result.outcome
  completion : result'.completion = result.completion
  leftovers : List.Forall₂ (Leftover.InStep W) result.leftovers result'.leftovers
  world : W result.world result'.world

section InPlace

variable {W : World → World → Prop}

theorem InPlace.InStep.prepend {result result' : InPlace} (h : result.InStep W result')
    {leftovers leftovers' : List Leftover}
    (hleftovers : List.Forall₂ (Leftover.InStep W) leftovers leftovers') :
    (result.prepend leftovers).InStep W (result'.prepend leftovers') :=
  ⟨h.outcome, h.completion, List.rel_append hleftovers h.leftovers, h.world⟩

theorem InPlace.InStep.drain {result result' : InPlace} (h : result.InStep W result') :
    W result.drain result'.drain := by
  obtain ⟨-, -, hleftovers, hworld⟩ := h
  unfold InPlace.drain
  generalize result.leftovers = works at hleftovers
  generalize result'.leftovers = works' at hleftovers
  generalize result.world = world at hworld
  generalize result'.world = world' at hworld
  induction hleftovers generalizing world world' with
  | nil => exact hworld
  | cons hwork _ ih => exact ih _ _ (hwork hworld)

theorem Process.branchesInPlace_inStep (policy : Policy) (total : Nat)
    {children children' : List (Bool × Process)}
    (h : List.Forall₂ (fun child child' => child'.1 = child.1 ∧ ∀ {world world' : World},
      W world world' → (child.2.inPlace world).InStep W (child'.2.inPlace world'))
      children children') :
    ∀ (tally : Tally) {world world' : World}, W world world' →
    let result := branchesInPlace policy total tally children world
    let result' := branchesInPlace policy total tally children' world'
    result'.1 = result.1 ∧ List.Forall₂ (Leftover.InStep W) result.2.1 result'.2.1
      ∧ W result.2.2 result'.2.2 := by
  induction h with
  | nil => exact fun tally world world' hworld => ⟨rfl, .nil, hworld⟩
  | @cons child child' rest rest' hboth _ ih =>
    intro tally world world' hworld
    obtain ⟨waitForMe, child⟩ := child
    obtain ⟨waitForMe', child'⟩ := child'
    obtain ⟨hflag, hchild⟩ := hboth
    obtain rfl : waitForMe' = waitForMe := hflag
    simp only [branchesInPlace]
    by_cases hsettled : tally.settled policy
    · obtain ⟨htally, hleftovers, hlater⟩ := ih tally hworld
      simp only [if_pos hsettled]
      exact ⟨htally, .cons (fun hworld => (hchild hworld).drain) hleftovers, hlater⟩
    · have hresult := hchild hworld
      obtain ⟨htally, hleftovers, hlater⟩ := ih
        (tally.record policy total waitForMe' (child.inPlace world).outcome) hresult.world
      simp only [if_neg hsettled, hresult.outcome]
      exact ⟨htally, List.rel_append hresult.leftovers hleftovers, hlater⟩

/-- Processes in lockstep come to the same outcome in place. -/
theorem Process.InStep.inPlace {process process' : Process} (h : process.InStep W process') :
    ∀ {world world' : World}, W world world' →
      (process.inPlace world).InStep W (process'.inPlace world') := by
  induction h with
  | done outcome => exact fun hworld => ⟨rfl, rfl, .nil, hworld⟩
  | ask hask _ ih =>
    intro world world' hworld
    obtain ⟨hanswer, hlater⟩ := hask hworld
    simp only [Process.inPlace]
    rw [← hanswer]
    exact ih _ hlater
  | emit _ hemit _ ih => exact fun hworld => ih (hemit hworld)
  | sleep ms _ ih => exact fun hworld => ih hworld
  | start _ _ ihwork ih =>
    exact fun hworld => (ih (ihwork hworld).world).prepend (ihwork hworld).leftovers
  | await _ _ ihwork ih =>
    intro world world' hworld
    have hwork := ihwork hworld
    simp only [Process.inPlace, hwork.completion]
    exact (ih _ hwork.world).prepend hwork.leftovers
  | complete used _ ih =>
    intro world world' hworld
    have hnext := ih hworld
    exact ⟨hnext.outcome, rfl, hnext.leftovers, hnext.world⟩
  | @parallel policy input children children' next next' hflags hchildren _ ihchildren ih =>
    intro world world' hworld
    have hall := Process.forall₂_of_children
      (R := fun process process' => ∀ {world world' : World}, W world world' →
        (process.inPlace world).InStep W (process'.inPlace world')) hflags ihchildren
    have hcount : children'.countP (·.1) = children.countP (·.1) := by
      have hcount := congrArg (List.countP id) hflags
      rwa [List.countP_map, List.countP_map] at hcount
    obtain ⟨htally, hleftovers, hlater⟩ := branchesInPlace_inStep policy children.length hall
      { waitingOn := children.countP (·.1) } hworld
    simp only [Process.inPlace, ← hall.length_eq, hcount, htally]
    exact (ih _ hlater).prepend hleftovers

end InPlace

end BehaviorTree
