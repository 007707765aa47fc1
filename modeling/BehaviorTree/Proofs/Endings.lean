import BehaviorTree.Proofs.Duality
import BehaviorTree.Proofs.Fairness
import BehaviorTree.Proofs.Linked
import BehaviorTree.Proofs.Strides

/-!
# Runs come to an end

In a fair schedule every run comes to an end, whatever its actions do. A task that is ready has its
turn; one that sleeps is woken; one that waits for a completion handle goes on when the task that
has the handle uses it, or ends; and one that waits for parallel children goes on at the latest when
all of them have ended. So by induction on what a task is about to do it comes to its end, if the
tasks that it starts do (`Machine.Pursued.goesOn`, `Machine.exists_outcome_of_fair`).
-/

namespace BehaviorTree

/-- What others make of a task: it is woken, it hears of a completion handle, or it hears of its
parallel children. -/
inductive TaskState.Meanwhile : TaskState → TaskState → Prop
  | same (state : TaskState) : Meanwhile state state
  | roused (next : Unit → Process) : Meanwhile (asleep next) (ready (next ()))
  | released (next : Option Outcome → Process) (used : Option Outcome) :
    Meanwhile (awaiting next) (ready (next used))
  | joined (join : Join) (arrived : List (Nat × Outcome)) :
    Meanwhile (joining join) (joining { join with arrived })

theorem TaskState.exists_eq_ended {state : TaskState} (h : state.isEnded) :
    ∃ outcome, state = .ended outcome := by
  cases state with
  | ended outcome => exact ⟨outcome, rfl⟩
  | _ => cases h

namespace TaskState.Meanwhile

variable {before between after : TaskState}

theorem trans (h : before.Meanwhile between) (h' : between.Meanwhile after) :
    before.Meanwhile after := by
  cases h with
  | same => exact h'
  | roused next =>
    cases h'
    exact .roused next
  | released next used =>
    cases h'
    exact .released next used
  | joined join arrived =>
    cases h' with
    | same => exact .joined join arrived
    | joined _ arrived => exact .joined join arrived

theorem isEnded_eq (h : before.Meanwhile after) : after.isEnded = before.isEnded := by
  cases h <;> rfl

end TaskState.Meanwhile

namespace Machine

/-- A task is spared if nothing is done to it but what others make of it. -/
structure Spares (id : TaskId) (before after : Machine) : Prop where
  size : before.tasks.size ≤ after.tasks.size
  state : (before.task id).state.Meanwhile (after.task id).state
  handle : ∀ waiter, (before.task id).listener = .handle waiter →
    (after.task id).listener = .handle waiter

namespace Spares

variable {machine first between last : Machine} {id t : TaskId}

theorem of_task (hsize : first.tasks.size ≤ last.tasks.size) (h : last.task id = first.task id) :
    Spares id first last :=
  ⟨hsize, h ▸ .same _, fun _ hlistener => h ▸ hlistener⟩

theorem refl (machine : Machine) : Spares id machine machine :=
  .of_task (Nat.le_refl _) rfl

theorem trans (h : Spares id first between) (h' : Spares id between last) :
    Spares id first last :=
  ⟨h.size.trans h'.size, h.state.trans h'.state,
    fun waiter hlistener => h'.handle waiter (h.handle waiter hlistener)⟩

theorem changeTask_of_ne (h : id ≠ t) (f : Task → Task) :
    Spares id machine (machine.changeTask t f) :=
  .of_task (Nat.le_of_eq (machine.size_changeTask t f).symm)
    (by rw [task_changeTask, if_neg fun heq => h heq.1.symm])

theorem setState_of_ne (h : id ≠ t) (state : TaskState) :
    Spares id machine (machine.setState t state) :=
  changeTask_of_ne h _

theorem wake : Spares id machine (machine.wake t) := by
  have hwake := Agrees.wake_self machine t
  exact ⟨hwake.size.ge, hwake.state id ▸ .same _, fun _ hlistener =>
    (hwake.listener id).trans hlistener⟩

theorem spawn (hid : id < machine.tasks.size) (state : TaskState) (listener : Listener) :
    Spares id machine (machine.spawn state listener).2 :=
  .of_task (machine.retains_spawn state listener).size (machine.task_spawn hid state listener)

/-- A task that waits may go on, or another does. -/
theorem setState_of_meanwhile {before after : TaskState} (hbefore : (machine.task t).state = before)
    (ht : t < machine.tasks.size) (h : before.Meanwhile after) :
    Spares id machine (machine.setState t after) := by
  by_cases hid : id = t
  · subst hid
    refine ⟨Nat.le_of_eq (machine.size_changeTask id _).symm, ?_, fun waiter hlistener => ?_⟩
    · rw [state_setState machine ht, hbefore]
      exact h
    · rw [listener_setState, hlistener]
  · exact .setState_of_ne hid after

theorem deliver (waiter : TaskId) (used : Option Outcome) :
    Spares id machine (machine.deliver waiter used) := by
  unfold Machine.deliver
  split
  · rename_i next hstate
    have hlt : waiter < machine.tasks.size := lt_size_of_state machine (by simp [hstate])
    exact (setState_of_meanwhile hstate hlt (.released next used)).trans .wake
  · exact .refl machine

theorem arrive (parent : TaskId) (index : Nat) (outcome : Outcome) :
    Spares id machine (machine.arrive parent index outcome) := by
  unfold Machine.arrive
  split
  · rename_i join hstate
    exact (setState_of_meanwhile hstate (lt_size_of_joining hstate) (.joined join _)).trans .wake
  · exact .wake

theorem complete (h : id ≠ t) (used : Option Outcome) :
    Spares id machine (machine.complete t used) := by
  unfold Machine.complete
  split
  · exact (changeTask_of_ne h _).trans (.deliver _ used)
  · exact .refl machine

/-- The end of a task, for others and for itself when it has ended. -/
theorem report (outcome : Outcome) :
    Spares id (machine.setState t (.ended outcome)) (machine.finish t outcome) := by
  unfold Machine.finish
  simp only []
  split
  · exact .refl _
  · exact .arrive _ _ _
  · exact .deliver _ _

theorem finish (h : id ≠ t) (outcome : Outcome) : Spares id machine (machine.finish t outcome) :=
  (setState_of_ne h _).trans (.report outcome)

theorem spawnBranches (hid : id < machine.tasks.size) (parent : TaskId)
    (children : List (Bool × Process)) (index : Nat) :
    Spares id machine (machine.spawnBranches parent index children).2 :=
  .of_task (retains_spawnBranches parent children index machine).size
    (task_spawnBranches parent children index hid)

theorem drain (hid : id < machine.tasks.size) (join : Join) :
    Spares id machine (machine.drain join) := by
  refine ⟨(machine.retains_drain join).size, ?_, fun waiter hlistener => ?_⟩
  · rw [(machine.drain_keeps join).state id hid]
    exact .same _
  · rw [drain_task machine join hid]
    split
    · rw [redirect, hlistener, hlistener]
    · exact hlistener

theorem stepProcess (h : id ≠ t) : ∀ (process : Process) (machine : Machine),
    id < machine.tasks.size → Spares id machine (stepProcess t process machine)
  | .done outcome, machine, _ => .finish h outcome
  | .ask scope request next, machine, _ => by
    have hworld : Spares id machine
        { machine with world := (machine.world.ask scope request).2 } :=
      .of_task (Nat.le_refl _) rfl
    exact hworld.trans (.setState_of_ne h _)
  | .emit event next, machine, hid => by
    have hworld : Spares id machine { machine with world := machine.world.emit event } :=
      .of_task (Nat.le_refl _) rfl
    rw [Machine.stepProcess]
    split
    · exact hworld.trans (stepProcess h (next ()) _ hid)
    · exact hworld.trans (.setState_of_ne h _)
  | .sleep ms next, machine, _ =>
    (setState_of_ne h (.asleep next)).trans (.of_task (Nat.le_refl _) rfl)
  | .start work next, machine, hid =>
    (spawn hid (.ready work) .nobody).trans (.setState_of_ne h _)
  | .await work next, machine, hid =>
    (spawn hid (.ready work) (.handle t)).trans (.setState_of_ne h _)
  | .complete used next, machine, _ => (complete h used).trans (.setState_of_ne h _)
  | .parallel policy input children next, machine, hid =>
    (spawnBranches hid t children 0).trans ((setState_of_ne h _).trans .wake)

theorem step (hid : id < machine.tasks.size) (h : id ≠ t) : Spares id machine (machine.step t) := by
  unfold Machine.step
  split
  · exact .stepProcess h _ machine hid
  · split
    · exact .setState_of_ne h _
    · exact (drain hid _).trans (.setState_of_ne h _)
  · exact .refl machine

/-- A task is spared unless it is its turn. -/
theorem proceed (hid : id < machine.tasks.size) {m : Move} (h : m ≠ .step id) :
    Spares id machine (machine.proceed m) := by
  cases m with
  | step t =>
    have ht : id ≠ t := fun heq => h (heq ▸ rfl)
    show Spares id machine (machine.stride t)
    unfold Machine.stride
    split
    · rename_i process _
      have hworld : Spares id machine
          { machine with world := (process.pastSilent machine.world).2 } :=
        .of_task (Nat.le_refl _) rfl
      exact hworld.trans (.stepProcess ht _ _ hid)
    · exact .step hid ht
  | rouse t =>
    show Spares id machine (machine.rouse t)
    unfold Machine.rouse
    split
    · rename_i next hstate
      have hlt : t < machine.tasks.size := lt_size_of_state machine (by simp [hstate])
      exact (setState_of_meanwhile hstate hlt (.roused next)).trans .wake
    · exact .refl machine
  | prefer t k =>
    show Spares id machine (machine.prefer t k)
    unfold Machine.prefer
    split
    · rename_i join hstate
      exact setState_of_meanwhile hstate (lt_size_of_joining hstate) (.joined join _)
    · exact .refl machine

end Spares

section Turns

variable {machine : Machine} {id : TaskId}

/-- A task that ends, ends. -/
theorem isEnded_finish (hid : id < machine.tasks.size) (outcome : Outcome) :
    ((machine.finish id outcome).task id).state.isEnded := by
  have hreport : Spares id _ (machine.finish id outcome) := .report outcome
  rw [hreport.state.isEnded_eq, state_setState machine hid]
  rfl

theorem stride_of_idle (hready : ∀ process, (machine.task id).state ≠ .ready process)
    (hjoining : ∀ join, (machine.task id).state ≠ .joining join) : machine.stride id = machine := by
  unfold stride step
  split
  · rename_i hstate
    exact absurd hstate (hready _)
  · split
    · rename_i hstate
      exact absurd hstate (hready _)
    · rename_i hstate
      exact absurd hstate (hjoining _)
    · rfl

/-- A task that does away with its completion handle lets the one that waits for it go on. -/
theorem stepProcess_lets {waiter : TaskId} (hne : waiter ≠ id)
    (hlistener : (machine.task id).listener = .handle waiter)
    {next : Option Outcome → Process} (hawaiting : (machine.task waiter).state = .awaiting next)
    {process : Process} {used : Option Outcome} (hused : process.lets = some used) :
    ((stepProcess id process machine).task waiter).state = .ready (next used) := by
  have hlt : waiter < machine.tasks.size := lt_size_of_state machine (by simp [hawaiting])
  have hdeliver : ∀ {other : Machine} {used : Option Outcome},
      other.task waiter = machine.task waiter → other.tasks.size = machine.tasks.size →
      ((other.deliver waiter used).task waiter).state = .ready (next used) :=
    fun htask hsize => by
      unfold deliver
      rw [htask, hawaiting]
      simp only []
      rw [state_wake, state_setState _ (hsize ▸ hlt)]
  cases process with
  | done outcome =>
    cases hused
    show ((machine.finish id outcome).task waiter).state = _
    unfold finish
    simp only [listener_setState, hlistener]
    exact hdeliver (machine.task_setState_of_ne hne.symm _) (machine.size_changeTask id _)
  | complete used next =>
    cases hused
    rw [stepProcess, task_setState_of_ne _ hne.symm]
    unfold complete
    rw [hlistener]
    refine hdeliver ?_ (machine.size_changeTask id _)
    rw [task_changeTask, if_neg fun heq => hne heq.1.symm]
  | _ => cases hused

/-- A task that does not do away with its completion handle keeps it. -/
theorem stepProcess_holds (hid : id < machine.tasks.size) {process : Process}
    (hheard : process.Heard) (hlets : process.lets = none) :
    ((stepProcess id process machine).task id).listener = (machine.task id).listener
      ∧ ((stepProcess id process machine).task id).state.isEnded = false := by
  have hset : ∀ {other : Machine} {state : TaskState}, other.task id = machine.task id →
      machine.tasks.size ≤ other.tasks.size → state.isEnded = false →
      ((other.setState id state).task id).listener = (machine.task id).listener
        ∧ ((other.setState id state).task id).state.isEnded = false :=
    fun htask hsize hstate => by
      rw [listener_setState, htask, state_setState _ (Nat.lt_of_lt_of_le hid hsize)]
      exact ⟨rfl, hstate⟩
  cases process with
  | done outcome | complete used next => cases hlets
  | ask scope request next => exact hset rfl (Nat.le_refl _) rfl
  | emit event next =>
    have htrace : event.isTrace = false := (Bool.or_eq_false_iff.1 hheard).1
    simp only [stepProcess, htrace]
    exact hset rfl (Nat.le_refl _) rfl
  | sleep ms next => exact hset rfl (Nat.le_refl _) rfl
  | start work next =>
    exact hset (machine.task_spawn hid _ _) (machine.retains_spawn _ _).size rfl
  | await work next =>
    exact hset (machine.task_spawn hid _ _) (machine.retains_spawn _ _).size rfl
  | parallel policy input children next =>
    show ((carryOut id _ machine).task id).listener = _
      ∧ ((carryOut id _ machine).task id).state.isEnded = false
    rw [carryOut]
    simp only []
    rw [listener_wake, state_wake]
    exact hset (task_spawnBranches id children 0 hid)
      (retains_spawnBranches id children 0 machine).size rfl

/-- A task that waits for parallel children, and has a completion handle, keeps it. -/
theorem step_holds {join : Join} (hstate : (machine.task id).state = .joining join)
    {waiter : TaskId} (hlistener : (machine.task id).listener = .handle waiter) :
    ((machine.step id).task id).listener = .handle waiter
      ∧ ((machine.step id).task id).state.isEnded = false := by
  have hid := lt_size_of_joining hstate
  unfold step
  rw [hstate]
  simp only []
  split
  · rw [listener_setState, hlistener, state_setState machine hid]
    exact ⟨rfl, rfl⟩
  · rename_i later outcome _
    have hdrain : Spares id machine (machine.drain later) := .drain hid later
    rw [listener_setState, hdrain.handle waiter hlistener,
      state_setState _ (Nat.lt_of_lt_of_le hid hdrain.size)]
    exact ⟨rfl, rfl⟩

/-- While a task waits for the completion handle that another has, the other keeps the handle, or
the task goes on with what came of it. -/
theorem stride_of_holder {waiter : TaskId} (hne : waiter ≠ id) {next : Option Outcome → Process}
    (hawaiting : (machine.task waiter).state = .awaiting next)
    (hlistener : (machine.task id).listener = .handle waiter)
    (hlive : (machine.task id).state.isEnded = false) :
    (((machine.stride id).task id).listener = .handle waiter
        ∧ ((machine.stride id).task id).state.isEnded = false)
      ∨ ∃ used, ((machine.stride id).task waiter).state = .ready (next used) := by
  cases hstate : (machine.task id).state with
  | ready process =>
    have hid : id < machine.tasks.size := lt_size_of_state machine (by simp [hstate])
    have hheard := process.pastSilent_heard machine.world
    simp only [stride, hstate]
    generalize process.pastSilent machine.world = past at hheard ⊢
    generalize hother : ({ machine with world := past.2 } : Machine) = other
    have htask : ∀ t, machine.task t = other.task t := hother ▸ fun _ => rfl
    rw [htask] at hawaiting hlistener
    cases hused : past.1.lets with
    | some used => exact .inr ⟨used, stepProcess_lets hne hlistener hawaiting hused⟩
    | none =>
      rw [← hlistener]
      exact .inl (stepProcess_holds (hother ▸ hid) hheard hused)
  | joining join =>
    simp only [stride, hstate]
    exact .inl (step_holds hstate hlistener)
  | _ =>
    rw [stride_of_idle (by simp [hstate]) (by simp [hstate])]
    exact .inl ⟨hlistener, hlive⟩

/-- A task waits for the completion handle of another that has not ended. -/
def AwaitsHandle (id holder : TaskId) (next : Option Outcome → Process) (machine : Machine) :
    Prop :=
  (machine.task id).state = .awaiting next ∧ (machine.task holder).listener = .handle id
    ∧ (machine.task holder).state.isEnded = false

theorem AwaitsHandle.proceed {holder : TaskId} {next : Option Outcome → Process}
    (h : machine.AwaitsHandle id holder next) (m : Move) :
    (machine.proceed m).AwaitsHandle id holder next
      ∨ ∃ used, ((machine.proceed m).task id).state = .ready (next used) := by
  obtain ⟨hawaiting, hlistener, hlive⟩ := h
  have hid : id < machine.tasks.size := lt_size_of_state machine (by simp [hawaiting])
  by_cases hturn : m = .step id
  · subst hturn
    have hidle : machine.stride id = machine :=
      stride_of_idle (by simp [hawaiting]) (by simp [hawaiting])
    rw [Machine.proceed, hidle]
    exact .inl ⟨hawaiting, hlistener, hlive⟩
  have hmeanwhile := (Spares.proceed hid hturn).state
  rw [hawaiting] at hmeanwhile
  generalize hstate : ((machine.proceed m).task id).state = state at hmeanwhile
  cases hmeanwhile with
  | released _ used => exact .inr ⟨used, rfl⟩
  | same =>
    by_cases hholder : m = .step holder
    · subst hholder
      have hne : id ≠ holder := fun heq => hturn (heq ▸ rfl)
      rcases stride_of_holder hne hawaiting hlistener hlive with hkept | ⟨used, hreleased⟩
      · exact .inl ⟨hstate, hkept⟩
      · exact .inr ⟨used, hstate.symm.trans hreleased⟩
    · have hlt : holder < machine.tasks.size := lt_size_of_listener (by simp [hlistener])
      have hspares := Spares.proceed hlt hholder
      exact .inl ⟨hstate, hspares.handle id hlistener, hspares.state.isEnded_eq.trans hlive⟩

/-- A task waits for parallel children, and goes on with something when it has heard of enough. -/
def JoinsChildren (id : TaskId) (branches : List TaskId) (next : Outcome → Process)
    (machine : Machine) : Prop :=
  ∃ join, (machine.task id).state = .joining join ∧ join.branches = branches ∧ join.next = next

theorem JoinsChildren.proceed {branches : List TaskId} {next : Outcome → Process}
    (h : machine.JoinsChildren id branches next) (m : Move) :
    (machine.proceed m).JoinsChildren id branches next
      ∨ ∃ outcome, ((machine.proceed m).task id).state = .ready (next outcome) := by
  obtain ⟨join, hstate, hbranches, hnext⟩ := h
  have hid := lt_size_of_joining hstate
  by_cases hturn : m = .step id
  · subst hturn
    obtain ⟨hshape, -⟩ := join.take_shape join.arrived
    have hafter := join.next_take join.arrived
    simp only [Machine.proceed, stride, step, hstate]
    generalize join.take join.arrived = taken at hshape hafter ⊢
    obtain ⟨later, _ | outcome⟩ := taken
    · exact .inl ⟨later, state_setState machine hid _, hshape.trans hbranches, hafter.trans hnext⟩
    · refine .inr ⟨outcome, ?_⟩
      have hsize := (machine.retains_drain later).size
      rw [state_setState _ (Nat.lt_of_lt_of_le hid hsize)]
      exact congrArg (fun next => TaskState.ready (next outcome)) (hafter.trans hnext)
  · have hmeanwhile := (Spares.proceed hid hturn).state
    rw [hstate] at hmeanwhile
    generalize hlater : ((machine.proceed m).task id).state = state at hmeanwhile
    cases hmeanwhile with
    | same => exact .inl ⟨join, hlater, hbranches, hnext⟩
    | joined _ arrived => exact .inl ⟨_, hlater, hbranches, hnext⟩

/-- A task whose children have all ended goes on in its turn. -/
theorem JoinsChildren.stride {branches : List TaskId} {next : Outcome → Process}
    (h : machine.JoinsChildren id branches next) (hlinked : machine.Linked) (hne : branches ≠ [])
    (hended : ∀ b ∈ branches, (machine.task b).state.isEnded) :
    ∃ outcome, ((machine.stride id).task id).state = .ready (next outcome) := by
  rcases h.proceed (.step id) with ⟨later, hlater, -⟩ | hready
  · obtain ⟨join, hstate, rfl, rfl⟩ := h
    obtain ⟨outcome, htake⟩ := (hlinked id join hstate).exists_take hne hended
    have hid := lt_size_of_joining hstate
    simp only [Machine.proceed, Machine.stride, step, hstate] at hlater
    generalize join.take join.arrived = taken at htake hlater
    obtain ⟨later', _⟩ := taken
    cases htake
    simp only at hlater
    rw [state_setState _ (Nat.lt_of_lt_of_le hid (machine.retains_drain later').size)] at hlater
    cases hlater
  · exact hready

end Turns

/-- A task that starts work in the background and waits for it. -/
theorem awaitsHandle_await {machine : Machine} {id : TaskId} (hid : id < machine.tasks.size)
    (work : Process) (next : Option Outcome → Process) :
    (carryOut id (.await work next) machine).AwaitsHandle id machine.tasks.size next
      ∧ ((carryOut id (.await work next) machine).task machine.tasks.size).state
        = .ready work := by
  have hsize := (machine.retains_spawn (.ready work) (.handle id)).size
  have hstarted : (machine.spawn (.ready work) (.handle id)).2.task machine.tasks.size
      = { state := .ready work, listener := .handle id, queued := true } := by
    rw [task_spawn_eq, if_pos rfl]
  have hready : ((carryOut id (.await work next) machine).task machine.tasks.size).state
      = .ready work := by
    rw [carryOut, task_setState_of_ne _ hid.ne, hstarted]
  refine ⟨⟨state_setState _ (Nat.lt_of_lt_of_le hid hsize) _, ?_, by rw [hready]; rfl⟩, hready⟩
  rw [carryOut, listener_setState, hstarted]

/-- A task that starts parallel children and waits for them. -/
theorem exists_joinsChildren {machine : Machine} {id : TaskId} (hid : id < machine.tasks.size)
    (policy : Policy) (input : Value) {children : List (Bool × Process)} (hne : children ≠ [])
    (next : Outcome → Process) :
    ∃ branches, branches ≠ []
      ∧ (carryOut id (.parallel policy input children next) machine).JoinsChildren id branches next
      ∧ ∀ b ∈ branches, ∃ child ∈ children,
        ((carryOut id (.parallel policy input children next) machine).task b).state
          = .ready child.2 := by
  have hstate := state_carryOut_parallel machine hid policy input children next
  refine ⟨_, by simpa [Join.start] using hne, ⟨_, hstate, rfl, rfl⟩, fun b hb => ?_⟩
  obtain ⟨i, child, hchild, htask⟩ := exists_task_carryOut_parallel machine hid policy input next hb
  exact ⟨child, List.mem_of_getElem? hchild, congrArg Task.state htask⟩

/-- The machines that some machine becomes while a schedule is pursued. -/
structure Pursued (schedule : Nat → Move) (machines : Nat → Machine) : Prop where
  succ : ∀ t, machines (t + 1) = (machines t).proceed (schedule t)
  linked : ∀ t, (machines t).Linked

/-- A state of affairs lasts, or at some time another comes of it. -/
theorem lasts_or {Q P : Nat → Prop} {t : Nat} (h : Q t)
    (hstep : ∀ u, Q u → Q (u + 1) ∨ P (u + 1)) : (∀ u ≥ t, Q u) ∨ ∃ u ≥ t, P u := by
  by_contra hnever
  rw [not_or] at hnever
  refine hnever.1 fun u hu => ?_
  induction u, hu using Nat.le_induction with
  | base => exact h
  | succ u hu ih =>
    rcases hstep u ih with hlasts | hcomes
    · exact hlasts
    · exact absurd ⟨u + 1, Nat.le_succ_of_le hu, hcomes⟩ hnever.2

namespace Pursued

theorem of_pursue (schedule : Nat → Move) {start : Machine} (hlinked : start.Linked) :
    Pursued schedule fun t => start.pursue ((List.range t).map schedule) := by
  refine ⟨fun t => ?_, fun t => linked_invariant.pursue hlinked _⟩
  rw [List.range_succ, List.map_append, pursue, List.foldl_append]
  rfl

variable {schedule : Nat → Move} {machines : Nat → Machine} {id : TaskId} {t : Nat}

/-- Whenever the task is about to go on with a process, it comes to its end later. -/
def Ends (machines : Nat → Machine) (process : Process) : Prop :=
  ∀ {id t}, ((machines t).task id).state = .ready process →
    ∃ u ≥ t, ((machines u).task id).state.isEnded

/-- Whenever the task has just gone on with a process, it comes to its end later. -/
def GoesOn (machines : Nat → Machine) (process : Process) : Prop :=
  ∀ {id t} (machine : Machine), id < machine.tasks.size → (machine.task id).state.Busy →
    machines t = stepProcess id (process.pastSilent machine.world).1
      { machine with world := (process.pastSilent machine.world).2 } →
    ∃ u ≥ t, ((machines u).task id).state.isEnded

variable (h : Pursued schedule machines)
include h

theorem spares (hid : id < (machines t).tasks.size) (hm : schedule t ≠ .step id) :
    Spares id (machines t) (machines (t + 1)) := by
  rw [h.succ]
  exact .proceed hid hm

theorem ended_succ {outcome : Outcome} (hended : ((machines t).task id).state = .ended outcome) :
    ((machines (t + 1)).task id).state = .ended outcome := by
  have hid : id < (machines t).tasks.size := lt_size_of_state _ (by simp [hended])
  by_cases hm : schedule t = .step id
  · have hidle : (machines t).stride id = machines t :=
      stride_of_idle (by simp [hended]) (by simp [hended])
    rwa [h.succ, hm, proceed, hidle]
  · have hmeanwhile := (h.spares hid hm).state
    rw [hended] at hmeanwhile
    generalize ((machines (t + 1)).task id).state = state at hmeanwhile
    cases hmeanwhile
    rfl

/-- A task that has come to its end stays there, and nothing is done for it again. -/
theorem ended_of_le {u : Nat} (hle : t ≤ u) {outcome : Outcome}
    (hended : ((machines t).task id).state = .ended outcome) :
    ((machines u).task id).state = .ended outcome := by
  induction u, hle using Nat.le_induction with
  | base => exact hended
  | succ u _ ih => exact h.ended_succ ih

theorem isEnded_of_le {u : Nat} (hle : t ≤ u) (hended : ((machines t).task id).state.isEnded) :
    ((machines u).task id).state.isEnded := by
  obtain ⟨outcome, houtcome⟩ := TaskState.exists_eq_ended hended
  rw [h.ended_of_le hle houtcome]
  rfl

theorem exists_all_ended (ids : List TaskId) {t : Nat}
    (hended : ∀ b ∈ ids, ∃ u ≥ t, ((machines u).task b).state.isEnded) :
    ∃ u ≥ t, ∀ b ∈ ids, ((machines u).task b).state.isEnded := by
  induction ids with
  | nil => exact ⟨t, Nat.le_refl t, nofun⟩
  | cons b rest ih =>
    obtain ⟨u, hu, hb⟩ := hended b List.mem_cons_self
    obtain ⟨v, hv, hrest⟩ := ih fun c hc => hended c (List.mem_cons_of_mem b hc)
    refine ⟨max u v, hu.trans (Nat.le_max_left u v), fun c hc => ?_⟩
    rcases List.mem_cons.1 hc with rfl | hc
    · exact h.isEnded_of_le (Nat.le_max_left u v) hb
    · exact h.isEnded_of_le (Nat.le_max_right u v) (hrest c hc)

variable (hfair : FairSchedule schedule)
include hfair

/-- A task that is ready has its turn. -/
theorem exists_turn {process : Process} (hready : ((machines t).task id).state = .ready process) :
    ∃ u ≥ t, schedule u = .step id ∧ ((machines u).task id).state = .ready process := by
  refine Core.Scheduled.exists_when hready (fun u hu hm => ?_) (hfair id t).1
  have hid : id < (machines u).tasks.size := lt_size_of_state _ (by simp [hu])
  have hmeanwhile := (h.spares hid hm).state
  rw [hu] at hmeanwhile
  generalize ((machines (u + 1)).task id).state = state at hmeanwhile
  cases hmeanwhile
  rfl

/-- A task that sleeps is woken. -/
theorem exists_ready_of_asleep {next : Unit → Process}
    (hasleep : ((machines t).task id).state = .asleep next) :
    ∃ u ≥ t, ((machines u).task id).state = .ready (next ()) := by
  have hstep : ∀ u, ((machines u).task id).state = .asleep next →
      ((machines (u + 1)).task id).state = .asleep next
        ∨ ((machines (u + 1)).task id).state = .ready (next ()) := fun u hu => by
    have hid : id < (machines u).tasks.size := lt_size_of_state _ (by simp [hu])
    by_cases hm : schedule u = .step id
    · have hidle : (machines u).stride id = machines u :=
        stride_of_idle (by simp [hu]) (by simp [hu])
      rw [h.succ, hm, proceed, hidle]
      exact .inl hu
    · have hmeanwhile := (h.spares hid hm).state
      rw [hu] at hmeanwhile
      generalize ((machines (u + 1)).task id).state = state at hmeanwhile
      cases hmeanwhile with
      | same => exact .inl rfl
      | roused => exact .inr rfl
  rcases lasts_or (Q := fun u => ((machines u).task id).state = .asleep next)
    (P := fun u => ((machines u).task id).state = .ready (next ())) hasleep hstep
    with hlasts | hready
  · obtain ⟨u, hu, hm⟩ := (hfair id t).2
    refine ⟨u + 1, Nat.le_succ_of_le hu, ?_⟩
    have hid : id < (machines u).tasks.size := lt_size_of_state _ (by simp [hlasts u hu])
    rw [h.succ, hm]
    show (((machines u).rouse id).task id).state = _
    unfold rouse
    rw [hlasts u hu]
    simp only []
    rw [state_wake, state_setState _ hid]
  · exact hready

theorem ends_of_goesOn {process : Process} (hgoes : GoesOn machines process) :
    Ends machines process := fun {id t} hready => by
  obtain ⟨u, hu, hm, hready⟩ := h.exists_turn hfair hready
  have hid : id < (machines u).tasks.size := lt_size_of_state _ (by simp [hready])
  have hsucc : machines (u + 1) = stepProcess id (process.pastSilent (machines u).world).1
      { machines u with world := (process.pastSilent (machines u).world).2 } := by
    rw [h.succ, hm, proceed, stride, hready]
  obtain ⟨v, hv, hended⟩ := hgoes (machines u) hid (hready ▸ .ready process) hsucc
  exact ⟨v, by omega, hended⟩

/-- A task that waits for a completion handle goes on at the latest when the task that has the
handle has ended. -/
theorem ends_of_awaiting {holder : TaskId} {next : Option Outcome → Process}
    (hwaits : (machines t).AwaitsHandle id holder next)
    (hholder : ∃ u ≥ t, ((machines u).task holder).state.isEnded)
    (hnext : ∀ used, GoesOn machines (next used)) :
    ∃ u ≥ t, ((machines u).task id).state.isEnded := by
  have hstep : ∀ u, (machines u).AwaitsHandle id holder next →
      (machines (u + 1)).AwaitsHandle id holder next
        ∨ ∃ used, ((machines (u + 1)).task id).state = .ready (next used) := fun u hu => by
    rw [h.succ]
    exact hu.proceed (schedule u)
  rcases lasts_or (Q := fun u => (machines u).AwaitsHandle id holder next)
    (P := fun u => ∃ used, ((machines u).task id).state = .ready (next used)) hwaits hstep
    with hlasts | ⟨u, hu, used, hready⟩
  · obtain ⟨u, hu, hended⟩ := hholder
    obtain ⟨-, -, hlive⟩ := hlasts u hu
    rw [hlive] at hended
    cases hended
  · obtain ⟨v, hv, hended⟩ := h.ends_of_goesOn hfair (hnext used) hready
    exact ⟨v, hu.trans hv, hended⟩

/-- A task that waits for parallel children goes on at the latest when all of them have ended. -/
theorem ends_of_joining {branches : List TaskId} {next : Outcome → Process}
    (hjoins : (machines t).JoinsChildren id branches next) (hne : branches ≠ [])
    (hbranches : ∀ b ∈ branches, ∃ u ≥ t, ((machines u).task b).state.isEnded)
    (hnext : ∀ outcome, GoesOn machines (next outcome)) :
    ∃ u ≥ t, ((machines u).task id).state.isEnded := by
  have hstep : ∀ u, (machines u).JoinsChildren id branches next →
      (machines (u + 1)).JoinsChildren id branches next
        ∨ ∃ outcome, ((machines (u + 1)).task id).state = .ready (next outcome) := fun u hu => by
    rw [h.succ]
    exact hu.proceed (schedule u)
  have hready : ∃ u ≥ t, ∃ outcome, ((machines u).task id).state = .ready (next outcome) := by
    rcases lasts_or (Q := fun u => (machines u).JoinsChildren id branches next)
      (P := fun u => ∃ outcome, ((machines u).task id).state = .ready (next outcome)) hjoins hstep
      with hlasts | hready
    · obtain ⟨u, hu, hended⟩ := h.exists_all_ended branches hbranches
      obtain ⟨v, hv, hm⟩ := (hfair id u).1
      obtain ⟨outcome, hready⟩ := (hlasts v (hu.trans hv)).stride (h.linked v) hne
        fun b hb => h.isEnded_of_le hv (hended b hb)
      exact ⟨v + 1, by omega, outcome, by rw [h.succ, hm, proceed, hready]⟩
    · exact hready
  obtain ⟨u, hu, outcome, hready⟩ := hready
  obtain ⟨v, hv, hended⟩ := h.ends_of_goesOn hfair (hnext outcome) hready
  exact ⟨v, hu.trans hv, hended⟩

/-- A task that has gone on with a process whose parallel nodes have children comes to its end. -/
theorem goesOn {process : Process} (hformed : process.Formed true) : GoesOn machines process := by
  induction hformed with
  | done outcome =>
    intro id t machine hid _ ht
    refine ⟨t, Nat.le_refl t, ?_⟩
    rw [ht]
    exact isEnded_finish hid outcome
  | @ask scope request next _ ih =>
    intro id t machine hid _ ht
    have hready : ((machines t).task id).state
        = .ready (next (machine.world.ask scope request).1) := by
      rw [ht]
      exact state_setState _ hid _
    exact h.ends_of_goesOn hfair (ih _) hready
  | @emit event next _ ih =>
    intro id t machine hid hbusy ht
    rw [Process.pastSilent] at ht
    split at ht
    · exact ih { machine with world := machine.world.emit event } hid hbusy ht
    · rename_i hsilent
      have htrace : event.isTrace = false := by
        cases htrace : event.isTrace
        · rfl
        · simp [Event.isSilent, htrace] at hsilent
      have hready : ((machines t).task id).state = .ready (next ()) := by
        simp only [stepProcess, htrace] at ht
        rw [ht]
        exact state_setState _ hid _
      exact h.ends_of_goesOn hfair ih hready
  | @sleep ms next _ ih =>
    intro id t machine hid _ ht
    have hasleep : ((machines t).task id).state = .asleep next := by
      rw [ht]
      exact state_setState _ hid _
    obtain ⟨u, hu, hready⟩ := h.exists_ready_of_asleep hfair hasleep
    obtain ⟨v, hv, hended⟩ := h.ends_of_goesOn hfair ih hready
    exact ⟨v, hu.trans hv, hended⟩
  | @start work next _ _ _ ih =>
    intro id t machine hid _ ht
    have hready : ((machines t).task id).state = .ready (next ()) := by
      rw [ht]
      exact state_setState _ (Nat.lt_of_lt_of_le hid (retains_spawn _ _ _).size) _
    exact h.ends_of_goesOn hfair ih hready
  | @await work next _ _ ihwork ih =>
    intro id t machine hid _ ht
    obtain ⟨hwaits, hready⟩ := awaitsHandle_await hid work next
    have ht : machines t = carryOut id (.await work next) machine := ht
    exact h.ends_of_awaiting hfair (ht ▸ hwaits) (h.ends_of_goesOn hfair ihwork (ht ▸ hready)) ih
  | @complete used next _ ih =>
    intro id t machine hid _ ht
    have hready : ((machines t).task id).state = .ready (next ()) := by
      rw [ht]
      exact state_setState _ (Nat.lt_of_lt_of_le hid (retains_complete _ id used).size) _
    exact h.ends_of_goesOn hfair ih hready
  | @parallel policy input children next _ hne _ _ ihchildren ih =>
    intro id t machine hid _ ht
    obtain ⟨branches, hbranches, hjoins, hready⟩ :=
      exists_joinsChildren hid policy input hne next
    have ht : machines t = carryOut id (.parallel policy input children next) machine := ht
    refine h.ends_of_joining hfair (ht ▸ hjoins) hbranches (fun b hb => ?_) ih
    obtain ⟨child, hchild, hchildReady⟩ := hready b hb
    exact h.ends_of_goesOn hfair (ihchildren child hchild) (ht ▸ hchildReady)

end Pursued

/-- In a fair schedule a run comes to an outcome. -/
theorem exists_outcome_of_fair {process : Process} (hformed : process.Formed true) (world : World)
    {schedule : Nat → Move} (hfair : FairSchedule schedule) :
    ∃ n outcome, ((begin process world).pursue ((List.range n).map schedule)).outcome? 0
      = some outcome := by
  have hpursued := Pursued.of_pursue schedule (linked_begin process world)
  have hready : (((begin process world).pursue ((List.range 0).map schedule)).task 0).state
      = .ready process := rfl
  obtain ⟨n, -, hended⟩ :=
    hpursued.ends_of_goesOn hfair (hpursued.goesOn hfair hformed) hready
  obtain ⟨outcome, houtcome⟩ := TaskState.exists_eq_ended hended
  exact ⟨n, outcome, by rw [outcome?, houtcome]⟩

/-- In a fair schedule every child of a parallel node comes to an outcome, which it keeps, whether
or not the node takes it in. -/
theorem exists_outcome_of_child {start : Machine} {id : TaskId} (hlinked : start.Linked)
    (hid : id < start.tasks.size) (hlive : (start.task id).state.isEnded = false)
    (policy : Policy) (input : Value) {children : List (Bool × Process)}
    (hformed : ∀ child ∈ children, child.2.Formed true) (next : Outcome → Process)
    {schedule : Nat → Move} (hfair : FairSchedule schedule) {i : Nat} (hi : i < children.length) :
    ∃ t outcome, ∀ u ≥ t,
      ((start.carryOut id (.parallel policy input children next)).pursue
        ((List.range u).map schedule)).outcome? (start.tasks.size + i) = some outcome := by
  have hstarted := hlinked.parallel hlive hid policy input children next
  have hpursued := Pursued.of_pursue schedule hstarted
  have hready := congrArg Task.state
    (task_carryOut_parallel start hid policy input next (List.getElem?_eq_getElem hi))
  obtain ⟨t, -, hended⟩ := hpursued.ends_of_goesOn hfair
    (hpursued.goesOn hfair (hformed _ (List.getElem_mem hi))) (t := 0) hready
  obtain ⟨outcome, houtcome⟩ := TaskState.exists_eq_ended hended
  exact ⟨t, outcome, fun u hu => by rw [outcome?, hpursued.ended_of_le hu houtcome]⟩

end Machine

end BehaviorTree
