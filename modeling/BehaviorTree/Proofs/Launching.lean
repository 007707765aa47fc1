import BehaviorTree.Proofs.Attending
import BehaviorTree.Proofs.Fairness

/-!
# Runs side by side that only read

Runs of one tree are launched together, and their tasks take turns in any order, each time for one
thing to do. A move of the machine does to the tasks what is described (`Machine.passes`), so every
run stays on its course (`Machine.OnCourse.passAll`), also in the order of the machine
(`Machine.onCourse_call`), and in a fair schedule it comes to its end. So concurrent runs do not
interfere (`runs_do_not_interfere`).
-/

namespace BehaviorTree

namespace Machine

/-- A machine with processes to run side by side. -/
def launch (processes : List Process) (world : World) : Machine :=
  { tasks := (processes.map fun process => { state := .ready process, called := true }).toArray
    world }

/-- A task does what it has to do next. Every line of the trace is a thing of its own. -/
def tick (machine : Machine) (id : TaskId) : Machine :=
  match (machine.task id).state with
  | .ready (.emit event next) =>
    { machine with world := machine.world.emit event }.setState id (.ready (next ()))
  | _ => machine.step id

def pass (machine : Machine) : Move → Machine
  | .step id => machine.tick id
  | m => machine.move m

/-- What is put out in a move, and by which task. -/
def puts (machine : Machine) : Move → List (TaskId × Event)
  | .step id =>
    match (machine.task id).state with
    | .ready (.emit event _) => [(id, event)]
    | _ => []
  | _ => []

def passAll (machine : Machine) (schedule : List Move) : Machine :=
  schedule.foldl pass machine

/-- All that is put out in a schedule, and by which tasks, in order. -/
def said : Machine → List Move → List (TaskId × Event)
  | _, [] => []
  | machine, m :: rest => machine.puts m ++ (machine.pass m).said rest

def core (machine : Machine) : Core :=
  fun id => ((machine.task id).state, (machine.task id).listener)

section Core

variable (machine : Machine) {id : TaskId}

theorem core_of_size_le (h : machine.tasks.size ≤ id) : machine.core id = (.draining, .nobody) := by
  simp [core, task, Array.getD_eq_getD_getElem?, Array.getElem?_eq_none h]
  exact ⟨rfl, rfl⟩

theorem core_changeTask (hid : id < machine.tasks.size) (f : Task → Task) :
    (machine.changeTask id f).core
      = machine.core.put id (f (machine.task id)).state (f (machine.task id)).listener := by
  funext t
  rw [Core.put, Function.update_apply, core, task_changeTask]
  by_cases ht : t = id
  · subst ht
    rw [if_pos ⟨rfl, hid⟩, if_pos rfl]
  · rw [if_neg fun h => ht h.1.symm, if_neg ht]
    rfl

theorem core_setState (hid : id < machine.tasks.size) (state : TaskState) :
    (machine.setState id state).core = machine.core.becomes id state :=
  machine.core_changeTask hid _

theorem core_wake (id : TaskId) : (machine.wake id).core = machine.core := by
  funext t
  exact Prod.ext (machine.state_wake id t) (machine.listener_wake id t)

theorem core_spawn (state : TaskState) (listener : Listener) :
    (machine.spawn state listener).2.core
      = machine.core.put machine.tasks.size state listener := by
  funext t
  rw [Core.put, Function.update_apply, core, machine.task_spawn_eq]
  split <;> rfl

theorem core_deliver (waiter : TaskId) (used : Option Outcome) :
    (machine.deliver waiter used).core = machine.core.deliver waiter used := by
  have hcore : (machine.core waiter).1 = (machine.task waiter).state := rfl
  unfold deliver Core.deliver
  rw [hcore]
  cases hstate : (machine.task waiter).state with
  | awaiting next =>
    have hid : waiter < machine.tasks.size := lt_size_of_state machine (by simp [hstate])
    simp only []
    rw [core_wake, machine.core_setState hid]
  | _ => rfl

theorem core_complete (hid : id < machine.tasks.size) (used : Option Outcome) :
    (machine.complete id used).core = machine.core.complete id used := by
  have hcore : (machine.core id).2 = (machine.task id).listener := rfl
  unfold complete Core.complete
  rw [hcore]
  cases (machine.task id).listener with
  | handle waiter =>
    simp only []
    rw [core_deliver, machine.core_changeTask hid]
    rfl
  | _ => rfl

theorem core_finish (hid : id < machine.tasks.size) (outcome : Outcome)
    (hbranch : ∀ parent index, (machine.core id).2 ≠ .branch parent index) :
    (machine.finish id outcome).core = machine.core.finish id outcome := by
  have hlistener := machine.listener_setState id id (.ended outcome)
  have hcore : (machine.core id).2 = (machine.task id).listener := rfl
  unfold finish Core.finish
  simp only [hlistener]
  rw [hcore]
  cases hl : (machine.task id).listener with
  | nobody => exact machine.core_setState hid _
  | branch parent index => exact absurd hl (hbranch parent index)
  | handle waiter =>
    simp only []
    rw [core_deliver, machine.core_setState hid]

end Core

end Machine

namespace Machine

variable {machine : Machine} {runs : List Process} {said : List (TaskId × Event)}

theorem deliver_keeps (machine : Machine) (waiter : TaskId) (used : Option Outcome) :
    (machine.deliver waiter used).tasks.size = machine.tasks.size
      ∧ (machine.deliver waiter used).world = machine.world := by
  unfold deliver
  split
  · rename_i next _
    have hwake := resembles_wake (machine.setState waiter (.ready (next used))) waiter
    exact ⟨hwake.size.trans (machine.size_changeTask waiter _), hwake.world⟩
  · exact ⟨rfl, rfl⟩

theorem complete_keeps (machine : Machine) (id : TaskId) (used : Option Outcome) :
    (machine.complete id used).tasks.size = machine.tasks.size
      ∧ (machine.complete id used).world = machine.world := by
  unfold complete
  split
  · obtain ⟨hsize, hworld⟩ := deliver_keeps
      (machine.changeTask id fun task => { task with listener := .nobody }) _ used
    exact ⟨hsize.trans (machine.size_changeTask id _), hworld⟩
  · exact ⟨rfl, rfl⟩

theorem finish_keeps (machine : Machine) {id : TaskId} (outcome : Outcome)
    (hbranch : ∀ parent index, (machine.core id).2 ≠ .branch parent index) :
    (machine.finish id outcome).tasks.size = machine.tasks.size
      ∧ (machine.finish id outcome).world = machine.world := by
  have hlistener := machine.listener_setState id id (.ended outcome)
  unfold finish
  simp only [hlistener]
  split
  · exact ⟨machine.size_changeTask id _, rfl⟩
  · rename_i hbranched
    exact absurd hbranched (hbranch _ _)
  · obtain ⟨hsize, hworld⟩ := deliver_keeps (machine.setState id (.ended outcome)) _ none
    exact ⟨hsize.trans (machine.size_changeTask id _), hworld⟩

/-- What a move of a machine on its course does: to the tasks, and to the world nothing but to put
out events. -/
structure Passes (machine : Machine) (m : Move) : Prop where
  goes : machine.core.Goes machine.world.store machine.tasks.size m (machine.puts m)
    (machine.pass m).tasks.size (machine.pass m).core
  store : (machine.pass m).world.store = machine.world.store
  events : (machine.pass m).world.events
    = ((machine.puts m).map (·.2)).reverse ++ machine.world.events

theorem passes_of_ready (h : machine.core.Sound machine.world.store runs machine.tasks.size said)
    {id : TaskId} {process : Process} (hstate : (machine.task id).state = .ready process) :
    machine.Passes (.step id) := by
  have hid : id < machine.tasks.size := lt_size_of_state machine (by simp [hstate])
  have hhas : (machine.core id).1.Has process := Core.Sound.has_of_ready hstate
  have hsize : ∀ (other : Machine) (state : TaskState),
      (other.setState id state).tasks.size = other.tasks.size := fun other state =>
    other.size_changeTask id _
  cases process with
  | done outcome =>
    have hputs : machine.puts (.step id) = [] := by simp only [puts, hstate]
    have hpass : machine.pass (.step id) = machine.finish id outcome := by
      simp only [pass, tick, step, hstate, stepProcess, carryOut]
    have hbranch : ∀ parent index, (machine.core id).2 ≠ .branch parent index := by
      rcases h.listener id with hl | ⟨waiter, hl⟩ <;> simp [hl]
    obtain ⟨hkeeps, hworld⟩ := finish_keeps machine outcome hbranch
    refine ⟨?_, by rw [hpass, hworld], by rw [hpass, hputs, hworld]; rfl⟩
    rw [hputs, hpass, hkeeps, machine.core_finish hid outcome hbranch]
    exact .done hstate
  | ask scope request next =>
    have hread : request.isRead := by
      rcases h.reader_or_aside hhas with ⟨_, -, -, hreader⟩ | ⟨-, haside⟩
      · cases hreader with | ask _ hread _ => exact hread
      · cases haside with | ask _ hread _ => exact hread
    have hputs : machine.puts (.step id) = [] := by simp only [puts, hstate]
    have hpass : machine.pass (.step id)
        = machine.setState id (.ready (next (machine.world.store.ask scope request).1)) := by
      simp only [pass, tick, step, hstate, stepProcess, machine.world.ask_of_isRead scope hread]
    refine ⟨?_, by rw [hpass]; rfl, by rw [hpass, hputs]; rfl⟩
    rw [hputs, hpass, hsize, machine.core_setState hid]
    exact .ask hstate
  | emit event next =>
    have hputs : machine.puts (.step id) = [(id, event)] := by simp only [puts, hstate]
    have hpass : machine.pass (.step id)
        = { machine with world := machine.world.emit event }.setState id (.ready (next ())) := by
      simp only [pass, tick, hstate]
    have hcore : ({ machine with world := machine.world.emit event }.setState id
        (.ready (next ()))).core = machine.core.becomes id (.ready (next ())) :=
      core_setState { machine with world := machine.world.emit event } hid _
    refine ⟨?_, by rw [hpass]; rfl, by rw [hpass, hputs]; rfl⟩
    rw [hputs, hpass, hsize, hcore]
    exact .emit hstate
  | sleep ms next =>
    have hputs : machine.puts (.step id) = [] := by simp only [puts, hstate]
    have hpass : machine.pass (.step id) = { machine.setState id (.asleep next) with
        timers := addTimer (machine.now + ms) id machine.timers } := by
      simp only [pass, tick, step, hstate, stepProcess, carryOut]
    refine ⟨?_, by rw [hpass]; rfl, by rw [hpass, hputs]; rfl⟩
    have hcore : ({ machine.setState id (.asleep next) with
        timers := addTimer (machine.now + ms) id machine.timers } : Machine).core
        = machine.core.becomes id (.asleep next) := machine.core_setState hid _
    rw [hputs, hpass, hcore]
    exact (hsize machine (.asleep next)).symm ▸ .sleep hstate
  | start work next =>
    have hputs : machine.puts (.step id) = [] := by simp only [puts, hstate]
    have hpass : machine.pass (.step id)
        = (machine.spawn (.ready work) .nobody).2.setState id (.ready (next ())) := by
      simp only [pass, tick, step, hstate, stepProcess]
    have hspawned :
        (machine.spawn (.ready work) .nobody).2.tasks.size = machine.tasks.size + 1 := by
      simp [spawn]
    refine ⟨?_, by rw [hpass]; rfl, by rw [hpass, hputs]; rfl⟩
    rw [hputs, hpass, hsize, core_setState _ (hspawned ▸ Nat.lt_succ_of_lt hid),
      core_spawn, hspawned]
    exact .start hstate
  | await work next =>
    have hputs : machine.puts (.step id) = [] := by simp only [puts, hstate]
    have hpass : machine.pass (.step id)
        = (machine.spawn (.ready work) (.handle id)).2.setState id (.awaiting next) := by
      simp only [pass, tick, step, hstate, stepProcess, carryOut]
    have hspawned : (machine.spawn (.ready work) (.handle id)).2.tasks.size
        = machine.tasks.size + 1 := by
      simp [spawn]
    refine ⟨?_, by rw [hpass]; rfl, by rw [hpass, hputs]; rfl⟩
    rw [hputs, hpass, hsize, core_setState _ (hspawned ▸ Nat.lt_succ_of_lt hid),
      core_spawn, hspawned]
    exact .await hstate
  | complete used next =>
    have hputs : machine.puts (.step id) = [] := by simp only [puts, hstate]
    have hpass : machine.pass (.step id)
        = (machine.complete id used).setState id (.ready (next ())) := by
      simp only [pass, tick, step, hstate, stepProcess]
    obtain ⟨hkeeps, hworld⟩ := machine.complete_keeps id used
    refine ⟨?_, by rw [hpass, ← hworld]; rfl, by rw [hpass, hputs, ← hworld]; rfl⟩
    rw [hputs, hpass, hsize, core_setState _ (hkeeps ▸ hid), core_complete _ hid, hkeeps]
    exact .complete hstate
  | parallel policy input children next =>
    rcases h.reader_or_aside hhas with ⟨_, -, -, hreader⟩ | ⟨-, haside⟩
    · cases hreader
    · cases haside

/-- Every move does what is described. -/
theorem passes (h : machine.core.Sound machine.world.store runs machine.tasks.size said)
    (m : Move) : machine.Passes m := by
  have hjoining : ∀ id join, (machine.task id).state ≠ .joining join := h.ne_joining
  cases m with
  | step id =>
    by_cases hready : ∃ process, (machine.task id).state = .ready process
    · obtain ⟨process, hstate⟩ := hready
      exact passes_of_ready h hstate
    · have hwait : ∀ process, (machine.core id).1 ≠ .ready process := fun process heq =>
        hready ⟨process, heq⟩
      have hputs : machine.puts (.step id) = [] := by
        simp only [puts]
        split
        · rename_i hstate
          exact absurd hstate (hwait _)
        · rfl
      have hpass : machine.pass (.step id) = machine := by
        simp only [pass, tick, step]
        cases hstate : (machine.task id).state with
        | ready process => exact absurd hstate (hwait process)
        | joining join => exact absurd hstate (hjoining id join)
        | _ => rfl
      exact ⟨by rw [hputs, hpass]; exact .wait hwait, by rw [hpass], by rw [hputs, hpass]; rfl⟩
  | rouse id =>
    by_cases hasleep : ∃ next, (machine.task id).state = .asleep next
    · obtain ⟨next, hstate⟩ := hasleep
      have hid : id < machine.tasks.size := lt_size_of_state machine (by simp [hstate])
      have hpass : machine.pass (.rouse id) = (machine.setState id (.ready (next ()))).wake id := by
        simp only [pass, move, rouse, hstate]
      have hwake := resembles_wake (machine.setState id (.ready (next ()))) id
      have hsize := hwake.size.trans (machine.size_changeTask id _)
      refine ⟨?_, by rw [hpass, hwake.world]; rfl, by rw [hpass, hwake.world]; rfl⟩
      rw [hpass, hsize, core_wake, machine.core_setState hid]
      exact .rouse hstate
    · have hstay : ∀ next, (machine.core id).1 ≠ .asleep next := fun next heq =>
        hasleep ⟨next, heq⟩
      have hpass : machine.pass (.rouse id) = machine := by
        simp only [pass, move, rouse]
        cases hstate : (machine.task id).state with
        | asleep next => exact absurd hstate (hstay next)
        | _ => rfl
      exact ⟨by rw [hpass]; exact .stay hstay, by rw [hpass], by rw [hpass]; rfl⟩
  | prefer id k =>
    have hpass : machine.pass (.prefer id k) = machine := by
      simp only [pass, move, prefer]
      cases hstate : (machine.task id).state with
      | joining join => exact absurd hstate (hjoining id join)
      | _ => rfl
    exact ⟨by rw [hpass]; exact .prefer, by rw [hpass], by rw [hpass]; rfl⟩

/-- Runs that were started in a world are on their course: the variables are as they were, and all
that was put out since was said by some task. -/
structure OnCourse (world : World) (runs : List Process) (said : List (TaskId × Event))
    (machine : Machine) : Prop where
  sound : machine.core.Sound world.store runs machine.tasks.size said
  store : machine.world.store = world.store
  events : machine.world.events = (said.map (·.2)).reverse ++ world.events

namespace OnCourse

variable {world : World}

theorem soundHere (h : OnCourse world runs said machine) :
    machine.core.Sound machine.world.store runs machine.tasks.size said :=
  h.store ▸ h.sound

theorem pass (h : OnCourse world runs said machine) (m : Move) :
    OnCourse world runs (said ++ machine.puts m) (machine.pass m) := by
  have hpasses := passes h.soundHere m
  refine ⟨h.sound.goes (h.store ▸ hpasses.goes), hpasses.store.trans h.store, ?_⟩
  rw [hpasses.events, h.events, List.map_append, List.reverse_append, List.append_assoc]

theorem passAll (h : OnCourse world runs said machine) (schedule : List Move) :
    OnCourse world runs (said ++ machine.said schedule) (machine.passAll schedule) := by
  induction schedule generalizing machine said with
  | nil => rwa [Machine.said, List.append_nil]
  | cons m rest ih =>
    rw [Machine.said, ← List.append_assoc]
    exact ih (h.pass m)

theorem congr (h : OnCourse world runs said machine) {other : Machine}
    (hsame : machine.Resembles other)
    (hlistener : ∀ id, (other.task id).listener = (machine.task id).listener) :
    OnCourse world runs said other := by
  have hcore : other.core = machine.core :=
    funext fun id => Prod.ext (hsame.state id) (hlistener id)
  exact ⟨by rw [hcore, hsame.size]; exact h.sound, by rw [hsame.world, h.store],
    by rw [hsame.world, h.events]⟩

/-- A step is a thing to do, or some lines of the trace before one. -/
theorem stepProcess {id : TaskId} : ∀ (process : Process) {machine : Machine}
    {said : List (TaskId × Event)}, OnCourse world runs said machine →
    (machine.task id).state = .ready process →
    ∃ said, OnCourse world runs said (stepProcess id process machine)
  | .emit event next, machine, said, h, hstate => by
    have hid : id < machine.tasks.size := lt_size_of_state machine (by simp [hstate])
    have htick : machine.pass (.step id)
        = { machine with world := machine.world.emit event }.setState id (.ready (next ())) := by
      simp only [Machine.pass, tick, hstate]
    have hpass := htick ▸ h.pass (.step id)
    rw [Machine.stepProcess]
    split
    · have hbusy : (machine.task id).state.Busy := hstate ▸ .ready _
      rw [← stepProcess_setState (.ready (next ())) (next ())
        { machine with world := machine.world.emit event } hid hbusy]
      exact stepProcess (next ()) hpass (state_setState _ hid _)
    · exact ⟨_, hpass⟩
  | .done _, machine, said, h, hstate | .ask _ _ _, machine, said, h, hstate
  | .sleep _ _, machine, said, h, hstate | .start _ _, machine, said, h, hstate
  | .await _ _, machine, said, h, hstate | .complete _ _, machine, said, h, hstate
  | .parallel _ _ _ _, machine, said, h, hstate => by
    have hpass := h.pass (.step id)
    simp only [Machine.pass, tick, step, hstate] at hpass
    exact ⟨_, hpass⟩

theorem invariant (world : World) (runs : List Process) :
    Invariant fun machine => ∃ said, OnCourse world runs said machine := by
  refine ⟨fun {machine} ⟨said, h⟩ m => ?_, fun ⟨said, h⟩ hsame hlistener =>
    ⟨said, h.congr hsame hlistener⟩⟩
  cases m with
  | step id =>
    by_cases hready : ∃ process, (machine.task id).state = .ready process
    · obtain ⟨process, hstate⟩ := hready
      show ∃ said, OnCourse world runs said (machine.step id)
      rw [step, hstate]
      exact h.stepProcess process hstate
    · have htick : machine.pass (.step id) = machine.move (.step id) := by
        show machine.tick id = machine.step id
        unfold tick
        split
        · rename_i hstate
          exact absurd ⟨_, hstate⟩ hready
        · rfl
      exact ⟨_, htick ▸ h.pass (.step id)⟩
  | rouse id => exact ⟨_, h.pass (.rouse id)⟩
  | prefer id k => exact ⟨_, h.pass (.prefer id k)⟩

end OnCourse

theorem core_launch (world : World) {i : TaskId} {process : Process}
    (h : runs[i]? = some process) : (launch runs world).core i = (.ready process, .nobody) := by
  simp [core, launch, task, Array.getD_eq_getD_getElem?, h]

theorem onCourse_launch (world : World) (hreader : ∀ process ∈ runs, process.Reader) :
    OnCourse world runs [] (launch runs world) := by
  have hsize : (launch runs world).tasks.size = runs.length := by simp [launch]
  have hnobody : ∀ id, ((launch runs world).core id).2 = .nobody := fun id => by
    rcases Nat.lt_or_ge id runs.length with hlt | hle
    · rw [core_launch world (List.getElem?_eq_getElem hlt)]
    · rw [core_of_size_le _ (hsize ▸ hle)]
  have hnot : ∀ {waiter holder}, ¬(launch runs world).core.Holds waiter holder :=
    Core.Sound.not_holds_of_nobody (hnobody _)
  refine ⟨?_, rfl, rfl⟩
  rw [hsize]
  refine ⟨Nat.le_refl _, fun id hid => core_of_size_le _ (hsize ▸ hid), fun i process hi => ?_,
    fun id hle hlt => absurd hlt (Nat.not_lt.2 hle), fun id => .inl (hnobody id),
    fun _ _ hholds => absurd hholds hnot, fun _ _ _ hholds => absurd hholds hnot, nofun⟩
  have hhas : ((launch runs world).core i).1.Has process := by
    rw [core_launch world hi]
    exact .ready process
  exact ⟨hnobody i, process, .has hhas, hreader process (List.mem_of_getElem? hi), rfl, rfl⟩

theorem outcome?_eq_some_iff (machine : Machine) {id : TaskId} {outcome : Outcome} :
    machine.outcome? id = some outcome ↔ (machine.core id).1 = .ended outcome := by
  show _ ↔ (machine.task id).state = .ended outcome
  unfold outcome?
  cases (machine.task id).state <;> simp

/-- Runs in the order of the machine. -/
theorem exists_onCourse_call (world : World) (hreader : ∀ process ∈ runs, process.Reader) :
    ∃ said, OnCourse world runs said (call { world } runs).2
      ∧ (call { world } runs).1
        = (List.range runs.length).map (call { world } runs).2.outcome? := by
  have hstart : (launch runs world).Resembles { launch runs world with woken := true } :=
    .of_tasks rfl rfl
  obtain ⟨said, hsaid⟩ := (OnCourse.invariant world runs).advance (List.range runs.length) rounds
    ⟨[], (onCourse_launch world hreader).congr hstart fun _ => rfl⟩
  have hcall : call { world } runs =
      ((List.range runs.length).map (advance (List.range runs.length) rounds
          { launch runs world with woken := true }).outcome?,
        advance (List.range runs.length) rounds { launch runs world with woken := true }) := by
    simp [call, launch, List.range_eq_range']
  rw [hcall]
  exact ⟨said, hsaid, rfl⟩

/-- In a fair schedule all runs come to their end. -/
theorem exists_ended_of_fair (world : World) (hreader : ∀ process ∈ runs, process.Reader)
    {schedule : Nat → Move} (hfair : FairSchedule schedule) :
    ∃ n, ∀ i process, runs[i]? = some process →
      ((launch runs world).passAll ((List.range n).map schedule)).outcome? i
        = some (process.course world.store).2 := by
  have hsucc : ∀ t, (launch runs world).passAll ((List.range (t + 1)).map schedule)
      = ((launch runs world).passAll ((List.range t).map schedule)).pass (schedule t) := fun t => by
    rw [List.range_succ, List.map_append, Machine.passAll, List.foldl_append]
    rfl
  have hcourse : ∀ t, OnCourse world runs _ _ := fun t =>
    (onCourse_launch world hreader).passAll ((List.range t).map schedule)
  have hscheduled : Core.Scheduled world.store runs schedule _ _ _ :=
    ⟨fun t => (hcourse t).sound, fun t => ⟨_, by
      rw [hsucc]
      exact (hcourse t).store ▸ (passes (hcourse t).soundHere (schedule t)).goes⟩⟩
  obtain ⟨n, hn⟩ := hscheduled.exists_all_ended hfair
  exact ⟨n, fun i process hi => (outcome?_eq_some_iff _).2 (hn i process hi)⟩

end Machine

namespace Node

/-- Runs of a tree were started side by side in a world, and since then some tasks have said
something. The variables are as they were. Of the events that a run puts out when it runs alone it
has put out the first, in order; if it has come to an outcome, that is the outcome when it runs
alone, and all the events are out. Other tasks have only put out what actions do. -/
structure HasRunAside (tree : Node) (trace : Trace) (inputs : List Value) (before after : World)
    (said : List (TaskId × Event)) (outcome? : TaskId → Option Outcome) : Prop where
  store : after.store = before.store
  events : after.events = (said.map (·.2)).reverse ++ before.events
  others : ∀ id event, (id, event) ∈ said → inputs.length ≤ id → event.ofAction
  alone : ∀ i input, inputs[i]? = some input →
    let alone := (tree.process trace input).inPlace before
    let own := ((said.filter (·.1 = i)).map (·.2)).filter (!·.ofAction)
    ∃ later, alone.drain.nodeEvents = (own ++ later).reverse ++ before.nodeEvents
      ∧ ∀ outcome, outcome? i = some outcome → outcome = alone.outcome ∧ later = []

theorem hasRunAside_of_onCourse {tree : Node} {trace : Trace} {inputs : List Value}
    {before : World} {said : List (TaskId × Event)} {machine : Machine}
    (hreader : ∀ input, (tree.process trace input).Reader)
    (h : Machine.OnCourse before (inputs.map (tree.process trace ·)) said machine) :
    tree.HasRunAside trace inputs before machine.world said machine.outcome? := by
  refine ⟨h.store, h.events, fun id event hmem hle => h.sound.quiet id event hmem (by simpa), ?_⟩
  intro i input hi
  obtain ⟨-, rest, hleft, -, hevents, houtcome⟩ := h.sound.run i (tree.process trace input)
    (by rw [List.getElem?_map, hi]; rfl)
  obtain ⟨halone, hleftovers, -, hnode⟩ := (hreader input).inPlace_eq before
  refine ⟨(rest.course before.store).1.filter (!·.ofAction), ?_, fun outcome hended => ?_⟩
  · rw [InPlace.drain, hleftovers, List.foldl_nil, hnode, hevents, List.filter_append]
  · have hhas : (machine.core i).1.Has (.done outcome) := by
      rw [(machine.outcome?_eq_some_iff).1 hended]
      exact .ended outcome
    cases hleft with
    | has hhas' =>
      obtain rfl := hhas.unique hhas'
      exact ⟨halone.trans houtcome |>.symm, rfl⟩
    | awaits hawaiting => exact absurd hawaiting (hhas.ne_awaiting _)

end Node

/-- Concurrent runs of a tree without parallel nodes, whose actions only read, do not interfere.
Whatever turns their tasks take, one thing to do at a time, each run has put out the first of the
events that it puts out alone, calls and lines of the trace in their order, and once it has ended
all of them, with the outcome that it has alone. So it is too in the order of the machine, and in
a schedule that leaves out no task for ever all runs come to an end. -/
theorem runs_do_not_interfere (tree : Node) (hparallel : tree.NoParallel)
    (hreads : tree.OnlyReads) (trace : Trace) (inputs : List Value) (world : World) :
    let runs := inputs.map (tree.process trace ·)
    (∀ schedule : List Move,
      let machine := (Machine.launch runs world).passAll schedule
      tree.HasRunAside trace inputs world machine.world ((Machine.launch runs world).said schedule)
        machine.outcome?)
    ∧ (let result := Machine.call { world } runs
      result.1 = (List.range inputs.length).map result.2.outcome?
        ∧ ∃ said, tree.HasRunAside trace inputs world result.2.world said result.2.outcome?)
    ∧ ∀ schedule : Nat → Move, FairSchedule schedule → ∃ n, ∀ i input, inputs[i]? = some input →
      ((Machine.launch runs world).passAll ((List.range n).map schedule)).outcome? i
        = some ((tree.process trace input).inPlace world).outcome := by
  intro runs
  have hreader : ∀ input, (tree.process trace input).Reader :=
    Node.process_reader hparallel hreads trace
  have hreaders : ∀ process ∈ runs, process.Reader := fun process hmem => by
    obtain ⟨input, -, rfl⟩ := List.mem_map.1 hmem
    exact hreader input
  refine ⟨fun schedule => ?_, ?_, fun schedule hfair => ?_⟩
  · exact Node.hasRunAside_of_onCourse hreader
      ((Machine.onCourse_launch world hreaders).passAll schedule)
  · obtain ⟨said, hcourse, hresult⟩ := Machine.exists_onCourse_call world hreaders
    exact ⟨by rw [hresult, List.length_map], said, Node.hasRunAside_of_onCourse hreader hcourse⟩
  · obtain ⟨n, hn⟩ := Machine.exists_ended_of_fair world hreaders hfair
    refine ⟨n, fun i input hi => ?_⟩
    rw [hn i (tree.process trace input) (by rw [List.getElem?_map, hi]; rfl),
      ((hreader input).inPlace_eq world).1]

/-- Two runs of a sequence of two leaves that read a variable. -/
theorem runs_do_not_interfere_of_two :
    let info : NodeInfo :=
      { title := none, debug := none, waitForMe := false, convention := .plain, scope := ⟨0, []⟩ }
    let leaf := Node.leaf info none
      (.plain fun v => .ask (.get ⟨"x", []⟩) fun answer => .done (.ok (answer.getD v)))
    let tree := Node.sequence info [leaf, leaf]
    let trace : Trace := { enabled := true, indent := 2 }
    let start := Machine.launch ([.bool true, .null].map (tree.process trace ·)) {}
    tree.NoParallel ∧ tree.OnlyReads ∧ FairSchedule comeBack
      ∧ ∃ n, let schedule := (List.range n).map comeBack
        (start.passAll schedule).outcome? 0 = some (.success (.bool true))
          ∧ (start.passAll schedule).outcome? 1 = some (.success .null)
          ∧ tree.HasRunAside trace [.bool true, .null] {} (start.passAll schedule).world
            (start.said schedule) (start.passAll schedule).outcome? := by
  intro info leaf tree trace start
  have hparallel : tree.NoParallel := by
    rintro (_ | ⟨_ | _ | i, _ | ⟨j, rest⟩⟩) info policy children h <;>
      simp [Node.at?, tree, leaf, Node.children] at h
  have hreads : tree.OnlyReads := by
    rintro (_ | ⟨_ | _ | i, _ | ⟨j, rest⟩⟩) info path action h <;>
      simp [Node.at?, tree, leaf, Node.children] at h
    all_goals
      obtain ⟨-, -, rfl⟩ := h
      exact fun _ => ⟨rfl, fun _ => trivial⟩
  obtain ⟨hany, -, hall⟩ :=
    runs_do_not_interfere tree hparallel hreads trace [.bool true, .null] {}
  obtain ⟨n, hn⟩ := hall comeBack comeBack_fair
  exact ⟨hparallel, hreads, comeBack_fair, n, hn 0 _ rfl, hn 1 _ rfl, hany _⟩

end BehaviorTree
