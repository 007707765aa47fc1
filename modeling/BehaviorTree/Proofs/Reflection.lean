import BehaviorTree.Proofs.Decision
import BehaviorTree.Process

/-!
# Processes with success and failure exchanged

To reflect a process is to exchange what it does on success with what it does on failure, in
itself and in the parallel children that it starts (`Process.reflect`). Work that it starts besides
reports to it by a handle and keeps its outcomes. Lines of the trace, which name outcomes, are left
out, so that there is also something to be said of a process that is not turned over: with `on`
off, that is all that a reflection does.
-/

namespace BehaviorTree

/-- An outcome, inverted or not. -/
def Outcome.flip (flip : Bool) (outcome : Outcome) : Outcome :=
  if flip then outcome.invert else outcome

@[simp] theorem Outcome.flip_false (outcome : Outcome) : outcome.flip false = outcome :=
  rfl

@[simp] theorem Outcome.flip_true (outcome : Outcome) : outcome.flip true = outcome.invert :=
  rfl

@[simp] theorem Outcome.flip_flip (flip : Bool) (outcome : Outcome) :
    (outcome.flip flip).flip flip = outcome := by
  cases flip <;> simp

/-- The policy with the two thresholds exchanged. -/
def Policy.swap (policy : Policy) : Policy :=
  { policy with maxSuccess := policy.maxFail, maxFail := policy.maxSuccess }

def Policy.reflect (on : Bool) (policy : Policy) : Policy :=
  if on then policy.swap else policy

namespace Tally

/-- The tally of the inverted outcomes. -/
def reflect (on : Bool) (tally : Tally) : Tally :=
  if on then
    { waitingOn := tally.waitingOn
      succeeded := tally.failed
      failed := tally.succeeded
      decision := tally.decision.map Outcome.invert
      last := tally.last.map Outcome.invert }
  else tally

theorem reflect_record (on : Bool) (policy : Policy) (total : Nat) (tally : Tally)
    (waitForMe : Bool) (outcome : Outcome) :
    (tally.record policy total waitForMe outcome).reflect on
      = (tally.reflect on).record (policy.reflect on) total waitForMe (outcome.flip on) := by
  cases on with
  | false => rfl
  | true =>
    cases hd : tally.decision with
    | some decided =>
      have hd' : (tally.reflect true).decision = some decided.invert := by simp [reflect, hd]
      rw [record_of_decision hd, record_of_decision hd']
      simp [reflect, hd]
    | none =>
      have hd' : (tally.reflect true).decision = none := by simp [reflect, hd]
      rw [record_of_none hd, record_of_none hd']
      cases outcome <;>
        simp [reflect, Policy.reflect, Policy.swap, Outcome.isSuccess, Outcome.isFailure,
          Outcome.invert, apply_ite (Option.map Outcome.invert)]

@[simp] theorem settled_reflect (on : Bool) (policy : Policy) (tally : Tally) :
    (tally.reflect on).settled (policy.reflect on) = tally.settled policy := by
  cases on with
  | false => rfl
  | true => simp [settled, reflect, Policy.reflect, Policy.swap]

/-- Once an outcome came in, the result is one of those that did. -/
theorem result_reflect (on : Bool) {tally : Tally} (h : tally.last.isSome) (input : Value) :
    (tally.reflect on).result input = (tally.result input).flip on := by
  obtain ⟨waitingOn, succeeded, failed, decision, last⟩ := tally
  obtain ⟨outcome, rfl⟩ := Option.isSome_iff_exists.1 h
  cases on <;> cases decision <;> rfl

theorem reflect_start (on : Bool) (waitingOn : Nat) :
    ({ waitingOn } : Tally).reflect on = { waitingOn } := by
  cases on <;> rfl

theorem last_record (policy : Policy) (total : Nat) (tally : Tally) (waitForMe : Bool)
    (outcome : Outcome) : (tally.record policy total waitForMe outcome).last = some outcome := by
  cases hd : tally.decision with
  | some decided => rw [record_of_decision hd]
  | none => rw [record_of_none hd]

end Tally

/-- Whether an event is a line of the trace. -/
def Event.isTrace : Event → Bool
  | .trace _ => true
  | _ => false

namespace Process

mutual

/-- A process without the lines of its trace. With `on`, success and failure are exchanged in the
parallel children that it starts, and with `flip` in itself too. -/
def reflect (on : Bool) : Bool → Process → Process
  | flip, done outcome => done (outcome.flip flip)
  | flip, ask scope request next => ask scope request fun answer => reflect on flip (next answer)
  | flip, emit event next =>
    if event.isTrace then reflect on flip (next ())
    else emit event fun u => reflect on flip (next u)
  | flip, sleep ms next => sleep ms fun u => reflect on flip (next u)
  | flip, start work next => start (reflect on false work) fun u => reflect on flip (next u)
  | flip, await work next =>
    await (reflect on false work) fun outcome => reflect on flip (next outcome)
  | flip, complete outcome next => complete outcome fun u => reflect on flip (next u)
  | flip, parallel policy input children next =>
    parallel (policy.reflect on) input (reflectAll on children) fun outcome =>
      reflect on flip (next (outcome.flip on))

def reflectAll (on : Bool) : List (Bool × Process) → List (Bool × Process)
  | [] => []
  | (waitForMe, child) :: rest => (waitForMe, reflect on on child) :: reflectAll on rest

end

theorem map_fst_reflectAll (on : Bool) : ∀ children : List (Bool × Process),
    (reflectAll on children).map (·.1) = children.map (·.1)
  | [] => rfl
  | (waitForMe, child) :: rest => by
    rw [reflectAll, List.map_cons, List.map_cons, map_fst_reflectAll on rest]

@[simp] theorem length_reflectAll (on : Bool) (children : List (Bool × Process)) :
    (reflectAll on children).length = children.length := by
  have h := congrArg List.length (map_fst_reflectAll on children)
  rwa [List.length_map, List.length_map] at h

@[simp] theorem countP_reflectAll (on : Bool) (children : List (Bool × Process)) :
    (reflectAll on children).countP (·.1) = children.countP (·.1) := by
  have h := congrArg (List.countP id) (map_fst_reflectAll on children)
  rwa [List.countP_map, List.countP_map] at h

theorem reflect_bind (on flip through : Bool) (f : Outcome → Process) : ∀ process : Process,
    (process.bind f).reflect on flip
      = (process.reflect on through).bind fun outcome => (f (outcome.flip through)).reflect on flip
  | done outcome => by simp [bind, reflect]
  | ask scope request next => by
    simp only [bind, reflect, reflect_bind on flip through f]
  | emit event next => by
    simp only [bind, reflect, reflect_bind on flip through f]
    split <;> rfl
  | sleep ms next => by simp only [bind, reflect, reflect_bind on flip through f]
  | start work next => by simp only [bind, reflect, reflect_bind on flip through f]
  | await work next => by simp only [bind, reflect, reflect_bind on flip through f]
  | complete outcome next => by simp only [bind, reflect, reflect_bind on flip through f]
  | parallel policy input children next => by
    simp only [bind, reflect, reflect_bind on flip through f]

theorem bind_done : ∀ process : Process, process.bind done = process
  | done outcome => rfl
  | ask scope request next => by simp only [bind, bind_done]
  | emit event next => by simp only [bind, bind_done]
  | sleep ms next => by simp only [bind, bind_done]
  | start work next => by simp only [bind, bind_done]
  | await work next => by simp only [bind, bind_done]
  | complete outcome next => by simp only [bind, bind_done]
  | parallel policy input children next => by simp only [bind, bind_done]

theorem bind_assoc (f g : Outcome → Process) : ∀ process : Process,
    (process.bind f).bind g = process.bind fun outcome => (f outcome).bind g
  | done outcome => rfl
  | ask scope request next => by simp only [bind, bind_assoc f g]
  | emit event next => by simp only [bind, bind_assoc f g]
  | sleep ms next => by simp only [bind, bind_assoc f g]
  | start work next => by simp only [bind, bind_assoc f g]
  | await work next => by simp only [bind, bind_assoc f g]
  | complete outcome next => by simp only [bind, bind_assoc f g]
  | parallel policy input children next => by simp only [bind, bind_assoc f g]

theorem reflect_emitAll (on flip : Bool) (next : Unit → Process) : ∀ lines : List String,
    (emitAll (lines.map .trace) next).reflect on flip = (next ()).reflect on flip
  | [] => rfl
  | line :: rest => by
    have htrace : (Event.trace line).isTrace := rfl
    rw [List.map_cons, emitAll, reflect, if_pos htrace]
    exact reflect_emitAll on flip next rest

/-- A process whose parallel nodes have children. Unless it is `wide` it has no parallel nodes. -/
inductive Formed (wide : Bool) : Process → Prop
  | done (outcome : Outcome) : Formed wide (done outcome)
  | ask (scope : Scope) (request : Request Unit) {next : Option Value → Process}
    (h : ∀ answer, Formed wide (next answer)) : Formed wide (ask scope request next)
  | emit (event : Event) {next : Unit → Process} (h : Formed wide (next ())) :
    Formed wide (emit event next)
  | sleep (ms : Nat) {next : Unit → Process} (h : Formed wide (next ())) :
    Formed wide (sleep ms next)
  | start {work : Process} {next : Unit → Process} (hwork : Formed wide work)
    (h : Formed wide (next ())) : Formed wide (start work next)
  | await {work : Process} {next : Option Outcome → Process} (hwork : Formed wide work)
    (h : ∀ outcome, Formed wide (next outcome)) : Formed wide (await work next)
  | complete (outcome : Option Outcome) {next : Unit → Process} (h : Formed wide (next ())) :
    Formed wide (complete outcome next)
  | parallel (policy : Policy) (input : Value) {children : List (Bool × Process)}
    {next : Outcome → Process} (hwide : wide) (hne : children ≠ [])
    (hchildren : ∀ child ∈ children, Formed wide child.2)
    (h : ∀ outcome, Formed wide (next outcome)) :
    Formed wide (parallel policy input children next)

/-- Where nothing is side by side, nothing but the outcome is turned over. -/
theorem Formed.reflect_eq {process : Process} (h : process.Formed false) (on flip : Bool) :
    process.reflect on flip
      = (process.reflect false false).bind fun outcome => .done (outcome.flip flip) := by
  induction h generalizing flip with
  | done outcome => simp [reflect, bind]
  | ask scope request h ih => simp only [reflect, bind, ih]
  | emit event h ih =>
    simp only [reflect]
    split
    · exact ih flip
    · simp only [bind, ih]
  | sleep ms h ih => simp only [reflect, bind, ih]
  | start hwork h ihwork ih =>
    simp only [reflect, bind, ih flip, ihwork false, Outcome.flip_false, bind_done]
  | await hwork h ihwork ih =>
    simp only [reflect, bind, ih _ flip, ihwork false, Outcome.flip_false, bind_done]
  | complete outcome h ih => simp only [reflect, bind, ih]
  | parallel policy input hwide => cases hwide

theorem Formed.bind {wide : Bool} {process : Process} (h : process.Formed wide)
    {f : Outcome → Process} (hf : ∀ outcome, (f outcome).Formed wide) :
    (process.bind f).Formed wide := by
  induction h with
  | done outcome => exact hf outcome
  | ask scope request h ih => exact .ask scope request ih
  | emit event h ih => exact .emit event ih
  | sleep ms h ih => exact .sleep ms ih
  | start hwork h _ ih => exact .start hwork ih
  | await hwork h _ ih => exact .await hwork ih
  | complete outcome h ih => exact .complete outcome ih
  | parallel policy input hwide hne hchildren h _ ih =>
    exact .parallel policy input hwide hne hchildren ih

theorem emitAll_formed {wide : Bool} {next : Unit → Process} (h : (next ()).Formed wide) :
    ∀ events : List Event, (emitAll events next).Formed wide
  | [] => h
  | event :: rest => .emit event (emitAll_formed h rest)

end Process

/-- Whether an event comes from the code of an action. -/
def Event.ofAction : Event → Bool
  | .line _ | .panicked _ | .handleDropped => true
  | _ => false

/-- What holds of a process that does what an action can do, if it holds of what is left. -/
structure Process.Closed (P : Process → Prop) : Prop where
  done : ∀ outcome, P (.done outcome)
  ask : ∀ scope request {next : Option Value → Process}, (∀ answer, P (next answer)) →
    P (.ask scope request next)
  emit : ∀ event, event.ofAction → ∀ {next : Unit → Process}, P (next ()) → P (.emit event next)
  sleep : ∀ ms {next : Unit → Process}, P (next ()) → P (.sleep ms next)
  start : ∀ {work : Process} {next : Unit → Process}, P work → P (next ()) → P (.start work next)
  await : ∀ {work : Process} {next : Option Outcome → Process}, P work → (∀ used, P (next used)) →
    P (.await work next)
  complete : ∀ used {next : Unit → Process}, P (next ()) → P (.complete used next)

namespace Process.Closed

variable {P : Process → Prop} {α : Type} (hP : Closed P)
include hP

theorem inCall {finish : Handle → α → Process} {fail : Handle → String → Process}
    (hfinish : ∀ used result, P (finish used result))
    (hfail : ∀ used message, P (fail used message)) (scope : Scope) (code : Code α) :
    ∀ used, P (code.inCall scope finish fail used) := by
  induction code with
  | done result => exact fun used => hfinish used result
  | panic message => exact fun used => hfail used message
  | ask request next ih => exact fun used => hP.ask scope request fun answer => ih answer used
  | put line next ih => exact fun used => hP.emit (.line line) rfl (ih () used)
  | sleep ms next ih => exact fun used => ih () used
  | complete outcome next ih => exact fun used => ih () _

theorem inPromise {finish : α → Process} {fail : String → Process}
    (hfinish : ∀ result, P (finish result)) (hfail : ∀ message, P (fail message)) (scope : Scope)
    (code : Code α) : P (code.inPromise scope finish fail) := by
  induction code with
  | done result => exact hfinish result
  | panic message => exact hfail message
  | ask request next ih => exact hP.ask scope request ih
  | put line next ih => exact hP.emit (.line line) rfl (ih ())
  | sleep ms next ih => exact hP.sleep ms (ih ())
  | complete outcome next ih => exact ih ()

theorem inBackground (scope : Scope) (code : Code α) : P (code.inBackground scope) := by
  induction code with
  | done result => exact hP.done _
  | panic message => exact hP.done _
  | ask request next ih => exact hP.ask scope request ih
  | put line next ih => exact hP.emit (.line line) rfl (ih ())
  | sleep ms next ih => exact hP.sleep ms (ih ())
  | complete outcome next ih => exact hP.complete outcome (ih ())

theorem panicked (message : String) : P (.panicked message) :=
  hP.emit (.panicked message) rfl (hP.done _)

theorem settle : ∀ used : Option Outcome, P (.settle used)
  | some outcome => hP.done outcome
  | none => hP.emit .handleDropped rfl (hP.done _)

/-- So it holds of a call of any action. -/
theorem process (scope : Scope) (input : Value) (action : Action) :
    P (action.process scope input) := by
  cases action with
  | plain call => exact hP.inCall (fun _ _ => hP.done _) (fun _ => hP.panicked) scope _ none
  | boolean call => exact hP.inCall (fun _ _ => hP.done _) (fun _ => hP.panicked) scope _ none
  | promise call => exact hP.inPromise (fun _ => hP.done _) hP.panicked scope _
  | callback call =>
    refine hP.inCall (fun used work => ?_) (fun used message => ?_) scope _ none
    · cases work with
      | none => exact hP.settle _
      | some code =>
        cases used with
        | none => exact hP.await (hP.inBackground scope code) hP.settle
        | some used => exact hP.start (hP.inBackground scope code) (hP.settle used)
    · rcases used with _ | _ | outcome
      · exact hP.panicked message
      · exact hP.panicked message
      · exact hP.done outcome

end Process.Closed

theorem Process.formed_closed (wide : Bool) : Closed (Formed wide) where
  done := .done
  ask := .ask
  emit event _ _ := .emit event
  sleep := .sleep
  start := .start
  await := .await
  complete := .complete

theorem Action.process_formed {wide : Bool} (scope : Scope) (input : Value) (action : Action) :
    (action.process scope input).Formed wide :=
  (Process.formed_closed wide).process scope input action

end BehaviorTree
