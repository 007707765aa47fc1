import BehaviorTree.Proofs.Reflection
import BehaviorTree.Proofs.Simulation

/-!
# What a process does and is told

A process does one thing after another and goes on with what it is told in answer. Whatever it is
told, by whatever carries it out, it comes along the way of its exchanges (`Process.Comes`), and a
process that goes on with the outcome of another has first the exchanges of that other and then its
own (`Process.ends_bind`). In place a process has the exchanges that its world makes of it
(`Process.ends_exchanges`); if there is nothing parallel in it, it puts out what nodes do itself,
and the work that it starts does not (`Process.Solo.nodeEvents_inPlace`).
-/

namespace BehaviorTree

/-- Actions write no lines of the trace. -/
theorem Event.isTrace_eq_false {event : Event} (h : event.ofAction) : event.isTrace = false := by
  cases event with
  | trace text => cases h
  | _ => rfl

/-- What nodes put out so far, latest first. -/
def World.nodeEvents (world : World) : List Event :=
  world.events.filter (!·.ofAction)

theorem World.nodeEvents_emit (world : World) (event : Event) :
    (world.emit event).nodeEvents = ([event].filter (!·.ofAction)) ++ world.nodeEvents := by
  rw [nodeEvents, nodeEvents, ← List.filter_append]
  rfl

theorem World.filter_isCall_nodeEvents (world : World) :
    world.nodeEvents.filter Event.isCall = world.calls := by
  unfold nodeEvents calls
  rw [List.filter_filter]
  refine List.filter_congr fun event _ => ?_
  cases event <;> rfl

/-- One thing that a process does, with what it is told in answer. -/
inductive Exchange where
  | ask (scope : Scope) (request : Request Unit) (answer : Option Value)
  | emit (event : Event)
  | sleep (milliseconds : Nat)
  | start (work : Process)
  | await (work : Process) (used : Option Outcome)
  | complete (outcome : Option Outcome)
  | parallel (policy : Policy) (input : Value) (children : List (Bool × Process))
      (outcome : Outcome)

namespace Exchange

/-- The event that is put out. -/
def event? : Exchange → Option Event
  | emit event => some event
  | _ => none

/-- Whether a line of the trace is put out. -/
def isTrace (x : Exchange) : Bool :=
  x.event?.any Event.isTrace

/-- What nodes put out in some exchanges. -/
def nodeEvents (xs : List Exchange) : List Event :=
  (xs.filterMap event?).filter (!·.ofAction)

@[simp] theorem nodeEvents_append (xs ys : List Exchange) :
    nodeEvents (xs ++ ys) = nodeEvents xs ++ nodeEvents ys := by
  simp [nodeEvents]

theorem nodeEvents_cons (x : Exchange) (xs : List Exchange) :
    nodeEvents (x :: xs) = nodeEvents [x] ++ nodeEvents xs :=
  nodeEvents_append [x] xs

/-- The calls of leaves in some exchanges. -/
def calls (xs : List Exchange) : List Event :=
  (nodeEvents xs).filter Event.isCall

theorem calls_append (xs ys : List Exchange) : calls (xs ++ ys) = calls xs ++ calls ys := by
  simp [calls]

/-- Lines of the trace are no calls. -/
theorem calls_filter (xs : List Exchange) : calls (xs.filter (!·.isTrace)) = calls xs := by
  induction xs with
  | nil => rfl
  | cons x xs ih =>
    have hcons : calls (x :: xs) = calls [x] ++ calls xs := calls_append [x] xs
    rw [hcons, ← ih]
    cases x with
    | emit event => cases event <;> rfl
    | _ => rfl

end Exchange

namespace Process

/-- What is left of a process after an exchange. -/
inductive Meets : Process → Exchange → Process → Prop
  | ask (scope : Scope) (request : Request Unit) (next : Option Value → Process)
    (answer : Option Value) :
    Meets (ask scope request next) (.ask scope request answer) (next answer)
  | emit (event : Event) (next : Unit → Process) : Meets (emit event next) (.emit event) (next ())
  | sleep (ms : Nat) (next : Unit → Process) : Meets (sleep ms next) (.sleep ms) (next ())
  | start (work : Process) (next : Unit → Process) :
    Meets (start work next) (.start work) (next ())
  | await (work : Process) (next : Option Outcome → Process) (used : Option Outcome) :
    Meets (await work next) (.await work used) (next used)
  | complete (outcome : Option Outcome) (next : Unit → Process) :
    Meets (complete outcome next) (.complete outcome) (next ())
  | parallel (policy : Policy) (input : Value) (children : List (Bool × Process))
    (next : Outcome → Process) (outcome : Outcome) :
    Meets (parallel policy input children next) (.parallel policy input children outcome)
      (next outcome)

/-- What is left of a process after some exchanges. -/
inductive Comes : Process → List Exchange → Process → Prop
  | here (process : Process) : Comes process [] process
  | step {process between last : Process} {x : Exchange} {xs : List Exchange}
    (hx : process.Meets x between) (hxs : between.Comes xs last) : Comes process (x :: xs) last

/-- A process ends with an outcome after some exchanges. -/
def Ends (process : Process) (xs : List Exchange) (outcome : Outcome) : Prop :=
  process.Comes xs (done outcome)

theorem Comes.trans {first between last : Process} {xs ys : List Exchange}
    (h : first.Comes xs between) (h' : between.Comes ys last) : first.Comes (xs ++ ys) last := by
  induction h with
  | here => exact h'
  | step hx _ ih => exact .step hx (ih h')

theorem Comes.snoc {first between last : Process} {xs : List Exchange} {x : Exchange}
    (h : first.Comes xs between) (hx : between.Meets x last) : first.Comes (xs ++ [x]) last :=
  h.trans (.step hx (.here last))

/-- Whatever is left of a process, it can come to an end. -/
theorem exists_ends : ∀ process : Process, ∃ xs outcome, process.Ends xs outcome
  | done outcome => ⟨[], outcome, .here _⟩
  | ask scope request next => by
    obtain ⟨xs, outcome, h⟩ := exists_ends (next none)
    exact ⟨_, outcome, .step (.ask scope request next none) h⟩
  | emit event next => by
    obtain ⟨xs, outcome, h⟩ := exists_ends (next ())
    exact ⟨_, outcome, .step (.emit event next) h⟩
  | sleep ms next => by
    obtain ⟨xs, outcome, h⟩ := exists_ends (next ())
    exact ⟨_, outcome, .step (.sleep ms next) h⟩
  | start work next => by
    obtain ⟨xs, outcome, h⟩ := exists_ends (next ())
    exact ⟨_, outcome, .step (.start work next) h⟩
  | await work next => by
    obtain ⟨xs, outcome, h⟩ := exists_ends (next none)
    exact ⟨_, outcome, .step (.await work next none) h⟩
  | complete used next => by
    obtain ⟨xs, outcome, h⟩ := exists_ends (next ())
    exact ⟨_, outcome, .step (.complete used next) h⟩
  | parallel policy input children next => by
    obtain ⟨xs, outcome, h⟩ := exists_ends (next default)
    exact ⟨_, outcome, .step (.parallel policy input children next default) h⟩

/-- A process that has not come to its end is the beginning of one that does. -/
theorem exists_ends_of_ended {rest : Process} {outcome? : Option Outcome}
    (h : ∀ outcome, outcome? = some outcome → rest = done outcome) :
    ∃ more outcome, rest.Ends more outcome
      ∧ ∀ ended, outcome? = some ended → ended = outcome ∧ more = [] := by
  cases outcome? with
  | none =>
    obtain ⟨more, outcome, hmore⟩ := rest.exists_ends
    exact ⟨more, outcome, hmore, nofun⟩
  | some ended =>
    obtain rfl := h ended rfl
    exact ⟨[], ended, .here _, fun _ heq => ⟨(Option.some.inj heq).symm, rfl⟩⟩

/-- An exchange of a process that goes on with the outcome of another is one of the other, unless
the other has ended. -/
theorem meets_bind {f : Outcome → Process} {process last : Process} {x : Exchange}
    (h : (process.bind f).Meets x last) :
    (∃ outcome, process = done outcome) ∨ ∃ rest, process.Meets x rest ∧ last = rest.bind f := by
  cases process with
  | done outcome => exact .inl ⟨outcome, rfl⟩
  | ask scope request next => cases h; exact .inr ⟨_, .ask scope request next _, rfl⟩
  | emit event next => cases h; exact .inr ⟨_, .emit event next, rfl⟩
  | sleep ms next => cases h; exact .inr ⟨_, .sleep ms next, rfl⟩
  | start work next => cases h; exact .inr ⟨_, .start work next, rfl⟩
  | await work next => cases h; exact .inr ⟨_, .await work next _, rfl⟩
  | complete used next => cases h; exact .inr ⟨_, .complete used next, rfl⟩
  | parallel policy input children next =>
    cases h
    exact .inr ⟨_, .parallel policy input children next _, rfl⟩

theorem ends_bind {f : Outcome → Process} {outcome : Outcome} : ∀ {xs : List Exchange}
    {process : Process}, (process.bind f).Ends xs outcome →
    ∃ ys between zs, xs = ys ++ zs ∧ process.Ends ys between ∧ (f between).Ends zs outcome
  | xs, done between, h => ⟨[], between, xs, rfl, .here _, h⟩
  | [], process, h => by
    cases process with
    | done between => exact ⟨[], between, [], rfl, .here _, h⟩
    | _ => cases h
  | x :: xs, process, h => by
    cases h with
    | step hx hxs =>
      rcases meets_bind hx with ⟨between, rfl⟩ | ⟨rest, hmeets, rfl⟩
      · exact ⟨[], between, x :: xs, rfl, .here _, .step hx hxs⟩
      · obtain ⟨ys, between, zs, rfl, hys, hzs⟩ := ends_bind hxs
        exact ⟨x :: ys, between, zs, rfl, .step hmeets hys, hzs⟩

theorem ends_done {outcome outcome' : Outcome} {xs : List Exchange}
    (h : (done outcome).Ends xs outcome') : xs = [] ∧ outcome' = outcome := by
  cases h with
  | here => exact ⟨rfl, rfl⟩
  | step hx => cases hx

theorem ends_emit {event : Event} {next : Unit → Process} {xs : List Exchange} {outcome : Outcome}
    (h : (emit event next).Ends xs outcome) :
    ∃ ys, xs = .emit event :: ys ∧ (next ()).Ends ys outcome := by
  cases h with
  | step hx hxs =>
    cases hx
    exact ⟨_, rfl, hxs⟩

theorem ends_emitAll {next : Unit → Process} {outcome : Outcome} : ∀ {events : List Event}
    {xs : List Exchange}, (emitAll events next).Ends xs outcome →
    ∃ ys, xs = events.map .emit ++ ys ∧ (next ()).Ends ys outcome
  | [], xs, h => ⟨xs, rfl, h⟩
  | event :: events, xs, h => by
    obtain ⟨ys, rfl, hys⟩ := ends_emit h
    obtain ⟨zs, rfl, hzs⟩ := ends_emitAll hys
    exact ⟨zs, rfl, hzs⟩

end Process

namespace Process

/-- A process with nothing parallel in it, whose own events are of some kind; the work that it
starts puts out what code of an action does. -/
inductive Solo : (Event → Bool) → Process → Prop
  | done {own : Event → Bool} (outcome : Outcome) : Solo own (done outcome)
  | ask {own : Event → Bool} (scope : Scope) (request : Request Unit)
    {next : Option Value → Process} (h : ∀ answer, Solo own (next answer)) :
    Solo own (ask scope request next)
  | emit {own : Event → Bool} {event : Event} (hevent : own event) {next : Unit → Process}
    (h : Solo own (next ())) : Solo own (emit event next)
  | sleep {own : Event → Bool} (ms : Nat) {next : Unit → Process} (h : Solo own (next ())) :
    Solo own (sleep ms next)
  | start {own : Event → Bool} {work : Process} {next : Unit → Process}
    (hwork : Solo Event.ofAction work) (h : Solo own (next ())) :
    Solo own (start work next)
  | await {own : Event → Bool} {work : Process} {next : Option Outcome → Process}
    (hwork : Solo Event.ofAction work) (h : ∀ used, Solo own (next used)) :
    Solo own (await work next)
  | complete {own : Event → Bool} (used : Option Outcome) {next : Unit → Process}
    (h : Solo own (next ())) : Solo own (complete used next)

theorem Solo.meets {own : Event → Bool} {process rest : Process} {x : Exchange}
    (h : process.Solo own) (hx : process.Meets x rest) :
    rest.Solo own ∧ ∀ event ∈ x.event?, own event := by
  cases hx with
  | ask scope request next answer => cases h with | ask _ _ h => exact ⟨h answer, nofun⟩
  | emit event next =>
    cases h with
    | emit hevent h => exact ⟨h, fun e he => Option.some.inj he ▸ hevent⟩
  | sleep ms next => cases h with | sleep _ h => exact ⟨h, nofun⟩
  | start work next => cases h with | start _ h => exact ⟨h, nofun⟩
  | await work next used => cases h with | await _ h => exact ⟨h used, nofun⟩
  | complete used next => cases h with | complete _ h => exact ⟨h, nofun⟩
  | parallel => cases h

theorem Solo.comes {own : Event → Bool} {process rest : Process} {xs : List Exchange}
    (h : process.Solo own) (hxs : process.Comes xs rest) :
    rest.Solo own ∧ ∀ x ∈ xs, ∀ event ∈ x.event?, own event := by
  induction hxs with
  | here => exact ⟨h, nofun⟩
  | step hx _ ih =>
    obtain ⟨hbetween, hevent⟩ := h.meets hx
    obtain ⟨hrest, hevents⟩ := ih hbetween
    exact ⟨hrest, List.forall_mem_cons.2 ⟨hevent, hevents⟩⟩

/-- A process with nothing parallel in it. -/
abbrev Lone (process : Process) : Prop :=
  process.Solo fun _ => true

/-- A process that puts out what code of an action does. -/
abbrev Acts (process : Process) : Prop :=
  process.Solo Event.ofAction

theorem Acts.nodeEvents_eq_nil {process rest : Process} {xs : List Exchange} (h : process.Acts)
    (hxs : process.Comes xs rest) : Exchange.nodeEvents xs = [] := by
  refine List.filter_eq_nil_iff.2 fun event hevent => ?_
  obtain ⟨x, hx, heq⟩ := List.mem_filterMap.1 hevent
  simp [(h.comes hxs).2 x hx event heq]

theorem Solo.bind {own : Event → Bool} {process : Process} (h : process.Solo own)
    {f : Outcome → Process} (hf : ∀ outcome, (f outcome).Solo own) :
    (process.bind f).Solo own := by
  induction h with
  | done outcome => exact hf outcome
  | ask scope request _ ih => exact .ask scope request fun answer => ih answer hf
  | emit hevent _ ih => exact .emit hevent (ih hf)
  | sleep ms _ ih => exact .sleep ms (ih hf)
  | start hwork _ _ ih => exact .start hwork (ih hf)
  | await hwork _ _ ih => exact .await hwork fun used => ih used hf
  | complete used _ ih => exact .complete used (ih hf)

theorem emitAll_solo {own : Event → Bool} {next : Unit → Process} (h : (next ()).Solo own) :
    ∀ {events : List Event}, (∀ event ∈ events, own event) → (emitAll events next).Solo own
  | [], _ => h
  | event :: _, hown =>
    .emit (hown event List.mem_cons_self)
      (emitAll_solo h fun e he => hown e (List.mem_cons_of_mem event he))

/-- The exchanges that a process has in place. -/
def exchanges : Process → World → List Exchange
  | done _, _ => []
  | ask scope request next, world =>
    let (answer, world) := world.ask scope request
    .ask scope request answer :: exchanges (next answer) world
  | emit event next, world => .emit event :: exchanges (next ()) (world.emit event)
  | sleep ms next, world => .sleep ms :: exchanges (next ()) world
  | start work next, world => .start work :: exchanges (next ()) (work.inPlace world).world
  | await work next, world =>
    let result := work.inPlace world
    let used := result.completion.getD none
    .await work used :: exchanges (next used) result.world
  | complete used next, world => .complete used :: exchanges (next ()) world
  | parallel policy input children next, world =>
    let start : Tally := { waitingOn := children.countP (·.1) }
    let (tally, _, world) := branchesInPlace policy children.length start children world
    let outcome := tally.result input
    .parallel policy input children outcome :: exchanges (next outcome) world

theorem ends_exchanges : ∀ (process : Process) (world : World),
    process.Ends (process.exchanges world) (process.inPlace world).outcome
  | done _, _ => .here _
  | ask scope request next, _ => .step (.ask scope request next _) (ends_exchanges (next _) _)
  | emit event next, _ => .step (.emit event next) (ends_exchanges (next ()) _)
  | sleep ms next, _ => .step (.sleep ms next) (ends_exchanges (next ()) _)
  | start work next, _ => .step (.start work next) (ends_exchanges (next ()) _)
  | await work next, _ => .step (.await work next _) (ends_exchanges (next _) _)
  | complete used next, _ => .step (.complete used next) (ends_exchanges (next ()) _)
  | parallel policy input children next, _ =>
    .step (.parallel policy input children next _) (ends_exchanges (next _) _)

/-- Work in the background puts out no events of nodes, so these are all the process's own. -/
theorem Solo.nodeEvents_inPlace {own : Event → Bool} {process : Process} (h : process.Solo own) :
    ∀ world : World, (process.inPlace world).world.nodeEvents
      = (Exchange.nodeEvents (process.exchanges world)).reverse ++ world.nodeEvents := by
  induction h with
  | done outcome => exact fun world => rfl
  | ask scope request _ ih => exact fun world => ih _ _
  | @emit own event _ next _ ih =>
    intro world
    rw [exchanges, Exchange.nodeEvents_cons, List.reverse_append, List.append_assoc]
    refine (ih (world.emit event)).trans (congrArg _ ?_)
    rw [world.nodeEvents_emit]
    cases event <;> rfl
  | sleep ms _ ih => exact ih
  | @start own work next hwork _ ihwork ih =>
    intro world
    have hquiet := ihwork world
    rw [Acts.nodeEvents_eq_nil hwork (ends_exchanges work world)] at hquiet
    exact (ih (work.inPlace world).world).trans (congrArg _ hquiet)
  | @await own work next hwork _ ihwork ih =>
    intro world
    have hquiet := ihwork world
    rw [Acts.nodeEvents_eq_nil hwork (ends_exchanges work world)] at hquiet
    exact (ih _ (work.inPlace world).world).trans (congrArg _ hquiet)
  | complete used _ ih => exact ih

/-- Nothing is left over where nothing is side by side. -/
theorem Solo.leftovers_inPlace {own : Event → Bool} {process : Process} (h : process.Solo own) :
    ∀ world : World, (process.inPlace world).leftovers = [] := by
  induction h with
  | done outcome => exact fun world => rfl
  | ask scope request _ ih => exact fun world => ih _ _
  | emit _ _ ih => exact fun world => ih _
  | sleep ms _ ih => exact ih
  | start _ _ ihwork ih =>
    intro world
    simp [inPlace, InPlace.prepend, ih, ihwork world]
  | await _ _ ihwork ih =>
    intro world
    simp [inPlace, InPlace.prepend, ih, ihwork world]
  | complete used _ ih => exact ih

theorem Solo.drain_inPlace {own : Event → Bool} {process : Process} (h : process.Solo own)
    (world : World) : (process.inPlace world).drain = (process.inPlace world).world := by
  rw [InPlace.drain, h.leftovers_inPlace world]
  rfl

theorem Solo.imp {own own' : Event → Bool} {process : Process} (h : process.Solo own)
    (himp : ∀ event, own event → own' event) : process.Solo own' := by
  induction h with
  | done outcome => exact .done outcome
  | ask scope request _ ih => exact .ask scope request fun answer => ih answer himp
  | emit hevent _ ih => exact .emit (himp _ hevent) (ih himp)
  | sleep ms _ ih => exact .sleep ms (ih himp)
  | start hwork _ _ ih => exact .start hwork (ih himp)
  | await hwork _ _ ih => exact .await hwork fun used => ih used himp
  | complete used _ ih => exact .complete used (ih himp)

end Process

theorem Process.acts_closed : Process.Closed Process.Acts where
  done := .done
  ask := .ask
  emit _ hevent _ := .emit hevent
  sleep := .sleep
  start := .start
  await := .await
  complete := .complete

/-- A call of an action puts out nothing that a node does. -/
theorem Action.process_acts (scope : Scope) (input : Value) (action : Action) :
    (action.process scope input).Acts :=
  Process.acts_closed.process scope input action

end BehaviorTree
