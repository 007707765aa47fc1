import BehaviorTree.Proofs.Asking
import BehaviorTree.Proofs.Threading

/-!
# Runs that only read

An action that only reads its scope leaves the variables as they are, so what it is told depends on
nothing but the store. A run of a tree of such actions has one course: the events that it puts out
itself, and its outcome (`Process.course`). It is what becomes of the run in place
(`Process.Reader.inPlace_eq`).
-/

namespace BehaviorTree

/-- Whether a request leaves the variables as they are. -/
def Request.isRead {Handle : Type} : Request Handle → Bool
  | .get _ | .declares _ | .defines _ | .names | .depth => true
  | .set _ _ | .modify _ _ => false

theorem World.ask_of_isRead (world : World) (scope : Scope) {request : Request Unit}
    (h : request.isRead) :
    world.ask scope request = ((world.store.ask scope request).1, world) := by
  have hstore : (world.store.ask scope request).2 = world.store := by
    cases request with
    | set | modify => cases h
    | _ => simp only [Store.ask, Store.perform]
  show ((world.store.ask scope request).1,
    { world with store := (world.store.ask scope request).2 })
    = _
  rw [hstore]

/-- A tree whose actions only read their scopes. -/
def Node.OnlyReads (tree : Node) : Prop :=
  tree.Asks fun request => request.isRead

namespace Process

/-- Work in the background that only reads. -/
inductive Aside : Process → Prop
  | done (outcome : Outcome) : Aside (done outcome)
  | ask (scope : Scope) {request : Request Unit} (hread : request.isRead)
    {next : Option Value → Process} (h : ∀ answer, Aside (next answer)) :
    Aside (ask scope request next)
  | emit {event : Event} (hevent : event.ofAction) {next : Unit → Process} (h : Aside (next ())) :
    Aside (emit event next)
  | sleep (ms : Nat) {next : Unit → Process} (h : Aside (next ())) : Aside (sleep ms next)
  | complete (used : Option Outcome) {next : Unit → Process} (h : Aside (next ())) :
    Aside (complete used next)

/-- A run that only reads, as does the work that it starts. -/
inductive Reader : Process → Prop
  | done (outcome : Outcome) : Reader (done outcome)
  | ask (scope : Scope) {request : Request Unit} (hread : request.isRead)
    {next : Option Value → Process} (h : ∀ answer, Reader (next answer)) :
    Reader (ask scope request next)
  | emit (event : Event) {next : Unit → Process} (h : Reader (next ())) :
    Reader (emit event next)
  | sleep (ms : Nat) {next : Unit → Process} (h : Reader (next ())) : Reader (sleep ms next)
  | start {work : Process} {next : Unit → Process} (hwork : work.Aside) (h : Reader (next ())) :
    Reader (start work next)
  | await {work : Process} {next : Option Outcome → Process} (hwork : work.Aside)
    (h : ∀ used, Reader (next used)) : Reader (await work next)

theorem Reader.bind {process : Process} (h : process.Reader) {f : Outcome → Process}
    (hf : ∀ outcome, (f outcome).Reader) : (process.bind f).Reader := by
  induction h with
  | done outcome => exact hf outcome
  | ask scope hread _ ih => exact .ask scope hread ih
  | emit event _ ih => exact .emit event ih
  | sleep ms _ ih => exact .sleep ms ih
  | start hwork _ ih => exact .start hwork ih
  | await hwork _ ih => exact .await hwork ih

theorem emitAll_reader {next : Unit → Process} (h : (next ()).Reader) :
    ∀ events : List Event, (emitAll events next).Reader
  | [] => h
  | event :: rest => .emit event (emitAll_reader h rest)

theorem panicked_reader (message : String) : (panicked message).Reader :=
  .emit _ (.done _)

theorem settle_reader : ∀ used : Option Outcome, (settle used).Reader
  | some outcome => .done outcome
  | none => .emit _ (.done _)

end Process

namespace Code

variable {α : Type} {P : α → Prop}

theorem inCall_reader {finish : Handle → α → Process} {fail : Handle → String → Process}
    (hfinish : ∀ used result, P result → (finish used result).Reader)
    (hfail : ∀ used message, (fail used message).Reader) (scope : Scope) (code : Code α) :
    code.Asks (fun request => request.isRead) P →
      ∀ used, (code.inCall scope finish fail used).Reader := by
  induction code with
  | done result => exact fun h used => hfinish used result h
  | panic message => exact fun _ used => hfail used message
  | ask request next ih =>
    exact fun h used => .ask scope h.1 fun answer => ih answer (h.2 answer) used
  | put line next ih => exact fun h used => .emit _ (ih () h used)
  | sleep ms next ih => exact fun h used => ih () h used
  | complete outcome next ih => exact fun h used => ih () h _

theorem inPromise_reader {finish : α → Process} {fail : String → Process}
    (hfinish : ∀ result, (finish result).Reader) (hfail : ∀ message, (fail message).Reader)
    (scope : Scope) (code : Code α) :
    code.Asks (fun request => request.isRead) P → (code.inPromise scope finish fail).Reader := by
  induction code with
  | done result => exact fun _ => hfinish result
  | panic message => exact fun _ => hfail message
  | ask request next ih => exact fun h => .ask scope h.1 fun answer => ih answer (h.2 answer)
  | put line next ih => exact fun h => .emit _ (ih () h)
  | sleep ms next ih => exact fun h => .sleep ms (ih () h)
  | complete outcome next ih => exact fun h => ih () h

theorem inBackground_aside (scope : Scope) (code : Code α) :
    code.Asks (fun request => request.isRead) P → (code.inBackground scope).Aside := by
  induction code with
  | done result => exact fun _ => .done _
  | panic message => exact fun _ => .done _
  | ask request next ih => exact fun h => .ask scope h.1 fun answer => ih answer (h.2 answer)
  | put line next ih => exact fun h => .emit rfl (ih () h)
  | sleep ms next ih => exact fun h => .sleep ms (ih () h)
  | complete outcome next ih => exact fun h => .complete outcome (ih () h)

end Code

theorem Action.process_reader {action : Action}
    (h : action.Asks fun request => request.isRead) (scope : Scope)
    (input : Value) : (action.process scope input).Reader := by
  cases action with
  | plain call =>
    exact Code.inCall_reader (fun _ _ _ => .done _) (fun _ => Process.panicked_reader) scope _
      (h input) none
  | boolean call =>
    exact Code.inCall_reader (fun _ _ _ => .done _) (fun _ => Process.panicked_reader) scope _
      (h input) none
  | promise call =>
    exact Code.inPromise_reader (fun _ => .done _) Process.panicked_reader scope _ (h input)
  | callback call =>
    refine Code.inCall_reader (fun used work hwork => ?_) (fun used message => ?_) scope _ (h input)
      none
    · cases work with
      | none => exact Process.settle_reader _
      | some code =>
        have haside := Code.inBackground_aside scope code (hwork code rfl)
        cases used with
        | none => exact .await haside Process.settle_reader
        | some used => exact .start haside (Process.settle_reader used)
    · rcases used with _ | _ | outcome
      · exact Process.panicked_reader message
      · exact Process.panicked_reader message
      · exact .done outcome

namespace Node

theorem traced_reader {trace : Trace} {node : Node} {body : Trace → Process}
    (h : (body (trace.inside node.info)).Reader) : (traced trace node body).Reader :=
  Process.emitAll_reader (h.bind fun outcome => Process.emitAll_reader (.done outcome) _) _

theorem chain_reader (whileSuccess : Bool) (trace : Trace) : ∀ {children : List Node},
    (∀ child ∈ children, ∀ input, (child.process trace input).Reader) →
    ∀ outcome, (chain whileSuccess children trace outcome).Reader
  | [], _, outcome => .done outcome
  | child :: rest, h, outcome => by
    obtain ⟨hchild, hrest⟩ := List.forall_mem_cons.1 h
    rw [chain]
    split
    · exact (hchild _).bind (chain_reader whileSuccess trace hrest)
    · exact .done outcome

/-- A run of a tree without parallel nodes, whose actions only read, only reads. -/
theorem process_reader {tree : Node} (hparallel : tree.NoParallel) (hreads : tree.OnlyReads) :
    ∀ (trace : Trace) (input : Value), (tree.process trace input).Reader := by
  induction tree using Node.induction with
  | step tree ih =>
    intro trace input
    have hchildren : ∀ child ∈ tree.children, ∀ trace input, (child.process trace input).Reader :=
      fun child hchild => ih child hchild (hparallel.child hchild) (hreads.child hchild)
    cases tree with
    | leaf info path action =>
      rw [process]
      have haction : action.Asks fun request => request.isRead := hreads [] info path action rfl
      exact traced_reader (Process.emitAll_reader
        (.emit _ (Action.process_reader haction info.scope input)) _)
    | sequence info children | selector info children =>
      rw [process]
      exact traced_reader (chain_reader _ _ (fun child hchild => hchildren child hchild _) _)
    | parallel info policy children => exact absurd rfl (hparallel [] info policy children)
    | decorator info d child =>
      rw [process]
      exact traced_reader ((hchildren child List.mem_cons_self _ input).bind fun _ => .done _)

end Node

namespace Process

/-- How work in the background first uses its completion handle, if it does. -/
def used (store : Store) : Process → Handle
  | ask scope request next => used store (next (store.ask scope request).1)
  | emit _ next => used store (next ())
  | sleep _ next => used store (next ())
  | complete outcome _ => some outcome
  | _ => none

/-- The events that a run puts out itself, and its outcome. -/
def course (store : Store) : Process → List Event × Outcome
  | done outcome => ([], outcome)
  | ask scope request next => course store (next (store.ask scope request).1)
  | emit event next => (event :: (course store (next ())).1, (course store (next ())).2)
  | sleep _ next => course store (next ())
  | start _ next => course store (next ())
  | await work next => course store (next ((work.used store).getD none))
  | complete _ next => course store (next ())
  | parallel _ _ _ next => course store (next default)

/-- Work in the background leaves nothing behind but lines, and what it made of its handle. -/
theorem Aside.inPlace_eq {work : Process} (h : work.Aside) : ∀ world : World,
    (work.inPlace world).completion = work.used world.store
      ∧ (work.inPlace world).leftovers = []
      ∧ (work.inPlace world).world.store = world.store
      ∧ (work.inPlace world).world.nodeEvents = world.nodeEvents := by
  induction h with
  | done outcome => exact fun world => ⟨rfl, rfl, rfl, rfl⟩
  | ask scope hread _ ih =>
    intro world
    rw [inPlace, world.ask_of_isRead scope hread]
    exact ih _ world
  | @emit event hevent next _ ih =>
    intro world
    have hevents : (world.emit event).nodeEvents = world.nodeEvents := by
      rw [world.nodeEvents_emit, List.filter_cons_of_neg (by simp [hevent])]
      rfl
    obtain ⟨hused, hleft, hstore, hnode⟩ := ih (world.emit event)
    exact ⟨hused, hleft, hstore, hnode.trans hevents⟩
  | sleep ms _ ih => exact ih
  | complete used _ ih =>
    intro world
    obtain ⟨-, hleft, hstore, hnode⟩ := ih world
    exact ⟨rfl, hleft, hstore, hnode⟩

/-- In place a run takes its course, and nothing is left over. -/
theorem Reader.inPlace_eq {process : Process} (h : process.Reader) : ∀ world : World,
    (process.inPlace world).outcome = (process.course world.store).2
      ∧ (process.inPlace world).leftovers = []
      ∧ (process.inPlace world).world.store = world.store
      ∧ (process.inPlace world).world.nodeEvents
        = ((process.course world.store).1.filter (!·.ofAction)).reverse ++ world.nodeEvents := by
  induction h with
  | done outcome => exact fun world => ⟨rfl, rfl, rfl, rfl⟩
  | ask scope hread _ ih =>
    intro world
    rw [inPlace, world.ask_of_isRead scope hread]
    exact ih _ world
  | @emit event next _ ih =>
    intro world
    obtain ⟨houtcome, hleft, hstore, hnode⟩ := ih (world.emit event)
    refine ⟨houtcome, hleft, hstore, hnode.trans ?_⟩
    have hfirst : (event :: (course world.store (next ())).1).filter (!·.ofAction)
        = [event].filter (!·.ofAction)
          ++ (course world.store (next ())).1.filter (!·.ofAction) :=
      List.filter_append [event] _
    rw [course, hfirst, world.nodeEvents_emit, List.reverse_append, List.append_assoc]
    cases event <;> rfl
  | sleep ms _ ih => exact ih
  | @start work next hwork _ ih =>
    intro world
    obtain ⟨-, hleft, hstore, hnode⟩ := hwork.inPlace_eq world
    obtain ⟨houtcome, hleft', hstore', hnode'⟩ := ih (work.inPlace world).world
    rw [hstore] at houtcome hstore' hnode'
    rw [hnode] at hnode'
    refine ⟨houtcome, ?_, hstore', hnode'⟩
    simp [inPlace, InPlace.prepend, hleft, hleft']
  | @await work next hwork _ ih =>
    intro world
    obtain ⟨hused, hleft, hstore, hnode⟩ := hwork.inPlace_eq world
    obtain ⟨houtcome, hleft', hstore', hnode'⟩ :=
      ih ((work.used world.store).getD none) (work.inPlace world).world
    rw [hstore] at houtcome hstore' hnode'
    rw [hnode] at hnode'
    have hplace : (Process.await work next).inPlace world
        = ((next ((work.used world.store).getD none)).inPlace (work.inPlace world).world).prepend
          (work.inPlace world).leftovers := by
      rw [← hused]
      rfl
    rw [hplace]
    refine ⟨houtcome, ?_, hstore', hnode'⟩
    simp [InPlace.prepend, hleft, hleft']

end Process

end BehaviorTree
