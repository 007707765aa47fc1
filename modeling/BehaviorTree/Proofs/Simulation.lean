import BehaviorTree.Proofs.Scoping
import BehaviorTree.Run.InPlace

/-!
# A tree does what its definition means

Run in place, a tree that renders a definition without parallel nodes does what carrying out the
definition does (`Rendering.process_simulates`): the same outcome, the same calls, and in the
frames the same variables. This holds of the code of an action (`inCall_inPlace`), of a call
(`process_endsWith`), of children one after the other (`chain_simulates`), and so of every node.
-/

namespace BehaviorTree

/-- Whether an event is the call of a leaf. -/
def Event.isCall : Event → Bool
  | .call _ _ _ => true
  | _ => false

theorem Event.not_isCall_of_mem (lines : List String) :
    ∀ event ∈ lines.map Event.trace, event.isCall = false := by
  intro event hevent
  obtain ⟨line, -, rfl⟩ := List.mem_map.1 hevent
  rfl

/-- The calls of leaves so far, latest first. -/
def World.calls (world : World) : List Event :=
  world.events.filter Event.isCall

theorem World.calls_emit {world : World} {event : Event} (h : event.isCall = false) :
    (world.emit event).calls = world.calls := by
  simp [World.calls, World.emit, h]

/-- A result, and after it what a process with its outcome gives. -/
def InPlace.andThen (result : InPlace) (f : Outcome → Process) : InPlace :=
  let later := (f result.outcome).inPlace result.world
  { later with
    completion := result.completion.or later.completion
    leftovers := result.leftovers ++ later.leftovers }

theorem Process.inPlace_bind (f : Outcome → Process) : ∀ (process : Process) (world : World),
    (process.bind f).inPlace world = (process.inPlace world).andThen f
  | .done outcome, world => by simp [bind, inPlace, InPlace.andThen]
  | .ask scope request next, world => by
    rw [bind, inPlace, inPlace]
    exact inPlace_bind f _ _
  | .emit event next, world => by
    rw [bind, inPlace, inPlace]
    exact inPlace_bind f _ _
  | .sleep ms next, world => by
    rw [bind, inPlace, inPlace]
    exact inPlace_bind f _ _
  | .start work next, world => by
    simp [bind, inPlace, inPlace_bind f, InPlace.andThen, InPlace.prepend]
  | .await work next, world => by
    simp [bind, inPlace, inPlace_bind f, InPlace.andThen, InPlace.prepend]
  | .complete outcome next, world => by
    simp [bind, inPlace, inPlace_bind f, InPlace.andThen, InPlace.completedBefore]
  | .parallel policy input children next, world => by
    simp [bind, inPlace, inPlace_bind f, InPlace.andThen, InPlace.prepend]

theorem Process.inPlace_bind_of_eq {process : Process} {world world' : World} {outcome : Outcome}
    (h : process.inPlace world = { outcome, world := world' }) (f : Outcome → Process) :
    (process.bind f).inPlace world = (f outcome).inPlace world' := by
  rw [inPlace_bind, h]
  simp [InPlace.andThen]

theorem Process.inPlace_emitAll {next : Unit → Process} : ∀ {events : List Event} {world : World},
    (∀ event ∈ events, event.isCall = false) →
    ∃ world', (emitAll events next).inPlace world = (next ()).inPlace world'
      ∧ world'.store = world.store ∧ world'.calls = world.calls
  | [], world, _ => ⟨world, rfl, rfl, rfl⟩
  | event :: events, world, h => by
    obtain ⟨world', heq, hstore, hcalls⟩ :=
      inPlace_emitAll fun e he => h e (List.mem_cons_of_mem _ he)
    exact ⟨world', heq, hstore,
      hcalls.trans (World.calls_emit (h event List.mem_cons_self))⟩

/-- How a call goes on once its code has ended. -/
def Played.next {α : Type} (played : Played α) (finish : Handle → α → Process)
    (fail : Handle → String → Process) (used : Handle) : Process :=
  match played.ending with
  | .ok result => finish (used.or played.handle) result
  | .error message => fail (used.or played.handle) message

/-- The event of a call at a position. -/
def Node.callEvent? (tree : Node) (call : List Nat × Value) : Option Event :=
  match tree.at? call.1 with
  | some (.leaf info path _) => some (.call info.scope path call.2)
  | _ => none

namespace Rendering

variable {r : Rendering} {view : View} {scope : Scope} {α : Type}

/-- A leaf's request is answered as it should be, and is no event. -/
theorem ask_eq (hfaithful : r.Faithful) (hsees : r.Sees view scope) (request : Request Unit)
    {world : World} {vars : Variables} (h : r.Matches world.store vars) :
    ∃ world', world.ask scope request = ((view.perform request vars).1, world')
      ∧ r.Matches world'.store (view.perform request vars).2 ∧ world'.calls = world.calls := by
  obtain ⟨hanswer, hmatches⟩ := h.perform_eq hfaithful hsees request
  refine ⟨(world.ask scope request).2, ?_, hmatches, rfl⟩
  rw [← hanswer]
  rfl

/-- Code during a call comes to its end with the variables that it should. -/
theorem inCall_inPlace (hfaithful : r.Faithful) (hsees : r.Sees view scope)
    (finish : Handle → α → Process) (fail : Handle → String → Process) (code : Code α) :
    ∀ (used : Handle) {world : World} {vars : Variables}, r.Matches world.store vars →
    ∃ world', (code.inCall scope finish fail used).inPlace world
        = ((code.play view vars).next finish fail used).inPlace world'
      ∧ r.Matches world'.store (code.play view vars).vars ∧ world'.calls = world.calls := by
  induction code with
  | done result =>
    intro used world vars h
    exact ⟨world, by simp [Code.inCall, Code.play, Played.next], h, rfl⟩
  | panic message =>
    intro used world vars h
    exact ⟨world, by simp [Code.inCall, Code.play, Played.next], h, rfl⟩
  | ask request next ih =>
    intro used world vars h
    obtain ⟨between, hask, hbetween, hsame⟩ := ask_eq hfaithful hsees request h
    obtain ⟨world', heq, hmatches, hcalls⟩ := ih (view.perform request vars).1 used hbetween
    refine ⟨world', ?_, hmatches, hcalls.trans hsame⟩
    rw [Code.inCall, Process.inPlace, hask]
    exact heq
  | put line next ih =>
    intro used world vars h
    have hline : r.Matches (world.emit (.line line)).store vars := h
    obtain ⟨world', heq, hmatches, hcalls⟩ := ih () used hline
    exact ⟨world', heq, hmatches, hcalls⟩
  | sleep ms next ih =>
    intro used world vars h
    obtain ⟨world', heq, hmatches, hcalls⟩ := ih () used h
    exact ⟨world', heq, hmatches, hcalls⟩
  | complete outcome next ih =>
    intro used world vars h
    obtain ⟨world', heq, hmatches, hcalls⟩ := ih () (used.orElse fun _ => some outcome) h
    refine ⟨world', ?_, hmatches, hcalls⟩
    -- a handle that is used up already keeps its first use
    rw [Code.inCall, heq]
    cases used <;> rfl

theorem inPromise_inPlace (hfaithful : r.Faithful) (hsees : r.Sees view scope)
    (finish : α → Process) (fail : String → Process) (code : Code α) :
    ∀ {world : World} {vars : Variables}, r.Matches world.store vars →
    ∃ world', (code.inPromise scope finish fail).inPlace world
        = ((code.play view vars).next (fun _ => finish) (fun _ => fail) none).inPlace world'
      ∧ r.Matches world'.store (code.play view vars).vars ∧ world'.calls = world.calls := by
  induction code with
  | done result | panic message =>
    intro world vars h
    exact ⟨world, rfl, h, rfl⟩
  | ask request next ih =>
    intro world vars h
    obtain ⟨between, hask, hbetween, hsame⟩ := ask_eq hfaithful hsees request h
    obtain ⟨world', heq, hmatches, hcalls⟩ := ih (view.perform request vars).1 hbetween
    refine ⟨world', ?_, hmatches, hcalls.trans hsame⟩
    rw [Code.inPromise, Process.inPlace, hask]
    exact heq
  | put line next ih =>
    intro world vars h
    have hline : r.Matches (world.emit (.line line)).store vars := h
    exact ih () hline
  | sleep ms next ih | complete outcome next ih =>
    intro world vars h
    exact ih () h

/-- Work in the background uses its completion handle as it should, and leaves nothing over. -/
theorem inBackground_inPlace (hfaithful : r.Faithful) (hsees : r.Sees view scope)
    (code : Code α) : ∀ {world : World} {vars : Variables}, r.Matches world.store vars →
    ∃ outcome world', (code.inBackground scope).inPlace world
        = { outcome, completion := (code.play view vars).handle, world := world' }
      ∧ r.Matches world'.store (code.play view vars).vars ∧ world'.calls = world.calls := by
  induction code with
  | done result | panic message =>
    intro world vars h
    exact ⟨_, world, rfl, h, rfl⟩
  | ask request next ih =>
    intro world vars h
    obtain ⟨between, hask, hbetween, hsame⟩ := ask_eq hfaithful hsees request h
    obtain ⟨outcome, world', heq, hmatches, hcalls⟩ := ih (view.perform request vars).1 hbetween
    refine ⟨outcome, world', ?_, hmatches, hcalls.trans hsame⟩
    rw [Code.inBackground, Process.inPlace, hask]
    exact heq
  | put line next ih =>
    intro world vars h
    have hline : r.Matches (world.emit (.line line)).store vars := h
    exact ih () hline
  | sleep ms next ih =>
    intro world vars h
    exact ih () h
  | complete used next ih =>
    intro world vars h
    obtain ⟨outcome, world', heq, hmatches, hcalls⟩ := ih () h
    refine ⟨outcome, world', ?_, hmatches, hcalls⟩
    rw [Code.inBackground, Process.inPlace, heq]
    rfl

/-- What a call does in place: it ends with an outcome and some variables, and calls no leaf. -/
def EndsWith (r : Rendering) (process : Process) (world : World) (outcome : Outcome)
    (vars : Variables) : Prop :=
  ∃ world', process.inPlace world = { outcome, world := world' } ∧ r.Matches world'.store vars
    ∧ world'.calls = world.calls

theorem endsWith_done {world : World} {vars : Variables} (h : r.Matches world.store vars)
    (outcome : Outcome) : r.EndsWith (.done outcome) world outcome vars :=
  ⟨world, rfl, h, rfl⟩

theorem endsWith_panicked {world : World} {vars : Variables} (h : r.Matches world.store vars)
    (message : String) :
    r.EndsWith (.panicked message) world (.failure (.str message)) vars :=
  ⟨world.emit (.panicked message), rfl, h, World.calls_emit rfl⟩

theorem endsWith_settle {world : World} {vars : Variables} (h : r.Matches world.store vars) :
    ∀ used : Option Outcome, r.EndsWith (.settle used) world (Action.settled used) vars
  | some outcome => endsWith_done h outcome
  | none => ⟨world.emit .handleDropped, rfl, h, World.calls_emit rfl⟩

theorem endsWith_inCall (hfaithful : r.Faithful) (hsees : r.Sees view scope) (code : Code α)
    {finish : Handle → α → Process} {fail : Handle → String → Process} {world : World}
    {vars later : Variables} {outcome : Outcome} (h : r.Matches world.store vars)
    (hnext : ∀ world' : World, r.Matches world'.store (code.play view vars).vars →
      r.EndsWith ((code.play view vars).next finish fail none) world' outcome later) :
    r.EndsWith (code.inCall scope finish fail none) world outcome later := by
  obtain ⟨world', heq, hmatches, hcalls⟩ :=
    inCall_inPlace hfaithful hsees finish fail code none h
  obtain ⟨after, hafter, hmatches, hsame⟩ := hnext world' hmatches
  exact ⟨after, heq.trans hafter, hmatches, hsame.trans hcalls⟩

theorem endsWith_inPromise (hfaithful : r.Faithful) (hsees : r.Sees view scope) (code : Code α)
    {finish : α → Process} {fail : String → Process} {world : World} {vars later : Variables}
    {outcome : Outcome} (h : r.Matches world.store vars)
    (hnext : ∀ world' : World, r.Matches world'.store (code.play view vars).vars →
      r.EndsWith ((code.play view vars).next (fun _ => finish) (fun _ => fail) none) world' outcome
        later) :
    r.EndsWith (code.inPromise scope finish fail) world outcome later := by
  obtain ⟨world', heq, hmatches, hcalls⟩ := inPromise_inPlace hfaithful hsees finish fail code h
  obtain ⟨after, hafter, hmatches, hsame⟩ := hnext world' hmatches
  exact ⟨after, heq.trans hafter, hmatches, hsame.trans hcalls⟩

/-- Work that a callback action goes on with is done before its node does. -/
theorem endsWith_background (hfaithful : r.Faithful) (hsees : r.Sees view scope)
    (work : Code Unit) {world : World} {vars : Variables} (h : r.Matches world.store vars) :
    r.EndsWith (.await (work.inBackground scope) .settle) world
        (Action.settled ((work.play view vars).handle.getD none)) (work.play view vars).vars
      ∧ ∀ used, r.EndsWith (.start (work.inBackground scope) fun _ => .settle used) world
        (Action.settled used) (work.play view vars).vars := by
  obtain ⟨outcome, world', heq, hmatches, hcalls⟩ :=
    inBackground_inPlace hfaithful hsees work h
  refine ⟨?_, fun used => ?_⟩
  · obtain ⟨after, hafter, hmatches, hsame⟩ :=
      endsWith_settle hmatches ((work.play view vars).handle.getD none)
    refine ⟨after, ?_, hmatches, hsame.trans hcalls⟩
    rw [Process.inPlace, heq]
    simp only [hafter]
    rfl
  · obtain ⟨after, hafter, hmatches, hsame⟩ := endsWith_settle hmatches used
    refine ⟨after, ?_, hmatches, hsame.trans hcalls⟩
    rw [Process.inPlace, heq]
    simp only [hafter]
    rfl

/-- A call of an action ends as it should. -/
theorem process_endsWith (hfaithful : r.Faithful) (hsees : r.Sees view scope) (action : Action)
    (input : Value) {world : World} {vars : Variables} (h : r.Matches world.store vars) :
    r.EndsWith (action.process scope input) world (action.play view input vars).1
      (action.play view input vars).2 := by
  cases action with
  | plain call | boolean call =>
    refine endsWith_inCall hfaithful hsees (call input) h fun world' hmatches => ?_
    rw [Played.next, Action.play]
    cases ((call input).play view vars).ending with
    | ok result => exact endsWith_done hmatches _
    | error message => exact endsWith_panicked hmatches message
  | promise call =>
    refine endsWith_inPromise hfaithful hsees (call input) h fun world' hmatches => ?_
    rw [Played.next, Action.play]
    cases ((call input).play view vars).ending with
    | ok result => exact endsWith_done hmatches _
    | error message => exact endsWith_panicked hmatches message
  | callback call =>
    refine endsWith_inCall hfaithful hsees (call input) h fun world' hmatches => ?_
    rw [Played.next, Action.play]
    simp only [Option.none_or]
    generalize (call input).play view vars = played at hmatches ⊢
    obtain ⟨ending, handle, later⟩ := played
    cases ending with
    | error message =>
      rcases handle with _ | _ | outcome
      · exact endsWith_panicked hmatches message
      · exact endsWith_panicked hmatches message
      · exact endsWith_done hmatches outcome
    | ok result =>
      cases result with
      | none => exact endsWith_settle hmatches _
      | some work =>
        obtain ⟨hawait, hstart⟩ := endsWith_background hfaithful hsees work hmatches
        cases handle with
        | none => exact hawait
        | some used => exact hstart used

/-- The frames hold the variables of an account, and its calls are those since some past ones. -/
structure Agrees (r : Rendering) (past : List Event) (world : World) (account : Account) :
    Prop where
  vars : r.Matches world.store account.vars
  calls : world.calls.map some = account.calls.map r.tree.callEvent? ++ past.map some

theorem Agrees.of_eq {past : List Event} {world world' : World} {account : Account}
    (h : r.Agrees past world account) (hstore : world'.store = world.store)
    (hcalls : world'.calls = world.calls) : r.Agrees past world' account :=
  ⟨hstore ▸ h.vars, hcalls ▸ h.calls⟩

/-- Whenever frames and account agree, a process comes to the outcome that is meant, and they
agree again. -/
def Simulates (r : Rendering) (past : List Event) (process : Trace → Value → Process)
    (meaning : Value → Account → Option (Outcome × Account)) : Prop :=
  ∀ trace input {world account}, r.Agrees past world account →
    ∃ outcome world' account', meaning input account = some (outcome, account')
      ∧ (process trace input).inPlace world = { outcome, world := world' }
      ∧ r.Agrees past world' account'

variable {past : List Event}

theorem Simulates.traced {body : Trace → Value → Process}
    {meaning : Value → Account → Option (Outcome × Account)}
    (h : r.Simulates past body meaning) (n : Node) :
    r.Simulates past (fun trace input => n.traced trace fun inside => body inside input)
      meaning := by
  intro trace input world account hagrees
  unfold Node.traced
  obtain ⟨inside, henter, hstore, hcalls⟩ :=
    Process.inPlace_emitAll (Event.not_isCall_of_mem (trace.enter n))
  obtain ⟨outcome, after, account', hmeaning, hbody, hafter⟩ :=
    h (trace.inside n.info) input (hagrees.of_eq hstore hcalls)
  obtain ⟨world', hexit, hstore, hcalls⟩ :=
    Process.inPlace_emitAll (Event.not_isCall_of_mem ((trace.inside n.info).exit outcome))
  refine ⟨outcome, world', account', hmeaning, ?_, hafter.of_eq hstore hcalls⟩
  rw [henter, Process.inPlace_bind_of_eq hbody, hexit]
  rfl

theorem call_simulates (hfaithful : r.Faithful) (hsees : r.Sees view scope) {info : NodeInfo}
    {path : Option String} {action : Action} (hscope : info.scope = scope)
    (hat : r.tree.at? view.site.position = some (.leaf info path action)) :
    r.Simulates past (fun trace input => Node.call trace info path action input)
      fun input account => some (account.call view action input) := by
  subst hscope
  intro trace input world account hagrees
  unfold Node.call
  obtain ⟨inside, henter, hstore, hcalls⟩ :=
    Process.inPlace_emitAll (Event.not_isCall_of_mem (trace.input input))
  have hinside := hagrees.of_eq hstore hcalls
  have hvars : r.Matches (inside.emit (.call info.scope path input)).store account.vars :=
    hinside.vars
  obtain ⟨world', hcall, hvars, hsame⟩ := process_endsWith hfaithful hsees action input hvars
  refine ⟨_, world', _, rfl, henter.trans hcall, hvars, ?_⟩
  have hevent : r.tree.callEvent? (view.site.position, input)
      = some (.call info.scope path input) := by
    rw [Node.callEvent?, hat]
  rw [hsame]
  show some (Event.call info.scope path input) :: inside.calls.map some
    = ((view.site.position, input) :: account.calls).map r.tree.callEvent? ++ past.map some
  rw [hinside.calls, List.map_cons, hevent, List.cons_append]

/-- Children that come to what is meant do so one after the other. -/
theorem chain_simulates (above : List Site) (position : List Nat) (whileSuccess : Bool)
    (trace : Trace) : ∀ {nodes : List Node} {cs : List (Child Definition)} {index : Nat},
    nodes.length = cs.length →
    (∀ k n c, nodes[k]? = some n → cs[k]? = some c → r.Simulates past n.process
      (Definition.interpretChild r.registry r.globals above (position ++ [index + k]) c)) →
    ∀ {outcome : Outcome} {world : World} {account : Account}, r.Agrees past world account →
    ∃ outcome' world' account',
      Definition.interpretAll r.registry r.globals above position whileSuccess index cs outcome
        account = some (outcome', account')
      ∧ (Node.chain whileSuccess nodes trace outcome).inPlace world
        = { outcome := outcome', world := world' }
      ∧ r.Agrees past world' account'
  | [], [], index, _, _, outcome, world, account, hagrees => by
    refine ⟨outcome, world, account, ?_, rfl, hagrees⟩
    rw [Definition.interpretAll]
  | [], _ :: _, _, hlength, _, _, _, _, _ => by cases hlength
  | _ :: _, [], _, hlength, _, _, _, _, _ => by cases hlength
  | n :: nodes, c :: cs, index, hlength, h, outcome, world, account, hagrees => by
    rw [Definition.interpretAll, Node.chain]
    by_cases hgo : outcome.isSuccess = whileSuccess
    · rw [if_pos hgo, if_pos hgo]
      obtain ⟨next, inside, between, hmeaning, hplace, hinside⟩ :=
        h 0 n c rfl rfl trace outcome.payload hagrees
      have hrest : ∀ k m e, nodes[k]? = some m → cs[k]? = some e → r.Simulates past m.process
          (Definition.interpretChild r.registry r.globals above (position ++ [index + 1 + k]) e) :=
        fun k m e hm he => by
          have := h (k + 1) m e hm he
          rwa [← Nat.add_assoc, Nat.add_right_comm] at this
      obtain ⟨outcome', world', account', hall, hchain, hafter⟩ :=
        chain_simulates above position whileSuccess trace (Nat.succ.inj hlength) hrest hinside
      refine ⟨outcome', world', account', ?_, ?_, hafter⟩
      · rw [Nat.add_zero] at hmeaning
        rw [hmeaning]
        exact hall
      · rw [Process.inPlace_bind_of_eq hplace]
        exact hchain
    · rw [if_neg hgo, if_neg hgo]
      exact ⟨outcome, world, account, rfl, rfl, hagrees⟩

/-- Every node comes to what is meant. -/
theorem process_simulates (hfaithful : r.Faithful)
    (hparallel : ∀ position site above, r.definition.route position = some (site :: above) →
      site.definition.kind? ≠ some .parallel) (n : Node) :
    ∀ {site : Site} {above : List Site},
    r.definition.route site.position = some (site :: above) →
    r.tree.at? site.position = some n →
    r.Simulates past n.process
      (site.definition.interpret r.registry r.globals above site.position) := by
  induction n using Node.induction with
  | step n ih =>
    intro site above hroute hn
    obtain ⟨m, hm, hrenders⟩ := hfaithful.node hroute
    rw [hn] at hm
    cases hm
    -- a path listed as a child is carried out like the leaf that it stands for
    have hchildren : ∀ k child c, n.children[k]? = some child →
        site.definition.listed[k]? = some c → r.Simulates past child.process
          (Definition.interpretChild r.registry r.globals (site :: above)
            (site.position ++ [k]) c) := fun k child c hchild hc => by
      have hbelow : r.definition.route (site.child k c).position
          = some (site.child k c :: site :: above) :=
        Definition.route_append_singleton.2 ⟨site, above, c, hroute, hc, rfl⟩
      have := ih child (List.mem_of_getElem? hchild) hbelow
        (Node.at?_append_singleton.2 ⟨n, hn, hchild⟩)
      intro trace input world account hagrees
      rw [Definition.interpretChild_eq]
      exact this trace input hagrees
    have hkind := hrenders.kind
    cases n with
    | leaf info path action =>
      have haction := hrenders.action info path action rfl
      have hsees : r.Sees ⟨site, above, r.globals⟩ info.scope :=
        ⟨rfl, hroute, hkind, hrenders.frames⟩
      have hmeaning : site.definition.interpret r.registry r.globals above site.position
          = fun input account => some (account.call ⟨site, above, r.globals⟩ action input) := by
        funext input account
        rw [Definition.interpret, hkind]
        simp only [Node.kind, haction]
        rfl
      rw [hmeaning]
      exact (call_simulates hfaithful hsees rfl hn).traced _
    | sequence info children =>
      refine Simulates.traced (fun trace input world account hagrees => ?_) _
      rw [Definition.interpret, hkind]
      exact chain_simulates (site :: above) site.position true trace hrenders.length
        (by simpa using hchildren) hagrees
    | selector info children =>
      refine Simulates.traced (fun trace input world account hagrees => ?_) _
      rw [Definition.interpret, hkind]
      exact chain_simulates (site :: above) site.position false trace hrenders.length
        (by simpa using hchildren) hagrees
    | parallel info policy children => exact absurd hkind (hparallel _ _ _ hroute)
    | decorator info decorator child =>
      refine Simulates.traced (fun trace input world account hagrees => ?_) _
      obtain ⟨c, hc⟩ : ∃ c, site.definition.listed = [c] :=
        List.length_eq_one_iff.1 hrenders.length.symm
      obtain ⟨outcome, world', account', hmeaning, hplace, hafter⟩ :=
        hchildren 0 child c rfl (by rw [hc]; rfl) trace input hagrees
      refine ⟨decorator.apply outcome, world', account', ?_, ?_, hafter⟩
      · rw [Definition.interpret, hkind]
        cases decorator <;>
          simp only [Node.kind, Decorator.kind, hc, Definition.interpretOnly] <;>
          rw [hmeaning] <;> rfl
      · rw [Process.inPlace_bind_of_eq hplace]
        rfl

end Rendering

end BehaviorTree
