import BehaviorTree.Proofs.Duality
import BehaviorTree.Proofs.Undebugged
import BehaviorTree.Tree

/-!
# Tracing affects nothing

Trees that differ in what they trace have processes that differ in the lines of the trace only
(`Node.process_undebugged`), and engines on which they run stay the same but for those lines
(`Engine.Alike.call`). So no `debug` field, no option of tracing and no sink changes whether a
definition compiles, what its tree calls and comes to, or what is in the variables
(`tracing_affects_nothing`).
-/

namespace BehaviorTree

namespace Node

/-- Trees whose processes do the same, whatever lines of the trace they write. -/
def Echoes (tree other : Node) : Prop :=
  ∀ trace trace' input,
    (other.process trace' input).reflect false false
      = (tree.process trace input).reflect false false

theorem reflect_call_trace (trace trace' : Trace) (info : NodeInfo) (path : Option String)
    (action : Action) (input : Value) :
    (call trace' info.undebugged path action input).reflect false false
      = (call trace info path action input).reflect false false := by
  unfold call
  rw [Process.reflect_emitAll, Process.reflect_emitAll]
  rfl

theorem reflect_chain_undebugged (whileSuccess : Bool) (trace trace' : Trace) :
    ∀ {children : List Node}, (∀ child ∈ children, child.Echoes child.undebugged) →
    ∀ outcome : Outcome,
    (chain whileSuccess (undebuggedAll children) trace' outcome).reflect false false
      = (chain whileSuccess children trace outcome).reflect false false
  | [], _, outcome => by rw [undebuggedAll, chain, chain]
  | child :: rest, h, outcome => by
    obtain ⟨hchild, hrest⟩ := List.forall_mem_cons.1 h
    rw [undebuggedAll, chain, chain]
    split
    · rw [Process.reflect_bind false false false, Process.reflect_bind false false false,
        hchild trace trace']
      simp only [Outcome.flip_false, reflect_chain_undebugged whileSuccess trace trace' hrest]
    · rfl

theorem reflectAll_branches_undebugged (trace trace' : Trace) (input : Value) :
    ∀ {children : List Node}, (∀ child ∈ children, child.Echoes child.undebugged) →
    Process.reflectAll false (branches (undebuggedAll children) trace' input)
      = Process.reflectAll false (branches children trace input)
  | [], _ => rfl
  | child :: rest, h => by
    obtain ⟨hchild, hrest⟩ := List.forall_mem_cons.1 h
    have hwait : child.undebugged.info.waitForMe = child.info.waitForMe := by
      cases child <;> rfl
    simp only [undebuggedAll, branches, Process.reflectAll, hwait]
    rw [hchild trace trace', reflectAll_branches_undebugged trace trace' input hrest]

/-- What a tree does is what it does without its `debug` fields, whatever the options are. -/
theorem process_undebugged (tree : Node) : tree.Echoes tree.undebugged := by
  induction tree using Node.induction with
  | step tree ih =>
    intro trace trace' input
    cases tree with
    | leaf info path action =>
      simp only [undebugged, process, reflect_traced]
      exact reflect_call_trace _ _ info path action input
    | sequence info children | selector info children =>
      simp only [undebugged, process, reflect_traced]
      exact reflect_chain_undebugged _ _ _ ih _
    | parallel info policy children =>
      simp only [undebugged, process, reflect_traced]
      cases children with
      | nil => rfl
      | cons child rest =>
        have hbranches := reflectAll_branches_undebugged (trace.inside info)
          (trace'.inside info.undebugged) input ih
        simp only [Node.children, undebuggedAll] at hbranches
        simp only [undebuggedAll, Node.info, Process.reflect, hbranches]
    | decorator info d child =>
      simp only [undebugged, process, reflect_traced]
      rw [Process.reflect_bind false false false, Process.reflect_bind false false false,
        ih child List.mem_cons_self]

theorem echoes_of_undebugged_eq {tree other : Node} (h : other.undebugged = tree.undebugged) :
    tree.Echoes other := by
  intro trace trace' input
  rw [← other.process_undebugged trace' trace input, h, tree.process_undebugged trace trace input]

end Node

/-- Engines that are in the same state, but for the lines of the trace seen and still to come. -/
def Engine.Alike : Engine → Engine → Prop
  | .clocked machine, .clocked other => other.reflect false = machine.reflect false
  | .inPlace world, .inPlace other => other.quiet = world.quiet
  | _, _ => False

namespace Engine

theorem Alike.refl : ∀ engine : Engine, engine.Alike engine
  | .clocked _ => rfl
  | .inPlace _ => rfl

theorem Alike.quiet_eq : ∀ {engine other : Engine}, engine.Alike other →
    other.world.quiet = engine.world.quiet
  | .clocked _, .clocked _, h => congrArg Machine.world h
  | .inPlace _, .inPlace _, h => h

theorem callInPlace_alike : ∀ {processes others : List Process},
    (∀ process ∈ processes, process.Formed true) → (∀ other ∈ others, other.Formed true) →
    others.map (·.reflect false false) = processes.map (·.reflect false false) →
    ∀ {world world' : World}, world'.quiet = world.quiet →
    (callInPlace others world').1 = (callInPlace processes world).1
      ∧ (callInPlace others world').2.quiet = (callInPlace processes world).2.quiet
  | [], [], _, _, _, _, _, hworld => ⟨rfl, hworld⟩
  | process :: rest, other :: rest', hprocesses, hothers, hsame, world, world', hworld => by
    obtain ⟨hprocess, hrest⟩ := List.forall_mem_cons.1 hprocesses
    obtain ⟨hother, hrest'⟩ := List.forall_mem_cons.1 hothers
    obtain ⟨hhead, htail⟩ : other.reflect false false = process.reflect false false
        ∧ rest'.map (·.reflect false false) = rest.map (·.reflect false false) :=
      List.cons.inj hsame
    have hresult := hprocess.inPlace_reflects false false world
    have hresult' := hother.inPlace_reflects false false world'
    rw [hhead, hworld] at hresult'
    have houtcome : (other.inPlace world').outcome = (process.inPlace world).outcome :=
      hresult'.outcome.symm.trans hresult.outcome
    have hdrain : (other.inPlace world').drain.quiet = (process.inPlace world).drain.quiet :=
      hresult'.drain.symm.trans hresult.drain
    have ih := callInPlace_alike hrest hrest' htail hdrain
    simp only [callInPlace]
    exact ⟨by rw [houtcome, ih.1], ih.2⟩

/-- Processes that do the same, called on engines that are alike, come to the same outcomes and
leave the engines alike. -/
theorem Alike.call {processes others : List Process}
    (hprocesses : ∀ process ∈ processes, process.Formed true)
    (hothers : ∀ other ∈ others, other.Formed true)
    (hsame : others.map (·.reflect false false) = processes.map (·.reflect false false)) :
    ∀ {engine engine' : Engine}, engine.Alike engine' →
    (engine'.call others).1 = (engine.call processes).1
      ∧ (engine.call processes).2.Alike (engine'.call others).2
  | .clocked machine, .clocked machine', h => by
    have hcall := machine.reflect_call false processes
    have hcall' := machine'.reflect_call false others
    have hflip : ∀ outcomes : List (Option Outcome),
        outcomes.map (Option.map (·.flip false)) = outcomes := by
      simp
    rw [hflip] at hcall hcall'
    rw [hsame, h, hcall] at hcall'
    obtain ⟨houtcomes, hmachine⟩ := Prod.mk.inj hcall'
    refine ⟨?_, hmachine.symm⟩
    show (machine'.call others).1.map _ = (machine.call processes).1.map _
    rw [houtcomes]
  | .inPlace world, .inPlace world', h => callInPlace_alike hprocesses hothers hsame h

theorem Alike.withWorld {world world' : World} (hworld : world'.quiet = world.quiet) :
    ∀ {engine engine' : Engine}, engine.Alike engine' →
    (engine.withWorld world).Alike (engine'.withWorld world')
  | .clocked machine, .clocked machine', h => by
    have hreflect : machine'.reflect false = machine.reflect false := h
    show ({ machine'.reflect false with world := world'.quiet } : Machine)
      = { machine.reflect false with world := world.quiet }
    rw [hreflect, hworld]
  | .inPlace _, .inPlace _, _ => hworld

/-- Taking out a report leaves engines alike, wherever the lines of the trace go. -/
theorem Alike.report {engine engine' : Engine} (h : engine.Alike engine') (sink sink' : Sink) :
    (engine.report sink).2.Alike (engine'.report sink').2 := by
  have hstore := (World.alike_of_quiet_eq h.quiet_eq).store
  refine h.withWorld ?_
  rw [hstore]

end Engine

/-- Reports with the same lines of the log, the same printed lines and the same notices about
runs. -/
structure Report.Alike (report other : Report) : Prop where
  log : other.log = report.log
  printed : other.printed = report.printed
  notices : other.notices.filter (!·.isTrace) = report.notices.filter (!·.isTrace)

namespace Report

theorem Alike.addFirst {report other : Report} (h : report.Alike other) (sink : Sink) :
    ∀ event : Event, (report.addFirst sink event).Alike
      (if event.isTrace then other else other.addFirst .buffer event)
  | .trace text => by
    cases sink with
    | buffer | marked => exact ⟨h.log, h.printed, h.notices⟩
    | notices => exact ⟨h.log, h.printed, h.notices⟩
  | .line (.log text) => ⟨congrArg (text :: ·) h.log, h.printed, h.notices⟩
  | .line (.print text) => ⟨h.log, congrArg (text.splitOn "\n" ++ ·) h.printed, h.notices⟩
  | .call _ _ _ => h
  | .compiled _ _ | .notCompiled _ | .panicked _ | .handleDropped =>
    ⟨h.log, h.printed, congrArg (_ :: ·) h.notices⟩

/-- But for the lines of the trace, a report says the same whatever the sink is. -/
theorem alike_ofEvents (sink sink' : Sink) {events events' : List Event}
    (h : events'.filter (!·.isTrace) = events.filter (!·.isTrace)) :
    (ofEvents sink events).Alike (ofEvents sink' events') := by
  have hquiet : ∀ (sink : Sink) (events : List Event) (report other : Report),
      report.Alike other →
      (events.foldl (fun report event => report.addFirst sink event) report).Alike
        ((events.filter (!·.isTrace)).foldl (fun report event => report.addFirst .buffer event)
          other) := by
    intro sink events
    induction events with
    | nil => exact fun report other h => h
    | cons event rest ih =>
      intro report other h
      have hevent := h.addFirst sink event
      rw [List.foldl_cons, List.filter_cons]
      cases htrace : event.isTrace with
      | true =>
        rw [htrace] at hevent
        exact ih _ _ hevent
      | false =>
        rw [htrace] at hevent
        exact ih _ _ hevent
  have hreport := hquiet sink events {} {} ⟨rfl, rfl, rfl⟩
  have hother := hquiet sink' events' {} {} ⟨rfl, rfl, rfl⟩
  rw [h] at hother
  exact ⟨hother.log.symm.trans hreport.log, hother.printed.symm.trans hreport.printed,
    hother.notices.symm.trans hreport.notices⟩

end Report

/-- Processes that do the same come to the same in any schedule. -/
theorem Machine.follow_alike {process other : Process}
    (h : other.reflect false false = process.reflect false false) (world : World)
    (schedule : List Move) :
    ((begin other world).follow schedule).outcome? 0
        = ((begin process world).follow schedule).outcome? 0
      ∧ ((begin process world).follow schedule).world.Alike
        ((begin other world).follow schedule).world := by
  have hbegin : (begin other world).reflect false = (begin process world).reflect false := by
    rw [reflect_begin, reflect_begin, h]
  have hfollow := congrArg (·.follow schedule) hbegin
  simp only [← reflect_follow] at hfollow
  have houtcome := congrArg (·.outcome? 0) hfollow
  simp only [reflect_outcome?, Bool.false_and, Outcome.flip_false, Option.map_id_fun', id_eq]
    at houtcome
  exact ⟨houtcome, World.alike_of_quiet_eq (congrArg Machine.world hfollow)⟩

/-- Definitions that differ in `debug` fields have the same defect, or compile to trees that differ
in them. -/
theorem compile_of_undebugged_eq {d d' : Definition} (h : d'.undebugged = d.undebugged)
    (registry : Registry) (globals : Option Scope) (store : Store) :
    (∃ e, compile registry globals d store = .error e
      ∧ compile registry globals d' store = .error e)
    ∨ ∃ tree tree' final, compile registry globals d store = .ok (tree, final)
      ∧ compile registry globals d' store = .ok (tree', final)
      ∧ tree'.undebugged = tree.undebugged := by
  have hnode := Compile.node_undebugged d { registry, parent := globals } store
  have hnode' := Compile.node_undebugged d' { registry, parent := globals } store
  rw [h, hnode] at hnode'
  unfold compile
  cases hd : Compile.node { registry, parent := globals } d store with
  | error e =>
    cases hd' : Compile.node { registry, parent := globals } d' store with
    | error e' =>
      rw [hd, hd'] at hnode'
      exact .inl ⟨e, rfl, by rw [Except.error.inj hnode']⟩
    | ok made' =>
      rw [hd, hd'] at hnode'
      cases hnode'
  | ok made =>
    cases hd' : Compile.node { registry, parent := globals } d' store with
    | error e' =>
      rw [hd, hd'] at hnode'
      cases hnode'
    | ok made' =>
      rw [hd, hd'] at hnode'
      obtain ⟨htree, hstore⟩ := Prod.mk.inj (Except.ok.inj hnode')
      exact .inr ⟨made.1, made'.1, made.2, rfl, by rw [hstore], htree.symm⟩

/-- Trees that trace in different ways: there is the same reason to refuse them, or their roots do
the same. -/
structure Tree.Echoes (tree other : Tree) : Prop where
  error : other.error? = tree.error?
  root : ∀ root root', tree.root = .ok root → other.root = .ok root' →
    root'.undebugged = root.undebugged

theorem Tree.create_of_definition (files : Files) (d : Definition) (actions : Registry)
    (options : Options) (world : World) :
    create files (.definition d) actions options world
      = match compile actions options.globals d world.store with
        | .ok (root, store) =>
          ({ root := .ok root, actions, options },
            { world with store }.emit (.compiled root.count actions.size))
        | .error error =>
          ({ root := .error (.compile error), actions, options },
            world.emit (.notCompiled error.message)) := by
  unfold create
  simp only [Source.load, Except.mapError, bind, Except.bind]
  cases compile actions options.globals d world.store <;> rfl

theorem Tree.create_echoes {d d' : Definition} (h : d'.undebugged = d.undebugged)
    {options options' : Options} (hglobals : options'.globals = options.globals) (files : Files)
    (actions : Registry) (world : World) :
    let made := create files (.definition d) actions options world
    let made' := create files (.definition d') actions options' world
    made.1.Echoes made'.1 ∧ made'.2 = made.2 := by
  intro made made'
  have hmade := create_of_definition files d actions options world
  have hmade' := create_of_definition files d' actions options' world
  rw [hglobals] at hmade'
  rcases compile_of_undebugged_eq h actions options.globals world.store with
    ⟨e, he, he'⟩ | ⟨root, root', final, hroot, hroot', hsame⟩
  · rw [he] at hmade
    rw [he'] at hmade'
    simp only [made, made', hmade, hmade']
    exact ⟨⟨rfl, nofun⟩, trivial⟩
  · rw [hroot] at hmade
    rw [hroot'] at hmade'
    have hcount : root'.count = root.count := by
      rw [← root'.count_undebugged, hsame, root.count_undebugged]
    simp only [made, made', hmade, hmade', hcount]
    refine ⟨⟨rfl, fun _ _ heq heq' => ?_⟩, trivial⟩
    rw [← Except.ok.inj heq, ← Except.ok.inj heq', hsame]

namespace Tree.Echoes

variable {tree other : Tree}

/-- Either tree is refused for the same reason as the other, or both have a root. -/
theorem cases (h : tree.Echoes other) :
    (∃ e, tree.root = .error e ∧ other.root = .error e)
      ∨ ∃ root root', tree.root = .ok root ∧ other.root = .ok root'
        ∧ root'.undebugged = root.undebugged := by
  have herror := h.error
  unfold error? at herror
  cases hroot : tree.root with
  | error e =>
    cases hroot' : other.root with
    | error e' =>
      rw [hroot, hroot'] at herror
      exact .inl ⟨e, rfl, by rw [Option.some.inj herror]⟩
    | ok root' =>
      rw [hroot, hroot'] at herror
      cases herror
  | ok root =>
    cases hroot' : other.root with
    | error e' =>
      rw [hroot, hroot'] at herror
      cases herror
    | ok root' => exact .inr ⟨root, root', rfl, rfl, h.root root root' hroot hroot'⟩

theorem rootScope?_eq (h : tree.Echoes other) : other.rootScope? = tree.rootScope? := by
  unfold rootScope? root?
  rcases h.cases with ⟨e, hroot, hroot'⟩ | ⟨root, root', hroot, hroot', hsame⟩
  · rw [hroot, hroot']
  · have hscope : ∀ root : Node, root.undebugged.scope = root.scope := fun root => by
      cases root <;> rfl
    have hscopes : root'.scope = root.scope := by
      rw [← hscope root', hsame, hscope root]
    rw [hroot, hroot']
    exact congrArg some hscopes

/-- One run of each of the trees is refused for the same reason, or they do the same. -/
theorem process_alike (h : tree.Echoes other) (input : Value) :
    (∃ e, tree.process input = .error e ∧ other.process input = .error e)
    ∨ ∃ process process', tree.process input = .ok process ∧ other.process input = .ok process'
      ∧ process.Formed true ∧ process'.Formed true
      ∧ process'.reflect false false = process.reflect false false := by
  unfold process
  rcases h.cases with ⟨e, hroot, hroot'⟩ | ⟨root, root', hroot, hroot', hsame⟩
  · rw [hroot, hroot']
    exact .inl ⟨e, rfl, rfl⟩
  · rw [hroot, hroot']
    exact .inr ⟨_, _, rfl, rfl, root.process_formed _ input, root'.process_formed _ input,
      Node.echoes_of_undebugged_eq hsame _ _ input⟩

theorem processes_alike (h : tree.Echoes other) : ∀ inputs : List Value,
    (∃ e, inputs.mapM tree.process = .error e ∧ inputs.mapM other.process = .error e)
    ∨ ∃ processes others, inputs.mapM tree.process = .ok processes
      ∧ inputs.mapM other.process = .ok others ∧ (∀ process ∈ processes, process.Formed true)
      ∧ (∀ other ∈ others, other.Formed true)
      ∧ others.map (·.reflect false false) = processes.map (·.reflect false false) := by
  intro inputs
  induction inputs with
  | nil => exact .inr ⟨[], [], rfl, rfl, List.forall_mem_nil _, List.forall_mem_nil _, rfl⟩
  | cons input rest ih =>
    rw [List.mapM_cons, List.mapM_cons]
    rcases h.process_alike input with ⟨e, he, he'⟩
      | ⟨process, process', hprocess, hprocess', hformed, hformed', hsame⟩
    · rw [he, he']
      exact .inl ⟨e, rfl, rfl⟩
    · rw [hprocess, hprocess']
      rcases ih with ⟨e, he, he'⟩
        | ⟨processes, others, hrest, hrest', hall, hall', hmap⟩
      · rw [he, he']
        exact .inl ⟨e, rfl, rfl⟩
      · rw [hrest, hrest']
        exact .inr ⟨process :: processes, process' :: others, rfl, rfl,
          List.forall_mem_cons.2 ⟨hformed, hall⟩, List.forall_mem_cons.2 ⟨hformed', hall'⟩,
          by rw [List.map_cons, List.map_cons, hsame, hmap]⟩

/-- Runs on the same inputs are refused for the same reason, or come to the same outcomes. -/
theorem run_alike (h : tree.Echoes other) (inputs : List Value) {engine engine' : Engine}
    (hengine : engine.Alike engine') :
    (∃ e, tree.run inputs engine = .error e ∧ other.run inputs engine' = .error e)
    ∨ ∃ outcomes later later', tree.run inputs engine = .ok (outcomes, later)
      ∧ other.run inputs engine' = .ok (outcomes, later') ∧ later.Alike later' := by
  unfold run
  rcases h.processes_alike inputs with ⟨e, he, he'⟩
    | ⟨processes, others, hok, hok', hformed, hformed', hsame⟩
  · rw [he, he']
    exact .inl ⟨e, rfl, rfl⟩
  · obtain ⟨houtcomes, halike⟩ := Engine.Alike.call hformed hformed' hsame hengine
    rw [hok, hok']
    refine .inr ⟨(engine.call processes).1, (engine.call processes).2, (engine'.call others).2, rfl,
      ?_, halike⟩
    rw [← houtcomes]
    rfl

end Tree.Echoes

/-- Neither `debug` fields nor the options of tracing nor the sink affect anything but the lines of
the trace. Of definitions that differ in `debug` fields, with options that differ in tracing, none
compiles or both do, with the same frames, and if not for the same reason. In every schedule a run
of the one comes to what a run of the other comes to, after the same calls and with the same
variables; and so do any runs, one after the other or side by side, on engines that were alike
before, and stay alike whatever becomes of the lines of the trace. -/
theorem tracing_affects_nothing {d d' : Definition} (hd : d'.undebugged = d.undebugged)
    {options options' : Options} (hglobals : options'.globals = options.globals) (files : Files)
    (actions : Registry) (world : World) :
    let made := Tree.create files (.definition d) actions options world
    let made' := Tree.create files (.definition d') actions options' world
    (made'.1.error? = made.1.error? ∧ made'.1.rootScope? = made.1.rootScope? ∧ made'.2 = made.2)
    ∧ (∀ input process process', made.1.process input = .ok process →
      made'.1.process input = .ok process' → ∀ (start : World) (schedule : List Move),
      let machine := (Machine.begin process start).follow schedule
      let machine' := (Machine.begin process' start).follow schedule
      machine'.outcome? 0 = machine.outcome? 0 ∧ machine.world.Alike machine'.world)
    ∧ (∀ (inputs : List Value) (engine engine' : Engine), engine.Alike engine' →
      (∃ e, made.1.run inputs engine = .error e ∧ made'.1.run inputs engine' = .error e)
      ∨ ∃ outcomes later later', made.1.run inputs engine = .ok (outcomes, later)
        ∧ made'.1.run inputs engine' = .ok (outcomes, later') ∧ later.Alike later')
    ∧ ∀ engine engine' : Engine, engine.Alike engine' → engine.world.Alike engine'.world
      ∧ ∀ sink sink', (engine.report sink).1.Alike (engine'.report sink').1
        ∧ (engine.report sink).2.Alike (engine'.report sink').2 := by
  intro made made'
  obtain ⟨hechoes, hworld⟩ := Tree.create_echoes hd hglobals files actions world
  refine ⟨⟨hechoes.error, hechoes.rootScope?_eq, hworld⟩, ?_, fun inputs _ _ =>
    hechoes.run_alike inputs, fun engine engine' h => ⟨World.alike_of_quiet_eq h.quiet_eq,
    fun sink sink' => ⟨?_, h.report sink sink'⟩⟩⟩
  · intro input process process' hprocess hprocess' start schedule
    rcases hechoes.process_alike input with ⟨e, he, -⟩ | ⟨_, _, hok, hok', -, -, hsame⟩
    · rw [show made.1.process input = _ from he] at hprocess
      cases hprocess
    · rw [show made.1.process input = _ from hok] at hprocess
      rw [show made'.1.process input = _ from hok'] at hprocess'
      cases hprocess
      cases hprocess'
      exact Machine.follow_alike hsame start schedule
  · exact Report.alike_ofEvents sink sink' (congrArg World.events h.quiet_eq)

/-- A leaf that is traced, and that writes its lines into a report, and a leaf that is not. -/
theorem tracing_affects_nothing_of_leaf :
    let leaf := Definition.ofAction (.plain fun v => .done (.ok v))
    let d := { leaf with debug := some true }
    let made (d : Definition) (options : Options) :=
      Tree.create (fun _ => .error .missing) (.definition d) {} options {}
    let engine := Engine.inPlace {}
    let tree := (made d { indent := 2 }).1
    let tree' := (made leaf {}).1
    leaf.undebugged = d.undebugged
      ∧ ((tree.run [.null] engine).toOption.map fun (outcomes, later) =>
        (outcomes, (later.report .buffer).1.trace)) = some ([.success .null],
          ["NODE(type=action, actionType=plain)", "  Input=null", "=> Success(null)"])
      ∧ ((∃ e, tree.run [.null] engine = .error e ∧ tree'.run [.null] engine = .error e)
        ∨ ∃ outcomes later later', tree.run [.null] engine = .ok (outcomes, later)
          ∧ tree'.run [.null] engine = .ok (outcomes, later') ∧ later.Alike later') := by
  intro leaf d made engine tree tree'
  have hd : leaf.undebugged = d.undebugged := rfl
  have hglobals : ({} : Options).globals = ({ indent := 2 } : Options).globals := rfl
  refine ⟨hd, ?_, (tracing_affects_nothing hd hglobals (fun _ => .error .missing) {} {}).2.2.1
    [.null] engine engine (.refl engine)⟩
  have hcompile : compile {} none d {} = .ok
      (.leaf ⟨none, some true, false, .plain, ⟨0, []⟩⟩ none (.plain fun v => .done (.ok v)),
        ⟨#[{}]⟩) :=
    Compile.node_eq_ok_iff.2 ⟨.action, _, _, rfl, .inl ⟨rfl, rfl, rfl⟩⟩
  have hmade : made d { indent := 2 } = _ :=
    Tree.create_of_definition (fun _ => .error .missing) d {} { indent := 2 } {}
  rw [hcompile] at hmade
  simp only [tree, hmade]
  rfl

end BehaviorTree
