import BehaviorTree.Proofs.Duality
import BehaviorTree.Proofs.Rewriting
import BehaviorTree.Run.Engine

/-!
# Nodes that make no difference

Two trees that differ by frames which declare nothing cannot be told apart by what their leaves do:
on machines with the same schedule, in the machine's own order and in place they come to the same
outcomes, after the same calls, and their leaves see the same variables. So it is with a definition
and the same one with a node put in that makes no difference (`padding_is_neutral`).
-/

namespace BehaviorTree

/-- What happens next: a run begins, or a task goes on. -/
inductive Happening where
  | run (input : Value)
  | move (m : Move)

namespace Node

/-- What a leaf calls, and under which path it was found. -/
def action? : Node → Option (Option String × Action)
  | .leaf _ path action => some (path, action)
  | _ => none

/-- A call in a run of a tree: the number of the leaf in the order of the document, the path of its
action and the input. -/
def callOf (tree : Node) : Event → Option (Option Nat × Option String × Value)
  | .call scope path input =>
    some (tree.leafNodes.findIdx? fun leaf => leaf.scope.frame = scope.frame, path, input)
  | _ => none

/-- The calls so far, latest first. -/
def callsIn (tree : Node) (world : World) : List (Option Nat × Option String × Value) :=
  world.events.filterMap tree.callOf

/-- Worlds in which the leaves of two trees were called the same, and see the same variables. -/
structure SeesAs (tree tree' : Node) (world world' : World) : Prop where
  calls : tree'.callsIn world' = tree.callsIn world
  values : ∀ path, tree'.leafNodes.map (fun leaf => world'.store.get? leaf.scope path)
    = tree.leafNodes.map fun leaf => world.store.get? leaf.scope path

variable (tree : Node) (trace : Trace)

def happen (machine : Machine) : Happening → Machine
  | .run input => machine.enlist [tree.process trace input]
  | .move m => machine.move m

/-- Runs that begin when they are told to, and tasks that go on in the order they are told to. -/
def play (happenings : List Happening) (machine : Machine) : Machine :=
  happenings.foldl (tree.happen trace) machine

/-- Runs in an engine, one batch after the other. -/
def batches : List (List Value) → Engine → List (List Outcome) × Engine
  | [], engine => ([], engine)
  | inputs :: rest, engine =>
    let (outcomes, engine) := engine.call (inputs.map (tree.process trace))
    let (more, engine) := batches rest engine
    (outcomes :: more, engine)

theorem callsIn_quiet (world : World) : tree.callsIn world.quiet = tree.callsIn world := by
  unfold callsIn World.quiet
  rw [List.filterMap_filter]
  refine List.filterMap_congr fun event _ => ?_
  cases event <;> rfl

end Node

theorem Machine.reflect_enlist (on : Bool) (machine : Machine) (processes : List Process) :
    (machine.enlist processes).reflect on
      = (machine.reflect on).enlist (processes.map (·.reflect on on)) := by
  simp [enlist, reflect, Task.reflect, Task.runsNode, TaskState.reflect, Function.comp_def]

theorem map_eq_of_forall₂ {α β γ : Type} {R : α → β → Prop} {f : α → γ} {f' : β → γ}
    {list : List α} {list' : List β} (h : List.Forall₂ R list list')
    (hf : ∀ {a b}, R a b → f' b = f a) : list'.map f' = list.map f := by
  induction h with
  | nil => rfl
  | cons hab _ ih => rw [List.map_cons, List.map_cons, hf hab, ih]

namespace Gap

variable {g : Gap} {tree tree' : Node}

theorem Leaves.frame_eq_iff {leaf leaf' : Node} (h : g.Leaves leaf leaf') (frame : FrameId) :
    leaf'.scope.frame = g.shift frame ↔ leaf.scope.frame = frame := by
  cases h with
  | leaf h => exact h.frame ▸ g.shift_injective.eq_iff

theorem Leaves.action?_eq {leaf leaf' : Node} (h : g.Leaves leaf leaf') :
    leaf'.action? = leaf.action? := by
  cases h with
  | leaf => rfl

theorem Leaves.get?_eq {leaf leaf' : Node} (h : g.Leaves leaf leaf') {store store' : Store}
    (hstores : g.Stores store store') (path : Path) :
    store'.get? leaf'.scope path = store.get? leaf.scope path := by
  cases h with
  | leaf h => exact hstores.get?_eq h path

theorem Events.callOf_eq (hleaves : List.Forall₂ g.Leaves tree.leafNodes tree'.leafNodes)
    {event event' : Event} (h : g.Events event event') :
    tree'.callOf event' = tree.callOf event := by
  cases h with
  | @call scope scope' hscope path input =>
    have hindex : ∀ (leaves : List Node) frame,
        leaves.findIdx? (fun leaf => leaf.scope.frame = frame)
          = (leaves.map fun leaf => decide (leaf.scope.frame = frame)).findIdx? id := by
      intro leaves frame
      rw [List.findIdx?_map]
      rfl
    have hsame : ∀ {leaf leaf' : Node}, g.Leaves leaf leaf' →
        decide (leaf'.scope.frame = scope'.frame) = decide (leaf.scope.frame = scope.frame) :=
      fun hleaf => by simp only [hscope.frame, hleaf.frame_eq_iff]
    simp only [Node.callOf, hindex, map_eq_of_forall₂ hleaves hsame]
  | @other event hcall =>
    cases event with
    | call => cases hcall
    | _ => rfl

theorem Worlds.seesAs {world world' : World}
    (hleaves : List.Forall₂ g.Leaves tree.leafNodes tree'.leafNodes)
    (h : g.Worlds world.quiet world'.quiet) : tree.SeesAs tree' world world' := by
  refine ⟨?_, fun path => ?_⟩
  · have hcalls : ∀ (tree : Node) (world : World),
        tree.callsIn world = (world.events.map tree.callOf).filterMap id := fun tree world => by
      rw [List.filterMap_map]
      rfl
    rw [← tree.callsIn_quiet, ← tree'.callsIn_quiet, hcalls, hcalls,
      map_eq_of_forall₂ h.events fun hevent => hevent.callOf_eq hleaves]
  · have hstores : g.Stores world.store world'.store := h.stores
    exact map_eq_of_forall₂ hleaves fun hleaf => hleaf.get?_eq hstores path

/-- Machines in lockstep, but for the lines of the trace. -/
def Machines (g : Gap) (machine machine' : Machine) : Prop :=
  (machine.reflect false).InStep g.Worlds (machine'.reflect false)

/-- Engines in lockstep, but for the lines of the trace. -/
inductive Engines (g : Gap) : Engine → Engine → Prop
  | clocked {machine machine' : Machine} (h : g.Machines machine machine') :
    Engines g (.clocked machine) (.clocked machine')
  | inPlace {world world' : World} (h : g.Worlds world.quiet world'.quiet) :
    Engines g (.inPlace world) (.inPlace world')

theorem Engines.worlds {engine engine' : Engine} (h : g.Engines engine engine') :
    g.Worlds engine.world.quiet engine'.world.quiet := by
  cases h with
  | clocked h => exact Machine.InStep.world h
  | inPlace h => exact h

theorem Machines.outcome?_eq {machine machine' : Machine} (h : g.Machines machine machine')
    (id : TaskId) : machine'.outcome? id = machine.outcome? id := by
  have houtcome := Machine.InStep.outcome?_eq h id
  simpa [Machine.reflect_outcome?] using houtcome

section Runs

variable (hprocess : ∀ trace trace' input,
  ((tree.process trace input).reflect false false).InStep g.Worlds
    ((tree'.process trace' input).reflect false false)) (trace trace' : Trace)

include hprocess

theorem Machines.happen {machine machine' : Machine} (h : g.Machines machine machine')
    (happening : Happening) :
    g.Machines (tree.happen trace machine happening) (tree'.happen trace' machine' happening) := by
  unfold Machines
  cases happening with
  | run input =>
    rw [Node.happen, Node.happen, Machine.reflect_enlist, Machine.reflect_enlist]
    exact Machine.InStep.enlist h (.cons (hprocess trace trace' input) .nil)
  | move m =>
    rw [Node.happen, Node.happen, Machine.reflect_move, Machine.reflect_move]
    exact Machine.InStep.move h m

/-- Whatever happens, machines stay in lockstep. -/
theorem Machines.play {machine machine' : Machine} (h : g.Machines machine machine')
    (happenings : List Happening) :
    g.Machines (tree.play trace happenings machine) (tree'.play trace' happenings machine') := by
  unfold Node.play
  induction happenings generalizing machine machine' with
  | nil => exact h
  | cons happening rest ih => exact ih (h.happen hprocess trace trace' happening)

theorem Worlds.callInPlace {world world' : World} (h : g.Worlds world.quiet world'.quiet)
    (inputs : List Value) :
    let result := Engine.callInPlace (inputs.map (tree.process trace)) world
    let result' := Engine.callInPlace (inputs.map (tree'.process trace')) world'
    result'.1 = result.1 ∧ g.Worlds result.2.quiet result'.2.quiet := by
  induction inputs generalizing world world' with
  | nil => exact ⟨rfl, h⟩
  | cons input rest ih =>
    have hquiet := (tree.process_formed trace input).inPlace_reflects false false world
    have hquiet' := (tree'.process_formed trace' input).inPlace_reflects false false world'
    have hresult := (hprocess trace trace' input).inPlace h
    have hdrain := hresult.drain
    have houtcome := hresult.outcome
    rw [hquiet.drain, hquiet'.drain] at hdrain
    rw [hquiet.outcome, hquiet'.outcome, Outcome.flip_false, Outcome.flip_false] at houtcome
    obtain ⟨hmore, hlater⟩ := ih hdrain
    simp only [List.map_cons, Engine.callInPlace, houtcome, hmore]
    exact ⟨trivial, hlater⟩

theorem Engines.call {engine engine' : Engine} (h : g.Engines engine engine')
    (inputs : List Value) :
    let result := engine.call (inputs.map (tree.process trace))
    let result' := engine'.call (inputs.map (tree'.process trace'))
    result'.1 = result.1 ∧ g.Engines result.2 result'.2 := by
  cases h with
  | inPlace h =>
    obtain ⟨houtcomes, hlater⟩ := h.callInPlace hprocess trace trace' inputs
    exact ⟨houtcomes, .inPlace hlater⟩
  | clocked h =>
    have hall : List.Forall₂ (Process.InStep g.Worlds)
        ((inputs.map (tree.process trace)).map (·.reflect false false))
        ((inputs.map (tree'.process trace')).map (·.reflect false false)) := by
      simp only [List.map_map, List.forall₂_map_left_iff, List.forall₂_map_right_iff]
      exact List.forall₂_same.2 fun input _ => hprocess trace trace' input
    obtain ⟨houtcomes, hlater⟩ := Machine.InStep.call h hall
    rw [Machine.reflect_call, Machine.reflect_call] at houtcomes hlater
    simp only [Outcome.flip_false, Option.map_id_fun', List.map_id] at houtcomes
    have hdefault := congrArg (List.map fun outcome : Option Outcome => outcome.getD default)
      houtcomes
    exact ⟨hdefault, .clocked hlater⟩

theorem Engines.batches {engine engine' : Engine} (h : g.Engines engine engine')
    (inputs : List (List Value)) :
    let result := tree.batches trace inputs engine
    let result' := tree'.batches trace' inputs engine'
    result'.1 = result.1 ∧ g.Engines result.2 result'.2 := by
  induction inputs generalizing engine engine' with
  | nil => exact ⟨rfl, h⟩
  | cons batch rest ih =>
    obtain ⟨houtcomes, hcalled⟩ := h.call hprocess trace trace' batch
    obtain ⟨hmore, hlater⟩ := ih hcalled
    simp only [Node.batches, houtcomes, hmore]
    exact ⟨trivial, hlater⟩

end Runs

/-- Nobody learns of the new frames from what the leaves of the trees do. -/
theorem Nodes.alike (h : g.Nodes tree tree') (hasks : tree.Asks Request.IsBlind)
    {store store' : Store} (hstores : g.Stores store store') (trace trace' : Trace) :
    (∀ happenings : List Happening,
      let machine := tree.play trace happenings { world := { store } }
      let machine' := tree'.play trace' happenings { world := { store := store' } }
      (∀ id, machine'.outcome? id = machine.outcome? id)
        ∧ tree.SeesAs tree' machine.world machine'.world)
    ∧ ∀ (inputs : List (List Value)), ∀ engine ∈ [Engine.inPlace, (.clocked { world := · })],
      let result := tree.batches trace inputs (engine { store })
      let result' := tree'.batches trace' inputs (engine { store := store' })
      result'.1 = result.1 ∧ tree.SeesAs tree' result.2.world result'.2.world := by
  have hworlds : g.Worlds ({ store } : World).quiet ({ store := store' } : World).quiet :=
    ⟨hstores, .nil⟩
  have hmachines : g.Machines { world := { store } } { world := { store := store' } } := by
    have hnone : ∀ (world : World) id, (Machine.reflect false { world }).task id = default := by
      simp [Machine.task, Machine.reflect]
    refine ⟨rfl, fun id => ?_, rfl, rfl, rfl, rfl, hworlds⟩
    rw [hnone, hnone]
    exact ⟨.draining, rfl, rfl, rfl⟩
  refine ⟨fun happenings => ?_, fun inputs engine hengine => ?_⟩
  · have hlater := hmachines.play (h.process hasks) trace trace' happenings
    exact ⟨hlater.outcome?_eq, Worlds.seesAs h.leaves (Machine.InStep.world hlater)⟩
  · have hengines : g.Engines (engine { store }) (engine { store := store' }) := by
      simp only [List.mem_cons, List.not_mem_nil, or_false] at hengine
      rcases hengine with rfl | rfl
      · exact .inPlace hworlds
      · exact .clocked hmachines
    obtain ⟨houtcomes, hlater⟩ := hengines.batches (h.process hasks) trace trace' inputs
    exact ⟨houtcomes, Worlds.seesAs h.leaves hlater.worlds⟩

end Gap

/-- A definition compiles with a node put in that makes no difference if it does without it, and
the two trees have the same leaves. If their actions do not ask how many frames there are, then
whatever happens is the same: runs that begin at any time and tasks that go on in any order, which
is the same for both; runs in the order of the machine; and runs in place. They come to the same
outcomes, after the same calls of the same leaves with the same inputs, and the leaves see the same
under every path. Tracing may be switched on for one of the two and off for the other. -/
theorem padding_is_neutral (registry : Registry) (globals : Option Scope) (d d' : Definition)
    (store : Store) (hpadded : d.Padded d')
    (hglobals : ∀ scope ∈ globals, ∀ id ∈ scope.frames, id < store.frames.size) :
    (compile registry globals d' store).isOk = (compile registry globals d store).isOk
    ∧ ∀ tree later tree' later', compile registry globals d store = .ok (tree, later) →
      compile registry globals d' store = .ok (tree', later') →
      tree'.leafNodes.map Node.action? = tree.leafNodes.map Node.action?
      ∧ (tree.Asks Request.IsBlind → ∀ trace trace' : Trace,
        (∀ happenings : List Happening,
          let machine := tree.play trace happenings { world := { store := later } }
          let machine' := tree'.play trace' happenings { world := { store := later' } }
          (∀ id, machine'.outcome? id = machine.outcome? id)
            ∧ tree.SeesAs tree' machine.world machine'.world)
        ∧ ∀ (inputs : List (List Value)), ∀ engine ∈ [Engine.inPlace, (.clocked { world := · })],
          let result := tree.batches trace inputs (engine { store := later })
          let result' := tree'.batches trace' inputs (engine { store := later' })
          result'.1 = result.1 ∧ tree.SeesAs tree' result.2.world result'.2.world) := by
  have hframes : ∀ id ∈ (Compile.Context.mk registry globals .plain []).frames,
      id < store.frames.size := by
    cases globals with
    | none => exact fun id hid => nomatch hid
    | some scope => exact hglobals scope rfl
  have hagree := Compile.node_padded hpadded hframes
  refine ⟨hagree.isOk_eq, fun tree later tree' later' hcompile hcompile' => ?_⟩
  rw [show Compile.node _ d store = _ from hcompile,
    show Compile.node _ d' store = _ from hcompile'] at hagree
  obtain ⟨g, -, hnodes, hstores⟩ := hagree.of_ok
  exact ⟨map_eq_of_forall₂ hnodes.leaves fun hleaf => hleaf.action?_eq,
    fun hasks trace trace' => hnodes.alike hasks hstores trace trace'⟩

/-- Two inverters around the leaf of a sequence, which reads a variable of the sequence. -/
theorem padding_is_neutral_of_inverters :
    let look : Action := .plain fun input =>
      .ask (.get ⟨"x", []⟩) fun answer => .done (.ok (answer.getD input))
    let d := (Definition.ofChildren .seq [.node (.ofAction look)]).declare "x" (.bool true)
    let v := Definition.ofChildren .invert [.node (.ofAction look)]
    let w := Definition.ofChildren .invert [.node v]
    let d' := d.setChildren .seq (some ([] ++ ([.node w] ++ [])))
    let globals : Option Scope := some ⟨0, []⟩
    let store : Store := ⟨#[Table.empty]⟩
    let trace : Trace := { enabled := true, indent := 2 }
    d.Padded d' ∧ (∀ scope ∈ globals, ∀ id ∈ scope.frames, id < store.frames.size)
      ∧ ∃ tree later tree' later', compile .empty globals d store = .ok (tree, later)
        ∧ compile .empty globals d' store = .ok (tree', later')
        ∧ tree.Asks Request.IsBlind
        ∧ (tree'.batches trace [[.null]] (.inPlace { store := later' })).1
          = [[.success (.bool true)]]
        ∧ tree'.callsIn (tree'.batches trace [[.null]] (.inPlace { store := later' })).2.world
          = [(some 0, none, .null)] := by
  intro look d v w d' globals store trace
  have hbare : ∀ child : Definition, (Definition.ofChildren .invert [.node child]).Bare .invert
      [.node child] := fun child =>
    ⟨rfl, rfl, rfl, rfl, rfl, fun other => by cases other <;> rfl⟩
  have hpadded : d.Padded d' :=
    .inside (c := .node (.ofAction look)) rfl (.inverters (hbare v) (hbare _)) fun _ => rfl
  have hglobals : ∀ scope ∈ globals, ∀ id ∈ scope.frames, id < store.frames.size := by
    simp [globals, store, Scope.frames]
  obtain ⟨tree, later, hcompile, htree, hlater⟩ :
      ∃ tree later, compile .empty globals d store = .ok (tree, later)
        ∧ tree = .sequence ⟨none, none, false, .plain, ⟨1, [0]⟩⟩
          [.leaf ⟨none, none, false, .plain, ⟨2, [1, 0]⟩⟩ none look]
        ∧ later = ⟨#[Table.empty, d.declared, Table.empty]⟩ := by
    simp only [compile, Compile.node_eq_ok_iff]
    exact ⟨_, _, ⟨.sequence, _, _, rfl, .inr ⟨by decide, _, _, rfl,
      Compile.nodes_cons_eq_ok_iff.2 ⟨_, _, _, Compile.node_eq_ok_iff.2
        ⟨.action, _, _, rfl, .inl ⟨rfl, rfl, rfl⟩⟩, Compile.nodes_nil _ _ _ _, rfl⟩, rfl⟩⟩,
      rfl, rfl⟩
  subst htree hlater
  have hasks : (Node.sequence ⟨none, none, false, .plain, ⟨1, [0]⟩⟩
      [.leaf ⟨none, none, false, .plain, ⟨2, [1, 0]⟩⟩ none look]).Asks Request.IsBlind := by
    rintro (_ | ⟨_ | i, _ | ⟨j, rest⟩⟩) info path action h <;>
      simp [Node.at?, Node.children] at h
    obtain ⟨-, -, rfl⟩ := h
    exact fun _ => ⟨trivial, fun _ => trivial⟩
  obtain ⟨hok, hsame⟩ := padding_is_neutral .empty globals d d' store hpadded hglobals
  rw [hcompile] at hok
  cases hcompile' : compile .empty globals d' store with
  | error e => rw [hcompile'] at hok; cases hok
  | ok made' =>
    obtain ⟨tree', later'⟩ := made'
    obtain ⟨-, hruns⟩ := hsame _ _ tree' later' hcompile hcompile'
    obtain ⟨houtcomes, hsees⟩ := (hruns hasks trace trace).2 [[.null]] .inPlace (by simp)
    refine ⟨hpadded, hglobals, _, _, tree', later', hcompile, rfl, hasks, ?_, ?_⟩
    · rw [houtcomes]
      rfl
    · rw [hsees.calls]
      rfl

end BehaviorTree
