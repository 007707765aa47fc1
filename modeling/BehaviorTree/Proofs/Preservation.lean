import BehaviorTree.Proofs.Prompt
import BehaviorTree.Proofs.Simulation

/-!
# Compiling preserves meaning

A definition without parallel nodes that compiles means what its tree does
(`compile_preserves_meaning`): over any number of runs, with whatever inputs, the tree gives the
outcomes, the calls of leaves and the variables that carrying out the definition gives.
-/

namespace BehaviorTree

/-- Runs of a tree, one after the other. -/
def Node.runs (tree : Node) (trace : Trace) : List Value → Engine → List Outcome × Engine
  | [], engine => ([], engine)
  | input :: rest, engine =>
    let (outcome, engine) := engine.callOne (tree.process trace input)
    let (outcomes, engine) := runs tree trace rest engine
    (outcome :: outcomes, engine)

/-- The root comes to what is meant in one run after the other. -/
theorem Rendering.runs_simulate {r : Rendering} {past : List Event}
    (h : r.Simulates past r.tree.process
      (r.definition.interpret r.registry r.globals [] [])) (trace : Trace) :
    ∀ (inputs : List Value) {engine : Engine} {account : Account},
    r.Agrees past engine.world account →
    (engine.now? = none ∨ ∀ input, (r.tree.process trace input).Direct) →
    ∃ outcomes account',
      r.definition.interpretRuns r.registry r.globals inputs account = some (outcomes, account')
      ∧ (r.tree.runs trace inputs engine).1 = outcomes
      ∧ r.Agrees past (r.tree.runs trace inputs engine).2.world account'
  | [], engine, account, hagrees, _ => ⟨[], account, rfl, rfl, hagrees⟩
  | input :: rest, engine, account, hagrees, hengine => by
    obtain ⟨outcome, world, between, hmeaning, hplace, hworld⟩ := h trace input hagrees
    obtain ⟨houtcome, hnext, hnow⟩ := Engine.callOne_eq hplace (hengine.imp_right (· input))
    rw [← hnext] at hworld
    obtain ⟨outcomes, account', hrest, hruns, hafter⟩ :=
      runs_simulate h trace rest hworld (hengine.imp_left hnow)
    refine ⟨outcome :: outcomes, account', ?_, ?_, hafter⟩
    · rw [Definition.interpretRuns, hmeaning]
      simp only [bind, Option.bind_some, hrest]
      rfl
    · rw [Node.runs]
      simp only [houtcome, hruns]

/-- Running a compiled tree gives the outcomes, the calls and the variables that carrying out its
definition gives, in place with actions of any kind, and on a clock with those that do not wait. -/
theorem compile_preserves_meaning (registry : Registry) (globals : Option Scope) (d : Definition)
    (store final : Store) (tree : Node)
    (hglobals : ∀ scope ∈ globals, ∀ id ∈ scope.frames, id < store.frames.size)
    (hcompile : compile registry globals d store = .ok (tree, final))
    (hparallel : ∀ position site above, d.route position = some (site :: above) →
      site.definition.kind? ≠ some .parallel)
    (trace : Trace) (inputs : List Value) (engine : Engine)
    (hstore : final.Extends engine.world.store)
    (hengine : engine.now? = none ∨ ∀ position info path action,
      tree.at? position = some (.leaf info path action) → action.Prompt) :
    ∃ outcomes account,
      d.interpretRuns registry (globals.elim [] Scope.frames) inputs (.start d store)
        = some (outcomes, account)
      ∧ (tree.runs trace inputs engine).1 = outcomes
      ∧ (tree.runs trace inputs engine).2.world.calls.map some
        = account.calls.map tree.callEvent? ++ engine.world.calls.map some
      ∧ (∀ position site above, d.route position = some (site :: above) →
        ∃ n, tree.at? position = some n
          ∧ (tree.runs trace inputs engine).2.world.store.frame n.scope.frame
            = account.vars (.own position))
      ∧ (∀ id < store.frames.size,
        (tree.runs trace inputs engine).2.world.store.frame id = account.vars (.outer id))
      ∧ ∀ p q n m, tree.at? p = some n → tree.at? q = some m → n.scope.frame = m.scope.frame →
        p = q := by
  let r : Rendering := ⟨registry, globals.elim [] Scope.frames, store.frames.size, d, tree⟩
  have hlt : ∀ id ∈ r.globals, id < r.base := by
    cases globals with
    | none => simp [r]
    | some scope => exact hglobals scope rfl
  have hnode : Compile.node { registry, parent := globals } r.definition store
      = .ok (r.tree, final) := hcompile
  have hfaithful : r.Faithful := Rendering.faithful_of_compile hnode rfl rfl rfl hlt
  have hmatches : r.Matches engine.world.store (Account.start d store).vars := by
    refine ⟨fun {home id} hid => ?_, Variables.start_sound d _ store⟩
    obtain ⟨hbefore, hframe⟩ := Rendering.frame_eq_start hnode rfl hid
    exact ⟨Nat.lt_of_lt_of_le hbefore hstore.size, (hstore.frame id hbefore).trans hframe⟩
  have hdirect : engine.now? = none ∨ ∀ input, (tree.process trace input).Direct :=
    hengine.imp_right fun hprompt input => tree.direct_process (fun position n hn hkind => by
      obtain ⟨site, above, hroute⟩ := Compile.route_of_at? hnode hn
      obtain ⟨m, hm, hrenders⟩ := hfaithful.node hroute
      obtain rfl := Option.some.inj (hm.symm.trans hn)
      exact hparallel position site above hroute (hkind ▸ hrenders.kind)) hprompt trace input
  have hroute : r.definition.route (Site.mk [] d).position = some [⟨[], d⟩] := rfl
  have hstart : r.Agrees engine.world.calls engine.world (.start d store) := ⟨hmatches, rfl⟩
  obtain ⟨outcomes, account, hmeaning, houtcomes, hagrees⟩ :=
    Rendering.runs_simulate (Rendering.process_simulates hfaithful hparallel tree hroute rfl) trace
      inputs hstart hdirect
  refine ⟨outcomes, account, hmeaning, houtcomes, hagrees.calls,
    fun position site above hroute => ?_, fun id hid => ?_, fun p q n m => Compile.frame_inj hnode⟩
  · obtain ⟨n, hn, -⟩ := hfaithful.node hroute
    exact ⟨n, hn, (hagrees.vars.frame (Rendering.frame?_own.2 ⟨n, hn, rfl⟩)).2⟩
  · exact (hagrees.vars.frame (Rendering.frame?_outer.2 ⟨hid, rfl⟩)).2

/-- A leaf that keeps its input in a variable of the node above it, in place and on a clock. -/
theorem compile_preserves_meaning_of_one :
    let remember : Action := .plain fun input =>
      .ask (.set ⟨"seen", []⟩ input) fun _ => .done (.ok input)
    let d := (Definition.ofChildren .seq [.node (.ofAction remember)]).declare "seen" .null
    let inputs : List Value := [.bool false, .bool true]
    ∃ tree final outcomes account,
      compile .empty none d {} = .ok (tree, final)
      ∧ d.interpretRuns .empty [] inputs (.start d {}) = some (outcomes, account)
      ∧ outcomes.map (fun outcome => outcome.payload.asBool?) = [some false, some true]
      ∧ ((account.vars (.own [])).find? "seen").bind Value.asBool? = some true
      ∧ ∀ machine : Machine, machine.world.store = final →
        (tree.runs { enabled := true, indent := 4 } inputs (.clocked machine)).1 = outcomes := by
  intro remember d inputs
  have hcompile : ∃ tree final, compile .empty none d {} = .ok (tree, final)
      ∧ tree = .sequence ⟨none, none, false, .plain, ⟨0, []⟩⟩
        [.leaf ⟨none, none, false, .plain, ⟨1, [0]⟩⟩ none remember]
      ∧ final = ⟨#[d.declared, {}]⟩ := by
    simp only [compile, Compile.node_eq_ok_iff]
    exact ⟨_, _, ⟨.sequence, _, _, rfl, .inr ⟨by decide, _, _, rfl,
      Compile.nodes_cons_eq_ok_iff.2 ⟨_, _, _, Compile.node_eq_ok_iff.2
        ⟨.action, _, _, rfl, .inl ⟨rfl, rfl, rfl⟩⟩, Compile.nodes_nil _ _ _ _, rfl⟩, rfl⟩⟩,
      rfl, rfl⟩
  have hparallel : ∀ position site above, d.route position = some (site :: above) →
      site.definition.kind? ≠ some .parallel := by
    intro position site above hroute
    rcases position with _ | ⟨_ | i, _ | ⟨j, rest⟩⟩
    · cases hroute
      decide
    · cases hroute
      decide
    · cases hroute
    · cases hroute
    · cases hroute
  obtain ⟨tree, final, hcompile, htree, hfinal⟩ := hcompile
  have hprompt : ∀ position info path action,
      tree.at? position = some (.leaf info path action) → action.Prompt := by
    subst htree
    intro position info path action h
    rcases position with _ | ⟨_ | i, _ | ⟨j, rest⟩⟩ <;> cases h
    exact Action.prompt_of_convention (.inl rfl)
  obtain ⟨outcomes, account, hmeaning, houtcomes, -, hvars, -⟩ :=
    compile_preserves_meaning .empty none d {} _ _ (by simp) hcompile hparallel
      { enabled := false, indent := 0 } inputs (.inPlace { store := final }) (.refl _) (.inl rfl)
  refine ⟨tree, final, outcomes, account, hcompile, hmeaning, ?_, ?_, fun machine hstore => ?_⟩
  · subst htree hfinal houtcomes
    decide +kernel
  · obtain ⟨n, hn, hvalue⟩ := hvars [] _ _ rfl
    cases hn
    rw [← hvalue]
    subst htree hfinal
    decide +kernel
  · obtain ⟨outcomes', account', hmeaning', houtcomes', -⟩ :=
      compile_preserves_meaning .empty none d {} _ _ (by simp) hcompile hparallel
        { enabled := true, indent := 4 } inputs (.clocked machine) (hstore ▸ .refl _)
        (.inr hprompt)
    have hsame := Option.some.inj (hmeaning'.symm.trans hmeaning)
    exact houtcomes'.trans (congrArg Prod.fst hsame)

end BehaviorTree
