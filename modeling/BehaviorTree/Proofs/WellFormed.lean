import BehaviorTree.Proofs.Compiling
import BehaviorTree.Proofs.Tables

/-!
# The definitions that compile

A definition compiles if and only if it is well-formed (`compile_ok_iff_wellFormed`): every node
that is reached from the root has one kind, names a convention that exists, declares nothing that
a node above it or the globals declare, calls an action of the convention that is in force there,
and has its children, in the number that its kind asks for, under one key.
-/

namespace BehaviorTree

/-- Whether some frames of a store declare a name. -/
def Store.Declares (store : Store) (frames : List FrameId) (name : String) : Prop :=
  ∃ id ∈ frames, name ∈ (store.frame id).names

namespace Definition

/-- What compiling asks of a node, under the nodes above it, the innermost first. -/
structure WellFormedAt (registry : Registry) (declared : String → Prop) (above : List Site)
    (d : Definition) : Prop where
  /-- The tag is a kind whose key has no other beside it; without a tag there is just one key. -/
  kind : ∃ kind, d.HasKind kind
  actionType : ∀ name, d.actionType = some name → ∃ convention : Convention, name = convention.name
  scope : ∀ name ∈ d.declared.names,
    (∀ site ∈ above, name ∉ site.definition.declared.names) ∧ ¬declared name
  /-- The action has the convention that the nearest node names, or else is plain. -/
  action : d.HasKind .action → ∃ action, d.action? registry = some action
    ∧ action.convention.name
      = (d.actionType.or (above.findSome? (·.definition.actionType))).getD "plain"
  children : ∀ kind, d.HasKind kind → kind ≠ .action →
    (d.kindChildren kind).isSome ≠ d.nodes.isSome
  decorator : ∀ kind, d.HasKind kind → kind.isDecorator → d.listed.length = 1
  threshold : d.HasKind .parallel → d.maxSuccess ≠ some (.count 0) ∧ d.maxFail ≠ some (.count 0)

/-- Every node that is reached from the root is as compiling asks. -/
def WellFormed (registry : Registry) (declared : String → Prop) (d : Definition) : Prop :=
  ∀ position site above, d.route position = some (site :: above) →
    site.definition.WellFormedAt registry declared above

theorem threshold_ok_iff (name : String) {threshold? : Option Threshold} :
    (∃ t, threshold name threshold? = .ok t) ↔ threshold? ≠ some (.count 0) := by
  unfold threshold
  split <;> simp_all

theorem policy_ok_iff {d : Definition} :
    (∃ policy, d.policy = .ok policy)
      ↔ d.maxSuccess ≠ some (.count 0) ∧ d.maxFail ≠ some (.count 0) := by
  rw [← threshold_ok_iff "maxSuccess", ← threshold_ok_iff "maxFail"]
  unfold policy
  simp only [bind_eq_ok_iff]
  constructor
  · rintro ⟨-, s, hs, f, hf, -⟩
    exact ⟨⟨s, hs⟩, f, hf⟩
  · rintro ⟨⟨s, hs⟩, f, hf⟩
    exact ⟨_, s, hs, f, hf, rfl⟩

end Definition

namespace Compile

variable {context root : Context} {base store : Store} {above : List Site}

theorem shadowed?_eq_none_iff {d : Definition} :
    d.shadowed? store context.parent = none
      ↔ ∀ name ∈ d.declared.names, ¬store.Declares context.frames name := by
  unfold Definition.shadowed? Context.frames Store.Declares
  cases context.parent with
  | none => simp
  | some scope =>
    simp only [Option.bind_some, List.find?_eq_none, Option.elim_some, Store.defines,
      Store.owner?, List.find?_isSome, Table.contains_iff]

/-- The frames around a node declare what the nodes above it and the globals declare. -/
theorem Context.Under.declares_iff (h : context.Under root base above store)
    (hroot : ∀ id ∈ root.frames, id < base.frames.size) {name : String} :
    store.Declares context.frames name
      ↔ (∃ site ∈ above, name ∈ site.definition.declared.names)
        ∨ base.Declares root.frames name := by
  obtain ⟨own, hframes, hown⟩ := h.frames
  have habove : store.Declares own name
      ↔ ∃ site ∈ above, name ∈ site.definition.declared.names := by
    clear hframes h
    unfold Store.Declares
    induction hown with
    | nil => simp
    | cons hid _ ih => simp [hid.2, ih]
  have hglobals : store.Declares root.frames name ↔ base.Declares root.frames name := by
    unfold Store.Declares
    refine exists_congr fun id => and_congr_right fun hid => ?_
    rw [h.base.frame id (hroot id hid)]
  rw [← habove, ← hglobals, hframes]
  simp [Store.Declares, or_and_right, exists_or]

/-- A node that compiled is as it was asked to be. -/
theorem Compiled.wellFormedAt {d : Definition} {tree : Node} {store' : Store}
    (h : Compiled context d store tree store') (hunder : context.Under root base above store)
    (hroot : ∀ id ∈ root.frames, id < base.frames.size) (hplain : root.inherited = .plain) :
    d.WellFormedAt root.registry (base.Declares root.frames) above := by
  obtain ⟨convention, hconvention, hinfo⟩ := h.info
  have hname := Definition.findConvention_eq_ok_iff.1 hconvention
  refine ⟨⟨_, h.kind⟩, fun name hgiven => ?_, fun name hmem => ?_, fun hleaf => ?_,
    fun kind hkind hne => ?_, fun kind hkind hdecorator => ?_, fun hparallel => ?_⟩
  · rw [hgiven] at hname
    exact ⟨convention, hname⟩
  · have hfresh := shadowed?_eq_none_iff.1 h.fresh name hmem
    rw [hunder.declares_iff hroot, not_or] at hfresh
    exact ⟨fun site hsite hdeclared => hfresh.1 ⟨site, hsite, hdeclared⟩, hfresh.2⟩
  · have hkind := hleaf.unique h.kind
    cases tree with
    | leaf info path action =>
      obtain ⟨haction, heq⟩ := h.action info path action rfl
      rw [hunder.registry] at haction
      refine ⟨action, haction, ?_⟩
      obtain rfl : info = _ := hinfo
      rw [heq]
      show convention.name = _
      rw [← hname, hunder.inherited, hplain]
      cases d.actionType <;> rfl
    | decorator _ decorator => cases decorator <;> cases hkind
    | _ => cases hkind
  · obtain rfl := hkind.unique h.kind
    exact h.oneKey hne
  · obtain rfl := hkind.unique h.kind
    rw [← length_of_nodes h.children]
    cases tree with
    | decorator => rfl
    | _ => cases hdecorator
  · exact Definition.policy_ok_iff.1 (h.policy (hparallel.unique h.kind).symm)

theorem Context.enter_ok {d : Definition} {kind : NodeKind}
    (h : d.WellFormedAt root.registry (base.Declares root.frames) above) (hkind : d.HasKind kind)
    (hunder : context.Under root base above store)
    (hroot : ∀ id ∈ root.frames, id < base.frames.size) :
    ∃ convention, d.findConvention context.inherited = .ok convention
      ∧ context.enter d store
        = .ok (kind, context.info d convention store, store.push d.declared) := by
  have hconvention : ∃ convention, d.findConvention context.inherited = .ok convention := by
    simp only [Definition.findConvention_eq_ok_iff]
    cases hgiven : d.actionType with
    | none => exact ⟨context.inherited, rfl⟩
    | some name => exact h.actionType name hgiven
  obtain ⟨convention, hconvention⟩ := hconvention
  refine ⟨convention, hconvention, enter_eq_ok_iff.2
    ⟨hkind, shadowed?_eq_none_iff.2 fun name hmem => ?_, ⟨convention, hconvention, rfl⟩, rfl⟩⟩
  rw [hunder.declares_iff hroot, not_or]
  exact ⟨fun ⟨site, hsite, hdeclared⟩ => (h.scope name hmem).1 site hsite hdeclared,
    (h.scope name hmem).2⟩

theorem Context.composite_ok (context : Context) {d : Definition} {kind : NodeKind}
    (info : NodeInfo) {trees : List Node} (hkind : kind ≠ .action)
    (hdecorator : kind.isDecorator → trees.length = 1)
    (hpolicy : kind = .parallel → ∃ policy, d.policy = .ok policy) :
    ∃ tree, context.composite d kind info trees = .ok tree := by
  unfold composite
  cases kind with
  | action => exact absurd rfl hkind
  | sequence | selector => exact ⟨_, rfl⟩
  | parallel =>
    obtain ⟨policy, hpolicy⟩ := hpolicy rfl
    exact ⟨_, bind_eq_ok_iff.2 ⟨policy, locate_eq_ok_iff.2 hpolicy, rfl⟩⟩
  | invert | success | failure =>
    obtain ⟨child, rfl⟩ := List.length_eq_one_iff.1 (hdecorator rfl)
    exact ⟨_, rfl⟩

theorem nodes_ok {info : NodeInfo} :
    ∀ {cs : List (Child Definition)} {index : Nat} {store : Store},
    (∀ k c, cs[k]? = some c → ∀ later, store.Extends later →
      ∃ result, node (context.child info (index + k)) (.ofChild c) later = .ok result) →
    ∃ result, nodes context info index cs store = .ok result
  | [], index, store, _ => ⟨_, nodes_nil context info index store⟩
  | c :: cs, index, store, h => by
    obtain ⟨⟨tree, store₁⟩, htree⟩ := h 0 c rfl store (.refl store)
    have hextends := (store.push_extends _).trans (node_extends htree)
    have hrest : ∀ k e, cs[k]? = some e → ∀ later, store₁.Extends later → ∃ result,
        node (context.child info (index + 1 + k)) (.ofChild e) later = .ok result :=
      fun k e he later hlater => by
        have := h (k + 1) e he later (hextends.trans hlater)
        rwa [← Nat.add_assoc, Nat.add_right_comm] at this
    obtain ⟨⟨more, later⟩, hmore⟩ := nodes_ok hrest
    exact ⟨_, nodes_cons_eq_ok_iff.2 ⟨tree, store₁, more, htree, hmore, rfl⟩⟩

theorem node_ok_of_leaf {d : Definition} (hleaf : d.HasKind .action)
    (h : d.WellFormedAt root.registry (base.Declares root.frames) above)
    (hunder : context.Under root base above store)
    (hroot : ∀ id ∈ root.frames, id < base.frames.size) (hplain : root.inherited = .plain) :
    ∃ result, node context d store = .ok result := by
  obtain ⟨convention, hconvention, henter⟩ := Context.enter_ok h hleaf hunder hroot
  obtain ⟨action, haction, hname⟩ := h.action hleaf
  have hsame : action.convention = convention := by
    have hgiven := Definition.findConvention_eq_ok_iff.1 hconvention
    rw [hunder.inherited, hplain] at hgiven
    rw [← Option.some.injEq, ← Convention.ofName?_name convention, ← hgiven,
      ← Convention.ofName?_name action.convention, hname]
    cases d.actionType <;> rfl
  rw [← hunder.registry] at haction
  obtain ⟨path, hfound⟩ := Definition.findAction_eq_ok_iff.2 ⟨haction, hsame⟩
  exact ⟨_, node_eq_ok_iff.2 ⟨_, _, _, henter,
    .inl ⟨rfl, Context.leaf_eq_ok_iff.2 ⟨path, action, hfound, rfl⟩, rfl⟩⟩⟩

/-- A node compiles if it and every node below it are as they are asked to be. -/
theorem node_ok (site : Site) {context : Context} {above : List Site} {store : Store}
    (h : ∀ position below route, Definition.routeFrom above site position = some (below :: route) →
      below.definition.WellFormedAt root.registry (base.Declares root.frames) route)
    (hunder : context.Under root base above store)
    (hroot : ∀ id ∈ root.frames, id < base.frames.size) (hplain : root.inherited = .plain) :
    ∃ result, node context site.definition store = .ok result := by
  have hself := h [] site above rfl
  obtain ⟨kind, hkind⟩ := hself.kind
  by_cases hleaf : kind = .action
  · exact node_ok_of_leaf (hleaf ▸ hkind) hself hunder hroot hplain
  obtain ⟨convention, hconvention, henter⟩ := Context.enter_ok hself hkind hunder hroot
  have hone := hself.children kind hkind hleaf
  obtain ⟨cs, hcs⟩ : ∃ cs,
      (site.definition.kindChildren kind).or site.definition.nodes = some cs := by
    cases hk : site.definition.kindChildren kind with
    | some cs => exact ⟨cs, rfl⟩
    | none =>
      rw [hk] at hone
      exact Option.ne_none_iff_exists'.1 (by simpa using hone)
  obtain ⟨hfield, hfind⟩ := Definition.findChildren_eq_ok_iff.2 ⟨hone, hcs⟩
  have hlisted := hkind.listed_eq hleaf hcs
  have hchildren : ∀ k c, cs[k]? = some c →
      ∀ later, (store.push site.definition.declared).Extends later →
      ∃ result, node (context.child (context.info site.definition convention store) (0 + k))
        (.ofChild c) later = .ok result := fun k c hc later hlater => by
    have hbelow := (hunder.child site hconvention (0 + k)).mono hlater
    have hroute : ∀ position below route,
        Definition.routeFrom (site :: above) (site.child k c) position = some (below :: route) →
        below.definition.WellFormedAt root.registry (base.Declares root.frames) route :=
      fun position below route hroute => h (k :: position) below route (by
        rw [Definition.routeFrom, hlisted, hc]
        exact hroute)
    -- the leaf that a path stands for is no smaller than its parent, so it is not left to induction
    cases c with
    | path path =>
      exact node_ok_of_leaf (Definition.ofPath_hasKind path) (hroute [] _ _ rfl) hbelow hroot hplain
    | node e => exact node_ok (site.child k (.node e)) hroute hbelow hroot hplain
  obtain ⟨⟨trees, later⟩, htrees⟩ := nodes_ok hchildren
  have hlength : trees.length = site.definition.listed.length := by
    rw [hlisted]
    exact length_of_nodes htrees
  obtain ⟨tree, htree⟩ := context.composite_ok
    (context.info site.definition convention store) hleaf
    (fun hdecorator => hlength.trans (hself.decorator kind hkind hdecorator))
    (fun hparallel => Definition.policy_ok_iff.2 (hself.threshold (hparallel ▸ hkind)))
  exact ⟨_, node_eq_ok_iff.2 ⟨_, _, _, henter, .inr ⟨hleaf, _, trees, hfind, htrees, htree⟩⟩⟩
termination_by sizeOf site.definition
decreasing_by
  exact Definition.sizeOf_lt_of_mem_listed (hlisted ▸ List.mem_of_getElem? hc)

end Compile

/-- A definition compiles if and only if it is well-formed, with the names that the globals
declare, as long as the frames of the globals are in the store. -/
theorem compile_ok_iff_wellFormed (registry : Registry) (globals : Option Scope) (d : Definition)
    (store : Store) (hglobals : ∀ scope ∈ globals, ∀ id ∈ scope.frames, id < store.frames.size) :
    (∃ result, compile registry globals d store = .ok result)
      ↔ d.WellFormed registry (store.Declares (globals.elim [] Scope.frames)) := by
  have hroot : ∀ id ∈ globals.elim [] Scope.frames, id < store.frames.size := by
    cases globals with
    | none => simp
    | some scope => exact hglobals scope rfl
  constructor
  · rintro ⟨⟨tree, final⟩, h⟩ position site above hroute
    obtain ⟨context, before, n, later, -, hnode, hunder, -⟩ :=
      Compile.exists_node_of_route h hroute
    exact (Compile.compiled_of_node hnode).wellFormedAt hunder hroot rfl
  · intro h
    exact Compile.node_ok ⟨[], d⟩ (fun position below route hroute => h position below route hroute)
      (.start { registry, parent := globals } store) hroot rfl

/-- Inside globals with one variable, a sequence of one action compiles if it declares another
variable, and not if it declares the same. -/
theorem compile_ok_iff_wellFormed_of_two :
    let registry := Registry.ofList [("noop", default)]
    let store : Store := ⟨#[Table.ofList [("x", .null)]]⟩
    let d (name : String) := (Definition.ofChildren .seq [.path "noop"]).declare name .null
    (∀ scope ∈ some ({ frame := 0 } : Scope), ∀ id ∈ scope.frames, id < store.frames.size)
      ∧ (d "y").WellFormed registry (store.Declares [0])
      ∧ ¬(d "x").WellFormed registry (store.Declares [0]) := by
  intro registry store d
  have hglobals : ∀ scope ∈ some ({ frame := 0 } : Scope), ∀ id ∈ scope.frames,
      id < store.frames.size := by
    decide
  have hy : ∃ tree final,
      compile registry (some { frame := 0 }) (d "y") store = .ok (tree, final) := by
    simp only [compile, Compile.node_eq_ok_iff]
    exact ⟨_, _, .sequence, _, _, rfl, .inr ⟨by decide, _, _, rfl,
      Compile.nodes_cons_eq_ok_iff.2 ⟨_, _, _, Compile.node_eq_ok_iff.2
        ⟨.action, _, _, rfl, .inl ⟨rfl, rfl, rfl⟩⟩, Compile.nodes_nil _ _ _ _, rfl⟩, rfl⟩⟩
  refine ⟨hglobals, ?_, fun h => ?_⟩
  · obtain ⟨tree, final, h⟩ := hy
    exact (compile_ok_iff_wellFormed registry (some { frame := 0 }) (d "y") store hglobals).1
      ⟨_, h⟩
  · obtain ⟨⟨tree, final⟩, h⟩ :=
      (compile_ok_iff_wellFormed registry (some { frame := 0 }) (d "x") store hglobals).2 h
    have hfresh := (Compile.compiled_of_node h).fresh
    exact absurd hfresh (by decide)

end BehaviorTree
