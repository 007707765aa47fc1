import BehaviorTree.Proofs.Registrations
import BehaviorTree.Proofs.Relocating

/-!
# Unrelated registrations

Compiling asks a registry for the paths of actions that occur in the definition, and for nothing
else: registries in which these paths lead to the same compile it alike
(`Compile.node_asksNames`). An insertion changes where a path leads only if the two can be
compared, so one that lies aside of every path in the definition changes nothing
(`compile_insert_of_aside`).
-/

namespace BehaviorTree

namespace Definition

/-- The paths of actions in a definition: those of its leaves, and the children that are paths,
under whatever key. -/
inductive Names : Definition → String → Prop
  | action {d : Definition} {path : String} (h : d.action = some (.path path)) : Names d path
  | child {d : Definition} {field : ChildField} {cs : List (Child Definition)} {path : String}
    (hcs : d.children field = some cs) (h : .path path ∈ cs) : Names d path
  | inside {d e : Definition} {field : ChildField} {cs : List (Child Definition)} {path : String}
    (hcs : d.children field = some cs) (he : .node e ∈ cs) (h : Names e path) : Names d path

theorem children_ofPath (text : String) (field : ChildField) :
    (ofPath text).children field = none := by
  cases field <;> rfl

theorem Names.eq_of_ofPath {text path : String} (h : (ofPath text).Names path) : text = path := by
  cases h with
  | action h => exact ActionRef.path.inj (Option.some.inj h)
  | child hcs _ => rw [children_ofPath] at hcs; cases hcs
  | inside hcs _ _ => rw [children_ofPath] at hcs; cases hcs

/-- What a child names its parent names. -/
theorem Names.of_child {d : Definition} {field : ChildField} {cs : List (Child Definition)}
    {c : Child Definition} {path : String} (hcs : d.children field = some cs) (hc : c ∈ cs)
    (h : (ofChild c).Names path) : d.Names path := by
  cases c with
  | path text => exact .child hcs (h.eq_of_ofPath ▸ hc)
  | node e => exact .inside hcs hc h

theorem findAction_congr {d : Definition} {r r' : Registry}
    (h : ∀ path, d.Names path → r'.resolve (Path.ofString path) = r.resolve (Path.ofString path))
    (convention : Convention) : d.findAction r' convention = d.findAction r convention := by
  unfold findAction
  rcases haction : d.action with _ | ⟨path⟩ | ⟨action⟩
  · rfl
  · simp only [h path (.action haction)]
  · rfl

end Definition

namespace Compile

/-- A context with another registry. -/
def Context.withRegistry (context : Context) (r : Registry) : Context :=
  { context with registry := r }

/-- A definition compiles alike in two registries if the paths that it names lead to the same in
both. -/
def AsksNames (d : Definition) : Prop :=
  ∀ (context : Context) (r : Registry), (∀ path, d.Names path →
      r.resolve (Path.ofString path) = context.registry.resolve (Path.ofString path)) →
    ∀ store, node (context.withRegistry r) d store = node context d store

section Step

variable {context : Context} {r : Registry} {d : Definition}

theorem Context.leaf_withRegistry (h : ∀ path, d.Names path →
      r.resolve (Path.ofString path) = context.registry.resolve (Path.ofString path))
    (info : NodeInfo) : (context.withRegistry r).leaf d info = context.leaf d info := by
  unfold Context.leaf
  rw [show (context.withRegistry r).registry = r from rfl, Definition.findAction_congr h]
  rfl

theorem Context.composite_withRegistry {kind : NodeKind} (hkind : kind ≠ .action)
    (info : NodeInfo) (children : List Node) :
    (context.withRegistry r).composite d kind info children
      = context.composite d kind info children := by
  cases kind with
  | action => exact absurd rfl hkind
  | _ => rfl

theorem nodes_withRegistry : ∀ {cs : List (Child Definition)}, (∀ c ∈ cs, AsksNames (.ofChild c)) →
    (∀ c ∈ cs, ∀ path, (Definition.ofChild c).Names path →
      r.resolve (Path.ofString path) = context.registry.resolve (Path.ofString path)) →
    ∀ (info : NodeInfo) (index : Nat) (store : Store),
    nodes (context.withRegistry r) info index cs store = nodes context info index cs store
  | [], _, _, info, index, store => by rw [nodes_nil, nodes_nil]
  | c :: rest, hasks, hnames, info, index, store => by
    obtain ⟨hc, hrest⟩ := List.forall_mem_cons.1 hasks
    obtain ⟨hcnames, hrestnames⟩ := List.forall_mem_cons.1 hnames
    rw [nodes_cons_eq, nodes_cons_eq]
    refine congrArg₂ Except.bind (hc (context.child info index) r hcnames store)
      (funext fun made => ?_)
    rw [nodes_withRegistry hrest hrestnames]

theorem asksNames_of_children (h : ∀ (field : ChildField) (cs : List (Child Definition)),
    d.children field = some cs → ∀ c ∈ cs, AsksNames (.ofChild c)) : AsksNames d := by
  intro context r hnames store
  rw [node_eq, node_eq]
  -- entering a node looks at what its ancestors hand down, and a registry is not part of that
  refine congrArg₂ Except.bind rfl (funext fun entered => ?_)
  obtain ⟨kind, info, entered⟩ := entered
  by_cases hleaf : kind.isLeaf
  · rw [if_pos hleaf, if_pos hleaf, Context.leaf_withRegistry hnames]
  · have hkind : kind ≠ .action := by
      rintro rfl
      exact hleaf (by decide)
    rw [if_neg hleaf, if_neg hleaf]
    cases d.findChildren kind with
    | error defect => rfl
    | ok found =>
      obtain ⟨cs, field, hcs⟩ := found
      simp only [Context.locate, Except.map, Except.bind, Context.composite_withRegistry hkind,
        nodes_withRegistry (h field cs hcs) fun c hc path hpath =>
          hnames path (.of_child hcs hc hpath)]

end Step

theorem asksNames_ofPath (text : String) : AsksNames (.ofPath text) :=
  asksNames_of_children fun field cs hcs => by
    rw [Definition.children_ofPath] at hcs
    cases hcs

/-- Compiling asks a registry for the paths that the definition names. -/
theorem node_asksNames (d : Definition) : AsksNames d := by
  refine asksNames_of_children fun field cs hcs c hc => ?_
  cases c with
  | path text => exact asksNames_ofPath text
  | node e =>
    have hlt : sizeOf e < sizeOf d := Definition.sizeOf_lt_of_mem_children hcs hc
    exact node_asksNames e
termination_by sizeOf d

end Compile

/-- A registration that lies aside of every path in a definition makes no difference to it: it
compiles to the same tree in the same store, or with the same defect at the same node. -/
theorem compile_insert_of_aside (registry : Registry) (inserted : Path) (a : Action)
    (globals : Option Scope) (d : Definition)
    (h : ∀ path, d.Names path → ¬inserted.Comparable (Path.ofString path)) (store : Store) :
    compile (registry.insert inserted a) globals d store = compile registry globals d store :=
  Compile.node_asksNames d { registry, parent := globals } (registry.insert inserted a)
    (fun path hpath => registry.resolve_insert_of_not_comparable (h path hpath) a) store

/-- Another action in the group of the one that a sequence calls. -/
theorem compile_insert_of_aside_of_door :
    let registry := Registry.ofList [("door.open", default)]
    let inserted := Path.ofString "door.close"
    let d := Definition.ofChildren .seq [.path "door.open"]
    (∀ path, d.Names path → ¬inserted.Comparable (Path.ofString path))
      ∧ ∃ tree final, compile (registry.insert inserted default) none d {} = .ok (tree, final)
        ∧ tree.count = 2 := by
  intro registry inserted d
  have hchildren : ∀ {field cs}, d.children field = some cs → cs = [.path "door.open"] := by
    intro field cs hcs
    cases field <;> cases hcs
    rfl
  have haside : ∀ path, d.Names path → ¬inserted.Comparable (Path.ofString path) := by
    intro path hpath
    cases hpath with
    | action h => cases h
    | child hcs h =>
      rw [hchildren hcs, List.mem_singleton] at h
      cases h
      decide +kernel
    | inside hcs he _ =>
      rw [hchildren hcs, List.mem_singleton] at he
      cases he
  refine ⟨haside, ?_⟩
  rw [compile_insert_of_aside registry inserted default none d haside {}]
  simp only [compile, Compile.node_eq_ok_iff]
  exact ⟨_, _, ⟨.sequence, _, _, rfl, .inr ⟨by decide, _, _, rfl,
    Compile.nodes_cons_eq_ok_iff.2 ⟨_, _, _, Compile.node_eq_ok_iff.2
      ⟨.action, _, _, rfl, .inl ⟨rfl, rfl, rfl⟩⟩, Compile.nodes_nil _ _ _ _, rfl⟩, rfl⟩⟩, rfl⟩

end BehaviorTree
