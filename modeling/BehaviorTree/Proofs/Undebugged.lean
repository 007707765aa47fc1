import BehaviorTree.Proofs.Compiling

/-!
# Compiling does not look at `debug`

A definition without its `debug` fields (`Definition.undebugged`) compiles if the definition does,
and to the same tree without them, with the same frames; if it does not, the defect is the same at
the same place (`Compile.node_undebugged`). Every check of a node reads its other fields only.
-/

namespace BehaviorTree

namespace Definition

mutual

/-- A definition with no `debug` field at any of its nodes. -/
def undebugged : Definition → Definition
  | { kind, title, scope, actionType, debug := _, action, seq, sel, par, invert, success, failure,
      nodes, maxSuccess, maxFail, waitForAll, waitForMe } =>
    { kind, title, scope, actionType, action, maxSuccess, maxFail, waitForAll, waitForMe
      debug := none
      seq := undebuggedUnder seq
      sel := undebuggedUnder sel
      par := undebuggedUnder par
      invert := undebuggedUnder invert
      success := undebuggedUnder success
      failure := undebuggedUnder failure
      nodes := undebuggedUnder nodes }

def undebuggedUnder : Option (List (Child Definition)) → Option (List (Child Definition))
  | none => none
  | some cs => some (undebuggedAll cs)

def undebuggedAll : List (Child Definition) → List (Child Definition)
  | [] => []
  | c :: rest => undebuggedChild c :: undebuggedAll rest

def undebuggedChild : Child Definition → Child Definition
  | .path path => .path path
  | .node d => .node d.undebugged

end

theorem undebuggedAll_eq_map : ∀ cs : List (Child Definition),
    undebuggedAll cs = cs.map undebuggedChild
  | [] => rfl
  | c :: rest => by rw [undebuggedAll, undebuggedAll_eq_map rest, List.map_cons]

theorem undebuggedUnder_eq_map (cs : Option (List (Child Definition))) :
    undebuggedUnder cs = cs.map undebuggedAll := by
  cases cs <;> rfl

theorem children_undebugged (d : Definition) (field : ChildField) :
    d.undebugged.children field = (d.children field).map undebuggedAll := by
  rw [← undebuggedUnder_eq_map]
  cases d
  cases field <;> rfl

theorem kindChildren_undebugged (d : Definition) (kind : NodeKind) :
    d.undebugged.kindChildren kind = (d.kindChildren kind).map undebuggedAll := by
  unfold kindChildren
  cases kind.field? with
  | none => rfl
  | some field => exact d.children_undebugged field

@[simp] theorem title_undebugged (d : Definition) : d.undebugged.title = d.title := by
  cases d
  rfl

theorem ofChild_undebuggedChild (c : Child Definition) :
    ofChild (undebuggedChild c) = (ofChild c).undebugged := by
  cases c <;> rfl

section Checks

variable (d : Definition)

theorem findKind_undebugged : d.undebugged.findKind = d.findKind := by
  have hkeys : d.undebugged.keys = d.keys := by
    unfold keys
    refine List.filter_congr fun kind _ => ?_
    unfold hasKey
    rw [kindChildren_undebugged, Option.isSome_map]
    cases d
    rfl
  have hkind : d.undebugged.kind = d.kind := by
    cases d
    rfl
  unfold findKind
  rw [hkeys, hkind]

theorem findConvention_undebugged (inherited : Convention) :
    d.undebugged.findConvention inherited = d.findConvention inherited := by
  cases d
  rfl

theorem declared_undebugged : d.undebugged.declared = d.declared := by
  cases d
  rfl

theorem findAction_undebugged (registry : Registry) (convention : Convention) :
    d.undebugged.findAction registry convention = d.findAction registry convention := by
  cases d
  rfl

theorem policy_undebugged : d.undebugged.policy = d.policy := by
  cases d
  rfl

theorem map_val_findChildren (kind : NodeKind) :
    (d.findChildren kind).map Subtype.val = match d.kindChildren kind, d.nodes with
      | some _, some _ => .error (.conflictingChildren kind)
      | some cs, none => .ok cs
      | none, some cs => .ok cs
      | none, none => .error (.missingChildren kind) := by
  unfold findChildren
  split <;> rename_i hkind hnodes <;> simp only [hkind, hnodes] <;> rfl

theorem findChildren_undebugged (kind : NodeKind) :
    (d.undebugged.findChildren kind).map Subtype.val
      = ((d.findChildren kind).map Subtype.val).map undebuggedAll := by
  have hnodes : d.undebugged.nodes = d.nodes.map undebuggedAll := d.children_undebugged .nodes
  rw [map_val_findChildren, map_val_findChildren, kindChildren_undebugged, hnodes]
  cases d.kindChildren kind <;> cases d.nodes <;> rfl

end Checks

end Definition

def NodeInfo.undebugged (info : NodeInfo) : NodeInfo :=
  { info with debug := none }

namespace Node

mutual

/-- A tree with no `debug` field at any of its nodes. -/
def undebugged : Node → Node
  | leaf info path action => leaf info.undebugged path action
  | sequence info children => sequence info.undebugged (undebuggedAll children)
  | selector info children => selector info.undebugged (undebuggedAll children)
  | parallel info policy children => parallel info.undebugged policy (undebuggedAll children)
  | decorator info d child => decorator info.undebugged d child.undebugged

def undebuggedAll : List Node → List Node
  | [] => []
  | child :: rest => child.undebugged :: undebuggedAll rest

end

theorem undebuggedAll_eq_map : ∀ children : List Node,
    undebuggedAll children = children.map undebugged
  | [] => rfl
  | child :: rest => by rw [undebuggedAll, undebuggedAll_eq_map rest, List.map_cons]

theorem count_undebugged (tree : Node) : tree.undebugged.count = tree.count := by
  have hall : ∀ children : List Node, (∀ child ∈ children, child.undebugged.count = child.count) →
      countAll (undebuggedAll children) = countAll children := by
    intro children
    induction children with
    | nil => exact fun _ => rfl
    | cons child rest ih =>
      intro h
      obtain ⟨hchild, hrest⟩ := List.forall_mem_cons.1 h
      rw [undebuggedAll, countAll, countAll, hchild, ih hrest]
  induction tree using Node.induction with
  | step tree ih =>
    cases tree with
    | leaf => rfl
    | sequence info children | selector info children | parallel info policy children =>
      simp only [undebugged, count, hall children ih]
    | decorator info d child =>
      simp only [undebugged, count, ih child List.mem_cons_self]

end Node

namespace Compile

theorem node_eq (context : Context) (d : Definition) (store : Store) :
    node context d store = (context.enter d store).bind fun entered =>
      if entered.1.isLeaf then (context.leaf d entered.2.1).map fun tree => (tree, entered.2.2)
      else (context.locate d ((d.findChildren entered.1).map Subtype.val)).bind fun cs =>
        (nodes context entered.2.1 0 cs entered.2.2).bind fun made =>
          (context.composite d entered.1 entered.2.1 made.1).map fun tree => (tree, made.2) := by
  rw [node]
  simp only [bind, pure, Except.pure]
  refine congrArg _ (funext fun entered => ?_)
  obtain ⟨kind, info, entered⟩ := entered
  simp only []
  split
  · cases context.leaf d info <;> rfl
  · cases d.findChildren kind with
    | error defect => rfl
    | ok cs =>
      simp only [Context.locate, Except.map, Except.bind]

section Undebugged

variable (context : Context) (d : Definition)

theorem locate_undebugged {α : Type} (x : Except Defect α) :
    context.locate d.undebugged x = context.locate d x := by
  cases x with
  | ok a => rfl
  | error defect => rw [Context.locate, Context.locate, d.title_undebugged]

theorem enter_undebugged (store : Store) :
    context.enter d.undebugged store
      = (context.enter d store).map fun (kind, info, store) => (kind, info.undebugged, store) := by
  have hshadowed : d.undebugged.shadowed? store context.parent
      = d.shadowed? store context.parent := by
    unfold Definition.shadowed?
    rw [d.declared_undebugged]
  unfold Context.enter
  simp only [locate_undebugged, d.findKind_undebugged, d.findConvention_undebugged,
    d.declared_undebugged, hshadowed]
  cases context.locate d d.findKind with
  | error e => rfl
  | ok kind =>
    cases context.locate d (d.findConvention context.inherited) with
    | error e => rfl
    | ok convention =>
      cases d.shadowed? store context.parent with
      | some name => rfl
      | none =>
        cases d
        rfl

theorem leaf_undebugged (info : NodeInfo) :
    context.leaf d.undebugged info.undebugged = (context.leaf d info).map Node.undebugged := by
  have hconvention : info.undebugged.convention = info.convention := rfl
  unfold Context.leaf
  rw [locate_undebugged, d.findAction_undebugged, hconvention]
  cases context.locate d (d.findAction context.registry info.convention) <;> rfl

theorem composite_undebugged (kind : NodeKind) (info : NodeInfo) (children : List Node) :
    context.composite d.undebugged kind info.undebugged (Node.undebuggedAll children)
      = (context.composite d kind info children).map Node.undebugged := by
  unfold Context.composite
  simp only [locate_undebugged, d.policy_undebugged]
  cases kind with
  | action => exact leaf_undebugged context d info
  | sequence | selector => rfl
  | parallel => cases context.locate d d.policy <;> rfl
  | invert | success | failure =>
    simp only []
    rcases children with _ | ⟨child, _ | ⟨second, rest⟩⟩
    · rfl
    · rfl
    · simp [Node.undebuggedAll_eq_map, Context.locate, Except.map]

end Undebugged

/-- A definition compiles without its `debug` fields as it does with them. -/
def Unlooked (d : Definition) : Prop :=
  ∀ (context : Context) (store : Store), node context d.undebugged store
    = (node context d store).map fun (tree, store) => (tree.undebugged, store)

theorem nodes_undebugged : ∀ {cs : List (Child Definition)},
    (∀ c ∈ cs, Unlooked (.ofChild c)) →
    ∀ (context : Context) (info : NodeInfo) (index : Nat) (store : Store),
    nodes context info.undebugged index (Definition.undebuggedAll cs) store
      = (nodes context info index cs store).map
        fun (trees, store) => (Node.undebuggedAll trees, store)
  | [], _, context, info, index, store => by
    rw [Definition.undebuggedAll, nodes_nil, nodes_nil]
    rfl
  | c :: rest, h, context, info, index, store => by
    obtain ⟨hc, hrest⟩ := List.forall_mem_cons.1 h
    -- the context of a child has nothing of `debug` in it
    have hcontext : context.child info.undebugged index = context.child info index := rfl
    rw [Definition.undebuggedAll, nodes_cons, nodes_cons, Definition.ofChild_undebuggedChild,
      hcontext, hc]
    cases node (context.child info index) (.ofChild c) store with
    | error e => rfl
    | ok made =>
      obtain ⟨tree, later⟩ := made
      have ih := nodes_undebugged hrest context info (index + 1) later
      simp only [Except.map, bind, Except.bind] at ih ⊢
      rw [ih]
      cases nodes context info (index + 1) rest later <;> rfl

theorem unlooked_of_children {d : Definition}
    (h : ∀ (kind : NodeKind) (cs : List (Child Definition)),
      (d.findChildren kind).map Subtype.val = .ok cs → ∀ c ∈ cs, Unlooked (.ofChild c)) :
    Unlooked d := by
  intro context store
  rw [node_eq, node_eq, enter_undebugged]
  cases context.enter d store with
  | error e => rfl
  | ok entered =>
    obtain ⟨kind, info, entered⟩ := entered
    simp only [Except.map, Except.bind]
    split
    · rw [leaf_undebugged]
      cases context.leaf d info <;> rfl
    · have hchildren := d.findChildren_undebugged kind
      rw [locate_undebugged]
      simp only [Except.map] at hchildren
      rw [hchildren]
      cases hcs : d.findChildren kind with
      | error defect => rfl
      | ok cs =>
        have hnodes := nodes_undebugged (h kind cs.1 (by rw [hcs]; rfl)) context info 0 entered
        simp only [Context.locate, hnodes]
        cases nodes context info 0 cs.1 entered with
        | error e => rfl
        | ok made =>
          simp only [Except.map, composite_undebugged]
          cases context.composite d kind info made.1 <;> rfl

theorem unlooked_ofPath (path : String) : Unlooked (.ofPath path) := by
  refine unlooked_of_children fun kind cs hcs => ?_
  rw [Definition.map_val_findChildren] at hcs
  cases kind <;> cases hcs

/-- Whether a definition compiles, to what tree and with which defect, its `debug` fields have no
part in. -/
theorem node_undebugged (d : Definition) : Unlooked d := by
  refine unlooked_of_children fun kind cs hcs c hc => ?_
  cases c with
  | path path => exact unlooked_ofPath path
  | node e =>
    have hlt : sizeOf e < sizeOf d := by
      cases hfound : d.findChildren kind with
      | error defect => rw [hfound] at hcs; cases hcs
      | ok found =>
        rw [hfound] at hcs
        cases hcs
        obtain ⟨field, hfield⟩ := found.2
        exact Definition.sizeOf_lt_of_mem_children hfield hc
    exact node_undebugged e
termination_by sizeOf d

end Compile

end BehaviorTree
