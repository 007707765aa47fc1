import BehaviorTree.Proofs.Shape
import Mathlib.Data.List.Forall2

/-!
# What compiling does at one node

A node compiles if it can be entered, and then its action or its children and the node around them
(`Compile.node_eq_ok_iff`); the path of an action compiles as a leaf does (`nodes_cons`). Frames
are only ever added to the store (`node_extends`). At every position of a definition that compiles
stands a node, which was compiled under the nodes on the way to it (`exists_node_of_route`).
-/

namespace BehaviorTree

theorem bind_eq_ok_iff {ε α β : Type} {x : Except ε α} {f : α → Except ε β} {b : β} :
    x >>= f = .ok b ↔ ∃ a, x = .ok a ∧ f a = .ok b := by
  cases x <;> simp [bind, Except.bind]

theorem bind_eq_error_iff {ε α β : Type} {x : Except ε α} {f : α → Except ε β} {e : ε} :
    x >>= f = .error e ↔ x = .error e ∨ ∃ a, x = .ok a ∧ f a = .error e := by
  cases x <;> simp [bind, Except.bind]

namespace Store

/-- A store with more frames, and all others as they were. -/
structure Extends (store later : Store) : Prop where
  size : store.frames.size ≤ later.frames.size
  frame : ∀ id < store.frames.size, later.frame id = store.frame id

theorem Extends.refl (store : Store) : store.Extends store :=
  ⟨Nat.le_refl _, fun _ _ => rfl⟩

theorem Extends.trans {a b c : Store} (h : a.Extends b) (h' : b.Extends c) : a.Extends c :=
  ⟨Nat.le_trans h.size h'.size, fun id hid => by
    rw [h'.frame id (Nat.lt_of_lt_of_le hid h.size), h.frame id hid]⟩

/-- A store with one more frame. -/
def push (store : Store) (frame : Table Value) : Store :=
  ⟨store.frames.push frame⟩

@[simp] theorem size_push (store : Store) (frame : Table Value) :
    (store.push frame).frames.size = store.frames.size + 1 := by
  simp [push]

theorem frame_push (store : Store) (frame : Table Value) (id : FrameId) :
    (store.push frame).frame id = if id = store.frames.size then frame else store.frame id := by
  simp only [push, Store.frame, Array.getD_eq_getD_getElem?, Array.getElem?_push]
  split <;> rfl

theorem frame_push_self (store : Store) (frame : Table Value) :
    (store.push frame).frame store.frames.size = frame := by
  rw [frame_push, if_pos rfl]

theorem push_extends (store : Store) (frame : Table Value) :
    store.Extends (store.push frame) := by
  refine ⟨by simp, fun id hid => ?_⟩
  rw [frame_push, if_neg (Nat.ne_of_lt hid)]

end Store

namespace Compile

namespace Context

/-- The frames around a node of a context, from the inside out. -/
def frames (context : Context) : List FrameId :=
  context.parent.elim [] Scope.frames

/-- What a node of a context has. -/
def info (context : Context) (d : Definition) (convention : Convention) (store : Store) :
    NodeInfo :=
  { title := d.title
    debug := d.debug
    waitForMe := d.waitForMe.getD false
    convention
    scope := ⟨store.frames.size, context.frames⟩ }

theorem locate_eq_ok_iff {α : Type} {context : Context} {d : Definition} {x : Except Defect α}
    {a : α} : context.locate d x = .ok a ↔ x = .ok a := by
  cases x <;> simp [locate]

theorem locate_eq_error_iff {α : Type} {context : Context} {d : Definition} {x : Except Defect α}
    {e : CompileError} :
    context.locate d x = .error e
      ↔ ∃ defect, x = .error defect ∧ e = ⟨⟨context.indices, d.title⟩, defect⟩ := by
  cases x <;> simp [locate, eq_comm]

theorem link_eq (context : Context) (store : Store) (frame : Table Value) :
    store.link context.parent frame
      = (⟨store.frames.size, context.frames⟩, store.push frame) := by
  unfold Store.link frames
  cases context.parent <;> rfl

theorem lt_size_of_globals {globals : Option Scope} {store : Store}
    (h : ∀ scope ∈ globals, ∀ id ∈ scope.frames, id < store.frames.size) :
    ∀ id ∈ globals.elim [] Scope.frames, id < store.frames.size := by
  cases globals with
  | none => simp
  | some scope => exact h scope rfl

theorem frames_child (context : Context) (info : NodeInfo) (index : Nat) :
    (context.child info index).frames = info.scope.frame :: info.scope.outer :=
  rfl

theorem enter_eq_ok_iff {context : Context} {d : Definition} {store store' : Store}
    {kind : NodeKind} {info : NodeInfo} :
    context.enter d store = .ok (kind, info, store')
      ↔ d.HasKind kind ∧ d.shadowed? store context.parent = none
        ∧ (∃ convention, d.findConvention context.inherited = .ok convention
          ∧ info = context.info d convention store)
        ∧ store' = store.push d.declared := by
  simp only [enter, bind_eq_ok_iff, locate_eq_ok_iff, Definition.findKind_eq_ok_iff, link_eq]
  constructor
  · rintro ⟨kind, hkind, convention, hconvention, h⟩
    split at h
    · rename_i hshadowed
      rw [locate_eq_ok_iff] at h
      cases h
    · rename_i hshadowed
      cases h
      exact ⟨hkind, hshadowed, ⟨convention, hconvention, rfl⟩, rfl⟩
  · rintro ⟨hkind, hshadowed, ⟨convention, hconvention, rfl⟩, rfl⟩
    refine ⟨kind, hkind, convention, hconvention, ?_⟩
    rw [hshadowed]
    rfl

theorem leaf_eq_ok_iff {context : Context} {d : Definition} {info : NodeInfo} {tree : Node} :
    context.leaf d info = .ok tree
      ↔ ∃ path action, d.findAction context.registry info.convention = .ok (path, action)
        ∧ tree = .leaf info path action := by
  simp only [leaf, bind_eq_ok_iff, locate_eq_ok_iff]
  constructor
  · rintro ⟨⟨path, action⟩, h, heq⟩
    cases heq
    exact ⟨path, action, h, rfl⟩
  · rintro ⟨path, action, h, rfl⟩
    exact ⟨⟨path, action⟩, h, rfl⟩

/-- A composite keeps its kind, what it has as a node, and its children in order. -/
theorem composite_spec {context : Context} {d : Definition} {kind : NodeKind} {info : NodeInfo}
    {children : List Node} {tree : Node} (hkind : kind ≠ .action)
    (h : context.composite d kind info children = .ok tree) :
    tree.kind = kind ∧ tree.info = info ∧ tree.children = children := by
  unfold composite at h
  cases kind with
  | action => exact absurd rfl hkind
  | sequence | selector => cases h; exact ⟨rfl, rfl, rfl⟩
  | parallel =>
    obtain ⟨policy, -, h⟩ := bind_eq_ok_iff.1 h
    cases h
    exact ⟨rfl, rfl, rfl⟩
  | invert | success | failure =>
    simp only [] at h
    split at h
    · cases h
      exact ⟨rfl, rfl, rfl⟩
    · rw [locate_eq_ok_iff] at h
      cases h

end Context

private theorem isLeaf_action : NodeKind.isLeaf .action = true := by
  decide

theorem node_eq_ok_iff {context : Context} {d : Definition} {store store' : Store} {tree : Node} :
    node context d store = .ok (tree, store')
      ↔ ∃ kind info store₁, context.enter d store = .ok (kind, info, store₁)
        ∧ ((kind = .action ∧ context.leaf d info = .ok tree ∧ store' = store₁)
          ∨ (kind ≠ .action ∧ ∃ cs trees, d.findChildren kind = .ok cs
            ∧ nodes context info 0 cs.1 store₁ = .ok (trees, store')
            ∧ context.composite d kind info trees = .ok tree)) := by
  rw [node]
  simp only [bind_eq_ok_iff, Prod.exists]
  refine exists_congr fun kind => exists_congr fun info => exists_congr fun store₁ =>
    and_congr_right fun _ => ?_
  by_cases hkind : kind = .action
  · subst hkind
    rw [if_pos isLeaf_action, bind_eq_ok_iff]
    constructor
    · rintro ⟨leaf, hleaf, h⟩
      cases h
      exact .inl ⟨rfl, hleaf, rfl⟩
    · rintro (⟨-, hleaf, rfl⟩ | ⟨hne, -⟩)
      · exact ⟨tree, hleaf, rfl⟩
      · exact absurd rfl hne
  · rw [if_neg (by simpa [NodeKind.isLeaf] using hkind)]
    simp only [bind_eq_ok_iff, Context.locate_eq_ok_iff, Prod.exists]
    constructor
    · rintro ⟨cs, hcs, trees, later, hnodes, composite, hcomposite, h⟩
      cases h
      exact .inr ⟨hkind, cs, trees, hcs, hnodes, hcomposite⟩
    · rintro (⟨heq, -⟩ | ⟨-, cs, trees, hcs, hnodes, hcomposite⟩)
      · exact absurd heq hkind
      · exact ⟨cs, hcs, trees, store', hnodes, tree, hcomposite, rfl⟩

theorem nodes_nil (context : Context) (info : NodeInfo) (index : Nat) (store : Store) :
    nodes context info index [] store = .ok ([], store) := by
  rw [nodes]

/-- The path of an action is compiled like a leaf that calls it. -/
theorem nodes_cons (context : Context) (info : NodeInfo) (index : Nat) (c : Child Definition)
    (rest : List (Child Definition)) (store : Store) :
    nodes context info index (c :: rest) store = (do
      let (child, store) ← node (context.child info index) (.ofChild c) store
      let (children, store) ← nodes context info (index + 1) rest store
      return (child :: children, store)) := by
  cases c with
  | node d => rw [nodes, Definition.ofChild]
  | path path =>
    rw [nodes, Definition.ofChild, node]
    -- whatever the compiler makes of the kind, there is only one that it can be
    cases henter : (context.child info index).enter (.ofPath path) store with
    | error e => simp [bind, Except.bind]
    | ok entered =>
      obtain ⟨kind, leafInfo, entered⟩ := entered
      have hkind := (Context.enter_eq_ok_iff.1 henter).1
      obtain rfl := hkind.unique (Definition.ofPath_hasKind path)
      simp only [bind, Except.bind, isLeaf_action, if_true]
      cases (context.child info index).leaf (.ofPath path) leafInfo <;> rfl

theorem nodes_cons_eq_ok_iff {context : Context} {info : NodeInfo} {index : Nat}
    {c : Child Definition} {rest : List (Child Definition)} {store store' : Store}
    {trees : List Node} :
    nodes context info index (c :: rest) store = .ok (trees, store')
      ↔ ∃ tree store₁ more, node (context.child info index) (.ofChild c) store = .ok (tree, store₁)
        ∧ nodes context info (index + 1) rest store₁ = .ok (more, store')
        ∧ trees = tree :: more := by
  simp only [nodes_cons, bind_eq_ok_iff, Prod.exists]
  constructor
  · rintro ⟨tree, store₁, hnode, more, later, hmore, h⟩
    cases h
    exact ⟨tree, store₁, more, hnode, hmore, rfl⟩
  · rintro ⟨tree, store₁, more, hnode, hmore, rfl⟩
    exact ⟨tree, store₁, hnode, more, store', hmore, rfl⟩

/-- What is known of a definition and the node that it compiled to. -/
structure Compiled (context : Context) (d : Definition) (store : Store) (tree : Node)
    (store' : Store) : Prop where
  kind : d.HasKind tree.kind
  fresh : d.shadowed? store context.parent = none
  info : ∃ convention, d.findConvention context.inherited = .ok convention
    ∧ tree.info = context.info d convention store
  action : ∀ info path action, tree = .leaf info path action →
    d.action? context.registry = some action ∧ action.convention = info.convention
  oneKey : tree.kind ≠ .action → (d.kindChildren tree.kind).isSome ≠ d.nodes.isSome
  policy : tree.kind = .parallel → ∃ policy, d.policy = .ok policy
  children : nodes context tree.info 0 d.listed (store.push d.declared)
    = .ok (tree.children, store')

theorem compiled_of_node {context : Context} {d : Definition} {store store' : Store} {tree : Node}
    (h : node context d store = .ok (tree, store')) : Compiled context d store tree store' := by
  obtain ⟨kind, info, store₁, henter, h⟩ := node_eq_ok_iff.1 h
  obtain ⟨hkind, hfresh, hinfo, rfl⟩ := Context.enter_eq_ok_iff.1 henter
  rcases h with ⟨rfl, hleaf, rfl⟩ | ⟨hne, ⟨cs, hfield⟩, trees, hcs, hnodes, hcomposite⟩
  · obtain ⟨path, action, haction, rfl⟩ := Context.leaf_eq_ok_iff.1 hleaf
    refine ⟨hkind, hfresh, hinfo, fun _ _ _ heq => ?_, fun hne => absurd rfl hne,
      fun heq => (nomatch heq), ?_⟩
    · cases heq
      exact Definition.findAction_eq_ok_iff.1 ⟨path, haction⟩
    · rw [hkind.listed_eq_nil, nodes_nil]
      rfl
  · obtain ⟨rfl, rfl, rfl⟩ := Context.composite_spec hne hcomposite
    obtain ⟨hone, hlisted⟩ := Definition.findChildren_eq_ok_iff.1 ⟨hfield, hcs⟩
    refine ⟨hkind, hfresh, hinfo, fun _ _ _ heq => ?_, fun _ => hone, fun heq => ?_, ?_⟩
    · rw [heq] at hne
      exact absurd rfl hne
    · rw [heq] at hcomposite
      obtain ⟨policy, hpolicy, -⟩ := bind_eq_ok_iff.1 hcomposite
      exact ⟨policy, Context.locate_eq_ok_iff.1 hpolicy⟩
    · rw [hkind.listed_eq hne hlisted]
      exact hnodes

theorem Compiled.scope_eq {context : Context} {d : Definition} {store store' : Store} {tree : Node}
    (h : Compiled context d store tree store') :
    tree.scope = ⟨store.frames.size, context.frames⟩ := by
  obtain ⟨convention, -, hinfo⟩ := h.info
  rw [Node.scope, hinfo]
  rfl

end Compile

namespace Node

theorem sizeOf_lt_of_mem_children {tree child : Node} (h : child ∈ tree.children) :
    sizeOf child < sizeOf tree := by
  cases tree with
  | leaf => cases h
  | sequence | selector | parallel =>
    have := List.sizeOf_lt_of_mem h
    simp only [children] at this
    simp only [sequence.sizeOf_spec, selector.sizeOf_spec, parallel.sizeOf_spec]
    omega
  | decorator =>
    obtain rfl := List.mem_singleton.1 h
    simp only [decorator.sizeOf_spec]
    omega

/-- What holds of a node if it holds of its children holds of every node. -/
theorem induction {motive : Node → Prop}
    (step : ∀ tree : Node, (∀ child ∈ tree.children, motive child) → motive tree)
    (tree : Node) : motive tree :=
  step tree fun child _ => induction step child
termination_by sizeOf tree
decreasing_by exact sizeOf_lt_of_mem_children ‹_›

/-- The node at a position. -/
def at? (tree : Node) : List Nat → Option Node
  | [] => some tree
  | i :: rest => tree.children[i]?.bind fun child => child.at? rest

theorem at?_append_singleton {i : Nat} {n : Node} : ∀ {tree : Node} {position : List Nat},
    tree.at? (position ++ [i]) = some n
      ↔ ∃ parent, tree.at? position = some parent ∧ parent.children[i]? = some n
  | tree, [] => by simp [at?]
  | tree, j :: position => by
    simp only [List.cons_append, at?, Option.bind_eq_some_iff, at?_append_singleton]
    grind

end Node

namespace Compile

theorem nodes_extends {context : Context} {info : NodeInfo} :
    ∀ {cs : List (Child Definition)} {trees : List Node} {index : Nat} {store store' : Store},
    (∀ tree ∈ trees, ∀ context d store store', node context d store = .ok (tree, store') →
      store.Extends store') →
    nodes context info index cs store = .ok (trees, store') → store.Extends store'
  | [], trees, index, store, store', _, h => by
    rw [nodes_nil] at h
    cases h
    exact .refl store
  | c :: cs, trees, index, store, store', hnode, h => by
    obtain ⟨tree, store₁, more, htree, hmore, rfl⟩ := nodes_cons_eq_ok_iff.1 h
    exact (hnode tree List.mem_cons_self _ _ _ _ htree).trans
      (nodes_extends (fun t ht => hnode t (List.mem_cons_of_mem _ ht)) hmore)

/-- A node adds its own frame, and its children add theirs. -/
theorem node_extends {tree : Node} : ∀ {context : Context} {d : Definition} {store store' : Store},
    node context d store = .ok (tree, store') → (store.push d.declared).Extends store' := by
  induction tree using Node.induction with
  | step tree ih =>
    intro context d store store' h
    refine nodes_extends (fun child hchild _ d store _ hnode => ?_) (compiled_of_node h).children
    exact (store.push_extends d.declared).trans (ih child hchild hnode)

/-- Every listed child was compiled, between the ones before it and the ones after it. -/
theorem exists_node_of_nodes {context : Context} {info : NodeInfo} {c : Child Definition} :
    ∀ {cs : List (Child Definition)} {trees : List Node} {index k : Nat} {store store' : Store},
    nodes context info index cs store = .ok (trees, store') → cs[k]? = some c →
    ∃ tree before after, trees[k]? = some tree
      ∧ node (context.child info (index + k)) (.ofChild c) before = .ok (tree, after)
      ∧ store.Extends before ∧ after.Extends store'
  | [], _, _, _, _, _, _, hc => by cases hc
  | e :: cs, trees, index, k, store, store', h, hc => by
    obtain ⟨tree, store₁, more, htree, hmore, rfl⟩ := nodes_cons_eq_ok_iff.1 h
    have hextends : ∀ {context d store store'} {tree : Node},
        node context d store = .ok (tree, store') → store.Extends store' := fun hnode =>
      (Store.push_extends _ _).trans (node_extends hnode)
    cases k with
    | zero =>
      cases hc
      exact ⟨tree, store, store₁, rfl, htree, .refl store,
        nodes_extends (fun _ _ _ _ _ _ => hextends) hmore⟩
    | succ k =>
      obtain ⟨found, before, after, hfound, hnode, hbefore, hafter⟩ :=
        exists_node_of_nodes hmore hc
      refine ⟨found, before, after, hfound, ?_, (hextends htree).trans hbefore, hafter⟩
      rwa [Nat.add_assoc, Nat.add_comm 1 k] at hnode

theorem length_of_nodes {context : Context} {info : NodeInfo} :
    ∀ {cs : List (Child Definition)} {trees : List Node} {index : Nat} {store store' : Store},
    nodes context info index cs store = .ok (trees, store') → trees.length = cs.length
  | [], _, _, _, _, h => by
    rw [nodes_nil] at h
    cases h
    rfl
  | _ :: _, _, _, _, _, h => by
    obtain ⟨tree, _, more, _, hmore, rfl⟩ := nodes_cons_eq_ok_iff.1 h
    rw [List.length_cons, length_of_nodes hmore, List.length_cons]

/-- A context that compiling from a root comes to under some nodes, with a store that it has by
then. -/
structure Context.Under (context root : Context) (base : Store) (above : List Site)
    (store : Store) : Prop where
  registry : context.registry = root.registry
  inherited : context.inherited.name
    = (above.findSome? (·.definition.actionType)).getD root.inherited.name
  frames : ∃ own, context.frames = own ++ root.frames
    ∧ List.Forall₂ (fun (site : Site) id => id < store.frames.size
      ∧ store.frame id = site.definition.declared) above own
  base : base.Extends store

namespace Context.Under

variable {context root : Context} {base store : Store} {above : List Site}

theorem start (root : Context) (base : Store) : root.Under root base [] base :=
  ⟨rfl, rfl, ⟨[], rfl, .nil⟩, .refl base⟩

theorem mono (h : context.Under root base above store) {later : Store}
    (hlater : store.Extends later) : context.Under root base above later := by
  obtain ⟨own, hframes, hown⟩ := h.frames
  refine ⟨h.registry, h.inherited, ⟨own, hframes, hown.imp fun site id hid => ?_⟩,
    h.base.trans hlater⟩
  exact ⟨Nat.lt_of_lt_of_le hid.1 hlater.size, by rw [hlater.frame id hid.1, hid.2]⟩

theorem lt_size (h : context.Under root base above store)
    (hroot : ∀ id ∈ root.frames, id < base.frames.size) : ∀ id ∈ context.frames,
    id < store.frames.size := by
  obtain ⟨own, hframes, hown⟩ := h.frames
  have hlt : ∀ id ∈ own, id < store.frames.size := by
    clear hframes h
    induction hown with
    | nil => simp
    | cons hid _ ih => simpa [hid.1] using ih
  intro id hid
  rw [hframes] at hid
  rcases List.mem_append.1 hid with hid | hid
  · exact hlt id hid
  · exact Nat.lt_of_lt_of_le (hroot id hid) h.base.size

/-- The children of a node are under it, once its frame is made. -/
theorem child (h : context.Under root base above store) (site : Site) {convention : Convention}
    (hconvention : site.definition.findConvention context.inherited = .ok convention)
    (index : Nat) :
    (context.child (context.info site.definition convention store) index).Under root base
      (site :: above) (store.push site.definition.declared) := by
  obtain ⟨own, hframes, hown⟩ := (h.mono (store.push_extends site.definition.declared)).frames
  refine ⟨h.registry, ?_, ⟨store.frames.size :: own, ?_, .cons ⟨by simp, ?_⟩ hown⟩,
    h.base.trans (store.push_extends _)⟩
  · have hname := Definition.findConvention_eq_ok_iff.1 hconvention
    rw [h.inherited] at hname
    show convention.name = _
    rw [← hname, List.findSome?_cons]
    cases site.definition.actionType <;> rfl
  · rw [frames_child]
    show store.frames.size :: context.frames = _
    rw [hframes]
    rfl
  · exact store.frame_push_self _

end Context.Under

/-- Where a definition that compiles has a node, the tree has the node that it compiled to. -/
theorem exists_node_of_route {root : Context} {d : Definition} {base final : Store} {tree : Node}
    (h : node root d base = .ok (tree, final)) {position : List Nat} :
    ∀ {site : Site} {above : List Site}, d.route position = some (site :: above) →
    ∃ context store n later, tree.at? position = some n
      ∧ node context site.definition store = .ok (n, later)
      ∧ context.Under root base above store ∧ later.Extends final := by
  induction position using List.reverseRecOn with
  | nil =>
    intro site above hroute
    cases hroute
    exact ⟨root, base, tree, final, rfl, h, .start root base, .refl final⟩
  | append_singleton position i ih =>
    intro site above hroute
    obtain ⟨parent, above', c, hparent, hc, heq⟩ := Definition.route_append_singleton.1 hroute
    cases heq
    obtain ⟨context, store, n, later, hn, hnode, hunder, hlater⟩ := ih hparent
    have hcompiled := compiled_of_node hnode
    obtain ⟨convention, hconvention, hinfo⟩ := hcompiled.info
    obtain ⟨child, before, after, hchild, hnode', hbefore, hafter⟩ :=
      exists_node_of_nodes hcompiled.children hc
    refine ⟨_, before, child, after, Node.at?_append_singleton.2 ⟨n, hn, hchild⟩, hnode', ?_,
      hafter.trans hlater⟩
    rw [hinfo]
    exact (hunder.child parent hconvention _).mono hbefore

end Compile

end BehaviorTree
