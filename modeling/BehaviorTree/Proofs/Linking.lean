import BehaviorTree.Proofs.Compiling
import BehaviorTree.Proofs.Meaning

/-!
# Frames of a compiled definition

Compiling gives every node a frame of its own (`Compile.frame_inj`), and hands a node the frames
of the nodes around it and of the globals, in this order (`Compile.frames_of_route`). So a tree is
a faithful rendering of what it was compiled from (`Rendering.faithful_of_compile`): each node has
the kind, the action and the number of children that its definition has, and the frames of its
scope hold the variables that it sees.
-/

namespace BehaviorTree

/-- The homes that a leaf looks through, from the inside out. -/
def View.homes (view : View) : List Home :=
  (view.site :: view.above).map (fun site => .own site.position) ++ view.globals.map .outer

namespace Compile

variable {root : Context} {d : Definition} {base final : Store} {tree : Node}

/-- The tree has no nodes but those that its definition has. -/
theorem route_of_at? (h : node root d base = .ok (tree, final)) {position : List Nat} :
    ∀ {n : Node}, tree.at? position = some n →
    ∃ site above, d.route position = some (site :: above) := by
  induction position using List.reverseRecOn with
  | nil => exact fun _ => ⟨⟨[], d⟩, [], rfl⟩
  | append_singleton position i ih =>
    intro n hn
    obtain ⟨parent, hparent, hchild⟩ := Node.at?_append_singleton.1 hn
    obtain ⟨site, above, hroute⟩ := ih hparent
    obtain ⟨context, store, m, later, hm, hnode, -, -⟩ := exists_node_of_route h hroute
    rw [hparent] at hm
    cases hm
    have hlength := length_of_nodes (compiled_of_node hnode).children
    have hi : i < site.definition.listed.length := by
      rw [← hlength]
      exact (List.getElem?_eq_some_iff.1 hchild).1
    exact ⟨_, _, Definition.route_append_singleton.2
      ⟨site, above, _, hroute, List.getElem?_eq_getElem hi, rfl⟩⟩

/-- The frames of a tree are among those made while it was compiled. -/
theorem frame_of_at? (h : node root d base = .ok (tree, final)) {position : List Nat} {n : Node}
    (hn : tree.at? position = some n) :
    base.frames.size ≤ n.scope.frame ∧ n.scope.frame < final.frames.size := by
  obtain ⟨site, above, hroute⟩ := route_of_at? h hn
  obtain ⟨context, store, m, later, hm, hnode, hunder, hlater⟩ := exists_node_of_route h hroute
  rw [hn] at hm
  cases hm
  rw [(compiled_of_node hnode).scope_eq]
  have hpush := (node_extends hnode).size
  rw [Store.size_push] at hpush
  exact ⟨hunder.base.size, Nat.lt_of_lt_of_le hpush hlater.size⟩

/-- The frames around a node are those of its parent. -/
theorem outer_of_child (h : node root d base = .ok (tree, final)) {position : List Nat} {i : Nat}
    {n child : Node} (hn : tree.at? position = some n) (hchild : n.children[i]? = some child) :
    child.scope.outer = n.scope.frames := by
  obtain ⟨site, above, hroute⟩ := route_of_at? h (Node.at?_append_singleton.2 ⟨n, hn, hchild⟩)
  obtain ⟨parent, above', c, hparent, hc, -⟩ := Definition.route_append_singleton.1 hroute
  obtain ⟨context, before, found, later, hfound, hnode, -, -⟩ := exists_node_of_route h hparent
  obtain rfl := Option.some.inj (hfound.symm.trans hn)
  obtain ⟨other, _, _, hother, hnode', -, -⟩ :=
    exists_node_of_nodes (compiled_of_node hnode).children hc
  obtain rfl := Option.some.inj (hother.symm.trans hchild)
  rw [(compiled_of_node hnode').scope_eq]
  rfl

/-- Compiling leaves in the frame of a node what the node declares. -/
theorem frame_eq_declared (h : node root d base = .ok (tree, final)) {position : List Nat}
    {site : Site} {above : List Site} {n : Node} (hroute : d.route position = some (site :: above))
    (hn : tree.at? position = some n) :
    final.frame n.scope.frame = site.definition.declared := by
  obtain ⟨context, before, found, later, hfound, hnode, -, hlater⟩ :=
    exists_node_of_route h hroute
  obtain rfl := Option.some.inj (hfound.symm.trans hn)
  have hextends := (node_extends hnode).trans hlater
  rw [(compiled_of_node hnode).scope_eq, hextends.frame _ (by simp)]
  exact before.frame_push_self site.definition.declared

theorem frames_of_nodes {context : Context} {info : NodeInfo} :
    ∀ {cs : List (Child Definition)} {trees : List Node} {index : Nat} {store store' : Store},
    nodes context info index cs store = .ok (trees, store') →
    (trees.Pairwise fun t u => ∀ p q n m, t.at? p = some n → u.at? q = some m →
        n.scope.frame < m.scope.frame)
      ∧ ∀ t ∈ trees, (∀ p n, t.at? p = some n → store.frames.size ≤ n.scope.frame)
        ∧ ∃ context d before after, node context d before = .ok (t, after)
  | [], _, _, _, _, h => by
    rw [nodes_nil] at h
    cases h
    exact ⟨.nil, by simp⟩
  | c :: cs, _, _, store, _, h => by
    obtain ⟨tree, store₁, more, htree, hmore, rfl⟩ := nodes_cons_eq_ok_iff.1 h
    obtain ⟨hpairwise, hrest⟩ := frames_of_nodes hmore
    have hextends := (store.push_extends _).trans (node_extends htree)
    refine ⟨.cons (fun u hu p q n m hn hm => ?_) hpairwise, fun t ht => ?_⟩
    · exact Nat.lt_of_lt_of_le (frame_of_at? htree hn).2 ((hrest u hu).1 q m hm)
    · rcases List.mem_cons.1 ht with rfl | ht
      · exact ⟨fun p n hn => (frame_of_at? htree hn).1, _, _, _, _, htree⟩
      · exact ⟨fun p n hn => Nat.le_trans hextends.size ((hrest t ht).1 p n hn), (hrest t ht).2⟩

/-- Every node has a frame of its own. -/
theorem frame_inj : ∀ {root d base final}, node root d base = .ok (tree, final) →
    ∀ {p q : List Nat} {n m : Node}, tree.at? p = some n → tree.at? q = some m →
    n.scope.frame = m.scope.frame → p = q := by
  induction tree using Node.induction with
  | step tree ih =>
    intro root d base final h p q n m hn hm heq
    obtain ⟨hpairwise, hrange⟩ := frames_of_nodes (compiled_of_node h).children
    have hscope := (compiled_of_node h).scope_eq
    have hafter : ∀ {i rest k}, tree.at? (i :: rest) = some k →
        tree.scope.frame < k.scope.frame := fun {i rest k} hk => by
      obtain ⟨child, hchild, hk⟩ := Option.bind_eq_some_iff.1 hk
      have := (hrange child (List.mem_of_getElem? hchild)).1 rest k hk
      rw [Store.size_push] at this
      rw [hscope]
      exact this
    cases p with
    | nil =>
      cases hn
      cases q with
      | nil => rfl
      | cons j q => exact absurd heq (Nat.ne_of_lt (hafter hm))
    | cons i p =>
      cases q with
      | nil =>
        cases hm
        exact absurd heq.symm (Nat.ne_of_lt (hafter hn))
      | cons j q =>
        obtain ⟨child, hchild, hn⟩ := Option.bind_eq_some_iff.1 hn
        obtain ⟨other, hother, hm⟩ := Option.bind_eq_some_iff.1 hm
        obtain ⟨hi, hchild⟩ := List.getElem?_eq_some_iff.1 hchild
        obtain ⟨hj, hother⟩ := List.getElem?_eq_some_iff.1 hother
        -- where two positions part ways, all frames of one child come before those of the other
        rw [List.pairwise_iff_getElem] at hpairwise
        rcases Nat.lt_trichotomy i j with hlt | rfl | hlt
        · have := hpairwise i j hi hj hlt p q n m (hchild ▸ hn) (hother ▸ hm)
          exact absurd heq (Nat.ne_of_lt this)
        · obtain rfl : child = other := hchild.symm.trans hother
          have hmem : child ∈ tree.children := hchild ▸ List.getElem_mem hi
          obtain ⟨-, context, e, before, after, hnode⟩ := hrange child hmem
          rw [ih child hmem hnode hn hm heq]
        · have := hpairwise j i hj hi hlt q p m n (hother ▸ hm) (hchild ▸ hn)
          exact absurd heq.symm (Nat.ne_of_lt this)

end Compile

/-- A tree that stands for a definition, next to the actions and the globals that it was compiled
with. -/
structure Rendering where
  registry : Registry
  globals : List FrameId
  /-- The number of frames that were there before. -/
  base : Nat
  definition : Definition
  tree : Node

namespace Rendering

/-- The frame that holds the variables of a home. -/
def frame? (r : Rendering) : Home → Option FrameId
  | .outer id => if id < r.base then some id else none
  | .own position => (r.tree.at? position).map (·.scope.frame)

theorem frame?_outer {r : Rendering} {frame id : FrameId} :
    r.frame? (.outer frame) = some id ↔ frame < r.base ∧ frame = id := by
  simp [frame?]

theorem frame?_own {r : Rendering} {position : List Nat} {id : FrameId} :
    r.frame? (.own position) = some id
      ↔ ∃ n, r.tree.at? position = some n ∧ n.scope.frame = id :=
  Option.map_eq_some_iff

/-- A node has what its definition says, and its scope is what the definition sees. -/
structure Renders (r : Rendering) (site : Site) (above : List Site) (n : Node) : Prop where
  kind : site.definition.kind? = some n.kind
  length : n.children.length = site.definition.listed.length
  action : ∀ info path action, n = .leaf info path action →
    site.definition.action? r.registry = some action
  frames : (View.homes ⟨site, above, r.globals⟩).map r.frame? = n.scope.frames.map some

/-- There is a node for every node of the definition, and no two homes share a frame. -/
structure Faithful (r : Rendering) : Prop where
  node : ∀ {position site above}, r.definition.route position = some (site :: above) →
    ∃ n, r.tree.at? position = some n ∧ r.Renders site above n
  inj : ∀ {home other id}, r.frame? home = some id → r.frame? other = some id → home = other

variable {r : Rendering} {root : Compile.Context} {store final : Store}

theorem frames_of_route (h : Compile.node root r.definition store = .ok (r.tree, final))
    (hglobals : root.frames = r.globals) (hlt : ∀ id ∈ r.globals, id < r.base)
    {position : List Nat} :
    ∀ {site : Site} {above : List Site} {n : Node},
    r.definition.route position = some (site :: above) → r.tree.at? position = some n →
    (View.homes ⟨site, above, r.globals⟩).map r.frame? = n.scope.frames.map some := by
  induction position using List.reverseRecOn with
  | nil =>
    intro site above n hroute hn
    cases hroute
    cases hn
    have hown : r.frame? (.own []) = some r.tree.scope.frame := rfl
    have houter : (r.globals.map Home.outer).map r.frame? = r.globals.map some := by
      rw [List.map_map]
      exact List.map_congr_left fun id hid => if_pos (hlt id hid)
    have hscope := (Compile.compiled_of_node h).scope_eq
    rw [View.homes, List.map_append, houter, List.map_singleton, List.map_singleton, hown, hscope,
      ← hglobals]
    rfl
  | append_singleton position i ih =>
    intro site above n hroute hn
    obtain ⟨parent, above', c, hparent, hc, heq⟩ := Definition.route_append_singleton.1 hroute
    cases heq
    obtain ⟨m, hm, hchild⟩ := Node.at?_append_singleton.1 hn
    have hown : r.frame? (.own (parent.child i c).position) = some n.scope.frame := by
      rw [Site.child, Definition.position_of_route hparent]
      show (r.tree.at? (position ++ [i])).map (·.scope.frame) = _
      rw [hn]
      rfl
    have := ih hparent hm
    rw [Scope.frames, Compile.outer_of_child h hm hchild, List.map_cons, ← this, ← hown]
    rfl

/-- Compiling renders a definition faithfully. -/
theorem faithful_of_compile (h : Compile.node root r.definition store = .ok (r.tree, final))
    (hbase : r.base = store.frames.size) (hglobals : root.frames = r.globals)
    (hregistry : root.registry = r.registry) (hlt : ∀ id ∈ r.globals, id < r.base) :
    r.Faithful := by
  have hown : ∀ {position n}, r.tree.at? position = some n → r.base ≤ n.scope.frame :=
    fun hn => hbase ▸ (Compile.frame_of_at? h hn).1
  refine ⟨fun {position site above} hroute => ?_, fun {home other id} hhome hother => ?_⟩
  · obtain ⟨context, before, n, later, hn, hnode, hunder, -⟩ :=
      Compile.exists_node_of_route h hroute
    have hcompiled := Compile.compiled_of_node hnode
    refine ⟨n, hn, hcompiled.kind.kind?_eq, Compile.length_of_nodes hcompiled.children,
      fun info path action heq => ?_, frames_of_route h hglobals hlt hroute hn⟩
    rw [← hregistry, ← hunder.registry]
    exact (hcompiled.action info path action heq).1
  · cases home with
    | outer frame =>
      obtain ⟨hlt, rfl⟩ := frame?_outer.1 hhome
      cases other with
      | outer other => rw [(frame?_outer.1 hother).2]
      | own q =>
        obtain ⟨m, hm, rfl⟩ := frame?_own.1 hother
        exact absurd hlt (Nat.not_lt.2 (hown hm))
    | own p =>
      obtain ⟨n, hn, rfl⟩ := frame?_own.1 hhome
      cases other with
      | outer other =>
        obtain ⟨hlt, rfl⟩ := frame?_outer.1 hother
        exact absurd hlt (Nat.not_lt.2 (hown hn))
      | own q =>
        obtain ⟨m, hm, heq⟩ := frame?_own.1 hother
        rw [Compile.frame_inj h hn hm heq.symm]

/-- Before the first run the frames hold what the definition declares. -/
theorem frame_eq_start (h : Compile.node root r.definition store = .ok (r.tree, final))
    (hbase : r.base = store.frames.size) {home : Home} {id : FrameId}
    (hid : r.frame? home = some id) :
    id < final.frames.size ∧ final.frame id = (Account.start r.definition store).vars home := by
  cases home with
  | outer frame =>
    obtain ⟨hlt, rfl⟩ := frame?_outer.1 hid
    have hextends := (store.push_extends _).trans (Compile.node_extends h)
    rw [hbase] at hlt
    exact ⟨Nat.lt_of_lt_of_le hlt hextends.size, hextends.frame _ hlt⟩
  | own position =>
    obtain ⟨n, hn, rfl⟩ := frame?_own.1 hid
    refine ⟨(Compile.frame_of_at? h hn).2, ?_⟩
    obtain ⟨site, above, hroute⟩ := Compile.route_of_at? h hn
    rw [Compile.frame_eq_declared h hroute hn, Account.start_own hroute]

end Rendering

end BehaviorTree
