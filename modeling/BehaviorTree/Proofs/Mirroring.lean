import BehaviorTree.Proofs.Linking
import BehaviorTree.Proofs.Visible
import Mathlib.Data.Set.Card

/-!
# A tree mirrors its definition

A tree has a node for every node of its definition, in the same place (`Compile.isSome_at?_iff`),
and no others, so it has as many (`Node.length_positions`). The node is as the definition has it
(`Compile.Mirrors`): the actions, the conventions and the thresholds are what the definition says
or leaves to be understood. Its frame is one that compiling made for it alone; the frames around it
are those of the nodes around it and of the globals, so a scope reads what the nearest of these
nodes declares (`Store.get?_of_frames`). All of this is put together in `compile_mirrors`.
-/

namespace BehaviorTree

theorem findSome?_eq_of_forall₂ {α β γ : Type} {f : α → Option γ} {g : β → Option γ} {l : List α}
    {l' : List β} (h : List.Forall₂ (fun a b => f a = g b) l l') :
    l.findSome? f = l'.findSome? g := by
  induction h with
  | nil => rfl
  | cons hab _ ih => rw [List.findSome?_cons, List.findSome?_cons, hab, ih]

namespace Node

mutual

/-- The positions of the nodes of a tree, in the order of the document. -/
def positions : Node → List (List Nat)
  | .leaf _ _ _ => [[]]
  | .sequence _ children => [] :: positionsFrom 0 children
  | .selector _ children => [] :: positionsFrom 0 children
  | .parallel _ _ children => [] :: positionsFrom 0 children
  | .decorator _ _ child => [] :: child.positions.map (0 :: ·)

/-- The positions of the nodes at and below children with indices from some one on. -/
def positionsFrom (i : Nat) : List Node → List (List Nat)
  | [] => []
  | child :: rest => child.positions.map (i :: ·) ++ positionsFrom (i + 1) rest

end

theorem positions_eq (tree : Node) : tree.positions = [] :: positionsFrom 0 tree.children := by
  cases tree with
  | decorator info d child => simp [positions, children, positionsFrom]
  | _ => rfl

theorem count_eq (tree : Node) : tree.count = 1 + countAll tree.children := by
  cases tree with
  | decorator info d child => simp [count, children, countAll]
  | _ => rfl

theorem mem_positionsFrom {position : List Nat} : ∀ {children : List Node} {i : Nat},
    position ∈ positionsFrom i children ↔ ∃ j child rest, children[j]? = some child
      ∧ rest ∈ child.positions ∧ position = (i + j) :: rest
  | [], i => by simp [positionsFrom]
  | child :: others, i => by
    rw [positionsFrom, List.mem_append, mem_positionsFrom, List.mem_map]
    constructor
    · rintro (⟨rest, hrest, rfl⟩ | ⟨j, c, rest, hc, hrest, rfl⟩)
      · exact ⟨0, child, rest, rfl, hrest, rfl⟩
      · exact ⟨j + 1, c, rest, hc, hrest, by rw [Nat.add_assoc, Nat.add_comm 1]⟩
    · rintro ⟨_ | j, c, rest, hc, hrest, rfl⟩
      · obtain rfl := Option.some.inj hc
        exact .inl ⟨rest, hrest, rfl⟩
      · exact .inr ⟨j, c, rest, hc, hrest, by rw [Nat.add_assoc, Nat.add_comm 1]⟩

theorem mem_positions (tree : Node) : ∀ {position : List Nat},
    position ∈ tree.positions ↔ (tree.at? position).isSome := by
  induction tree using Node.induction with
  | step tree ih =>
    intro position
    rw [positions_eq, List.mem_cons, mem_positionsFrom]
    cases position with
    | nil => simp [at?]
    | cons i rest =>
      simp only [at?, Option.isSome_bind, reduceCtorEq, false_or, Nat.zero_add, List.cons.injEq,
        Option.any_eq_true]
      constructor
      · rintro ⟨j, child, rest', hchild, hrest, rfl, rfl⟩
        exact ⟨child, hchild, (ih child (List.mem_of_getElem? hchild)).1 hrest⟩
      · rintro ⟨child, hchild, hat⟩
        exact ⟨i, child, rest, hchild, (ih child (List.mem_of_getElem? hchild)).2 hat, rfl, rfl⟩

theorem positionsFrom_pairwise : ∀ {children : List Node} (i : Nat),
    (∀ child ∈ children, child.positions.Pairwise (· < ·)) →
    (positionsFrom i children).Pairwise (· < ·)
  | [], _, _ => .nil
  | child :: rest, i, h => by
    obtain ⟨hchild, hrest⟩ := List.forall_mem_cons.1 h
    rw [positionsFrom, List.pairwise_append]
    refine ⟨?_, positionsFrom_pairwise (i + 1) hrest, ?_⟩
    · rw [List.pairwise_map]
      exact hchild.imp fun hlt => List.cons_lt_cons_iff.2 (.inr ⟨rfl, hlt⟩)
    · intro p hp q hq
      obtain ⟨p, -, rfl⟩ := List.mem_map.1 hp
      obtain ⟨j, -, q, -, -, rfl⟩ := mem_positionsFrom.1 hq
      exact List.cons_lt_cons_iff.2 (.inl (by omega))

/-- The positions go up, so none of them is there twice. -/
theorem positions_pairwise (tree : Node) : tree.positions.Pairwise (· < ·) := by
  induction tree using Node.induction with
  | step tree ih =>
    rw [positions_eq]
    refine List.pairwise_cons.2 ⟨fun p hp => ?_, positionsFrom_pairwise 0 ih⟩
    obtain ⟨j, -, rest, -, -, rfl⟩ := mem_positionsFrom.1 hp
    exact List.nil_lt_cons _ _

theorem length_positions (tree : Node) : tree.positions.length = tree.count := by
  have hfrom : ∀ (children : List Node) (i : Nat),
      (∀ child ∈ children, child.positions.length = child.count) →
      (positionsFrom i children).length = countAll children := by
    intro children
    induction children with
    | nil => exact fun _ _ => rfl
    | cons child rest ih =>
      intro i h
      obtain ⟨hchild, hrest⟩ := List.forall_mem_cons.1 h
      rw [positionsFrom, List.length_append, List.length_map, hchild, ih (i + 1) hrest, countAll]
  induction tree using Node.induction with
  | step tree ih =>
    rw [positions_eq, count_eq, List.length_cons, hfrom tree.children 0 ih, Nat.add_comm]

end Node

theorem Definition.length_of_route {d : Definition} {position : List Nat} :
    ∀ {site : Site} {above : List Site}, d.route position = some (site :: above) →
    above.length = position.length := by
  induction position using List.reverseRecOn with
  | nil =>
    intro site above h
    cases h
    rfl
  | append_singleton position i ih =>
    intro site above h
    obtain ⟨parent, above', c, hparent, -, heq⟩ := route_append_singleton.1 h
    cases heq
    rw [List.length_cons, ih hparent, List.length_append, List.length_singleton]

theorem Definition.policy_eq {d : Definition} {policy : Policy} (h : d.policy = .ok policy) :
    policy = { maxSuccess := d.maxSuccess.getD .never
               maxFail := d.maxFail.getD .never
               waitForAll := d.waitForAll.getD false } := by
  have hgiven : ∀ {name} {given : Option Threshold} {found}, threshold name given = .ok found →
      found = given.getD .never := by
    intro name given found h
    unfold threshold at h
    split at h <;> simp_all
  unfold Definition.policy at h
  obtain ⟨maxSuccess, hsuccess, h⟩ := bind_eq_ok_iff.1 h
  obtain ⟨maxFail, hfail, h⟩ := bind_eq_ok_iff.1 h
  cases h
  rw [hgiven hsuccess, hgiven hfail]

/-- A leaf has the action that it is given, or the one at the path that it is given. -/
theorem Definition.findAction_spec {d : Definition} {registry : Registry} {convention : Convention}
    {path : Option String} {action : Action}
    (h : d.findAction registry convention = .ok (path, action)) :
    action.convention = convention
      ∧ (path = none ∧ d.action = some (.inline action)
        ∨ ∃ text, path = some text ∧ d.action = some (.path text)
          ∧ registry.resolve (Path.ofString text) = .ok action) := by
  have hfound : ∀ (found : Option String × Action) {defect : Defect},
      (if found.2.convention = convention then .ok found else .error defect)
        = (Except.ok (path, action) : Except Defect (Option String × Action)) →
      found = (path, action) ∧ action.convention = convention := by
    intro found defect h
    split at h
    · cases h
      exact ⟨rfl, ‹_›⟩
    · cases h
  unfold findAction at h
  simp only [bind, Except.bind] at h
  rcases haction : d.action with _ | ⟨text⟩ | ⟨inline⟩
  · rw [haction] at h
    cases h
  · rw [haction] at h
    simp only [] at h
    rcases hresolve : registry.resolve (Path.ofString text) with (_ | _) | found
    · rw [hresolve] at h
      cases h
    · rw [hresolve] at h
      cases h
    · rw [hresolve] at h
      obtain ⟨heq, hconvention⟩ := hfound (some text, found) h
      cases heq
      exact ⟨hconvention, .inr ⟨text, rfl, rfl, hresolve⟩⟩
  · rw [haction] at h
    obtain ⟨heq, hconvention⟩ := hfound (none, inline) h
    cases heq
    exact ⟨hconvention, .inl ⟨rfl, rfl⟩⟩

namespace Store

/-- A variable as a whole is read in the first frame of the chain that has it. -/
theorem get?_of_frames (store : Store) (scope : Scope) (name : String) :
    store.get? scope ⟨name, []⟩ = scope.frames.findSome? fun id => (store.frame id).find? name := by
  have hfind : ∀ frames : List FrameId,
      ((frames.find? fun id => (store.frame id).contains name).bind fun id =>
          (store.frame id).find? name)
        = frames.findSome? fun id => (store.frame id).find? name := by
    intro frames
    induction frames with
    | nil => rfl
    | cons id rest ih =>
      rw [List.find?_cons, List.findSome?_cons, Table.contains]
      cases hfound : (store.frame id).find? name with
      | none => exact ih
      | some value => exact hfound
  rw [← hfind]
  unfold get? owner? read?
  simp [Value.getAt]

end Store

namespace Compile

variable {root context : Context} {d : Definition} {base store final : Store} {tree : Node}

/-- A node as its definition has it, under the nodes above it, the innermost first. -/
structure Mirrors (registry : Registry) (site : Site) (above : List Site) (n : Node) : Prop where
  kind : site.definition.HasKind n.kind
  children : n.children.length = site.definition.listed.length
  title : n.info.title = site.definition.title
  debug : n.info.debug = site.definition.debug
  waitForMe : n.info.waitForMe = site.definition.waitForMe.getD false
  /-- The convention is that of the nearest node that names one, or else plain. -/
  convention : n.info.convention.name
    = ((site :: above).findSome? (·.definition.actionType)).getD "plain"
  policy : ∀ info policy children, n = .parallel info policy children →
    policy = { maxSuccess := site.definition.maxSuccess.getD .never
               maxFail := site.definition.maxFail.getD .never
               waitForAll := site.definition.waitForAll.getD false }
  action : ∀ info path action, n = .leaf info path action →
    action.convention = info.convention
      ∧ (path = none ∧ site.definition.action = some (.inline action)
        ∨ ∃ text, path = some text ∧ site.definition.action = some (.path text)
          ∧ registry.resolve (Path.ofString text) = .ok action)

theorem findAction_of_node {info : NodeInfo} {path : Option String} {action : Action}
    (h : node context d store = .ok (.leaf info path action, final)) :
    d.findAction context.registry info.convention = .ok (path, action) := by
  obtain ⟨kind, info', store₁, -, h⟩ := node_eq_ok_iff.1 h
  rcases h with ⟨-, hleaf, -⟩ | ⟨hne, cs, trees, -, -, hcomposite⟩
  · obtain ⟨path', action', hfound, heq⟩ := Context.leaf_eq_ok_iff.1 hleaf
    cases heq
    exact hfound
  · obtain ⟨hkind, -⟩ := Context.composite_spec hne hcomposite
    exact absurd hkind.symm hne

theorem policy_of_node {info : NodeInfo} {policy : Policy} {children : List Node}
    (h : node context d store = .ok (.parallel info policy children, final)) :
    d.policy = .ok policy := by
  obtain ⟨kind, info', store₁, -, h⟩ := node_eq_ok_iff.1 h
  rcases h with ⟨-, hleaf, -⟩ | ⟨hne, cs, trees, -, -, hcomposite⟩
  · obtain ⟨path', action', -, heq⟩ := Context.leaf_eq_ok_iff.1 hleaf
    cases heq
  · obtain ⟨rfl, -⟩ := Context.composite_spec hne hcomposite
    obtain ⟨found, hpolicy, heq⟩ := bind_eq_ok_iff.1 hcomposite
    cases heq
    exact Context.locate_eq_ok_iff.1 hpolicy

theorem mirrors_of_node {site : Site} {above : List Site} {n : Node}
    (h : node context site.definition store = .ok (n, final))
    (hunder : context.Under root base above store) (hplain : root.inherited = .plain) :
    Mirrors root.registry site above n := by
  have hcompiled := compiled_of_node h
  obtain ⟨convention, hconvention, hinfo⟩ := hcompiled.info
  refine ⟨hcompiled.kind, length_of_nodes hcompiled.children, by rw [hinfo]; rfl,
    by rw [hinfo]; rfl, by rw [hinfo]; rfl, ?_, fun info policy children heq => ?_,
    fun info path action heq => ?_⟩
  · rw [hinfo]
    show convention.name = _
    rw [← Definition.findConvention_eq_ok_iff.1 hconvention, hunder.inherited, hplain,
      List.findSome?_cons]
    cases site.definition.actionType <;> rfl
  · subst heq
    exact Definition.policy_eq (policy_of_node h)
  · subst heq
    rw [← hunder.registry]
    exact Definition.findAction_spec (findAction_of_node h)

/-- Where the definition has a node the tree has one, and nowhere else. -/
theorem isSome_at?_iff (h : node root d base = .ok (tree, final)) (position : List Nat) :
    (tree.at? position).isSome ↔ (d.route position).isSome := by
  constructor
  · intro hat
    obtain ⟨n, hn⟩ := Option.isSome_iff_exists.1 hat
    obtain ⟨site, above, hroute⟩ := route_of_at? h hn
    rw [hroute]
    rfl
  · intro hroute
    obtain ⟨sites, hsites⟩ := Option.isSome_iff_exists.1 hroute
    obtain ⟨site, above, rfl⟩ : ∃ site above, sites = site :: above := by
      cases position using List.reverseRecOn with
      | nil => exact ⟨_, _, (Option.some.inj hsites).symm⟩
      | append_singleton position i =>
        obtain ⟨parent, above, c, -, -, heq⟩ := Definition.route_append_singleton.1 hsites
        exact ⟨_, _, heq⟩
    obtain ⟨-, -, n, -, hn, -⟩ := exists_node_of_route h hsites
    rw [hn]
    rfl

theorem count_eq_ncard (h : node root d base = .ok (tree, final)) :
    tree.count = {position | (d.route position).isSome}.ncard := by
  have hset : {position | (d.route position).isSome} = (tree.positions.toFinset : Set _) := by
    ext position
    rw [Set.mem_ofPred_eq, ← isSome_at?_iff h, ← tree.mem_positions, Finset.mem_coe,
      List.mem_toFinset]
  have hnodup : tree.positions.Nodup := tree.positions_pairwise.imp fun hlt => ne_of_lt hlt
  rw [hset, Set.ncard_coe_finset, List.toFinset_card_of_nodup hnodup, tree.length_positions]

/-- Compiling makes one frame for every node. -/
theorem size_of_node {tree : Node} : ∀ {context d store final},
    node context d store = .ok (tree, final) →
    final.frames.size = store.frames.size + tree.count := by
  have hnodes : ∀ {cs : List (Child Definition)} {trees : List Node} {context info index}
      {store final : Store}, (∀ t ∈ trees, ∀ {context d store final},
        node context d store = .ok (t, final) →
        final.frames.size = store.frames.size + t.count) →
      nodes context info index cs store = .ok (trees, final) →
      final.frames.size = store.frames.size + Node.countAll trees := by
    intro cs
    induction cs with
    | nil =>
      intro trees context info index store final _ h
      rw [nodes_nil] at h
      cases h
      rfl
    | cons c rest ih =>
      intro trees context info index store final hsize h
      obtain ⟨t, store₁, more, ht, hmore, rfl⟩ := nodes_cons_eq_ok_iff.1 h
      obtain ⟨hfirst, hrest⟩ := List.forall_mem_cons.1 hsize
      rw [ih (fun t ht => hrest t ht) hmore, hfirst ht, Node.countAll, Nat.add_assoc]
  induction tree using Node.induction with
  | step tree ih =>
    intro context d store final h
    rw [hnodes (fun t ht => ih t ht) (compiled_of_node h).children, Store.size_push,
      tree.count_eq, Nat.add_assoc]

/-- The frames of a node's scope hold what the nodes on the way up declare, and then come those
around the root. -/
theorem exists_frames_of_at? (h : node root d base = .ok (tree, final)) {position : List Nat}
    {site : Site} {above : List Site} {n : Node} (hroute : d.route position = some (site :: above))
    (hn : tree.at? position = some n) :
    ∃ own, n.scope.frames = own ++ root.frames
      ∧ List.Forall₂ (fun (site : Site) id => final.frame id = site.definition.declared)
        (site :: above) own := by
  obtain ⟨context, before, m, later, hm, hnode, hunder, hlater⟩ := exists_node_of_route h hroute
  obtain rfl := Option.some.inj (hm.symm.trans hn)
  have hextends := (node_extends hnode).trans hlater
  obtain ⟨own, hframes, hown⟩ := (hunder.mono ((before.push_extends _).trans hextends)).frames
  refine ⟨before.frames.size :: own, ?_, .cons ?_ (hown.imp fun _ _ hid => hid.2)⟩
  · rw [(compiled_of_node hnode).scope_eq, Scope.frames, hframes]
    rfl
  · have hframe := frame_eq_declared h hroute hn
    rwa [(compiled_of_node hnode).scope_eq] at hframe

/-- A name without dots is read at the nearest node on the way up that declares it, and if none
does then outside the tree. -/
theorem get?_of_at? (h : node root d base = .ok (tree, final)) {position : List Nat}
    {site : Site} {above : List Site} {n : Node} (hroute : d.route position = some (site :: above))
    (hn : tree.at? position = some n) (hroot : ∀ id ∈ root.frames, id < base.frames.size)
    (name : String) :
    final.get? n.scope ⟨name, []⟩
      = ((site :: above).findSome? (·.definition.declared.find? name)).or
        (root.frames.findSome? fun id => (base.frame id).find? name) := by
  obtain ⟨own, hframes, hown⟩ := exists_frames_of_at? h hroute hn
  have hsites : (site :: above).findSome? (·.definition.declared.find? name)
      = own.findSome? fun id => (final.frame id).find? name :=
    findSome?_eq_of_forall₂ (hown.imp fun _ _ hid => by rw [hid])
  have hbase := (base.push_extends d.declared).trans (node_extends h)
  have houter : root.frames.findSome? (fun id => (final.frame id).find? name)
      = root.frames.findSome? fun id => (base.frame id).find? name :=
    findSome?_eq_of_forall₂
      (List.forall₂_same.2 fun id hid => by rw [hbase.frame id (hroot id hid)])
  rw [Store.get?_of_frames, hframes, List.findSome?_append, hsites, houter]

theorem depth_of_at? (h : node root d base = .ok (tree, final)) {position : List Nat} {n : Node}
    (hn : tree.at? position = some n) :
    n.scope.depth = position.length + 1 + root.frames.length := by
  obtain ⟨site, above, hroute⟩ := route_of_at? h hn
  obtain ⟨own, hframes, hown⟩ := exists_frames_of_at? h hroute hn
  rw [Scope.depth, hframes, List.length_append, ← hown.length_eq, List.length_cons,
    Definition.length_of_route hroute]

end Compile

/-- A compiled tree mirrors its definition. It has exactly the nodes that the definition has, each
as its definition says; each has a new frame of its own, which holds what the node declares and
lies inside that of its parent, and that of the root inside the globals. So a scope is as deep as
its node and the globals are together, and reads what the nearest node declares. -/
theorem compile_mirrors (registry : Registry) (globals : Option Scope) (d : Definition)
    (store final : Store) (tree : Node)
    (hglobals : ∀ scope ∈ globals, ∀ id ∈ scope.frames, id < store.frames.size)
    (hcompile : compile registry globals d store = .ok (tree, final)) :
    (∀ position, (tree.at? position).isSome ↔ (d.route position).isSome)
      ∧ tree.count = {position | (d.route position).isSome}.ncard
      ∧ (∀ position site above n, d.route position = some (site :: above) →
          tree.at? position = some n →
          Compile.Mirrors registry site above n
          ∧ store.frames.size ≤ n.scope.frame ∧ n.scope.frame < final.frames.size
          ∧ final.frame n.scope.frame = site.definition.declared
          ∧ (∀ child ∈ n.children, child.scope.parent? = some n.scope)
          ∧ n.scope.depth = position.length + 1 + globals.elim 0 Scope.depth
          ∧ ∀ name : String, '.' ∉ name.toList →
            final.get? n.scope (Path.ofString name)
              = ((site :: above).findSome? (·.definition.declared.find? name)).or
                (globals.bind fun scope => store.get? scope (Path.ofString name)))
      ∧ tree.scope.parent? = globals
      ∧ (∀ p q n m, tree.at? p = some n → tree.at? q = some m →
          n.scope.frame = m.scope.frame → p = q)
      ∧ store.Extends final
      ∧ final.frames.size = store.frames.size + tree.count := by
  have hroot : ∀ id ∈ globals.elim [] Scope.frames, id < store.frames.size := by
    cases globals with
    | none => simp
    | some scope => exact hglobals scope rfl
  refine ⟨Compile.isSome_at?_iff hcompile, Compile.count_eq_ncard hcompile,
    fun position site above n hroute hn => ?_, ?_,
    fun p q n m hn hm heq => Compile.frame_inj hcompile hn hm heq,
    (store.push_extends _).trans (Compile.node_extends hcompile), Compile.size_of_node hcompile⟩
  · obtain ⟨hle, hlt⟩ := Compile.frame_of_at? hcompile hn
    refine ⟨?_, hle, hlt, Compile.frame_eq_declared hcompile hroute hn, fun child hchild => ?_, ?_,
      fun name hname => ?_⟩
    · obtain ⟨context, before, m, later, hm, hnode, hunder, -⟩ :=
        Compile.exists_node_of_route hcompile hroute
      obtain rfl := Option.some.inj (hm.symm.trans hn)
      exact Compile.mirrors_of_node hnode hunder rfl
    · obtain ⟨i, hi, hget⟩ := List.mem_iff_getElem.1 hchild
      have houter := Compile.outer_of_child hcompile hn (List.getElem?_eq_some_iff.2 ⟨hi, hget⟩)
      rw [Scope.parent?, houter]
      rfl
    · rw [Compile.depth_of_at? hcompile hn]
      cases globals <;> rfl
    · rw [Path.ofString_of_not_mem hname, Compile.get?_of_at? hcompile hroute hn hroot]
      cases globals with
      | none => rfl
      | some scope => rw [Option.bind_some, Store.get?_of_frames]; rfl
  · rw [(Compile.compiled_of_node hcompile).scope_eq]
    cases globals <;> rfl

/-- A leaf under a sequence that declares a variable, inside globals with another. -/
theorem compile_mirrors_of_two :
    let registry := Registry.ofList [("noop", default)]
    let store : Store := ⟨#[Table.ofList [("y", .null)]]⟩
    let d := (Definition.ofChildren .seq [.path "noop"]).declare "x" (.bool true)
    (∀ scope ∈ some ({ frame := 0 } : Scope), ∀ id ∈ scope.frames, id < store.frames.size)
      ∧ ∃ tree final n, compile registry (some { frame := 0 }) d store = .ok (tree, final)
        ∧ tree.at? [0] = some n ∧ n.kind = .action ∧ n.scope.depth = 3
        ∧ final.get? n.scope (Path.ofString "x") = some (.bool true)
        ∧ final.get? n.scope (Path.ofString "y") = some .null := by
  intro registry store d
  have hglobals : ∀ scope ∈ some ({ frame := 0 } : Scope), ∀ id ∈ scope.frames,
      id < store.frames.size := by
    decide
  obtain ⟨tree, final, hcompile⟩ : ∃ tree final,
      compile registry (some { frame := 0 }) d store = .ok (tree, final) := by
    simp only [compile, Compile.node_eq_ok_iff]
    exact ⟨_, _, .sequence, _, _, rfl, .inr ⟨by decide, _, _, rfl,
      Compile.nodes_cons_eq_ok_iff.2 ⟨_, _, _, Compile.node_eq_ok_iff.2
        ⟨.action, _, _, rfl, .inl ⟨rfl, rfl, rfl⟩⟩, Compile.nodes_nil _ _ _ _, rfl⟩, rfl⟩⟩
  obtain ⟨hat, -, hnode, -⟩ :=
    compile_mirrors registry (some { frame := 0 }) d store final tree hglobals hcompile
  have hroute : d.route [0] = some [⟨[0], .ofPath "noop"⟩, ⟨[], d⟩] := rfl
  obtain ⟨n, hn⟩ := Option.isSome_iff_exists.1 ((hat [0]).2 (by rw [hroute]; rfl))
  obtain ⟨hmirrors, -, -, -, -, hdepth, hread⟩ := hnode [0] _ _ n hroute hn
  have hkind := hmirrors.kind.unique (Definition.ofPath_hasKind "noop")
  refine ⟨hglobals, tree, final, n, hcompile, hn, hkind, hdepth, ?_, ?_⟩
  · rw [hread "x" (by decide)]
    rfl
  · rw [hread "y" (by decide)]
    rfl

end BehaviorTree
