import BehaviorTree.Proofs.Linking
import BehaviorTree.Proofs.WellFormed
import BehaviorTree.Proofs.Writes

/-!
# No variable is ever shadowed

Compiling refuses a definition in which a node declares what a frame around it declares
(`Compile.unshadowed`). Requests of leaves keep it that way (`Store.stable_undisturbed`): a leaf
makes a name only if no frame around it has the name, and nothing is around another frame's back
but nodes with children and the globals, which never get a new name. So in whatever state requests
lead to, no frame has a name of a frame around it (`no_shadowing_of_reaches`).
-/

namespace BehaviorTree

/-- The states that requests through some scopes lead to. The body of a modification uses any of
these scopes, so the states that it comes through are among them. -/
inductive Store.Reaches (scopes : Scope → Prop) (start : Store) : Store → Prop where
  | start : Reaches scopes start start
  | request {Handle : Type} {resolve : Handle → Scope} {store : Store} {scope : Scope}
    (request : Request Handle) : Reaches scopes start store → scopes scope →
    (∀ handle, scopes (resolve handle)) →
    Reaches scopes start (store.perform resolve scope request).2

theorem Store.Stable.of_reaches {scopes : Scope → Prop} {P : Store → Prop}
    (hP : Store.Stable scopes P) {start store : Store} (h : Store.Reaches scopes start store)
    (hstart : P start) : P store := by
  induction h with
  | start => exact hstart
  | request request _ hscope hresolve ih =>
    exact Store.perform_preserves hP hresolve request _ _ hscope ih

namespace Node

/-- The scopes that a tree hands to actions. -/
def LeafScope (tree : Node) (scope : Scope) : Prop :=
  ∃ position n, tree.at? position = some n ∧ n.kind = .action ∧ n.scope = scope

/-- The frames around a position: those of the nodes above it, and those of the globals. -/
def Encloses (tree : Node) (globals : List FrameId) (position : List Nat) (id : FrameId) : Prop :=
  (∃ above n, above <+: position ∧ above ≠ position ∧ tree.at? above = some n
      ∧ n.scope.frame = id)
    ∨ id ∈ globals

theorem kind_ne_of_child {n child : Node} {i : Nat} (h : n.children[i]? = some child) :
    n.kind ≠ .action := by
  cases n with
  | leaf => cases h
  | decorator _ d => cases d <;> nofun
  | _ => nofun

/-- A position below another goes through one of its children. -/
theorem at?_append {position rest : List Nat} : ∀ {tree : Node},
    tree.at? (position ++ rest) = (tree.at? position).bind (·.at? rest) := by
  induction position with
  | nil => exact rfl
  | cons i position ih =>
    intro tree
    rw [List.cons_append, at?, at?, Option.bind_assoc]
    exact congrArg _ (funext fun child => ih)

/-- The nodes above a node are no leaves. -/
theorem kind_ne_of_above {tree n m : Node} {above position : List Nat}
    (habove : above <+: position) (hne : above ≠ position) (hm : tree.at? above = some m)
    (hn : tree.at? position = some n) : m.kind ≠ .action := by
  obtain ⟨rest, rfl⟩ := habove
  cases rest with
  | nil => exact absurd (List.append_nil above).symm hne
  | cons i rest =>
    rw [at?_append, hm, Option.bind_some, at?] at hn
    obtain ⟨child, hchild, -⟩ := Option.bind_eq_some_iff.1 hn
    exact kind_ne_of_child hchild

end Node

namespace Compile

variable {root : Context} {d : Definition} {base final : Store} {tree : Node}
  (h : node root d base = .ok (tree, final))
include h

/-- Around the frame of a node are those of the nodes above it and of the globals. -/
theorem mem_outer_iff {position : List Nat} : ∀ {n : Node}, tree.at? position = some n →
    ∀ {id : FrameId}, id ∈ n.scope.outer ↔ tree.Encloses root.frames position id := by
  induction position using List.reverseRecOn with
  | nil =>
    intro n hn id
    cases hn
    rw [(compiled_of_node h).scope_eq]
    refine ⟨.inr, fun hid => ?_⟩
    rcases hid with ⟨above, m, habove, hne, -⟩ | hid
    · exact absurd (List.prefix_nil.1 habove) hne
    · exact hid
  | append_singleton position i ih =>
    intro n hn id
    obtain ⟨parent, hparent, hchild⟩ := Node.at?_append_singleton.1 hn
    rw [outer_of_child h hparent hchild, Scope.frames, List.mem_cons, ih hparent]
    constructor
    · rintro (rfl | ⟨above, m, habove, hne, hm, hid⟩ | hid)
      · exact .inl ⟨position, parent, List.prefix_append _ _, by simp, hparent, rfl⟩
      · refine .inl ⟨above, m, habove.trans (List.prefix_append _ _), ?_, hm, hid⟩
        rintro rfl
        have := habove.length_le
        rw [List.length_append, List.length_singleton] at this
        omega
      · exact .inr hid
    · rintro (⟨above, m, habove, hne, hm, hid⟩ | hid)
      · have habove := (List.prefix_concat_iff.1 habove).resolve_left hne
        by_cases heq : above = position
        · subst heq
          rw [hparent] at hm
          cases hm
          exact .inl hid.symm
        · exact .inr (.inl ⟨above, m, habove, heq, hm, hid⟩)
      · exact .inr (.inr hid)

/-- What a node declares, no frame around it does. -/
theorem unshadowed (hroot : ∀ id ∈ root.frames, id < base.frames.size) {position : List Nat}
    {n : Node} (hn : tree.at? position = some n) {id : FrameId} (hid : id ∈ n.scope.outer)
    {name : String} (hname : (final.frame n.scope.frame).contains name) :
    ¬(final.frame id).contains name := by
  obtain ⟨site, above, hroute⟩ := route_of_at? h hn
  obtain ⟨context, store, m, later, hm, hnode, hunder, hlater⟩ := exists_node_of_route h hroute
  obtain rfl := Option.some.inj (hm.symm.trans hn)
  have hcompiled := compiled_of_node hnode
  have hextends : store.Extends final :=
    (store.push_extends _).trans ((node_extends hnode).trans hlater)
  rw [frame_eq_declared h hroute hn, Table.contains_iff] at hname
  rw [hcompiled.scope_eq] at hid
  have hlt := hunder.lt_size hroot id hid
  rw [hextends.frame id hlt, Table.contains_iff]
  exact fun hdeclared => shadowed?_eq_none_iff.1 hcompiled.fresh name hname ⟨id, hid, hdeclared⟩

end Compile

/-- What requests of leaves leave as it was: every frame has the names that it had, and has got
only names that belong to a leaf and that no frame around the leaf had. -/
structure Store.Undisturbed (tree : Node) (start store : Store) : Prop where
  grows : start.Grows store
  gained : ∀ id name, (store.frame id).contains name → (start.frame id).contains name
    ∨ ∃ scope, tree.LeafScope scope ∧ scope.frame = id
      ∧ ∀ outer ∈ scope.outer, ¬(start.frame outer).contains name

theorem Store.stable_undisturbed (tree : Node) (start : Store) :
    Store.Stable tree.LeafScope (start.Undisturbed tree) := by
  have hback : ∀ (store : Store) (id : FrameId) (path : Path) (value : Value),
      (store.frame id).contains path.head → start.Undisturbed tree store →
      start.Undisturbed tree (store.write id path value) := by
    intro store id path value hhas h
    refine ⟨fun other name hname => ?_, fun other name hname => ?_⟩
    · exact store.grows_write id path value other name (h.grows other name hname)
    · exact h.gained other name ((contains_write_of_contains hhas).1 hname)
  refine ⟨fun scope hscope store path value h => ?_, hback⟩
  obtain ⟨id, -, heq, hhas | ⟨rfl, hnone⟩⟩ := store.set_eq scope path value
  · rw [heq]
    exact hback store id path value hhas h
  · -- the name is new to the leaf and to all frames around it
    rw [heq]
    refine ⟨fun other name hname => ?_, fun other name hname => ?_⟩
    · exact store.grows_write _ path value other name (h.grows other name hname)
    · rcases contains_write.1 hname with ⟨rfl, -, rfl⟩ | hname
      · refine .inr ⟨scope, hscope, rfl, fun outer houter hdeclared => ?_⟩
        exact hnone outer (List.mem_cons_of_mem _ houter) (h.grows outer _ hdeclared)
      · exact h.gained other name hname

/-- Only frames of leaves get names. -/
theorem Store.Undisturbed.contains_iff {tree : Node} {start store : Store}
    (h : start.Undisturbed tree store) {id : FrameId}
    (hid : ∀ scope, tree.LeafScope scope → scope.frame ≠ id) {name : String} :
    (store.frame id).contains name ↔ (start.frame id).contains name := by
  refine ⟨fun hname => ?_, h.grows id name⟩
  rcases h.gained id name hname with hname | ⟨scope, hscope, hframe, -⟩
  · exact hname
  · exact absurd hframe (hid scope hscope)

namespace Compile

variable {root : Context} {d : Definition} {base final : Store} {tree : Node}
  (h : node root d base = .ok (tree, final))
  (hroot : ∀ id ∈ root.frames, id < base.frames.size)
include h

theorem ne_of_leafScope {position : List Nat} {n : Node} (hn : tree.at? position = some n)
    (hkind : n.kind ≠ .action) : ∀ scope, tree.LeafScope scope → scope.frame ≠ n.scope.frame := by
  rintro scope ⟨p, m, hm, hleaf, rfl⟩ heq
  obtain rfl := frame_inj h hm hn heq
  obtain rfl := Option.some.inj (hm.symm.trans hn)
  exact hkind hleaf

include hroot

theorem ne_of_globals {id : FrameId} (hid : id ∈ root.frames) :
    ∀ scope, tree.LeafScope scope → scope.frame ≠ id := by
  rintro scope ⟨p, m, hm, -, rfl⟩ rfl
  exact Nat.not_lt.2 (frame_of_at? h hm).1 (hroot _ hid)

/-- No frame around a node belongs to a leaf. -/
theorem ne_of_encloses {position : List Nat} {n : Node} (hn : tree.at? position = some n)
    {id : FrameId} (hid : tree.Encloses root.frames position id) :
    ∀ scope, tree.LeafScope scope → scope.frame ≠ id := by
  rcases hid with ⟨above, m, habove, hne, hm, rfl⟩ | hid
  · exact ne_of_leafScope h hm (Node.kind_ne_of_above habove hne hm hn)
  · exact ne_of_globals h hroot hid

theorem unshadowed_of_undisturbed {store : Store} (hstore : final.Undisturbed tree store)
    {position : List Nat} {n : Node} (hn : tree.at? position = some n) {id : FrameId}
    (hid : tree.Encloses root.frames position id) {name : String}
    (hname : (store.frame n.scope.frame).contains name) : ¬(store.frame id).contains name := by
  have houter : id ∈ n.scope.outer := (mem_outer_iff h hn).2 hid
  rw [hstore.contains_iff (ne_of_encloses h hroot hn hid)]
  rcases hstore.gained _ name hname with hname | ⟨scope, ⟨p, m, hm, -, rfl⟩, hframe, hnone⟩
  · exact unshadowed h hroot hn houter hname
  · obtain rfl := frame_inj h hm hn hframe
    obtain rfl := Option.some.inj (hm.symm.trans hn)
    exact hnone id houter

end Compile

/-- Whatever leaves ask of their scopes, no node has a variable that a frame around it has; nodes
with children and the globals have the variables that they had to begin with; and a leaf has got
only variables that no frame around it has. -/
theorem no_shadowing_of_reaches (registry : Registry) (globals : Option Scope) (d : Definition)
    (store final later : Store) (tree : Node)
    (hglobals : ∀ scope ∈ globals, ∀ id ∈ scope.frames, id < store.frames.size)
    (hcompile : compile registry globals d store = .ok (tree, final))
    (hreaches : final.Reaches tree.LeafScope later) :
    (∀ position n, tree.at? position = some n →
        ∀ id, tree.Encloses (globals.elim [] Scope.frames) position id →
        ∀ name ∈ (later.frame n.scope.frame).names, name ∉ (later.frame id).names)
      ∧ (∀ position n, tree.at? position = some n → n.kind ≠ .action → ∀ name,
        name ∈ (later.frame n.scope.frame).names ↔ name ∈ (final.frame n.scope.frame).names)
      ∧ (∀ id ∈ globals.elim [] Scope.frames, ∀ name,
        name ∈ (later.frame id).names ↔ name ∈ (store.frame id).names)
      ∧ ∀ position n, tree.at? position = some n → n.kind = .action →
        (∀ name ∈ (final.frame n.scope.frame).names, name ∈ (later.frame n.scope.frame).names)
        ∧ ∀ name ∈ (later.frame n.scope.frame).names, name ∉ (final.frame n.scope.frame).names →
          ∀ id, tree.Encloses (globals.elim [] Scope.frames) position id →
            name ∉ (later.frame id).names := by
  have hnode : Compile.node { registry, parent := globals } d store = .ok (tree, final) := hcompile
  have hroot : ∀ id ∈ globals.elim [] Scope.frames, id < store.frames.size := by
    cases globals with
    | none => simp
    | some scope => exact hglobals scope rfl
  have hlater : final.Undisturbed tree later :=
    (Store.stable_undisturbed tree final).of_reaches hreaches
      ⟨fun _ _ => id, fun _ _ hname => .inl hname⟩
  have hextends : store.Extends final := (store.push_extends _).trans (Compile.node_extends hnode)
  simp only [← Table.contains_iff]
  have hunshadowed : ∀ position n, tree.at? position = some n →
      ∀ id, tree.Encloses (globals.elim [] Scope.frames) position id →
      ∀ name, (later.frame n.scope.frame).contains name → ¬(later.frame id).contains name :=
    fun position n hn id hid name =>
      Compile.unshadowed_of_undisturbed hnode hroot hlater hn hid
  refine ⟨hunshadowed, fun position n hn hkind name => ?_, fun id hid name => ?_,
    fun position n hn _ => ⟨fun name => hlater.grows _ name, fun name hname _ id hid => ?_⟩⟩
  · exact hlater.contains_iff (Compile.ne_of_leafScope hnode hn hkind)
  · rw [← hextends.frame id (hroot id hid)]
    exact hlater.contains_iff (Compile.ne_of_globals hnode hroot hid)
  · exact hunshadowed position n hn id hid name hname

/-- A leaf changes a variable of the node above it, and makes one of its own on the way. -/
theorem no_shadowing_of_reaches_of_one :
    let d := (Definition.ofChildren .seq [.node (.ofAction default)]).declare "seen" .null
    let request : Request Unit := .modify ⟨"seen", []⟩ fun _ =>
      .ask () (.set ⟨"fresh", []⟩ .null) fun _ => .finish (.bool true) .null
    ∃ tree final, compile .empty none d {} = .ok (tree, final)
      ∧ tree.LeafScope ⟨1, [0]⟩
      ∧ let later := (final.perform (fun _ => ⟨1, [0]⟩) ⟨1, [0]⟩ request).2
        (later.frame 1).names = ["fresh"] ∧ "fresh" ∉ (later.frame 0).names
          ∧ ∀ name, name ∈ (later.frame 0).names ↔ name ∈ (final.frame 0).names := by
  intro d request
  obtain ⟨tree, final, hcompile, htree, hfinal⟩ :
      ∃ tree final, compile .empty none d {} = .ok (tree, final)
        ∧ tree = .sequence ⟨none, none, false, .plain, ⟨0, []⟩⟩
          [.leaf ⟨none, none, false, .plain, ⟨1, [0]⟩⟩ none default]
        ∧ final = ⟨#[d.declared, {}]⟩ := by
    simp only [compile, Compile.node_eq_ok_iff]
    exact ⟨_, _, ⟨.sequence, _, _, rfl, .inr ⟨by decide, _, _, rfl,
      Compile.nodes_cons_eq_ok_iff.2 ⟨_, _, _, Compile.node_eq_ok_iff.2
        ⟨.action, _, _, rfl, .inl ⟨rfl, rfl, rfl⟩⟩, Compile.nodes_nil _ _ _ _, rfl⟩, rfl⟩⟩,
      rfl, rfl⟩
  have hleaf : tree.LeafScope ⟨1, [0]⟩ := by
    subst htree
    exact ⟨[0], _, rfl, rfl, rfl⟩
  have hnames : ((final.perform (fun _ => ⟨1, [0]⟩) ⟨1, [0]⟩ request).2.frame 1).names
      = ["fresh"] := by
    subst hfinal
    decide +kernel
  refine ⟨tree, final, hcompile, hleaf, hnames, ?_⟩
  obtain ⟨hunshadowed, hnames', -⟩ := no_shadowing_of_reaches .empty none d {} final _ tree
    (by simp) hcompile (.request request .start hleaf fun _ => hleaf)
  subst htree
  refine ⟨hunshadowed [0] _ rfl 0 (.inl ⟨[], _, by simp, by simp, rfl, rfl⟩) "fresh" ?_,
    hnames' [] _ rfl (by decide)⟩
  rw [show (Node.scope _).frame = 1 from rfl, hnames]
  simp

end BehaviorTree
