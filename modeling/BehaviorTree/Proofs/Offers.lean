import BehaviorTree.Proofs.Mirroring
import BehaviorTree.Proofs.Rewriting

/-!
# Children that are listed, and children that are dropped

A node may list children under any of seven keys. A composite that compiles lists them under one
key only, and every one of them has a node of its own (`Compile.Compiled.children_eq_listed`). A
leaf is not asked: under the neutral key it may list children, which no node is compiled for. So a
tree has one node more than there are listed children, up to the children of leaves
(`count_add_dropped`).
-/

namespace BehaviorTree

/-- A child that a node lists: where the node is, the key, and the index under that key. -/
structure Offer where
  position : List Nat
  field : ChildField
  index : Nat

/-- Where the node of a listed child belongs. -/
def Offer.target (offer : Offer) : List Nat :=
  offer.position ++ [offer.index]

namespace Definition

/-- The children that the nodes of a definition list, under whatever key. -/
def offers (d : Definition) : Set Offer :=
  {offer | ∃ site above cs, d.route offer.position = some (site :: above)
    ∧ site.definition.children offer.field = some cs ∧ offer.index < cs.length}

/-- The children that leaves list. -/
def dropped (d : Definition) : Set Offer :=
  {offer ∈ d.offers | ∃ site above, d.route offer.position = some (site :: above)
    ∧ site.definition.HasKind .action}

theorem dropped_subset (d : Definition) : d.dropped ⊆ d.offers :=
  fun _ h => h.1

/-- The children of a node, if it has any, are under a key. -/
theorem exists_children_eq_listed {d : Definition} {i : Nat} {c : Child Definition}
    (h : d.listed[i]? = some c) : ∃ field, d.children field = some d.listed := by
  unfold listed at h ⊢
  split at h
  · cases h
  · rename_i kind _ _
    cases hown : d.kindChildren kind with
    | some cs =>
      obtain ⟨field, -, hfield⟩ := Option.bind_eq_some_iff.1 hown
      exact ⟨field, hfield⟩
    | none =>
      rw [hown, Option.none_or] at h
      cases hnodes : d.nodes with
      | some cs => exact ⟨.nodes, hnodes⟩
      | none =>
        rw [hnodes] at h
        cases h
  · cases h

variable {d : Definition} {kind : NodeKind} {field : ChildField} {cs : List (Child Definition)}

/-- Children are under the key of the kind of their node or under the neutral key. -/
theorem HasKind.field_cases (h : d.HasKind kind) (hcs : d.children field = some cs) :
    kind.field? = some field ∨ field = .nodes := by
  -- a key other than the neutral one is the key of a kind, and the node has no second kind
  have hkey : ∀ other : NodeKind, other ≠ .action → other.field? = some field →
      kind.field? = some field := by
    intro other hne hother
    have hhas : d.hasKey other := by
      rw [hasKey, if_neg hne, kindChildren, hother, Option.bind_some, hcs]
      rfl
    rw [← h.eq_of_hasKey hhas, hother]
  cases field with
  | nodes => exact .inr rfl
  | seq => exact .inl (hkey .sequence (by decide) rfl)
  | sel => exact .inl (hkey .selector (by decide) rfl)
  | par => exact .inl (hkey .parallel (by decide) rfl)
  | invert => exact .inl (hkey .invert (by decide) rfl)
  | success => exact .inl (hkey .success (by decide) rfl)
  | failure => exact .inl (hkey .failure (by decide) rfl)

theorem HasKind.eq_nodes (h : d.HasKind .action) (hcs : d.children field = some cs) :
    field = .nodes := by
  rcases h.field_cases hcs with hfield | hnodes
  · cases hfield
  · exact hnodes

/-- Of two keys of a composite with children only one is there, and the children are under it. -/
theorem HasKind.listed_eq_of_children (h : d.HasKind kind) (hkind : kind ≠ .action)
    (hone : (d.kindChildren kind).isSome ≠ d.nodes.isSome) (hcs : d.children field = some cs) :
    d.listed = cs
      ∧ field = if d.nodes.isSome then .nodes else kind.field?.getD .nodes := by
  rcases h.field_cases hcs with hfield | rfl
  · have hown : d.kindChildren kind = some cs := by
      rw [kindChildren, hfield, Option.bind_some, hcs]
    have hnodes : d.nodes.isSome = false := by
      cases hn : d.nodes.isSome with
      | false => rfl
      | true => rw [hown, hn] at hone; exact absurd rfl hone
    refine ⟨h.listed_eq hkind (by rw [hown, Option.some_or]), ?_⟩
    rw [hnodes, hfield]
    rfl
  · have hnodes : d.nodes = some cs := hcs
    have hown : d.kindChildren kind = none := by
      cases hk : d.kindChildren kind with
      | none => rfl
      | some _ => rw [hk, hnodes] at hone; exact absurd rfl hone
    refine ⟨h.listed_eq hkind (by rw [hown, hnodes, Option.none_or]), ?_⟩
    rw [hnodes]
    rfl

end Definition

namespace Compile

variable {root : Context} {d : Definition} {base final : Store} {tree : Node}

section Offer

variable {offer : Offer} (h : node root d base = .ok (tree, final))

include h

/-- A listed child that no leaf lists stands among the children of its node, under the one key that
the node has. -/
theorem exists_child_of_offer (hoffer : offer ∈ d.offers) (hkept : offer ∉ d.dropped) :
    ∃ site above cs c, d.route offer.position = some (site :: above)
      ∧ site.definition.children offer.field = some cs ∧ cs[offer.index]? = some c
      ∧ d.route offer.target = some (site.child offer.index c :: site :: above)
      ∧ ∀ field cs', site.definition.children field = some cs' → field = offer.field := by
  obtain ⟨site, above, cs, hroute, hcs, hindex⟩ := hoffer
  obtain ⟨context, store, n, later, hn, hnode, -⟩ := exists_node_of_route h hroute
  have hcompiled := compiled_of_node hnode
  have hkind : n.kind ≠ .action := fun heq =>
    hkept ⟨⟨site, above, cs, hroute, hcs, hindex⟩, site, above, hroute, heq ▸ hcompiled.kind⟩
  obtain ⟨hlisted, hfield⟩ :=
    hcompiled.kind.listed_eq_of_children hkind (hcompiled.oneKey hkind) hcs
  refine ⟨site, above, cs, cs[offer.index], hroute, hcs, List.getElem?_eq_getElem hindex, ?_, ?_⟩
  · refine Definition.route_append_singleton.2 ⟨site, above, _, hroute, ?_, rfl⟩
    rw [hlisted, List.getElem?_eq_getElem hindex]
  · intro field cs' hcs'
    rw [hfield, (hcompiled.kind.listed_eq_of_children hkind (hcompiled.oneKey hkind) hcs').2]

theorem injOn_target : Set.InjOn Offer.target (d.offers \ d.dropped) := by
  rintro ⟨position, field, index⟩ ⟨hoffer, hkept⟩ ⟨position', field', index'⟩ ⟨hoffer', -⟩ heq
  obtain ⟨rfl, hindex⟩ := List.append_inj' heq rfl
  obtain rfl := List.singleton_inj.1 hindex
  obtain ⟨site, above, cs, c, hroute, -, -, -, honly⟩ := exists_child_of_offer h hoffer hkept
  obtain ⟨site', above', cs', hroute', hcs', -⟩ := hoffer'
  obtain ⟨rfl, -⟩ := List.cons.inj (Option.some.inj (hroute.symm.trans hroute'))
  rw [honly field' cs' hcs']

/-- Every node but the root is that of a listed child. -/
theorem image_target : Offer.target '' (d.offers \ d.dropped)
    = {position | (d.route position).isSome} \ {[]} := by
  ext position
  constructor
  · rintro ⟨offer, ⟨hoffer, hkept⟩, rfl⟩
    obtain ⟨site, above, cs, c, -, -, -, htarget, -⟩ := exists_child_of_offer h hoffer hkept
    refine ⟨?_, by simp [Offer.target]⟩
    rw [Set.mem_ofPred_eq, htarget]
    rfl
  · rintro ⟨hsome, hne⟩
    obtain ⟨sites, hsites⟩ := Option.isSome_iff_exists.1 hsome
    induction position using List.reverseRecOn with
    | nil => exact absurd rfl hne
    | append_singleton position index _ =>
      obtain ⟨site, above, c, hroute, hc, -⟩ := Definition.route_append_singleton.1 hsites
      obtain ⟨field, hfield⟩ := Definition.exists_children_eq_listed hc
      have hindex : index < site.definition.listed.length := (List.getElem?_eq_some_iff.1 hc).1
      refine ⟨⟨position, field, index⟩, ⟨⟨site, above, _, hroute, hfield, hindex⟩, ?_⟩, rfl⟩
      rintro ⟨-, site', above', hroute', hleaf⟩
      obtain ⟨rfl, -⟩ := List.cons.inj (Option.some.inj (hroute.symm.trans hroute'))
      rw [hleaf.listed_eq_nil] at hindex
      exact Nat.not_lt_zero _ hindex

/-- A tree has one node more than there are listed children that no leaf lists. -/
theorem encard_kept : 1 + (d.offers \ d.dropped).encard = tree.count := by
  have hcount := count_eq_ncard h
  have hfinite : {position | (d.route position).isSome}.Finite := by
    refine Set.finite_of_ncard_pos ?_
    rw [← hcount, Node.count_eq]
    omega
  have hroot : [] ∈ {position | (d.route position).isSome} := rfl
  rw [← (injOn_target h).encard_image, image_target h, hcount, hfinite.cast_ncard_eq, add_comm,
    Set.encard_sdiff_singleton_add_one hroot]

theorem at?_of_dropped (hdropped : offer ∈ d.dropped) :
    offer.field = .nodes ∧ tree.at? offer.target = none := by
  obtain ⟨⟨site, above, cs, hroute, hcs, -⟩, site', above', hroute', hleaf⟩ := hdropped
  obtain ⟨rfl, -⟩ := List.cons.inj (Option.some.inj (hroute.symm.trans hroute'))
  refine ⟨hleaf.eq_nodes hcs, Option.eq_none_iff_forall_ne_some.2 fun n hn => ?_⟩
  obtain ⟨child, above'', htarget⟩ := route_of_at? h hn
  obtain ⟨parent, above₁, c, hparent, hc, -⟩ := Definition.route_append_singleton.1 htarget
  obtain ⟨rfl, -⟩ := List.cons.inj (Option.some.inj (hroute.symm.trans hparent))
  rw [hleaf.listed_eq_nil] at hc
  cases hc

end Offer

end Compile

/-- In a tree that compiled, every child that a node lists under any key has a node of its own, one
that was compiled from it, unless the node is a leaf: a leaf may list children under the neutral
key, and these have no nodes. So there is one node more than there are listed children, less those
of leaves; and there is one node more than there are listed children if and only if no leaf lists
any. -/
theorem count_add_dropped (registry : Registry) (globals : Option Scope) (d : Definition)
    (store final : Store) (tree : Node)
    (h : compile registry globals d store = .ok (tree, final)) :
    (∀ position, (tree.at? position).isSome ↔ (d.route position).isSome)
      ∧ (∀ offer ∈ d.offers, offer ∉ d.dropped → ∃ site above cs c,
        d.route offer.position = some (site :: above)
          ∧ site.definition.children offer.field = some cs ∧ cs[offer.index]? = some c
          ∧ d.route offer.target = some (site.child offer.index c :: site :: above)
          ∧ (tree.at? offer.target).isSome)
      ∧ Set.InjOn Offer.target (d.offers \ d.dropped)
      ∧ (∀ offer ∈ d.dropped, offer.field = .nodes ∧ tree.at? offer.target = none)
      ∧ tree.count + d.dropped.encard = 1 + d.offers.encard
      ∧ (tree.count = 1 + d.offers.encard ↔ d.dropped = ∅) := by
  have hsplit : (d.offers \ d.dropped).encard + d.dropped.encard = d.offers.encard :=
    Set.encard_sdiff_add_encard_of_subset d.dropped_subset
  have hcount : tree.count + d.dropped.encard = 1 + d.offers.encard := by
    rw [← hsplit, ← add_assoc, Compile.encard_kept h]
  refine ⟨Compile.isSome_at?_iff h, fun offer hoffer hkept => ?_, Compile.injOn_target h,
    fun offer => Compile.at?_of_dropped h, hcount, ?_⟩
  · obtain ⟨site, above, cs, c, hroute, hcs, hc, htarget, -⟩ :=
      Compile.exists_child_of_offer h hoffer hkept
    refine ⟨site, above, cs, c, hroute, hcs, hc, htarget, (Compile.isSome_at?_iff h _).2 ?_⟩
    rw [htarget]
    rfl
  · have hcancel := (ENat.addLECancellable_of_ne_top (ENat.natCast_ne_top tree.count)).inj
      (b := d.dropped.encard) (c := 0)
    rw [← hcount, ← Set.encard_eq_zero, ← hcancel, add_zero, eq_comm]

/-- A leaf that lists a child under the neutral key, after one that does not. -/
theorem count_add_dropped_of_two :
    let registry := Registry.ofList [("open", default), ("close", default)]
    let leaf : Definition := { Definition.ofPath "open" with nodes := some [.path "close"] }
    let d := Definition.ofChildren .seq [.path "close", .node leaf]
    ∃ tree final, compile registry none d {} = .ok (tree, final) ∧ tree.count = 3
      ∧ (tree.at? [0]).isSome ∧ ⟨[1], .nodes, 0⟩ ∈ d.dropped ∧ tree.at? [1, 0] = none
      ∧ d.offers.encard ≠ 2 := by
  intro registry leaf d
  obtain ⟨tree, final, hcompile, htree⟩ : ∃ tree final,
      compile registry none d {} = .ok (tree, final) ∧ tree.count = 3 := by
    simp only [compile, Compile.node_eq_ok_iff]
    exact ⟨_, _, ⟨.sequence, _, _, rfl, .inr ⟨by decide, _, _, rfl,
      Compile.nodes_cons_eq_ok_iff.2 ⟨_, _, _, Compile.node_eq_ok_iff.2
        ⟨.action, _, _, rfl, .inl ⟨rfl, rfl, rfl⟩⟩,
        Compile.nodes_cons_eq_ok_iff.2 ⟨_, _, _, Compile.node_eq_ok_iff.2
          ⟨.action, _, _, rfl, .inl ⟨rfl, rfl, rfl⟩⟩, Compile.nodes_nil _ _ _ _, rfl⟩, rfl⟩,
      rfl⟩⟩, rfl⟩
  have hroute : d.route [1] = some [⟨[1], leaf⟩, ⟨[], d⟩] := rfl
  have hdropped : ⟨[1], .nodes, 0⟩ ∈ d.dropped :=
    ⟨⟨_, _, _, hroute, rfl, Nat.zero_lt_one⟩, _, _, hroute,
      Definition.findKind_eq_ok_iff.1 rfl⟩
  have hchild : ⟨[], .seq, 0⟩ ∈ d.offers := ⟨_, _, _, rfl, rfl, Nat.zero_lt_two⟩
  have hkept : ⟨[], .seq, 0⟩ ∉ d.dropped := by
    rintro ⟨-, _, _, hroot, hleaf⟩
    cases hroot
    have hkind : NodeKind.action = .sequence :=
      hleaf.unique (Definition.findKind_eq_ok_iff.1 rfl : d.HasKind .sequence)
    cases hkind
  obtain ⟨-, hnode, -, hnone, -, hexact⟩ := count_add_dropped registry none d {} final tree hcompile
  obtain ⟨-, -, -, -, -, -, -, -, hfirst⟩ := hnode _ hchild hkept
  refine ⟨tree, final, hcompile, htree, hfirst, hdropped, (hnone _ hdropped).2, fun htwo => ?_⟩
  have hempty : d.dropped = ∅ := hexact.1 (by rw [htree, htwo]; rfl)
  rw [hempty] at hdropped
  exact hdropped

/-- A leaf with a child under the neutral key compiles, and the child has no node. -/
theorem offers_of_leaf :
    let registry := Registry.ofList [("open", default), ("close", default)]
    let d : Definition := { Definition.ofPath "open" with nodes := some [.path "close"] }
    ∃ tree final, compile registry none d {} = .ok (tree, final)
      ∧ d.children .nodes = some [.path "close"] ∧ d.offers.encard = 1
      ∧ tree.count ≠ 1 + d.offers.encard ∧ tree.at? [0] = none := by
  intro registry d
  have hleaf : d.HasKind .action := Definition.findKind_eq_ok_iff.1 rfl
  have hoffers : d.offers = {⟨[], .nodes, 0⟩} := by
    ext ⟨position, field, index⟩
    constructor
    · rintro ⟨site, above, cs, hroute, hcs, hindex⟩
      cases position with
      | nil =>
        cases hroute
        obtain rfl := hleaf.eq_nodes hcs
        cases hcs
        obtain rfl := Nat.lt_one_iff.1 hindex
        rfl
      | cons i rest => cases hroute
    · rintro ⟨⟩
      exact ⟨_, _, _, rfl, rfl, Nat.zero_lt_one⟩
  have hone : d.offers.encard = 1 := by rw [hoffers, Set.encard_singleton]
  obtain ⟨tree, final, hcompile, htree, hnone⟩ : ∃ tree final,
      compile registry none d {} = .ok (tree, final) ∧ tree.count = 1 ∧ tree.at? [0] = none := by
    simp only [compile, Compile.node_eq_ok_iff]
    exact ⟨_, _, ⟨.action, _, _, rfl, .inl ⟨rfl, rfl, rfl⟩⟩, rfl, rfl⟩
  refine ⟨tree, final, hcompile, rfl, hone, ?_, hnone⟩
  rw [hone, htree]
  decide

end BehaviorTree
