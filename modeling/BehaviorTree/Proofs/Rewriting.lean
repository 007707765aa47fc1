import BehaviorTree.Proofs.Relocating

/-!
# Rewritings of definitions

Somewhere in a definition a node is put in that makes no difference (`Definition.Padded`): a
sequence or a selector around one node, two inverters around one node, or a sequence among the
children of a sequence around some of them. The definition compiles with it if it does without it,
and the trees differ by the frames of the new nodes only (`Compile.node_padded`). Before the new
node all is compiled as it was (`Compile.same_of_node`), the new node itself declares nothing, and
after it everything is compiled where some frames have been put in between.
-/

namespace BehaviorTree

/-- The field of the children of a sequence, which goes on while they succeed, or of a selector. -/
def ChildField.inOrder (whileSuccess : Bool) : ChildField :=
  if whileSuccess then .seq else .sel

def NodeKind.inOrder (whileSuccess : Bool) : NodeKind :=
  if whileSuccess then .sequence else .selector

theorem NodeKind.field?_inOrder (whileSuccess : Bool) :
    (NodeKind.inOrder whileSuccess).field? = some (.inOrder whileSuccess) := by
  cases whileSuccess <;> rfl

namespace Definition

/-- A node with children under one key, and no scope, type, convention or `debug` of its own. -/
structure Bare (w : Definition) (field : ChildField) (cs : List (Child Definition)) : Prop where
  kind : w.kind = none
  scope : w.scope = none
  actionType : w.actionType = none
  debug : w.debug = none
  action : w.action = none
  children : ∀ other, w.children other = if other = field then some cs else none

/-- A definition, and the definition with a node put in somewhere that makes no difference: around
one node, or around some of the children of a sequence or a selector, which may be none. Put around
a child of a parallel node, the new node takes over the child's flag to wait for it. -/
inductive Padded : Definition → Definition → Prop
  | wrap (whileSuccess : Bool) {c : Child Definition} {w : Definition}
    (hw : w.Bare (.inOrder whileSuccess) [c]) : Padded (.ofChild c) w
  | inverters {c : Child Definition} {v w : Definition} (hw : w.Bare .invert [.node v])
    (hv : v.Bare .invert [c]) : Padded (.ofChild c) w
  | splice (whileSuccess : Bool) {d inner : Definition} {field : ChildField}
    {before cs after : List (Child Definition)} (hkind : d.HasKind (.inOrder whileSuccess))
    (hcs : d.children field = some (before ++ (cs ++ after)))
    (hinner : inner.Bare (.inOrder whileSuccess) cs) :
    Padded d (d.setChildren field (some (before ++ ([.node inner] ++ after))))
  | inside {d e : Definition} {field : ChildField} {c : Child Definition}
    {before after : List (Child Definition)}
    (hcs : d.children field = some (before ++ ([c] ++ after))) (h : Padded (.ofChild c) e)
    (hwait : d.HasKind .parallel → e.waitForMe.getD false = (ofChild c).waitForMe.getD false) :
    Padded d (d.setChildren field (some (before ++ ([.node e] ++ after))))

section Bare

variable {w : Definition} {field : ChildField} {cs : List (Child Definition)} {kind : NodeKind}

theorem Bare.hasKind (h : w.Bare field cs) (hkind : kind.field? = some field) :
    w.HasKind kind := by
  have hkey : ∀ other, w.hasKey other ↔ other = kind := fun other => by
    unfold hasKey kindChildren
    simp only [h.action, Option.bind]
    cases kind <;> cases other <;> simp_all [NodeKind.field?, h.children] <;> grind
  unfold HasKind
  rw [h.kind]
  exact hkey

theorem Bare.declared (h : w.Bare field cs) : w.declared = Table.empty := by
  unfold Definition.declared
  rw [h.scope]
  rfl

theorem Bare.findConvention (h : w.Bare field cs) (inherited : Convention) :
    w.findConvention inherited = .ok inherited := by
  unfold Definition.findConvention
  rw [h.actionType]

theorem Bare.findChildren (h : w.Bare field cs) (hkind : kind.field? = some field) :
    (w.findChildren kind).map Subtype.val = .ok cs := by
  have hcs : w.kindChildren kind = some cs := by
    rw [kindChildren, hkind, Option.bind_some, h.children, if_pos rfl]
  have hnodes : w.nodes = none := by
    have hne : ChildField.nodes ≠ field := by
      rintro rfl
      cases kind <;> cases hkind
    exact (h.children .nodes).trans (if_neg hne)
  rw [map_val_findChildren, hcs, hnodes]

end Bare

section SetChildren

variable {d : Definition} {field : ChildField} {old new : List (Child Definition)}

theorem children_setChildren (d : Definition) (field other : ChildField)
    (cs : Option (List (Child Definition))) :
    (d.setChildren field cs).children other = if other = field then cs else d.children other := by
  cases field <;> cases other <;> rfl

theorem kindChildren_setChildren (d : Definition) (field : ChildField)
    (cs : Option (List (Child Definition))) (kind : NodeKind) :
    (d.setChildren field cs).kindChildren kind
      = if kind.field? = some field then cs else d.kindChildren kind := by
  unfold kindChildren
  cases hkind : kind.field? with
  | none => rfl
  | some other => simp only [Option.bind_some, children_setChildren, Option.some.injEq]

theorem findKind_setChildren (hold : d.children field = some old) :
    (d.setChildren field (some new)).findKind = d.findKind := by
  have haction : (d.setChildren field (some new)).action = d.action := by cases field <;> rfl
  have hkind : (d.setChildren field (some new)).kind = d.kind := by cases field <;> rfl
  have hkeys : (d.setChildren field (some new)).keys = d.keys := by
    refine List.filter_congr fun kind _ => ?_
    unfold hasKey
    rw [kindChildren_setChildren, haction]
    split
    · rfl
    · split
      · rename_i hfield
        rw [kindChildren, hfield, Option.bind_some, hold]
        rfl
      · rfl
  unfold findKind
  rw [hkeys, hkind]

theorem HasKind.eq_of_hasKey {kind other : NodeKind} (h : d.HasKind kind)
    (hother : d.hasKey other) : other = kind := by
  unfold HasKind at h
  split at h
  · exact h.2 other hother
  · exact (h other).1 hother

/-- Children that are there are those of the kind, or under the neutral key. -/
theorem HasKind.eq_nodes_or {kind : NodeKind} (h : d.HasKind kind)
    (hold : d.children field = some old) : field = .nodes ∨ kind.field? = some field := by
  have hkey : ∀ other : NodeKind, other.field? = some field → kind.field? = some field := by
    intro other hother
    have hkey : d.hasKey other := by
      unfold hasKey
      split
      · rename_i haction
        rw [haction] at hother
        cases hother
      · rw [kindChildren, hother, Option.bind_some, hold]
        rfl
    rw [← h.eq_of_hasKey hkey]
    exact hother
  cases field with
  | seq => exact .inr (hkey .sequence rfl)
  | sel => exact .inr (hkey .selector rfl)
  | par => exact .inr (hkey .parallel rfl)
  | invert => exact .inr (hkey .invert rfl)
  | success => exact .inr (hkey .success rfl)
  | failure => exact .inr (hkey .failure rfl)
  | nodes => exact .inl rfl

/-- Other children are found where the children were, or the same defect. -/
theorem findChildren_setChildren_cases {kind : NodeKind} (h : d.HasKind kind)
    (hold : d.children field = some old) (new : List (Child Definition)) :
    ((d.findChildren kind).map Subtype.val = .ok old
        ∧ ((d.setChildren field (some new)).findChildren kind).map Subtype.val = .ok new)
      ∨ ∃ defect, (d.findChildren kind).map Subtype.val = .error defect
        ∧ ((d.setChildren field (some new)).findChildren kind).map Subtype.val
          = .error defect := by
  have hnodes : (d.setChildren field (some new)).nodes
      = if ChildField.nodes = field then some new else d.nodes :=
    d.children_setChildren field .nodes (some new)
  rw [map_val_findChildren, map_val_findChildren, kindChildren_setChildren, hnodes]
  rcases h.eq_nodes_or hold with rfl | hfield
  · have hne : kind.field? ≠ some .nodes := by cases kind <;> exact nofun
    rw [if_pos rfl, if_neg hne, show d.nodes = some old from hold]
    cases d.kindChildren kind with
    | none => exact .inl ⟨rfl, rfl⟩
    | some cs => exact .inr ⟨_, rfl, rfl⟩
  · have hne : ChildField.nodes ≠ field := by
      rintro rfl
      cases kind <;> cases hfield
    rw [if_neg hne, if_pos hfield, kindChildren, hfield, Option.bind_some, hold]
    cases d.nodes with
    | none => exact .inl ⟨rfl, rfl⟩
    | some cs => exact .inr ⟨_, rfl, rfl⟩

theorem findChildren_setChildren {kind : NodeKind} (h : d.HasKind kind)
    (hold : d.children field = some old) :
    Agree (fun cs cs' => cs = old ∧ cs' = new) ((d.findChildren kind).map Subtype.val)
      (((d.setChildren field (some new)).findChildren kind).map Subtype.val) := by
  rcases findChildren_setChildren_cases h hold new with ⟨hcs, hcs'⟩ | ⟨defect, hcs, hcs'⟩ <;>
    rw [hcs, hcs']
  · exact .ok ⟨rfl, rfl⟩
  · exact .error _ _

end SetChildren

end Definition

namespace Compile

variable {context : Context} {d : Definition} {store later : Store} {tree : Node}

section Bare

variable {w : Definition} {field : ChildField} {cs : List (Child Definition)} {kind : NodeKind}

/-- A bare node has an empty frame, and hands down what was handed down to it. -/
theorem node_of_bare (h : w.Bare field cs) (hkind : kind.field? = some field) (context : Context)
    (store : Store) :
    node context w store
      = (nodes context (context.info w context.inherited store) 0 cs (store.push Table.empty)).bind
        fun made => (context.composite w kind (context.info w context.inherited store) made.1).map
          fun tree => (tree, made.2) := by
  have hshadowed : w.shadowed? store context.parent = none := by
    rw [context.shadowed?_eq, h.declared]
    rfl
  have henter : context.enter w store
      = .ok (kind, context.info w context.inherited store, store.push Table.empty) :=
    Context.enter_eq_ok_iff.2
      ⟨h.hasKind hkind, hshadowed, ⟨_, h.findConvention _, rfl⟩, by rw [h.declared]⟩
  have hleaf : kind.isLeaf = false := by
    cases kind with
    | action => cases hkind
    | _ => rfl
  rw [node_eq, henter, Except.bind, h.findChildren hkind]
  simp only [hleaf]
  rfl

theorem nodes_single (context : Context) (info : NodeInfo) (index : Nat) (c : Child Definition)
    (store : Store) :
    nodes context info index [c] store
      = (node (context.child info index) (.ofChild c) store).map
        fun made => ([made.1], made.2) := by
  rw [nodes_cons_eq]
  simp only [nodes_nil]
  cases node (context.child info index) (.ofChild c) store <;> rfl

theorem node_of_bare_single {c : Child Definition} (h : w.Bare field [c]) (kind : NodeKind)
    (hkind : kind.field? = some field) (f : NodeInfo → Node → Node)
    (hf : ∀ context d info child,
      Context.composite context d kind info [child] = .ok (f info child))
    (context : Context) (store : Store) :
    node context w store
      = (node (context.child (context.info w context.inherited store) 0) (.ofChild c)
          (store.push Table.empty)).map
        fun made => (f (context.info w context.inherited store) made.1, made.2) := by
  rw [node_of_bare h hkind, nodes_single]
  cases node (context.child (context.info w context.inherited store) 0) (.ofChild c)
      (store.push Table.empty) with
  | error e => rfl
  | ok made => simp only [Except.map, Except.bind, hf]

theorem node_of_bare_inOrder {whileSuccess : Bool} (h : w.Bare (.inOrder whileSuccess) cs)
    (context : Context) (store : Store) :
    node context w store
      = (nodes context (context.info w context.inherited store) 0 cs (store.push Table.empty)).map
        fun made =>
          (.inOrder whileSuccess (context.info w context.inherited store) made.1, made.2) := by
  rw [node_of_bare h (NodeKind.field?_inOrder whileSuccess)]
  cases whileSuccess <;>
    cases nodes context (context.info w context.inherited store) 0 cs (store.push Table.empty) <;>
    rfl

end Bare

theorem nodes_append (context : Context) (info : NodeInfo) (more : List (Child Definition)) :
    ∀ (cs : List (Child Definition)) (index : Nat) (store : Store),
    nodes context info index (cs ++ more) store
      = (nodes context info index cs store).bind fun made =>
        (nodes context info (index + cs.length) more made.2).map fun rest =>
          (made.1 ++ rest.1, rest.2)
  | [], index, store => by
    rw [nodes_nil, List.nil_append]
    cases h : nodes context info index more store with
    | error e => simp [Except.bind, Except.map, h]
    | ok made => simp [Except.bind, Except.map, h]
  | c :: rest, index, store => by
    rw [List.cons_append, nodes_cons_eq, nodes_cons_eq]
    cases node (context.child info index) (.ofChild c) store with
    | error e => rfl
    | ok made =>
      simp only [Except.bind]
      rw [nodes_append context info more rest (index + 1) made.2, List.length_cons,
        Nat.add_right_comm index 1, ← Nat.add_assoc]
      cases nodes context info (index + 1) rest made.2 with
      | error e => rfl
      | ok others =>
        simp only [Except.bind, Except.map]
        cases nodes context info (index + rest.length + 1) more others.2 <;> rfl

theorem exists_node_of_mem {info : NodeInfo} {cs : List (Child Definition)} {trees : List Node}
    {index : Nat} {final : Store} (h : nodes context info index cs store = .ok (trees, final))
    (htree : tree ∈ trees) :
    ∃ c k before after, node (context.child info k) (.ofChild c) before = .ok (tree, after)
      ∧ store.Extends before ∧ after.Extends final := by
  obtain ⟨k, hk⟩ := List.mem_iff_getElem?.1 htree
  have hlt : k < cs.length := by
    rw [← length_of_nodes h]
    exact (List.getElem?_eq_some_iff.1 hk).1
  obtain ⟨found, before, after, hfound, hnode, hbefore, hafter⟩ :=
    exists_node_of_nodes h (List.getElem?_eq_getElem hlt)
  obtain rfl := Option.some.inj (hfound.symm.trans hk)
  exact ⟨_, _, before, after, hnode, hbefore, hafter⟩

/-- A tree whose frames are all made is the same when more frames are put in after them. -/
theorem same_of_node {g : Gap} {tree : Node} : ∀ {context : Context} {d : Definition}
    {store later : Store}, node context d store = .ok (tree, later) →
    (∀ id ∈ context.frames, id < store.frames.size) → later.frames.size ≤ g.start →
    g.Nodes tree tree := by
  induction tree using Node.induction with
  | step tree ih =>
    intro context d store later h hframes hstart
    have hcompiled := compiled_of_node h
    have hscope := hcompiled.scope_eq
    have hsize := (node_extends h).size
    rw [Store.size_push] at hsize
    have hown : ∀ id ∈ tree.scope.frames, id < store.frames.size + 1 := by
      rw [hscope]
      exact List.forall_mem_cons.2
        ⟨Nat.lt_succ_self _, fun id hid => Nat.lt_succ_of_lt (hframes id hid)⟩
    refine .same (Gap.scopes_of_lt fun id hid => ?_) fun child hchild => ?_
    · exact Nat.lt_of_lt_of_le (hown id hid) (Nat.le_trans hsize hstart)
    · obtain ⟨c, k, before, after, hnode, hbefore, hafter⟩ :=
        exists_node_of_mem hcompiled.children hchild
      refine ih child hchild hnode (fun id hid => ?_) (Nat.le_trans hafter.size hstart)
      have hgrown := hbefore.size
      rw [Store.size_push] at hgrown
      exact Nat.lt_of_lt_of_le (hown id hid) hgrown

theorem same_of_nodes {g : Gap} {info : NodeInfo} {cs : List (Child Definition)}
    {trees : List Node} {index : Nat} (h : nodes context info index cs store = .ok (trees, later))
    (hframes : ∀ id ∈ info.scope.frames, id < store.frames.size)
    (hstart : later.frames.size ≤ g.start) : List.Forall₂ g.Nodes trees trees := by
  refine List.forall₂_same.2 fun tree htree => ?_
  obtain ⟨c, k, before, after, hnode, hbefore, hafter⟩ := exists_node_of_mem h htree
  exact same_of_node hnode (fun id hid => Nat.lt_of_lt_of_le (hframes id hid) hbefore.size)
    (Nat.le_trans hafter.size hstart)

/-- Results of compiling in a store that differ by frames which were put in after all that is in
the store. -/
def Differ {α : Type} (M : Gap → α → α → Prop) (store : Store) (made made' : α × Store) : Prop :=
  ∃ g : Gap, store.frames.size ≤ g.start ∧ M g made.1 made'.1 ∧ g.Stores made.2 made'.2

/-- Children with some among them that differ. -/
theorem nodes_around {M : Gap → List Node → List Node → Prop}
    (hsame : ∀ {g trees trees'}, List.Forall₂ (Gap.Nodes g) trees trees' → M g trees trees')
    (happend : ∀ {g trees trees' others others'}, M g trees trees' → M g others others' →
      M g (trees ++ others) (trees' ++ others'))
    {info : NodeInfo} {mid mid' : List (Child Definition)}
    (hmid : ∀ index store, (∀ id ∈ info.scope.frames, id < store.frames.size) →
      Agree (Differ M store) (nodes context info index mid store)
        (nodes context info index mid' store))
    (before after : List (Child Definition)) (index : Nat)
    (hframes : ∀ id ∈ info.scope.frames, id < store.frames.size) :
    Agree (Differ M store) (nodes context info index (before ++ (mid ++ after)) store)
      (nodes context info index (before ++ (mid' ++ after)) store) := by
  rw [nodes_append, nodes_append]
  refine (Agree.same _).bind fun made _ hmade _ heq => ?_
  subst heq
  have hextends := nodes_extends
    (fun _ _ _ _ _ _ h => (Store.push_extends _ _).trans (node_extends h)) hmade
  have hgrown : store.frames.size ≤ made.2.frames.size := hextends.size
  have hframes' : ∀ id ∈ info.scope.frames, id < made.2.frames.size := fun id hid =>
    Nat.lt_of_lt_of_le (hframes id hid) hgrown
  rw [nodes_append, nodes_append]
  have hrest := (hmid (index + before.length) made.2 hframes').bind (S := Differ M made.2)
    (f := fun made => (nodes context info (index + before.length + mid.length) after made.2).map
      fun rest => (made.1 ++ rest.1, rest.2))
    (g := fun made => (nodes context info (index + before.length + mid'.length) after made.2).map
      fun rest => (made.1 ++ rest.1, rest.2)) ?_
  · refine hrest.map fun rest rest' _ _ ⟨g, hstart, hmiddle, hstores⟩ => ?_
    have hbefore := same_of_nodes (g := g) hmade hframes hstart
    exact ⟨g, Nat.le_trans hgrown hstart, happend (hsame hbefore) hmiddle, hstores⟩
  · intro made₁ made₁' _ _ ⟨g, hstart, hmiddle, hstores⟩
    have hscope := Gap.scopes_of_lt (g := g) fun id hid =>
      Nat.lt_of_lt_of_le (hframes' id hid) hstart
    have hinfo : g.Infos info info := ⟨rfl, hscope⟩
    refine (nodes_relocate (fun i j => hinfo.child rfl i j) (fun c _ => node_relocates _) _ _
      hstores).map fun rest rest' _ _ ⟨hafter, hlater⟩ => ?_
    exact ⟨g, hstart, happend hmiddle (hsame hafter), hlater⟩

section SetChildren

variable {field : ChildField} {old new : List (Child Definition)}

theorem enter_setChildren (hold : d.children field = some old) (context : Context)
    (store : Store) :
    context.enter (d.setChildren field (some new)) store = context.enter d store := by
  unfold Context.enter
  rw [Definition.findKind_setChildren hold]
  cases field <;> rfl

theorem leaf_setChildren (context : Context) (d : Definition) (field : ChildField)
    (cs : Option (List (Child Definition))) (info : NodeInfo) :
    context.leaf (d.setChildren field cs) info = context.leaf d info := by
  cases field <;> rfl

theorem composite_setChildren (context : Context) (d : Definition) (field : ChildField)
    (cs : Option (List (Child Definition))) (kind : NodeKind) (info : NodeInfo)
    (children : List Node) :
    context.composite (d.setChildren field cs) kind info children
      = context.composite d kind info children := by
  cases field <;> cases kind <;> rfl

/-- A node with other children under one key. -/
theorem node_around (hold : d.children field = some old)
    (hframes : ∀ id ∈ context.frames, id < store.frames.size)
    (hnodes : ∀ kind (info : NodeInfo), d.HasKind kind →
      (∀ id ∈ info.scope.frames, id < (store.push d.declared).frames.size) →
      Agree (Differ (Gap.Below · kind) (store.push d.declared))
        (nodes context info 0 old (store.push d.declared))
        (nodes context info 0 new (store.push d.declared))) :
    Agree (Differ Gap.Nodes store) (node context d store)
      (node context (d.setChildren field (some new)) store) := by
  rw [node_eq, node_eq, enter_setChildren hold]
  refine (Agree.same _).bind fun ⟨kind, info, entered⟩ _ henter _ heq => ?_
  subst heq
  obtain ⟨hkind, -, ⟨convention, -, hinfo⟩, rfl⟩ := Context.enter_eq_ok_iff.1 henter
  have hgrown := (store.push_extends d.declared).size
  have hscope : ∀ id ∈ info.scope.frames, id < (store.push d.declared).frames.size := by
    rw [hinfo, Store.size_push]
    exact List.forall_mem_cons.2
      ⟨Nat.lt_succ_self _, fun id hid => Nat.lt_succ_of_lt (hframes id hid)⟩
  simp only []
  split
  · rw [leaf_setChildren]
    refine (Agree.same _).map fun tree _ htree _ heq => ?_
    subst heq
    obtain ⟨path, action, -, rfl⟩ := Context.leaf_eq_ok_iff.1 htree
    exact ⟨⟨(store.push d.declared).frames.size, 0⟩, hgrown,
      .leaf (Gap.scopes_of_lt hscope) path action, .refl (Nat.le_refl _)⟩
  · rename_i hleaf
    refine (Context.locate_agree (Definition.findChildren_setChildren hkind hold) context context d
      _).bind fun _ _ _ _ hcs => ?_
    obtain ⟨rfl, rfl⟩ := hcs
    refine (hnodes kind info hkind hscope).bind fun made made' _ _ hmade => ?_
    obtain ⟨g, hstart, hbelow, hstores⟩ := hmade
    rw [composite_setChildren]
    refine (Gap.Contexts.composite context context d ?_ info info hbelow).map
      fun tree tree' _ _ htree => ⟨g, Nat.le_trans hgrown hstart, htree, hstores⟩
    simpa [NodeKind.isLeaf] using hleaf

end SetChildren

/-- A store, and the store with an empty frame more. -/
theorem stores_push (store : Store) :
    (Gap.mk store.frames.size 1).Stores store (store.push Table.empty) :=
  .push_spare (.refl (Nat.le_refl _))

section Padded

variable {whileSuccess : Bool} {c : Child Definition} {v w inner : Definition}
  {before cs after : List (Child Definition)} {field : ChildField}

theorem node_wrapped (hw : w.Bare (.inOrder whileSuccess) [c])
    (hframes : ∀ id ∈ context.frames, id < store.frames.size) :
    Agree (Differ Gap.Nodes store) (node context (.ofChild c) store) (node context w store) := by
  have hcontext := (Gap.Contexts.of_lt (g := ⟨store.frames.size, 1⟩) hframes).spare w
    store (by simp [Gap.has]) 0
  rw [node_of_bare_single hw _ (NodeKind.field?_inOrder whileSuccess)
    (fun info child => .inOrder whileSuccess info [child])
    fun _ _ _ _ => by cases whileSuccess <;> rfl]
  exact (node_relocates _ hcontext (stores_push store)).map_right fun made made' hmade =>
    ⟨_, Nat.le_refl _, .wrap hmade.1, hmade.2⟩

theorem node_inverted (hw : w.Bare .invert [.node v]) (hv : v.Bare .invert [c])
    (hframes : ∀ id ∈ context.frames, id < store.frames.size) :
    Agree (Differ Gap.Nodes store) (node context (.ofChild c) store) (node context w store) := by
  have hstores : (Gap.mk store.frames.size 2).Stores store
      ((store.push Table.empty).push Table.empty) := .push_spare (stores_push store)
  have houter := (Gap.Contexts.of_lt (g := ⟨store.frames.size, 2⟩) hframes).spare w
    store (by simp [Gap.has]) 0
  have hinner := houter.spare v (store.push Table.empty) (by simp [Gap.has]) 0
  rw [node_of_bare_single hw .invert rfl (fun info child => .decorator info .invert child)
    fun _ _ _ _ => rfl]
  have hnode : Agree (fun made made' => ∃ info child, made'.1 = .decorator info .invert child
        ∧ (Gap.mk store.frames.size 2).Nodes made.1 child
        ∧ (Gap.mk store.frames.size 2).Stores made.2 made'.2)
      (node context (.ofChild c) store)
      (node (context.child (context.info w context.inherited store) 0) v
        (store.push Table.empty)) := by
    rw [node_of_bare_single hv .invert rfl (fun info child => .decorator info .invert child)
      fun _ _ _ _ => rfl]
    exact (node_relocates _ hinner hstores).map_right fun made made' hmade =>
      ⟨_, _, rfl, hmade.1, hmade.2⟩
  refine hnode.map_right fun made made' hmade => ?_
  obtain ⟨info, child, heq, hchild, hlater⟩ := hmade
  refine ⟨_, Nat.le_refl _, ?_, hlater⟩
  rw [heq]
  exact .inverters hchild

theorem nodes_gathered (hinner : inner.Bare (.inOrder whileSuccess) cs) {info : NodeInfo}
    (index : Nat) (hframes : ∀ id ∈ info.scope.frames, id < store.frames.size) :
    Agree (Differ (fun g => g.Chained whileSuccess) store) (nodes context info index cs store)
      (nodes context info index [.node inner] store) := by
  have hinfo : (Gap.mk store.frames.size 1).Infos info info := ⟨rfl, Gap.scopes_of_lt hframes⟩
  have hcontext := fun i j => (hinfo.child (rfl : context.registry = _) i index).spare inner
    store (by simp [Gap.has]) j
  have hnode : Agree (fun made made' => ∃ info trees, made'.1 = .inOrder whileSuccess info trees
        ∧ List.Forall₂ (Gap.mk store.frames.size 1).Nodes made.1 trees
        ∧ (Gap.mk store.frames.size 1).Stores made.2 made'.2)
      (nodes context info index cs store) (node (context.child info index) inner store) := by
    rw [node_of_bare_inOrder hinner]
    exact (nodes_relocate hcontext (fun c _ => node_relocates _) index 0
      (stores_push store)).map_right fun made made' hmade => ⟨_, _, rfl, hmade.1, hmade.2⟩
  rw [nodes_single]
  refine hnode.map_right fun made made' hmade => ?_
  obtain ⟨info, trees, heq, htrees, hlater⟩ := hmade
  refine ⟨_, Nat.le_refl _, ?_, hlater⟩
  rw [heq]
  exact (Gap.Chained.of_forall₂ htrees).gather

theorem node_spliced (hkind : d.HasKind (.inOrder whileSuccess))
    (hcs : d.children field = some (before ++ (cs ++ after)))
    (hinner : inner.Bare (.inOrder whileSuccess) cs)
    (hframes : ∀ id ∈ context.frames, id < store.frames.size) :
    Agree (Differ Gap.Nodes store) (node context d store)
      (node context (d.setChildren field (some (before ++ ([.node inner] ++ after)))) store) := by
  refine node_around hcs hframes fun kind info hkind' hscope => ?_
  obtain rfl := hkind.unique hkind'
  refine (nodes_around .of_forall₂ .append (fun index store hframes =>
    nodes_gathered hinner index hframes) before after 0 hscope).imp
      fun made made' _ _ ⟨g, hstart, hchained, hstores⟩ => ⟨g, hstart, ?_, hstores⟩
  cases whileSuccess <;> exact hchained

theorem node_inside {e : Definition} (hcs : d.children field = some (before ++ ([c] ++ after)))
    (hwait : d.HasKind .parallel →
      e.waitForMe.getD false = (Definition.ofChild c).waitForMe.getD false)
    (h : ∀ {context : Context} {store : Store}, (∀ id ∈ context.frames, id < store.frames.size) →
      Agree (Differ Gap.Nodes store) (node context (.ofChild c) store) (node context e store))
    (hframes : ∀ id ∈ context.frames, id < store.frames.size) :
    Agree (Differ Gap.Nodes store) (node context d store)
      (node context (d.setChildren field (some (before ++ ([.node e] ++ after)))) store) := by
  refine node_around hcs hframes fun kind info hkind hscope => ?_
  have hmid : ∀ (index : Nat) (store : Store), (∀ id ∈ info.scope.frames, id < store.frames.size) →
      Agree (Differ (fun g => List.Forall₂ g.Nodes) store) (nodes context info index [c] store)
        (nodes context info index [.node e] store) := by
    intro index store hframes
    have hnode : Agree (Differ Gap.Nodes store) (node (context.child info index) (.ofChild c) store)
        (node (context.child info index) e store) := h hframes
    rw [nodes_single, nodes_single]
    exact hnode.map fun made made' _ _ ⟨g, hstart, htree, hstores⟩ =>
      ⟨g, hstart, .cons htree .nil, hstores⟩
  refine (nodes_around id (fun h h' => List.rel_append h h') hmid before after 0 hscope).imp
    fun made made' hmade hmade' ⟨g, hstart, hall, hstores⟩ => ?_
  refine ⟨g, hstart, .of_forall₂ hall fun hparallel => ?_, hstores⟩
  subst hparallel
  rw [waits_of_nodes hmade, waits_of_nodes hmade']
  simp only [List.map_append, List.map_cons, List.map_nil, Definition.ofChild, hwait hkind]

end Padded

/-- A definition compiles with the new node if it does without it, to a tree that differs by frames
which declare nothing. -/
theorem node_padded {d d' : Definition} (h : d.Padded d') :
    ∀ {context : Context} {store : Store}, (∀ id ∈ context.frames, id < store.frames.size) →
    Agree (Differ Gap.Nodes store) (node context d store) (node context d' store) := by
  induction h with
  | wrap whileSuccess hw => exact node_wrapped hw
  | inverters hw hv => exact node_inverted hw hv
  | splice whileSuccess hkind hcs hinner => exact node_spliced hkind hcs hinner
  | inside hcs _ hwait ih => exact node_inside hcs hwait ih

end Compile

end BehaviorTree
