import BehaviorTree.Proofs.Fillings
import BehaviorTree.Proofs.Undebugged

/-!
# Compiling where frames were put in between

A definition is compiled in two contexts, the second of which has some new frames in its chain. It
compiles in both or in neither, and the two trees differ by the new frames only
(`Compile.node_relocates`): no check of the compiler can tell frames that declare nothing.
-/

namespace BehaviorTree

/-- Two results that are related, or two errors. -/
inductive Agree {ε α β : Type} (R : α → β → Prop) : Except ε α → Except ε β → Prop
  | ok {a : α} {b : β} (h : R a b) : Agree R (.ok a) (.ok b)
  | error (e e' : ε) : Agree R (.error e) (.error e')

namespace Agree

variable {ε α β γ δ : Type} {R : α → β → Prop} {S : γ → δ → Prop} {x : Except ε α} {y : Except ε β}

theorem bind (h : Agree R x y) {f : α → Except ε γ} {g : β → Except ε δ}
    (hf : ∀ a b, x = .ok a → y = .ok b → R a b → Agree S (f a) (g b)) :
    Agree S (x.bind f) (y.bind g) := by
  cases h with
  | ok h => exact hf _ _ rfl rfl h
  | error e e' => exact .error e e'

theorem map (h : Agree R x y) {f : α → γ} {g : β → δ}
    (hf : ∀ a b, x = .ok a → y = .ok b → R a b → S (f a) (g b)) :
    Agree S (x.map f) (y.map g) := by
  cases h with
  | ok h => exact .ok (hf _ _ rfl rfl h)
  | error e e' => exact .error e e'

theorem map_right (h : Agree R x y) {g : β → δ} {R' : α → δ → Prop}
    (hg : ∀ a b, R a b → R' a (g b)) : Agree R' x (y.map g) := by
  cases h with
  | ok h => exact .ok (hg _ _ h)
  | error e e' => exact .error e e'

theorem imp {R' : α → β → Prop} (h : Agree R x y)
    (hR : ∀ a b, x = .ok a → y = .ok b → R a b → R' a b) : Agree R' x y := by
  cases h with
  | ok h => exact .ok (hR _ _ rfl rfl h)
  | error e e' => exact .error e e'

theorem same (x : Except ε α) : Agree Eq x x := by
  cases x with
  | ok a => exact .ok rfl
  | error e => exact .error e e

theorem isOk_eq (h : Agree R x y) : y.isOk = x.isOk := by
  cases h <;> rfl

theorem of_ok {a : α} {b : β} (h : Agree R (.ok a : Except ε α) (.ok b)) : R a b := by
  cases h with
  | ok h => exact h

end Agree

namespace Compile

variable {context : Context} {d : Definition} {store later : Store} {tree : Node}

theorem Context.locate_agree {α β : Type} {R : α → β → Prop} {x : Except Defect α}
    {y : Except Defect β} (h : Agree R x y) (context context' : Context) (d d' : Definition) :
    Agree R (context.locate d x) (context'.locate d' y) := by
  cases h with
  | ok h => exact .ok h
  | error e e' => exact .error _ _

theorem Context.shadowed?_eq (context : Context) (d : Definition) (store : Store) :
    d.shadowed? store context.parent = d.declared.names.find? fun name =>
      (context.frames.find? fun id => (store.frame id).contains name).isSome := by
  unfold Definition.shadowed? Context.frames
  cases context.parent with
  | none => exact (List.find?_eq_none.2 fun _ _ => by simp).symm
  | some scope => rfl

theorem waitForMe_of_node (h : node context d store = .ok (tree, later)) :
    tree.info.waitForMe = d.waitForMe.getD false := by
  obtain ⟨convention, -, hinfo⟩ := (compiled_of_node h).info
  rw [hinfo]
  rfl

/-- The flags of the children of a node, as they are listed. -/
theorem waits_of_nodes {info : NodeInfo} : ∀ {cs : List (Child Definition)}
    {made : List Node × Store} {index : Nat} {store : Store},
    nodes context info index cs store = .ok made →
    made.1.map (·.info.waitForMe) = cs.map fun c => (Definition.ofChild c).waitForMe.getD false
  | [], _, _, _, h => by
    rw [nodes_nil] at h
    cases h
    rfl
  | c :: rest, (trees, later), _, _, h => by
    obtain ⟨tree, _, more, htree, hmore, rfl⟩ := nodes_cons_eq_ok_iff.1 h
    rw [List.map_cons, List.map_cons, waitForMe_of_node htree]
    exact congrArg _ (waits_of_nodes hmore)

end Compile

namespace Gap

open Compile.Context (locate_agree)

variable {g : Gap}

/-- Contexts that hand down the same, the second with the new frames. -/
structure Contexts (g : Gap) (context context' : Compile.Context) : Prop where
  registry : context'.registry = context.registry
  inherited : context'.inherited = context.inherited
  frames : g.Chains context.frames context'.frames

/-- What two nodes have that differ by the new frames. -/
structure Infos (g : Gap) (info info' : NodeInfo) : Prop where
  convention : info'.convention = info.convention
  scope : g.Scopes info.scope info'.scope

variable {context context' : Compile.Context} {info info' : NodeInfo} {store store' : Store}

theorem Infos.child (h : g.Infos info info') (hregistry : context'.registry = context.registry)
    (index index' : Nat) : g.Contexts (context.child info index) (context'.child info' index') :=
  ⟨hregistry, h.convention, h.scope.frames⟩

theorem Contexts.shadowed?_eq (h : g.Contexts context context') (hstores : g.Stores store store')
    (d : Definition) : d.shadowed? store' context'.parent = d.shadowed? store context.parent := by
  rw [context.shadowed?_eq, context'.shadowed?_eq]
  refine congrArg (List.find? · _) (funext fun name => ?_)
  rw [hstores.find?_frames_eq h.frames, Option.isSome_map]

/-- The frame of a node is the next one, in both stores. -/
theorem Contexts.scopes (h : g.Contexts context context') (hstores : g.Stores store store') :
    g.Scopes ⟨store.frames.size, context.frames⟩ ⟨store'.frames.size, context'.frames⟩ :=
  ⟨hstores.shift_size.symm, h.frames⟩

theorem Contexts.of_lt (h : ∀ id ∈ context.frames, id < g.start) : g.Contexts context context :=
  ⟨rfl, rfl, chains_of_lt h⟩

/-- A context below one of the new frames. -/
theorem Contexts.spare (h : g.Contexts context context') (w : Definition) (store : Store)
    (hid : g.has store.frames.size) (index : Nat) :
    g.Contexts context (context'.child (context'.info w context'.inherited store) index) :=
  ⟨h.registry, h.inherited, h.frames.cons_spare hid⟩

theorem Contexts.enter (h : g.Contexts context context') (hstores : g.Stores store store')
    (d : Definition) :
    Agree (fun entered entered' => entered'.1 = entered.1 ∧ g.Infos entered.2.1 entered'.2.1
        ∧ g.Stores entered.2.2 entered'.2.2)
      (context.enter d store) (context'.enter d store') := by
  unfold Compile.Context.enter
  simp only [Compile.Context.link_eq, h.inherited, h.shadowed?_eq hstores]
  refine (locate_agree (.same d.findKind) context context' d d).bind fun kind _ _ _ hkind => ?_
  subst hkind
  refine (locate_agree (.same _) context context' d d).bind
    fun convention _ _ _ hconvention => ?_
  subst hconvention
  cases d.shadowed? store context.parent with
  | some name => exact .error _ _
  | none => exact .ok ⟨rfl, ⟨rfl, h.scopes hstores⟩, hstores.push d.declared⟩

theorem Contexts.leaf (h : g.Contexts context context') (hinfo : g.Infos info info')
    (d : Definition) : Agree g.Nodes (context.leaf d info) (context'.leaf d info') := by
  unfold Compile.Context.leaf
  rw [h.registry, hinfo.convention]
  refine (locate_agree (.same _) context context' d d).bind fun found _ _ _ hfound => ?_
  subst hfound
  exact .ok (.leaf hinfo.scope found.1 found.2)

/-- What the children of a node must be for the node around them to be the same but for the new
frames. -/
def Below (g : Gap) : NodeKind → List Node → List Node → Prop
  | .sequence, children, children' => g.Chained true children children'
  | .selector, children, children' => g.Chained false children children'
  | .parallel, children, children' => List.Forall₂ g.Nodes children children'
    ∧ children'.map (·.info.waitForMe) = children.map (·.info.waitForMe)
  | .invert, children, children' | .success, children, children'
  | .failure, children, children' | .action, children, children' =>
    List.Forall₂ g.Nodes children children'

theorem Below.of_forall₂ {children children' : List Node}
    (h : List.Forall₂ g.Nodes children children')
    {kind : NodeKind} (hwait : kind = .parallel →
      children'.map (·.info.waitForMe) = children.map (·.info.waitForMe)) :
    g.Below kind children children' := by
  cases kind with
  | sequence | selector => exact Chained.of_forall₂ h
  | parallel => exact ⟨h, hwait rfl⟩
  | invert | success | failure | action => exact h

theorem Contexts.composite (context context' : Compile.Context) (d : Definition) {kind : NodeKind}
    (hkind : kind ≠ .action) (info info' : NodeInfo) {children children' : List Node}
    (h : g.Below kind children children') :
    Agree g.Nodes (context.composite d kind info children)
      (context'.composite d kind info' children') := by
  cases kind with
  | action => exact absurd rfl hkind
  | sequence => exact .ok (.inOrder (show g.Chained true children children' from h))
  | selector => exact .ok (.inOrder (show g.Chained false children children' from h))
  | parallel =>
    refine (locate_agree (.same d.policy) context context' d d).bind
      fun policy _ _ _ hpolicy => ?_
    subst hpolicy
    exact .ok (.parallel policy h.1 h.2)
  | invert | success | failure =>
    rcases (show List.Forall₂ g.Nodes children children' from h) with
      _ | ⟨hchild, _ | ⟨hsecond, hrest⟩⟩
    · exact .error _ _
    · exact .ok (.decorator _ hchild)
    · exact .error _ _

end Gap

namespace Compile

open Gap (Contexts Infos Below)

/-- A definition compiles in contexts and stores that differ by new frames to trees that do. -/
def Relocates (d : Definition) : Prop :=
  ∀ {g : Gap} {context context' : Context} {store store' : Store},
    g.Contexts context context' → g.Stores store store' →
    Agree (fun made made' => g.Nodes made.1 made'.1 ∧ g.Stores made.2 made'.2)
      (node context d store) (node context' d store')

theorem nodes_cons_eq (context : Context) (info : NodeInfo) (index : Nat) (c : Child Definition)
    (rest : List (Child Definition)) (store : Store) :
    nodes context info index (c :: rest) store
      = (node (context.child info index) (.ofChild c) store).bind fun made =>
        (nodes context info (index + 1) rest made.2).map fun more =>
          (made.1 :: more.1, more.2) := by
  rw [nodes_cons]
  simp only [bind, pure, Except.pure]
  refine congrArg _ (funext fun made => ?_)
  cases nodes context info (index + 1) rest made.2 <;> rfl

theorem nodes_relocate {g : Gap} {context context' : Context} {info info' : NodeInfo}
    (hcontext : ∀ index index',
      g.Contexts (context.child info index) (context'.child info' index')) :
    ∀ {cs : List (Child Definition)}, (∀ c ∈ cs, Relocates (.ofChild c)) →
    ∀ (index index' : Nat) {store store' : Store}, g.Stores store store' →
    Agree (fun made made' => List.Forall₂ g.Nodes made.1 made'.1 ∧ g.Stores made.2 made'.2)
      (nodes context info index cs store) (nodes context' info' index' cs store')
  | [], _, index, index', store, store', hstores => by
    rw [nodes_nil, nodes_nil]
    exact .ok ⟨.nil, hstores⟩
  | c :: rest, h, index, index', store, store', hstores => by
    obtain ⟨hc, hrest⟩ := List.forall_mem_cons.1 h
    rw [nodes_cons_eq, nodes_cons_eq]
    refine (hc (hcontext index index') hstores).bind fun made made' _ _ hmade => ?_
    refine (nodes_relocate hcontext hrest (index + 1) (index' + 1) hmade.2).map ?_
    exact fun more more' _ _ hmore => ⟨.cons hmade.1 hmore.1, hmore.2⟩

theorem relocates_of_children {d : Definition}
    (h : ∀ (kind : NodeKind) (cs : List (Child Definition)),
      (d.findChildren kind).map Subtype.val = .ok cs → ∀ c ∈ cs, Relocates (.ofChild c)) :
    Relocates d := by
  intro g context context' store store' hcontext hstores
  rw [node_eq, node_eq]
  refine (hcontext.enter hstores d).bind fun ⟨kind, info, entered⟩ ⟨kind', info', entered'⟩ _ _
    ⟨hkind, hinfo, hentered⟩ => ?_
  obtain rfl : kind' = kind := hkind
  simp only []
  split
  · exact (hcontext.leaf hinfo d).map fun _ _ _ _ htree => ⟨htree, hentered⟩
  · rename_i hleaf
    refine (Context.locate_agree (.same _) context context' d d).bind fun cs _ hcs _ heq => ?_
    subst heq
    have hchildren := h kind' cs (Context.locate_eq_ok_iff.1 hcs)
    refine (nodes_relocate (hinfo.child hcontext.registry) hchildren 0 0 hentered).bind
      fun made made' hmade hmade' hrelated => ?_
    have hwait := (waits_of_nodes hmade').trans (waits_of_nodes hmade).symm
    refine (Contexts.composite context context' d ?_ info info'
      (Below.of_forall₂ hrelated.1 fun _ => hwait)).map fun _ _ _ _ htree => ⟨htree, hrelated.2⟩
    simpa [NodeKind.isLeaf] using hleaf

theorem findChildren_ofPath (path : String) (kind : NodeKind) (cs : List (Child Definition)) :
    ((Definition.ofPath path).findChildren kind).map Subtype.val ≠ .ok cs := by
  rw [Definition.map_val_findChildren]
  cases kind <;> exact nofun

/-- Wherever a definition is compiled, new frames around it make no difference. -/
theorem node_relocates (d : Definition) : Relocates d := by
  refine relocates_of_children fun kind cs hcs c hc => ?_
  cases c with
  | path path =>
    exact relocates_of_children fun kind cs hcs => absurd hcs (findChildren_ofPath path kind cs)
  | node e =>
    have hlt : sizeOf e < sizeOf d := by
      cases hfound : d.findChildren kind with
      | error defect => rw [hfound] at hcs; cases hcs
      | ok found =>
        rw [hfound] at hcs
        cases hcs
        obtain ⟨field, hfield⟩ := found.2
        exact Definition.sizeOf_lt_of_mem_children hfield hc
    exact @node_relocates e
termination_by sizeOf d

end Compile

end BehaviorTree
