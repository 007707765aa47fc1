import BehaviorTree.Proofs.Rewriting
import Mathlib.Logic.Relation

/-!
# Spellings of a definition

A leaf may be written as the path of its action, and the children of a node under the key of its
kind, with or without a tag, or under the neutral key with a tag (`Definition.Respelled`). The
compiler cannot tell: at every node it finds the same kind, the same children and all the rest as
before (`Compile.node_congr`), so the trees are equal, or the defects and the nodes that they are
at (`compile_eq_of_respelled`).
-/

namespace BehaviorTree

namespace Definition

/-- A node whose kind is said by the key of its children alone. -/
structure Keyed (d : Definition) (kind : NodeKind) (field : ChildField)
    (cs : List (Child Definition)) : Prop where
  untagged : d.kind = none
  nodes : d.nodes = none
  keys : d.keys = [kind]
  field?_eq : kind.field? = some field
  children : d.children field = some cs

/-- With a tag for the kind beside the key. -/
def tagged (d : Definition) (kind : NodeKind) : Definition :=
  { d with kind := some kind.name }

/-- With a tag for the kind, and the children under the neutral key. -/
def neutral (d : Definition) (kind : NodeKind) (field : ChildField)
    (cs : List (Child Definition)) : Definition :=
  ((d.setChildren field none).setChildren .nodes (some cs)).tagged kind

/-- A definition, and the definition with one node somewhere in it written differently. -/
inductive Respelled : Definition → Definition → Prop
  | leaf {d : Definition} {field : ChildField} {before after : List (Child Definition)}
    (path : String) (hcs : d.children field = some (before ++ .path path :: after)) :
    Respelled d (d.setChildren field (some (before ++ .node (.ofPath path) :: after)))
  | tagged {d : Definition} {kind : NodeKind} {field : ChildField} {cs : List (Child Definition)}
    (h : d.Keyed kind field cs) : Respelled d (d.tagged kind)
  | neutral {d : Definition} {kind : NodeKind} {field : ChildField} {cs : List (Child Definition)}
    (h : d.Keyed kind field cs) : Respelled d (d.neutral kind field cs)
  | inside {d c e : Definition} {field : ChildField} {before after : List (Child Definition)}
    (hcs : d.children field = some (before ++ .node c :: after)) (h : Respelled c e) :
    Respelled d (d.setChildren field (some (before ++ .node e :: after)))

section Keyed

variable {d : Definition} {kind : NodeKind} {field : ChildField} {cs : List (Child Definition)}

theorem Keyed.hasKind (h : d.Keyed kind field cs) : d.HasKind kind :=
  (hasKind_of_untagged h.untagged).2 h.keys

theorem Keyed.findChildren (h : d.Keyed kind field cs) :
    (d.findChildren kind).map Subtype.val = .ok cs := by
  rw [map_val_findChildren, kindChildren, h.field?_eq, Option.bind_some, h.children, h.nodes]

theorem Keyed.hasKind_tagged (h : d.Keyed kind field cs) : (d.tagged kind).HasKind kind :=
  (hasKind_of_tag rfl).2 ⟨rfl, fun _ hother => h.hasKind.eq_of_hasKey hother⟩

theorem kindChildren_neutral (d : Definition) (kind : NodeKind) (field : ChildField)
    (cs : List (Child Definition)) (other : NodeKind) :
    (d.neutral kind field cs).kindChildren other
      = if other.field? = some field then none else d.kindChildren other := by
  have hne : other.field? ≠ some .nodes := by cases other <;> exact nofun
  rw [show (d.neutral kind field cs).kindChildren other = _ from
      kindChildren_setChildren (d.setChildren field none) .nodes (some cs) other,
    if_neg hne, kindChildren_setChildren]

theorem hasKey_of_neutral {other : NodeKind} (h : (d.neutral kind field cs).hasKey other) :
    d.hasKey other := by
  have haction : (d.neutral kind field cs).action = d.action := by cases field <;> rfl
  unfold hasKey at h ⊢
  rw [kindChildren_neutral, haction] at h
  -- the key of an action is no key of children, and those of other kinds stay as they are
  split
  · rwa [if_pos ‹_›] at h
  · rw [if_neg ‹_›] at h
    split at h
    · cases h
    · exact h

theorem Keyed.hasKind_neutral (h : d.Keyed kind field cs) :
    (d.neutral kind field cs).HasKind kind :=
  (hasKind_of_tag rfl).2 ⟨rfl, fun _ hother => h.hasKind.eq_of_hasKey (hasKey_of_neutral hother)⟩

theorem Keyed.findChildren_neutral (h : d.Keyed kind field cs) :
    ((d.neutral kind field cs).findChildren kind).map Subtype.val = .ok cs := by
  rw [map_val_findChildren, kindChildren_neutral, if_pos h.field?_eq]
  rfl

end Keyed

end Definition

namespace Compile

/-- A definition in which the compiler finds what it finds in another compiles as that does. -/
theorem node_congr {context : Context} {d e : Definition} {store : Store}
    (henter : context.enter e store = context.enter d store)
    (hleaf : ∀ info, context.leaf e info = context.leaf d info)
    (hcomposite : ∀ kind info trees,
      context.composite e kind info trees = context.composite d kind info trees)
    (hnodes : ∀ kind info entered, d.HasKind kind →
      (context.locate e ((e.findChildren kind).map Subtype.val)).bind
          (nodes context info 0 · entered)
        = (context.locate d ((d.findChildren kind).map Subtype.val)).bind
          (nodes context info 0 · entered)) :
    node context e store = node context d store := by
  have hok : ∀ {α β : Type} (a : α) (f : α → Except CompileError β),
      (Except.ok a).bind f = f a := fun _ _ => rfl
  have hassoc : ∀ {α β γ : Type} (x : Except CompileError α) (f : α → Except CompileError β)
      (g : β → Except CompileError γ), x.bind (fun a => (f a).bind g) = (x.bind f).bind g := by
    rintro α β γ (_ | _) f g <;> rfl
  rw [node_eq, node_eq, henter]
  cases hentered : context.enter d store with
  | error e => rfl
  | ok entered =>
    obtain ⟨kind, info, entered⟩ := entered
    -- children are looked for under the kind of the node only, so nothing is asked about others
    have hkind : d.HasKind kind := (Context.enter_eq_ok_iff.1 hentered).1
    rw [hok, hok]
    simp only [hleaf]
    split
    · rfl
    · simp only [hassoc, hcomposite, hnodes kind info entered hkind]

/-- A definition that compiles as another does, wherever it is. -/
def Same (d e : Definition) : Prop :=
  ∀ context store, node context e store = node context d store

section Children

variable {d : Definition} {field : ChildField} {before after : List (Child Definition)}
  {c c' : Child Definition}

theorem nodes_replace (h : Same (.ofChild c) (.ofChild c')) (context : Context) (info : NodeInfo)
    (index : Nat) (store : Store) :
    nodes context info index (before ++ c' :: after) store
      = nodes context info index (before ++ c :: after) store := by
  rw [nodes_append, nodes_append]
  simp only [nodes_cons_eq, h _ _]

theorem locate_setChildren {α : Type} (context : Context) (d : Definition) (field : ChildField)
    (cs : Option (List (Child Definition))) (x : Except Defect α) :
    context.locate (d.setChildren field cs) x = context.locate d x := by
  cases field <;> rfl

/-- A child may be replaced by one that compiles as it does. -/
theorem same_setChildren (hcs : d.children field = some (before ++ c :: after))
    (h : Same (.ofChild c) (.ofChild c')) :
    Same d (d.setChildren field (some (before ++ c' :: after))) := by
  intro context store
  refine node_congr (enter_setChildren hcs context store) (leaf_setChildren context d field _)
    (composite_setChildren context d field _) fun kind info entered hkind => ?_
  rw [locate_setChildren]
  rcases Definition.findChildren_setChildren_cases hkind hcs (before ++ c' :: after) with
    ⟨hold, hnew⟩ | ⟨defect, hold, hnew⟩ <;> rw [hold, hnew]
  exact nodes_replace h context info 0 entered

end Children

section Keyed

variable {d e : Definition} {kind : NodeKind} {field : ChildField} {cs : List (Child Definition)}

/-- Children of the same kind, found elsewhere. -/
theorem nodes_of_found (h : d.Keyed kind field cs)
    (hcs : (e.findChildren kind).map Subtype.val = .ok cs) (context : Context)
    (other : NodeKind) (info : NodeInfo) (entered : Store) (hother : d.HasKind other) :
    (context.locate e ((e.findChildren other).map Subtype.val)).bind
        (nodes context info 0 · entered)
      = (context.locate d ((d.findChildren other).map Subtype.val)).bind
        (nodes context info 0 · entered) := by
  obtain rfl := h.hasKind.unique hother
  rw [hcs, h.findChildren]
  rfl

theorem same_tagged (h : d.Keyed kind field cs) : Same d (d.tagged kind) := by
  intro context store
  refine node_congr ?_ (fun _ => rfl) (fun other _ _ => by cases other <;> rfl)
    (nodes_of_found h h.findChildren context)
  unfold Context.enter
  rw [Definition.findKind_eq_ok_iff.2 h.hasKind, Definition.findKind_eq_ok_iff.2 h.hasKind_tagged]
  rfl

theorem same_neutral (h : d.Keyed kind field cs) : Same d (d.neutral kind field cs) := by
  intro context store
  refine node_congr ?_ (fun _ => by cases field <;> rfl)
    (fun other _ _ => by cases field <;> cases other <;> rfl)
    (nodes_of_found h h.findChildren_neutral context)
  unfold Context.enter
  rw [Definition.findKind_eq_ok_iff.2 h.hasKind, Definition.findKind_eq_ok_iff.2 h.hasKind_neutral]
  cases field <;> rfl

end Keyed

theorem same_of_respelled {d e : Definition} (h : d.Respelled e) : Same d e := by
  induction h with
  | leaf path hcs => exact same_setChildren hcs fun _ _ => rfl
  | tagged h => exact same_tagged h
  | neutral h => exact same_neutral h
  | inside hcs _ ih => exact same_setChildren hcs ih

end Compile

/-- Spellings of one definition compile to the same tree in the same store, or with the same defect
at the same node. -/
theorem compile_eq_of_respelled (registry : Registry) (globals : Option Scope) (d e : Definition)
    (h : Relation.EqvGen Definition.Respelled d e) (store : Store) :
    compile registry globals e store = compile registry globals d store := by
  unfold compile
  induction h with
  | rel d e h => exact Compile.same_of_respelled h _ _
  | refl d => rfl
  | symm d e _ ih => exact ih.symm
  | trans d e f _ _ ih ih' => exact ih'.trans ih

/-- A sequence under the neutral key around a tagged inverter, with the path of an action that there
is not written as a leaf. -/
theorem compile_eq_of_respelled_of_inverter :
    let inverter := Definition.ofChildren .invert [.path "halt"]
    let leaf := Definition.ofChildren .invert [.node (.ofPath "halt")]
    let d := Definition.ofChildren .seq [.node inverter, .path "go"]
    let e := (Definition.ofChildren .nodes [.node (leaf.tagged .invert), .path "go"]).tagged
      .sequence
    Relation.EqvGen Definition.Respelled d e
      ∧ compile .empty none e {} = .error ⟨⟨[0, 0], none⟩, .unresolvedAction "halt"⟩ := by
  intro inverter leaf d e
  have hleaf : inverter.Respelled leaf :=
    @Definition.Respelled.leaf inverter .invert [] [] "halt" rfl
  have htagged : leaf.Respelled (leaf.tagged .invert) :=
    .tagged ⟨rfl, rfl, by decide +kernel, rfl, rfl⟩
  have hrespelled : Relation.EqvGen Definition.Respelled d e :=
    .trans _ _ _ (.rel _ _ (@Definition.Respelled.inside d _ _ .seq [] [.path "go"] rfl hleaf))
      (.trans _ _ _
        (.rel _ _ (@Definition.Respelled.inside _ _ _ .seq [] [.path "go"] rfl htagged))
        (.rel _ _ (@Definition.Respelled.neutral _ .sequence .seq _
          ⟨rfl, rfl, by decide +kernel, rfl, rfl⟩)))
  refine ⟨hrespelled, ?_⟩
  have hhalt : ∀ (context : Compile.Context) info store, context.registry = .empty →
      Compile.nodes context info 0 [.path "halt"] store
        = .error ⟨⟨context.indices ++ [0], none⟩, .unresolvedAction "halt"⟩ := by
    rintro ⟨_, parent, inherited, indices⟩ info store rfl
    rw [Compile.nodes_cons_eq, Compile.node_eq]
    rfl
  have hinverter : ∀ (context : Compile.Context) info store, context.registry = .empty →
      Compile.node (context.child info 0) inverter store
        = .error ⟨⟨context.indices ++ [0] ++ [0], none⟩, .unresolvedAction "halt"⟩ := by
    intro context info store hregistry
    rw [Compile.node_eq]
    change (Compile.nodes (context.child info 0) _ 0 [.path "halt"] _).bind _ = _
    rw [hhalt (context.child info 0) _ _ hregistry]
    rfl
  rw [compile_eq_of_respelled .empty none d e hrespelled {}, compile, Compile.node_eq]
  change (Compile.nodes _ _ 0 [.node inverter, .path "go"] _).bind _ = _
  rw [Compile.nodes_cons_eq]
  change ((Compile.node _ inverter _).bind _).bind _ = _
  rw [hinverter _ _ _ rfl]
  rfl

end BehaviorTree
