import BehaviorTree.Compile
import Mathlib.Data.List.Induction
import Mathlib.Data.List.Nodup
import Mathlib.Data.List.Perm.Basic

/-!
# The shape of a definition

Every check of the compiler on one node succeeds exactly for what it is meant to accept: the kind
(`Definition.findKind_eq_ok_iff`), the convention (`findConvention_eq_ok_iff`), the action of a
leaf (`findAction_eq_ok_iff`), the lists of children (`findChildren_eq_ok_iff`). Where a node
stands is told by the child indices on the way to it; its `route` is the nodes on that way, and
grows by one node with every index (`route_append_singleton`).
-/

namespace BehaviorTree

namespace NodeKind

theorem mem_all (kind : NodeKind) : kind ∈ all := by
  cases kind <;> decide

theorem nodup_all : all.Nodup := by
  decide

theorem ofName?_eq_some_iff {text : String} {kind : NodeKind} :
    ofName? text = some kind ↔ text = kind.name := by
  refine ⟨fun h => ?_, fun h => h ▸ ofName?_name kind⟩
  unfold ofName? at h
  have := List.find?_some h
  exact (of_decide_eq_true this).symm

end NodeKind

theorem Convention.ofName?_eq_some_iff {text : String} {convention : Convention} :
    Convention.ofName? text = some convention ↔ text = convention.name := by
  refine ⟨fun h => ?_, fun h => h ▸ Convention.ofName?_name convention⟩
  unfold Convention.ofName? at h
  have := List.find?_some h
  exact (of_decide_eq_true this).symm

namespace Definition

/-- The kind that a node has by its tag, with no key of another kind beside it, or by its only
key. -/
def HasKind (d : Definition) (kind : NodeKind) : Prop :=
  match d.kind with
  | some tag => tag = kind.name ∧ ∀ other, d.hasKey other → other = kind
  | none => ∀ other, d.hasKey other ↔ other = kind

/-- The kind by the tag, or else by the first key. -/
def kind? (d : Definition) : Option NodeKind :=
  match d.kind with
  | some tag => NodeKind.ofName? tag
  | none => d.keys.head?

theorem mem_keys {d : Definition} {kind : NodeKind} : kind ∈ d.keys ↔ d.hasKey kind := by
  simp [keys, NodeKind.mem_all]

theorem keys_eq_singleton_iff {d : Definition} {kind : NodeKind} :
    d.keys = [kind] ↔ ∀ other, d.hasKey other ↔ other = kind := by
  refine ⟨fun h other => ?_, fun h => ?_⟩
  · rw [← mem_keys, h, List.mem_singleton]
  · have hperm : d.keys.Perm [kind] :=
      (List.perm_ext_iff_of_nodup (NodeKind.nodup_all.filter _) (List.nodup_singleton kind)).2
        fun other => by rw [List.mem_singleton, ← h other]; exact mem_keys
    exact List.perm_singleton.1 hperm

theorem others_isEmpty_iff {d : Definition} {kind : NodeKind} :
    (d.keys.filter (· ≠ kind)).isEmpty ↔ ∀ other, d.hasKey other → other = kind := by
  rw [List.isEmpty_iff, List.filter_eq_nil_iff]
  refine forall_congr' fun other => ?_
  rw [mem_keys]
  simp

theorem hasKind_of_tag {d : Definition} {tag : String} (h : d.kind = some tag)
    {kind : NodeKind} :
    d.HasKind kind ↔ tag = kind.name ∧ ∀ other, d.hasKey other → other = kind := by
  simp only [HasKind, h]

theorem hasKind_of_untagged {d : Definition} (h : d.kind = none) {kind : NodeKind} :
    d.HasKind kind ↔ d.keys = [kind] := by
  rw [keys_eq_singleton_iff]
  simp only [HasKind, h]

theorem findKind_eq_ok_iff {d : Definition} {kind : NodeKind} :
    d.findKind = .ok kind ↔ d.HasKind kind := by
  unfold findKind
  cases hkind : d.kind with
  | some tag =>
    rw [hasKind_of_tag hkind]
    simp only []
    cases hname : NodeKind.ofName? tag with
    | none =>
      refine ⟨fun h => ?_, fun h => ?_⟩
      · cases h
      · rw [NodeKind.ofName?_eq_some_iff.2 h.1] at hname
        cases hname
    | some found =>
      have hsame : tag = kind.name → found = kind := fun h => by
        rw [NodeKind.ofName?_eq_some_iff.2 h] at hname
        exact (Option.some.inj hname).symm
      simp only []
      split
      · rename_i hothers
        refine ⟨fun h => ?_, fun h => by rw [hsame h.1]⟩
        cases h
        exact ⟨NodeKind.ofName?_eq_some_iff.1 hname, others_isEmpty_iff.1 hothers⟩
      · rename_i hothers
        refine ⟨fun h => ?_, fun h => absurd ?_ hothers⟩
        · cases h
        · rw [hsame h.1]
          exact others_isEmpty_iff.2 h.2
  | none =>
    rw [hasKind_of_untagged hkind]
    simp only []
    split <;> rename_i hkeys <;> simp_all

theorem HasKind.unique {d : Definition} {kind other : NodeKind} (h : d.HasKind kind)
    (h' : d.HasKind other) : kind = other := by
  rw [← findKind_eq_ok_iff] at h h'
  rw [h] at h'
  exact Except.ok.inj h'

theorem HasKind.kind?_eq {d : Definition} {kind : NodeKind} (h : d.HasKind kind) :
    d.kind? = some kind := by
  unfold kind?
  cases hkind : d.kind with
  | some tag =>
    rw [hasKind_of_tag hkind] at h
    exact NodeKind.ofName?_eq_some_iff.2 h.1
  | none =>
    rw [hasKind_of_untagged hkind] at h
    simp only [h, List.head?_cons]

theorem findConvention_eq_ok_iff {d : Definition} {inherited convention : Convention} :
    d.findConvention inherited = .ok convention
      ↔ d.actionType.getD inherited.name = convention.name := by
  unfold findConvention
  cases d.actionType with
  | none =>
    refine ⟨fun h => by cases h; rfl, fun h => ?_⟩
    have := Convention.ofName?_eq_some_iff.2 h
    rw [Option.getD_none, Convention.ofName?_name] at this
    rw [Option.some.inj this]
  | some name =>
    rw [Option.getD_some, ← Convention.ofName?_eq_some_iff]
    simp only []
    split <;> simp_all

/-- The action that a leaf calls: the one it gives, or the one that its path leads to. -/
def action? (d : Definition) (registry : Registry) : Option Action :=
  d.action.bind fun
    | .inline action => some action
    | .path path => registry.get? (Path.ofString path)

private theorem ok_of_convention_iff (found : Option String × Action) (defect : Defect)
    {convention : Convention} {action : Action} :
    (∃ path, (if found.2.convention = convention then .ok found else .error defect)
        = (Except.ok (path, action) : Except Defect (Option String × Action)))
      ↔ some found.2 = some action ∧ action.convention = convention := by
  split
  · rename_i h
    refine ⟨fun ⟨path, hok⟩ => ?_, fun ⟨hsome, _⟩ => ⟨found.1, ?_⟩⟩
    · cases hok
      exact ⟨rfl, h⟩
    · rw [← Option.some.inj hsome]
  · rename_i h
    refine ⟨fun ⟨_, hok⟩ => ?_, fun ⟨hsome, hconvention⟩ => absurd ?_ h⟩
    · cases hok
    · rw [Option.some.inj hsome, hconvention]

theorem findAction_eq_ok_iff {d : Definition} {registry : Registry} {convention : Convention}
    {action : Action} :
    (∃ path, d.findAction registry convention = .ok (path, action))
      ↔ d.action? registry = some action ∧ action.convention = convention := by
  unfold findAction action? Registry.get?
  rcases d.action with _ | ⟨path⟩ | ⟨inline⟩
  · simp [bind, Except.bind]
  · simp only [bind, Except.bind, Option.bind_some]
    rcases registry.resolve (Path.ofString path) with (_ | _) | found
    · simp [Except.toOption]
    · simp [Except.toOption]
    · exact ok_of_convention_iff (some path, found) _
  · exact ok_of_convention_iff (none, inline) _

/-- The children are under exactly one of two keys. -/
theorem findChildren_eq_ok_iff {d : Definition} {kind : NodeKind} {cs : List (Child Definition)} :
    (∃ h, d.findChildren kind = .ok ⟨cs, h⟩)
      ↔ (d.kindChildren kind).isSome ≠ d.nodes.isSome
        ∧ (d.kindChildren kind).or d.nodes = some cs := by
  have hfield : ∀ {l}, d.kindChildren kind = some l → ∃ field, d.children field = some l :=
    fun h => by
      obtain ⟨field, -, h⟩ := Option.bind_eq_some_iff.1 h
      exact ⟨field, h⟩
  unfold findChildren
  split
  · rename_i hk hn
    simp [hk, hn]
  · rename_i l hk hn
    simp only [hk, hn, Except.ok.injEq, Subtype.mk.injEq]
    simpa using fun h : l = cs => h ▸ hfield hk
  · rename_i l hk hn
    simp only [hk, hn, Except.ok.injEq, Subtype.mk.injEq]
    simpa using fun h : l = cs => h ▸ ⟨.nodes, hn⟩
  · rename_i hk hn
    simp [hk, hn]

/-- The children of a node, in order; a leaf has none. -/
def listed (d : Definition) : List (Child Definition) :=
  match d.kind? with
  | some .action => []
  | some kind => ((d.kindChildren kind).or d.nodes).getD []
  | none => []

theorem HasKind.listed_eq {d : Definition} {kind : NodeKind} (h : d.HasKind kind)
    (hleaf : kind ≠ .action) {cs : List (Child Definition)}
    (hcs : (d.kindChildren kind).or d.nodes = some cs) : d.listed = cs := by
  unfold listed
  rw [h.kind?_eq]
  cases kind with
  | action => exact absurd rfl hleaf
  | _ => simp only [hcs, Option.getD_some]

theorem HasKind.listed_eq_nil {d : Definition} (h : d.HasKind .action) : d.listed = [] := by
  unfold listed
  rw [h.kind?_eq]

theorem sizeOf_listed_lt (d : Definition) : sizeOf d.listed < sizeOf d := by
  have hnil : sizeOf ([] : List (Child Definition)) < sizeOf d := by
    rcases d with ⟨_ | tag⟩ <;> simp <;> omega
  have hor : ∀ kind : NodeKind,
      sizeOf (((d.kindChildren kind).or d.nodes).getD []) < sizeOf d := fun kind => by
    cases hk : d.kindChildren kind with
    | some cs =>
      obtain ⟨field, -, hfield⟩ := Option.bind_eq_some_iff.1 hk
      exact sizeOf_children_lt hfield
    | none =>
      cases hn : d.nodes with
      | some cs => exact sizeOf_children_lt (show d.children .nodes = some cs from hn)
      | none => exact hnil
  unfold listed
  split
  · exact hnil
  · exact hor _
  · exact hnil

theorem sizeOf_lt_of_mem_listed {d e : Definition} (h : .node e ∈ d.listed) :
    sizeOf e < sizeOf d := by
  have := List.sizeOf_lt_of_mem h
  have hlisted := d.sizeOf_listed_lt
  simp only [Child.node.sizeOf_spec] at this
  omega

theorem ofPath_hasKind (path : String) : (ofPath path).HasKind .action := by
  intro other
  cases other <;> simp [hasKey, kindChildren, NodeKind.field?, children, ofPath]

end Definition

/-- A node of a definition, with the child indices on the way to it. -/
structure Site where
  position : List Nat
  definition : Definition

/-- A child, from its index and how it is listed. -/
def Site.child (site : Site) (i : Nat) (c : Child Definition) : Site :=
  ⟨site.position ++ [i], .ofChild c⟩

namespace Definition

/-- The nodes on the way down from a node, and the ones above it, the last one first. -/
def routeFrom (above : List Site) (site : Site) : List Nat → Option (List Site)
  | [] => some (site :: above)
  | i :: rest =>
    site.definition.listed[i]?.bind fun c => routeFrom (site :: above) (site.child i c) rest

/-- The nodes on the way to a position, the last one first. -/
def route (d : Definition) (position : List Nat) : Option (List Site) :=
  routeFrom [] ⟨[], d⟩ position

theorem routeFrom_append_singleton {sites : List Site} {i : Nat} :
    ∀ {above : List Site} {start : Site} {position : List Nat},
    routeFrom above start (position ++ [i]) = some sites
      ↔ ∃ site above' c, routeFrom above start position = some (site :: above')
        ∧ site.definition.listed[i]? = some c ∧ sites = site.child i c :: site :: above'
  | above, start, [] => by
    simp only [List.nil_append, routeFrom, Option.bind_eq_some_iff, Option.some.injEq]
    constructor
    · rintro ⟨c, hc, rfl⟩
      exact ⟨start, above, c, rfl, hc, rfl⟩
    · rintro ⟨site, above', c, hsite, hc, rfl⟩
      cases hsite
      exact ⟨c, hc, rfl⟩
  | above, start, j :: position => by
    simp only [List.cons_append, routeFrom, Option.bind_eq_some_iff]
    constructor
    · rintro ⟨e, he, h⟩
      obtain ⟨site, above', c, hsite, hc, hsites⟩ := routeFrom_append_singleton.1 h
      exact ⟨site, above', c, ⟨e, he, hsite⟩, hc, hsites⟩
    · rintro ⟨site, above', c, ⟨e, he, h⟩, hc, rfl⟩
      exact ⟨e, he, routeFrom_append_singleton.2 ⟨site, above', c, h, hc, rfl⟩⟩

theorem route_append_singleton {d : Definition} {position : List Nat} {i : Nat}
    {sites : List Site} :
    d.route (position ++ [i]) = some sites
      ↔ ∃ site above c, d.route position = some (site :: above)
        ∧ site.definition.listed[i]? = some c ∧ sites = site.child i c :: site :: above :=
  routeFrom_append_singleton

theorem position_of_route {d : Definition} {position : List Nat} {site : Site}
    {above : List Site} (h : d.route position = some (site :: above)) :
    site.position = position := by
  induction position using List.reverseRecOn generalizing site above with
  | nil => cases h; rfl
  | append_singleton position i ih =>
    obtain ⟨parent, above', c, hparent, -, heq⟩ := route_append_singleton.1 h
    cases heq
    rw [Site.child, ih hparent]

end Definition

end BehaviorTree
