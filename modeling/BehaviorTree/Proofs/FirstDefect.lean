import BehaviorTree.Proofs.Defects
import BehaviorTree.Proofs.Places

/-!
# The first defect

A definition that does not compile has defects, and the one that is reported is the first of them
(`compile_reports_first_defect`): a node is looked at before its children, they are looked at from
left to right, and then the number of children of a decorator or the thresholds of a parallel node
(`Earlier`). The place that the report gives is that of no other node
(`Place.indices_eq_of_text_eq`).
-/

namespace BehaviorTree

/-- Whether a defect at one position is come to before another at another position. -/
def Earlier : List Nat → Defect → List Nat → Defect → Prop
  | [], x, [], y => x.rank < y.rank
  | [], x, _ :: _, _ => ¬x.IsLate
  | _ :: _, _, [], y => y.IsLate
  | i :: p, x, j :: q, y => i < j ∨ i = j ∧ Earlier p x q y

theorem Earlier.asymm {x y : Defect} : ∀ {p q : List Nat}, Earlier p x q y → ¬Earlier q y p x
  | [], [], h => Nat.lt_asymm h
  | [], _ :: _, h => h
  | _ :: _, [], h => not_not_intro h
  | i :: p, j :: q, h => by
    rintro (hlt | ⟨rfl, h'⟩)
    · rcases h with h | ⟨rfl, -⟩ <;> omega
    · rcases h with h | ⟨-, h⟩
      · omega
      · exact h.asymm h'

/-- The first of some defects at some positions. -/
structure IsFirst (defects : List Nat → Defect → Prop) (position : List Nat) (x : Defect) :
    Prop where
  met : defects position x
  first : ∀ q y, defects q y → (q = position ∧ y = x) ∨ Earlier position x q y

theorem IsFirst.unique {defects : List Nat → Defect → Prop} {p q : List Nat} {x y : Defect}
    (h : IsFirst defects p x) (h' : IsFirst defects q y) : p = q ∧ x = y := by
  rcases h.first q y h'.met with ⟨rfl, rfl⟩ | hlt
  · exact ⟨rfl, rfl⟩
  · rcases h'.first p x h.met with heq | hlt'
    · exact heq
    · exact absurd hlt' hlt.asymm

namespace Definition

section DefectFrom

variable (registry : Registry) (declared : String → Prop)

/-- Whether the node at a position below another has a defect. -/
def DefectFrom (above : List Site) (site : Site) (position : List Nat) (x : Defect) : Prop :=
  ∃ below route, routeFrom above site position = some (below :: route)
    ∧ below.definition.HasDefect registry declared route x

/-- A node without defects at it and below it. -/
def Clean (above : List Site) (site : Site) : Prop :=
  ∀ position x, ¬DefectFrom registry declared above site position x

/-- What is said of a node by what became of compiling it: there is no defect from there on, or
this is the first one. -/
def Reports {α : Type} (above : List Site) (site : Site) : Except CompileError α → Prop
  | .ok _ => Clean registry declared above site
  | .error e => ∃ position below route, routeFrom above site position = some (below :: route)
    ∧ e.place = ⟨below.position, below.definition.title⟩
    ∧ IsFirst (DefectFrom registry declared above site) position e.defect

end DefectFrom

variable {registry : Registry} {declared : String → Prop} {above : List Site} {site : Site}

theorem defectFrom_nil {x : Defect} :
    DefectFrom registry declared above site [] x
      ↔ site.definition.HasDefect registry declared above x := by
  simp [DefectFrom, routeFrom]

theorem defectFrom_cons {i : Nat} {position : List Nat} {x : Defect} :
    DefectFrom registry declared above site (i :: position) x
      ↔ ∃ c, site.definition.listed[i]? = some c
        ∧ DefectFrom registry declared (site :: above) (site.child i c) position x := by
  simp only [DefectFrom, routeFrom, Option.bind_eq_some_iff]
  constructor
  · rintro ⟨below, route, ⟨c, hc, hroute⟩, h⟩
    exact ⟨c, hc, below, route, hroute, h⟩
  · rintro ⟨c, hc, below, route, hroute, h⟩
    exact ⟨below, route, ⟨c, hc, hroute⟩, h⟩

theorem clean_iff : Clean registry declared above site
    ↔ (∀ x, ¬site.definition.HasDefect registry declared above x)
      ∧ ∀ i c, site.definition.listed[i]? = some c →
        Clean registry declared (site :: above) (site.child i c) := by
  constructor
  · refine fun h => ⟨fun x hx => h [] x (defectFrom_nil.2 hx), fun i c hc position x hx => ?_⟩
    exact h (i :: position) x (defectFrom_cons.2 ⟨c, hc, hx⟩)
  · rintro ⟨hown, hchildren⟩ (_ | ⟨i, position⟩) x hx
    · exact hown x (defectFrom_nil.1 hx)
    · obtain ⟨c, hc, hx⟩ := defectFrom_cons.1 hx
      exact hchildren i c hc position x hx

/-- The first defect of a node comes before those of its children, or they have none. -/
theorem reports_of_own {α : Type} {x : Defect}
    (h : site.definition.MeetsFirst registry declared above x)
    (hchildren : x.IsLate → ∀ i c, site.definition.listed[i]? = some c →
      Clean registry declared (site :: above) (site.child i c)) :
    Reports registry declared above site
      (.error ⟨⟨site.position, site.definition.title⟩, x⟩ : Except CompileError α) := by
  refine ⟨[], site, above, rfl, rfl, defectFrom_nil.2 h.has, ?_⟩
  rintro (_ | ⟨i, position⟩) y hy
  · exact (h.first y (defectFrom_nil.1 hy)).imp (⟨rfl, ·⟩) id
  · obtain ⟨c, hc, hy⟩ := defectFrom_cons.1 hy
    exact .inr fun hlate => hchildren hlate i c hc position y hy

/-- The first defect of a child is that of its parent if there is none to the left, nor an early
one at the parent. -/
theorem reports_of_child {α : Type} {i : Nat} {c : Child Definition} {e : CompileError}
    (hc : site.definition.listed[i]? = some c)
    (h : Reports registry declared (site :: above) (site.child i c)
      (.error e : Except CompileError α))
    (hleft : ∀ j < i, ∀ c, site.definition.listed[j]? = some c →
      Clean registry declared (site :: above) (site.child j c))
    (hown : site.definition.Clear registry declared above 10) :
    Reports registry declared above site (.error e : Except CompileError α) := by
  obtain ⟨position, below, route, hroute, hplace, hmet, hfirst⟩ := h
  refine ⟨i :: position, below, route, ?_, hplace, defectFrom_cons.2 ⟨c, hc, hmet⟩, ?_⟩
  · rw [routeFrom, hc]
    exact hroute
  rintro (_ | ⟨j, q⟩) y hy
  · exact .inr (hown y (defectFrom_nil.1 hy))
  · obtain ⟨other, hother, hy⟩ := defectFrom_cons.1 hy
    rcases Nat.lt_trichotomy i j with hlt | rfl | hlt
    · exact .inr (.inl hlt)
    · obtain rfl := Option.some.inj (hother.symm.trans hc)
      rcases hfirst q y hy with ⟨rfl, rfl⟩ | h
      · exact .inl ⟨rfl, rfl⟩
      · exact .inr (.inr ⟨rfl, h⟩)
    · exact absurd hy (hleft j hlt other hother q y)

end Definition

namespace Compile

open Definition

theorem node_eq_error_iff {context : Context} {d : Definition} {store : Store} {e : CompileError} :
    node context d store = .error e
      ↔ context.enter d store = .error e
        ∨ ∃ kind info store₁, context.enter d store = .ok (kind, info, store₁)
          ∧ ((kind = .action ∧ context.leaf d info = .error e)
            ∨ (kind ≠ .action ∧ ((∃ x, d.findChildren kind = .error x
                ∧ e = ⟨⟨context.indices, d.title⟩, x⟩)
              ∨ ∃ cs, d.findChildren kind = .ok cs
                ∧ (nodes context info 0 cs.1 store₁ = .error e
                  ∨ ∃ trees store', nodes context info 0 cs.1 store₁ = .ok (trees, store')
                    ∧ context.composite d kind info trees = .error e)))) := by
  rw [node]
  simp only [bind_eq_error_iff, Prod.exists]
  refine or_congr_right <| exists_congr fun kind => exists_congr fun info =>
    exists_congr fun store₁ => and_congr_right fun _ => ?_
  by_cases hkind : kind = .action
  · subst hkind
    simp [NodeKind.isLeaf, bind_eq_error_iff, pure, Except.pure]
  · rw [if_neg (by simpa [NodeKind.isLeaf] using hkind)]
    simp [hkind, bind_eq_error_iff, Context.locate_eq_error_iff, Context.locate_eq_ok_iff, pure,
      Except.pure]

/-- Children are compiled from left to right, up to the first that does not compile. -/
theorem exists_error_of_nodes {context : Context} {info : NodeInfo} {e : CompileError} :
    ∀ {cs : List (Child Definition)} {index : Nat} {store : Store},
    nodes context info index cs store = .error e →
    ∃ k c later, cs[k]? = some c ∧ store.Extends later
      ∧ node (context.child info (index + k)) (.ofChild c) later = .error e
      ∧ ∀ j < k, ∀ c, cs[j]? = some c → ∃ later result, store.Extends later
        ∧ node (context.child info (index + j)) (.ofChild c) later = .ok result
  | [], index, store, h => by
    rw [nodes_nil] at h
    cases h
  | c :: cs, index, store, h => by
    simp only [nodes_cons, bind_eq_error_iff, Prod.exists] at h
    rcases h with h | ⟨tree, store₁, htree, h | ⟨more, later, -, h⟩⟩
    · exact ⟨0, c, store, rfl, .refl store, h, fun j hj => absurd hj (Nat.not_lt_zero j)⟩
    · have hextends : store.Extends store₁ := (store.push_extends _).trans (node_extends htree)
      obtain ⟨k, e, later, he, hlater, herror, hleft⟩ := exists_error_of_nodes h
      have hindex : ∀ j, index + 1 + j = index + (j + 1) := fun j => by omega
      simp only [hindex] at herror hleft
      refine ⟨k + 1, e, later, he, hextends.trans hlater, herror, fun j hj c' hc' => ?_⟩
      cases j with
      | zero =>
        cases hc'
        exact ⟨store, _, .refl store, htree⟩
      | succ j =>
        obtain ⟨before, result, hbefore, hok⟩ := hleft j (Nat.lt_of_succ_lt_succ hj) c' hc'
        exact ⟨before, result, hextends.trans hbefore, hok⟩
    · cases h

theorem Context.Under.child_of_enter {context root : Context} {base store store₁ later : Store}
    {above : List Site} {site : Site} {kind : NodeKind} {info : NodeInfo}
    (h : context.Under root base above store)
    (henter : context.enter site.definition store = .ok (kind, info, store₁)) (i : Nat)
    (hlater : store₁.Extends later) :
    (context.child info i).Under root base (site :: above) later := by
  obtain ⟨-, -, ⟨convention, hconvention, rfl⟩, rfl⟩ := Context.enter_eq_ok_iff.1 henter
  exact (h.child site hconvention i).mono hlater

theorem clear_of_findChildren {registry : Registry} {declared : String → Prop} {above : List Site}
    {d : Definition} {kind : NodeKind} {cs : List (Child Definition)} {hfield}
    (hkind : d.HasKind kind) (hne : kind ≠ .action) (hclear : d.Clear registry declared above 5)
    (hcs : d.findChildren kind = .ok ⟨cs, hfield⟩) :
    d.listed = cs ∧ d.Clear registry declared above 10 := by
  refine ⟨hkind.listed_eq hne (Definition.findChildren_eq_ok_iff.1 ⟨hfield, hcs⟩).2, ?_⟩
  exact (Definition.finds_findChildren hkind hne).clear hcs (hclear.of_composite hkind hne)

/-- Children that compiled have no defects, if they say what they should. -/
theorem clean_of_nodes {context root : Context} {base entered store' : Store} {above : List Site}
    {site : Site} {info : NodeInfo} {trees : List Node}
    (h : ∀ {i c later}, site.definition.listed[i]? = some c → entered.Extends later →
      Reports root.registry (base.Declares root.frames) (site :: above) (site.child i c)
        (node (context.child info i) (.ofChild c) later))
    (hnodes : nodes context info 0 site.definition.listed entered = .ok (trees, store')) (i : Nat)
    (c : Child Definition) (hc : site.definition.listed[i]? = some c) :
    Clean root.registry (base.Declares root.frames) (site :: above) (site.child i c) := by
  obtain ⟨child, before, after, -, hchild, hbefore, -⟩ := exists_node_of_nodes hnodes hc
  rw [Nat.zero_add] at hchild
  have hreports := h hc hbefore
  rw [hchild] at hreports
  exact hreports

section Reports

variable {context root : Context} {base store : Store} {above : List Site} {site : Site}
  (hroot : ∀ id ∈ root.frames, id < base.frames.size) (hplain : root.inherited = .plain)
  (hunder : context.Under root base above store)

include hroot hplain hunder

/-- A node that compiled has no defect, nor have its children if they say what they should. -/
theorem node_clean_of_children
    (h : ∀ {kind info entered}, context.enter site.definition store = .ok (kind, info, entered) →
      ∀ {i c later}, site.definition.listed[i]? = some c → entered.Extends later →
      Reports root.registry (base.Declares root.frames) (site :: above) (site.child i c)
        (node (context.child info i) (.ofChild c) later))
    {result : Node × Store} (hok : node context site.definition store = .ok result) :
    Clean root.registry (base.Declares root.frames) above site := by
  obtain ⟨tree, store'⟩ := result
  obtain ⟨kind, info, entered, henter, hrest⟩ := node_eq_ok_iff.1 hok
  have hclear := hunder.enter_clear hroot henter
  have hkind := (Context.enter_eq_ok_iff.1 henter).1
  refine Definition.clean_iff.2 ?_
  rcases hrest with ⟨rfl, hleaf, -⟩ | ⟨hne, ⟨cs, hfield⟩, trees, hcs, hnodes, hcomposite⟩
  · have hname := hunder.conventionName_eq hplain henter
    refine ⟨Context.leaf_clear hunder.registry hkind hname hclear hleaf, fun i c hc => ?_⟩
    rw [hkind.listed_eq_nil] at hc
    cases hc
  · obtain ⟨rfl, hclear⟩ := clear_of_findChildren hkind hne hclear hcs
    have hlength := length_of_nodes hnodes
    exact ⟨Context.composite_clear hkind hlength hclear hne hcomposite,
      clean_of_nodes (h henter) hnodes⟩

/-- A node that did not compile reports its first defect, or that of its first child that did not
compile. -/
theorem node_first_of_children (hposition : context.indices = site.position)
    (h : ∀ {kind info entered}, context.enter site.definition store = .ok (kind, info, entered) →
      ∀ {i c later}, site.definition.listed[i]? = some c → entered.Extends later →
      Reports root.registry (base.Declares root.frames) (site :: above) (site.child i c)
        (node (context.child info i) (.ofChild c) later))
    {e : CompileError} (herror : node context site.definition store = .error e) :
    Reports root.registry (base.Declares root.frames) above site
      (.error e : Except CompileError (Node × Store)) := by
  have hearly : ∀ {x}, e = ⟨⟨context.indices, site.definition.title⟩, x⟩ → ¬x.IsLate →
      site.definition.MeetsFirst root.registry (base.Declares root.frames) above x →
      Reports root.registry (base.Declares root.frames) above site
        (.error e : Except CompileError (Node × Store)) := fun he hlate hfirst => by
    rw [he, hposition]
    exact Definition.reports_of_own hfirst fun h => absurd h hlate
  rcases node_eq_error_iff.1 herror with henter | ⟨kind, info, entered, henter, hrest⟩
  · obtain ⟨x, he, hlate, hfirst⟩ := hunder.enter_error hroot henter
    exact hearly he hlate hfirst
  have hclear := hunder.enter_clear hroot henter
  have hkind := (Context.enter_eq_ok_iff.1 henter).1
  rcases hrest with ⟨rfl, hleaf⟩ | ⟨hne, ⟨x, hx, he⟩ | ⟨⟨cs, hfield⟩, hcs, hrest⟩⟩
  · have hname := hunder.conventionName_eq hplain henter
    obtain ⟨x, he, hlate, hfirst⟩ :=
      Context.leaf_error hunder.registry hkind hname hclear hleaf
    exact hearly he hlate hfirst
  · have hfinds : site.definition.Finds root.registry (base.Declares root.frames) above 8 9
        (site.definition.findChildren kind) := Definition.finds_findChildren hkind hne
    have hrank := hfinds.rank_le hx
    exact hearly he (by unfold Defect.IsLate; omega)
      (hfinds.first hx (hclear.of_composite hkind hne))
  obtain ⟨rfl, hclear⟩ := clear_of_findChildren hkind hne hclear hcs
  rcases hrest with hnodes | ⟨trees, store', hnodes, hcomposite⟩
  · obtain ⟨i, c, later, hc, hlater, hchild, hleft⟩ := exists_error_of_nodes hnodes
    simp only [Nat.zero_add] at hchild hleft
    have hreports := h henter hc hlater
    rw [hchild] at hreports
    refine Definition.reports_of_child hc hreports (fun j hj c hc => ?_) hclear
    obtain ⟨before, result, hbefore, hok⟩ := hleft j hj c hc
    have hclean := h henter hc hbefore
    rw [hok] at hclean
    exact hclean
  · obtain ⟨x, rfl, hfirst⟩ := Context.composite_error hkind (length_of_nodes hnodes) hclear hne
      hcomposite
    rw [hposition]
    exact Definition.reports_of_own hfirst fun _ => clean_of_nodes (h henter) hnodes

theorem node_reports_of_children (hposition : context.indices = site.position)
    (h : ∀ i c, site.definition.listed[i]? = some c → ∀ inner later,
      Context.Under inner root base (site :: above) later → inner.indices = site.position ++ [i] →
      Reports root.registry (base.Declares root.frames) (site :: above) (site.child i c)
        (node inner (.ofChild c) later)) :
    Reports root.registry (base.Declares root.frames) above site
      (node context site.definition store) := by
  have hchild : ∀ {kind info entered},
      context.enter site.definition store = .ok (kind, info, entered) →
      ∀ {i c later}, site.definition.listed[i]? = some c → entered.Extends later →
      Reports root.registry (base.Declares root.frames) (site :: above) (site.child i c)
        (node (context.child info i) (.ofChild c) later) := fun henter _ _ _ hc hlater =>
    h _ _ hc _ _ (hunder.child_of_enter henter _ hlater) (by rw [Context.child, hposition])
  cases hnode : node context site.definition store with
  | ok result => exact node_clean_of_children hroot hplain hunder hchild hnode
  | error e => exact node_first_of_children hroot hplain hunder hposition hchild hnode

end Reports

theorem node_reports {root : Context} {base : Store}
    (hroot : ∀ id ∈ root.frames, id < base.frames.size) (hplain : root.inherited = .plain)
    (site : Site) {context : Context} {above : List Site} {store : Store}
    (hunder : context.Under root base above store) (hposition : context.indices = site.position) :
    Reports root.registry (base.Declares root.frames) above site
      (node context site.definition store) := by
  refine node_reports_of_children hroot hplain hunder hposition
    fun i c hc inner later hinner hindices => ?_
  cases c with
  | path path =>
    -- the leaf that a path stands for is no smaller than its parent, so it is not left to induction
    refine node_reports_of_children hroot hplain hinner hindices fun i c hc => ?_
    have hleaf : (site.child i (.path path)).definition.listed = [] :=
      (Definition.ofPath_hasKind path).listed_eq_nil
    cases hleaf ▸ hc
  | node e => exact node_reports hroot hplain (site.child i (.node e)) hinner hindices
termination_by sizeOf site.definition
decreasing_by exact Definition.sizeOf_lt_of_mem_listed (List.mem_of_getElem? hc)

end Compile

/-- Whether the node at a position has a defect. -/
def Definition.DefectAt (registry : Registry) (declared : String → Prop) (d : Definition)
    (position : List Nat) (x : Defect) : Prop :=
  ∃ site above, d.route position = some (site :: above)
    ∧ site.definition.HasDefect registry declared above x

/-- A definition compiles if no node has a defect, and else the first defect is reported, at the
place of its node. The place is written as the way from the root, with the title of the node if it
has one, and no two nodes have their places written alike. -/
theorem compile_reports_first_defect (registry : Registry) (globals : Option Scope)
    (d : Definition) (store : Store)
    (hglobals : ∀ scope ∈ globals, ∀ id ∈ scope.frames, id < store.frames.size) :
    let defects := d.DefectAt registry (store.Declares (globals.elim [] Scope.frames))
    ((∃ result, compile registry globals d store = .ok result) ↔ ∀ position x, ¬defects position x)
      ∧ (∀ e, compile registry globals d store = .error e ↔ ∃ site above,
        d.route e.place.indices = some (site :: above) ∧ e.place.title = site.definition.title
          ∧ IsFirst defects e.place.indices e.defect)
      ∧ (∀ place : Place, place.text
        = "root" ++ String.join (place.indices.map fun i => "/" ++ toString i)
          ++ place.title.elim "" fun title => " (" ++ title ++ ")")
      ∧ ∀ p q site above site' above', d.route p = some (site :: above) →
        d.route q = some (site' :: above') →
        Place.text ⟨p, site.definition.title⟩ = Place.text ⟨q, site'.definition.title⟩ → p = q := by
  intro defects
  have hroot : ∀ id ∈ globals.elim [] Scope.frames, id < store.frames.size := by
    cases globals with
    | none => simp
    | some scope => exact hglobals scope rfl
  let root : Compile.Context := { registry, parent := globals }
  have hreports := @Compile.node_reports root store hroot rfl ⟨[], d⟩ _ _ _ (.start root store) rfl
  have hok : ∀ {result}, compile registry globals d store = .ok result →
      ∀ position x, ¬defects position x := fun h => by
    unfold compile at h
    rw [h] at hreports
    exact hreports
  have herror : ∀ {e}, compile registry globals d store = .error e → ∃ site above,
      d.route e.place.indices = some (site :: above) ∧ e.place.title = site.definition.title
        ∧ IsFirst defects e.place.indices e.defect := fun {e} h => by
    unfold compile at h
    rw [h] at hreports
    obtain ⟨position, site, above, hroute, hplace, hfirst⟩ := hreports
    rw [hplace, Definition.position_of_route hroute]
    exact ⟨site, above, hroute, rfl, hfirst⟩
  refine ⟨⟨fun ⟨_, h⟩ => hok h, fun hclean => ?_⟩, fun e => ⟨herror, ?_⟩, Place.text_eq,
    fun p q site above site' above' _ _ htext => Place.indices_eq_of_text_eq htext⟩
  · cases h : compile registry globals d store with
    | ok result => exact ⟨result, rfl⟩
    | error e =>
      obtain ⟨_, _, -, -, hfirst⟩ := herror h
      exact absurd hfirst.met (hclean _ _)
  · rintro ⟨site, above, hroute, htitle, hfirst⟩
    cases h : compile registry globals d store with
    | ok result => exact absurd hfirst.met (hok h _ _)
    | error other =>
      obtain ⟨site', above', hroute', htitle', hfirst'⟩ := herror h
      obtain ⟨hindices, hdefect⟩ := hfirst.unique hfirst'
      rw [← hindices, hroute] at hroute'
      cases hroute'
      obtain ⟨⟨indices, title⟩, defect⟩ := e
      obtain ⟨⟨indices', title'⟩, defect'⟩ := other
      cases hindices
      cases hdefect
      cases htitle.trans htitle'.symm
      rfl

/-- An inverter with too many children, the second of which declares a variable of the globals,
and a leaf below the first that calls no action: the leaf is reported. -/
theorem compile_reports_first_defect_of_leaf :
    let registry := Registry.ofList [("noop", default)]
    let store : Store := ⟨#[Table.ofList [("x", .null)]]⟩
    let leaf : Definition := { Definition.ofPath "nope" with title := some "leaf" }
    let choice : Definition :=
      { Definition.ofChildren .sel [.path "noop", .node leaf] with title := some "choice" }
    let d := Definition.ofChildren .invert
      [.node choice, .node ((Definition.ofPath "noop").declare "x" .null)]
    (∀ scope ∈ some ({ frame := 0 } : Scope), ∀ id ∈ scope.frames, id < store.frames.size)
      ∧ IsFirst (d.DefectAt registry (store.Declares [0])) [0, 1] (.unresolvedAction "nope")
      ∧ Place.text ⟨[0, 1], leaf.title⟩ = "root/0/1 (leaf)" := by
  intro registry store leaf choice d
  have hglobals : ∀ scope ∈ some ({ frame := 0 } : Scope), ∀ id ∈ scope.frames,
      id < store.frames.size := by
    decide
  have herror : compile registry (some { frame := 0 }) d store
      = .error ⟨⟨[0, 1], some "leaf"⟩, .unresolvedAction "nope"⟩ := by
    show compile (Registry.empty.insert (Path.ofString "noop") default) _ d
      ⟨#[Table.empty.insert "x" .null]⟩ = _
    cbv
  have h := compile_reports_first_defect registry (some { frame := 0 }) d store hglobals
  obtain ⟨-, -, -, -, hfirst⟩ := (h.2.1 _).1 herror
  refine ⟨hglobals, hfirst, ?_⟩
  decide

end BehaviorTree
