import BehaviorTree.Proofs.WellFormed

/-!
# What is wrong with a node

`Definition.HasDefect` says of every defect what it is for a node to have it, whatever else is
wrong there. Every check of the compiler fails for the defects of its own ranks and for no others
(`finds_findKind` and the lemmas after it), so before the children of a node it comes to
the defect of the least rank (`Context.enter_error`, `Context.leaf_error`), and so it does after
them (`Context.composite_error`).
-/

namespace BehaviorTree

namespace Defect

/-- The turn of a defect among the ones that its node may have. -/
def rank : Defect → Nat
  | unknownKind _ => 0
  | ambiguousKind _ => 1
  | missingKind => 2
  | invalidConvention _ => 3
  | shadowedVariable _ => 4
  | missingAction => 5
  | unresolvedAction _ => 6
  | notCallable _ => 6
  | conventionMismatch _ _ _ => 7
  | conflictingChildren _ => 8
  | missingChildren _ => 9
  | decoratorArity _ _ => 10
  | invalidThreshold field => if field = "maxSuccess" then 11 else 12

theorem rank_invalidThreshold (field : String) :
    11 ≤ (invalidThreshold field).rank ∧ (invalidThreshold field).rank ≤ 12 := by
  simp only [rank]
  split <;> omega

/-- Whether the turn of a defect comes after the children of its node. -/
def IsLate (x : Defect) : Prop :=
  10 ≤ x.rank

instance (x : Defect) : Decidable x.IsLate :=
  inferInstanceAs (Decidable (_ ≤ _))

end Defect

namespace Definition

/-- The convention that is in force at a node, by name. -/
def conventionName (above : List Site) (d : Definition) : String :=
  (d.actionType.or (above.findSome? (·.definition.actionType))).getD "plain"

/-- A name that a node declares although a node above it or the globals declare it. -/
def Shadows (declared : String → Prop) (above : List Site) (d : Definition) (name : String) :
    Prop :=
  name ∈ d.declared.names
    ∧ ((∃ site ∈ above, name ∈ site.definition.declared.names) ∨ declared name)

/-- Whether a node has a defect, under the nodes above it, the innermost first. -/
def HasDefect (registry : Registry) (declared : String → Prop) (above : List Site)
    (d : Definition) : Defect → Prop
  | .unknownKind tag => d.kind = some tag ∧ ∀ kind : NodeKind, tag ≠ kind.name
  | .ambiguousKind candidates =>
    2 ≤ candidates.length ∧ match d.kind with
      | some tag => ∃ kind : NodeKind, tag = kind.name
        ∧ candidates = kind :: d.keys.filter (· ≠ kind)
      | none => candidates = d.keys
  | .missingKind => d.kind = none ∧ d.keys = []
  | .invalidConvention name =>
    d.actionType = some name ∧ ∀ convention : Convention, name ≠ convention.name
  | .shadowedVariable name =>
    d.Shadows declared above name ∧ ∀ other, d.Shadows declared above other → name ≤ other
  | .missingAction => d.HasKind .action ∧ d.action = none
  | .unresolvedAction path =>
    d.HasKind .action ∧ d.action = some (.path path)
      ∧ registry.resolve (Path.ofString path) = .error .missing
  | .notCallable path =>
    d.HasKind .action ∧ d.action = some (.path path)
      ∧ registry.resolve (Path.ofString path) = .error .isGroup
  | .conventionMismatch path inForce registered =>
    d.HasKind .action ∧ inForce.name = d.conventionName above ∧ registered ≠ inForce
      ∧ ∃ action, action.convention = registered ∧ match path with
        | some path => d.action = some (.path path)
          ∧ registry.resolve (Path.ofString path) = .ok action
        | none => d.action = some (.inline action)
  | .conflictingChildren kind =>
    d.HasKind kind ∧ (d.kindChildren kind).isSome ∧ d.nodes.isSome
  | .missingChildren kind =>
    d.HasKind kind ∧ kind ≠ .action ∧ d.kindChildren kind = none ∧ d.nodes = none
  | .decoratorArity kind count =>
    d.HasKind kind ∧ kind.isDecorator ∧ count = d.listed.length ∧ count ≠ 1
  | .invalidThreshold field =>
    d.HasKind .parallel ∧ (field = "maxSuccess" ∧ d.maxSuccess = some (.count 0)
      ∨ field = "maxFail" ∧ d.maxFail = some (.count 0))

/-- A node has no defect of a rank below this one. -/
def Clear (registry : Registry) (declared : String → Prop) (above : List Site) (d : Definition)
    (rank : Nat) : Prop :=
  ∀ x, d.HasDefect registry declared above x → rank ≤ x.rank

/-- A check fails for the defects of a node from one rank to another. -/
def Finds {α : Type} (registry : Registry) (declared : String → Prop) (above : List Site)
    (d : Definition) (low high : Nat) (check : Except Defect α) : Prop :=
  ∀ x, check = .error x
    ↔ low ≤ x.rank ∧ x.rank ≤ high ∧ d.HasDefect registry declared above x

/-- Of the defects of a node, this is the one whose turn comes first. -/
structure MeetsFirst (registry : Registry) (declared : String → Prop) (above : List Site)
    (d : Definition) (x : Defect) : Prop where
  has : d.HasDefect registry declared above x
  first : ∀ y, d.HasDefect registry declared above y → y = x ∨ x.rank < y.rank

section Checks

variable {registry : Registry} {declared : String → Prop} {above : List Site} {d : Definition}
  {x : Defect}

theorem clear_zero : d.Clear registry declared above 0 :=
  fun x _ => x.rank.zero_le

variable {α : Type} {low high : Nat} {check : Except Defect α}

theorem Finds.clear (h : d.Finds registry declared above low high check) {a : α}
    (hok : check = .ok a) (hclear : d.Clear registry declared above low) :
    d.Clear registry declared above (high + 1) := by
  intro y hy
  by_contra hle
  have := (h y).2 ⟨hclear y hy, by omega, hy⟩
  rw [hok] at this
  cases this

theorem Finds.rank_le (h : d.Finds registry declared above low high check)
    (hx : check = .error x) : x.rank ≤ high :=
  ((h x).1 hx).2.1

theorem Finds.first (h : d.Finds registry declared above low high check)
    (hx : check = .error x) (hclear : d.Clear registry declared above low) :
    d.MeetsFirst registry declared above x := by
  obtain ⟨-, hhigh, hhas⟩ := (h x).1 hx
  refine ⟨hhas, fun y hy => ?_⟩
  by_cases hle : y.rank ≤ high
  · have := (h y).2 ⟨hclear y hy, hle, hy⟩
    rw [hx] at this
    exact .inl (Except.error.inj this).symm
  · exact .inr (by omega)

/-- The defects that are looked for first are those of the kind. -/
theorem rank_le_two_iff :
    x.rank ≤ 2 ↔
      (∃ tag, x = .unknownKind tag) ∨ (∃ kinds, x = .ambiguousKind kinds) ∨ x = .missingKind := by
  cases x <;> simp [Defect.rank]
  split <;> simp

theorem hasDefect_of_findKind (h : d.findKind = .error x) :
    x.rank ≤ 2 ∧ d.HasDefect registry declared above x := by
  rw [rank_le_two_iff]
  unfold findKind at h
  split at h
  · rename_i tag htag
    split at h
    · rename_i hname
      cases h
      refine ⟨.inl ⟨tag, rfl⟩, htag, fun kind hkind => ?_⟩
      rw [NodeKind.ofName?_eq_some_iff.2 hkind] at hname
      cases hname
    · rename_i kind hname
      simp only [] at h
      split at h
      · cases h
      · rename_i hothers
        cases h
        refine ⟨.inr (.inl ⟨_, rfl⟩), ?_⟩
        simp only [HasDefect, htag]
        rw [List.isEmpty_iff_length_eq_zero] at hothers
        exact ⟨by rw [List.length_cons]; omega, kind, NodeKind.ofName?_eq_some_iff.1 hname, rfl⟩
  · rename_i htag
    split at h
    · rename_i hkeys
      cases h
      exact ⟨.inr (.inr rfl), htag, hkeys⟩
    · cases h
    · rename_i hnil hone
      cases h
      refine ⟨.inr (.inl ⟨_, rfl⟩), ?_⟩
      simp only [HasDefect, htag, and_true]
      rcases hkeys : d.keys with _ | ⟨kind, _ | ⟨other, rest⟩⟩
      · exact absurd hkeys hnil
      · exact absurd hkeys (hone kind)
      · simp

theorem findKind_of_hasDefect (hrank : x.rank ≤ 2)
    (h : d.HasDefect registry declared above x) : d.findKind = .error x := by
  unfold findKind
  rcases rank_le_two_iff.1 hrank with ⟨tag, rfl⟩ | ⟨kinds, rfl⟩ | rfl
  · obtain ⟨htag, hne⟩ := h
    have hname : NodeKind.ofName? tag = none := by
      cases hname : NodeKind.ofName? tag with
      | none => rfl
      | some kind => exact absurd (NodeKind.ofName?_eq_some_iff.1 hname) (hne kind)
    simp only [htag, hname]
  · obtain ⟨htwo, h⟩ := h
    cases htag : d.kind with
    | some tag =>
      simp only [htag] at h ⊢
      obtain ⟨kind, rfl, rfl⟩ := h
      have hothers : ¬(d.keys.filter (· ≠ kind)).isEmpty := by
        rw [List.length_cons] at htwo
        rw [List.isEmpty_iff_length_eq_zero]
        omega
      simp only [NodeKind.ofName?_name]
      rw [if_neg hothers]
    | none =>
      simp only [htag] at h ⊢
      subst h
      split
      · rename_i hkeys
        simp [hkeys] at htwo
      · rename_i kind hkeys
        simp [hkeys] at htwo
      · rfl
  · simp only [h.1, h.2]

theorem finds_findKind (registry : Registry) (declared : String → Prop) (above : List Site)
    (d : Definition) : d.Finds registry declared above 0 2 d.findKind :=
  fun x => ⟨fun h => ⟨x.rank.zero_le, hasDefect_of_findKind h⟩,
    fun ⟨_, hrank, h⟩ => findKind_of_hasDefect hrank h⟩

theorem finds_findConvention (registry : Registry) (declared : String → Prop) (above : List Site)
    (d : Definition) (inherited : Convention) :
    d.Finds registry declared above 3 3 (d.findConvention inherited) := by
  intro x
  have hrank : 3 ≤ x.rank ∧ x.rank ≤ 3 ↔ ∃ name, x = .invalidConvention name := by
    cases x <;> simp [Defect.rank]
    split <;> simp
  have hnone : ∀ {name}, Convention.ofName? name = none
      ↔ ∀ convention : Convention, name ≠ convention.name := fun {name} => by
    simp only [Option.eq_none_iff_forall_ne_some, Ne, Convention.ofName?_eq_some_iff]
  rw [← and_assoc, hrank]
  unfold findConvention
  constructor
  · intro h
    split at h
    · cases h
    · rename_i name hname
      split at h
      · cases h
      · rename_i hfound
        cases h
        exact ⟨⟨name, rfl⟩, hname, hnone.1 hfound⟩
  · rintro ⟨⟨name, rfl⟩, hname, hne⟩
    simp only [hname, hnone.2 hne]

theorem hasDefect_of_findAction {convention : Convention} (hleaf : d.HasKind .action)
    (hconvention : convention.name = d.conventionName above)
    (h : d.findAction registry convention = .error x) :
    5 ≤ x.rank ∧ x.rank ≤ 7 ∧ d.HasDefect registry declared above x := by
  unfold findAction at h
  simp only [bind, Except.bind] at h
  rcases haction : d.action with _ | ⟨path⟩ | ⟨inline⟩ <;> simp only [haction] at h
  · cases h
    exact ⟨by decide, by decide, hleaf, haction⟩
  · rcases hfound : registry.resolve (Path.ofString path) with (_ | _) | found <;>
      simp only [hfound] at h
    · cases h
      exact ⟨Nat.le_succ 5, Nat.le_succ 6, hleaf, haction, hfound⟩
    · cases h
      exact ⟨Nat.le_succ 5, Nat.le_succ 6, hleaf, haction, hfound⟩
    · split at h
      · cases h
      · rename_i hne
        cases h
        exact ⟨Nat.le_add_right 5 2, Nat.le_refl 7, hleaf, hconvention, hne, found, rfl, haction,
          hfound⟩
  · split at h
    · cases h
    · rename_i hne
      cases h
      exact ⟨Nat.le_add_right 5 2, Nat.le_refl 7, hleaf, hconvention, hne, inline, rfl, haction⟩

theorem findAction_of_hasDefect {convention : Convention}
    (hconvention : convention.name = d.conventionName above) (hlow : 5 ≤ x.rank)
    (hhigh : x.rank ≤ 7) (h : d.HasDefect registry declared above x) :
    d.findAction registry convention = .error x := by
  unfold findAction
  simp only [bind, Except.bind]
  cases x with
  | missingAction => simp only [h.2]
  | unresolvedAction path | notCallable path => simp only [h.2.1, h.2.2]
  | conventionMismatch path inForce registered =>
    obtain ⟨-, hinForce, hne, action, rfl, haction⟩ := h
    obtain rfl : inForce = convention := by
      rw [← Option.some.injEq, ← Convention.ofName?_name inForce,
        ← Convention.ofName?_name convention, hinForce, hconvention]
    cases path with
    | some path =>
      simp only [haction.1, haction.2]
      rw [if_neg hne]
    | none =>
      simp only [haction]
      rw [if_neg hne]
  | invalidThreshold field =>
    have := Defect.rank_invalidThreshold field
    omega
  | _ => simp [Defect.rank] at hlow hhigh

theorem finds_findAction (registry : Registry) (declared : String → Prop)
    {convention : Convention} (hleaf : d.HasKind .action)
    (hconvention : convention.name = d.conventionName above) :
    d.Finds registry declared above 5 7 (d.findAction registry convention) :=
  fun _ => ⟨hasDefect_of_findAction hleaf hconvention,
    fun ⟨hlow, hhigh, h⟩ => findAction_of_hasDefect hconvention hlow hhigh h⟩

theorem finds_findChildren {kind : NodeKind} (hkind : d.HasKind kind)
    (hcomposite : kind ≠ .action) :
    d.Finds registry declared above 8 9 (d.findChildren kind) := by
  intro x
  have hrank : 8 ≤ x.rank ∧ x.rank ≤ 9 ↔
      (∃ kind, x = .conflictingChildren kind) ∨ ∃ kind, x = .missingChildren kind := by
    cases x <;> simp [Defect.rank]
    split <;> simp
  rw [← and_assoc, hrank]
  unfold findChildren
  constructor
  · intro h
    split at h
    · rename_i hk hn
      cases h
      exact ⟨.inl ⟨kind, rfl⟩, hkind, by rw [hk]; rfl, by rw [hn]; rfl⟩
    · cases h
    · cases h
    · rename_i hk hn
      cases h
      exact ⟨.inr ⟨kind, rfl⟩, hkind, hcomposite, hk, hn⟩
  · rintro ⟨⟨other, rfl⟩ | ⟨other, rfl⟩, hother, h⟩ <;> obtain rfl := hkind.unique hother
    · split <;> simp_all
    · split <;> simp_all

/-- What is left at a leaf that has an action is nothing. -/
theorem Clear.of_leaf (h : d.Clear registry declared above 8) (hleaf : d.HasKind .action) :
    ¬d.HasDefect registry declared above x := by
  intro hx
  have hrank := h x hx
  cases x with
  | conflictingChildren kind =>
    obtain rfl := hx.1.unique hleaf
    cases hx.2.1
  | missingChildren kind => exact hx.2.1 (hx.1.unique hleaf)
  | decoratorArity kind count =>
    obtain rfl := hx.1.unique hleaf
    cases hx.2.1
  | invalidThreshold field => cases hx.1.unique hleaf
  | _ => simp [Defect.rank] at hrank

theorem Clear.of_composite {kind : NodeKind} (h : d.Clear registry declared above 5)
    (hkind : d.HasKind kind) (hcomposite : kind ≠ .action) :
    d.Clear registry declared above 8 := by
  intro x hx
  have hrank := h x hx
  have hleaf : ¬d.HasKind .action := fun hleaf => hcomposite (hkind.unique hleaf)
  cases x with
  | missingAction | unresolvedAction | notCallable | conventionMismatch => exact absurd hx.1 hleaf
  | conflictingChildren | missingChildren | decoratorArity => simp [Defect.rank]
  | invalidThreshold field =>
    have := Defect.rank_invalidThreshold field
    omega
  | _ => simp [Defect.rank] at hrank

theorem threshold_eq_error_iff (name : String) {threshold? : Option Threshold} :
    threshold name threshold? = .error x
      ↔ x = .invalidThreshold name ∧ threshold? = some (.count 0) := by
  unfold threshold
  split <;> simp_all [eq_comm]

/-- Of the thresholds of a parallel node, the one for successes is looked at first. -/
theorem finds_maxSuccess (registry : Registry) (declared : String → Prop) (above : List Site)
    (hkind : d.HasKind .parallel) :
    d.Finds registry declared above 10 11 (threshold "maxSuccess" d.maxSuccess) := by
  intro x
  rw [threshold_eq_error_iff]
  constructor
  · rintro ⟨rfl, h⟩
    exact ⟨by decide, by decide, hkind, .inl ⟨rfl, h⟩⟩
  · rintro ⟨hlow, hhigh, hx⟩
    cases x with
    | decoratorArity kind count =>
      obtain rfl := hkind.unique hx.1
      cases hx.2.1
    | invalidThreshold field =>
      obtain ⟨-, ⟨rfl, h⟩ | ⟨rfl, h⟩⟩ := hx
      · exact ⟨rfl, h⟩
      · simp [Defect.rank] at hhigh
    | _ => simp [Defect.rank] at hlow

theorem finds_maxFail (registry : Registry) (declared : String → Prop) (above : List Site)
    (hkind : d.HasKind .parallel) :
    d.Finds registry declared above 12 12 (threshold "maxFail" d.maxFail) := by
  intro x
  rw [threshold_eq_error_iff]
  constructor
  · rintro ⟨rfl, h⟩
    exact ⟨by decide, by decide, hkind, .inr ⟨rfl, h⟩⟩
  · rintro ⟨hlow, hhigh, hx⟩
    cases x with
    | invalidThreshold field =>
      obtain ⟨-, ⟨rfl, h⟩ | ⟨rfl, h⟩⟩ := hx
      · simp [Defect.rank] at hlow
      · exact ⟨rfl, h⟩
    | _ => simp [Defect.rank] at hlow

theorem Clear.of_all (h : d.Clear registry declared above 13) :
    ¬d.HasDefect registry declared above x := by
  intro hx
  have hrank := h x hx
  cases x with
  | invalidThreshold field =>
    have := Defect.rank_invalidThreshold field
    omega
  | _ => simp [Defect.rank] at hrank

/-- The number of children of a decorator is checked, and nothing after it. -/
theorem finds_arity (registry : Registry) (declared : String → Prop) (above : List Site)
    {kind : NodeKind} (hkind : d.HasKind kind) (hdecorator : kind.isDecorator) :
    d.Finds registry declared above 10 12 (if d.listed.length = 1 then .ok ()
      else .error (.decoratorArity kind d.listed.length)) := by
  intro x
  constructor
  · intro h
    split at h
    · cases h
    · rename_i hne
      cases h
      exact ⟨by simp [Defect.rank], by simp [Defect.rank], hkind, hdecorator, rfl, hne⟩
  · rintro ⟨hlow, -, hx⟩
    cases x with
    | decoratorArity other count =>
      obtain ⟨hother, -, rfl, hne⟩ := hx
      obtain rfl := hkind.unique hother
      rw [if_neg hne]
    | invalidThreshold field =>
      obtain rfl := hkind.unique hx.1
      cases hdecorator
    | _ => simp [Defect.rank] at hlow

/-- After the kind, the convention, the scope and the lists of children nothing is asked of a
sequence or a selector. -/
theorem Clear.of_chain {kind : NodeKind} (h : d.Clear registry declared above 10)
    (hkind : d.HasKind kind) (hchain : kind = .sequence ∨ kind = .selector) :
    ¬d.HasDefect registry declared above x := by
  intro hx
  have hrank := h x hx
  cases x with
  | decoratorArity other count =>
    obtain rfl := hkind.unique hx.1
    rcases hchain with rfl | rfl <;> cases hx.2.1
  | invalidThreshold field =>
    obtain rfl := hkind.unique hx.1
    rcases hchain with h | h <;> cases h
  | _ => simp [Defect.rank] at hrank

end Checks

end Definition

namespace Compile

variable {context root : Context} {base store : Store} {above : List Site} {d : Definition}

theorem shadowed?_eq_some_iff {name : String} :
    d.shadowed? store context.parent = some name
      ↔ (name ∈ d.declared.names ∧ store.Declares context.frames name)
        ∧ ∀ other ∈ d.declared.names, store.Declares context.frames other → name ≤ other := by
  unfold Definition.shadowed? Context.frames Store.Declares
  cases context.parent with
  | none => simp
  | some scope =>
    have hleast := @Table.find?_eq_some_iff_least (store.defines scope) name
    simp only [Option.bind_some, Option.elim_some, hleast d.declared.pairwise_names,
      Store.defines, Store.owner?, List.find?_isSome, Table.contains_iff]

namespace Context

/-- The check for variables that are declared further out already. -/
def unshadowed (context : Context) (d : Definition) (store : Store) : Except Defect Unit :=
  match d.shadowed? store context.parent with
  | some name => .error (.shadowedVariable name)
  | none => .ok ()

theorem Under.finds_unshadowed (h : context.Under root base above store)
    (hroot : ∀ id ∈ root.frames, id < base.frames.size) :
    d.Finds root.registry (base.Declares root.frames) above 4 4 (context.unshadowed d store) := by
  have hshadows : ∀ name, (name ∈ d.declared.names ∧ store.Declares context.frames name)
      ↔ d.Shadows (base.Declares root.frames) above name := fun name => by
    rw [h.declares_iff hroot]
    rfl
  have hsome : ∀ name, d.shadowed? store context.parent = some name
      ↔ d.HasDefect root.registry (base.Declares root.frames) above (.shadowedVariable name) :=
    fun name => by
      rw [shadowed?_eq_some_iff, hshadows]
      simp only [← and_imp, hshadows]
      rfl
  intro x
  unfold unshadowed
  constructor
  · intro hx
    split at hx
    · rename_i name hname
      cases hx
      exact ⟨Nat.le_refl 4, Nat.le_refl 4, (hsome name).1 hname⟩
    · cases hx
  · rintro ⟨hlow, hhigh, hx⟩
    cases x with
    | shadowedVariable name => rw [(hsome name).2 hx]
    | invalidThreshold field =>
      have := Defect.rank_invalidThreshold field
      omega
    | _ => simp [Defect.rank] at hlow hhigh

theorem Under.conventionName_eq (h : context.Under root base above store)
    (hplain : root.inherited = .plain) {kind : NodeKind} {info : NodeInfo} {store' : Store}
    (hok : context.enter d store = .ok (kind, info, store')) :
    info.convention.name = d.conventionName above := by
  obtain ⟨-, -, ⟨convention, hconvention, rfl⟩, -⟩ := enter_eq_ok_iff.1 hok
  show convention.name = _
  rw [← Definition.findConvention_eq_ok_iff.1 hconvention, h.inherited, hplain]
  unfold Definition.conventionName
  cases d.actionType <;> rfl

theorem enter_eq_error_iff {e : CompileError} :
    context.enter d store = .error e ↔ ∃ x, e = ⟨⟨context.indices, d.title⟩, x⟩
      ∧ (d.findKind = .error x ∨ (∃ kind, d.findKind = .ok kind)
        ∧ (d.findConvention context.inherited = .error x
          ∨ (∃ convention, d.findConvention context.inherited = .ok convention)
            ∧ context.unshadowed d store = .error x)) := by
  simp only [enter, bind_eq_error_iff, locate_eq_error_iff, locate_eq_ok_iff, unshadowed]
  cases hkind : d.findKind <;> cases hconvention : d.findConvention context.inherited <;>
    cases hshadowed : d.shadowed? store context.parent <;> simp [locate, eq_comm, pure, Except.pure]

section Under

variable {e : CompileError} {info : NodeInfo} {kind : NodeKind}
  (h : context.Under root base above store)
  (hroot : ∀ id ∈ root.frames, id < base.frames.size)

include h hroot

theorem Under.enter_error (he : context.enter d store = .error e) :
    ∃ x, e = ⟨⟨context.indices, d.title⟩, x⟩ ∧ ¬x.IsLate
      ∧ d.MeetsFirst root.registry (base.Declares root.frames) above x := by
  obtain ⟨x, rfl, hx⟩ := enter_eq_error_iff.1 he
  have hkinds := d.finds_findKind root.registry (base.Declares root.frames) above
  have hconventions :=
    d.finds_findConvention root.registry (base.Declares root.frames) above context.inherited
  have hnames := h.finds_unshadowed (d := d) hroot
  unfold Defect.IsLate
  rcases hx with hx | ⟨⟨kind, hkind⟩, hx | ⟨⟨convention, hconvention⟩, hx⟩⟩
  · have := hkinds.rank_le hx
    exact ⟨x, rfl, by omega, hkinds.first hx Definition.clear_zero⟩
  · have := hconventions.rank_le hx
    exact ⟨x, rfl, by omega, hconventions.first hx (hkinds.clear hkind Definition.clear_zero)⟩
  · have := hnames.rank_le hx
    exact ⟨x, rfl, by omega, hnames.first hx
      (hconventions.clear hconvention (hkinds.clear hkind Definition.clear_zero))⟩

theorem Under.enter_clear {store' : Store}
    (hok : context.enter d store = .ok (kind, info, store')) :
    d.Clear root.registry (base.Declares root.frames) above 5 := by
  obtain ⟨hkind, hfresh, ⟨convention, hconvention, -⟩, -⟩ := enter_eq_ok_iff.1 hok
  have hunshadowed : context.unshadowed d store = .ok () := by
    unfold unshadowed
    rw [hfresh]
  exact (h.finds_unshadowed hroot).clear hunshadowed
    ((d.finds_findConvention _ _ _ context.inherited).clear hconvention
      ((d.finds_findKind _ _ _).clear (Definition.findKind_eq_ok_iff.2 hkind)
        Definition.clear_zero))

end Under

section Leaf

variable {registry : Registry} {declared : String → Prop} {info : NodeInfo} {e : CompileError}
  (hregistry : context.registry = registry) (hleaf : d.HasKind .action)
  (hinfo : info.convention.name = d.conventionName above)
  (hclear : d.Clear registry declared above 5)

include hregistry hleaf hinfo hclear

theorem leaf_error (he : context.leaf d info = .error e) :
    ∃ x, e = ⟨⟨context.indices, d.title⟩, x⟩ ∧ ¬x.IsLate
      ∧ d.MeetsFirst registry declared above x := by
  have hfinds := Definition.finds_findAction registry declared hleaf hinfo
  simp only [leaf, bind_eq_error_iff, locate_eq_error_iff, locate_eq_ok_iff, hregistry] at he
  obtain ⟨x, hx, rfl⟩ | ⟨found, -, h⟩ := he
  · have := hfinds.rank_le hx
    unfold Defect.IsLate
    exact ⟨x, rfl, by omega, hfinds.first hx hclear⟩
  · cases h

theorem leaf_clear {tree : Node} (hok : context.leaf d info = .ok tree) (x : Defect) :
    ¬d.HasDefect registry declared above x := by
  obtain ⟨path, action, hfound, -⟩ := leaf_eq_ok_iff.1 hok
  rw [hregistry] at hfound
  exact ((Definition.finds_findAction registry declared hleaf hinfo).clear hfound hclear).of_leaf
    hleaf

end Leaf

section Composite

variable {registry : Registry} {declared : String → Prop} {info : NodeInfo} {e : CompileError}
  {kind : NodeKind} {trees : List Node} (hkind : d.HasKind kind)
  (hlength : trees.length = d.listed.length) (hclear : d.Clear registry declared above 10)

include hkind hlength hclear

theorem composite_error (hne : kind ≠ .action)
    (he : context.composite d kind info trees = .error e) :
    ∃ x, e = ⟨⟨context.indices, d.title⟩, x⟩ ∧ d.MeetsFirst registry declared above x := by
  unfold composite at he
  cases kind with
  | action => exact absurd rfl hne
  | sequence | selector => cases he
  | parallel =>
    simp only [bind_eq_error_iff, locate_eq_error_iff] at he
    obtain ⟨x, hx, rfl⟩ | ⟨policy, -, he⟩ := he
    · refine ⟨x, rfl, ?_⟩
      have hsuccess := Definition.finds_maxSuccess registry declared above hkind
      simp only [Definition.policy, bind_eq_error_iff] at hx
      obtain hx | ⟨s, hs, hx | ⟨f, -, hx⟩⟩ := hx
      · exact hsuccess.first hx hclear
      · exact (Definition.finds_maxFail registry declared above hkind).first hx
          (hsuccess.clear hs hclear)
      · cases hx
    · cases he
  | invert | success | failure =>
    simp only [] at he
    split at he
    · cases he
    · rename_i hone
      have hcount : d.listed.length ≠ 1 := fun h => by
        obtain ⟨child, hchild⟩ := List.length_eq_one_iff.1 (hlength.trans h)
        exact hone child hchild
      obtain ⟨x, hx, rfl⟩ := locate_eq_error_iff.1 he
      obtain rfl := Except.error.inj hx
      rw [hlength]
      exact ⟨_, rfl, (Definition.finds_arity registry declared above hkind rfl).first
        (if_neg hcount) hclear⟩

theorem composite_clear (hne : kind ≠ .action) {tree : Node}
    (hok : context.composite d kind info trees = .ok tree) (x : Defect) :
    ¬d.HasDefect registry declared above x := by
  unfold composite at hok
  cases kind with
  | action => exact absurd rfl hne
  | sequence => exact hclear.of_chain hkind (.inl rfl)
  | selector => exact hclear.of_chain hkind (.inr rfl)
  | parallel =>
    simp only [bind_eq_ok_iff, locate_eq_ok_iff] at hok
    obtain ⟨policy, hpolicy, -⟩ := hok
    simp only [Definition.policy, bind_eq_ok_iff] at hpolicy
    obtain ⟨s, hs, f, hf, -⟩ := hpolicy
    exact ((Definition.finds_maxFail registry declared above hkind).clear hf
      ((Definition.finds_maxSuccess registry declared above hkind).clear hs hclear)).of_all
  | invert | success | failure =>
    simp only [] at hok
    split at hok
    · have hcount : d.listed.length = 1 := hlength.symm
      exact ((Definition.finds_arity registry declared above hkind rfl).clear (if_pos hcount)
        hclear).of_all
    · cases hok

end Composite

end Context

end Compile

end BehaviorTree
