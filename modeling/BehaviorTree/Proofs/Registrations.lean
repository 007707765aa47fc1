import BehaviorTree.Registry
import Mathlib.Data.List.Induction

/-!
# What a registry remembers

Of an insertion a registry remembers what it says about the paths that it can be compared with: its
own path leads to the action, the ones before it lead to groups, and nothing is left at the ones
beyond it (`Registry.resolve_insert`). Paths that lie aside lead where they led. So where a path
leads after any number of insertions is up to the last one whose path it can be compared with
(`Registry.resolve_insertAll`).
-/

namespace BehaviorTree

/-- Whether one of two paths is the beginning of the other, or both are the same. -/
def Path.Comparable (path other : Path) : Prop :=
  path.segments <+: other.segments ∨ other.segments <+: path.segments

instance : DecidableRel Path.Comparable :=
  fun path other => inferInstanceAs (Decidable (path.segments <+: other.segments ∨ _))

theorem Path.Comparable.refl (path : Path) : path.Comparable path :=
  .inl (List.prefix_refl _)

theorem Path.segments_injective {path other : Path} (h : path.segments = other.segments) :
    path = other := by
  obtain ⟨head, tail⟩ := path
  obtain ⟨rfl, rfl⟩ := List.cons.inj h
  rfl

namespace RegistryEntry

variable {name : String} {rest : List String}

theorem resolve_nil_entries : ∀ segments : List String,
    resolve segments [] = .error .missing
  | [] => rfl
  | [_] => rfl
  | _ :: _ :: _ => rfl

/-- Below its first segment a path leads where the rest of it does in the group that stands
there. -/
theorem resolve_cons (hrest : rest ≠ []) (entries : Entries RegistryEntry) :
    resolve (name :: rest) entries = resolve rest (entriesOf (entries.find? name)) := by
  obtain ⟨next, more, rfl⟩ := List.exists_cons_of_ne_nil hrest
  rw [resolve]
  · rcases entries.find? name with _ | _ | nested
    · exact (resolve_nil_entries _).symm
    · exact (resolve_nil_entries _).symm
    · rfl
  · exact nofun

theorem put_cons (hrest : rest ≠ []) (a : Action) (entries : Entries RegistryEntry) :
    put a (name :: rest) entries
      = entries.alter name fun old => .group (put a rest (entriesOf old)) := by
  rw [put]
  exact hrest

theorem resolve_put_self (a : Action) : ∀ {segments : List String}, segments ≠ [] →
    ∀ entries, resolve segments (put a segments entries) = .ok a
  | [name], _, entries => by
    rw [put, resolve, Entries.insert, Entries.find?_alter_self]
  | name :: next :: rest, _, entries => by
    have hrest : next :: rest ≠ [] := List.cons_ne_nil _ _
    rw [put_cons hrest, resolve_cons hrest, Entries.find?_alter_self]
    exact resolve_put_self a hrest _

/-- A path whose beginning is registered leads to a group. -/
theorem resolve_put_of_append (a : Action) {beyond : List String} (hbeyond : beyond ≠ []) :
    ∀ {segments : List String}, segments ≠ [] →
    ∀ entries, resolve segments (put a (segments ++ beyond) entries) = .error .isGroup
  | [name], _, entries => by
    rw [List.singleton_append, put_cons hbeyond, resolve, Entries.find?_alter_self]
  | name :: next :: rest, _, entries => by
    have hrest : next :: rest ≠ [] := List.cons_ne_nil _ _
    have happend : next :: rest ++ beyond ≠ [] := List.cons_ne_nil _ _
    rw [List.cons_append, put_cons happend, resolve_cons hrest, Entries.find?_alter_self]
    exact resolve_put_of_append a hbeyond hrest _

/-- Nothing is left beyond an action. -/
theorem resolve_append_put (a : Action) {beyond : List String} (hbeyond : beyond ≠ []) :
    ∀ {segments : List String}, segments ≠ [] →
    ∀ entries, resolve (segments ++ beyond) (put a segments entries) = .error .missing
  | [name], _, entries => by
    rw [List.singleton_append, resolve_cons hbeyond, put, Entries.insert, Entries.find?_alter_self]
    exact resolve_nil_entries beyond
  | name :: next :: rest, _, entries => by
    have hrest : next :: rest ≠ [] := List.cons_ne_nil _ _
    have happend : next :: rest ++ beyond ≠ [] := List.cons_ne_nil _ _
    rw [List.cons_append, put_cons hrest, resolve_cons happend, Entries.find?_alter_self]
    exact resolve_append_put a hbeyond hrest _

/-- A change under another name leaves a path where it was. -/
theorem resolve_alter_of_ne {other : String} (hne : name ≠ other)
    (f : Option RegistryEntry → RegistryEntry) (rest : List String)
    (entries : Entries RegistryEntry) :
    resolve (name :: rest) (entries.alter other f) = resolve (name :: rest) entries := by
  cases rest with
  | nil => rw [resolve, resolve, Entries.find?_alter_of_ne hne]
  | cons next more =>
    rw [resolve_cons (List.cons_ne_nil _ _), resolve_cons (List.cons_ne_nil _ _),
      Entries.find?_alter_of_ne hne]

theorem resolve_put_of_aside (a : Action) : ∀ {segments others : List String},
    ¬segments <+: others → ¬others <+: segments →
    ∀ entries, resolve segments (put a others entries) = resolve segments entries
  | [], others, h, _, _ => absurd List.nil_prefix h
  | segments, [], _, h, _ => absurd List.nil_prefix h
  | name :: rest, other :: more, h, h', entries => by
    by_cases hname : name = other
    · subst hname
      rw [List.prefix_cons_inj] at h h'
      have hrest : rest ≠ [] := fun heq => h (heq ▸ List.nil_prefix)
      have hmore : more ≠ [] := fun heq => h' (heq ▸ List.nil_prefix)
      rw [put_cons hmore, resolve_cons hrest, resolve_cons hrest, Entries.find?_alter_self]
      exact resolve_put_of_aside a h h' _
    · cases more with
      | nil => exact resolve_alter_of_ne hname _ rest entries
      | cons next more =>
        rw [put_cons (List.cons_ne_nil _ _)]
        exact resolve_alter_of_ne hname _ rest entries

end RegistryEntry

namespace Registry

/-- Where a path leads after an insertion: the insertion says so, unless its path lies aside. -/
theorem resolve_insert (registry : Registry) (inserted : Path) (a : Action) (path : Path) :
    (registry.insert inserted a).resolve path
      = if inserted = path then .ok a
        else if path.segments <+: inserted.segments then .error .isGroup
        else if inserted.segments <+: path.segments then .error .missing
        else registry.resolve path := by
  have hnil : ∀ path : Path, path.segments ≠ [] := fun path => List.cons_ne_nil _ _
  have hbeyond : ∀ {path other : Path} {beyond : List String}, other ≠ path →
      path.segments ++ beyond = other.segments → beyond ≠ [] := by
    rintro path other beyond hne hbeyond rfl
    exact hne (Path.segments_injective (by rw [← hbeyond, List.append_nil]))
  unfold resolve insert
  split
  · rename_i heq
    subst heq
    exact RegistryEntry.resolve_put_self a (hnil inserted) _
  · rename_i hne
    split
    · rename_i hprefix
      obtain ⟨beyond, heq⟩ := hprefix
      rw [← heq]
      exact RegistryEntry.resolve_put_of_append a (hbeyond hne heq) (hnil path) _
    · rename_i hnot
      split
      · rename_i hprefix
        obtain ⟨beyond, heq⟩ := hprefix
        rw [← heq]
        exact RegistryEntry.resolve_append_put a (hbeyond (Ne.symm hne) heq) (hnil inserted) _
      · rename_i hnot'
        exact RegistryEntry.resolve_put_of_aside a hnot hnot' _

/-- Where the last of some insertions leaves a path that it can be compared with. -/
def leads (path : Path) : Option (Path × Action) → Except Unresolved Action
  | none => .error .missing
  | some (last, action) =>
    if last = path then .ok action
    else if path.segments <+: last.segments then .error .isGroup
    else .error .missing

theorem resolve_insert_of_comparable (registry : Registry) {inserted path : Path}
    (h : inserted.Comparable path) (a : Action) :
    (registry.insert inserted a).resolve path = leads path (some (inserted, a)) := by
  rw [resolve_insert, leads]
  by_cases hbefore : path.segments <+: inserted.segments
  · simp only [hbefore, if_true]
  · have hbeyond : inserted.segments <+: path.segments := h.resolve_right hbefore
    simp only [hbefore, hbeyond, if_true, if_false]

theorem resolve_insert_of_not_comparable (registry : Registry) {inserted path : Path}
    (h : ¬inserted.Comparable path) (a : Action) :
    (registry.insert inserted a).resolve path = registry.resolve path := by
  obtain ⟨hbeyond, hbefore⟩ := not_or.1 h
  have hne : inserted ≠ path := fun heq => hbefore (heq ▸ List.prefix_refl _)
  rw [resolve_insert, if_neg hne, if_neg hbefore, if_neg hbeyond]

/-- Registers actions at paths, one after the other. -/
def insertAll (registry : Registry) (inserts : List (Path × Action)) : Registry :=
  inserts.foldl (fun registry entry => registry.insert entry.1 entry.2) registry

theorem insertAll_concat (registry : Registry) (inserts : List (Path × Action))
    (last : Path × Action) :
    registry.insertAll (inserts ++ [last])
      = (registry.insertAll inserts).insert last.1 last.2 := by
  simp [insertAll]

theorem resolve_insertAll_eq_leads (inserts : List (Path × Action)) (path : Path) :
    (empty.insertAll inserts).resolve path
      = leads path (inserts.reverse.find? fun entry => entry.1.Comparable path) := by
  induction inserts using List.reverseRecOn with
  | nil => exact RegistryEntry.resolve_nil_entries _
  | append_singleton before last ih =>
    rw [insertAll_concat, List.reverse_concat, List.find?_cons]
    by_cases h : last.1.Comparable path
    · simp only [h, decide_true]
      exact resolve_insert_of_comparable _ h last.2
    · simp only [h, decide_false]
      exact (resolve_insert_of_not_comparable _ h last.2).trans ih

/-- A path leads where the last insertion leaves it of those at paths that it can be compared
with: to its action, or to a group if the insertion went beyond the path, or nowhere. The other
insertions do not matter. -/
theorem resolve_insertAll (inserts : List (Path × Action)) (path : Path) :
    (empty.insertAll inserts).resolve path
        = leads path (inserts.reverse.find? fun entry => entry.1.Comparable path)
      ∧ (empty.insertAll inserts).resolve path
        = (empty.insertAll (inserts.filter fun entry => entry.1.Comparable path)).resolve path := by
  refine ⟨resolve_insertAll_eq_leads inserts path, ?_⟩
  rw [resolve_insertAll_eq_leads, resolve_insertAll_eq_leads, ← List.filter_reverse,
    List.find?_filter]
  simp only [and_self, Bool.decide_eq_true]

end Registry

end BehaviorTree
