import BehaviorTree.Proofs.Dotted
import BehaviorTree.Proofs.Tables

/-!
# What is registered

The actions of a registry stand under their paths (`Registry.registered`). In one that was put
together by insertions and mounts (`Registry.Built`) every group is in order and none is empty, so a
path leads to an action exactly if the action is registered there
(`Registry.Built.get?_eq_some_iff`) and to a group exactly if one is registered beyond it
(`Registry.Built.resolve_eq_isGroup_iff`). No two paths of what is registered are comparable, they
are in the order of their segments, and they are as many as are counted.
-/

namespace BehaviorTree

namespace Entries

variable {α : Type} {name : String} {value : α} {entries : Entries α}

theorem Ordered.find?_eq_some_iff : ∀ {entries : Entries α}, entries.Ordered →
    (entries.find? name = some value ↔ (name, value) ∈ entries)
  | [], _ => by simp [Entries.find?]
  | (key, old) :: rest, h => by
    have ih : Entries.find? name rest = some value ↔ (name, value) ∈ rest :=
      Ordered.find?_eq_some_iff (List.pairwise_cons.1 h).2
    rw [List.mem_cons, ← ih, h.find?_tail, Prod.mk.injEq]
    by_cases heq : name = key
    · subst heq
      simp [find?_cons_self, eq_comm]
    · by_cases hlt : name < key
      · simp [find?_cons_of_lt hlt, heq]
      · have hle : ¬name ≤ key := fun hle => heq (String.le_antisymm hle (String.not_lt.1 hlt))
        simp [heq, hle]

theorem Ordered.mem_alter_iff {other : String} {f : Option α → α} (h : entries.Ordered) :
    (other, value) ∈ entries.alter name f
      ↔ if other = name then f (entries.find? name) = value else (other, value) ∈ entries := by
  rw [← (h.alter name f).find?_eq_some_iff]
  split
  · rename_i heq
    rw [heq, find?_alter_self, Option.some.injEq]
  · rename_i hne
    rw [find?_alter_of_ne hne, h.find?_eq_some_iff]

end Entries

namespace RegistryEntry

mutual

/-- The actions at and below an entry, under their paths. -/
def registered (name : String) : RegistryEntry → List (Path × Action)
  | .action a => [(⟨name, []⟩, a)]
  | .group entries => (registeredAll entries).map fun entry => (entry.1.under name, entry.2)

def registeredAll : List (String × RegistryEntry) → List (Path × Action)
  | [] => []
  | (name, entry) :: rest => registered name entry ++ registeredAll rest

end

theorem registeredAll_eq_flatMap : ∀ entries : List (String × RegistryEntry),
    registeredAll entries = entries.flatMap fun entry => registered entry.1 entry.2
  | [] => rfl
  | (name, entry) :: rest => by
    rw [registeredAll, registeredAll_eq_flatMap rest, List.flatMap_cons]

mutual

/-- What is listed is what is registered, each action under the names on the way to it. -/
theorem listing_eq (path name : String) : ∀ entry : RegistryEntry,
    listing (join path name) entry
      = (registered name entry).map fun entry => (entry.1.segments.foldl join path, entry.2)
  | .action a => rfl
  | .group entries => by
    rw [listing, registered, listingAll_eq, List.map_map]
    rfl

theorem listingAll_eq (path : String) : ∀ entries : List (String × RegistryEntry),
    listingAll path entries
      = (registeredAll entries).map fun entry => (entry.1.segments.foldl join path, entry.2)
  | [] => rfl
  | (name, entry) :: rest => by
    rw [listingAll, registeredAll, List.map_append, listing_eq path name entry,
      listingAll_eq path rest]

end

mutual

theorem length_registered (name : String) : ∀ entry : RegistryEntry,
    (registered name entry).length = count entry
  | .action _ => rfl
  | .group entries => by
    rw [registered, List.length_map, length_registeredAll entries, count]

theorem length_registeredAll : ∀ entries : List (String × RegistryEntry),
    (registeredAll entries).length = countAll entries
  | [] => rfl
  | (name, entry) :: rest => by
    rw [registeredAll, List.length_append, length_registered name entry,
      length_registeredAll rest, countAll]

end

/-- An entry in which groups are not empty and in order, under names without dots. -/
inductive Lawful : RegistryEntry → Prop
  | action (a : Action) : Lawful (.action a)
  | group {entries : Entries RegistryEntry} (hne : entries ≠ []) (hordered : entries.Ordered)
    (hnames : ∀ entry ∈ entries, '.' ∉ entry.1.toList) (h : ∀ entry ∈ entries, Lawful entry.2) :
    Lawful (.group entries)

/-- Entries as a group has them, or none. -/
structure LawfulAll (entries : Entries RegistryEntry) : Prop where
  ordered : entries.Ordered
  names : ∀ entry ∈ entries, '.' ∉ entry.1.toList
  lawful : ∀ entry ∈ entries, Lawful entry.2

section Lawful

variable {entries nested : Entries RegistryEntry} {name : String} {rest : List String}

theorem LawfulAll.nil : LawfulAll [] :=
  ⟨List.Pairwise.nil, by simp, by simp⟩

theorem Lawful.lawfulAll (h : Lawful (.group nested)) : LawfulAll nested := by
  cases h with
  | group _ hordered hnames h => exact ⟨hordered, hnames, h⟩

theorem LawfulAll.found (h : LawfulAll entries) {entry : RegistryEntry}
    (hfound : entries.find? name = some entry) : entry.Lawful :=
  h.lawful _ (h.ordered.find?_eq_some_iff.1 hfound)

theorem LawfulAll.below (h : LawfulAll entries) (name : String) :
    LawfulAll (entriesOf (entries.find? name)) := by
  rcases hfound : entries.find? name with _ | _ | nested
  · exact .nil
  · exact .nil
  · exact (h.found hfound).lawfulAll

theorem LawfulAll.alter (h : LawfulAll entries) (hname : '.' ∉ name.toList)
    {f : Option RegistryEntry → RegistryEntry} (hf : (f (entries.find? name)).Lawful) :
    LawfulAll (entries.alter name f) := by
  refine ⟨h.ordered.alter name f, fun (other, entry) hmem => ?_, fun (other, entry) hmem => ?_⟩ <;>
    rw [h.ordered.mem_alter_iff] at hmem <;> split at hmem <;> rename_i heq
  · exact heq ▸ hname
  · exact h.names _ hmem
  · exact hmem ▸ hf
  · exact h.lawful _ hmem

theorem put_ne_nil (a : Action) {segments : List String} (hne : segments ≠ [])
    (entries : Entries RegistryEntry) : put a segments entries ≠ [] := fun h => by
  have hput := resolve_put_self a hne entries
  rw [h, resolve_nil_entries] at hput
  cases hput

/-- Groups that an action is put into stay in order, and those that it makes are. -/
theorem LawfulAll.put (a : Action) : ∀ {segments : List String} {entries : Entries RegistryEntry},
    (∀ segment ∈ segments, '.' ∉ segment.toList) → LawfulAll entries →
    LawfulAll (put a segments entries)
  | [], _, _, h => h
  | [name], _, hsegments, h => h.alter (hsegments name List.mem_cons_self) (.action a)
  | name :: next :: rest, entries, hsegments, h => by
    have hrest : next :: rest ≠ [] := List.cons_ne_nil _ _
    have hnested : LawfulAll (RegistryEntry.put a (next :: rest) _) :=
      LawfulAll.put a (fun segment hmem => hsegments segment (List.mem_cons_of_mem _ hmem))
        (h.below name)
    rw [put_cons hrest]
    -- the group on the way is not empty, also if it is new, since the action is in it
    exact h.alter (hsegments name List.mem_cons_self)
      (.group (put_ne_nil a hrest _) hnested.ordered hnested.names hnested.lawful)

theorem head_of_mem_registered {entry : RegistryEntry} {r : Path × Action}
    (h : r ∈ registered name entry) : r.1.head = name := by
  cases entry with
  | action a => rw [registered, List.mem_singleton] at h; rw [h]
  | group nested =>
    rw [registered] at h
    obtain ⟨inner, -, rfl⟩ := List.mem_map.1 h
    rfl

theorem LawfulAll.mem_registeredAll_iff (h : LawfulAll entries) {a : Action} :
    (⟨name, rest⟩, a) ∈ registeredAll entries
      ↔ ∃ entry, entries.find? name = some entry ∧ (⟨name, rest⟩, a) ∈ registered name entry := by
  rw [registeredAll_eq_flatMap, List.mem_flatMap]
  constructor
  · rintro ⟨⟨key, entry⟩, hmem, hr⟩
    obtain rfl : name = key := head_of_mem_registered hr
    exact ⟨entry, h.ordered.find?_eq_some_iff.2 hmem, hr⟩
  · rintro ⟨entry, hfound, hr⟩
    exact ⟨(name, entry), h.ordered.find?_eq_some_iff.1 hfound, hr⟩

theorem mem_registered_nil_iff {entry : RegistryEntry} {a : Action} :
    (⟨name, []⟩, a) ∈ registered name entry ↔ entry = .action a := by
  cases entry with
  | action b => simp [registered, eq_comm]
  | group nested => simp [registered, Path.under, Path.segments]

theorem mem_registered_cons_iff {entry : RegistryEntry} {next : String} {a : Action} :
    (⟨name, next :: rest⟩, a) ∈ registered name entry
      ↔ ∃ nested, entry = .group nested ∧ (⟨next, rest⟩, a) ∈ registeredAll nested := by
  cases entry with
  | action b => simp [registered]
  | group nested =>
    simp only [registered, List.mem_map, RegistryEntry.group.injEq, exists_eq_left']
    constructor
    · rintro ⟨⟨path, action⟩, hmem, heq⟩
      obtain ⟨hpath, rfl⟩ := Prod.mk.inj heq
      obtain rfl : path = ⟨next, rest⟩ := Path.under_injective name hpath
      exact hmem
    · exact fun hmem => ⟨_, hmem, rfl⟩

/-- Below its first segment a path is registered where the rest of it is in the group that stands
there. -/
theorem LawfulAll.mem_registeredAll_cons_iff (h : LawfulAll entries) {next : String} {a : Action} :
    (⟨name, next :: rest⟩, a) ∈ registeredAll entries
      ↔ (⟨next, rest⟩, a) ∈ registeredAll (entriesOf (entries.find? name)) := by
  rw [h.mem_registeredAll_iff]
  simp only [mem_registered_cons_iff]
  rcases entries.find? name with _ | _ | nested <;> simp [entriesOf, registeredAll]

/-- A path leads to an action exactly if the action is registered there. -/
theorem LawfulAll.resolve_eq_ok_iff {a : Action} (h : LawfulAll entries) :
    resolve (name :: rest) entries = .ok a ↔ (⟨name, rest⟩, a) ∈ registeredAll entries := by
  induction rest generalizing name entries with
  | nil =>
    rw [h.mem_registeredAll_iff, resolve]
    simp only [mem_registered_nil_iff, exists_eq_right]
    rcases entries.find? name with _ | _ | nested <;> simp
  | cons next rest ih =>
    rw [resolve_cons (List.cons_ne_nil _ _), ih (h.below name), h.mem_registeredAll_cons_iff]

/-- Something is registered at or below every entry. -/
theorem Lawful.registered_ne_nil {entry : RegistryEntry} (h : Lawful entry) (name : String) :
    registered name entry ≠ [] := by
  induction h generalizing name with
  | action a => exact List.cons_ne_nil _ _
  | group hne _ _ _ ih =>
    obtain ⟨first, others, rfl⟩ := List.exists_cons_of_ne_nil hne
    -- a group is not empty, and something is registered in its first entry already
    have hfirst := ih first List.mem_cons_self first.1
    rw [registered, registeredAll_eq_flatMap, List.flatMap_cons]
    simp [hfirst]

theorem Lawful.exists_registered (h : Lawful (.group nested)) :
    ∃ next more a, (⟨next, more⟩, a) ∈ registeredAll nested := by
  have hne := h.registered_ne_nil ""
  rw [registered, Ne, List.map_eq_nil_iff] at hne
  obtain ⟨⟨⟨next, more⟩, a⟩, hmem⟩ := List.exists_mem_of_ne_nil _ hne
  exact ⟨next, more, a, hmem⟩

/-- A path leads to a group exactly if an action is registered beyond it. -/
theorem LawfulAll.resolve_eq_isGroup_iff (h : LawfulAll entries) :
    resolve (name :: rest) entries = .error .isGroup
      ↔ ∃ next more a, (⟨name, rest ++ next :: more⟩, a) ∈ registeredAll entries := by
  induction rest generalizing name entries with
  | nil =>
    simp only [List.nil_append, h.mem_registeredAll_cons_iff, resolve]
    rcases hfound : entries.find? name with _ | _ | nested
    · simp [entriesOf, registeredAll]
    · simp [entriesOf, registeredAll]
    · simpa [entriesOf] using (h.found hfound).exists_registered
  | cons next rest ih =>
    rw [resolve_cons (List.cons_ne_nil _ _), ih (h.below name)]
    simp only [List.cons_append, h.mem_registeredAll_cons_iff]

theorem pairwise_registeredAll (hordered : entries.Ordered)
    (h : ∀ entry ∈ entries,
      (registered entry.1 entry.2).Pairwise fun r s => r.1.segments < s.1.segments) :
    (registeredAll entries).Pairwise fun r s => r.1.segments < s.1.segments := by
  rw [registeredAll_eq_flatMap, List.pairwise_flatMap]
  refine ⟨h, hordered.imp fun hlt r hr s hs => List.cons_lt_cons_iff.2 (.inl ?_)⟩
  rwa [head_of_mem_registered hr, head_of_mem_registered hs]

/-- What is registered is in the order of the segments. -/
theorem Lawful.pairwise_registered {entry : RegistryEntry} (h : Lawful entry) (name : String) :
    (registered name entry).Pairwise fun r s => r.1.segments < s.1.segments := by
  induction h generalizing name with
  | action a => exact List.pairwise_singleton _ _
  | group _ hordered _ _ ih =>
    rw [registered, List.pairwise_map]
    refine (pairwise_registeredAll hordered fun entry hmem => ih entry hmem entry.1).imp ?_
    exact fun hlt => List.cons_lt_cons_iff.2 (.inr ⟨rfl, hlt⟩)

theorem Lawful.isSplit_of_mem {entry : RegistryEntry} (h : Lawful entry) {name : String}
    (hname : '.' ∉ name.toList) : ∀ r ∈ registered name entry, r.1.IsSplit := by
  induction h generalizing name with
  | action a => simpa [registered, Path.IsSplit, Path.segments] using hname
  | group _ _ hnames _ ih =>
    intro r hr
    rw [registered, registeredAll_eq_flatMap] at hr
    obtain ⟨inner, hinner, rfl⟩ := List.mem_map.1 hr
    obtain ⟨entry, hentry, hmem⟩ := List.mem_flatMap.1 hinner
    exact (ih entry hentry (hnames entry hentry) inner hmem).under hname

end Lawful

end RegistryEntry

namespace Registry

/-- A registry that was put together by insertions and mounts. -/
inductive Built : Registry → Prop
  | empty : Built empty
  | insert {registry : Registry} (h : Built registry) (path : String) (a : Action) :
    Built (registry.insert (Path.ofString path) a)
  | mount {registry other : Registry} (h : Built registry) (group : String)
    (hother : Built other) : Built (registry.mount group other)

/-- The actions of a registry, under their paths. -/
def registered (registry : Registry) : List (Path × Action) :=
  RegistryEntry.registeredAll registry.entries

theorem toList_eq (registry : Registry) :
    registry.toList
      = registry.registered.map fun r => (r.1.segments.foldl RegistryEntry.join "", r.2) :=
  RegistryEntry.listingAll_eq "" registry.entries

theorem size_eq (registry : Registry) : registry.size = registry.registered.length :=
  (RegistryEntry.length_registeredAll registry.entries).symm

@[simp]
theorem get?_empty (path : Path) : empty.get? path = none := by
  rw [get?, show empty.resolve path = _ from RegistryEntry.resolve_nil_entries _]
  rfl

/-- Where an insertion leaves an action: at its own path there is the new one, at paths that are
comparable with it there is none, and at others what was there. -/
theorem get?_after_insert (registry : Registry) (inserted : Path) (a : Action) (path : Path) :
    (registry.insert inserted a).get? path
      = if inserted = path then some a
        else if inserted.Comparable path then none else registry.get? path := by
  by_cases hself : inserted = path
  · subst hself
    rw [if_pos rfl, get?, resolve_insert, if_pos rfl]
    rfl
  · rw [if_neg hself, get?]
    split
    · rename_i hcomparable
      rw [resolve_insert_of_comparable registry hcomparable, leads, if_neg hself]
      split <;> rfl
    · rename_i hcomparable
      rw [resolve_insert_of_not_comparable registry hcomparable, get?]

/-- A mount inserts the actions one after the other, at their paths in the group. -/
theorem mount_eq (registry : Registry) (group : String) (other : Registry) :
    registry.mount group other = registry.insertAll
      (other.toList.map fun r => (Path.ofString (group ++ "." ++ r.1), r.2)) := by
  unfold mount insertAll
  rw [List.foldl_map]

theorem lawful_insertAll {registry : Registry} {inserts : List (Path × Action)}
    (h : RegistryEntry.LawfulAll registry.entries) (hsplit : ∀ r ∈ inserts, r.1.IsSplit) :
    RegistryEntry.LawfulAll (registry.insertAll inserts).entries := by
  induction inserts generalizing registry with
  | nil => exact h
  | cons r rest ih =>
    obtain ⟨hr, hrest⟩ := List.forall_mem_cons.1 hsplit
    exact ih (h.put r.2 hr) hrest

namespace Built

variable {registry : Registry} (h : Built registry)

include h

theorem lawful : RegistryEntry.LawfulAll registry.entries := by
  induction h with
  | empty => exact .nil
  | insert _ path a ih => exact ih.put a (Path.isSplit_ofString path)
  | @mount _ other _ group _ ih =>
    rw [mount_eq]
    refine lawful_insertAll ih fun r hr => ?_
    obtain ⟨listed, -, rfl⟩ := List.mem_map.1 hr
    exact Path.isSplit_ofString _

/-- A path leads to an action exactly if the action is registered there. -/
theorem get?_eq_some_iff {path : Path} {a : Action} :
    registry.get? path = some a ↔ (path, a) ∈ registry.registered := by
  refine Iff.trans ?_ h.lawful.resolve_eq_ok_iff
  unfold get? resolve Path.segments
  cases RegistryEntry.resolve (path.head :: path.tail) registry.entries <;> simp [Except.toOption]

theorem isSome_get?_iff {path : Path} :
    (registry.get? path).isSome ↔ ∃ a, (path, a) ∈ registry.registered := by
  simp only [Option.isSome_iff_exists, h.get?_eq_some_iff]

/-- A path leads to a group exactly if an action is registered beyond it. -/
theorem resolve_eq_isGroup_iff {path : Path} :
    registry.resolve path = .error .isGroup
      ↔ ∃ other, (registry.get? other).isSome
        ∧ path.segments <+: other.segments ∧ path ≠ other := by
  refine h.lawful.resolve_eq_isGroup_iff.trans ?_
  simp only [h.isSome_get?_iff]
  constructor
  · rintro ⟨next, more, a, hmem⟩
    refine ⟨_, ⟨a, hmem⟩, ⟨next :: more, rfl⟩, fun heq => ?_⟩
    have hlength := congrArg (·.segments.length) heq
    simp [Path.segments] at hlength
  · rintro ⟨other, ⟨a, hmem⟩, ⟨beyond, heq⟩, hne⟩
    cases beyond with
    | nil => exact absurd (Path.segments_injective (by rw [← heq, List.append_nil])) hne
    | cons next more =>
      obtain rfl : other = ⟨path.head, path.tail ++ next :: more⟩ :=
        Path.segments_injective heq.symm
      exact ⟨next, more, a, hmem⟩

theorem pairwise_registered :
    registry.registered.Pairwise fun r s => r.1.segments < s.1.segments :=
  RegistryEntry.pairwise_registeredAll h.lawful.ordered fun entry hmem =>
    (h.lawful.lawful entry hmem).pairwise_registered entry.1

theorem isSplit_of_mem {r : Path × Action} (hr : r ∈ registry.registered) : r.1.IsSplit := by
  unfold registered at hr
  rw [RegistryEntry.registeredAll_eq_flatMap] at hr
  obtain ⟨entry, hentry, hr⟩ := List.mem_flatMap.1 hr
  exact (h.lawful.lawful entry hentry).isSplit_of_mem (h.lawful.names entry hentry) r hr

/-- No registered path is the beginning of another. -/
theorem eq_of_begins {path other : Path} (hpath : (registry.get? path).isSome)
    (hother : (registry.get? other).isSome) (hbegins : path.segments <+: other.segments) :
    path = other := by
  by_contra hne
  have hgroup := h.resolve_eq_isGroup_iff.2 ⟨other, hother, hbegins, hne⟩
  rw [get?, hgroup] at hpath
  cases hpath

theorem eq_of_comparable {path other : Path} (hpath : (registry.get? path).isSome)
    (hother : (registry.get? other).isSome) (hcomparable : path.Comparable other) : path = other :=
  hcomparable.elim (h.eq_of_begins hpath hother) fun hbegins =>
    (h.eq_of_begins hother hpath hbegins).symm

end Built

end Registry

end BehaviorTree
