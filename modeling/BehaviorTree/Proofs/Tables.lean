import BehaviorTree.Entries

/-!
# Tables by look-up

A table declares the names that it lists (`Table.contains_iff`), and it is what its look-ups say:
tables in which every name is looked up alike are equal (`Table.ext_find?`). Its entries, put
together one after the other, give the table again (`Table.ofList_entries`).
-/

namespace BehaviorTree

variable {α : Type}

namespace Entries

theorem Ordered.find?_isSome_iff {name : String} : ∀ {entries : Entries α},
    entries.Ordered → ((entries.find? name).isSome ↔ name ∈ entries.map Prod.fst)
  | [], _ => by simp [Entries.find?]
  | (key, value) :: rest, h => by
    obtain ⟨hkey, hrest⟩ := List.pairwise_cons.1 h
    have ih : (Entries.find? name rest).isSome ↔ name ∈ rest.map Prod.fst :=
      Entries.Ordered.find?_isSome_iff hrest
    simp only [Entries.find?, List.map_cons, List.mem_cons]
    by_cases hlt : name < key
    · -- the names after this one are larger still, so the search may end here
      have hne : name ≠ key := fun h => String.lt_irrefl key (h ▸ hlt)
      have hrest : name ∉ rest.map Prod.fst := fun hmem => by
        obtain ⟨entry, hentry, rfl⟩ := List.mem_map.1 hmem
        exact String.lt_asymm hlt (hkey entry hentry)
      simp [hlt, hne, hrest]
    · by_cases heq : name = key
      · simp [heq]
      · simp [hlt, heq, ih]

theorem find?_cons_self (name : String) (value : α) (rest : Entries α) :
    Entries.find? name ((name, value) :: rest) = some value := by
  simp [find?]

theorem find?_cons_of_lt {name key : String} (h : name < key) (value : α) (rest : Entries α) :
    Entries.find? name ((key, value) :: rest) = none := by
  simp [find?, h]

/-- The names after the first are larger, so nothing but the first entry has its name. -/
theorem Ordered.find?_tail {key : String} {value : α} {rest : Entries α}
    (h : Ordered ((key, value) :: rest)) (name : String) :
    Entries.find? name rest
      = if name ≤ key then none else Entries.find? name ((key, value) :: rest) := by
  obtain ⟨hkey, hrest⟩ := List.pairwise_cons.1 h
  split
  · rename_i hle
    cases hfound : Entries.find? name rest with
    | none => rfl
    | some found =>
      have hmem : name ∈ rest.map Prod.fst :=
        (Ordered.find?_isSome_iff hrest).1 (by rw [hfound]; rfl)
      obtain ⟨entry, hentry, rfl⟩ := List.mem_map.1 hmem
      exact absurd (hkey entry hentry) (String.not_lt.2 hle)
  · rename_i hle
    have hlt : ¬name < key := fun h => hle (String.not_lt.1 (String.lt_asymm h))
    have hne : name ≠ key := fun h => hle (h ▸ String.le_refl key)
    simp [find?, hlt, hne]

theorem Ordered.ext : ∀ {entries others : Entries α}, entries.Ordered → others.Ordered →
    (∀ name, entries.find? name = others.find? name) → entries = others
  | [], [], _, _, _ => rfl
  | [], (key, value) :: _, _, _, h => by
    have := h key
    rw [find?_cons_self] at this
    cases this
  | (key, value) :: _, [], _, _, h => by
    have := h key
    rw [find?_cons_self] at this
    cases this
  | (key, value) :: rest, (key', value') :: rest', ho, ho', h => by
    have hnot : ¬key < key' := fun hlt => by
      have := h key
      rw [find?_cons_self, find?_cons_of_lt hlt] at this
      cases this
    have hnot' : ¬key' < key := fun hlt => by
      have := h key'
      rw [find?_cons_self, find?_cons_of_lt hlt] at this
      cases this
    obtain rfl : key = key' := String.le_antisymm (String.not_lt.1 hnot') (String.not_lt.1 hnot)
    obtain rfl : value = value' := by
      have := h key
      rw [find?_cons_self, find?_cons_self] at this
      exact Option.some.inj this
    have hrest : ∀ name, Entries.find? name rest = Entries.find? name rest' := fun name => by
      rw [ho.find?_tail, ho'.find?_tail, h name]
    rw [Ordered.ext (List.pairwise_cons.1 ho).2 (List.pairwise_cons.1 ho').2 hrest]

/-- A name larger than all others is put at the end. -/
theorem insert_of_lt {name : String} (value : α) : ∀ {entries : Entries α},
    (∀ entry ∈ entries, entry.1 < name) → entries.insert name value = entries ++ [(name, value)]
  | [], _ => rfl
  | (key, old) :: rest, h => by
    obtain ⟨hkey, hrest⟩ := List.forall_mem_cons.1 h
    have hlt : ¬name < key := String.lt_asymm hkey
    have hne : name ≠ key := fun heq => String.lt_irrefl key (heq ▸ hkey)
    have ih := insert_of_lt value hrest
    unfold insert at ih ⊢
    simp only [alter, hlt, hne, if_false, ih, List.cons_append]

/-- Entries in order are what they are put together to. -/
theorem ofList_of_ordered {entries : Entries α} (h : entries.Ordered) :
    ofList entries = entries := by
  have hfold : ∀ (rest first : Entries α), (first ++ rest).Ordered →
      rest.foldl (fun entries pair => entries.insert pair.1 pair.2) first = first ++ rest := by
    intro rest
    induction rest with
    | nil => exact fun first _ => (List.append_nil first).symm
    | cons pair rest ih =>
      intro first hordered
      have hlt : ∀ entry ∈ first, entry.1 < pair.1 := fun entry hentry =>
        (List.pairwise_append.1 hordered).2.2 entry hentry pair List.mem_cons_self
      have happend : first ++ pair :: rest = first ++ [pair] ++ rest := by simp
      rw [happend] at hordered ⊢
      rw [List.foldl_cons, insert_of_lt pair.2 hlt]
      exact ih _ hordered
  exact hfold entries [] h

end Entries

namespace Table

theorem contains_iff {table : Table α} {name : String} :
    table.contains name ↔ name ∈ table.names :=
  table.ordered.find?_isSome_iff

/-- The first of some names in order that is asked for is the least of them. -/
theorem find?_eq_some_iff_least {p : String → Bool} {name : String} : ∀ {names : List String},
    names.Pairwise (· < ·) → (names.find? p = some name
      ↔ (name ∈ names ∧ p name) ∧ ∀ other ∈ names, p other → name ≤ other)
  | [], _ => by simp
  | first :: rest, h => by
    obtain ⟨hfirst, hrest⟩ := List.pairwise_cons.1 h
    by_cases hp : p first
    · rw [List.find?_cons_of_pos hp, Option.some.injEq]
      constructor
      · rintro rfl
        refine ⟨⟨List.mem_cons_self, hp⟩, fun other hother _ => ?_⟩
        rcases List.mem_cons.1 hother with rfl | hother
        · exact String.le_refl _
        · exact String.not_lt.1 (String.lt_asymm (hfirst other hother))
      · rintro ⟨⟨hname, -⟩, hleast⟩
        rcases List.mem_cons.1 hname with rfl | hname
        · rfl
        · exact absurd (hfirst name hname) (String.not_lt.2 (hleast first List.mem_cons_self hp))
    · have hne : p name → name ≠ first := fun hname h => hp (h ▸ hname)
      rw [List.find?_cons_of_neg hp, find?_eq_some_iff_least hrest]
      simp only [List.mem_cons, forall_eq_or_imp, hp, Bool.false_eq_true, false_implies, true_and]
      refine and_congr_left fun _ => and_congr_left fun hname => ?_
      simp [hne hname]

theorem pairwise_names (table : Table α) : table.names.Pairwise (· < ·) :=
  List.pairwise_map.2 table.ordered

theorem find?_alter (table : Table α) (name other : String) (f : Option α → α) :
    (table.alter name f).find? other
      = if other = name then some (f (table.find? name)) else table.find? other := by
  unfold alter find?
  split
  · rename_i heq
    rw [heq, Entries.find?_alter_self]
  · rename_i hne
    rw [Entries.find?_alter_of_ne hne]

theorem contains_alter {table : Table α} {name other : String} {f : Option α → α} :
    (table.alter name f).contains other ↔ other = name ∨ table.contains other := by
  unfold contains
  rw [find?_alter]
  split <;> simp [*]

theorem ext_find? {table other : Table α} (h : ∀ name, table.find? name = other.find? name) :
    table = other := by
  obtain ⟨entries, ho⟩ := table
  obtain ⟨others, ho'⟩ := other
  obtain rfl : entries = others := ho.ext ho' h
  rfl

theorem entries_ofList (pairs : List (String × α)) :
    (ofList pairs).entries = Entries.ofList pairs :=
  (List.foldl_hom entries fun _ _ => rfl).symm

/-- A table is what its entries are put together to. -/
theorem ofList_entries (table : Table α) : ofList table.entries = table := by
  obtain ⟨entries, ho⟩ := table
  have h := entries_ofList entries
  rw [Entries.ofList_of_ordered ho] at h
  cases hlist : ofList entries
  rw [hlist] at h
  cases h
  rfl

end Table

end BehaviorTree
