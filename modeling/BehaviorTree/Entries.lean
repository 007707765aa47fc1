/-!
# Named entries in order

A list of named entries is searched and changed in the order of its names, so a look-up after a
change is settled entry by entry (`find?_alter_self`, `find?_alter_of_ne`), two changes under
different names commute (`alter_comm`), and a list in order stays in order (`Ordered.alter`).
A `Table` is a list of entries in order, with one entry for each name.
-/

namespace BehaviorTree

/-- Values under names. -/
abbrev Entries (α : Type) := List (String × α)

namespace Entries

variable {α : Type}

/-- The entry under a name; the search ends at the first larger name. -/
def find? (name : String) : Entries α → Option α
  | [] => none
  | (key, value) :: rest =>
    if name < key then none else if name = key then some value else find? name rest

/-- Changes the entry under a name, or makes one in its place in the order. -/
def alter (name : String) (f : Option α → α) : Entries α → Entries α
  | [] => [(name, f none)]
  | (key, value) :: rest =>
    if name < key then (name, f none) :: (key, value) :: rest
    else if name = key then (key, f (some value)) :: rest
    else (key, value) :: alter name f rest

/-- Puts a value under a name in the place of what was there. -/
def insert (name : String) (value : α) (entries : Entries α) : Entries α :=
  entries.alter name fun _ => value

/-- A later entry of the same name counts. -/
def ofList (pairs : List (String × α)) : Entries α :=
  pairs.foldl (fun entries pair => entries.insert pair.1 pair.2) []

/-- Names go up from entry to entry. -/
def Ordered (entries : Entries α) : Prop :=
  entries.Pairwise fun a b => a.1 < b.1

-- a change looks its own name up in the entry that it makes
attribute [simp] String.lt_irrefl

theorem find?_alter_self (name : String) (f : Option α → α) :
    ∀ entries : Entries α, (entries.alter name f).find? name = some (f (entries.find? name))
  | [] => by simp [alter, find?]
  | (key, value) :: rest => by
    have ih := find?_alter_self name f rest
    by_cases h : name < key
    · simp [alter, find?, h]
    · by_cases e : name = key
      · simp [alter, find?, e]
      · simpa [alter, find?, h, e] using ih

theorem find?_alter_of_ne {name other : String} (hne : other ≠ name) (f : Option α → α) :
    ∀ entries : Entries α, (entries.alter name f).find? other = entries.find? other
  | [] => by simp [alter, find?, hne]
  | (key, value) :: rest => by
    have ih := find?_alter_of_ne hne f rest
    by_cases h : name < key
    · simp only [alter, h, if_true, find?, hne, if_false]
      by_cases h' : other < name
      · simp [h', String.lt_trans h' h]
      · simp [h']
    · by_cases e : name = key
      · subst e
        simp [alter, find?, hne]
      · simp only [alter, h, e, if_false, find?, ih]

theorem mem_alter {name : String} {f : Option α → α} {entry : String × α} :
    ∀ {entries : Entries α}, entry ∈ entries.alter name f → entry.1 = name ∨ entry ∈ entries
  | [], h => by simp [alter] at h; exact .inl (by rw [h])
  | (key, value) :: rest, h => by
    simp only [alter] at h
    split at h
    · rcases List.mem_cons.1 h with h | h
      · exact .inl (by rw [h])
      · exact .inr h
    · split at h
      · rename_i e
        rcases List.mem_cons.1 h with h | h
        · exact .inl (by rw [h, e])
        · exact .inr (List.mem_cons_of_mem _ h)
      · rcases List.mem_cons.1 h with h | h
        · exact .inr (h ▸ List.mem_cons_self)
        · exact (mem_alter h).imp id (List.mem_cons_of_mem _)

private theorem lt_of_not_lt_of_ne {a b : String} (h : ¬a < b) (hne : a ≠ b) : b < a := by
  refine Classical.byContradiction fun h' => hne ?_
  exact String.le_antisymm (String.not_lt.1 h') (String.not_lt.1 h)

theorem Ordered.alter (name : String) (f : Option α → α) :
    ∀ {entries : Entries α}, entries.Ordered → (entries.alter name f).Ordered
  | [], _ => List.pairwise_singleton _ _
  | (key, value) :: rest, h => by
    obtain ⟨hk, hr⟩ := List.pairwise_cons.1 h
    simp only [Entries.alter]
    split
    · rename_i lt
      refine List.pairwise_cons.2 ⟨fun entry he => ?_, h⟩
      rcases List.mem_cons.1 he with he | he
      · exact he ▸ lt
      · exact String.lt_trans lt (hk entry he)
    · rename_i nlt
      split
      · exact List.pairwise_cons.2 ⟨hk, hr⟩
      · rename_i ne
        refine List.pairwise_cons.2 ⟨fun entry he => ?_, Ordered.alter name f hr⟩
        rcases mem_alter he with he | he
        · exact he ▸ lt_of_not_lt_of_ne nlt ne
        · exact hk entry he

theorem alter_comm {name other : String} (hne : name ≠ other) (f g : Option α → α) :
    ∀ entries : Entries α,
      (entries.alter name f).alter other g = (entries.alter other g).alter name f
  | [] => by
    by_cases h : other < name
    · simp [alter, h, String.lt_asymm h, hne]
    · have h' := lt_of_not_lt_of_ne h hne.symm
      simp [alter, h, h', hne.symm]
  | (key, value) :: rest => by
    have ih := alter_comm hne f g rest
    by_cases h₁ : name < key <;> by_cases h₂ : other < key
    · by_cases h : other < name
      · simp [alter, h₁, h₂, h, String.lt_asymm h, hne]
      · have h' := lt_of_not_lt_of_ne h hne.symm
        simp [alter, h₁, h₂, h, h', hne.symm]
    · have h : ¬other < name := fun h => h₂ (String.lt_trans h h₁)
      by_cases e : other = key
      · subst e
        simp [alter, h₁, h, hne.symm]
      · simp [alter, h₁, h₂, h, e, hne.symm]
    · have h : ¬name < other := fun h => h₁ (String.lt_trans h h₂)
      by_cases e : name = key
      · subst e
        simp [alter, h₂, h, hne]
      · simp [alter, h₁, h₂, h, e, hne]
    · by_cases e₁ : name = key <;> by_cases e₂ : other = key
      · exact absurd (e₁.trans e₂.symm) hne
      · simp [alter, h₂, e₁, e₂]
      · simp [alter, h₁, e₁, e₂]
      · simp [alter, h₁, h₂, e₁, e₂, ih]

theorem alter_alter (name : String) (f g : Option α → α) :
    ∀ entries : Entries α,
      (entries.alter name f).alter name g = entries.alter name fun old => g (some (f old))
  | [] => by simp [alter]
  | (key, value) :: rest => by
    have ih := alter_alter name f g rest
    by_cases h : name < key
    · simp [alter, h]
    · by_cases e : name = key
      · simp [alter, e]
      · simpa [alter, h, e] using ih

end Entries

/-- Entries in order, so with one entry for each name. -/
structure Table (α : Type) where
  entries : Entries α := []
  ordered : entries.Ordered := by exact List.Pairwise.nil

namespace Table

variable {α : Type}

def empty : Table α := {}

instance : Inhabited (Table α) := ⟨empty⟩

def find? (name : String) (table : Table α) : Option α :=
  table.entries.find? name

def contains (name : String) (table : Table α) : Bool :=
  (table.find? name).isSome

def alter (name : String) (f : Option α → α) (table : Table α) : Table α :=
  ⟨table.entries.alter name f, table.ordered.alter name f⟩

def insert (name : String) (value : α) (table : Table α) : Table α :=
  table.alter name fun _ => value

/-- A later entry of the same name counts. -/
def ofList (pairs : List (String × α)) : Table α :=
  pairs.foldl (fun table pair => table.insert pair.1 pair.2) empty

def names (table : Table α) : List String :=
  table.entries.map Prod.fst

end Table

end BehaviorTree
