import BehaviorTree.Proofs.Registered

/-!
# The listing of a registry

Every registered action is listed, in the order of the segments, under its path without the dots at
the beginning of the path (`Registry.Built.toList_eq_map`). So the listing says where the actions
are exactly if no registered path starts with a dot; and then it is in the order of the paths as
texts if no character in them comes before the dot (`Registry.toList_exact_iff`).
-/

namespace BehaviorTree

namespace RegistryEntry

theorem join_of_ne_empty {path : String} (h : path ≠ "") (name : String) :
    join path name = path ++ "." ++ name := by
  simp [join, h]

/-- In a group that has a path, names are joined with dots. -/
theorem foldl_join_of_ne_empty (rest : List String) : ∀ {path : String}, path ≠ "" →
    ∀ name, (name :: rest).foldl join path = path ++ "." ++ Path.text ⟨name, rest⟩ := by
  induction rest with
  | nil =>
    intro path h name
    simp [join_of_ne_empty h, Path.text, Path.segments]
  | cons next rest ih =>
    intro path h name
    have hjoin : path ++ "." ++ name ≠ "" := by simp
    rw [List.foldl_cons, join_of_ne_empty h, ih hjoin, Path.text_cons_cons]
    simp only [String.append_assoc]

end RegistryEntry

/-- A text without the dots at its beginning. -/
def Path.withoutDots (text : String) : String :=
  String.ofList (text.toList.dropWhile (· = '.'))

namespace Path

variable {text : String}

theorem withoutDots_eq_self (h : text.toList.head? ≠ some '.') : withoutDots text = text := by
  have hchars : text.toList.dropWhile (· = '.') = text.toList := by
    cases htext : text.toList with
    | nil => rfl
    | cons c rest =>
      have hc : c ≠ '.' := fun hc => h (by rw [htext, hc]; rfl)
      rw [List.dropWhile_cons_of_neg (by simpa using hc)]
  rw [withoutDots, hchars, String.ofList_toList]

theorem head?_withoutDots (text : String) : (withoutDots text).toList.head? ≠ some '.' := by
  intro h
  have hnot := List.head?_dropWhile_not (· = '.') text.toList
  rw [withoutDots, String.toList_ofList] at h
  rw [h] at hnot
  simp at hnot

theorem withoutDots_dot_append (text : String) : withoutDots ("." ++ text) = withoutDots text := by
  simp [withoutDots]

theorem toList_text_head? {name : String} (hne : name ≠ "") (hname : '.' ∉ name.toList)
    (rest : List String) : (Path.text ⟨name, rest⟩).toList.head? ≠ some '.' := by
  obtain ⟨more, htext, -⟩ := exists_toList_text name rest
  rw [htext]
  cases hchars : name.toList with
  | nil => exact absurd (String.toList_eq_nil_iff.1 hchars) hne
  | cons c chars =>
    rintro heq
    obtain rfl : c = '.' := Option.some.inj heq
    exact hname (hchars ▸ List.mem_cons_self)

end Path

/-- The names on the way to an action give its path without the dots at the beginning. -/
theorem RegistryEntry.foldl_join_eq : ∀ {name : String} {rest : List String},
    Path.IsSplit ⟨name, rest⟩ →
    (name :: rest).foldl join "" = Path.withoutDots (Path.text ⟨name, rest⟩) := by
  intro name rest
  induction rest generalizing name with
  | nil =>
    intro hsplit
    have hname : '.' ∉ name.toList := hsplit name List.mem_cons_self
    have htext : Path.text ⟨name, []⟩ = name := by simp [Path.text, Path.segments]
    rw [htext, Path.withoutDots_eq_self fun h => hname (List.mem_of_mem_head? h)]
    rfl
  | cons next rest ih =>
    intro hsplit
    obtain ⟨hname, hrest⟩ := List.forall_mem_cons.1 hsplit
    -- below an empty name the joining starts anew, so its dot is lost
    by_cases hne : name = ""
    · subst hne
      rw [Path.text_cons_cons, String.empty_append, Path.withoutDots_dot_append, ← ih hrest]
      rfl
    · rw [Path.withoutDots_eq_self (Path.toList_text_head? hne hname _), Path.text_cons_cons,
        ← foldl_join_of_ne_empty rest hne]
      rfl

namespace Registry

/-- Whether no registered path starts with a dot. -/
def Undotted (registry : Registry) : Prop :=
  ∀ path : String, (registry.get? (Path.ofString path)).isSome → path.toList.head? ≠ some '.'

theorem undotted_empty : empty.Undotted := fun path hpath => by
  rw [get?_empty] at hpath
  cases hpath

theorem Undotted.insert {registry : Registry} (h : registry.Undotted) {path : String}
    (hpath : path.toList.head? ≠ some '.') (a : Action) :
    (registry.insert (Path.ofString path) a).Undotted := by
  intro other hother
  rw [get?_after_insert] at hother
  split at hother
  · rename_i heq
    exact Path.ofString_injective heq ▸ hpath
  · split at hother
    · cases hother
    · exact h other hother

section Built

variable {registry : Registry} (h : registry.Built)

include h

/-- Every registered action is listed, in order, under its path without the dots at the beginning
of it. -/
theorem Built.toList_eq_map :
    registry.toList = registry.registered.map fun r => (Path.withoutDots r.1.text, r.2) := by
  rw [toList_eq]
  refine List.map_congr_left fun r hr => ?_
  rw [← RegistryEntry.foldl_join_eq (h.isSplit_of_mem hr)]
  rfl

theorem Built.isSome_get?_of_mem {r : Path × Action} (hr : r ∈ registry.registered) :
    (registry.get? (Path.ofString r.1.text)).isSome := by
  rw [Path.ofString_text (h.isSplit_of_mem hr), h.isSome_get?_iff]
  exact ⟨r.2, hr⟩

theorem Built.toList_eq_of_undotted (hundotted : registry.Undotted) :
    registry.toList = registry.registered.map fun r => (r.1.text, r.2) := by
  rw [h.toList_eq_map]
  refine List.map_congr_left fun r hr => ?_
  rw [Path.withoutDots_eq_self (hundotted _ (h.isSome_get?_of_mem hr))]

theorem Built.mem_toList_iff (hundotted : registry.Undotted) {path : String} {a : Action} :
    (path, a) ∈ registry.toList ↔ registry.get? (Path.ofString path) = some a := by
  rw [h.toList_eq_of_undotted hundotted, h.get?_eq_some_iff, List.mem_map]
  constructor
  · rintro ⟨r, hr, heq⟩
    obtain ⟨rfl, rfl⟩ := Prod.mk.inj heq
    rwa [Path.ofString_text (h.isSplit_of_mem hr)]
  · exact fun hr => ⟨_, hr, by rw [Path.text_ofString]⟩

theorem Built.undotted_of_mem_toList
    (hexact : ∀ path a, (path, a) ∈ registry.toList
      ↔ registry.get? (Path.ofString path) = some a) : registry.Undotted := by
  intro path hpath
  obtain ⟨a, ha⟩ := Option.isSome_iff_exists.1 hpath
  have hmem := (hexact path a).2 ha
  rw [h.toList_eq_map, List.mem_map] at hmem
  obtain ⟨r, -, heq⟩ := hmem
  rw [← (Prod.mk.inj heq).1]
  exact Path.head?_withoutDots _

theorem Built.pairwise_toList (hundotted : registry.Undotted) :
    registry.toList.Pairwise fun r s =>
      (Path.ofString r.1).segments < (Path.ofString s.1).segments := by
  rw [h.toList_eq_of_undotted hundotted, List.pairwise_map]
  refine h.pairwise_registered.imp_of_mem fun hr hs hlt => ?_
  rwa [Path.ofString_text (h.isSplit_of_mem hr), Path.ofString_text (h.isSplit_of_mem hs)]

end Built

/-- The listing of a registry says at which paths its actions are exactly if no registered path
starts with a dot. It is then in the order of the segments, each path once, and if no character in a
path comes before the dot, in the order of the paths as texts. -/
theorem toList_exact_iff (registry : Registry) (h : registry.Built) :
    ((∀ path a, (path, a) ∈ registry.toList ↔ registry.get? (Path.ofString path) = some a)
        ↔ registry.Undotted)
      ∧ (registry.Undotted → registry.toList.Pairwise fun r s =>
        (Path.ofString r.1).segments < (Path.ofString s.1).segments)
      ∧ (registry.Undotted →
        (∀ path : String, (registry.get? (Path.ofString path)).isSome →
          ∀ c ∈ path.toList, '.' ≤ c) →
        registry.toList.Pairwise fun r s => r.1 < s.1) := by
  refine ⟨⟨h.undotted_of_mem_toList, fun hundotted path a => h.mem_toList_iff hundotted⟩,
    h.pairwise_toList, fun hundotted hchars => ?_⟩
  refine (h.pairwise_toList hundotted).imp_of_mem fun {r s} _ hs hlt => ?_
  have hfound : registry.get? (Path.ofString s.1) = some s.2 := (h.mem_toList_iff hundotted).1 hs
  exact Path.lt_of_segments_lt hlt (hchars s.1 (by rw [hfound]; rfl))

/-- Names in which a character comes before the dot, in the order of the segments. -/
theorem toList_exact_iff_of_hyphen :
    let registry := (empty.insert (Path.ofString "a-b") default).insert (Path.ofString "a.b")
      default
    registry.Built ∧ registry.Undotted
      ∧ (∀ path a, (path, a) ∈ registry.toList ↔ registry.get? (Path.ofString path) = some a)
      ∧ registry.toList = [("a.b", default), ("a-b", default)] := by
  intro registry
  have hbuilt : registry.Built := (Built.empty.insert "a-b" default).insert "a.b" default
  have hundotted : registry.Undotted :=
    (undotted_empty.insert (by decide) default).insert (by decide) default
  exact ⟨hbuilt, hundotted, (toList_exact_iff registry hbuilt).1.2 hundotted, rfl⟩

/-- An action at a path that starts with a dot is listed at one where there is none, and of two
names that go on differently the shorter comes first, though its path does not. -/
theorem toList_of_leading_dot :
    let registry := ((empty.insert (Path.ofString ".x") default).insert (Path.ofString "a-b")
      default).insert (Path.ofString "a.b") default
    registry.Built
      ∧ registry.toList = [("x", default), ("a.b", default), ("a-b", default)]
      ∧ registry.get? (Path.ofString ".x") = some default
      ∧ registry.get? (Path.ofString "x") = none
      ∧ "a-b" < "a.b" :=
  ⟨((Built.empty.insert ".x" default).insert "a-b" default).insert "a.b" default, rfl, rfl, rfl,
    by decide⟩

end Registry

end BehaviorTree
