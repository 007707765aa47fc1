import BehaviorTree.Proofs.Counting
import BehaviorTree.Proofs.Listing

/-!
# Mounting a registry

Actions inserted at paths that lie aside from each other all stay, and displace exactly what is
comparable with one of them (`Registry.get?_insertAll_iff`). The paths of a registry lie aside from
each other, also in a group, so a mount brings all that the other registry has, as long as it lists
it where it is: as long as no path of it starts with a dot (`Registry.mount_lawful`).
-/

namespace BehaviorTree

namespace Registry

/-- After insertions at paths that lie aside from each other, an action is one of those inserted, or
was there before and lies aside from them all. -/
theorem get?_insertAll_iff (registry : Registry) {inserts : List (Path × Action)}
    (haside : inserts.Pairwise fun r s => ¬r.1.Comparable s.1) (path : Path) (a : Action) :
    (registry.insertAll inserts).get? path = some a
      ↔ (path, a) ∈ inserts
        ∨ registry.get? path = some a ∧ ∀ r ∈ inserts, ¬r.1.Comparable path := by
  induction inserts using List.reverseRecOn with
  | nil => simp [insertAll]
  | append_singleton before last ih =>
    obtain ⟨hbefore, -, hlast⟩ := List.pairwise_append.1 haside
    have hapart : ∀ r ∈ before, ¬r.1.Comparable last.1 := fun r hr => hlast r hr last (by simp)
    simp only [insertAll_concat, get?_after_insert, List.mem_append, List.mem_singleton, or_imp,
      forall_and, forall_eq]
    by_cases hcomparable : last.1.Comparable path
    · -- the insertion decides, so neither the earlier ones nor the registry say anything
      have hnot : (path, a) ∉ before := fun hmem => hapart _ hmem hcomparable.symm
      obtain ⟨inserted, action⟩ := last
      by_cases hself : inserted = path
      · simp [hself, hnot, hself ▸ hcomparable, eq_comm]
      · simp [hself, hnot, hcomparable, Ne.symm hself]
    · have hself : last.1 ≠ path := fun heq => hcomparable (heq ▸ .refl _)
      have hne : (path, a) ≠ last := fun heq => hself (heq ▸ rfl)
      simp [hself, hne, hcomparable, ih hbefore]

section Mount

variable {registry other : Registry} (group : String)

/-- The actions of a registry that lie aside from all that is mounted in a group. -/
def survivors (registry : Registry) (group : String) (other : Registry) : Set String :=
  {path ∈ registry.paths | ∀ mounted ∈ other.paths,
    ¬(Path.ofString (group ++ "." ++ mounted)).Comparable (Path.ofString path)}

theorem Built.exists_mem_toList_iff (hother : other.Built) (hundotted : other.Undotted)
    {path : String} : (∃ a, (path, a) ∈ other.toList) ↔ path ∈ other.paths := by
  simp only [hother.mem_toList_iff hundotted, mem_paths, Option.isSome_iff_exists]

/-- The insertions of a mount lie aside from each other. -/
theorem Built.pairwise_mounted (hother : other.Built) (hundotted : other.Undotted) :
    (other.toList.map fun r => (Path.ofString (group ++ "." ++ r.1), r.2)).Pairwise
      fun r s => ¬r.1.Comparable s.1 := by
  refine List.pairwise_map.2 ((hother.pairwise_toList hundotted).imp_of_mem ?_)
  intro r s hr hs hlt hcomparable
  have hsame := hother.eq_of_comparable
    ((hother.exists_mem_toList_iff hundotted).1 ⟨r.2, hr⟩)
    ((hother.exists_mem_toList_iff hundotted).1 ⟨s.2, hs⟩)
    ((Path.comparable_append_dot group r.1 s.1).1 hcomparable)
  rw [hsame] at hlt
  exact List.lt_irrefl _ hlt

theorem get?_mount_iff (hother : other.Built) (hundotted : other.Undotted) {path : String}
    {a : Action} :
    (registry.mount group other).get? (Path.ofString path) = some a
      ↔ (∃ mounted, path = group ++ "." ++ mounted
          ∧ other.get? (Path.ofString mounted) = some a)
        ∨ registry.get? (Path.ofString path) = some a ∧ ∀ mounted ∈ other.paths,
          ¬(Path.ofString (group ++ "." ++ mounted)).Comparable (Path.ofString path) := by
  rw [mount_eq, get?_insertAll_iff registry (hother.pairwise_mounted group hundotted)]
  refine or_congr ?_ (and_congr_right fun _ => ?_)
  · simp only [← hother.mem_toList_iff hundotted]
    constructor
    · intro hmem
      obtain ⟨r, hr, heq⟩ := List.mem_map.1 hmem
      obtain ⟨hpath, rfl⟩ := Prod.mk.inj heq
      exact ⟨r.1, (Path.ofString_injective hpath).symm, hr⟩
    · rintro ⟨mounted, rfl, hmem⟩
      exact List.mem_map.2 ⟨_, hmem, rfl⟩
  · simp only [← hother.exists_mem_toList_iff hundotted, List.forall_mem_map, Prod.forall,
      forall_exists_index]

/-- What a mount leaves: the mounted paths in the group, and the survivors. -/
theorem paths_mount (hother : other.Built) (hundotted : other.Undotted) :
    (registry.mount group other).paths
      = (fun mounted => group ++ "." ++ mounted) '' other.paths
        ∪ registry.survivors group other := by
  ext path
  simp only [mem_paths, Option.isSome_iff_exists, get?_mount_iff group hother hundotted,
    Set.mem_union, Set.mem_image, survivors]
  grind

theorem size_mount (hregistry : registry.Built) (hother : other.Built)
    (hundotted : other.Undotted) :
    (registry.mount group other).size = other.size + (registry.survivors group other).encard := by
  have hinjective : Function.Injective fun mounted => group ++ "." ++ mounted := by
    intro mounted mounted' heq
    have hchars := congrArg String.toList heq
    simp only [String.toList_append] at hchars
    exact String.toList_injective (List.append_cancel_left hchars)
  have hdisjoint : Disjoint ((fun mounted => group ++ "." ++ mounted) '' other.paths)
      (registry.survivors group other) := by
    refine Set.disjoint_left.2 ?_
    rintro _ ⟨mounted, hmounted, rfl⟩ hsurvives
    exact hsurvives.2 mounted hmounted (.refl _)
  rw [← (hregistry.mount group hother).encard_paths, paths_mount group hother hundotted,
    Set.encard_union_eq hdisjoint, hinjective.encard_image, hother.encard_paths]

theorem mount_of_isEmpty (h : other.isEmpty) : registry.mount group other = registry := by
  have hnone : other.registered = [] := by
    rw [← List.length_eq_zero_iff, ← size_eq]
    exact of_decide_eq_true h
  rw [mount_eq, toList_eq, hnone]
  rfl

end Mount

/-- After a mount there are the actions of the other registry at their paths in the group, the
actions that were at paths aside from all of those, and no more, as the size says too. Mounting an
empty registry changes nothing. -/
theorem mount_lawful (registry other : Registry) (group : String) (hregistry : registry.Built)
    (hother : other.Built) (hundotted : other.Undotted) :
    (∀ path a, (registry.mount group other).get? (Path.ofString path) = some a
        ↔ (∃ mounted, path = group ++ "." ++ mounted
            ∧ other.get? (Path.ofString mounted) = some a)
          ∨ registry.get? (Path.ofString path) = some a ∧ ∀ mounted ∈ other.paths,
            ¬(Path.ofString (group ++ "." ++ mounted)).Comparable (Path.ofString path))
      ∧ (registry.mount group other).size
        = other.size + (registry.survivors group other).encard
      ∧ (other.isEmpty → registry.mount group other = registry) :=
  ⟨fun _ _ => get?_mount_iff group hother hundotted,
    size_mount group hregistry hother hundotted, mount_of_isEmpty group⟩

/-- A group in the place of an action of the same name, and beside another action. -/
theorem mount_lawful_of_door :
    let registry := (empty.insert (Path.ofString "door") default).insert (Path.ofString "idle")
      default
    let other := (empty.insert (Path.ofString "open") default).insert
      (Path.ofString "lock.engage") default
    registry.Built ∧ other.Built ∧ other.Undotted
      ∧ (registry.mount "door" other).get? (Path.ofString ("door" ++ "." ++ "lock.engage"))
        = some default
      ∧ (registry.mount "door" other).get? (Path.ofString "idle") = some default
      ∧ registry.survivors "door" other = {"idle"}
      ∧ (registry.mount "door" other).size = 3 := by
  intro registry other
  have hregistry : registry.Built := (Built.empty.insert "door" default).insert "idle" default
  have hother : other.Built := (Built.empty.insert "open" default).insert "lock.engage" default
  have hundotted : other.Undotted :=
    (undotted_empty.insert (by decide) default).insert (by decide) default
  obtain ⟨hpaths, hsize, -⟩ := mount_lawful registry other "door" hregistry hother hundotted
  have haside : ∀ mounted ∈ other.paths,
      ¬(Path.ofString ("door" ++ "." ++ mounted)).Comparable (Path.ofString "idle") := by
    intro mounted _
    rw [Path.Comparable, Path.segments_ofString_append_dot,
      show (Path.ofString "door").segments = ["door"] by rfl,
      show (Path.ofString "idle").segments = ["idle"] by rfl]
    simp
  have hsurvivors : registry.survivors "door" other = {"idle"} := by
    ext path
    constructor
    · rintro ⟨hpath, hapart⟩
      have hcases : path = "idle" ∨ path = "door" := by
        simp only [registry, paths_insert, paths_empty, Set.mem_insert_iff, Set.mem_sdiff] at hpath
        tauto
      refine hcases.resolve_right fun hdoor => hapart "open" rfl (.inr ?_)
      rw [hdoor, Path.segments_ofString_append_dot]
      exact List.prefix_append _ _
    · rintro rfl
      exact ⟨rfl, haside⟩
  refine ⟨hregistry, hother, hundotted, (hpaths _ _).2 (.inl ⟨"lock.engage", rfl, rfl⟩),
    (hpaths _ _).2 (.inr ⟨rfl, haside⟩), hsurvivors, ?_⟩
  have htwo : other.size = 2 := by decide +kernel
  rw [hsurvivors, htwo, Set.encard_singleton] at hsize
  exact_mod_cast hsize

end Registry

end BehaviorTree
