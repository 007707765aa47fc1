import BehaviorTree.Proofs.Registered
import Mathlib.Data.Set.Card

/-!
# How many actions a registry has

A registry is as large as the set of the paths at which it has an action
(`Registry.Built.encard_paths`), which is also how many actions it lists. An insertion takes away
every path that is comparable with its own and adds that one (`Registry.paths_insert`), so the size
goes up by one less the number of paths taken away (`Registry.size_lawful`).
-/

namespace BehaviorTree

namespace Registry

/-- The paths at which a registry has an action. -/
def paths (registry : Registry) : Set String :=
  {path | (registry.get? (Path.ofString path)).isSome}

theorem mem_paths {registry : Registry} {path : String} :
    path ∈ registry.paths ↔ (registry.get? (Path.ofString path)).isSome :=
  Iff.rfl

@[simp]
theorem paths_empty : empty.paths = ∅ := by
  simp [paths]

theorem paths_insert (registry : Registry) (path : String) (a : Action) :
    (registry.insert (Path.ofString path) a).paths
      = Insert.insert path
        (registry.paths \ {other | (Path.ofString path).Comparable (Path.ofString other)}) := by
  ext other
  rw [mem_paths, get?_after_insert, Set.mem_insert_iff]
  by_cases hself : path = other
  · simp [hself]
  · have hne : Path.ofString path ≠ Path.ofString other := Path.ofString_injective.ne hself
    by_cases hcomparable : (Path.ofString path).Comparable (Path.ofString other) <;>
      simp [hne, Ne.symm hself, hcomparable, mem_paths]

section Built

variable {registry : Registry} (h : registry.Built)

include h

theorem Built.mem_paths_iff {path : String} :
    path ∈ registry.paths ↔ ∃ r ∈ registry.registered, r.1.text = path := by
  rw [mem_paths, h.isSome_get?_iff]
  constructor
  · exact fun ⟨a, ha⟩ => ⟨_, ha, Path.text_ofString path⟩
  · rintro ⟨r, hr, rfl⟩
    exact ⟨r.2, by rwa [Path.ofString_text (h.isSplit_of_mem hr)]⟩

theorem Built.nodup_texts : (registry.registered.map fun r => r.1.text).Nodup := by
  refine List.pairwise_map.2 (h.pairwise_registered.imp_of_mem fun {r s} hr hs hlt heq => ?_)
  have hsame : r.1 = s.1 := by
    rw [← Path.ofString_text (h.isSplit_of_mem hr), heq, Path.ofString_text (h.isSplit_of_mem hs)]
  rw [hsame] at hlt
  exact List.lt_irrefl _ hlt

/-- A registry is as large as the set of its paths. -/
theorem Built.encard_paths : registry.paths.encard = registry.size := by
  have hpaths : registry.paths
      = ((registry.registered.map fun r => r.1.text).toFinset : Set String) := by
    ext path
    rw [h.mem_paths_iff]
    simp
  rw [hpaths, Set.encard_coe_eq_coe_finsetCard, List.toFinset_card_of_nodup h.nodup_texts,
    List.length_map, size_eq]

theorem Built.finite_paths : registry.paths.Finite :=
  Set.finite_of_encard_eq_coe h.encard_paths

theorem Built.ncard_paths : registry.paths.ncard = registry.size := by
  rw [Set.ncard_def, h.encard_paths, ENat.toNat_natCast]

theorem Built.resolve_ofString_eq_isGroup_iff {path : String} :
    registry.resolve (Path.ofString path) = .error .isGroup
      ↔ ∃ other ∈ registry.paths,
        (Path.ofString path).segments <+: (Path.ofString other).segments ∧ path ≠ other := by
  rw [h.resolve_eq_isGroup_iff]
  constructor
  · rintro ⟨other, hother, hbegins, hne⟩
    obtain ⟨a, ha⟩ := h.isSome_get?_iff.1 hother
    have hsplit : Path.ofString other.text = other := Path.ofString_text (h.isSplit_of_mem ha)
    refine ⟨other.text, ?_, by rwa [hsplit], fun heq => hne (by rw [heq, hsplit])⟩
    rwa [mem_paths, hsplit]
  · rintro ⟨other, hother, hbegins, hne⟩
    exact ⟨_, hother, hbegins, fun heq => hne (Path.ofString_injective heq)⟩

theorem Built.size_insert (path : String) (a : Action) :
    (registry.insert (Path.ofString path) a).size
        + {other ∈ registry.paths | (Path.ofString path).Comparable (Path.ofString other)}.ncard
      = registry.size + 1 := by
  have hself : path ∉ registry.paths
      \ {other | (Path.ofString path).Comparable (Path.ofString other)} :=
    fun hmem => hmem.2 (.refl _)
  rw [← (h.insert path a).ncard_paths, paths_insert,
    Set.ncard_insert_of_notMem hself h.finite_paths.sdiff, ← h.ncard_paths,
    ← Set.ncard_inter_add_ncard_sdiff_eq_ncard registry.paths
      {other | (Path.ofString path).Comparable (Path.ofString other)} h.finite_paths]
  have hinter : {other ∈ registry.paths | (Path.ofString path).Comparable (Path.ofString other)}
      = registry.paths ∩ {other | (Path.ofString path).Comparable (Path.ofString other)} := rfl
  rw [hinter]
  omega

end Built

/-- A registry has as many actions as there are paths with one, and lists as many. A path leads to a
group exactly if it is the beginning of a longer path with an action, so no group is empty, and none
with an action is the beginning of another. An insertion adds one action and takes away those at its
path, beyond it, and on the way to it. -/
theorem size_lawful (registry : Registry) (h : registry.Built) :
    registry.paths.encard = registry.size
      ∧ registry.toList.length = registry.size
      ∧ (∀ path, registry.resolve (Path.ofString path) = .error .isGroup
        ↔ ∃ other ∈ registry.paths,
          (Path.ofString path).segments <+: (Path.ofString other).segments ∧ path ≠ other)
      ∧ (∀ path ∈ registry.paths, ∀ other ∈ registry.paths,
        (Path.ofString path).segments <+: (Path.ofString other).segments → path = other)
      ∧ ∀ path a, (registry.insert (Path.ofString path) a).size
          + {other ∈ registry.paths | (Path.ofString path).Comparable (Path.ofString other)}.ncard
        = registry.size + 1 := by
  refine ⟨h.encard_paths, ?_, fun _ => h.resolve_ofString_eq_isGroup_iff,
    fun path hpath other hother hbegins => ?_, h.size_insert⟩
  · rw [toList_eq, List.length_map, size_eq]
  · exact Path.ofString_injective (h.eq_of_begins hpath hother hbegins)

/-- A group in the place of an action, and an action in the place of the group. -/
theorem size_lawful_of_door :
    let registry := ((empty.insert (Path.ofString "door") default).insert
      (Path.ofString "door.lock.engage") default).insert (Path.ofString "door.open") default
    registry.Built ∧ registry.paths.encard = 2
      ∧ (∃ other ∈ registry.paths, (Path.ofString "door.lock").segments
          <+: (Path.ofString other).segments ∧ "door.lock" ≠ other)
      ∧ (registry.insert (Path.ofString "door") default).size = 1
      ∧ {other ∈ registry.paths | (Path.ofString "door").Comparable (Path.ofString other)}.ncard
        = 2 := by
  intro registry
  have hbuilt : registry.Built :=
    ((Built.empty.insert "door" default).insert "door.lock.engage" default).insert "door.open"
      default
  obtain ⟨hpaths, -, hgroup, -, hinsert⟩ := size_lawful registry hbuilt
  have hsize : registry.size = 2 := by decide +kernel
  have hafter : (registry.insert (Path.ofString "door") default).size = 1 := by decide +kernel
  have hcount := hinsert "door" default
  refine ⟨hbuilt, by rw [hpaths, hsize, Nat.cast_ofNat], (hgroup "door.lock").1 rfl, hafter, ?_⟩
  rw [hafter, hsize] at hcount
  omega

end Registry

end BehaviorTree
