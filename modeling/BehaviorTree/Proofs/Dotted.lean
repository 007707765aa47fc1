import BehaviorTree.Proofs.Registrations
import Mathlib.Data.List.Basic
import Mathlib.Data.String.Basic

/-!
# Paths as texts

A path that is read from a text is split at every dot (`Path.isSplit_ofString`), and its text is the
one that it was read from (`Path.text_ofString`, `Path.ofString_text`). A text with another in front
of it and a dot in between has the segments of both (`Path.segments_ofString_append_dot`). Paths in
the order of their segments have texts in order if no character in them comes before the dot
(`Path.lt_of_segments_lt`); with others a text may come before that of an earlier path.
-/

namespace BehaviorTree

namespace Path

/-- The segments with a dot between each and the next. -/
def text (path : Path) : String :=
  ".".intercalate path.segments

/-- Whether no segment has a dot in it. -/
def IsSplit (path : Path) : Prop :=
  ∀ segment ∈ path.segments, '.' ∉ segment.toList

/-- A path with one more segment before the others. -/
def under (name : String) (path : Path) : Path :=
  ⟨name, path.segments⟩

@[simp] theorem segments_under (name : String) (path : Path) :
    (path.under name).segments = name :: path.segments :=
  rfl

theorem segments_ne_nil (path : Path) : path.segments ≠ [] :=
  List.cons_ne_nil _ _

theorem under_injective (name : String) : Function.Injective (under name) := fun _ _ h =>
  segments_injective (congrArg Path.tail h)

theorem IsSplit.under {name : String} (hname : '.' ∉ name.toList) {path : Path}
    (h : path.IsSplit) : (path.under name).IsSplit :=
  List.forall_mem_cons.2 ⟨hname, h⟩

theorem segments_ofString (text : String) :
    (ofString text).segments = (text.toList.splitOn '.').map String.ofList := by
  unfold ofString
  cases h : text.toList.splitOn '.' with
  | nil => exact absurd h (List.splitOn_ne_nil _ _)
  | cons segment rest => rfl

/-- The pieces of a text that is split at a character have all other characters of it, and not that
one. -/
theorem mem_of_mem_splitOn {sep c : Char} : ∀ {chars piece : List Char},
    piece ∈ chars.splitOn sep → c ∈ piece → c ∈ chars ∧ c ≠ sep
  | [], piece, h, hc => by
    rw [List.splitOn_nil, List.mem_singleton] at h
    simp [h] at hc
  | first :: chars, piece, h, hc => by
    have ih : ∀ {piece}, piece ∈ chars.splitOn sep → c ∈ piece → c ∈ chars ∧ c ≠ sep :=
      mem_of_mem_splitOn
    obtain ⟨next, more, hsplit⟩ := List.exists_cons_of_ne_nil (List.splitOn_ne_nil sep chars)
    rw [List.splitOn_cons_eq_if_modifyHead, hsplit] at h
    rw [hsplit] at ih
    split at h <;> rename_i hfirst
    · rcases List.mem_cons.1 h with rfl | h
      · exact absurd hc List.not_mem_nil
      · exact (ih h hc).imp_left (List.mem_cons_of_mem _)
    · rw [List.modifyHead_cons] at h
      rcases List.mem_cons.1 h with rfl | h
      · rcases List.mem_cons.1 hc with rfl | hc
        · exact ⟨List.mem_cons_self, by simpa using hfirst⟩
        · exact (ih List.mem_cons_self hc).imp_left (List.mem_cons_of_mem _)
      · exact (ih (List.mem_cons_of_mem _ h) hc).imp_left (List.mem_cons_of_mem _)

theorem mem_of_mem_segments {text segment : String} (h : segment ∈ (ofString text).segments)
    {c : Char} (hc : c ∈ segment.toList) : c ∈ text.toList ∧ c ≠ '.' := by
  rw [segments_ofString] at h
  obtain ⟨piece, hpiece, rfl⟩ := List.mem_map.1 h
  rw [String.toList_ofList] at hc
  exact mem_of_mem_splitOn hpiece hc

theorem isSplit_ofString (text : String) : (ofString text).IsSplit := fun _ hsegment hdot =>
  (mem_of_mem_segments hsegment hdot).2 rfl

/-- A text is that of the path that is read from it. -/
theorem text_ofString (text : String) : (ofString text).text = text := by
  apply String.toList_injective
  rw [Path.text, String.toList_intercalate, segments_ofString, List.map_map]
  have hmap : String.toList ∘ String.ofList = id := funext fun _ => String.toList_ofList
  rw [hmap, List.map_id]
  exact List.intercalate_splitOn '.'

/-- The path that is read from the text of a path, if no segment has a dot in it. -/
theorem ofString_text {path : Path} (h : path.IsSplit) : ofString path.text = path := by
  apply segments_injective
  rw [segments_ofString, Path.text, String.toList_intercalate]
  have hpieces : ∀ piece ∈ path.segments.map String.toList, '.' ∉ piece := by
    simpa [IsSplit] using h
  have hne : path.segments.map String.toList ≠ [] := by simp [segments_ne_nil]
  have hsplit : (List.intercalate ".".toList (path.segments.map String.toList)).splitOn '.' = _ :=
    List.splitOn_intercalate '.' hpieces hne
  rw [hsplit, List.map_map]
  have hmap : String.ofList ∘ String.toList = id := funext fun _ => String.ofList_toList
  rw [hmap, List.map_id]

theorem ofString_injective : Function.Injective ofString :=
  Function.LeftInverse.injective text_ofString

theorem segments_ofString_append_dot (group text : String) :
    (ofString (group ++ "." ++ text)).segments
      = (ofString group).segments ++ (ofString text).segments := by
  have hchars : (group ++ "." ++ text).toList = group.toList ++ '.' :: text.toList := by simp
  rw [segments_ofString, hchars, List.splitOn_append_cons_self, List.map_append,
    ← segments_ofString, ← segments_ofString]

theorem text_cons_cons (name next : String) (rest : List String) :
    text ⟨name, next :: rest⟩ = name ++ "." ++ text ⟨next, rest⟩ := by
  apply String.toList_injective
  simp [text, segments]

/-- Paths in a group are comparable as they are outside of it. -/
theorem comparable_append_dot (group text other : String) :
    (ofString (group ++ "." ++ text)).Comparable (ofString (group ++ "." ++ other))
      ↔ (ofString text).Comparable (ofString other) := by
  unfold Comparable
  simp only [segments_ofString_append_dot, List.prefix_append_right_inj]

section Order

/-- The text of a path goes on after the first segment with a dot, if it goes on. -/
theorem exists_toList_text (name : String) (rest : List String) :
    ∃ more, (text ⟨name, rest⟩).toList = name.toList ++ more ∧ ∀ c ∈ more.head?, c = '.' := by
  cases rest with
  | nil => exact ⟨[], by simp [text, segments], by simp⟩
  | cons next rest => exact ⟨'.' :: (text ⟨next, rest⟩).toList, by simp [text_cons_cons], by simp⟩

/-- What follows two names in order does not matter, if it starts with a dot and no character of the
names comes before that. -/
theorem append_lt_append {more others : List Char} (hmore : ∀ c ∈ more.head?, c = '.') :
    ∀ {name other : List Char}, name < other → (∀ c ∈ other, '.' < c) →
    name ++ more < other ++ others
  | name, [], h, _ => absurd h (List.not_lt_nil name)
  | [], c :: other, _, hother => by
    cases more with
    | nil => exact List.nil_lt_cons _ _
    | cons d more =>
      obtain rfl := hmore d rfl
      exact List.cons_lt_cons_iff.2 (.inl (hother c List.mem_cons_self))
  | c :: name, d :: other, h, hother => by
    rw [List.cons_append, List.cons_append, List.cons_lt_cons_iff]
    refine (List.cons_lt_cons_iff.1 h).imp_right fun ⟨heq, hlt⟩ => ⟨heq, ?_⟩
    exact append_lt_append hmore hlt fun c hc => hother c (List.mem_cons_of_mem _ hc)

theorem text_cons_lt_text_cons {name other : String} (rest more : List String)
    (h : name :: rest < other :: more)
    (hchars : ∀ segment ∈ other :: more, ∀ c ∈ segment.toList, '.' < c) :
    text ⟨name, rest⟩ < text ⟨other, more⟩ := by
  rcases List.cons_lt_cons_iff.1 h with hlt | ⟨rfl, hlt⟩
  · obtain ⟨tail, htext, htail⟩ := exists_toList_text name rest
    obtain ⟨tail', htext', -⟩ := exists_toList_text other more
    rw [String.lt_iff_toList_lt] at hlt ⊢
    rw [htext, htext']
    exact append_lt_append htail hlt (hchars other List.mem_cons_self)
  · cases more with
    | nil => exact absurd hlt (List.not_lt_nil rest)
    | cons next' more =>
      rw [text_cons_cons name next', String.lt_iff_toList_lt]
      cases rest with
      | nil =>
        have hnil : name.toList ++ [] < name.toList ++ '.' :: (text ⟨next', more⟩).toList :=
          List.append_left_lt (List.nil_lt_cons _ _)
        simpa [text, segments] using hnil
      | cons next rest =>
        have hrest : text ⟨next, rest⟩ < text ⟨next', more⟩ :=
          text_cons_lt_text_cons rest more hlt fun segment hsegment =>
            hchars segment (List.mem_cons_of_mem _ hsegment)
        simp only [text_cons_cons name next, String.toList_append]
        exact List.append_left_lt (String.lt_iff_toList_lt.1 hrest)

/-- Texts are in the order of their segments, if there is no character before the dot in the
second. -/
theorem lt_of_segments_lt {text other : String}
    (h : (ofString text).segments < (ofString other).segments)
    (hchars : ∀ c ∈ other.toList, '.' ≤ c) : text < other := by
  rw [← text_ofString text, ← text_ofString other]
  refine text_cons_lt_text_cons _ _ h fun segment hsegment c hc => ?_
  obtain ⟨hmem, hne⟩ := mem_of_mem_segments hsegment hc
  exact lt_of_le_of_ne (hchars c hmem) (Ne.symm hne)

end Order

end Path

end BehaviorTree
