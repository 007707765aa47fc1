import BehaviorTree.CompileError

/-!
# Places by their texts

The text of a place is the way to it from the root, index by index, and then the title
(`Place.text_eq`). A title may be any text, but the way ends at the first space, so a place is told
by its text (`Place.indices_eq_of_text_eq`).
-/

namespace BehaviorTree

theorem writeNat_injective {m n : Nat} (h : writeNat m = writeNat n) : m = n := by
  unfold writeNat at h
  rw [← @Nat.ofDigitChars_ten_toDigits m, h, Nat.ofDigitChars_ten_toDigits]

theorem isDigit_of_mem_writeNat {n : Nat} {c : Char} (h : c ∈ writeNat n) : c.isDigit :=
  Nat.isDigit_of_mem_toDigits (by decide) (by decide) h

namespace Place

/-- The text of a place: the way from the root by indices, and then the title if there is one. -/
theorem text_eq (place : Place) :
    place.text = "root" ++ String.join (place.indices.map fun i => "/" ++ toString i)
      ++ place.title.elim "" fun title => " (" ++ title ++ ")" := by
  have hway : ∀ (indices : List Nat) (start : String),
      indices.foldl (fun way i => way ++ "/" ++ String.ofList (writeNat i)) start
        = start ++ String.join (indices.map fun i => "/" ++ toString i) := by
    intro indices
    induction indices with
    | nil => simp
    | cons i rest ih =>
      intro start
      rw [List.foldl_cons, ih, List.map_cons, String.join_cons]
      simp only [String.append_assoc]
      rfl
  unfold text
  rw [hway]
  cases place.title <;> simp [String.append_assoc]

/-- Texts that go on at a character that is not in their first parts agree part by part. -/
theorem eq_of_append_eq {stop : Char} : ∀ {a b u v : List Char}, stop ∉ a → stop ∉ b →
    (∀ c ∈ u.head?, c = stop) → (∀ c ∈ v.head?, c = stop) → a ++ u = b ++ v → a = b ∧ u = v
  | [], [], u, v, _, _, _, _, h => ⟨rfl, h⟩
  | [], c :: b, u, v, _, hb, hu, _, h => by
    rw [List.nil_append] at h
    have := hu c (by rw [h]; rfl)
    simp [this] at hb
  | c :: a, [], u, v, ha, _, _, hv, h => by
    rw [List.nil_append] at h
    have := hv c (by rw [← h]; rfl)
    simp [this] at ha
  | c :: a, c' :: b, u, v, ha, hb, hu, hv, h => by
    obtain ⟨rfl, hrest⟩ := List.cons.inj h
    obtain ⟨rfl, heq⟩ := eq_of_append_eq (fun h => ha (List.mem_cons_of_mem _ h))
      (fun h => hb (List.mem_cons_of_mem _ h)) hu hv hrest
    exact ⟨rfl, heq⟩

/-- The way to a node, as its place is written. -/
def way (indices : List Nat) : List Char :=
  indices.flatMap fun i => '/' :: writeNat i

theorem way_injective : ∀ {p q : List Nat}, way p = way q → p = q
  | [], [], _ => rfl
  | i :: p, j :: q, h => by
    have hslash : ∀ n, '/' ∉ writeNat n := fun n h => absurd (isDigit_of_mem_writeNat h) (by decide)
    have hhead : ∀ l, ∀ c ∈ (way l).head?, c = '/' := fun l => by
      cases l <;> simp [way]
    simp only [way, List.flatMap_cons, List.cons_append, List.cons.injEq, true_and] at h
    obtain ⟨hdigits, hrest⟩ := eq_of_append_eq (hslash i) (hslash j) (hhead p) (hhead q) h
    rw [writeNat_injective hdigits, way_injective hrest]

/-- A place is written like that of no other node, whatever the titles are: there is no space in
the way to a node. -/
theorem indices_eq_of_text_eq {place other : Place} (h : place.text = other.text) :
    place.indices = other.indices := by
  have hspace : ∀ indices, ' ' ∉ way indices := fun indices h => by
    obtain ⟨i, -, hi⟩ := List.mem_flatMap.1 h
    rcases List.mem_cons.1 hi with h | h
    · exact absurd h (by decide)
    · exact absurd (isDigit_of_mem_writeNat h) (by decide)
  have hindex : ∀ i : Nat, ("/" ++ toString i).toList = '/' :: writeNat i := fun i => by
    simp [writeNat]
  have htext : ∀ place : Place, place.text.toList
      = "root".toList ++ (way place.indices
        ++ (place.title.elim "" fun title => " (" ++ title ++ ")").toList) := fun place => by
    rw [text_eq, String.toList_append, String.toList_append, String.toList_join,
      List.append_assoc, List.flatMap_map]
    simp only [hindex, way]
  have hhead : ∀ title : Option String,
      ∀ c ∈ (title.elim "" fun title => " (" ++ title ++ ")").toList.head?, c = ' ' := by
    rintro (_ | title) <;> simp
  have := congrArg String.toList h
  rw [htext, htext] at this
  have := List.append_cancel_left this
  exact way_injective (eq_of_append_eq (hspace _) (hspace _) (hhead _) (hhead _) this).1

end Place

end BehaviorTree
