import BehaviorTree.Proofs.Registrations
import BehaviorTree.Value

/-!
# What an insertion changes

After an insertion a value reads the inserted value at its path and below; above it, what was read
before with the insertion made into it; and aside from it, what was read before (`get?_insert`). As
whole values, the last of two insertions at a path counts, putting back what was read changes
nothing, insertions that lie aside from each other may be swapped, and a change in place is an
insertion wherever there is something to change (`insert_laws`).
-/

namespace BehaviorTree

namespace Entries

variable {α : Type} {name : String}

/-- An alteration depends on what it makes of the entry that it finds. -/
theorem alter_congr {f g : Option α → α} : ∀ {entries : Entries α},
    f (entries.find? name) = g (entries.find? name) → entries.alter name f = entries.alter name g
  | [], h => congrArg (fun value => [(name, value)]) h
  | (key, old) :: rest, h => by
    by_cases hlt : name < key
    · simp only [find?, alter, hlt, if_true] at h ⊢
      rw [h]
    · by_cases heq : name = key
      · subst heq
        simp only [find?, alter, hlt, if_false, if_true] at h ⊢
        rw [h]
      · simp only [find?, alter, hlt, heq, if_false] at h ⊢
        rw [alter_congr h]

/-- To put back what was found changes nothing. -/
theorem insert_of_find? {value : α} : ∀ {entries : Entries α}, entries.find? name = some value →
    entries.insert name value = entries
  | (key, old) :: rest, h => by
    by_cases hlt : name < key
    · simp [find?, hlt] at h
    · by_cases heq : name = key
      · subst heq
        simp only [find?, hlt, if_false, if_true, Option.some.injEq] at h
        simp only [insert, alter, hlt, if_false, if_true, h]
      · simp only [find?, hlt, heq, if_false] at h
        simp only [insert, alter, hlt, heq, if_false]
        exact congrArg _ (insert_of_find? h)

end Entries

namespace Value

/-- What stands under a name, or null if nothing does. -/
def child (value : Value) (name : String) : Value :=
  (value.entries.find? name).getD null

variable {name : String} {rest : List String}

theorem getAt_cons (hrest : rest ≠ []) (v : Value) :
    v.getAt (name :: rest) = (v.child name).getAt rest := by
  obtain ⟨next, more, rfl⟩ := List.exists_cons_of_ne_nil hrest
  rw [getAt, child]
  cases v.entries.find? name <;> rfl

theorem getD_getAt_cons (v : Value) (rest : List String) :
    (v.getAt (name :: rest)).getD null = ((v.child name).getAt rest).getD null := by
  rw [getAt, child]
  cases v.entries.find? name with
  | some old => rfl
  | none => cases rest <;> rfl

/-- Under the first segment of its path an insertion goes on in what stands there. -/
theorem getAt_putAt_cons_self (new : Value) (name : String) (p q : List String) (v : Value) :
    (putAt new (name :: p) v).getAt (name :: q) = (putAt new p (v.child name)).getAt q := by
  rw [putAt, getAt, entries, Entries.find?_alter_self, Option.bind_some, child]

theorem getAt_putAt_append (new : Value) : ∀ (p r : List String) (v : Value),
    (putAt new p v).getAt (p ++ r) = new.getAt r
  | [], _, _ => rfl
  | name :: p, r, v => by
    rw [List.cons_append, getAt_putAt_cons_self]
    exact getAt_putAt_append new p r _

/-- Above its path, the insertion is made into what was read. -/
theorem getAt_putAt_of_append (new : Value) : ∀ (q r : List String) (v : Value),
    (putAt new (q ++ r) v).getAt q = some (putAt new r ((v.getAt q).getD null))
  | [], _, _ => rfl
  | name :: q, r, v => by
    rw [List.cons_append, getAt_putAt_cons_self, getD_getAt_cons]
    exact getAt_putAt_of_append new q r _

theorem getAt_putAt_of_aside (new : Value) : ∀ {p q : List String}, ¬p <+: q → ¬q <+: p →
    ∀ v, (putAt new p v).getAt q = v.getAt q
  | [], _, h, _, _ => absurd List.nil_prefix h
  | _, [], _, h, _ => absurd List.nil_prefix h
  | name :: p, other :: q, h, h', v => by
    by_cases hname : name = other
    · subst hname
      rw [List.prefix_cons_inj] at h h'
      -- more of the other path follows, so where nothing stood it reads nothing in null either
      have hq : q ≠ [] := fun heq => h' (heq ▸ List.nil_prefix)
      rw [getAt_putAt_cons_self, getAt_cons hq]
      exact getAt_putAt_of_aside new h h' _
    · rw [getAt, getAt, putAt, entries, Entries.find?_alter_of_ne (Ne.symm hname)]

theorem putAt_putAt (x y : Value) : ∀ (p : List String) (v : Value),
    putAt y p (putAt x p v) = putAt y p v
  | [], _ => rfl
  | name :: p, v => by
    simp only [putAt, entries, Entries.alter_alter, Option.getD_some, putAt_putAt x y p]

theorem putAt_of_getAt {old : Value} : ∀ {p : List String} {v : Value}, v.getAt p = some old →
    putAt old p v = v
  | [], v, h => (Option.some.inj h).symm
  | name :: p, v, h => by
    obtain ⟨next, hnext, hold⟩ := Option.bind_eq_some_iff.1 h
    have hput : putAt old p next = next := putAt_of_getAt hold
    cases v with
    | map entries =>
      have hfound : Entries.find? name entries = some next := hnext
      rw [putAt, Value.entries, Entries.alter_congr (g := fun _ => next),
        ← Entries.insert, Entries.insert_of_find? hfound]
      rw [hfound, Option.getD_some, hput]
    | _ => cases hnext

/-- Insertions that lie aside from each other may be swapped, along what their paths share too. -/
theorem putAt_comm (x y : Value) : ∀ {p q : List String}, ¬p <+: q → ¬q <+: p →
    ∀ v, putAt y q (putAt x p v) = putAt x p (putAt y q v)
  | [], _, h, _, _ => absurd List.nil_prefix h
  | _, [], _, h, _ => absurd List.nil_prefix h
  | name :: p, other :: q, h, h', v => by
    by_cases hname : name = other
    · -- both alter one entry, and make the same maps on the way to where they part
      subst hname
      rw [List.prefix_cons_inj] at h h'
      simp only [putAt, entries, Entries.alter_alter, Option.getD_some, putAt_comm x y h h']
    · simp only [putAt, entries, Entries.alter_comm hname]

/-- A change in place is made where something is read, and there it is an insertion. -/
theorem changeAt?_eq (f : Value → Value) : ∀ (p : List String) (v : Value),
    v.changeAt? f p = (v.getAt p).map fun old => putAt (f old) p v
  | [], _ => rfl
  | name :: p, v => by
    rw [changeAt?, getAt]
    cases hfound : v.entries.find? name with
    | none => rfl
    | some next =>
      rw [Option.bind_some, Option.bind_some, changeAt?_eq f p next, Option.map_map]
      refine congrArg (Option.map · _) (funext fun old => congrArg map ?_)
      exact Entries.alter_congr (by rw [hfound, Option.getD_some])

/-- What is read at one path after an insertion at another: at the inserted path and below it, what
the inserted value says; above it, the old value, or null in the place of none, with the insertion
made at the segments that remain; and at a path that lies aside, what was read before, even if the
insertion went through something that was no map. -/
theorem get?_insert (w x : Value) (p q : Path) :
    (∀ r, q.segments = p.segments ++ r → (w.insert p x).get? q = x.getAt r)
      ∧ (∀ name rest, p.segments = q.segments ++ name :: rest →
        (w.insert p x).get? q = some (((w.get? q).getD .null).insert ⟨name, rest⟩ x))
      ∧ (¬p.Comparable q → (w.insert p x).get? q = w.get? q) := by
  unfold get? insert
  refine ⟨fun r hbelow => ?_, fun name rest habove => ?_, fun haside => ?_⟩
  · rw [hbelow]
    exact getAt_putAt_append x p.segments r w
  · rw [habove]
    exact getAt_putAt_of_append x q.segments (name :: rest) w
  · obtain ⟨hbefore, hbeyond⟩ := not_or.1 haside
    exact getAt_putAt_of_aside x hbefore hbeyond w

/-- A text stands in the way of an insertion, and the path ends in an empty segment. -/
theorem get?_insert_through_text :
    let w : Value := .map [("", .null), ("user", .str "old")]
    let later := w.insert (Path.ofString "user.age.") (.bool true)
    later.get? (Path.ofString "user.age.") = some (.bool true)
      ∧ later.get? (Path.ofString "user") = some (.map [("age", .map [("", .bool true)])])
      ∧ later.get? (Path.ofString "") = some .null := by
  intro w later
  have hpath : Path.ofString "user.age." = ⟨"user", ["age", ""]⟩ := by decide
  have habove : Path.ofString "user" = ⟨"user", []⟩ := by decide
  have haside : ¬(Path.ofString "user.age.").Comparable (Path.ofString "") := by decide
  refine ⟨(get?_insert w _ _ _).1 [] (List.append_nil _).symm, ?_, ?_⟩
  · refine ((get?_insert w _ _ _).2.1 "age" [""] ?_).trans ?_
    · rw [hpath, habove]
      rfl
    · rw [habove]
      rfl
  · rw [(get?_insert w _ _ _).2.2 haside]
    rfl

/-- Of two insertions at a path the last counts; to insert what is read there changes nothing;
insertions at paths that lie aside from each other leave the same value in either order; and a
change in place is made exactly where something is read, to what is read there, and is the insertion
of what it makes of it. -/
theorem insert_lawful (w x y : Value) (p q : Path) :
    (w.insert p x).insert p y = w.insert p y
      ∧ (∀ old, w.get? p = some old → w.insert p old = w)
      ∧ (¬p.Comparable q → (w.insert p x).insert q y = (w.insert q y).insert p x)
      ∧ ∀ f, w.change? p f = (w.get? p).map fun old => w.insert p (f old) := by
  refine ⟨putAt_putAt x y p.segments w, fun old hold => putAt_of_getAt hold, fun haside => ?_,
    fun f => changeAt?_eq f p.segments w⟩
  obtain ⟨hbefore, hbeyond⟩ := not_or.1 haside
  exact putAt_comm x y hbefore hbeyond w

/-- Two insertions make the map that their paths share, beside a key that no path reads. -/
theorem insert_lawful_of_shared :
    let w : Value := .map [("a.b", .null)]
    let p := Path.ofString "a.b"
    let q := Path.ofString "a.c"
    ¬p.Comparable q
      ∧ (w.insert p .null).insert q (.bool true) = (w.insert q (.bool true)).insert p .null
      ∧ (w.insert q (.bool true)).insert p .null
        = .map [("a", .map [("b", .null), ("c", .bool true)]), ("a.b", .null)] := by
  intro w p q
  have haside : ¬p.Comparable q := by decide
  have hp : p = ⟨"a", ["b"]⟩ := by decide
  have hq : q = ⟨"a", ["c"]⟩ := by decide
  refine ⟨haside, (insert_lawful w _ _ p q).2.2.1 haside, ?_⟩
  rw [hp, hq]
  rfl

end Value

end BehaviorTree
