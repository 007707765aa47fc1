import BehaviorTree.Proofs.Tables
import BehaviorTree.Scope

/-!
# What requests write

A write to a frame adds at most the name that its path starts with (`Store.contains_write`), so
names that have come up stay (`Store.perform_grows`). A request writes in two ways: a `set` goes to
the owner of the name, or else makes the name in the innermost frame; and a modification puts back
at an owner. What both preserve, any request preserves, whatever the bodies of its modifications
ask for in between (`Store.perform_preserves`).
-/

namespace BehaviorTree

namespace Store

theorem frame_write {store : Store} {id : FrameId} (hid : id < store.frames.size) (path : Path)
    (value : Value) (other : FrameId) :
    (store.write id path value).frame other
      = if other = id then
          (store.frame id).alter path.head fun old =>
            Value.putAt value path.tail (old.getD .null)
        else store.frame other := by
  by_cases hother : other = id
  · subst hother
    simp [Store.write, Store.frame, Array.getD_eq_getD_getElem?, hid, Array.getElem_modify]
  · simp [Store.write, Store.frame, Array.getD_eq_getD_getElem?, Array.getElem?_modify,
      Ne.symm hother, hother]

theorem write_of_le {store : Store} {id : FrameId} (hid : store.frames.size ≤ id) (path : Path)
    (value : Value) : store.write id path value = store := by
  unfold write
  have h : ∀ f, store.frames.modify id f = store.frames := fun f => by
    apply Array.ext_getElem?
    intro i
    rw [Array.getElem?_modify]
    split
    · rename_i heq
      subst heq
      simp [hid]
    · rfl
  rw [h]

theorem lt_size_of_contains {store : Store} {id : FrameId} {name : String}
    (h : (store.frame id).contains name) : id < store.frames.size := by
  refine Nat.lt_of_not_le fun hid => ?_
  have : store.frame id = Table.empty := by
    simp [frame, Array.getD_eq_getD_getElem?, hid]
  rw [this] at h
  cases h

theorem contains_write {store : Store} {id other : FrameId} {path : Path} {value : Value}
    {name : String} : ((store.write id path value).frame other).contains name
      ↔ (other = id ∧ id < store.frames.size ∧ name = path.head)
        ∨ (store.frame other).contains name := by
  by_cases hid : id < store.frames.size
  · rw [frame_write hid]
    split
    · rename_i heq
      rw [Table.contains_alter, heq]
      simp [hid]
    · rename_i hne
      simp [hne]
  · rw [write_of_le (Nat.not_lt.1 hid)]
    simp [hid]

/-- A frame that has the name keeps the names that it has. -/
theorem contains_write_of_contains {store : Store} {id other : FrameId} {path : Path}
    {value : Value} {name : String} (h : (store.frame id).contains path.head) :
    ((store.write id path value).frame other).contains name
      ↔ (store.frame other).contains name := by
  rw [contains_write]
  refine ⟨fun h' => ?_, .inr⟩
  rcases h' with ⟨heq, -, hname⟩ | h'
  · rw [heq, hname]
    exact h
  · exact h'

theorem owner?_eq_none_iff {store : Store} {scope : Scope} {name : String} :
    store.owner? scope name = none ↔ ∀ id ∈ scope.frames, ¬(store.frame id).contains name :=
  List.find?_eq_none

theorem contains_of_owner? {store : Store} {scope : Scope} {name : String} {id : FrameId}
    (h : store.owner? scope name = some id) :
    id ∈ scope.frames ∧ (store.frame id).contains name := by
  refine ⟨List.mem_of_find?_eq_some h, ?_⟩
  have := List.find?_some h
  exact this

/-- What a `set` writes, at an owner or else in the innermost frame, under a name that nobody
around it has. -/
theorem set_eq (store : Store) (scope : Scope) (path : Path) (value : Value) :
    ∃ id ∈ scope.frames, store.set scope path value = store.write id path value
      ∧ ((store.frame id).contains path.head
        ∨ id = scope.frame ∧ ∀ other ∈ scope.frames, ¬(store.frame other).contains path.head) := by
  unfold set
  cases howner : store.owner? scope path.head with
  | some id =>
    obtain ⟨hmem, hhas⟩ := contains_of_owner? howner
    exact ⟨id, hmem, rfl, .inl hhas⟩
  | none =>
    exact ⟨scope.frame, List.mem_cons_self, rfl, .inr ⟨rfl, owner?_eq_none_iff.1 howner⟩⟩

/-- Names that frames declare stay. -/
def Grows (store later : Store) : Prop :=
  ∀ id name, (store.frame id).contains name → (later.frame id).contains name

theorem grows_write (store : Store) (id : FrameId) (path : Path) (value : Value) :
    store.Grows (store.write id path value) :=
  fun _ _ h => contains_write.2 (.inr h)

/-- What sets through some scopes preserve, and writes to frames that have the name already. -/
structure Stable (scopes : Scope → Prop) (P : Store → Prop) : Prop where
  set : ∀ scope, scopes scope → ∀ store path value, P store → P (store.set scope path value)
  putBack : ∀ store id path value, (store.frame id).contains path.head → P store →
    P (store.write id path value)

variable {Handle : Type}

mutual

theorem perform_grows (resolve : Handle → Scope) : ∀ (request : Request Handle) (scope : Scope)
    (store : Store), store.Grows (store.perform resolve scope request).2
  | .get _, _, _ => fun _ _ => id
  | .set path value, scope, store => by
    rw [perform]
    exact store.grows_write _ path value
  | .modify path body, scope, store => by
    rw [perform]
    split
    · exact fun _ _ => id
    · split
      · exact fun _ _ => id
      · rename_i old _
        intro other name h
        exact grows_write _ _ path _ other name
          (finish_grows resolve (body old) store other name h)
  | .declares _, _, _ => fun _ _ => id
  | .defines _, _, _ => fun _ _ => id
  | .names, _, _ => fun _ _ => id
  | .depth, _, _ => fun _ _ => id

theorem finish_grows (resolve : Handle → Scope) : ∀ (update : Update Handle) (store : Store),
    store.Grows (store.finish resolve update).2
  | .finish _ _, _ => fun _ _ => id
  | .ask handle request next, store => by
    intro other name h
    rw [finish]
    exact finish_grows resolve (next _) _ other name
      (perform_grows resolve request _ store other name h)

end

mutual

theorem perform_preserves {scopes : Scope → Prop} {P : Store → Prop} (hP : Stable scopes P)
    {resolve : Handle → Scope} (hresolve : ∀ handle, scopes (resolve handle)) :
    ∀ (request : Request Handle) (scope : Scope) (store : Store), scopes scope → P store →
      P (store.perform resolve scope request).2
  | .get _, _, _, _, h => h
  | .set path value, scope, store, hscope, h => by
    rw [perform]
    exact hP.set scope hscope store path value h
  | .modify path body, scope, store, _, h => by
    rw [perform]
    split
    · exact h
    · rename_i id howner
      split
      · exact h
      · rename_i old _
        -- the owner still has the name when the body comes to its end
        have hhas := finish_grows resolve (body old) store id path.head
          (contains_of_owner? howner).2
        exact hP.putBack _ id path _ hhas (finish_preserves hP hresolve (body old) store h)
  | .declares _, _, _, _, h => h
  | .defines _, _, _, _, h => h
  | .names, _, _, _, h => h
  | .depth, _, _, _, h => h

theorem finish_preserves {scopes : Scope → Prop} {P : Store → Prop} (hP : Stable scopes P)
    {resolve : Handle → Scope} (hresolve : ∀ handle, scopes (resolve handle)) :
    ∀ (update : Update Handle) (store : Store), P store → P (store.finish resolve update).2
  | .finish _ _, _, h => h
  | .ask handle request next, store, h => by
    rw [finish]
    exact finish_preserves hP hresolve (next _) _
      (perform_preserves hP hresolve request _ store (hresolve handle) h)

end

end Store

end BehaviorTree
