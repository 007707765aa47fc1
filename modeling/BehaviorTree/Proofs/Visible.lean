import BehaviorTree.Proofs.Writes

/-!
# A chain of frames as one map

Seen through a scope, the frames of its chain are one table: every name has the value of the
nearest frame that declares it (`Store.find?_visible`). A write to the owner of a name, or to the
innermost frame if nobody owns it, is a write to that table (`Store.visible_write`), so a scope
reads and writes like the map of what is visible (`scope_acts_as_view`). Below a variable it leaves
both to the value of the variable (`Store.get?_append_dot`, `Store.set_append_dot`).
-/

namespace BehaviorTree

namespace Path

/-- The first segment ends at the first dot, and the others are those of what follows it. -/
theorem ofString_append_dot {name : String} (hname : '.' ∉ name.toList) (rest : String) :
    ofString (name ++ "." ++ rest) = ⟨name, (ofString rest).segments⟩ := by
  have hsplit : (name ++ "." ++ rest).toList.splitOn '.'
      = name.toList :: rest.toList.splitOn '.' := by
    rw [← List.splitOn_append_cons_self_of_not_mem hname]
    simp
  unfold ofString
  rw [hsplit]
  cases hrest : rest.toList.splitOn '.' with
  | nil => exact absurd hrest (List.splitOn_ne_nil _ _)
  | cons segment more => simp [segments]

theorem ofString_of_not_mem {name : String} (hname : '.' ∉ name.toList) :
    ofString name = ⟨name, []⟩ := by
  unfold ofString
  rw [List.splitOn_eq_singleton hname]
  simp

end Path

namespace Table

variable {α : Type}

/-- A table over another: its entries, and those of the other under names that it lacks. -/
def overlay (inner outer : Table α) : Table α :=
  inner.entries.foldl (fun table entry => table.insert entry.1 entry.2) outer

theorem find?_foldl_insert (name : String) : ∀ {entries : Entries α}, entries.Ordered →
    ∀ outer : Table α,
    (entries.foldl (fun table entry => table.insert entry.1 entry.2) outer).find? name
      = (entries.find? name).or (outer.find? name)
  | [], _, _ => rfl
  | (key, value) :: rest, h, outer => by
    have ih := find?_foldl_insert name (List.pairwise_cons.1 h).2 (outer.insert key value)
    have htail : Entries.find? name rest = _ := h.find?_tail name
    rw [List.foldl_cons, ih, Table.insert, find?_alter, htail]
    by_cases heq : name = key
    · rw [heq, if_pos (String.le_refl key), if_pos rfl, Entries.find?_cons_self]
      rfl
    · rw [if_neg heq]
      split
      · rename_i hle
        have hlt : name < key := by
          refine Classical.byContradiction fun hnot => heq ?_
          exact String.le_antisymm hle (String.not_lt.1 hnot)
        rw [Entries.find?_cons_of_lt hlt]
      · rfl

theorem find?_overlay (inner outer : Table α) (name : String) :
    (inner.overlay outer).find? name = (inner.find? name).or (outer.find? name) :=
  find?_foldl_insert name inner.ordered outer

end Table

namespace Store

/-- What is visible through a chain of frames: each frame lies over those around it. -/
def visibleIn (store : Store) : List FrameId → Table Value
  | [] => .empty
  | id :: outer => (store.frame id).overlay (store.visibleIn outer)

def visible (store : Store) (scope : Scope) : Table Value :=
  store.visibleIn scope.frames

/-- What is visible through a scope, as a map. -/
def view (store : Store) (scope : Scope) : Value :=
  .map (store.visible scope).entries

theorem find?_visibleIn (store : Store) (name : String) : ∀ frames : List FrameId,
    (store.visibleIn frames).find? name
      = (frames.find? fun id => (store.frame id).contains name).bind
        fun id => (store.frame id).find? name
  | [] => rfl
  | id :: outer => by
    rw [visibleIn, Table.find?_overlay, List.find?_cons, find?_visibleIn store name outer]
    cases hfound : (store.frame id).find? name with
    | none => simp [Table.contains, hfound]
    | some value => simp [Table.contains, hfound]

theorem find?_visible (store : Store) (scope : Scope) (name : String) :
    (store.visible scope).find? name
      = (store.owner? scope name).bind fun id => (store.frame id).find? name :=
  store.find?_visibleIn name scope.frames

theorem get?_eq_view (store : Store) (scope : Scope) (path : Path) :
    store.get? scope path = (store.view scope).get? path := by
  have hview : (store.view scope).get? path
      = ((store.visible scope).find? path.head).bind (Value.getAt path.tail) := rfl
  rw [hview, find?_visible, Option.bind_assoc]
  rfl

/-- Below a variable a scope reads what the value of the variable does. -/
theorem get?_append_dot (store : Store) (scope : Scope) {name : String}
    (hname : '.' ∉ name.toList) (rest : String) :
    store.get? scope (Path.ofString (name ++ "." ++ rest))
      = (store.get? scope (Path.ofString name)).bind
        fun root => root.get? (Path.ofString rest) := by
  rw [Path.ofString_append_dot hname, Path.ofString_of_not_mem hname]
  unfold get? read?
  rw [Option.bind_assoc]
  refine congrArg _ (funext fun id => ?_)
  rw [Option.bind_assoc]
  rfl

/-- Two writes to a variable are the same if they make the same of its value. -/
theorem write_congr {store : Store} {id : FrameId} {name : String} {tail tail' : List String}
    {value value' : Value}
    (h : Value.putAt value tail (((store.frame id).find? name).getD .null)
      = Value.putAt value' tail' (((store.frame id).find? name).getD .null)) :
    store.write id ⟨name, tail⟩ value = store.write id ⟨name, tail'⟩ value' := by
  unfold write
  refine congrArg Store.mk (Array.ext (by simp) fun i hi _ => ?_)
  rw [Array.getElem_modify, Array.getElem_modify]
  split
  · rename_i hid
    subst hid
    rw [Array.size_modify] at hi
    have hframe : store.frame id = store.frames[id] := by
      simp [frame, Array.getD_eq_getD_getElem?, hi]
    rw [hframe] at h
    refine Table.ext_find? fun other => ?_
    simp only [Table.find?_alter, h]
  · rfl

variable {store : Store} {scope : Scope} {path : Path}

/-- Where a path is written to: at the owner of its variable, or else in the innermost frame. -/
def target (store : Store) (scope : Scope) (path : Path) : FrameId :=
  (store.owner? scope path.head).getD scope.frame

theorem find?_target (store : Store) (scope : Scope) (path : Path) :
    (store.frame (store.target scope path)).find? path.head
      = (store.owner? scope path.head).bind fun id => (store.frame id).find? path.head := by
  unfold target
  cases howner : store.owner? scope path.head with
  | some id => rfl
  | none =>
    have hlacks := owner?_eq_none_iff.1 howner scope.frame List.mem_cons_self
    simpa [Table.contains] using hlacks

/-- Below a variable a scope writes what inserting into the value of the variable does. -/
theorem set_append_dot (store : Store) (scope : Scope) {name : String}
    (hname : '.' ∉ name.toList) (rest : String) (value : Value) :
    store.set scope (Path.ofString (name ++ "." ++ rest)) value
      = store.set scope (Path.ofString name)
        (((store.get? scope (Path.ofString name)).getD .null).insert (Path.ofString rest)
          value) := by
  rw [Path.ofString_append_dot hname, Path.ofString_of_not_mem hname]
  have hold : store.get? scope ⟨name, []⟩
      = (store.frame (store.target scope ⟨name, []⟩)).find? name := by
    rw [store.find?_target scope ⟨name, []⟩]
    unfold get? read?
    simp [Value.getAt]
  rw [hold]
  exact write_congr rfl

theorem owner?_write_of_ne {name : String} (hname : name ≠ path.head) (id : FrameId)
    (value : Value) :
    (store.write id path value).owner? scope name = store.owner? scope name := by
  have hsame : ∀ other, ((store.write id path value).frame other).contains name
      = (store.frame other).contains name := fun other => by
    rw [Bool.eq_iff_iff, contains_write]
    simp [hname]
  unfold owner?
  simp only [hsame]

/-- The frame that a variable is written to is its owner from then on. -/
theorem owner?_write_self (hid : store.target scope path < store.frames.size) (value : Value) :
    (store.write (store.target scope path) path value).owner? scope path.head
      = some (store.target scope path) := by
  unfold target at hid ⊢
  cases howner : store.owner? scope path.head with
  | some id =>
    obtain ⟨-, hhas⟩ := contains_of_owner? howner
    have hsame : ∀ other, ((store.write id path value).frame other).contains path.head
        = (store.frame other).contains path.head := fun other => by
      rw [Bool.eq_iff_iff]
      exact contains_write_of_contains hhas
    rw [Option.getD_some, ← howner]
    unfold owner?
    simp only [hsame]
  | none =>
    rw [howner] at hid
    have hhas : ((store.write scope.frame path value).frame scope.frame).contains path.head :=
      contains_write.2 (.inl ⟨rfl, hid, rfl⟩)
    unfold owner? Scope.frames
    rw [Option.getD_none, List.find?_cons, hhas]

theorem visible_write (hid : store.target scope path < store.frames.size) (value : Value) :
    (store.write (store.target scope path) path value).visible scope
      = (store.visible scope).alter path.head fun old =>
        Value.putAt value path.tail (old.getD .null) := by
  refine Table.ext_find? fun name => ?_
  rw [Table.find?_alter, find?_visible]
  by_cases hname : name = path.head
  · have hold : (store.frame (store.target scope path)).find? path.head
        = (store.visible scope).find? path.head := by
      rw [find?_visible, find?_target]
    rw [hname, if_pos rfl, owner?_write_self hid, Option.bind_some, frame_write hid, if_pos rfl,
      Table.find?_alter, if_pos rfl, hold]
  · rw [if_neg hname, find?_visible, owner?_write_of_ne hname]
    refine congrArg _ (funext fun other => ?_)
    rw [frame_write hid]
    split
    · rename_i hother
      rw [Table.find?_alter, if_neg hname, hother]
    · rfl

theorem view_write (hid : store.target scope path < store.frames.size) (value : Value) :
    (store.write (store.target scope path) path value).view scope
      = (store.view scope).insert path value := by
  unfold view
  rw [visible_write hid]
  rfl

theorem target_lt_size (hscope : scope.frame < store.frames.size) :
    store.target scope path < store.frames.size := by
  unfold target
  cases howner : store.owner? scope path.head with
  | some id => exact lt_size_of_contains (contains_of_owner? howner).2
  | none => exact hscope

/-- A modification whose body asks for nothing puts a value where there is one. -/
theorem perform_modify_finish {Handle : Type} (resolve : Handle → Scope)
    (f : Value → Value × Value) :
    store.perform resolve scope (.modify path fun old => .finish (f old).1 (f old).2)
      = match store.get? scope path with
        | none => (none, store)
        | some old => (some (f old).2, store.write (store.target scope path) path (f old).1) := by
  rw [perform]
  unfold get? target
  cases store.owner? scope path.head with
  | none => rfl
  | some id =>
    simp only [Option.bind_some]
    cases store.read? id path with
    | none => rfl
    | some old => rfl

end Store

/-- A scope acts as the map that gives every name the value of the nearest frame declaring it: it
is read like that map, a `set` is an insertion into it, and a modification by a function that asks
for nothing inserts what the function gives, or does nothing where there is nothing to modify. -/
theorem scope_acts_as_view (store : Store) (scope : Scope) (path : Path)
    (hscope : scope.frame < store.frames.size) :
    (∀ name, (store.view scope).get? ⟨name, []⟩
        = (store.owner? scope name).bind fun id => (store.frame id).find? name)
      ∧ store.get? scope path = (store.view scope).get? path
      ∧ (∀ value, (store.set scope path value).view scope = (store.view scope).insert path value)
      ∧ ∀ (Handle : Type) (resolve : Handle → Scope) (f : Value → Value × Value),
        ((store.view scope).get? path = none →
          store.perform resolve scope (.modify path fun old => .finish (f old).1 (f old).2)
            = (none, store))
        ∧ ∀ old, (store.view scope).get? path = some old →
          ∃ later,
            store.perform resolve scope (.modify path fun old => .finish (f old).1 (f old).2)
              = (some (f old).2, later)
            ∧ later.view scope = (store.view scope).insert path (f old).1 := by
  have hid : store.target scope path < store.frames.size := Store.target_lt_size hscope
  refine ⟨fun name => ?_, store.get?_eq_view scope path, fun value => Store.view_write hid value,
    fun Handle resolve f => ?_⟩
  · rw [← store.find?_visible]
    simp [Store.view, Value.get?, Path.segments, Value.getAt, Value.entries, Table.find?]
  · rw [← store.get?_eq_view, Store.perform_modify_finish]
    refine ⟨fun hnone => by rw [hnone], fun old hold => ?_⟩
    rw [hold]
    exact ⟨_, rfl, Store.view_write hid _⟩

/-- A variable that hides another of its name, next to one that no path can read. -/
theorem scope_acts_as_view_of_two :
    let outer : Table Value := .ofList [("a", .null), ("b.c", .null)]
    let store : Store := ⟨#[outer, .ofList [("a", .bool true)]]⟩
    let scope : Scope := ⟨1, [0]⟩
    scope.frame < store.frames.size
      ∧ (store.set scope (Path.ofString "a.d") (.bool false)).view scope
        = .map [("a", .map [("d", .bool false)]), ("b.c", .null)] := by
  intro outer store scope
  have hscope : scope.frame < store.frames.size := by decide
  obtain ⟨-, -, hset, -⟩ := scope_acts_as_view store scope (Path.ofString "a.d") hscope
  refine ⟨hscope, (hset (.bool false)).trans ?_⟩
  have hpath : Path.ofString "a.d" = ⟨"a", ["d"]⟩ := by decide
  rw [hpath]
  rfl

end BehaviorTree
