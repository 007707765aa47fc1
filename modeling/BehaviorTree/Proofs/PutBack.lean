import BehaviorTree.Proofs.Audience
import BehaviorTree.Proofs.Insertions

/-!
# What a modification puts back

A write to a frame is an insertion into the map of its variables (`Store.read?_write_self`), so
what lies aside from its path reads as before, in the frame and through every handle that finds the
frame (`Store.read?_write_of_aside`, `Store.get?_write_of_aside`). A modification is one run of its
body, on what is read at its path, and then one such write to the frame that owned the variable
(`Store.perform_modify_of_some`). In a tree of frames that frame is still the owner when the body
comes to its end, so what the body leaves is read there, whatever else it wrote, and its other
effects stay (`modify_puts_back`).
-/

namespace BehaviorTree

namespace Store

variable {store : Store} {id : FrameId} {path q : Path}

/-- After a write a frame reads like the map of its variables with the value inserted. -/
theorem read?_write_self (hid : id < store.frames.size) (value : Value) (q : Path) :
    (store.write id path value).read? id q
      = (Value.putAt value path.segments (.map (store.frame id).entries)).getAt q.segments := by
  unfold read?
  rw [frame_write hid, if_pos rfl]
  rfl

theorem read?_write_of_aside (haside : ¬path.Comparable q) (value : Value) (other : FrameId) :
    (store.write id path value).read? other q = store.read? other q := by
  by_cases hid : id < store.frames.size
  · by_cases hother : other = id
    · obtain ⟨hbefore, hbeyond⟩ := not_or.1 haside
      rw [hother, read?_write_self hid, Value.getAt_putAt_of_aside value hbefore hbeyond]
      rfl
    · rw [read?, read?, frame_write hid, if_neg hother]
  · rw [write_of_le (Nat.not_lt.1 hid)]

theorem get?_write_of_aside (hhas : (store.frame id).contains path.head)
    (haside : ¬path.Comparable q) (value : Value) (reader : Scope) :
    (store.write id path value).get? reader q = store.get? reader q := by
  rw [get?, get?, owner?_write_of_contains hhas]
  exact congrArg _ (funext fun other => read?_write_of_aside haside value other)

theorem get?_write_self {scope : Scope} (howner : store.owner? scope path.head = some id)
    (value : Value) : (store.write id path value).get? scope path = some value := by
  have hhas := (contains_of_owner? howner).2
  rw [get?, owner?_write_of_contains hhas, howner, Option.bind_some,
    read?_write_self (lt_size_of_contains hhas)]
  simpa [Value.getAt] using Value.getAt_putAt_append value path.segments [] _

variable {Handle : Type} (resolve : Handle → Scope) (body : Value → Update Handle) {scope : Scope}

theorem perform_modify_of_none (h : store.get? scope path = none) :
    store.perform resolve scope (.modify path body) = (none, store)
      ∧ store.states resolve scope (.modify path body) = [store] := by
  rw [perform, states]
  cases howner : store.owner? scope path.head with
  | none => exact ⟨rfl, rfl⟩
  | some id =>
    have hnone : store.read? id path = none := by rwa [get?, howner, Option.bind_some] at h
    simp only [hnone, and_self]

theorem perform_modify_of_some {old : Value} (howner : store.owner? scope path.head = some id)
    (hold : store.read? id path = some old) :
    let ((new, reply), middle) := store.finish resolve (body old)
    store.perform resolve scope (.modify path body) = (some reply, middle.write id path new)
      ∧ store.states resolve scope (.modify path body)
        = store.statesOfBody resolve (body old) ++ [middle.write id path new] := by
  simp only [perform, states, howner, hold, and_self]

end Store

/-- Where nothing is read, a modification answers nothing and changes nothing, whatever its body is.
Otherwise the states that come up are those of one run of the body, on what is read, and the one
that a last write makes of what the body leaves: the body's value is put at the path, in the frame
that owned the variable at the beginning. So this value is read there afterwards, and the body's
effects in other frames, and at paths that lie aside, are seen as the body left them. -/
theorem modify_puts_back {grove : Grove} (hgrove : ({} : Grove).Leads grove) {scope : Scope}
    (hscope : scope ∈ grove.handles) {Handle : Type} {resolve : Handle → Scope}
    (hresolve : ∀ handle, resolve handle ∈ grove.handles) (path : Path)
    (body : Value → Update Handle) :
    (grove.store.get? scope path = none →
        grove.store.perform resolve scope (.modify path body) = (none, grove.store)
          ∧ grove.store.states resolve scope (.modify path body) = [grove.store])
      ∧ ∀ old, grove.store.get? scope path = some old →
        ∃ owner, grove.store.owner? scope path.head = some owner
          ∧ let ((new, reply), middle) := grove.store.finish resolve (body old)
            let later := middle.write owner path new
            grove.store.perform resolve scope (.modify path body) = (some reply, later)
              ∧ grove.store.states resolve scope (.modify path body)
                = grove.store.statesOfBody resolve (body old) ++ [later]
              ∧ later.get? scope path = some new
              ∧ (∀ id, id ≠ owner → later.frame id = middle.frame id)
              ∧ (∀ id q, ¬path.Comparable q → later.read? id q = middle.read? id q)
              ∧ ∀ reader q, ¬path.Comparable q → later.get? reader q = middle.get? reader q := by
  refine ⟨Store.perform_modify_of_none resolve body, fun old hget => ?_⟩
  obtain ⟨owner, howner, hold⟩ := Option.bind_eq_some_iff.1 hget
  obtain ⟨hperform, hstates⟩ := Store.perform_modify_of_some resolve body howner hold
  -- the frame that owns the variable does so all through the body
  have hstable := (hgrove.sound Grove.sound_empty).stable_owner hscope path.head owner
  have hlater := Store.finish_preserves hstable hresolve (body old) _ howner
  have hhas := (Store.contains_of_owner? hlater).2
  refine ⟨owner, howner, hperform, hstates, Store.get?_write_self hlater _, fun id hid => ?_,
    fun id q haside => Store.read?_write_of_aside haside _ id,
    fun reader q haside => Store.get?_write_of_aside hhas haside _ reader⟩
  rw [Store.frame_write (Store.lt_size_of_contains hhas), if_neg hid]

/-- While an entry of a map is modified, the body modifies the same entry, sets the whole map to
something that is no map, and makes another entry. -/
theorem modify_puts_back_of_nested :
    let grove := (({} : Grove).link none (.ofList [("in", .map [("a", .null)])])).link
      (some ⟨0, []⟩) {}
    let resolve (inner : Bool) : Scope := if inner then ⟨1, [0]⟩ else ⟨0, []⟩
    let body (_ : Value) : Update Bool :=
      .ask true (.modify ⟨"in", ["a"]⟩ fun _ => .finish (.bool true) .null) fun _ =>
      .ask true (.get ⟨"in", ["a"]⟩) fun answer =>
      .ask false (.set ⟨"in", []⟩ .null) fun _ =>
      .ask true (.set ⟨"in", ["b"]⟩ (.bool false)) fun _ => .finish (answer.getD .null) .null
    ∃ later, grove.store.perform resolve ⟨1, [0]⟩ (.modify ⟨"in", ["a"]⟩ body)
        = (some .null, later)
      ∧ later.get? ⟨1, [0]⟩ ⟨"in", ["a"]⟩ = some (.bool true)
      ∧ later.get? ⟨0, []⟩ ⟨"in", ["b"]⟩ = some (.bool false) := by
  intro grove resolve body
  have hgrove : ({} : Grove).Leads grove := by
    refine .link _ (.link _ .start ?_) ?_ <;> decide
  have hscope : ⟨1, [0]⟩ ∈ grove.handles := by decide
  have hresolve : ∀ inner, resolve inner ∈ grove.handles := by decide
  have hold : grove.store.get? ⟨1, [0]⟩ ⟨"in", ["a"]⟩ = some .null := by rfl
  obtain ⟨owner, -, hperform, -, hself, -, -, haside⟩ :=
    (modify_puts_back hgrove hscope hresolve ⟨"in", ["a"]⟩ body).2 .null hold
  refine ⟨_, hperform, hself, ?_⟩
  rw [haside ⟨0, []⟩ ⟨"in", ["b"]⟩ (by decide)]
  rfl

end BehaviorTree
