import BehaviorTree.Proofs.Audience
import BehaviorTree.Proofs.Insertions

/-!
# Writes in any order

Two writes at paths that lie aside from each other may be swapped, in one frame or in two
(`Store.write_comm`). What a `set` through one handle changes for another is which frame owns a
name, and that only if it makes the name in a frame that the other handle looks through. So through
handles of which neither lies inside the other, as those of leaves do not, sets at such paths may be
swapped (`Store.set_comm`), and any number of them leave the same frames in every order
(`leaf_writes_commute`).
-/

namespace BehaviorTree

/-- Two handles of which neither looks through the innermost frame of the other, unless they are
one. -/
def Scope.Aside (scope other : Scope) : Prop :=
  scope = other ∨ scope.frame ∉ other.frames ∧ other.frame ∉ scope.frames

theorem Scope.Aside.symm {scope other : Scope} (h : scope.Aside other) : other.Aside scope :=
  h.imp Eq.symm And.symm

/-- What a write makes of a frame. -/
def Table.put (path : Path) (value : Value) (table : Table Value) : Table Value :=
  table.alter path.head fun old => Value.putAt value path.tail (old.getD .null)

theorem Table.put_comm {p q : Path} (haside : ¬p.Comparable q) (x y : Value)
    (table : Table Value) : (table.put p x).put q y = (table.put q y).put p x := by
  obtain ⟨hbefore, hbeyond⟩ := not_or.1 haside
  -- a table is written to as the map of its entries is
  have hmap := Value.putAt_comm x y hbefore hbeyond (.map table.entries)
  exact Table.ext_find? fun name => congrArg (Entries.find? name) (Value.map.inj hmap)

namespace Store

variable {p q : Path} {a b : Scope}

theorem write_comm (haside : ¬p.Comparable q) (store : Store) (id other : FrameId)
    (x y : Value) :
    (store.write id p x).write other q y = (store.write other q y).write id p x := by
  have hwrite : ∀ (store : Store) id path value,
      store.write id path value = ⟨store.frames.modify id (Table.put path value)⟩ :=
    fun _ _ _ _ => rfl
  simp only [hwrite]
  refine congrArg Store.mk (Array.ext_getElem? fun i => ?_)
  simp only [Array.getElem?_modify]
  by_cases hid : id = i <;> by_cases hother : other = i
  · simp only [hid, hother, if_true, Option.map_map]
    exact congrArg (Option.map · _) (funext (Table.put_comm haside x y))
  all_goals simp only [hid, hother, if_true, if_false]

/-- The frame that a variable is written to, or made in, is the one that it is written to next. -/
theorem target_set_self (store : Store) (a : Scope) (x : Value) (hhead : q.head = p.head) :
    (store.set a p x).target a q = store.target a q := by
  have hset : store.set a p x = store.write (store.target a p) p x := rfl
  have htarget : store.target a q = store.target a p := by rw [target, target, hhead]
  by_cases hid : store.target a p < store.frames.size
  · rw [htarget, hset, target, hhead, owner?_write_self hid, Option.getD_some]
  · rw [hset, write_of_le (Nat.not_lt.1 hid)]

/-- A `set` does not change where the next one goes, through a handle that lies aside. -/
theorem target_set (haside : a.Aside b) (store : Store) (p q : Path) (x : Value) :
    (store.set a p x).target b q = store.target b q := by
  by_cases hhead : q.head = p.head
  · rcases haside with rfl | ⟨hout, -⟩
    · exact store.target_set_self a x hhead
    · obtain ⟨id, -, heq, hhas | ⟨rfl, -⟩⟩ := store.set_eq a p x
      · rw [heq, target, target, owner?_write_of_contains hhas]
      · -- the name is made in a frame that the other handle does not look through
        have hnot : (store.write a.frame p x).owner? b p.head ≠ some a.frame := fun howner =>
          hout (contains_of_owner? howner).1
        rw [heq, target, target, hhead, owner?_of_write_ne hnot]
  · have howner : (store.set a p x).owner? b q.head = store.owner? b q.head :=
      owner?_write_of_ne hhead _ x
    rw [target, target, howner]

theorem set_comm (haside : a.Aside b) (hpaths : ¬p.Comparable q) (store : Store) (x y : Value) :
    (store.set a p x).set b q y = (store.set b q y).set a p x :=
  calc (store.set a p x).set b q y
      = (store.write (store.target a p) p x).write ((store.set a p x).target b q) q y := rfl
    _ = (store.write (store.target a p) p x).write (store.target b q) q y := by
      rw [target_set haside]
    _ = (store.write (store.target b q) q y).write (store.target a p) p x :=
      write_comm hpaths store _ _ x y
    _ = (store.write (store.target b q) q y).write ((store.set b q y).target a p) p x := by
      rw [target_set haside.symm]

/-- Of two handles one inside the other the order counts: the inner one writes to a variable that
the outer one has made before, and else makes one of its own. -/
example :
    let store : Store := ⟨#[{}, {}]⟩
    let set (store : Store) (scope : Scope) (name : String) :=
      store.set scope ⟨"seen", [name]⟩ .null
    (set (set store ⟨0, []⟩ "a") ⟨1, [0]⟩ "b").declares ⟨1, [0]⟩ "seen" = false
      ∧ (set (set store ⟨1, [0]⟩ "b") ⟨0, []⟩ "a").declares ⟨1, [0]⟩ "seen" = true := by
  decide +kernel

end Store

/-- A value to be put at a path through a handle. -/
structure Assignment where
  scope : Scope
  path : Path
  value : Value

namespace Store

def assign (store : Store) (assignment : Assignment) : Store :=
  store.set assignment.scope assignment.path assignment.value

/-- Sets, one after the other. -/
def assignAll (store : Store) (assignments : List Assignment) : Store :=
  assignments.foldl assign store

theorem assignAll_perm {assignments others : List Assignment} (hperm : assignments.Perm others)
    (hscopes : ∀ s ∈ assignments, ∀ t ∈ assignments, s.scope.Aside t.scope)
    (hpaths : assignments.Pairwise fun s t => ¬s.path.Comparable t.path) (store : Store) :
    store.assignAll assignments = store.assignAll others := by
  have hcomm : assignments.Pairwise fun s t =>
      ∀ store : Store, (store.assign s).assign t = (store.assign t).assign s :=
    hpaths.imp_of_mem fun hs ht haside store => set_comm (hscopes _ hs _ ht) haside store _ _
  refine hperm.foldl_eq' (fun s hs t ht store => ?_) store
  exact List.Pairwise.forall_of_forall_of_flip (fun _ _ _ => rfl) hcomm
    (hcomm.imp fun h store => (h store).symm) hs ht store

end Store

theorem Node.LeafScope.of_child {tree n child : Node} {position : List Nat}
    (hn : tree.at? position = some n) (hchild : child ∈ n.children) {scope : Scope}
    (h : child.LeafScope scope) : tree.LeafScope scope := by
  obtain ⟨rest, m, hm, hkind, hscope⟩ := h
  obtain ⟨i, hi⟩ := List.mem_iff_getElem?.1 hchild
  refine ⟨position ++ i :: rest, m, ?_, hkind, hscope⟩
  rw [at?_append, hn, Option.bind_some, at?, hi]
  exact hm

/-- No leaf lies inside another. -/
theorem Compile.aside_of_leafScope {root : Context} {d : Definition} {base final : Store}
    {tree : Node} (h : node root d base = .ok (tree, final))
    (hroot : ∀ id ∈ root.frames, id < base.frames.size) {a b : Scope} (ha : tree.LeafScope a)
    (hb : tree.LeafScope b) : a.Aside b := by
  by_cases heq : a = b
  · exact .inl heq
  · obtain ⟨p, n, hn, -, rfl⟩ := id ha
    obtain ⟨q, m, hm, -, rfl⟩ := id hb
    exact .inr ⟨frame_not_mem_frames h hroot ha hm (Ne.symm heq),
      frame_not_mem_frames h hroot hb hn heq⟩

/-- Sets that two leaves of a compiled tree make at paths that lie aside from each other, be it one
leaf that makes both, leave the same frames in either order, in whatever state. So any number of
sets by the children of a parallel node, at paths of which no two can be compared, leave the same
frames in every order. -/
theorem leaf_writes_commute (registry : Registry) (globals : Option Scope) (d : Definition)
    (base final : Store) (tree : Node)
    (hglobals : ∀ scope ∈ globals, ∀ id ∈ scope.frames, id < base.frames.size)
    (hcompile : compile registry globals d base = .ok (tree, final)) (store : Store) :
    (∀ a b, tree.LeafScope a → tree.LeafScope b → ∀ p q : Path, ¬p.Comparable q → ∀ x y,
        (store.set a p x).set b q y = (store.set b q y).set a p x)
      ∧ ∀ position info policy children,
        tree.at? position = some (.parallel info policy children) →
        ∀ assignments others : List Assignment, assignments.Perm others →
        (∀ s ∈ assignments, ∃ child ∈ children, child.LeafScope s.scope) →
        (assignments.Pairwise fun s t => ¬s.path.Comparable t.path) →
        store.assignAll assignments = store.assignAll others := by
  have hnode : Compile.node { registry, parent := globals } d base = .ok (tree, final) := hcompile
  have hroot := Compile.Context.lt_size_of_globals hglobals
  refine ⟨fun a b ha hb p q hpaths x y => ?_,
    fun position info policy children hat assignments others hperm hleaves hpaths => ?_⟩
  · exact Store.set_comm (Compile.aside_of_leafScope hnode hroot ha hb) hpaths store x y
  · have hleaf : ∀ s ∈ assignments, tree.LeafScope s.scope := fun s hs => by
      obtain ⟨child, hchild, hscope⟩ := hleaves s hs
      exact hscope.of_child hat hchild
    exact Store.assignAll_perm hperm (fun s hs t ht =>
      Compile.aside_of_leafScope hnode hroot (hleaf s hs) (hleaf t ht)) hpaths store

/-- Two children of a parallel node write below one variable of it, and one of them makes a variable
on the way. The other one reads what it put there, and not the variable. -/
theorem leaf_writes_commute_of_two :
    let d := (Definition.ofChildren .par
      [.node (.ofAction default), .node (.ofAction default)]).declare "seen" .null
    let assignments : List Assignment := [⟨⟨1, [0]⟩, ⟨"seen", ["a"]⟩, .null⟩,
      ⟨⟨2, [0]⟩, ⟨"fresh", []⟩, .null⟩, ⟨⟨2, [0]⟩, ⟨"seen", ["b"]⟩, .null⟩]
    ∃ tree final, compile .empty none d {} = .ok (tree, final)
      ∧ final.assignAll assignments = final.assignAll assignments.reverse
      ∧ ((final.assignAll assignments).get? ⟨1, [0]⟩ ⟨"seen", ["b"]⟩).isSome
      ∧ (final.assignAll assignments).defines ⟨1, [0]⟩ "fresh" = false := by
  intro d assignments
  obtain ⟨tree, final, hcompile, htree, hfinal⟩ :
      ∃ tree final, compile .empty none d {} = .ok (tree, final)
        ∧ tree = .parallel ⟨none, none, false, .plain, ⟨0, []⟩⟩ {}
          [.leaf ⟨none, none, false, .plain, ⟨1, [0]⟩⟩ none default,
            .leaf ⟨none, none, false, .plain, ⟨2, [0]⟩⟩ none default]
        ∧ final = ⟨#[d.declared, {}, {}]⟩ := by
    simp only [compile, Compile.node_eq_ok_iff]
    exact ⟨_, _, ⟨.parallel, _, _, rfl, .inr ⟨by decide, _, _, rfl,
      Compile.nodes_cons_eq_ok_iff.2 ⟨_, _, _, Compile.node_eq_ok_iff.2
        ⟨.action, _, _, rfl, .inl ⟨rfl, rfl, rfl⟩⟩,
        Compile.nodes_cons_eq_ok_iff.2 ⟨_, _, _, Compile.node_eq_ok_iff.2
          ⟨.action, _, _, rfl, .inl ⟨rfl, rfl, rfl⟩⟩, Compile.nodes_nil _ _ _ _, rfl⟩, rfl⟩,
      rfl⟩⟩, rfl, rfl⟩
  refine ⟨tree, final, hcompile, ?_, ?_⟩
  · subst htree
    refine (leaf_writes_commute .empty none d {} final _ (by simp) hcompile final).2 [] _ _ _ rfl
      assignments assignments.reverse assignments.reverse_perm.symm (fun s hs => ?_) (by decide)
    simp only [assignments, List.mem_cons, List.not_mem_nil, or_false] at hs
    rcases hs with rfl | rfl | rfl
    · exact ⟨_, List.mem_cons_self, [], _, rfl, rfl, rfl⟩
    · exact ⟨_, List.mem_cons_of_mem _ List.mem_cons_self, [], _, rfl, rfl, rfl⟩
    · exact ⟨_, List.mem_cons_of_mem _ List.mem_cons_self, [], _, rfl, rfl, rfl⟩
  · subst hfinal
    decide +kernel

end BehaviorTree
