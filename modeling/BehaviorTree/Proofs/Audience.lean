import BehaviorTree.Proofs.Groves
import BehaviorTree.Proofs.Shadowing

/-!
# Who sees a write

A write changes one variable of one frame (`Store.find?_frame_write`). Through another handle it is
seen if the handle finds the variable in that frame once it is written, and then what is read below
the variable is the old value with the new one put into it; everything else reads as before
(`Store.get?_write`). So a name that a leaf makes, in a frame of its own, stays with the leaf
(`set_seen_by`).
-/

namespace BehaviorTree

namespace Store

variable {store : Store} {id : FrameId} {path : Path}

theorem find?_frame_write (hid : id < store.frames.size) (value : Value) (other : FrameId)
    (name : String) :
    ((store.write id path value).frame other).find? name
      = if other = id ∧ name = path.head then
          some (Value.putAt value path.tail (((store.frame id).find? path.head).getD .null))
        else (store.frame other).find? name := by
  rw [frame_write hid]
  by_cases hother : other = id
  · rw [if_pos hother, Table.find?_alter, hother]
    simp
  · rw [if_neg hother, if_neg fun h => hother h.1]

/-- Whoever does not find a variable in the frame where it was written finds it where it was. -/
theorem owner?_of_write_ne {value : Value} {reader : Scope}
    (hne : (store.write id path value).owner? reader path.head ≠ some id) :
    (store.write id path value).owner? reader path.head = store.owner? reader path.head := by
  have hgrows := store.grows_write id path value
  cases howner : (store.write id path value).owner? reader path.head with
  | none =>
    refine (owner?_eq_none_iff.2 fun other hother hhas => ?_).symm
    exact owner?_eq_none_iff.1 howner other hother (hgrows other _ hhas)
  | some other =>
    obtain ⟨hhas, inner, outer, hframes, hinner⟩ := owner?_eq_some_iff.1 howner
    have hother : other ≠ id := fun heq => hne (howner.trans (congrArg some heq))
    have hhad : (store.frame other).contains path.head := by
      rcases contains_write.1 hhas with ⟨heq, -⟩ | hhad
      · exact absurd heq hother
      · exact hhad
    exact (owner?_eq_some_iff.2 ⟨hhad, inner, outer, hframes, fun between hbetween hhas =>
      hinner between hbetween (hgrows between _ hhas)⟩).symm

/-- What is read through any handle after a write. -/
theorem get?_write (hid : id < store.frames.size) (value : Value) (reader : Scope) (q : Path) :
    (store.write id path value).get? reader q
      = if q.head = path.head ∧ (store.write id path value).owner? reader path.head = some id then
          (Value.putAt value path.tail
            (((store.frame id).find? path.head).getD .null)).getAt q.tail
        else store.get? reader q := by
  by_cases hhead : q.head = path.head
  · by_cases howner : (store.write id path value).owner? reader path.head = some id
    · rw [if_pos ⟨hhead, howner⟩, get?, hhead, howner, Option.bind_some, read?, hhead,
        find?_frame_write hid, if_pos ⟨rfl, rfl⟩, Option.bind_some]
    · rw [if_neg fun h => howner h.2, get?, get?, hhead, owner?_of_write_ne howner]
      rw [owner?_of_write_ne howner] at howner
      refine Option.bind_congr fun other hother => ?_
      have hne : other ≠ id := fun heq => howner (hother.trans (congrArg some heq))
      rw [read?, read?, find?_frame_write hid, if_neg fun h => hne h.1]
  · rw [if_neg fun h => hhead h.1, get?, get?, owner?_write_of_ne hhead]
    refine congrArg _ (funext fun other => ?_)
    rw [read?, read?, find?_frame_write hid, if_neg fun h => hhead h.2]

theorem get?_write_of_not_mem (hid : id < store.frames.size) (value : Value) {reader : Scope}
    (hreader : id ∉ reader.frames) (q : Path) :
    (store.write id path value).get? reader q = store.get? reader q := by
  rw [get?_write hid, if_neg]
  exact fun h => hreader (contains_of_owner? h.2).1

/-- What leaves bring about leaves a name to the frames that have it, and to leaves that make a
variable of their own. -/
theorem contains_or_leaf_of_reaches {tree : Node} {start future : Store}
    (h : start.Reaches tree.LeafScope future) {name : String}
    (hhas : (future.frame id).contains name) :
    (start.frame id).contains name ∨ ∃ other, tree.LeafScope other ∧ other.frame = id := by
  have hundisturbed : start.Undisturbed tree future :=
    (stable_undisturbed tree start).of_reaches h
      ⟨fun _ _ hname => hname, fun _ _ hname => .inl hname⟩
  rcases hundisturbed.gained id name hhas with hhas | ⟨other, hleaf, hframe, -⟩
  · exact .inl hhas
  · exact .inr ⟨other, hleaf, hframe⟩

end Store

/-- The frame of a leaf is in no chain of a compiled tree but the leaf's own. -/
theorem Compile.frame_not_mem_frames {root : Context} {d : Definition} {base final : Store}
    {tree n : Node} (h : node root d base = .ok (tree, final))
    (hroot : ∀ id ∈ root.frames, id < base.frames.size) {scope : Scope}
    (hleaf : tree.LeafScope scope) {position : List Nat} (hn : tree.at? position = some n)
    (hne : n.scope ≠ scope) : scope.frame ∉ n.scope.frames := by
  intro hmem
  rcases List.mem_cons.1 hmem with heq | houter
  · obtain ⟨p, m, hm, -, rfl⟩ := hleaf
    obtain rfl := frame_inj h hm hn heq
    obtain rfl := Option.some.inj (hm.symm.trans hn)
    exact hne rfl
  · exact ne_of_encloses h hroot hn ((mem_outer_iff h hn).1 houter) scope hleaf rfl

/-- A `set` changes one variable of one frame, the nearest that declares it or else the innermost.
What is read through any handle is what it was before, unless it is this variable, now found in
that frame: then it is the variable's old value with the new one put into it. So a variable that a
leaf of a compiled tree makes lies in a frame that is in no other node's chain, and nobody else
reads it, now or later: who finds a variable of its name finds one that was there before or that
another leaf made. -/
theorem set_seen_by (store : Store) (scope : Scope) (path : Path) (value : Value)
    (hscope : scope.frame < store.frames.size) :
    let owner := store.target scope path
    let later := store.set scope path value
    (∀ id, id ≠ owner → later.frame id = store.frame id)
      ∧ (∀ name, name ≠ path.head →
        (later.frame owner).find? name = (store.frame owner).find? name)
      ∧ (∀ (reader : Scope) (q : Path),
        (q.head ≠ path.head ∨ later.owner? reader path.head ≠ some owner →
          later.get? reader q = store.get? reader q)
        ∧ (q.head = path.head → later.owner? reader path.head = some owner →
          later.get? reader q
            = (Value.putAt value path.tail
                (((store.frame owner).find? path.head).getD .null)).getAt q.tail))
      ∧ ∀ (registry : Registry) (globals : Option Scope) (d : Definition) (base final : Store)
        (tree : Node),
        (∀ scope ∈ globals, ∀ id ∈ scope.frames, id < base.frames.size) →
        compile registry globals d base = .ok (tree, final) → tree.LeafScope scope →
        (∀ id ∈ scope.frames, path.head ∉ (store.frame id).names) →
        path.head ∈ (later.frame scope.frame).names
          ∧ (∀ position n, tree.at? position = some n → n.scope ≠ scope →
            scope.frame ∉ n.scope.frames)
          ∧ ∀ reader : Scope, scope.frame ∉ reader.frames →
            (∀ q, later.get? reader q = store.get? reader q)
            ∧ ∀ future, later.Reaches tree.LeafScope future → ∀ id,
              future.owner? reader path.head = some id →
              id ≠ scope.frame ∧ (path.head ∈ (store.frame id).names
                ∨ ∃ other, tree.LeafScope other ∧ other.frame = id) := by
  intro owner later
  have howner : owner < store.frames.size := Store.target_lt_size hscope
  have hlater : later = store.write owner path value := rfl
  refine ⟨fun id hid => ?_, fun name hname => ?_,
    fun reader q => ⟨fun hunseen => ?_, fun hhead hseen => ?_⟩,
    fun registry globals d base final tree hglobals hcompile hleaf hnew => ?_⟩
  · rw [hlater, Store.frame_write howner, if_neg hid]
  · rw [hlater, Store.find?_frame_write howner, if_neg fun h => hname h.2]
  · rw [hlater] at hunseen ⊢
    rw [Store.get?_write howner, if_neg fun h => hunseen.elim (· h.1) (· h.2)]
  · rw [hlater] at hseen ⊢
    rw [Store.get?_write howner, if_pos ⟨hhead, hseen⟩]
  · have hnode : Compile.node { registry, parent := globals } d base = .ok (tree, final) :=
      hcompile
    have hroot : ∀ id ∈ globals.elim [] Scope.frames, id < base.frames.size := by
      cases globals with
      | none => simp
      | some scope => exact hglobals scope rfl
    simp only [← Table.contains_iff] at hnew ⊢
    -- nobody around the leaf has the name, so it is made in the leaf's own frame
    have hmade : owner = scope.frame := by
      simp only [owner, Store.target, Store.owner?_eq_none_iff.2 hnew, Option.getD_none]
    rw [hmade] at howner hlater
    refine ⟨?_, fun position n hn hne => Compile.frame_not_mem_frames hnode hroot hleaf hn hne,
      fun reader hreader => ⟨fun q => ?_, fun future hfuture id hid => ?_⟩⟩
    · rw [hlater]
      exact Store.contains_write.2 (.inl ⟨rfl, howner, rfl⟩)
    · rw [hlater]
      exact Store.get?_write_of_not_mem howner value hreader q
    · obtain ⟨hmem, hhas⟩ := Store.contains_of_owner? hid
      have hne : id ≠ scope.frame := fun heq => hreader (heq ▸ hmem)
      refine ⟨hne, (Store.contains_or_leaf_of_reaches hfuture hhas).imp_left fun hhas => ?_⟩
      rwa [hlater, Store.frame_write howner, if_neg hne] at hhas

/-- Of two leaves the first makes a variable. It reads what it put there, and the second does
not. -/
theorem set_seen_by_of_two :
    let d := Definition.ofChildren .seq
      [.node (.ofAction default), .node (.ofAction default)]
    ∃ tree final, compile .empty none d {} = .ok (tree, final) ∧ tree.LeafScope ⟨1, [0]⟩
      ∧ let later := final.set ⟨1, [0]⟩ ⟨"fresh", ["x"]⟩ (.bool true)
        later.get? ⟨1, [0]⟩ ⟨"fresh", ["x"]⟩ = some (.bool true)
          ∧ later.get? ⟨2, [0]⟩ ⟨"fresh", ["x"]⟩ = none := by
  intro d
  obtain ⟨tree, final, hcompile, htree, hfinal⟩ :
      ∃ tree final, compile .empty none d {} = .ok (tree, final)
        ∧ tree = .sequence ⟨none, none, false, .plain, ⟨0, []⟩⟩
          [.leaf ⟨none, none, false, .plain, ⟨1, [0]⟩⟩ none default,
            .leaf ⟨none, none, false, .plain, ⟨2, [0]⟩⟩ none default]
        ∧ final = ⟨#[{}, {}, {}]⟩ := by
    simp only [compile, Compile.node_eq_ok_iff]
    exact ⟨_, _, ⟨.sequence, _, _, rfl, .inr ⟨by decide, _, _, rfl,
      Compile.nodes_cons_eq_ok_iff.2 ⟨_, _, _, Compile.node_eq_ok_iff.2
        ⟨.action, _, _, rfl, .inl ⟨rfl, rfl, rfl⟩⟩,
        Compile.nodes_cons_eq_ok_iff.2 ⟨_, _, _, Compile.node_eq_ok_iff.2
          ⟨.action, _, _, rfl, .inl ⟨rfl, rfl, rfl⟩⟩, Compile.nodes_nil _ _ _ _, rfl⟩, rfl⟩,
      rfl⟩⟩, rfl, rfl⟩
  have hleaf : tree.LeafScope ⟨1, [0]⟩ := by
    subst htree
    exact ⟨[0], _, rfl, rfl, rfl⟩
  have hscope : 1 < final.frames.size := by
    subst hfinal
    decide
  obtain ⟨-, -, hreads, hleaves⟩ :=
    set_seen_by final ⟨1, [0]⟩ ⟨"fresh", ["x"]⟩ (.bool true) hscope
  have hnew : ∀ id ∈ (⟨1, [0]⟩ : Scope).frames, "fresh" ∉ (final.frame id).names := by
    subst hfinal
    decide
  obtain ⟨-, -, hothers⟩ := hleaves .empty none d {} final tree (by simp) hcompile hleaf hnew
  refine ⟨tree, final, hcompile, hleaf, ?_, ?_⟩
  · refine ((hreads ⟨1, [0]⟩ ⟨"fresh", ["x"]⟩).2 rfl ?_).trans ?_
    · subst hfinal
      decide +kernel
    · subst hfinal
      rfl
  · rw [(hothers ⟨2, [0]⟩ (by decide)).1]
    subst hfinal
    rfl

end BehaviorTree
