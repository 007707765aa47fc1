import BehaviorTree.Proofs.Linking
import BehaviorTree.Proofs.Writes

/-!
# Looking up variables

In the frames of a tree that renders a definition, a search from the inside out ends where the
definition says that a variable is (`View.find?_homes`). That takes an invariant: what a node
declares stays in its frame, and only leaves ever make variables, under names that nobody around
them declares (`Variables.Sound`). Requests keep it, and are answered from the frames as the
definition answers them (`Rendering.Matches.perform_eq`).
-/

namespace BehaviorTree

namespace Variables

theorem contains_write_self (vars : Variables) (home : Home) (path : Path) (value : Value) :
    (vars.write home path value home).contains path.head := by
  simp [write, Table.contains, Table.find?, Table.alter, Entries.find?_alter_self]

theorem contains_write_of_ne {vars : Variables} {home other : Home} {path : Path} {name : String}
    (h : other ≠ home ∨ name ≠ path.head) (value : Value) :
    (vars.write home path value other).contains name = (vars other).contains name := by
  unfold write
  split
  · rename_i heq
    have hne : name ≠ path.head := h.resolve_left fun hne => hne heq
    rw [heq]
    simp [Table.contains, Table.find?, Table.alter, Entries.find?_alter_of_ne hne]
  · rfl

/-- Names that have come up stay. -/
def Grows (vars later : Variables) : Prop :=
  ∀ home name, (vars home).contains name → (later home).contains name

theorem grows_write (vars : Variables) (home : Home) (path : Path) (value : Value) :
    vars.Grows (vars.write home path value) := by
  intro other name h
  by_cases hother : other = home ∧ name = path.head
  · rw [hother.1, hother.2]
    exact vars.contains_write_self home path value
  · rw [contains_write_of_ne (by grind)]
    exact h

/-- What a definition declares is at its nodes; what else is there was made by a leaf, under a
name that neither the nodes above it nor the globals declare. -/
structure Sound (d : Definition) (globals : List FrameId) (vars : Variables) : Prop where
  declared : ∀ {position site above}, d.route position = some (site :: above) → ∀ name,
    site.definition.declared.contains name → (vars (.own position)).contains name
  made : ∀ {position site above}, d.route position = some (site :: above) → ∀ name,
    (vars (.own position)).contains name → site.definition.declared.contains name
      ∨ site.definition.kind? = some .action
        ∧ (∀ outer ∈ above, ¬outer.definition.declared.contains name)
        ∧ ∀ id ∈ globals, ¬(vars (.outer id)).contains name

theorem Sound.write {d : Definition} {globals : List FrameId} {vars : Variables} {home : Home}
    {path : Path} (h : vars.Sound d globals) (hhas : (vars home).contains path.head)
    (value : Value) : (vars.write home path value).Sound d globals := by
  have hsame : ∀ other name, (vars.write home path value other).contains name
      = (vars other).contains name := fun other name => by
    by_cases hother : other = home ∧ name = path.head
    · rw [hother.1, hother.2, hhas, contains_write_self]
    · exact contains_write_of_ne (by grind) value
  refine ⟨fun hroute name hname => ?_, fun hroute name hname => ?_⟩
  · rw [hsame]
    exact h.declared hroute name hname
  · simp only [hsame] at hname ⊢
    exact h.made hroute name hname

theorem start_sound (d : Definition) (globals : List FrameId) (store : Store) :
    (Account.start d store).vars.Sound d globals := by
  refine ⟨fun hroute name h => ?_, fun hroute name h => .inl ?_⟩
  · rw [Account.start_own hroute]
    exact h
  · rw [Account.start_own hroute] at h
    exact h

end Variables

namespace Definition

/-- A node with others below it is no leaf. -/
theorem route_of_mem {d : Definition} {position : List Nat} {outer : Site} :
    ∀ {site : Site} {above : List Site}, d.route position = some (site :: above) → outer ∈ above →
    ∃ above', d.route outer.position = some (outer :: above')
      ∧ outer.definition.kind? ≠ some .action := by
  induction position using List.reverseRecOn with
  | nil =>
    intro site above hroute hmem
    cases hroute
    cases hmem
  | append_singleton position i ih =>
    intro site above hroute hmem
    obtain ⟨parent, above', c, hparent, hc, heq⟩ := route_append_singleton.1 hroute
    cases heq
    rcases List.mem_cons.1 hmem with rfl | hmem
    · refine ⟨above', (position_of_route hparent).symm ▸ hparent, fun hleaf => ?_⟩
      rw [listed, hleaf] at hc
      cases hc
    · exact ih hparent hmem

end Definition

theorem find?_congr_of_mem {α : Type} {p q : α → Bool} :
    ∀ {l : List α}, (∀ a ∈ l, p a = q a) → l.find? p = l.find? q
  | [], _ => rfl
  | a :: l, h => by
    rw [List.find?_cons, List.find?_cons, h a List.mem_cons_self,
      find?_congr_of_mem fun b hb => h b (List.mem_cons_of_mem _ hb)]

namespace View

variable {d : Definition} {vars : Variables} {position : List Nat} {view : View}

/-- The innermost home with a name is the one that the definition says, unless no home has it;
then it is the leaf's. -/
theorem find?_homes (hroute : d.route position = some (view.site :: view.above))
    (hsound : vars.Sound d view.globals) (name : String) :
    (view.homes.find? (fun home => (vars home).contains name) = some (view.home vars name)
        ∧ (vars (view.home vars name)).contains name)
      ∨ view.homes.find? (fun home => (vars home).contains name) = none
        ∧ view.home vars name = .own position ∧ ¬(vars (.own position)).contains name := by
  have hposition := Definition.position_of_route hroute
  have habove : (view.above.map fun site => Home.own site.position).find?
        (fun home => (vars home).contains name)
      = (view.above.find? fun site => site.definition.declared.contains name).map
        fun site => .own site.position := by
    rw [List.find?_map]
    refine congrArg _ (find?_congr_of_mem fun outer houter => ?_)
    obtain ⟨above', houter, hnot⟩ := Definition.route_of_mem hroute houter
    rw [Bool.eq_iff_iff]
    refine ⟨fun h => ?_, hsound.declared houter name⟩
    exact (hsound.made houter name h).resolve_right fun hmade => hnot hmade.1
  have hglobals : (view.globals.map Home.outer).find? (fun home => (vars home).contains name)
      = (view.globals.find? fun id => (vars (.outer id)).contains name).map .outer :=
    List.find?_map
  unfold homes home
  rw [List.map_cons, List.cons_append, List.find?_cons, List.find?_cons, hposition,
    List.find?_append, habove, hglobals]
  by_cases hown : (vars (.own position)).contains name
  · -- found at the leaf itself, so nobody else declares the name if the leaf does not
    refine .inl ?_
    rw [hown]
    cases hdeclared : view.site.definition.declared.contains name with
    | true => simpa [hposition] using hown
    | false =>
      obtain ⟨-, hnot, hnone⟩ :=
        (hsound.made hroute name hown).resolve_left (by simp [hdeclared])
      have habove : view.above.find? (fun site => site.definition.declared.contains name) = none :=
        List.find?_eq_none.2 hnot
      have hglobals : view.globals.find? (fun id => (vars (.outer id)).contains name) = none :=
        List.find?_eq_none.2 hnone
      simpa [habove, hglobals] using hown
  · have hdeclared : view.site.definition.declared.contains name = false := by
      rw [← Bool.not_eq_true]
      exact fun h => hown (hsound.declared hroute name h)
    rw [Bool.not_eq_true] at hown
    simp only [hown, hdeclared]
    cases houter : view.above.find? fun site => site.definition.declared.contains name with
    | some outer =>
      obtain ⟨above', hmem, -⟩ :=
        Definition.route_of_mem hroute (List.mem_of_find?_eq_some houter)
      have hfound := List.find?_some houter
      exact .inl ⟨rfl, hsound.declared hmem name hfound⟩
    | none =>
      cases hid : view.globals.find? fun id => (vars (.outer id)).contains name with
      | some id =>
        have hfound := List.find?_some hid
        exact .inl ⟨rfl, hfound⟩
      | none => exact .inr ⟨rfl, rfl, by simp⟩

/-- A name at no home that a leaf looks through may be made there. -/
theorem write_sound (hroute : d.route position = some (view.site :: view.above))
    (hleaf : view.site.definition.kind? = some .action) (hsound : vars.Sound d view.globals)
    (path : Path) (value : Value) :
    (vars.write (view.home vars path.head) path value).Sound d view.globals := by
  rcases find?_homes hroute hsound path.head with ⟨-, hhas⟩ | ⟨hnone, hhome, -⟩
  · exact hsound.write hhas value
  · -- the name is made at the leaf, and no home around it has it
    rw [hhome]
    have hnot : ∀ home ∈ view.homes, ¬(vars home).contains path.head :=
      fun home hmem => by simpa using List.find?_eq_none.1 hnone home hmem
    have houter : ∀ id name, (vars.write (.own position) path value (.outer id)).contains name
        = (vars (.outer id)).contains name := fun id name =>
      Variables.contains_write_of_ne (.inl (by simp)) value
    refine ⟨fun {p site above} hp name h => ?_, fun {p site above} hp name h => ?_⟩
    · by_cases hother : p = position ∧ name = path.head
      · rw [hother.1, hother.2]
        exact Variables.contains_write_self vars _ path value
      · rw [Variables.contains_write_of_ne (by grind)]
        exact hsound.declared hp name h
    · simp only [houter]
      by_cases hother : p = position ∧ name = path.head
      · obtain ⟨rfl, rfl⟩ := hother
        rw [hroute] at hp
        cases hp
        refine .inr ⟨hleaf, fun outer hmem hdeclared => ?_, fun id hid => ?_⟩
        · obtain ⟨above', houter, -⟩ := Definition.route_of_mem hroute hmem
          refine hnot (.own outer.position) ?_ (hsound.declared houter _ hdeclared)
          exact List.mem_append_left _
            (List.mem_map_of_mem (List.mem_cons_of_mem _ hmem))
        · exact hnot (.outer id) (List.mem_append_right _ (List.mem_map_of_mem hid))
      · rw [Variables.contains_write_of_ne (by grind)] at h
        exact hsound.made hp name h

end View

namespace Rendering

/-- The frames hold what the variables are. -/
structure Matches (r : Rendering) (store : Store) (vars : Variables) : Prop where
  frame : ∀ {home id}, r.frame? home = some id →
    id < store.frames.size ∧ store.frame id = vars home
  sound : vars.Sound r.definition r.globals

/-- A leaf's scope is what the definition sees there. -/
structure Sees (r : Rendering) (view : View) (scope : Scope) : Prop where
  globals : view.globals = r.globals
  route : r.definition.route view.site.position = some (view.site :: view.above)
  leaf : view.site.definition.kind? = some .action
  frames : view.homes.map r.frame? = scope.frames.map some

variable {r : Rendering} {view : View} {scope : Scope} {store : Store} {vars : Variables}

theorem Sees.frame?_own (h : r.Sees view scope) :
    r.frame? (.own view.site.position) = some scope.frame := by
  have := h.frames
  rw [View.homes, List.map_cons, List.cons_append, List.map_cons, Scope.frames,
    List.map_cons] at this
  exact (List.cons.inj this).1

namespace Matches

theorem find?_frames (h : r.Matches store vars) (name : String) :
    ∀ {homes : List Home} {frames : List FrameId}, homes.map r.frame? = frames.map some →
    frames.find? (fun id => (store.frame id).contains name)
      = (homes.find? fun home => (vars home).contains name).bind r.frame?
  | [], [], _ => rfl
  | [], _ :: _, hframes => by cases hframes
  | _ :: _, [], hframes => by cases hframes
  | home :: homes, id :: frames, hframes => by
    obtain ⟨hid, hrest⟩ := List.cons.inj hframes
    rw [List.find?_cons, List.find?_cons, (h.frame hid).2, find?_frames h name hrest]
    cases (vars home).contains name with
    | true => exact hid.symm
    | false => rfl

theorem owner?_eq (h : r.Matches store vars) (hsees : r.Sees view scope) (name : String) :
    ∃ id, r.frame? (view.home vars name) = some id
      ∧ ((vars (view.home vars name)).contains name ∧ store.owner? scope name = some id
        ∨ ¬(vars (view.home vars name)).contains name ∧ store.owner? scope name = none
          ∧ scope.frame = id) := by
  have hsound := h.sound
  rw [← hsees.globals] at hsound
  unfold Store.owner?
  rw [h.find?_frames name hsees.frames]
  rcases View.find?_homes hsees.route hsound name with ⟨hfind, hhas⟩ | ⟨hfind, hhome, hnot⟩
  · have hmem := List.mem_of_find?_eq_some hfind
    obtain ⟨id, -, hid⟩ : ∃ id ∈ scope.frames, some id = r.frame? (view.home vars name) := by
      rw [← List.mem_map, ← hsees.frames]
      exact List.mem_map_of_mem hmem
    exact ⟨id, hid.symm, .inl ⟨hhas, by rw [hfind, Option.bind_some, hid]⟩⟩
  · rw [hhome]
    exact ⟨scope.frame, hsees.frame?_own, .inr ⟨hnot, by rw [hfind]; rfl, rfl⟩⟩

theorem read?_eq (h : r.Matches store vars) {home : Home} {id : FrameId}
    (hid : r.frame? home = some id) (path : Path) :
    store.read? id path = vars.read? home path := by
  unfold Store.read? Variables.read?
  rw [(h.frame hid).2]

/-- A write to a frame is a write to the one home that it holds. -/
theorem write (h : r.Matches store vars) (hfaithful : r.Faithful) {home : Home} {id : FrameId}
    (hid : r.frame? home = some id) (path : Path) (value : Value)
    (hsound : (vars.write home path value).Sound r.definition r.globals) :
    r.Matches (store.write id path value) (vars.write home path value) := by
  refine ⟨fun {other oid} hother => ?_, hsound⟩
  obtain ⟨hlt, hframe⟩ := h.frame hother
  refine ⟨by simpa [Store.write] using hlt, ?_⟩
  rw [Store.frame_write (h.frame hid).1, (h.frame hid).2, hframe]
  unfold Variables.write
  by_cases heq : other = home
  · subst heq
    rw [hid] at hother
    rw [if_pos rfl, if_pos (Option.some.inj hother).symm]
  · rw [if_neg heq, if_neg]
    rintro rfl
    exact heq (hfaithful.inj hother hid)

theorem get?_eq (h : r.Matches store vars) (hsees : r.Sees view scope) (path : Path) :
    store.get? scope path = vars.read? (view.home vars path.head) path := by
  unfold Store.get?
  obtain ⟨id, hid, ⟨-, howner⟩ | ⟨hnot, howner, -⟩⟩ := h.owner?_eq hsees path.head
  · rw [howner, Option.bind_some, h.read?_eq hid]
  · have hnone : (vars (view.home vars path.head)).find? path.head = none := by
      simpa [Table.contains] using hnot
    rw [howner, Variables.read?, hnone]
    rfl

theorem set_matches (h : r.Matches store vars) (hfaithful : r.Faithful)
    (hsees : r.Sees view scope) (path : Path) (value : Value) :
    r.Matches (store.set scope path value) (vars.write (view.home vars path.head) path value) := by
  have hsound := h.sound
  rw [← hsees.globals] at hsound
  have hwrite := View.write_sound hsees.route hsees.leaf hsound path value
  rw [hsees.globals] at hwrite
  obtain ⟨id, hid, ⟨-, howner⟩ | ⟨-, howner, heq⟩⟩ := h.owner?_eq hsees path.head
  · rw [Store.set, howner]
    exact h.write hfaithful hid path value hwrite
  · rw [Store.set, howner, Option.getD_none, heq]
    exact h.write hfaithful hid path value hwrite

end Matches

mutual

theorem perform_grows (view : View) : ∀ (request : Request Unit) (vars : Variables),
    vars.Grows (view.perform request vars).2
  | .get _, _ => fun _ _ => id
  | .set path value, vars => vars.grows_write _ path value
  | .modify path body, vars => by
    rw [View.perform]
    split
    · exact fun _ _ => id
    · rename_i old _
      intro home name h
      have hgrown := finish_grows view (body old) vars home name h
      exact Variables.grows_write _ _ path _ home name hgrown
  | .declares _, _ => fun _ _ => id
  | .defines _, _ => fun _ _ => id
  | .names, _ => fun _ _ => id
  | .depth, _ => fun _ _ => id

theorem finish_grows (view : View) : ∀ (update : Update Unit) (vars : Variables),
    vars.Grows (view.finish update vars).2
  | .finish _ _, _ => fun _ _ => id
  | .ask _ request next, vars => fun home name h => by
    rw [View.finish]
    exact finish_grows view (next _) _ home name (perform_grows view request vars home name h)

end

mutual

/-- Requests of a leaf to its scope are answered as the definition answers them. -/
theorem Matches.perform_eq (hfaithful : r.Faithful) (hsees : r.Sees view scope) :
    ∀ (request : Request Unit) {store : Store} {vars : Variables}, r.Matches store vars →
    (store.perform (fun _ => scope) scope request).1 = (view.perform request vars).1
      ∧ r.Matches (store.perform (fun _ => scope) scope request).2 (view.perform request vars).2
  | .get path, store, vars, h => ⟨h.get?_eq hsees path, h⟩
  | .set path value, store, vars, h => ⟨rfl, h.set_matches hfaithful hsees path value⟩
  | .modify path body, store, vars, h => by
    rw [Store.perform, View.perform]
    obtain ⟨id, hid, ⟨hhas, howner⟩ | ⟨hnot, howner, -⟩⟩ := h.owner?_eq hsees path.head
    · rw [howner]
      simp only []
      rw [h.read?_eq hid]
      cases hread : vars.read? (view.home vars path.head) path with
      | none => exact ⟨rfl, h⟩
      | some old =>
        obtain ⟨heq, hmatches⟩ := finish_eq hfaithful hsees (body old) h
        -- the name is still where it was when the body comes to its end
        have hgrown := finish_grows view (body old) vars _ _ hhas
        refine ⟨congrArg (fun pair => some pair.2) heq, ?_⟩
        show r.Matches (Store.write _ id path (store.finish (fun _ => scope) (body old)).1.1) _
        rw [heq]
        exact hmatches.write hfaithful hid path _ (hmatches.sound.write hgrown _)
    · have hnone : vars.read? (view.home vars path.head) path = none := by
        rw [Variables.read?, show (vars (view.home vars path.head)).find? path.head = none by
          simpa [Table.contains] using hnot]
        rfl
      rw [howner, hnone]
      exact ⟨rfl, h⟩
  | .declares name, store, vars, h => by
    refine ⟨?_, h⟩
    rw [Store.perform, View.perform, Store.declares, (h.frame hsees.frame?_own).2]
  | .defines name, store, vars, h => by
    refine ⟨?_, h⟩
    rw [Store.perform, View.perform, Store.defines]
    obtain ⟨id, -, ⟨hhas, howner⟩ | ⟨hnot, howner, -⟩⟩ := h.owner?_eq hsees name
    · rw [howner, hhas]
      rfl
    · rw [Bool.not_eq_true] at hnot
      rw [howner, hnot]
      rfl
  | .names, store, vars, h => by
    refine ⟨?_, h⟩
    rw [Store.perform, View.perform, Store.names, (h.frame hsees.frame?_own).2]
  | .depth, store, vars, h => by
    refine ⟨?_, h⟩
    have hlength := congrArg List.length hsees.frames
    simp only [View.homes, List.length_map, List.length_append, List.length_cons] at hlength
    rw [Store.perform, View.perform, Scope.depth, ← hlength]

theorem Matches.finish_eq (hfaithful : r.Faithful) (hsees : r.Sees view scope) :
    ∀ (update : Update Unit) {store : Store} {vars : Variables}, r.Matches store vars →
    (store.finish (fun _ => scope) update).1 = (view.finish update vars).1
      ∧ r.Matches (store.finish (fun _ => scope) update).2 (view.finish update vars).2
  | .finish value reply, store, vars, h => ⟨rfl, h⟩
  | .ask handle request next, store, vars, h => by
    obtain ⟨hanswer, hmatches⟩ := Matches.perform_eq hfaithful hsees request h
    rw [Store.finish, View.finish]
    simp only []
    rw [hanswer]
    exact Matches.finish_eq hfaithful hsees (next _) hmatches

end

end Rendering

end BehaviorTree
