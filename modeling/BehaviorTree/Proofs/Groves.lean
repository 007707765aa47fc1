import BehaviorTree.Proofs.Compiling
import BehaviorTree.Proofs.Visible
import Mathlib.Data.List.Find

/-!
# Trees of frames

A frame is made inside a scope that there is already, so frames grow into trees, and every chain
runs down one of them: two handles that share a frame share all that is around it
(`Grove.Leads.sound`). That is why a name keeps its owner (`Grove.owner_stable`). A handle makes a
name only if nothing around it has the name; so when a name has an owner, no handle between the
owner and the one that looks it up can make the name once more (`Store.owner?_set`).
-/

namespace BehaviorTree

namespace Store

variable {Handle : Type}

mutual

/-- The states that come up while a request is carried out, those inside the body of a modification
among them, and the last of all the state that it leaves. -/
def states (resolve : Handle → Scope) (scope : Scope) : Request Handle → Store → List Store
  | .modify path body, store =>
    match store.owner? scope path.head with
    | none => [store]
    | some id =>
      match store.read? id path with
      | none => [store]
      | some old =>
        let ((new, _), after) := store.finish resolve (body old)
        statesOfBody resolve (body old) store ++ [after.write id path new]
  | .get _, store | .declares _, store | .defines _, store | .names, store | .depth, store =>
    [store]
  | .set path value, store => [store.set scope path value]

def statesOfBody (resolve : Handle → Scope) : Update Handle → Store → List Store
  | .finish _ _, _ => []
  | .ask handle request next, store =>
    let (answer, after) := store.perform resolve (resolve handle) request
    states resolve (resolve handle) request store ++ statesOfBody resolve (next answer) after

end

/-- The last of the states is the one that the request leaves. -/
theorem getLast?_states (resolve : Handle → Scope) (request : Request Handle) (scope : Scope)
    (store : Store) :
    (store.states resolve scope request).getLast?
      = some (store.perform resolve scope request).2 := by
  cases request with
  | modify path body =>
    rw [states, perform]
    cases store.owner? scope path.head with
    | none => rfl
    | some id =>
      simp only []
      cases store.read? id path with
      | none => rfl
      | some old => simp only [List.getLast?_concat]
  | _ => rw [states, perform]; rfl

mutual

/-- What requests preserve holds all the while that one is carried out. -/
theorem states_preserve {scopes : Scope → Prop} {P : Store → Prop} (hP : Stable scopes P)
    {resolve : Handle → Scope} (hresolve : ∀ handle, scopes (resolve handle)) :
    ∀ (request : Request Handle) (scope : Scope) (store : Store), scopes scope → P store →
      ∀ state ∈ store.states resolve scope request, P state
  | .modify path body, scope, store, hscope, h, state, hstate => by
    have hafter := perform_preserves hP hresolve (.modify path body) scope store hscope h
    rw [perform] at hafter
    rw [states] at hstate
    split at hstate
    · rw [List.mem_singleton.1 hstate]
      exact h
    · rename_i id howner
      simp only [howner] at hafter
      split at hstate
      · rw [List.mem_singleton.1 hstate]
        exact h
      · rename_i old hold
        simp only [hold] at hafter
        rcases List.mem_append.1 hstate with hbody | hlast
        · exact statesOfBody_preserve hP hresolve (body old) store h state hbody
        · rw [List.mem_singleton.1 hlast]
          exact hafter
  | .set path value, scope, store, hscope, h, state, hstate => by
    rw [states] at hstate
    rw [List.mem_singleton.1 hstate]
    exact hP.set scope hscope store path value h
  | .get _, _, _, _, h, _, hstate | .declares _, _, _, _, h, _, hstate
  | .defines _, _, _, _, h, _, hstate | .names, _, _, _, h, _, hstate
  | .depth, _, _, _, h, _, hstate => by
    rw [states] at hstate
    rw [List.mem_singleton.1 hstate]
    exact h

theorem statesOfBody_preserve {scopes : Scope → Prop} {P : Store → Prop} (hP : Stable scopes P)
    {resolve : Handle → Scope} (hresolve : ∀ handle, scopes (resolve handle)) :
    ∀ (update : Update Handle) (store : Store), P store →
      ∀ state ∈ store.statesOfBody resolve update, P state
  | .finish _ _, _, _, _, hstate => by
    rw [statesOfBody] at hstate
    cases hstate
  | .ask handle request next, store, h, state, hstate => by
    have hhandle := hresolve handle
    rw [statesOfBody] at hstate
    rcases List.mem_append.1 hstate with hrequest | hnext
    · exact states_preserve hP hresolve request _ store hhandle h state hrequest
    · exact statesOfBody_preserve hP hresolve (next _) _
        (perform_preserves hP hresolve request _ store hhandle h) state hnext

end

theorem size_write (store : Store) (id : FrameId) (path : Path) (value : Value) :
    (store.write id path value).frames.size = store.frames.size := by
  simp [write]

theorem stable_size (scopes : Scope → Prop) (n : Nat) :
    Stable scopes fun store => store.frames.size = n :=
  ⟨fun _ _ store path value h => (store.size_write _ path value).trans h,
    fun store id path value _ h => (store.size_write id path value).trans h⟩

theorem size_perform (resolve : Handle → Scope) (scope : Scope) (request : Request Handle)
    (store : Store) : (store.perform resolve scope request).2.frames.size = store.frames.size :=
  perform_preserves (stable_size (fun _ => True) _) (fun _ => trivial) request scope store trivial
    rfl

/-- The owner has the name, and the frames between it and the handle have not. -/
theorem owner?_eq_some_iff {store : Store} {scope : Scope} {name : String} {id : FrameId} :
    store.owner? scope name = some id
      ↔ (store.frame id).contains name
        ∧ ∃ inner outer, scope.frames = inner ++ id :: outer
          ∧ ∀ between ∈ inner, ¬(store.frame between).contains name := by
  unfold owner?
  rw [List.find?_eq_some_iff_append]
  simp

/-- A frame that has the name of a path owns it or does not, before a write to it and after. -/
theorem owner?_write_of_contains {store : Store} {id : FrameId} {path : Path}
    (h : (store.frame id).contains path.head) (value : Value) (scope : Scope) (name : String) :
    (store.write id path value).owner? scope name = store.owner? scope name := by
  have hsame : ∀ other, ((store.write id path value).frame other).contains name
      = (store.frame other).contains name := fun other => by
    rw [Bool.eq_iff_iff]
    exact contains_write_of_contains h
  unfold owner?
  simp only [hsame]

end Store

/-- Of two handles in one tree of frames, the frames around the one are among those around the
other if its own frame is. -/
def Scope.Joins (scope other : Scope) : Prop :=
  other.frame ∈ scope.frames → other.frames <:+ scope.frames

namespace Store

variable {store : Store} {scope other : Scope} {name : String} {id : FrameId}

/-- A frame that lies outside another one of a chain is around every handle to that other one. -/
theorem mem_frames_of_joins (hsorted : scope.frames.Pairwise (· > ·)) (hjoins : scope.Joins other)
    (hmem : id ∈ scope.frames) (hother : other.frame ∈ scope.frames) (hlt : id < other.frame) :
    id ∈ other.frames := by
  obtain ⟨inner, heq⟩ := hjoins hother
  rw [← heq] at hmem hsorted
  rcases List.mem_append.1 hmem with hinner | houter
  · have hgt : other.frame < id :=
      (List.pairwise_append.1 hsorted).2.2 id hinner other.frame List.mem_cons_self
    exact absurd hlt (Nat.lt_asymm hgt)
  · exact houter

/-- Nobody in the tree takes a name away from its owner. -/
theorem owner?_set (hsorted : scope.frames.Pairwise (· > ·)) (hjoins : scope.Joins other)
    (howner : store.owner? scope name = some id) (path : Path) (value : Value) :
    (store.set other path value).owner? scope name = some id := by
  obtain ⟨target, -, heq, hhas | ⟨rfl, hnone⟩⟩ := store.set_eq other path value
  · rw [heq, owner?_write_of_contains hhas]
    exact howner
  · rw [heq]
    by_cases hname : name = path.head
    · obtain ⟨hid, inner, outer, hframes, hinner⟩ := owner?_eq_some_iff.1 howner
      have hmem : id ∈ scope.frames := hframes ▸ List.mem_append_right _ List.mem_cons_self
      -- the new name lies outside the owner, or else the other handle had seen the owner
      have houtside : other.frame ∉ inner := fun hbetween => by
        have hother : other.frame ∈ scope.frames := hframes ▸ List.mem_append_left _ hbetween
        have hlt : id < other.frame :=
          (List.pairwise_append.1 (hframes ▸ hsorted)).2.2 _ hbetween id List.mem_cons_self
        exact hnone id (mem_frames_of_joins hsorted hjoins hmem hother hlt) (hname ▸ hid)
      refine owner?_eq_some_iff.2 ⟨contains_write.2 (.inr hid), inner, outer, hframes, ?_⟩
      intro between hbetween hcontains
      rcases contains_write.1 hcontains with ⟨rfl, -⟩ | hcontains
      · exact houtside hbetween
      · exact hinner between hbetween hcontains
    · rw [owner?_write_of_ne hname]
      exact howner

theorem stable_owner {handles : List Scope} (hsorted : scope.frames.Pairwise (· > ·))
    (hjoins : ∀ other ∈ handles, scope.Joins other) (name : String) (id : FrameId) :
    Stable (· ∈ handles) fun store => store.owner? scope name = some id :=
  ⟨fun other hother _ path value howner =>
      owner?_set hsorted (hjoins other hother) howner path value,
    fun store target path value hhas howner => by
      rw [owner?_write_of_contains hhas]
      exact howner⟩

theorem owner?_push (hscope : ∀ id ∈ scope.frames, id < store.frames.size) (frame : Table Value)
    (name : String) : (store.push frame).owner? scope name = store.owner? scope name := by
  unfold owner?
  exact List.find?_congr fun id hid => by
    rw [(store.push_extends frame).frame id (hscope id hid)]

end Store

/-- Frames, and the handles that there are to them. -/
structure Grove where
  store : Store := {}
  handles : List Scope := []

namespace Grove

/-- Makes a frame, and a handle to it. -/
def link (grove : Grove) (parent : Option Scope) (frame : Table Value) : Grove :=
  let (scope, store) := grove.store.link parent frame
  { store, handles := scope :: grove.handles }

def perform {Handle : Type} (grove : Grove) (resolve : Handle → Scope) (scope : Scope)
    (request : Request Handle) : Grove :=
  { grove with store := (grove.store.perform resolve scope request).2 }

/-- What becomes of a grove when frames are made inside its scopes and requests are carried out
through its handles. -/
inductive Leads (start : Grove) : Grove → Prop where
  | start : Leads start start
  | link {grove : Grove} {parent : Option Scope} (frame : Table Value) : Leads start grove →
    (∀ scope ∈ parent, scope ∈ grove.handles) → Leads start (grove.link parent frame)
  | request {Handle : Type} {resolve : Handle → Scope} {grove : Grove} {scope : Scope}
    (request : Request Handle) : Leads start grove → scope ∈ grove.handles →
    (∀ handle, resolve handle ∈ grove.handles) → Leads start (grove.perform resolve scope request)

/-- Chains are of frames that there are, each made later than the ones around it; and they are the
chains of trees. -/
structure Sound (grove : Grove) : Prop where
  lt_size : ∀ scope ∈ grove.handles, ∀ id ∈ scope.frames, id < grove.store.frames.size
  sorted : ∀ scope ∈ grove.handles, scope.frames.Pairwise (· > ·)
  joins : ∀ scope ∈ grove.handles, ∀ other ∈ grove.handles, scope.Joins other

theorem Sound.link {grove : Grove} (h : grove.Sound) {parent : Option Scope}
    (hparent : ∀ scope ∈ parent, scope ∈ grove.handles) (frame : Table Value) :
    (grove.link parent frame).Sound := by
  obtain ⟨outer, heq, hlt, hsorted, hjoins⟩ : ∃ outer : List FrameId,
      grove.link parent frame
          = ⟨grove.store.push frame, ⟨grove.store.frames.size, outer⟩ :: grove.handles⟩
        ∧ (∀ id ∈ outer, id < grove.store.frames.size) ∧ outer.Pairwise (· > ·)
        ∧ ∀ other ∈ grove.handles, other.frame ∈ outer → other.frames <:+ outer := by
    cases parent with
    | none => exact ⟨[], rfl, nofun, .nil, fun _ _ => nofun⟩
    | some scope =>
      have hscope := hparent scope rfl
      exact ⟨scope.frames, rfl, h.lt_size scope hscope, h.sorted scope hscope,
        h.joins scope hscope⟩
  rw [heq]
  refine ⟨fun scope hscope id hid => ?_, fun scope hscope => ?_,
    fun scope hscope other hother => ?_⟩
  · rw [Store.size_push]
    rcases List.mem_cons.1 hscope with rfl | hscope
    · rcases List.mem_cons.1 hid with rfl | hid
      · exact Nat.lt_succ_self _
      · exact Nat.lt_succ_of_lt (hlt id hid)
    · exact Nat.lt_succ_of_lt (h.lt_size scope hscope id hid)
  · rcases List.mem_cons.1 hscope with rfl | hscope
    · exact List.pairwise_cons.2 ⟨hlt, hsorted⟩
    · exact h.sorted scope hscope
  · intro hmem
    rcases List.mem_cons.1 hscope with rfl | hscope <;>
      rcases List.mem_cons.1 hother with rfl | hother
    · exact List.suffix_refl _
    · rcases List.mem_cons.1 hmem with hnew | hmem
      · exact absurd hnew (Nat.ne_of_lt (h.lt_size other hother _ List.mem_cons_self))
      · exact (hjoins other hother hmem).trans (List.suffix_cons _ _)
    · exact absurd (h.lt_size scope hscope _ hmem) (Nat.lt_irrefl _)
    · exact h.joins scope hscope other hother hmem

theorem Sound.perform {Handle : Type} {grove : Grove} (h : grove.Sound) (resolve : Handle → Scope)
    (scope : Scope) (request : Request Handle) : (grove.perform resolve scope request).Sound := by
  refine ⟨fun other hother id hid => ?_, h.sorted, h.joins⟩
  have hsize := Store.size_perform resolve scope request grove.store
  exact hsize ▸ h.lt_size other hother id hid

/-- However frames and requests come about, the handles are those of trees. -/
theorem Leads.sound {start grove : Grove} (h : start.Leads grove) (hstart : start.Sound) :
    grove.Sound := by
  induction h with
  | start => exact hstart
  | link frame _ hparent ih => exact ih.link hparent frame
  | request request _ _ _ ih => exact ih.perform _ _ request

theorem sound_empty : ({} : Grove).Sound :=
  ⟨nofun, nofun, nofun⟩

theorem Leads.mem_handles {start grove : Grove} (h : start.Leads grove) {scope : Scope}
    (hscope : scope ∈ start.handles) : scope ∈ grove.handles := by
  induction h with
  | start => exact hscope
  | link frame _ _ ih => exact List.mem_cons_of_mem _ ih
  | request _ _ _ _ ih => exact ih

section Stable

variable {grove : Grove} (h : grove.Sound) {scope : Scope} (hscope : scope ∈ grove.handles)
include h hscope

theorem Sound.stable_owner (name : String) (id : FrameId) :
    Store.Stable (· ∈ grove.handles) fun store => store.owner? scope name = some id :=
  Store.stable_owner (h.sorted scope hscope) (h.joins scope hscope) name id

theorem Sound.owner?_link {parent : Option Scope} (frame : Table Value) (name : String) :
    (grove.link parent frame).store.owner? scope name = grove.store.owner? scope name := by
  have hpush : (grove.link parent frame).store = grove.store.push frame := by
    cases parent <;> rfl
  rw [hpush, Store.owner?_push (h.lt_size scope hscope)]

end Stable

/-- A name keeps its owner while frames are made and requests are carried out. -/
theorem owner_stable {start grove : Grove} (h : start.Leads grove) (hstart : start.Sound)
    {scope : Scope} (hscope : scope ∈ start.handles) {name : String} {id : FrameId}
    (howner : start.store.owner? scope name = some id) :
    grove.store.owner? scope name = some id := by
  induction h with
  | start => exact howner
  | link frame hleads _ ih =>
    rw [(hleads.sound hstart).owner?_link (hleads.mem_handles hscope)]
    exact ih
  | request request hleads hthrough hresolve ih =>
    have hstable := (hleads.sound hstart).stable_owner (hleads.mem_handles hscope) name id
    exact Store.perform_preserves hstable hresolve request _ _ hthrough ih

end Grove

/-- Once a name is declared in a chain, the frame that it belongs to stays the same: after whatever
frames are made and requests carried out in the tree, and all the while that another request is
carried out, inside the bodies of modifications too. So that frame has the name from then on, every
read and write through the handle goes to it, and a modification writes back as a `set` does after
the body. -/
theorem resolution_stable {start grove : Grove} (hstart : ({} : Grove).Leads start)
    (hgrove : start.Leads grove) {scope : Scope} (hscope : scope ∈ start.handles) {name : String}
    {id : FrameId} (howner : start.store.owner? scope name = some id) :
    grove.store.owner? scope name = some id
      ∧ (grove.store.frame id).contains name
      ∧ (∀ tail, grove.store.get? scope ⟨name, tail⟩ = grove.store.read? id ⟨name, tail⟩)
      ∧ (∀ tail value, grove.store.set scope ⟨name, tail⟩ value
          = grove.store.write id ⟨name, tail⟩ value)
      ∧ ∀ (Handle : Type) (resolve : Handle → Scope),
        (∀ handle, resolve handle ∈ grove.handles) →
        (∀ other ∈ grove.handles, ∀ request,
          ∀ state ∈ grove.store.states resolve other request,
            state.owner? scope name = some id ∧ (state.frame id).contains name)
        ∧ ∀ tail body old, grove.store.get? scope ⟨name, tail⟩ = some old →
          let ((new, reply), later) := grove.store.finish resolve (body old)
          grove.store.perform resolve scope (.modify ⟨name, tail⟩ body)
              = (some reply, later.set scope ⟨name, tail⟩ new)
            ∧ later.set scope ⟨name, tail⟩ new = later.write id ⟨name, tail⟩ new := by
  have hsound : start.Sound := hstart.sound Grove.sound_empty
  have hlater : grove.store.owner? scope name = some id :=
    Grove.owner_stable hgrove hsound hscope howner
  have hstable := (hgrove.sound hsound).stable_owner (hgrove.mem_handles hscope) name id
  have hset : ∀ store : Store, store.owner? scope name = some id → ∀ tail value,
      store.set scope ⟨name, tail⟩ value = store.write id ⟨name, tail⟩ value :=
    fun store howner tail value => by simp [Store.set, howner]
  have hget : ∀ tail, grove.store.get? scope ⟨name, tail⟩ = grove.store.read? id ⟨name, tail⟩ :=
    fun tail => by simp [Store.get?, hlater]
  refine ⟨hlater, (Store.contains_of_owner? hlater).2, hget, hset _ hlater, ?_⟩
  intro Handle resolve hresolve
  refine ⟨fun other hother request state hstate => ?_, fun tail body old hold => ?_⟩
  · have howns := Store.states_preserve hstable hresolve request other _ hother hlater state hstate
    exact ⟨howns, (Store.contains_of_owner? howns).2⟩
  · rw [hget] at hold
    have hbody := Store.finish_preserves hstable hresolve (body old) _ hlater
    rcases hfinish : grove.store.finish resolve (body old) with ⟨⟨new, reply⟩, later⟩
    rw [hfinish] at hbody
    simp only [Store.perform, hlater, hold, hfinish, hset later hbody, and_self]

/-- While the innermost of three frames modifies a variable of the outermost, the one between them
sets the same variable and makes another. -/
theorem resolution_stable_of_three :
    let outermost : Table Value := .ofList [("seen", .null)]
    let start := ((({} : Grove).link none outermost).link (some ⟨0, []⟩) {}).link
      (some ⟨1, [0]⟩) {}
    let request : Request Unit := .modify ⟨"seen", []⟩ fun _ =>
      .ask () (.set ⟨"seen", []⟩ .null) fun _ => .ask () (.set ⟨"fresh", []⟩ .null) fun _ =>
        .finish (.bool true) .null
    let grove := start.perform (fun _ => ⟨1, [0]⟩) ⟨2, [1, 0]⟩ request
    start.store.owner? ⟨2, [1, 0]⟩ "seen" = some 0 ∧ grove.store.owner? ⟨2, [1, 0]⟩ "seen" = some 0
      ∧ grove.store.owner? ⟨2, [1, 0]⟩ "fresh" = some 1 := by
  intro outermost start request grove
  have hstart : ({} : Grove).Leads start := by
    refine .link _ (.link _ (.link _ .start ?_) ?_) ?_ <;> decide
  have howner : start.store.owner? ⟨2, [1, 0]⟩ "seen" = some 0 := by
    decide +kernel
  have hgrove : start.Leads grove := by
    refine .request request .start ?_ fun _ => ?_ <;> decide
  have hscope : (⟨2, [1, 0]⟩ : Scope) ∈ start.handles := by
    decide
  exact ⟨howner, (resolution_stable hstart hgrove hscope howner).1, by decide +kernel⟩

end BehaviorTree
