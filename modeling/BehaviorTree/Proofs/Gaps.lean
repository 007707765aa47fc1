import BehaviorTree.Proofs.Asking
import BehaviorTree.Proofs.Lockstep
import BehaviorTree.Proofs.Simulation
import BehaviorTree.Proofs.Writes

/-!
# Frames put in between

In a store some frames that declare nothing are put in between the others (`Gap`), and into the
chains that reach them. Nobody is told of them, unless by the length of a chain: a request that
does not ask for it is answered as before, and writes what it wrote before (`Gap.Stores.perform`).
So the calls of an action without and with them are in lockstep (`Action.process_inStep`).
-/

namespace BehaviorTree

mutual

/-- Whether a request does not ask how many frames there are. -/
def Request.IsBlind {Handle : Type} : Request Handle → Prop
  | .modify _ body => ∀ old, (body old).IsBlind
  | .depth => False
  | .get _ | .set _ _ | .declares _ | .defines _ | .names => True

def Update.IsBlind {Handle : Type} : Update Handle → Prop
  | .finish _ _ => True
  | .ask _ request next => request.IsBlind ∧ ∀ answer, (next answer).IsBlind

end

theorem Store.frame_of_size_le (store : Store) {id : FrameId} (h : store.frames.size ≤ id) :
    store.frame id = Table.empty := by
  simp [Store.frame, Array.getD_eq_getD_getElem?, Array.getElem?_eq_none h]

/-- Frames put in between: the place of the first, and how many there are. -/
structure Gap where
  start : Nat
  count : Nat

namespace Gap

variable (g : Gap)

/-- The place of a frame, once there are the new ones. -/
def shift (id : Nat) : Nat :=
  if id < g.start then id else id + g.count

/-- Whether a frame is a new one. -/
def has (id : Nat) : Bool :=
  g.start ≤ id && id < g.start + g.count

theorem shift_injective : Function.Injective g.shift := by
  intro id other h
  unfold shift at h
  split at h <;> split at h <;> omega

@[simp] theorem has_shift (id : Nat) : g.has (g.shift id) = false := by
  unfold has shift
  split <;> simp only [Bool.and_eq_false_iff, decide_eq_false_iff_not] <;> omega

theorem shift_of_lt {id : Nat} (h : id < g.start) : g.shift id = id :=
  if_pos h

theorem has_of_lt {id : Nat} (h : id < g.start) : g.has id = false := by
  simp [has, Nat.not_le.2 h]

theorem shift_lt_iff {size : Nat} (h : g.start ≤ size) (id : Nat) :
    g.shift id < size + g.count ↔ id < size := by
  unfold shift
  split <;> omega

/-- A chain of frames, and the chain with some new ones in between. -/
def Chains (chain chain' : List FrameId) : Prop :=
  chain'.filter (!g.has ·) = chain.map g.shift

/-- Chains whose first frame is none of the new ones. -/
structure Scopes (scope scope' : Scope) : Prop where
  frame : scope'.frame = g.shift scope.frame
  outer : g.Chains scope.outer scope'.outer

/-- A store, and the store with the new frames. -/
structure Stores (store store' : Store) : Prop where
  start : g.start ≤ store.frames.size
  size : store'.frames.size = store.frames.size + g.count
  frame : ∀ id, store'.frame (g.shift id) = store.frame id
  spare : ∀ id, g.has id → store'.frame id = Table.empty

variable {g}

/-- A chain in which there are no new frames yet. -/
theorem chains_of_lt {chain : List FrameId} (h : ∀ id ∈ chain, id < g.start) :
    g.Chains chain chain := by
  unfold Chains
  rw [List.filter_eq_self.2 fun id hid => by rw [g.has_of_lt (h id hid)]; rfl]
  exact (List.map_id chain).symm.trans
    (List.map_congr_left fun id hid => (g.shift_of_lt (h id hid)).symm)

theorem scopes_of_lt {scope : Scope} (h : ∀ id ∈ scope.frames, id < g.start) :
    g.Scopes scope scope :=
  ⟨(g.shift_of_lt (h scope.frame List.mem_cons_self)).symm,
    chains_of_lt fun id hid => h id (List.mem_cons_of_mem _ hid)⟩

theorem Chains.cons_shift {chain chain' : List FrameId} (h : g.Chains chain chain')
    (id : FrameId) : g.Chains (id :: chain) (g.shift id :: chain') := by
  unfold Chains at *
  rw [List.filter_cons_of_pos (by simp), h, List.map_cons]

theorem Chains.cons_spare {chain chain' : List FrameId} (h : g.Chains chain chain')
    {id : FrameId} (hid : g.has id) : g.Chains chain (id :: chain') := by
  unfold Chains at *
  rwa [List.filter_cons_of_neg (by simp [hid])]

theorem Scopes.frames {scope scope' : Scope} (h : g.Scopes scope scope') :
    g.Chains scope.frames scope'.frames := by
  unfold Scope.frames
  rw [h.frame]
  exact h.outer.cons_shift scope.frame

namespace Stores

variable {store store' : Store}

/-- The nearest frame with a name is where it was, and it is none of the new ones. -/
theorem find?_frames_eq (h : g.Stores store store') {chain chain' : List FrameId}
    (hchain : g.Chains chain chain') (name : String) :
    chain'.find? (fun id => (store'.frame id).contains name)
      = (chain.find? fun id => (store.frame id).contains name).map g.shift := by
  have hspare : ∀ id, (store'.frame id).contains name
      = decide ((!g.has id) = true ∧ (store'.frame id).contains name = true) := fun id => by
    cases hid : g.has id with
    | false => simp
    | true => rw [h.spare id hid]; rfl
  calc chain'.find? (fun id => (store'.frame id).contains name)
      = (chain'.filter (!g.has ·)).find? fun id => (store'.frame id).contains name := by
        rw [List.find?_filter]
        exact congrArg (List.find? · _) (funext hspare)
    _ = (chain.map g.shift).find? fun id => (store'.frame id).contains name := by
        rw [hchain]
    _ = (chain.find? fun id => (store.frame id).contains name).map g.shift := by
        rw [List.find?_map]
        refine congrArg _ (congrArg (List.find? · _) (funext fun id => ?_))
        rw [Function.comp_apply, h.frame]

theorem owner?_eq (h : g.Stores store store') {scope scope' : Scope}
    (hscope : g.Chains scope.frames scope'.frames) (name : String) :
    store'.owner? scope' name = (store.owner? scope name).map g.shift :=
  h.find?_frames_eq hscope name

theorem read?_eq (h : g.Stores store store') (id : FrameId) (path : Path) :
    store'.read? (g.shift id) path = store.read? id path := by
  unfold Store.read?
  rw [h.frame]

theorem get?_eq (h : g.Stores store store') {scope scope' : Scope} (hscope : g.Scopes scope scope')
    (path : Path) : store'.get? scope' path = store.get? scope path := by
  unfold Store.get?
  rw [h.owner?_eq hscope.frames]
  cases store.owner? scope path.head with
  | none => rfl
  | some id => exact h.read?_eq id path

theorem write (h : g.Stores store store') (id : FrameId) (path : Path) (value : Value) :
    g.Stores (store.write id path value) (store'.write (g.shift id) path value) := by
  have hsize : ∀ (store : Store) id, (store.write id path value).frames.size = store.frames.size :=
    fun store id => by simp [Store.write]
  have hlt := g.shift_lt_iff h.start id
  rw [← h.size] at hlt
  refine ⟨by rw [hsize]; exact h.start, by rw [hsize, hsize, h.size], fun other => ?_,
    fun other hother => ?_⟩
  · by_cases hid : id < store.frames.size
    · rw [Store.frame_write (hlt.2 hid), Store.frame_write hid, h.frame, h.frame]
      by_cases heq : other = id
      · rw [heq, if_pos rfl, if_pos rfl]
      · rw [if_neg fun hshift => heq (g.shift_injective hshift), if_neg heq]
    · rw [Store.write_of_le (Nat.not_lt.1 (mt hlt.1 hid)), Store.write_of_le (Nat.not_lt.1 hid),
        h.frame]
  · have hne : other ≠ g.shift id := fun heq => by
      rw [heq, g.has_shift] at hother
      cases hother
    by_cases hid : id < store.frames.size
    · rw [Store.frame_write (hlt.2 hid), if_neg hne, h.spare other hother]
    · rw [Store.write_of_le (Nat.not_lt.1 (mt hlt.1 hid)), h.spare other hother]

theorem set (h : g.Stores store store') {scope scope' : Scope} (hscope : g.Scopes scope scope')
    (path : Path) (value : Value) :
    g.Stores (store.set scope path value) (store'.set scope' path value) := by
  unfold Store.set
  rw [h.owner?_eq hscope.frames, hscope.frame]
  cases store.owner? scope path.head with
  | none => exact h.write _ path value
  | some id => exact h.write id path value

theorem shift_size (h : g.Stores store store') :
    g.shift store.frames.size = store'.frames.size := by
  have hstart := h.start
  rw [h.size]
  exact if_neg (Nat.not_lt.2 hstart)

/-- The next frame is made after the new ones. -/
theorem push (h : g.Stores store store') (frame : Table Value) :
    g.Stores (store.push frame) (store'.push frame) := by
  have hshift := h.shift_size
  refine ⟨Nat.le_trans h.start (by simp), by simp [h.size, Nat.add_right_comm], fun id => ?_,
    fun id hid => ?_⟩
  · rw [Store.frame_push, Store.frame_push, ← hshift, h.frame]
    by_cases heq : id = store.frames.size
    · rw [heq, if_pos rfl, if_pos rfl]
    · rw [if_neg fun h => heq (g.shift_injective h), if_neg heq]
  · have hne : id ≠ store'.frames.size := fun heq => by
      rw [heq, ← hshift, g.has_shift] at hid
      cases hid
    rw [Store.frame_push, if_neg hne, h.spare id hid]

/-- No frames put in between. -/
theorem refl {start : Nat} (h : start ≤ store.frames.size) :
    (Gap.mk start 0).Stores store store := by
  refine ⟨h, rfl, fun id => ?_, fun id hid => ?_⟩
  · unfold shift
    split <;> rfl
  · simp only [has, Bool.and_eq_true, decide_eq_true_eq, Nat.add_zero] at hid
    exact absurd hid.2 (Nat.not_lt.2 hid.1)

/-- One more frame at the end. -/
theorem push_spare {count : Nat} (h : (Gap.mk store.frames.size count).Stores store store') :
    (Gap.mk store.frames.size (count + 1)).Stores store (store'.push Table.empty) := by
  have hsize : store'.frames.size = store.frames.size + count := h.size
  refine ⟨Nat.le_refl _, by rw [Store.size_push, hsize]; rfl, fun id => ?_, fun id hid => ?_⟩
  · by_cases hid : id < store.frames.size
    · have hsame := h.frame id
      rw [shift_of_lt _ hid] at hsame ⊢
      have hlt : id < store'.frames.size := by omega
      rw [Store.frame_push, if_neg (Nat.ne_of_lt hlt), hsame]
    · have hshift : (Gap.mk store.frames.size (count + 1)).shift id = id + (count + 1) :=
        if_neg hid
      rw [hshift, store.frame_of_size_le (Nat.not_lt.1 hid), Store.frame_of_size_le]
      rw [Store.size_push, hsize]
      omega
  · simp only [has, Bool.and_eq_true, decide_eq_true_eq] at hid
    by_cases hlast : id = store'.frames.size
    · rw [Store.frame_push, if_pos hlast]
    · rw [Store.frame_push, if_neg hlast]
      refine h.spare id ?_
      simp only [has, Bool.and_eq_true, decide_eq_true_eq]
      omega

variable {Handle : Type} {resolve resolve' : Handle → Scope}

mutual

/-- A request that does not ask for the length of a chain is answered the same. -/
theorem perform (hresolve : ∀ handle, g.Scopes (resolve handle) (resolve' handle)) :
    ∀ (request : Request Handle) {scope scope' : Scope} {store store' : Store}, request.IsBlind →
    g.Scopes scope scope' → g.Stores store store' →
    (store'.perform resolve' scope' request).1 = (store.perform resolve scope request).1
      ∧ g.Stores (store.perform resolve scope request).2
        (store'.perform resolve' scope' request).2
  | .get path, scope, scope', store, store', _, hscope, h => by
    rw [Store.perform, Store.perform]
    exact ⟨h.get?_eq hscope path, h⟩
  | .set path value, scope, scope', store, store', _, hscope, h => by
    rw [Store.perform, Store.perform]
    exact ⟨rfl, h.set hscope path value⟩
  | .modify path body, scope, scope', store, store', hblind, hscope, h => by
    rw [Store.perform, Store.perform, h.owner?_eq hscope.frames]
    cases store.owner? scope path.head with
    | none => exact ⟨rfl, h⟩
    | some id =>
      simp only [Option.map_some, h.read?_eq]
      cases store.read? id path with
      | none => exact ⟨rfl, h⟩
      | some old =>
        rw [Request.IsBlind] at hblind
        obtain ⟨hreply, hlater⟩ := finish hresolve (body old) (hblind old) h
        simp only []
        generalize store.finish resolve (body old) = finished at hreply hlater ⊢
        generalize store'.finish resolve' (body old) = finished' at hreply hlater ⊢
        obtain ⟨reply, later⟩ := finished
        obtain ⟨reply', later'⟩ := finished'
        obtain rfl : reply' = reply := hreply
        exact ⟨rfl, hlater.write id path _⟩
  | .declares name, scope, scope', store, store', _, hscope, h => by
    rw [Store.perform, Store.perform, Store.declares, Store.declares, hscope.frame, h.frame]
    exact ⟨rfl, h⟩
  | .defines name, scope, scope', store, store', _, hscope, h => by
    rw [Store.perform, Store.perform, Store.defines, Store.defines, h.owner?_eq hscope.frames,
      Option.isSome_map]
    exact ⟨rfl, h⟩
  | .names, scope, scope', store, store', _, hscope, h => by
    rw [Store.perform, Store.perform, Store.names, Store.names, hscope.frame, h.frame]
    exact ⟨rfl, h⟩
  | .depth, scope, scope', store, store', hblind, hscope, h => by
    rw [Request.IsBlind] at hblind
    exact hblind.elim

theorem finish (hresolve : ∀ handle, g.Scopes (resolve handle) (resolve' handle)) :
    ∀ (update : Update Handle) {store store' : Store}, update.IsBlind → g.Stores store store' →
    (store'.finish resolve' update).1 = (store.finish resolve update).1
      ∧ g.Stores (store.finish resolve update).2 (store'.finish resolve' update).2
  | .finish value reply, store, store', _, h => by
    rw [Store.finish, Store.finish]
    exact ⟨rfl, h⟩
  | .ask handle request next, store, store', hblind, h => by
    rw [Update.IsBlind] at hblind
    obtain ⟨hanswer, hlater⟩ := perform hresolve request hblind.1 (hresolve handle) h
    rw [Store.finish, Store.finish]
    simp only [hanswer]
    exact finish hresolve (next _) (hblind.2 _) hlater

end

end Stores

/-- Events, where a leaf is called with a scope and with the scope that has the new frames. -/
inductive Events (g : Gap) : Event → Event → Prop
  | call {scope scope' : Scope} (h : g.Scopes scope scope') (path : Option String)
    (input : Value) : Events g (.call scope path input) (.call scope' path input)
  | other {event : Event} (h : event.isCall = false) : Events g event event

/-- A world, and the world with the new frames. -/
structure Worlds (g : Gap) (world world' : World) : Prop where
  stores : g.Stores world.store world'.store
  events : List.Forall₂ g.Events world.events world'.events

theorem Events.isTrace_eq {event event' : Event} (h : g.Events event event') :
    event.isTrace = event'.isTrace := by
  cases h <;> rfl

theorem Worlds.emit {world world' : World} (h : g.Worlds world world') {event event' : Event}
    (hevent : g.Events event event') : g.Worlds (world.emit event) (world'.emit event') :=
  ⟨h.stores, .cons hevent h.events⟩

theorem Worlds.ask {world world' : World} (h : g.Worlds world world') {scope scope' : Scope}
    (hscope : g.Scopes scope scope') {request : Request Unit} (hblind : request.IsBlind) :
    (world.ask scope request).1 = (world'.ask scope' request).1
      ∧ g.Worlds (world.ask scope request).2 (world'.ask scope' request).2 := by
  obtain ⟨hanswer, hstores⟩ := h.stores.perform (fun _ => hscope) request hblind hscope
  exact ⟨hanswer.symm, hstores, h.events⟩

end Gap

namespace Process

variable {g : Gap}

theorem ask_inStep {scope scope' : Scope} (hscope : g.Scopes scope scope') {request : Request Unit}
    (hblind : request.IsBlind) {next next' : Option Value → Process}
    (h : ∀ answer, (next answer).InStep g.Worlds (next' answer)) :
    (ask scope request next).InStep g.Worlds (ask scope' request next') :=
  .ask (fun hworld => hworld.ask hscope hblind) h

theorem emit_inStep {event event' : Event} (hevent : g.Events event event')
    {next next' : Unit → Process} (h : (next ()).InStep g.Worlds (next' ())) :
    (emit event next).InStep g.Worlds (emit event' next') :=
  .emit hevent.isTrace_eq (fun hworld => hworld.emit hevent) h

theorem panicked_inStep (message : String) :
    (panicked message).InStep g.Worlds (panicked message) :=
  emit_inStep (.other rfl) (.done _)

theorem settle_inStep : ∀ used : Option Outcome, (settle used).InStep g.Worlds (settle used)
  | some outcome => .done outcome
  | none => emit_inStep (.other rfl) (.done _)

end Process

namespace Code

variable {α : Type} {P : α → Prop} {g : Gap} {scope scope' : Scope}

theorem inCall_inStep {finish finish' : Handle → α → Process} {fail : Handle → String → Process}
    (hscope : g.Scopes scope scope')
    (hfinish : ∀ used result, P result →
      (finish used result).InStep g.Worlds (finish' used result))
    (hfail : ∀ used message, (fail used message).InStep g.Worlds (fail used message))
    (code : Code α) : code.Asks Request.IsBlind P → ∀ used,
      (code.inCall scope finish fail used).InStep g.Worlds
        (code.inCall scope' finish' fail used) := by
  induction code with
  | done result => exact fun h used => hfinish used result h
  | panic message => exact fun _ used => hfail used message
  | ask request next ih =>
    exact fun h used => Process.ask_inStep hscope h.1 fun answer => ih answer (h.2 answer) used
  | put line next ih => exact fun h used => Process.emit_inStep (.other rfl) (ih () h used)
  | sleep ms next ih => exact fun h used => ih () h used
  | complete outcome next ih => exact fun h used => ih () h _

theorem inPromise_inStep {finish : α → Process} {fail : String → Process}
    (hscope : g.Scopes scope scope')
    (hfinish : ∀ result, (finish result).InStep g.Worlds (finish result))
    (hfail : ∀ message, (fail message).InStep g.Worlds (fail message)) (code : Code α) :
    code.Asks Request.IsBlind P →
      (code.inPromise scope finish fail).InStep g.Worlds (code.inPromise scope' finish fail) := by
  induction code with
  | done result => exact fun _ => hfinish result
  | panic message => exact fun _ => hfail message
  | ask request next ih =>
    exact fun h => Process.ask_inStep hscope h.1 fun answer => ih answer (h.2 answer)
  | put line next ih => exact fun h => Process.emit_inStep (.other rfl) (ih () h)
  | sleep ms next ih => exact fun h => .sleep ms (ih () h)
  | complete outcome next ih => exact fun h => ih () h

theorem inBackground_inStep (hscope : g.Scopes scope scope') (code : Code α) :
    code.Asks Request.IsBlind P →
      (code.inBackground scope).InStep g.Worlds (code.inBackground scope') := by
  induction code with
  | done result => exact fun _ => .done _
  | panic message => exact fun _ => .done _
  | ask request next ih =>
    exact fun h => Process.ask_inStep hscope h.1 fun answer => ih answer (h.2 answer)
  | put line next ih => exact fun h => Process.emit_inStep (.other rfl) (ih () h)
  | sleep ms next ih => exact fun h => .sleep ms (ih () h)
  | complete outcome next ih => exact fun h => .complete outcome (ih () h)

end Code

/-- An action that does not ask for the length of its chain does the same with the new frames. -/
theorem Action.process_inStep {g : Gap} {scope scope' : Scope} (hscope : g.Scopes scope scope')
    {action : Action} (h : action.Asks Request.IsBlind) (input : Value) :
    (action.process scope input).InStep g.Worlds (action.process scope' input) := by
  cases action with
  | plain call =>
    exact Code.inCall_inStep hscope (fun _ _ _ => .done _)
      (fun _ => Process.panicked_inStep) _ (h input) none
  | boolean call =>
    exact Code.inCall_inStep hscope (fun _ _ _ => .done _)
      (fun _ => Process.panicked_inStep) _ (h input) none
  | promise call =>
    exact Code.inPromise_inStep hscope (fun _ => .done _) Process.panicked_inStep _ (h input)
  | callback call =>
    refine Code.inCall_inStep hscope (fun used work hwork => ?_) (fun used message => ?_) _
      (h input) none
    · cases work with
      | none => exact Process.settle_inStep _
      | some code =>
        have hcode := Code.inBackground_inStep hscope code (hwork code rfl)
        cases used with
        | none => exact .await hcode Process.settle_inStep
        | some used => exact .start hcode (Process.settle_inStep used)
    · rcases used with _ | _ | outcome
      · exact Process.panicked_inStep message
      · exact Process.panicked_inStep message
      · exact .done outcome

end BehaviorTree
