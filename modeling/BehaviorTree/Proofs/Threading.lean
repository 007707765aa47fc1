import BehaviorTree.Proofs.Attending
import BehaviorTree.Proofs.Compiling

/-!
# One payload through the leaves

A run of a tree without parallel nodes calls leaves in the order of the document, none of them
twice. The first is called with the input of the run and every other with the payload of the one
before, and the payload of the run is that of the last (`Node.Threads`). This is so whatever the
scopes answer and whatever the actions do (`Node.exists_threads`), and so in every schedule, in the
order of the machine and in place (`payload_threaded`).
-/

namespace BehaviorTree

namespace Node

mutual

/-- The positions of the leaves of a tree, in the order of the document. -/
def leaves : Node → List (List Nat)
  | .leaf _ _ _ => [[]]
  | .sequence _ children => leavesFrom 0 children
  | .selector _ children => leavesFrom 0 children
  | .parallel _ _ children => leavesFrom 0 children
  | .decorator _ _ child => child.leaves.map (0 :: ·)

/-- The positions of the leaves below children with indices from some one on. -/
def leavesFrom (i : Nat) : List Node → List (List Nat)
  | [] => []
  | child :: rest => child.leaves.map (i :: ·) ++ leavesFrom (i + 1) rest

end

/-- The children of a composite have all its leaves below them. -/
theorem leaves_eq_leavesFrom {tree : Node} (h : ∀ info path action, tree ≠ .leaf info path action) :
    tree.leaves = leavesFrom 0 tree.children := by
  cases tree with
  | leaf info path action => exact absurd rfl (h info path action)
  | decorator info d child => simp [leaves, children, leavesFrom]
  | _ => rfl

theorem mem_leavesFrom {position : List Nat} : ∀ {children : List Node} {i : Nat},
    position ∈ leavesFrom i children ↔ ∃ j child rest, children[j]? = some child
      ∧ rest ∈ child.leaves ∧ position = (i + j) :: rest
  | [], i => by simp [leavesFrom]
  | child :: others, i => by
    rw [leavesFrom, List.mem_append, mem_leavesFrom, List.mem_map]
    constructor
    · rintro (⟨rest, hrest, rfl⟩ | ⟨j, c, rest, hc, hrest, rfl⟩)
      · exact ⟨0, child, rest, rfl, hrest, rfl⟩
      · exact ⟨j + 1, c, rest, hc, hrest, by rw [Nat.add_assoc, Nat.add_comm 1]⟩
    · rintro ⟨_ | j, c, rest, hc, hrest, rfl⟩
      · obtain rfl := Option.some.inj hc
        exact .inl ⟨rest, hrest, rfl⟩
      · exact .inr ⟨j, c, rest, hc, hrest, by rw [Nat.add_assoc, Nat.add_comm 1]⟩

theorem mem_leaves (tree : Node) : ∀ {position : List Nat}, position ∈ tree.leaves
    ↔ ∃ info path action, tree.at? position = some (.leaf info path action) := by
  induction tree using Node.induction with
  | step tree ih =>
    intro position
    by_cases hleaf : ∃ info path action, tree = .leaf info path action
    · obtain ⟨info, path, action, rfl⟩ := hleaf
      cases position <;> simp [leaves, at?, children]
    · have hne : ∀ info path action, tree ≠ .leaf info path action :=
        fun info path action h => hleaf ⟨info, path, action, h⟩
      rw [leaves_eq_leavesFrom hne, mem_leavesFrom]
      cases position with
      | nil => simp [at?, hne]
      | cons i rest =>
        simp only [at?, Option.bind_eq_some_iff, Nat.zero_add, List.cons.injEq]
        constructor
        · rintro ⟨j, child, rest', hchild, hrest, rfl, rfl⟩
          obtain ⟨info, path, action, hat⟩ := (ih child (List.mem_of_getElem? hchild)).1 hrest
          exact ⟨info, path, action, child, hchild, hat⟩
        · rintro ⟨info, path, action, child, hchild, hat⟩
          exact ⟨i, child, rest, hchild,
            (ih child (List.mem_of_getElem? hchild)).2 ⟨info, path, action, hat⟩, rfl, rfl⟩

/-- The order of the document is that of the positions, index by index. -/
theorem leaves_pairwise (tree : Node) : tree.leaves.Pairwise (· < ·) := by
  have hfrom : ∀ (children : List Node) (i : Nat),
      (∀ child ∈ children, child.leaves.Pairwise (· < ·)) →
      (leavesFrom i children).Pairwise (· < ·) := by
    intro children
    induction children with
    | nil => exact fun i _ => .nil
    | cons child rest ih =>
      intro i h
      obtain ⟨hchild, hrest⟩ := List.forall_mem_cons.1 h
      rw [leavesFrom, List.pairwise_append]
      refine ⟨?_, ih (i + 1) hrest, ?_⟩
      · rw [List.pairwise_map]
        exact hchild.imp fun hlt => List.cons_lt_cons_iff.2 (.inr ⟨rfl, hlt⟩)
      · intro p hp q hq
        obtain ⟨p, -, rfl⟩ := List.mem_map.1 hp
        obtain ⟨j, -, q, -, -, rfl⟩ := mem_leavesFrom.1 hq
        exact List.cons_lt_cons_iff.2 (.inl (by omega))
  induction tree using Node.induction with
  | step tree ih =>
    by_cases hleaf : ∃ info path action, tree = .leaf info path action
    · obtain ⟨info, path, action, rfl⟩ := hleaf
      exact List.pairwise_singleton _ _
    · rw [leaves_eq_leavesFrom fun info path action h => hleaf ⟨info, path, action, h⟩]
      exact hfrom tree.children 0 ih

/-- No node of the tree is a parallel one. -/
def NoParallel (tree : Node) : Prop :=
  ∀ position info policy children, tree.at? position ≠ some (.parallel info policy children)

theorem NoParallel.child {tree child : Node} (h : tree.NoParallel)
    (hchild : child ∈ tree.children) : child.NoParallel := by
  intro position info policy children hat
  obtain ⟨i, hi⟩ := List.mem_iff_getElem?.1 hchild
  refine h (i :: position) info policy children ?_
  rw [at?, hi]
  exact hat

end Node

/-- The call of a leaf: its input, the exchanges of the leaf's action and its outcome. -/
structure Call where
  position : List Nat
  input : Value
  exchanges : List Exchange
  outcome : Outcome

/-- The call, by its position in the tree around. -/
def Call.below (i : Nat) (call : Call) : Call :=
  { call with position := i :: call.position }

/-- A payload is handed on: the first call gets it, every other one gets what the call before gave,
and what the last gave is left. -/
def Handed : Value → List Call → Value → Prop
  | payload, [], last => last = payload
  | payload, call :: rest, last => call.input = payload ∧ Handed call.outcome.payload rest last

theorem Handed.append : ∀ {first between last : Value} {calls later : List Call},
    Handed first calls between → Handed between later last → Handed first (calls ++ later) last
  | _, _, _, [], _, h, h' => h ▸ h'
  | _, _, _, _ :: _, _, h, h' => ⟨h.1, h.2.append h'⟩

theorem Handed.below {i : Nat} : ∀ {first last : Value} {calls : List Call},
    Handed first calls last → Handed first (calls.map (·.below i)) last
  | _, _, [], h => h
  | _, _, _ :: _, h => ⟨h.1, h.2.below⟩

namespace Node

/-- The tree has a leaf at the position of a call, whose action on the input has the exchanges of
the call and comes to its outcome. -/
def Makes (tree : Node) (call : Call) : Prop :=
  ∃ info path action, tree.at? call.position = some (.leaf info path action)
    ∧ (action.process info.scope call.input).Ends call.exchanges call.outcome

/-- What a run does in a call. -/
def exchangesOf (tree : Node) (call : Call) : List Exchange :=
  (tree.callEvent? (call.position, call.input)).toList.map .emit ++ call.exchanges

/-- A run with some exchanges makes some calls, of some of the leaves in their order, and does
nothing else; they hand on the input, and what is left of it is the payload. -/
structure Threads (tree : Node) (leaves : List (List Nat)) (input : Value) (xs : List Exchange)
    (calls : List Call) (payload : Value) : Prop where
  order : (calls.map Call.position).Sublist leaves
  made : ∀ call ∈ calls, tree.Makes call
  exchanges : xs.filter (!·.isTrace) = calls.flatMap tree.exchangesOf
  handed : Handed input calls payload

namespace Threads

variable {tree child : Node} {leaves later : List (List Nat)} {input payload last : Value}
  {xs ys : List Exchange} {calls more : List Call}

theorem nil (tree : Node) (leaves : List (List Nat)) (payload : Value) :
    tree.Threads leaves payload [] [] payload :=
  ⟨List.nil_sublist _, nofun, rfl, rfl⟩

theorem append (h : tree.Threads leaves input xs calls payload)
    (h' : tree.Threads later payload ys more last) :
    tree.Threads (leaves ++ later) input (xs ++ ys) (calls ++ more) last := by
  refine ⟨?_, fun call hcall => ?_, ?_, h.handed.append h'.handed⟩
  · rw [List.map_append]
    exact h.order.append h'.order
  · exact (List.mem_append.1 hcall).elim (h.made call) (h'.made call)
  · rw [List.filter_append, h.exchanges, h'.exchanges, List.flatMap_append]

/-- The lines of the trace make no difference. -/
theorem congr (h : tree.Threads leaves input xs calls payload)
    (hsame : ys.filter (!·.isTrace) = xs.filter (!·.isTrace)) :
    tree.Threads leaves input ys calls payload :=
  ⟨h.order, h.made, hsame.trans h.exchanges, h.handed⟩

/-- What a run of a child does is done by the tree. -/
theorem below {i : Nat} (h : child.Threads leaves input xs calls payload)
    (hchild : tree.children[i]? = some child) :
    tree.Threads (leaves.map (i :: ·)) input xs (calls.map (·.below i)) payload := by
  have hat : ∀ call : Call, tree.at? (call.below i).position = child.at? call.position := by
    intro call
    simp [Call.below, at?, hchild]
  have hexchanges : ∀ call : Call, tree.exchangesOf (call.below i) = child.exchangesOf call := by
    intro call
    have hevent : tree.callEvent? ((call.below i).position, call.input)
        = child.callEvent? (call.position, call.input) := by
      simp only [callEvent?, hat]
    unfold exchangesOf
    rw [show (call.below i).input = call.input from rfl, hevent]
    rfl
  refine ⟨?_, fun call hcall => ?_, ?_, h.handed.below⟩
  · have hmap : (calls.map (·.below i)).map Call.position
        = (calls.map Call.position).map (i :: ·) := by
      simp [Call.below, Function.comp_def]
    rw [hmap]
    exact h.order.map _
  · obtain ⟨inner, hinner, rfl⟩ := List.mem_map.1 hcall
    obtain ⟨info, path, action, hleaf, hends⟩ := h.made inner hinner
    exact ⟨info, path, action, (hat inner).trans hleaf, hends⟩
  · rw [h.exchanges, List.flatMap_map]
    exact (List.flatMap_congr fun call _ => hexchanges call).symm

end Threads

theorem filter_map_trace (lines : List String) :
    ((lines.map Event.trace).map Exchange.emit).filter (!·.isTrace) = [] := by
  refine List.filter_eq_nil_iff.2 fun x hx => ?_
  simp only [List.map_map, List.mem_map] at hx
  obtain ⟨line, -, rfl⟩ := hx
  simp [Exchange.isTrace, Exchange.event?, Event.isTrace]

/-- But for the lines of the trace, a node has the exchanges of what it does. -/
theorem ends_traced {trace : Trace} {node : Node} {body : Trace → Process} {xs : List Exchange}
    {outcome : Outcome} (h : (traced trace node body).Ends xs outcome) :
    ∃ ys, (body (trace.inside node.info)).Ends ys outcome
      ∧ xs.filter (!·.isTrace) = ys.filter (!·.isTrace) := by
  obtain ⟨rest, rfl, hrest⟩ := Process.ends_emitAll h
  obtain ⟨ys, between, zs, rfl, hys, hzs⟩ := Process.ends_bind hrest
  obtain ⟨last, rfl, hlast⟩ := Process.ends_emitAll hzs
  obtain ⟨rfl, rfl⟩ := Process.ends_done hlast
  exact ⟨ys, hys, by simp only [List.filter_append, filter_map_trace]; simp⟩

/-- A call of a leaf is that call and nothing else. -/
theorem threads_leaf {trace : Trace} {info : NodeInfo} {path : Option String} {action : Action}
    {input : Value} {xs : List Exchange} {outcome : Outcome}
    (h : (call trace info path action input).Ends xs outcome) :
    ∃ calls, (Node.leaf info path action).Threads [[]] input xs calls outcome.payload := by
  obtain ⟨rest, rfl, hrest⟩ := Process.ends_emitAll h
  obtain ⟨ys, rfl, hys⟩ := Process.ends_emit hrest
  have hacts := (Action.process_acts info.scope input action).comes hys
  have hown : ys.filter (!·.isTrace) = ys := by
    refine List.filter_eq_self.2 fun x hx => ?_
    cases x with
    | emit event =>
      have hline : (Exchange.emit event).isTrace = false :=
        Event.isTrace_eq_false (hacts.2 _ hx event rfl)
      rw [hline]
      rfl
    | _ => rfl
  refine ⟨[⟨[], input, ys, outcome⟩], List.Sublist.refl _, ?_, ?_, ⟨rfl, rfl⟩⟩
  · intro call hcall
    obtain rfl := List.mem_singleton.1 hcall
    exact ⟨info, path, action, rfl, hys⟩
  · rw [List.filter_append, filter_map_trace, List.nil_append, List.filter_cons_of_pos rfl, hown]
    simp [exchangesOf, callEvent?, at?]

/-- Every run of the tree makes some calls of its leaves that hand on the input. -/
def Threaded (tree : Node) : Prop :=
  ∀ (trace : Trace) (input : Value) (xs : List Exchange) (outcome : Outcome),
    (tree.process trace input).Ends xs outcome →
    ∃ calls, tree.Threads tree.leaves input xs calls outcome.payload

theorem threads_chain {tree : Node} (whileSuccess : Bool) (trace : Trace) :
    ∀ {children : List Node} {i : Nat}, tree.children.drop i = children →
    (∀ child ∈ children, child.Threaded) → ∀ {outcome last : Outcome} {xs : List Exchange},
    (chain whileSuccess children trace outcome).Ends xs last →
    ∃ calls, tree.Threads (leavesFrom i children) outcome.payload xs calls last.payload
  | [], i, _, _, outcome, last, xs, h => by
    rw [chain] at h
    obtain ⟨rfl, rfl⟩ := Process.ends_done h
    exact ⟨[], .nil tree _ _⟩
  | child :: rest, i, hdrop, hthreaded, outcome, last, xs, h => by
    obtain ⟨hchild, hrest⟩ := List.forall_mem_cons.1 hthreaded
    rw [chain] at h
    split at h
    · obtain ⟨ys, between, zs, rfl, hys, hzs⟩ := Process.ends_bind h
      obtain ⟨hget, hnext⟩ := getElem?_of_drop_eq_cons hdrop
      obtain ⟨calls, hcalls⟩ := hchild trace outcome.payload ys between hys
      obtain ⟨more, hmore⟩ := threads_chain whileSuccess trace hnext hrest hzs
      exact ⟨_, (hcalls.below hget).append hmore⟩
    · obtain ⟨rfl, rfl⟩ := Process.ends_done h
      exact ⟨[], .nil tree _ _⟩

/-- Whatever it is told, a run of a tree without parallel nodes makes calls of its leaves that hand
on the input. -/
theorem exists_threads {tree : Node} (h : tree.NoParallel) : tree.Threaded := by
  induction tree using Node.induction with
  | step tree ih =>
    intro trace input xs outcome hends
    have hchildren : ∀ child ∈ tree.children, child.Threaded := fun child hchild =>
      ih child hchild (h.child hchild)
    cases tree with
    | leaf info path action =>
      rw [process] at hends
      obtain ⟨ys, hys, hsame⟩ := ends_traced hends
      obtain ⟨calls, hcalls⟩ := threads_leaf hys
      exact ⟨calls, hcalls.congr hsame⟩
    | sequence info children | selector info children =>
      rw [process] at hends
      obtain ⟨ys, hys, hsame⟩ := ends_traced hends
      obtain ⟨calls, hcalls⟩ := threads_chain _ _ List.drop_zero hchildren hys
      exact ⟨calls, hcalls.congr hsame⟩
    | parallel info policy children => exact absurd rfl (h [] info policy children)
    | decorator info d child =>
      rw [process] at hends
      obtain ⟨ys, hys, hsame⟩ := ends_traced hends
      obtain ⟨zs, between, rest, rfl, hzs, hrest⟩ := Process.ends_bind hys
      obtain ⟨rfl, rfl⟩ := Process.ends_done hrest
      obtain ⟨calls, hcalls⟩ := hchildren child List.mem_cons_self _ input zs between hzs
      have hpayload : (d.apply between).payload = between.payload := by
        cases d <;> cases between <;> rfl
      rw [hpayload]
      have hbelow : (Node.decorator info d child).Threads _ input zs _ between.payload :=
        hcalls.below (i := 0) rfl
      exact ⟨_, hbelow.congr (by rw [hsame, List.append_nil])⟩

theorem traced_solo {trace : Trace} {node : Node} {body : Trace → Process}
    (h : (body (trace.inside node.info)).Lone) : (traced trace node body).Lone :=
  Process.emitAll_solo (Process.Solo.bind h fun outcome =>
    Process.emitAll_solo (.done outcome) fun _ _ => rfl) fun _ _ => rfl

theorem chain_solo (whileSuccess : Bool) (trace : Trace) : ∀ {children : List Node},
    (∀ child ∈ children, ∀ input, (child.process trace input).Lone) →
    ∀ outcome, (chain whileSuccess children trace outcome).Lone
  | [], _, outcome => .done outcome
  | child :: rest, h, outcome => by
    obtain ⟨hchild, hrest⟩ := List.forall_mem_cons.1 h
    rw [chain]
    split
    · exact Process.Solo.bind (hchild _) (chain_solo whileSuccess trace hrest)
    · exact .done outcome

/-- A tree without parallel nodes has nothing parallel to do. -/
theorem process_solo {tree : Node} (h : tree.NoParallel) :
    ∀ (trace : Trace) (input : Value), (tree.process trace input).Lone := by
  induction tree using Node.induction with
  | step tree ih =>
    intro trace input
    have hchildren : ∀ child ∈ tree.children, ∀ trace input, (child.process trace input).Lone :=
      fun child hchild => ih child hchild (h.child hchild)
    cases tree with
    | leaf info path action =>
      rw [process]
      have hacts := Action.process_acts info.scope input action
      exact traced_solo (Process.emitAll_solo (.emit rfl (hacts.imp fun _ _ => rfl)) fun _ _ => rfl)
    | sequence info children | selector info children =>
      rw [process]
      exact traced_solo (chain_solo _ _ (fun child hchild => hchildren child hchild _) _)
    | parallel info policy children => exact absurd rfl (h [] info policy children)
    | decorator info d child =>
      rw [process]
      exact traced_solo
        (Process.Solo.bind (hchildren child List.mem_cons_self _ input) fun _ => .done _)

/-- In a call of a leaf, that call is all that is called. -/
theorem calls_exchangesOf {tree : Node} {call : Call} (h : tree.Makes call) :
    (Exchange.calls (tree.exchangesOf call)).map some
      = [tree.callEvent? (call.position, call.input)] := by
  obtain ⟨info, path, action, hat, hends⟩ := h
  have hquiet : Exchange.calls call.exchanges = [] := by
    rw [Exchange.calls, Process.Acts.nodeEvents_eq_nil (action.process_acts _ _) hends]
    rfl
  have hevent : tree.callEvent? (call.position, call.input)
      = some (.call info.scope path call.input) := by
    simp only [callEvent?, hat]
  rw [exchangesOf, Exchange.calls_append, hquiet, hevent]
  rfl

/-- The calls among the exchanges are the calls of the leaves. -/
theorem Threads.map_calls {tree : Node} {leaves : List (List Nat)} {input payload : Value}
    {xs : List Exchange} {calls : List Call} (h : tree.Threads leaves input xs calls payload) :
    (Exchange.calls xs).map some
      = calls.map fun call => tree.callEvent? (call.position, call.input) := by
  rw [← Exchange.calls_filter, h.exchanges]
  have hmade := h.made
  clear h
  induction calls with
  | nil => rfl
  | cons call rest ih =>
    obtain ⟨hcall, hrest⟩ := List.forall_mem_cons.1 hmade
    rw [List.flatMap_cons, Exchange.calls_append, List.map_append, calls_exchangesOf hcall,
      ih hrest]
    rfl

theorem Threads.length_eq {tree : Node} {leaves : List (List Nat)} {input payload : Value}
    {xs : List Exchange} {calls : List Call} (h : tree.Threads leaves input xs calls payload) :
    calls.length = (Exchange.calls xs).length := by
  have hlength := congrArg List.length h.map_calls
  rw [List.length_map, List.length_map] at hlength
  exact hlength.symm

/-- The calls in the first exchanges of a run are the first of its calls. -/
theorem Threads.filterMap_take {tree : Node} {leaves : List (List Nat)} {input payload : Value}
    {xs more : List Exchange} {calls : List Call}
    (h : tree.Threads leaves input (xs ++ more) calls payload) :
    ((calls.take (Exchange.calls xs).length).filterMap fun call =>
      tree.callEvent? (call.position, call.input)) = Exchange.calls xs := by
  have hmap := h.map_calls.symm
  rw [Exchange.calls_append, List.map_append] at hmap
  have hfirst : (calls.take (Exchange.calls xs).length).map
      (fun call => tree.callEvent? (call.position, call.input)) = (Exchange.calls xs).map some := by
    rw [List.map_take, hmap, ← List.length_map (f := some), List.take_left]
  simpa [List.filterMap_map, Function.comp_def] using congrArg (List.filterMap id) hfirst

/-- A tree was started in a world, and its run had some exchanges since. It has made the first of
some calls that hand on the input, and no others; if it has come to an outcome, it has made them
all. -/
def HasMade (tree : Node) (trace : Trace) (input : Value) (xs : List Exchange)
    (before after : World) (outcome? : Option Outcome) : Prop :=
  ∃ more calls made outcome, (tree.process trace input).Ends (xs ++ more) outcome
    ∧ tree.Threads tree.leaves input (xs ++ more) calls outcome.payload ∧ made <+: calls
    ∧ after.calls = (made.filterMap fun call =>
      tree.callEvent? (call.position, call.input)).reverse ++ before.calls
    ∧ ∀ ended, outcome? = some ended → ended = outcome ∧ more = [] ∧ made = calls

theorem hasMade_of_comes {tree : Node} (h : tree.NoParallel) {trace : Trace} {input : Value}
    {before after : World} {outcome? : Option Outcome} {xs : List Exchange} {rest : Process}
    (hcomes : (tree.process trace input).Comes xs rest)
    (hevents : after.nodeEvents = (Exchange.nodeEvents xs).reverse ++ before.nodeEvents)
    (hended : ∀ outcome, outcome? = some outcome → rest = .done outcome) :
    tree.HasMade trace input xs before after outcome? := by
  obtain ⟨more, outcome, hmore⟩ := Process.exists_ends_of_ended hended
  have hends := hcomes.trans hmore.1
  obtain ⟨calls, hcalls⟩ := exists_threads h trace input (xs ++ more) outcome hends
  refine ⟨more, calls, calls.take (Exchange.calls xs).length, outcome, hends, hcalls,
    List.take_prefix _ _, ?_, fun ended heq => ?_⟩
  · rw [hcalls.filterMap_take, ← after.filter_isCall_nodeEvents, hevents, List.filter_append,
      before.filter_isCall_nodeEvents, List.filter_reverse]
    rfl
  · obtain ⟨rfl, rfl⟩ := hmore.2 ended heq
    rw [List.append_nil] at hcalls
    exact ⟨rfl, rfl, List.take_of_length_le hcalls.length_eq.le⟩

end Node

/-- The leaf calls of a run of a tree without parallel nodes are of some of its leaves, in the order
of the document; the first gets the input, every other one the payload of the one before, and the
payload of the run is that of the last call, or the input if there is none. This holds whatever the
run is told (of requests, completion handles and so on); of the calls that the world sees after any
schedule; of those on the machine in its own order; and of those in place, where the run ends. -/
theorem payload_threaded (tree : Node) (hparallel : tree.NoParallel) (trace : Trace)
    (input : Value) (world : World) :
    (tree.leaves.Pairwise (· < ·)
      ∧ ∀ position, position ∈ tree.leaves
        ↔ ∃ info path action, tree.at? position = some (.leaf info path action))
    ∧ (∀ xs outcome, (tree.process trace input).Ends xs outcome →
      ∃ calls, tree.Threads tree.leaves input xs calls outcome.payload)
    ∧ (∀ schedule : List Move,
      let machine := (Machine.begin (tree.process trace input) world).follow schedule
      ∃ xs, tree.HasMade trace input xs world machine.world (machine.outcome? 0))
    ∧ (let result := Machine.call { world } [tree.process trace input]
      ∃ outcome? xs, result.1 = [outcome?]
        ∧ tree.HasMade trace input xs world result.2.world outcome?)
    ∧ (let process := tree.process trace input
      let result := process.inPlace world
      tree.HasMade trace input (process.exchanges world) world result.drain
        (some result.outcome)) := by
  have hsolo := Node.process_solo hparallel trace input
  refine ⟨⟨tree.leaves_pairwise, fun position => tree.mem_leaves⟩,
    Node.exists_threads hparallel trace input, fun schedule => ?_, ?_, ?_⟩
  · obtain ⟨xs, hxs⟩ := Machine.exists_attends_follow hsolo world schedule
    obtain ⟨rest, hcomes, hended⟩ := hxs.exists_comes
    exact ⟨xs, Node.hasMade_of_comes hparallel hcomes hxs.nodeEvents hended⟩
  · obtain ⟨xs, hxs, hresult⟩ := Machine.exists_attends_call hsolo world
    obtain ⟨rest, hcomes, hended⟩ := hxs.exists_comes
    exact ⟨_, xs, hresult, Node.hasMade_of_comes hparallel hcomes hxs.nodeEvents hended⟩
  · have hends := (tree.process trace input).ends_exchanges world
    have hdrain : ((tree.process trace input).inPlace world).drain
        = ((tree.process trace input).inPlace world).world := by
      rw [InPlace.drain, hsolo.leftovers_inPlace world]
      rfl
    refine Node.hasMade_of_comes hparallel hends ?_ fun _ heq => congrArg _ (Option.some.inj heq)
    rw [hdrain]
    exact hsolo.nodeEvents_inPlace world

/-- Of two leaves under a selector the first fails, and the second is called with what it gave. -/
theorem payload_threaded_of_two :
    let info : NodeInfo :=
      { title := none, debug := none, waitForMe := false, convention := .plain, scope := ⟨0, []⟩ }
    let bad := Node.leaf info none (.plain fun _ => .done (.error (.bool true)))
    let good := Node.leaf info none (.plain fun v => .done (.ok v))
    let tree := Node.selector info [bad, good]
    let trace : Trace := { enabled := true, indent := 4 }
    let process := tree.process trace .null
    let result := process.inPlace {}
    tree.NoParallel ∧ tree.leaves = [[0], [1]]
      ∧ result.drain.calls = [.call info.scope none (.bool true), .call info.scope none .null]
      ∧ tree.HasMade trace .null (process.exchanges {}) {} result.drain
        (some (.success (.bool true))) := by
  intro info bad good tree trace process result
  have hparallel : tree.NoParallel := by
    rintro (_ | ⟨_ | _ | i, _ | ⟨j, rest⟩⟩) info policy children h <;>
      simp [Node.at?, tree, good, bad, Node.children] at h
  exact ⟨hparallel, rfl, rfl, (payload_threaded tree hparallel trace .null {}).2.2.2.2⟩

end BehaviorTree
