import BehaviorTree.Proofs.Dual
import BehaviorTree.Proofs.Gaps

/-!
# Nodes put in between

A node is put around another that makes no difference: a sequence or a selector of one child, or
two inverters (`Gap.Nodes.wrap`, `Gap.Nodes.inverters`); or some children of a sequence are made
children of a sequence among them (`Gap.Chained.gather`). The leaves are the same then, in the same
order, each with a scope that reaches the frame of the new node, and but for the lines of the trace
the runs are in lockstep.
-/

namespace BehaviorTree

namespace Node

mutual

/-- The leaves of a tree, in the order of the document. -/
def leafNodes : Node → List Node
  | .leaf info path action => [.leaf info path action]
  | .sequence _ children => leafNodesAll children
  | .selector _ children => leafNodesAll children
  | .parallel _ _ children => leafNodesAll children
  | .decorator _ _ child => leafNodes child

def leafNodesAll : List Node → List Node
  | [] => []
  | child :: rest => leafNodes child ++ leafNodesAll rest

end

theorem leafNodesAll_append : ∀ children others : List Node,
    leafNodesAll (children ++ others) = leafNodesAll children ++ leafNodesAll others
  | [], _ => rfl
  | child :: rest, others => by
    rw [List.cons_append, leafNodesAll, leafNodesAll, leafNodesAll_append rest, List.append_assoc]

/-- A chain in two parts: the second goes on with the outcome of the first. -/
theorem chain_append (whileSuccess : Bool) (trace : Trace) (others : List Node) :
    ∀ (children : List Node) (outcome : Outcome),
    chain whileSuccess (children ++ others) trace outcome
      = (chain whileSuccess children trace outcome).bind (chain whileSuccess others trace)
  | [], outcome => by rw [List.nil_append, chain, Process.bind]
  | child :: rest, outcome => by
    rw [List.cons_append, chain, chain]
    split
    · rw [Process.bind_assoc]
      exact congrArg _ (funext (chain_append whileSuccess trace others rest))
    · rename_i hstops
      cases others with
      | nil => rw [Process.bind, chain]
      | cons other others => rw [Process.bind, chain, if_neg hstops]

theorem chain_stops {whileSuccess : Bool} {outcome : Outcome}
    (h : outcome.isSuccess ≠ whileSuccess) (children : List Node) (trace : Trace) :
    chain whileSuccess children trace outcome = .done outcome := by
  cases children with
  | nil => rw [chain]
  | cons child rest => rw [chain, if_neg h]

theorem branches_eq_map (trace : Trace) (input : Value) : ∀ children : List Node,
    branches children trace input
      = children.map fun child => (child.info.waitForMe, child.process trace input)
  | [] => rfl
  | child :: rest => by rw [branches, branches_eq_map trace input rest, List.map_cons]

/-- A sequence or a selector. -/
def inOrder (whileSuccess : Bool) (info : NodeInfo) (children : List Node) : Node :=
  if whileSuccess then .sequence info children else .selector info children

theorem leafNodes_inOrder (whileSuccess : Bool) (info : NodeInfo) (children : List Node) :
    (inOrder whileSuccess info children).leafNodes = leafNodesAll children := by
  cases whileSuccess <;> rfl

theorem children_inOrder (whileSuccess : Bool) (info : NodeInfo) (children : List Node) :
    (inOrder whileSuccess info children).children = children := by
  cases whileSuccess <;> rfl

theorem exists_outcome (whileSuccess : Bool) (input : Value) :
    ∃ outcome : Outcome, outcome.isSuccess = whileSuccess ∧ outcome.payload = input := by
  cases whileSuccess
  · exact ⟨.failure input, rfl, rfl⟩
  · exact ⟨.success input, rfl, rfl⟩

/-- A sequence or a selector goes on for as long as it could with its input as the outcome of a
child. -/
theorem reflect_inOrder {whileSuccess : Bool} {outcome : Outcome}
    (h : outcome.isSuccess = whileSuccess) (info : NodeInfo) (children : List Node)
    (trace : Trace) :
    ((inOrder whileSuccess info children).process trace outcome.payload).reflect false false
      = (chain whileSuccess children (trace.inside info) outcome).reflect false false := by
  subst h
  cases outcome <;> exact reflect_traced trace _ _

end Node

namespace Gap

variable (g : Gap)

/-- A leaf, and the leaf whose scope reaches the new frames. -/
inductive Leaves : Node → Node → Prop
  | leaf {info info' : NodeInfo} (h : g.Scopes info.scope info'.scope) (path : Option String)
    (action : Action) : Leaves (.leaf info path action) (.leaf info' path action)

/-- Trees with the same leaves whose runs are in lockstep, but for the lines of the trace. -/
structure Nodes (tree tree' : Node) : Prop where
  leaves : List.Forall₂ g.Leaves tree.leafNodes tree'.leafNodes
  process : tree.Asks Request.IsBlind → ∀ trace trace' input,
    ((tree.process trace input).reflect false false).InStep g.Worlds
      ((tree'.process trace' input).reflect false false)

/-- Children with the same leaves whose runs one after the other are in lockstep. -/
structure Chained (whileSuccess : Bool) (children children' : List Node) : Prop where
  leaves : List.Forall₂ g.Leaves (Node.leafNodesAll children) (Node.leafNodesAll children')
  process : (∀ child ∈ children, child.Asks Request.IsBlind) → ∀ trace trace' outcome,
    ((Node.chain whileSuccess children trace outcome).reflect false false).InStep g.Worlds
      ((Node.chain whileSuccess children' trace' outcome).reflect false false)

variable {g} {whileSuccess : Bool} {children children' others others' : List Node}
  {tree tree' : Node} {info info' : NodeInfo}

namespace Chained

theorem nil : g.Chained whileSuccess [] [] :=
  ⟨.nil, fun _ _ _ outcome => by
    rw [Node.chain, Node.chain]
    exact .done outcome⟩

theorem append (h : g.Chained whileSuccess children children')
    (h' : g.Chained whileSuccess others others') :
    g.Chained whileSuccess (children ++ others) (children' ++ others') := by
  refine ⟨?_, fun hasks trace trace' outcome => ?_⟩
  · rw [Node.leafNodesAll_append, Node.leafNodesAll_append]
    exact List.rel_append h.leaves h'.leaves
  · rw [Node.chain_append, Node.chain_append, Process.reflect_bind false false false,
      Process.reflect_bind false false false]
    exact (h.process (fun child hchild => hasks child (List.mem_append_left _ hchild)) trace trace'
      outcome).bind fun outcome =>
        h'.process (fun child hchild => hasks child (List.mem_append_right _ hchild)) trace trace'
          outcome

theorem single (h : g.Nodes tree tree') : g.Chained whileSuccess [tree] [tree'] := by
  refine ⟨?_, fun hasks trace trace' outcome => ?_⟩
  · simpa only [Node.leafNodesAll, List.append_nil] using h.leaves
  · simp only [Node.chain]
    split
    · rw [Process.bind_done, Process.bind_done]
      exact h.process (hasks tree List.mem_cons_self) trace trace' _
    · exact .done outcome

theorem of_forall₂ (h : List.Forall₂ g.Nodes children children') :
    g.Chained whileSuccess children children' := by
  induction h with
  | nil => exact nil
  | cons hchild _ ih => exact (single hchild).append ih

end Chained

namespace Nodes

theorem leaf (h : g.Scopes info.scope info'.scope) (path : Option String) (action : Action) :
    g.Nodes (.leaf info path action) (.leaf info' path action) := by
  refine ⟨.cons (.leaf h path action) .nil, fun hasks trace trace' input => ?_⟩
  have haction : action.Asks Request.IsBlind := hasks [] info path action rfl
  rw [Node.process, Node.process, Node.reflect_traced, Node.reflect_traced, Node.call, Node.call,
    Process.reflect_emitAll, Process.reflect_emitAll]
  exact (Process.emit_inStep (.call h path input) (Action.process_inStep h haction input)).quiet

theorem inOrder (h : g.Chained whileSuccess children children') :
    g.Nodes (.inOrder whileSuccess info children) (.inOrder whileSuccess info' children') := by
  refine ⟨?_, fun hasks trace trace' input => ?_⟩
  · rw [Node.leafNodes_inOrder, Node.leafNodes_inOrder]
    exact h.leaves
  · obtain ⟨outcome, hgoes, rfl⟩ := Node.exists_outcome whileSuccess input
    rw [Node.reflect_inOrder hgoes, Node.reflect_inOrder hgoes]
    refine h.process (fun child hchild => hasks.child ?_) _ _ outcome
    rwa [Node.children_inOrder]

theorem parallel (policy : Policy) (h : List.Forall₂ g.Nodes children children')
    (hwait : children'.map (·.info.waitForMe) = children.map (·.info.waitForMe)) :
    g.Nodes (.parallel info policy children) (.parallel info' policy children') := by
  have hchained : g.Chained true children children' := .of_forall₂ h
  refine ⟨hchained.leaves, fun hasks trace trace' input => ?_⟩
  rw [Node.process, Node.process, Node.reflect_traced, Node.reflect_traced]
  have hall := List.forall₂_iff_get.1 h
  cases h with
  | nil => exact .done _
  | cons hchild hrest =>
    simp only [Process.reflect, Process.reflectAll_eq_map, Node.branches_eq_map, List.map_map,
      Outcome.flip_false]
    refine .parallel _ input ?_ (fun i child child' hi hi' => ?_) .done
    · rw [List.map_map, List.map_map]
      exact hwait
    · rw [List.getElem?_map, Option.map_eq_some_iff] at hi hi'
      obtain ⟨node, hnode, rfl⟩ := hi
      obtain ⟨node', hnode', rfl⟩ := hi'
      obtain ⟨hlt, rfl⟩ := List.getElem?_eq_some_iff.1 hnode
      obtain ⟨hlt', rfl⟩ := List.getElem?_eq_some_iff.1 hnode'
      exact (hall.2 i hlt hlt').process (hasks.child (List.mem_of_getElem? hnode)) _ _ input

theorem decorator (d : Decorator) (h : g.Nodes tree tree') :
    g.Nodes (.decorator info d tree) (.decorator info' d tree') := by
  refine ⟨h.leaves, fun hasks trace trace' input => ?_⟩
  rw [Node.process, Node.process, Node.reflect_traced, Node.reflect_traced,
    Process.reflect_bind false false false, Process.reflect_bind false false false]
  exact (h.process (hasks.child List.mem_cons_self) _ _ input).bind fun outcome => .done _

/-- A sequence or a selector around one node. -/
theorem wrap (h : g.Nodes tree tree') : g.Nodes tree (.inOrder whileSuccess info' [tree']) := by
  refine ⟨?_, fun hasks trace trace' input => ?_⟩
  · rw [Node.leafNodes_inOrder]
    simpa only [Node.leafNodesAll, List.append_nil] using h.leaves
  · obtain ⟨outcome, hgoes, rfl⟩ := Node.exists_outcome whileSuccess input
    rw [Node.reflect_inOrder hgoes, Node.chain, if_pos hgoes,
      Process.reflect_bind false false false]
    simp only [Node.chain, Process.reflect, Outcome.flip_false, Process.bind_done]
    exact h.process hasks _ _ _

/-- Two inverters, one around the other. -/
theorem inverters {outer inner : NodeInfo} (h : g.Nodes tree tree') :
    g.Nodes tree (.decorator outer .invert (.decorator inner .invert tree')) := by
  refine ⟨h.leaves, fun hasks trace trace' input => ?_⟩
  simp only [Node.process, Node.reflect_traced, Process.reflect_bind false false false,
    Process.bind_assoc, Outcome.flip_false, Process.reflect, Process.bind, Decorator.apply,
    Outcome.invert_invert, Process.bind_done]
  exact h.process hasks _ _ input

end Nodes

/-- A node whose children are themselves with the new frames somewhere else. -/
theorem Nodes.same (hscope : g.Scopes tree.scope tree.scope)
    (h : ∀ child ∈ tree.children, g.Nodes child child) : g.Nodes tree tree := by
  cases tree with
  | leaf info path action => exact .leaf hscope path action
  | sequence info children =>
    exact inOrder (Chained.of_forall₂ (List.forall₂_same.2 h) : g.Chained true children children)
  | selector info children =>
    exact inOrder (Chained.of_forall₂ (List.forall₂_same.2 h) : g.Chained false children children)
  | parallel info policy children => exact .parallel policy (List.forall₂_same.2 h) rfl
  | decorator info d child => exact .decorator d (h child List.mem_cons_self)

/-- Children that are made children of a sequence or a selector among them. -/
theorem Chained.gather (h : g.Chained whileSuccess children children') :
    g.Chained whileSuccess children [.inOrder whileSuccess info children'] := by
  refine ⟨?_, fun hasks trace trace' outcome => ?_⟩
  · simpa only [Node.leafNodesAll, List.append_nil, Node.leafNodes_inOrder] using h.leaves
  · by_cases hgoes : outcome.isSuccess = whileSuccess
    · simp only [Node.chain, if_pos hgoes, Process.bind_done]
      rw [Node.reflect_inOrder hgoes]
      exact h.process hasks _ _ outcome
    · rw [Node.chain_stops hgoes, Node.chain_stops hgoes]
      exact .done outcome

end Gap

end BehaviorTree
