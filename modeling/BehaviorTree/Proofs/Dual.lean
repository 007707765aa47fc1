import BehaviorTree.Proofs.Compiling
import BehaviorTree.Proofs.Reflection

/-!
# Dual trees

The dual of a tree has sequences for selectors, and every other thing that tells success from
failure exchanged in the same way; its leaves are inverted one by one. Its process is that of the
tree turned over (`Node.process_dual`), but for the lines of the trace.
-/

namespace BehaviorTree

namespace Decorator

def dual : Decorator → Decorator
  | invert => invert
  | success => failure
  | failure => success

theorem apply_dual (d : Decorator) (outcome : Outcome) :
    d.dual.apply outcome.invert = (d.apply outcome).invert := by
  cases d <;> cases outcome <;> rfl

end Decorator

namespace Node

mutual

/-- The tree with success and failure exchanged at every node. A leaf calls its action as it did,
in its own scope; an inverter around it takes its place among the children of a parallel node. -/
def dual : Node → Node
  | leaf info path action =>
    decorator { info with title := none, debug := none } .invert (leaf info path action)
  | sequence info children => selector info (dualAll children)
  | selector info children => sequence info (dualAll children)
  | parallel info policy children => parallel info policy.swap (dualAll children)
  | decorator info d child => decorator info d.dual (dual child)

def dualAll : List Node → List Node
  | [] => []
  | child :: rest => dual child :: dualAll rest

end

theorem waitForMe_dual (tree : Node) : tree.dual.info.waitForMe = tree.info.waitForMe := by
  cases tree <;> rfl

/-- No parallel node of the tree is without children. -/
def NoEmptyParallel (tree : Node) : Prop :=
  ∀ position info policy, tree.at? position ≠ some (.parallel info policy [])

theorem NoEmptyParallel.child {tree child : Node} (h : tree.NoEmptyParallel)
    (hchild : child ∈ tree.children) : child.NoEmptyParallel := by
  intro position info policy hat
  obtain ⟨i, hi⟩ := List.mem_iff_getElem?.1 hchild
  refine h (i :: position) info policy ?_
  rw [at?, hi]
  exact hat

section Reflect

variable {on flip : Bool}

/-- The lines around a node are all that tracing adds to it. -/
theorem reflect_traced (trace : Trace) (node : Node) (body : Trace → Process) :
    (traced trace node body).reflect on flip
      = (body (trace.inside node.info)).reflect on flip := by
  unfold traced
  rw [Process.reflect_emitAll, Process.reflect_bind on flip flip]
  simp only [Process.reflect_emitAll, Process.reflect, Outcome.flip_flip]
  exact Process.bind_done _

/-- A leaf does what it did, and then its outcome is inverted. -/
theorem reflect_call (trace trace' : Trace) (info : NodeInfo) (path : Option String)
    (action : Action) (input : Value) :
    (call trace info path action input).reflect true true
      = ((call trace' info path action input).reflect false false).bind
        fun outcome => .done outcome.invert := by
  have hformed : (Process.emit (.call info.scope path input) fun _ =>
      action.process info.scope input).Formed false :=
    .emit _ (Action.process_formed info.scope input action)
  unfold call
  rw [Process.reflect_emitAll, Process.reflect_emitAll]
  exact hformed.reflect_eq true true

/-- Trees whose processes are each other's, turned over. -/
def Mirrored (tree other : Node) : Prop :=
  ∀ trace trace' input,
    (other.process trace' input).reflect false false = (tree.process trace input).reflect true true

theorem reflect_chain_dual : ∀ {children : List Node},
    (∀ child ∈ children, child.Mirrored child.dual) →
    ∀ (whileSuccess : Bool) (trace trace' : Trace) (outcome : Outcome),
    (chain (!whileSuccess) (dualAll children) trace' outcome.invert).reflect false false
      = (chain whileSuccess children trace outcome).reflect true true
  | [], _, whileSuccess, trace, trace', outcome => by
    simp [dualAll, chain, Process.reflect]
  | child :: rest, h, whileSuccess, trace, trace', outcome => by
    have ih := reflect_chain_dual fun c hc => h c (List.mem_cons_of_mem child hc)
    have hgoes : outcome.invert.isSuccess = (!whileSuccess) ↔ outcome.isSuccess = whileSuccess := by
      rw [Outcome.isSuccess_invert, Bool.not_inj_iff]
    have hafter : ∀ outcome,
        (chain (!whileSuccess) (dualAll rest) trace' outcome).reflect false false
          = (chain whileSuccess rest trace outcome.invert).reflect true true := fun outcome => by
      rw [← ih whileSuccess trace trace', Outcome.invert_invert]
    simp only [dualAll, chain]
    by_cases hsame : outcome.isSuccess = whileSuccess
    · rw [if_pos (hgoes.2 hsame), if_pos hsame, Process.reflect_bind false false false,
        Process.reflect_bind true true true, Outcome.payload_invert,
        h child List.mem_cons_self trace trace']
      simp only [Outcome.flip_false, Outcome.flip_true, hafter]
    · rw [if_neg (mt hgoes.1 hsame), if_neg hsame]
      simp [Process.reflect]

theorem reflectAll_branches_dual : ∀ {children : List Node},
    (∀ child ∈ children, child.Mirrored child.dual) → ∀ (trace trace' : Trace) (input : Value),
    Process.reflectAll false (branches (dualAll children) trace' input)
      = Process.reflectAll true (branches children trace input)
  | [], _, _, _, _ => rfl
  | child :: rest, h, trace, trace', input => by
    simp only [dualAll, branches, Process.reflectAll, waitForMe_dual]
    rw [h child List.mem_cons_self trace trace',
      reflectAll_branches_dual (fun c hc => h c (List.mem_cons_of_mem child hc)) trace trace']

end Reflect

/-- The dual of a tree runs as the tree does, turned over. -/
theorem process_dual {tree : Node} (h : tree.NoEmptyParallel) : tree.Mirrored tree.dual := by
  induction tree using Node.induction with
  | step tree ih =>
    have hchildren : ∀ child ∈ tree.children, child.Mirrored child.dual := fun child hchild =>
      ih child hchild (h.child hchild)
    intro trace trace' input
    cases tree with
    | leaf info path action =>
      simp only [dual, process, reflect_traced, Process.reflect_bind false false false,
        Process.reflect, Outcome.flip_false, Decorator.apply]
      exact (reflect_call _ _ info path action input).symm
    | sequence info children =>
      simp only [dual, process, reflect_traced]
      exact reflect_chain_dual hchildren true _ _ (.success input)
    | selector info children =>
      simp only [dual, process, reflect_traced]
      exact reflect_chain_dual hchildren false _ _ (.failure input)
    | parallel info policy children =>
      cases children with
      | nil => exact absurd rfl (h [] info policy)
      | cons child rest =>
        have hbranches := reflectAll_branches_dual hchildren (trace.inside info)
          (trace'.inside info) input
        simp only [Node.children, dualAll] at hbranches
        simp only [dual, dualAll, process, reflect_traced, Node.info, Process.reflect, hbranches,
          Outcome.flip_false, Outcome.flip_flip]
        rfl
    | decorator info d child =>
      have happly : ∀ outcome, d.dual.apply outcome = (d.apply outcome.invert).invert :=
        fun outcome => by rw [← Decorator.apply_dual, Outcome.invert_invert]
      simp only [dual, process, reflect_traced, Node.info]
      rw [Process.reflect_bind false false false, Process.reflect_bind true true true,
        hchildren child List.mem_cons_self (trace.inside info) (trace'.inside info)]
      simp only [Process.reflect, Outcome.flip_false, Outcome.flip_true, happly]

end Node

end BehaviorTree
