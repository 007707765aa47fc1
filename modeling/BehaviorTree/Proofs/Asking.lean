import BehaviorTree.Proofs.Compiling

/-!
# What actions ask for

What holds of every request that an action makes, in its calls and in work that goes on after them
(`Action.Asks`), whatever the answers are.
-/

namespace BehaviorTree

/-- Code with nothing but requests and results of some kinds. -/
def Code.Asks {α : Type} (R : Request Unit → Prop) (P : α → Prop) : Code α → Prop
  | done result => P result
  | panic _ => True
  | ask request next => R request ∧ ∀ answer, (next answer).Asks R P
  | put _ next => (next ()).Asks R P
  | sleep _ next => (next ()).Asks R P
  | complete _ next => (next ()).Asks R P

/-- An action that makes requests of some kind only. -/
def Action.Asks (R : Request Unit → Prop) : Action → Prop
  | plain call => ∀ input, (call input).Asks R fun _ => True
  | boolean call => ∀ input, (call input).Asks R fun _ => True
  | promise call => ∀ input, (call input).Asks R fun _ => True
  | callback call => ∀ input, (call input).Asks R fun work =>
    ∀ code ∈ work, code.Asks R fun _ => True

/-- A tree whose actions make requests of some kind only. -/
def Node.Asks (R : Request Unit → Prop) (tree : Node) : Prop :=
  ∀ position info path action, tree.at? position = some (.leaf info path action) → action.Asks R

theorem Node.Asks.child {R : Request Unit → Prop} {tree child : Node} (h : tree.Asks R)
    (hchild : child ∈ tree.children) : child.Asks R := by
  intro position info path action hat
  obtain ⟨i, hi⟩ := List.mem_iff_getElem?.1 hchild
  refine h (i :: position) info path action ?_
  rw [at?, hi]
  exact hat

end BehaviorTree
