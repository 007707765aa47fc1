import BehaviorTree.Proofs.Executors
import BehaviorTree.Proofs.Fillings

/-!
# Short circuits

A sequence runs its children one after the other up to the first that fails, and a selector up to
the first that succeeds; what comes after that child plays no part (`Executor.ShortCircuits`). This
is said once of whatever carries out processes (`Executor.leads_inOrder`), and so it holds of runs
that are told anything, of runs in place, and of runs on a machine in any order of its steps
(`inOrder_short_circuits`).
-/

namespace BehaviorTree

namespace Executor

variable {σ : Type} (e : Executor σ) (whileSuccess : Bool) (trace : Trace)

/-- Children that all run, the first on the payload of an outcome and every other one on the payload
and from the state that the one before it left, with outcomes that let the next one run. -/
inductive InTurn : List Node → Outcome → σ → Outcome → σ → Prop
  | nil (outcome : Outcome) (s : σ) : InTurn [] outcome s outcome s
  | cons {child : Node} {rest : List Node} {outcome between last : Outcome} {s s' s'' : σ}
    (hchild : e.Leads (child.process trace outcome.payload) s (some between) s')
    (hgoes : between.isSuccess = whileSuccess)
    (hrest : InTurn rest between s' last s'') : InTurn (child :: rest) outcome s last s''

/-- What the children of a sequence or a selector lead to. -/
inductive ShortCircuits : List Node → Outcome → σ → Option Outcome → σ → Prop
  /-- All of them run, and the last outcome is the result. -/
  | all {children : List Node} {outcome last : Outcome} {s s' : σ}
    (h : e.InTurn whileSuccess trace children outcome s last s') :
    ShortCircuits children outcome s (some last) s'
  /-- The first one that does not let the next one run gives the result. -/
  | stops {before : List Node} {child : Node} {outcome between last : Outcome} {s s' s'' : σ}
    (hbefore : e.InTurn whileSuccess trace before outcome s between s')
    (hchild : e.Leads (child.process trace between.payload) s' (some last) s'')
    (hstops : last.isSuccess ≠ whileSuccess) (after : List Node) :
    ShortCircuits (before ++ child :: after) outcome s (some last) s''
  /-- One of them has not ended. -/
  | pending {before : List Node} {child : Node} {outcome between : Outcome} {s s' s'' : σ}
    (hbefore : e.InTurn whileSuccess trace before outcome s between s')
    (hchild : e.Leads (child.process trace between.payload) s' none s'') (after : List Node) :
    ShortCircuits (before ++ child :: after) outcome s none s''

variable {e whileSuccess trace} {children rest : List Node} {child : Node} {outcome : Outcome}
  {s s' last : σ} {r : Option Outcome}

theorem shortCircuits_nil :
    e.ShortCircuits whileSuccess trace [] outcome s r last ↔ r = some outcome ∧ last = s := by
  constructor
  · generalize hchildren : ([] : List Node) = children
    rintro (⟨⟨⟩⟩ | ⟨_, _, _, _⟩ | ⟨_, _, _⟩)
    · exact ⟨rfl, rfl⟩
    all_goals simp at hchildren
  · rintro ⟨rfl, rfl⟩
    exact .all (.nil outcome last)

/-- Children that can run after one that lets the next one run. -/
theorem ShortCircuits.cons {between : Outcome}
    (hchild : e.Leads (child.process trace outcome.payload) s (some between) s')
    (hgoes : between.isSuccess = whileSuccess)
    (h : e.ShortCircuits whileSuccess trace rest between s' r last) :
    e.ShortCircuits whileSuccess trace (child :: rest) outcome s r last := by
  cases h with
  | all h => exact .all (.cons hchild hgoes h)
  | stops hbefore hlast hstops after => exact .stops (.cons hchild hgoes hbefore) hlast hstops after
  | pending hbefore hlast after => exact .pending (.cons hchild hgoes hbefore) hlast after

theorem ShortCircuits.uncons
    (h : e.ShortCircuits whileSuccess trace (child :: rest) outcome s r last) :
    e.Leads (child.process trace outcome.payload) s none last ∧ r = none
      ∨ ∃ between s', e.Leads (child.process trace outcome.payload) s (some between) s'
        ∧ (between.isSuccess = whileSuccess
            ∧ e.ShortCircuits whileSuccess trace rest between s' r last
          ∨ between.isSuccess ≠ whileSuccess ∧ r = some between ∧ last = s') := by
  generalize hchildren : child :: rest = children at h
  cases h with
  | all h =>
    subst hchildren
    cases h with
    | cons hchild hgoes hrest => exact .inr ⟨_, _, hchild, .inl ⟨hgoes, .all hrest⟩⟩
  | stops hbefore hlast hstops after =>
    -- the first child is the one that stops the run, or there are others before that one
    cases hbefore with
    | nil =>
      cases hchildren
      exact .inr ⟨_, _, hlast, .inr ⟨hstops, rfl, rfl⟩⟩
    | cons hchild hgoes hbefore =>
      cases hchildren
      exact .inr ⟨_, _, hchild, .inl ⟨hgoes, .stops hbefore hlast hstops after⟩⟩
  | pending hbefore hlast after =>
    cases hbefore with
    | nil =>
      cases hchildren
      exact .inl ⟨hlast, rfl⟩
    | cons hchild hgoes hbefore =>
      cases hchildren
      exact .inr ⟨_, _, hchild, .inl ⟨hgoes, .pending hbefore hlast after⟩⟩

theorem leads_chain (hgoes : outcome.isSuccess = whileSuccess) :
    e.Leads (Node.chain whileSuccess children trace outcome) s r last
      ↔ e.ShortCircuits whileSuccess trace children outcome s r last := by
  induction children generalizing outcome s with
  | nil => rw [Node.chain, e.leads_done, shortCircuits_nil]
  | cons child rest ih =>
    rw [Node.chain, if_pos hgoes, e.leads_bind]
    constructor
    · rintro (⟨rfl, hchild⟩ | ⟨between, s', hchild, hrest⟩)
      · exact .pending (.nil outcome s) hchild rest
      · by_cases hgoes' : between.isSuccess = whileSuccess
        · exact .cons hchild hgoes' ((ih hgoes').1 hrest)
        · rw [Node.chain_stops hgoes', e.leads_done] at hrest
          obtain ⟨rfl, rfl⟩ := hrest
          exact .stops (.nil outcome s) hchild hgoes' rest
    · intro h
      rcases h.uncons with ⟨hchild, rfl⟩ | ⟨between, s', hchild, ⟨hgoes', hrest⟩ |
        ⟨hstops, rfl, rfl⟩⟩
      · exact .inl ⟨rfl, hchild⟩
      · exact .inr ⟨between, s', hchild, (ih hgoes').2 hrest⟩
      · refine .inr ⟨between, _, hchild, ?_⟩
        rw [Node.chain_stops hstops, e.leads_done]
        exact ⟨rfl, rfl⟩

/-- A node writes its lines before and after what it does, if that ends. -/
theorem leads_traced {node : Node} {body : Trace → Process} :
    e.Leads (Node.traced trace node body) s r last
      ↔ ∃ s', e.Leads (body (trace.inside node.info)) (e.write (trace.enter node) s) r s'
        ∧ last = r.elim s' fun outcome => e.write ((trace.inside node.info).exit outcome) s' := by
  unfold Node.traced
  simp only []
  rw [e.leads_lines, e.leads_bind]
  constructor
  · rintro (⟨rfl, hbody⟩ | ⟨outcome, s', hbody, hexit⟩)
    · exact ⟨last, hbody, rfl⟩
    · rw [e.leads_lines, e.leads_done] at hexit
      obtain ⟨rfl, rfl⟩ := hexit
      exact ⟨s', hbody, rfl⟩
  · rintro ⟨s', hbody, rfl⟩
    cases r with
    | none => exact .inl ⟨rfl, hbody⟩
    | some outcome =>
      refine .inr ⟨outcome, s', hbody, ?_⟩
      rw [e.leads_lines, e.leads_done]
      exact ⟨rfl, rfl⟩

variable (e whileSuccess trace)

/-- What a run of a sequence or a selector leads to: of its children with its input as an outcome
that lets the first one run, between its own lines of the trace. -/
def RunsInOrder (info : NodeInfo) (children : List Node) (input : Value) (s : σ)
    (r : Option Outcome) (last : σ) : Prop :=
  let inside := trace.inside info
  let given : Outcome := if whileSuccess then .success input else .failure input
  ∃ s', e.ShortCircuits whileSuccess inside children given
      (e.write (trace.enter (.inOrder whileSuccess info children)) s) r s'
    ∧ last = r.elim s' fun outcome => e.write (inside.exit outcome) s'

variable {e whileSuccess trace}

theorem leads_inOrder {info : NodeInfo} {input : Value} :
    e.Leads ((Node.inOrder whileSuccess info children).process trace input) s r last
      ↔ e.RunsInOrder whileSuccess trace info children input s r last := by
  have hgoes : (if whileSuccess then Outcome.success input else .failure input).isSuccess
      = whileSuccess := by
    cases whileSuccess <;> rfl
  unfold RunsInOrder
  simp only [← leads_chain hgoes]
  cases whileSuccess <;> exact leads_traced

end Executor

/-- The first task of a machine of its own. -/
def Opening.start (world : World) (schedule : List Move) : Opening where
  machine := { tasks := #[{ state := .draining, called := true }], world }
  schedule
  pos := Nat.one_pos
  state := rfl
  listener := rfl

/-- A call on a machine of its own leads to what it leads to in some order of the steps. Work in the
background may go on after the end of the process. -/
theorem Opening.exists_leads_of_call (process : Process) (world : World) :
    ∃ schedule r last, Leads process (start world schedule) r last
      ∧ (Machine.call { world } [process]).1 = [r]
      ∧ ∃ state, ((last.machine.setState 0 state).follow last.schedule).Resembles
        (Machine.call { world } [process]).2 := by
  obtain ⟨schedule, hagrees, hcall⟩ := Machine.exists_follow_eq_call process world
  obtain ⟨r, last, hleads⟩ := exists_leads process (start world schedule)
  obtain ⟨state, hfollow, houtcome⟩ :=
    Machine.exists_follow_eq 0 (.step 0 :: schedule) (Machine.begin process world)
  have huntil : Machine.untilEnd 0 (.step 0 :: schedule) (Machine.begin process world)
      = (r, last.machine, last.schedule) := hleads
  rw [huntil] at hfollow houtcome
  have hresult : (Machine.call { world } [process]).2.outcome? 0 = r := by
    rw [Machine.outcome?, hagrees.state 0]
    exact houtcome
  refine ⟨schedule, r, last, hleads, by rw [hcall, hresult], state, ?_⟩
  exact hfollow ▸ hagrees.toResembles

/-- A sequence runs its children in order, each on the payload and in the state that the one before
left, up to and including the first one that fails, and returns the outcome of that one; if none
fails it returns the outcome of the last one, or its input as a success if there are no children.
Nothing of the children after that happens. A selector does the same with success and failure
exchanged. This is all that a run can lead to: whatever it is told, in place, and on a machine with
any other tasks and in any order of their steps, the machine's own order among them. -/
theorem inOrder_short_circuits (whileSuccess : Bool) (info : NodeInfo) (children : List Node)
    (trace : Trace) (input : Value) :
    let process := (Node.inOrder whileSuccess info children).process trace input
    (∀ s, (∃ outcome last, Executor.told.Leads process s (some outcome) last)
      ∧ ∀ r last, Executor.told.Leads process s r last
        ↔ Executor.told.RunsInOrder whileSuccess trace info children input s r last)
    ∧ (∀ s, (∃ outcome last, Executor.inPlace.Leads process s (some outcome) last)
      ∧ ∀ r last, Executor.inPlace.Leads process s r last
        ↔ Executor.inPlace.RunsInOrder whileSuccess trace info children input s r last)
    ∧ (∀ s, (∃ r last, Executor.onMachine.Leads process s r last)
      ∧ ∀ r last, Executor.onMachine.Leads process s r last
        ↔ Executor.onMachine.RunsInOrder whileSuccess trace info children input s r last)
    ∧ ∀ world, ∃ schedule r last, Executor.onMachine.Leads process (.start world schedule) r last
      ∧ (Machine.call { world } [process]).1 = [r]
      ∧ ∃ state, ((last.machine.setState 0 state).follow last.schedule).Resembles
        (Machine.call { world } [process]).2 := by
  intro process
  refine ⟨fun s => ⟨?_, fun r last => Executor.leads_inOrder⟩,
    fun s => ⟨⟨_, _, rfl, rfl⟩, fun r last => Executor.leads_inOrder⟩,
    fun s => ⟨Executor.onMachine.exists_leads process s, fun r last => Executor.leads_inOrder⟩,
    Opening.exists_leads_of_call process⟩
  obtain ⟨xs, outcome, h⟩ := process.exists_ends
  exact ⟨outcome, _, xs, outcome, h, rfl, rfl⟩

end BehaviorTree
