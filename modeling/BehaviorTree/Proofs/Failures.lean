import BehaviorTree.Proofs.Endings
import BehaviorTree.Proofs.MendedInPlace

/-!
# Mishaps are ordinary failures

Where an action panics, its leaf fails with the message, and where a callback lets go of its
completion handle it fails with a fixed text. A tree runs as if its actions had done so themselves
(`mishaps_are_failures`): with the same outcome, the same calls and the same variables, at every
point of every schedule, in the machine's own order, and in place. Whatever panics, the run comes to
an outcome.
-/

namespace BehaviorTree

/-- A tree, and the same tree with every action mended: each action does what it did up to a mishap,
and then fails with what becomes of it; an action without mishaps is called as before. In any
schedule the two have the same outcome, if any yet, and the same world but for notices, and in a
fair one they come to an outcome. So it is in the machine's own order, and in place, where what is
left over does the same too. -/
theorem mishaps_are_failures (tree : Node) (trace : Trace) (input : Value) (world : World) :
    let process := tree.process trace input
    let mended := tree.mended.process trace input
    (tree.mended.Orderly ∧ ∀ position info path action,
      tree.at? position = some (.leaf info path action) →
      tree.mended.at? position = some (.leaf info path action.mended)
        ∧ (action.Orderly → ∀ scope input,
          action.mended.process scope input = action.process scope input))
    ∧ (∀ schedule : List Move,
      let machine := (Machine.begin process world).pursue schedule
      let machine' := (Machine.begin mended world).pursue schedule
      machine'.outcome? 0 = machine.outcome? 0 ∧ machine.world.SameHeard machine'.world)
    ∧ (∀ schedule : Nat → Move, FairSchedule schedule → ∃ n outcome,
      ((Machine.begin process world).pursue ((List.range n).map schedule)).outcome? 0
        = some outcome)
    ∧ (let result := Machine.call { world } [process]
      let result' := Machine.call { world } [mended]
      result'.1 = result.1 ∧ result.2.world.SameHeard result'.2.world)
    ∧ (let result := process.inPlace world
      let result' := mended.inPlace world
      result'.outcome = result.outcome ∧ result.world.SameHeard result'.world
        ∧ result.drain.SameHeard result'.drain) := by
  intro process mended
  have hmends : process.Mends false mended := tree.process_mends trace input
  refine ⟨⟨tree.mended_orderly, fun position info path action hat => ⟨?_, fun horderly =>
    Action.process_mended horderly⟩⟩, fun schedule => ?_, fun schedule hfair => ?_, ?_, ?_⟩
  · rw [Node.at?_mended, hat]
    rfl
  · have hpursued := (Machine.Mends.begin hmends world).pursue schedule
    refine ⟨hpursued.outcome?_eq ?_, hpursued.world⟩
    obtain ⟨moves, hmoves⟩ := Machine.exists_follow_eq_pursue schedule (Machine.begin process world)
    rw [hmoves, ((Machine.begin process world).retains_follow moves).runsNode Nat.one_pos]
    rfl
  · exact Machine.exists_outcome_of_fair (tree.process_formed trace input) world hfair
  · obtain ⟨houtcomes, hresult⟩ := (Machine.Mends.empty world).call (.cons hmends .nil)
    exact ⟨houtcomes, hresult.world⟩
  · have hresult := hmends.inPlace (rfl : world.SameHeard world)
    exact ⟨hresult.inStep.outcome, hresult.world, hresult.inStep.drain⟩

/-- A parallel node of an action that sets a variable and panics, one that panics after it has
reported, and one that lets go of its handle. The first and the last fail, and that decides; the
variable stays set. -/
theorem mishaps_are_failures_of_three :
    let info : NodeInfo :=
      { title := none, debug := none, waitForMe := false, convention := .plain, scope := ⟨0, []⟩ }
    let boom := Node.leaf info none
      (.plain fun _ => .ask (.set ⟨"x", []⟩ (.bool true)) fun _ => .panic "boom")
    let late := Node.leaf info none
      (.callback fun v => .complete (some (.success v)) fun _ => .panic "late")
    let drops := Node.leaf info none (.callback fun _ => .done none)
    let tree := Node.parallel info { maxFail := .count 2 } [boom, late, drops]
    let trace : Trace := { enabled := false, indent := 2 }
    let world : World := { store := { frames := #[.ofList [("x", .null)]] } }
    let run (tree : Node) (schedule : List Move) :=
      (Machine.begin (tree.process trace .null) world).pursue schedule
    let result (tree : Node) := (tree.process trace .null).inPlace world
    FairSchedule comeBack
    ∧ (∃ n outcome, let schedule := (List.range n).map comeBack
      (run tree schedule).outcome? 0 = some outcome
        ∧ (run tree.mended schedule).outcome? 0 = some outcome)
    ∧ (result tree).outcome = .failure (.str "callback dropped without completing")
    ∧ (result tree.mended).outcome = .failure (.str "callback dropped without completing")
    ∧ (result tree.mended).world.store.get? ⟨0, []⟩ ⟨"x", []⟩ = some (.bool true) := by
  intro info boom late drops tree trace world run result
  obtain ⟨-, hany, hfair, -, houtcome, -⟩ := mishaps_are_failures tree trace .null world
  obtain ⟨n, outcome, hended⟩ := hfair comeBack comeBack_fair
  have hdropped : (result tree).outcome
      = .failure (.str "callback dropped without completing") := rfl
  have hset : (result tree.mended).world.store.get? ⟨0, []⟩ ⟨"x", []⟩ = some (.bool true) := rfl
  exact ⟨comeBack_fair, ⟨n, outcome, hended, (hany _).1.trans hended⟩, hdropped,
    houtcome.trans hdropped, hset⟩

end BehaviorTree
